import XGossip.Merkle.Sync

namespace XGossip
set_option autoImplicit true

variable {sha1 : List MerkleHash → MerkleHash} {A B s : Keylist} {n m : MerkleNode}
  {p q k : MerkleHash}

section Places

theorem prefixMatch_mono (h : prefixMatch d a b) (hd : d' ≤ d) : prefixMatch d' a b := by
  simp only [prefixMatch, List.all_eq_true, List.mem_range] at h ⊢
  exact fun i hi => h i (by omega)

theorem prefixMatch_self (d : Nat) (a : MerkleHash) : prefixMatch d a a := prefixMatch_iff.2 rfl

theorem under_congr (s : Keylist) (h : prefixMatch d p q) : s.under d p = s.under d q := by
  ext k
  rw [Keylist.mem_under, Keylist.mem_under, prefixMatch_iff, prefixMatch_iff, prefixMatch_iff.1 h]

theorem Clear.eq (hp : Clear d p) (hq : Clear d q) (h : prefixMatch d p q) : p = q := by
  have hdiv := prefixMatch_iff.1 h
  apply BitVec.eq_of_toNat_eq
  rw [← Nat.div_mul_cancel hp, hdiv, Nat.div_mul_cancel hq]

structure Place (A B : Keylist) (d : Nat) (p : MerkleHash) : Prop where
  clear : Clear d p
  depth : d ≤ 26
  left : ∀ d' < d, 64 < (A.under d' p).card
  right : ∀ d' < d, 64 < (B.under d' p).card

theorem Place.root (A B : Keylist) : Place A B 0 0 :=
  ⟨clear_zero 0, by omega, fun _ h => by omega, fun _ h => by omega⟩

theorem Place.child (h : Place A B d p) (hA : 64 < (A.under d p).card)
    (hB : 64 < (B.under d p).card) {i : Fin 64} (hq : writeSlot p d i = some q) :
    Place A B (d + 1) q := by
  have hd := depth_le_of_card h.clear hA
  have hqp : prefixMatch d q p :=
    ((match_child h.clear hd hq).1 (prefixMatch_self (d + 1) q)).1
  have hlt : ∀ {s : Keylist}, (∀ d' < d, 64 < (s.under d' p).card) → 64 < (s.under d p).card →
      ∀ d' < d + 1, 64 < (s.under d' q).card := by
    intro s hs hsd d' hd'
    rw [under_congr s (prefixMatch_mono hqp (show d' ≤ d by omega))]
    rcases Nat.lt_or_eq_of_le (Nat.le_of_lt_succ hd') with h | rfl
    · exact hs d' h
    · exact hsd
  exact ⟨clear_child h.clear hd hq, by omega, hlt h.left hA, hlt h.right hB⟩

theorem lookupAt_spec (hn : Canon sha1 True s d q n) (hq : Clear d q) (hpq : prefixMatch d p q)
    (hp : Clear D p) (hd : d ≤ D) (hinner : ∀ d', d ≤ d' → d' < D → 64 < (s.under d' p).card) :
    ∃ n', lookupAt D p d n = (D, n') ∧ Canon sha1 True s D p n' := by
  have hend : ∀ {d q n}, Canon sha1 True s d q n → Clear d q → prefixMatch d p q → d = D →
      Canon sha1 True s D p n := by
    rintro d q n hn hq hpq rfl
    rwa [hp.eq hq hpq]
  induction hn with
  | @leaf d q hash hcard hhash =>
    rcases Nat.lt_or_eq_of_le hd with hlt | rfl
    · have hgt := hinner d (Nat.le_refl _) hlt
      rw [under_congr s hpq] at hgt
      omega
    · exact ⟨_, rfl, hend (.leaf hcard hhash) hq hpq rfl⟩
  | @inner d q hash entry hcard hhash hentry ih =>
    rw [lookupAt]
    split
    · next hD =>
      subst hD
      exact ⟨_, rfl, hend (.inner hcard hhash hentry) hq hpq rfl⟩
    · have hd' := depth_le_of_card hq hcard
      obtain ⟨c, hc, hclear, hmatch⟩ := slot_child hq hd' (branch p d)
      exact ih _ c hc hclear ((hmatch p).2 ⟨hpq, rfl⟩) (by omega)
        fun d' h₁ h₂ => hinner d' (by omega) h₂

theorem lookup_spec {t : MerkleTree} (ht : Canon sha1 True t.keylist 0 0 t.root) (hp : Clear d p)
    (hinner : ∀ d' < d, 64 < (t.keylist.under d' p).card) :
    ∃ n, t.lookup d p = (d, n) ∧ t.lookupExact d p = some n ∧ Canon sha1 True t.keylist d p n := by
  obtain ⟨n, hn, hcanon⟩ := lookupAt_spec ht (clear_zero 0) (prefixMatch_zero p) hp (Nat.zero_le d)
    fun d' _ h => hinner d' h
  refine ⟨n, hn, ?_, hcanon⟩
  rw [MerkleTree.lookupExact, MerkleTree.lookup, hn]
  exact if_pos rfl

def hashInput (s : Keylist) (d : Nat) (p : MerkleHash) : MerkleNode → Bool × List MerkleHash
  | .leaf .. => (true, (s.under d p).sorted)
  | .inner _ _ entry => (false, List.ofFn fun i => (entry i).hash)

/-- Where both trees have a node, the hash tells the nodes apart. -/
def CollisionFree (sha1 : List MerkleHash → MerkleHash) (A B : Keylist) : Prop :=
  ∀ d p n m, Place A B d p → Canon sha1 True A d p n → Canon sha1 True B d p m → n.hash = m.hash →
    hashInput A d p n = hashInput B d p m

/-- Nodes of one hash have the same keys. -/
theorem under_eq_of_hash (hfree : CollisionFree sha1 A B) (hn : Canon sha1 True A d p n)
    (hm : Canon sha1 True B d p m) (hp : Place A B d p) (h : n.hash = m.hash) :
    A.under d p = B.under d p := by
  have hmem : ∀ {s s' : Keylist}, s.sorted = s'.sorted → s = s' := fun h => by
    ext k
    rw [← Keylist.mem_sorted, h, Keylist.mem_sorted]
  induction hn generalizing m with
  | leaf hcard hhash =>
    have hinput := hfree _ _ _ _ hp (.leaf hcard hhash) hm h
    cases hm with
    | leaf => exact hmem (Prod.mk.inj hinput).2
    | inner => simp [hashInput] at hinput
  | @inner d p hash entry hcard hhash hentry ih =>
    have hinput := hfree _ _ _ _ hp (.inner hcard hhash hentry) hm h
    cases hm with
    | leaf => simp [hashInput] at hinput
    | @inner _ _ hash' entry' hcard' hhash' hentry' =>
      have hhashes := List.ofFn_injective (Prod.mk.inj hinput).2
      have hd := depth_le_of_card hp.clear hcard
      ext k
      obtain ⟨q, hq, -, hmatch⟩ := slot_child hp.clear hd (branch k d)
      have hchild := ih _ q hq (hentry' _ q hq) (hp.child hcard hcard' hq) (congrFun hhashes _)
      have hk := congrArg (k ∈ ·) hchild
      simp only [Keylist.mem_under, hmatch, and_true, eq_iff_iff] at hk
      rw [Keylist.mem_under, Keylist.mem_under]
      exact hk

end Places

section Compare

theorem mem_compareLoop_true {lkeys rkeys : List MerkleHash} (h : rkeys.Nodup) :
    (k, true) ∈ compareLoop lo hi lkeys rkeys ↔ k ∈ rkeys ∧ k ∉ lkeys := by
  induction lkeys generalizing rkeys with
  | nil => simp [compareLoop]
  | cons a lkeys ih =>
    rw [compareLoop]
    split
    · next ha =>
      have hne : k ∈ rkeys → k ≠ a := fun hk he => ha.1 (he ▸ hk)
      simp only [List.mem_cons, Prod.mk.injEq, Bool.true_eq_false, and_false, false_or, ih h]
      grind
    · rw [ih (h.erase a), h.mem_erase_iff]
      simp only [List.mem_cons, not_or]
      tauto

theorem mem_compareLoop_false {lkeys rkeys : List MerkleHash} (h : lkeys.Nodup) :
    (k, false) ∈ compareLoop lo hi lkeys rkeys ↔
      k ∈ lkeys ∧ k ∉ rkeys ∧ betweenbothincl lo hi k.toNat := by
  induction lkeys generalizing rkeys with
  | nil => simp [compareLoop]
  | cons a lkeys ih =>
    obtain ⟨ha, hl⟩ := List.nodup_cons.1 h
    rw [compareLoop]
    split
    · next hrep =>
      simp only [List.mem_cons, Prod.mk.injEq, and_true, ih hl]
      grind
    · next hrep =>
      rw [ih hl]
      have herase : k ∈ lkeys → (k ∈ rkeys.erase a ↔ k ∈ rkeys) := fun hk =>
        List.mem_erase_of_ne fun he => ha (he ▸ hk)
      grind

theorem mem_compareKeylists_true {lkeys rkeys : List MerkleHash} (h : rkeys.Nodup) :
    (k, true) ∈ compareKeylists lkeys rkeys lo hi ↔
      k ∈ rkeys ∧ betweenbothincl lo hi k.toNat ∧ k ∉ lkeys := by
  rw [compareKeylists, mem_compareLoop_true (h.filter _), List.mem_filter, and_assoc]

theorem mem_compareKeylists_false {lkeys rkeys : List MerkleHash} (h : lkeys.Nodup) :
    (k, false) ∈ compareKeylists lkeys rkeys lo hi ↔
      k ∈ lkeys ∧ k ∉ rkeys ∧ betweenbothincl lo hi k.toNat := by
  rw [compareKeylists, mem_compareLoop_false h, List.mem_filter]
  tauto

theorem betweenbothincl_left (a b : Nat) : betweenbothincl a b a := by
  rcases Nat.lt_or_ge a b with h | h
  · exact betweenbothincl_of_le (Nat.le_refl _) (Nat.le_of_lt h)
  · simp [betweenbothincl, Nat.not_lt.2 h]

theorem nodup_sorted (s : Keylist) : s.sorted.Nodup := s.sort_nodup keyLe

theorem getKeyrange_eq (s : Keylist) (h : lo < hi) (n : Nat) :
    getKeyrange s lo hi n =
      (s.sorted.filter fun k => betweenbothincl lo hi k.toNat).take n := by
  have hP : ∀ k : MerkleHash, betweenbothincl lo hi k.toNat ↔ lo ≤ k.toNat ∧ k.toNat < hi + 1 :=
    fun k => by rw [betweenbothincl_iff_of_lt h, Nat.lt_succ_iff]
  rw [getKeyrange, ← takeWhile_fromClosestsucc s.sorted_lt _ hP, List.take_takeWhile]

theorem fromClosestsucc_self {s : Keylist} (h : k ∈ s) :
    ∃ l, fromClosestsucc s.sorted k.toNat = k :: l := by
  have hP : ∀ a : MerkleHash, decide (a = k) ↔ k.toNat ≤ a.toNat ∧ a.toNat < k.toNat + 1 := by
    intro a
    rw [decide_eq_true_iff, ← BitVec.toNat_inj]
    omega
  have hfilter := takeWhile_fromClosestsucc s.sorted_lt _ hP
  have hmem : k ∈ s.sorted.filter fun a => decide (a = k) := by
    simpa using Keylist.mem_sorted.2 h
  rw [← hfilter] at hmem
  cases hl : fromClosestsucc s.sorted k.toNat with
  | nil => simp [hl] at hmem
  | cons a l =>
    rw [hl, List.takeWhile_cons] at hmem
    split at hmem
    · next ha => exact ⟨l, by rw [of_decide_eq_true ha]⟩
    · simp at hmem

end Compare

section Session

variable {r : KeyRange} {t : MerkleTree}

def KeyRange.Goes (r : KeyRange) (r' : Option KeyRange) (k : MerkleHash) : Prop :=
  ∃ r'', r' = some r'' ∧ r''.current ≤ k.toNat ∧ r''.rngmax = r.rngmax ∧ r''.lkeys = r.lkeys

theorem mem_take_of_le {l : List MerkleHash} {n : Nat} (hl : l.Pairwise fun a b => a.toNat < b.toNat)
    (hlast : (l.take n).getLast? = some c) (hk : k ∈ l) (hle : k.toNat ≤ c.toNat) :
    k ∈ l.take n := by
  rw [← List.take_append_drop n l] at hk hl
  rcases List.mem_append.1 hk with hk | hk
  · exact hk
  · have := (List.pairwise_append.1 hl).2.2 c (List.mem_of_getLast? hlast) k hk
    omega

theorem le_getLast {l : List MerkleHash} (hl : l.Pairwise fun a b => a.toNat < b.toNat)
    (hlast : l.getLast? = some c) (hk : k ∈ l) : k.toNat ≤ c.toNat := by
  obtain ⟨l', rfl⟩ := List.getLast?_eq_some_iff.1 hlast
  rcases List.mem_append.1 hk with hk | hk
  · exact Nat.le_of_lt ((List.pairwise_append.1 hl).2.2 k hk c List.mem_cons_self)
  · rw [List.mem_singleton.1 hk]

theorem getkeys_nodup (t : MerkleTree) (lo hi : Nat) :
    (handleGetKeys t lo hi).1.Nodup ∧ ∀ c ∈ (handleGetKeys t lo hi).1, c ∈ t.keylist := by
  have hsub : (handleGetKeys t lo hi).1.Sublist (fromClosestsucc t.keylist.sorted lo) :=
    (List.take_sublist _ _).trans ((List.takeWhile_sublist _).trans (List.take_sublist _ _))
  have hsuffix : (fromClosestsucc t.keylist.sorted lo).Sublist t.keylist.sorted := by
    rw [fromClosestsucc]
    split
    · exact List.Sublist.refl _
    · exact List.dropWhile_sublist _
  have hkeys := hsub.trans hsuffix
  exact ⟨hkeys.nodup (nodup_sorted _), fun c hc => Keylist.mem_sorted.1 (hkeys.subset hc)⟩

/-- The reply to a session: what comes to be compared, and what is left for later. -/
theorem getkeys_page (hmin : r.rngmin ≤ r.current) (hcur : r.current ≤ k.toNat)
    (hk : k.toNat ≤ r.rngmax) :
    let page := handleGetKeys t r.current r.rngmax
    r.Goes (r.getkeysCb page.1 page.2).2 k ∨
      (k ∈ t.keylist → k ∈ page.1 ∧ betweenbothincl r.current (r.sentmax page.1) k.toNat) ∧
      ((∃ c ∈ t.keylist, k.toNat < c.toNat ∧ c.toNat ≤ r.rngmax) →
        betweenbothincl r.current (r.sentmax page.1) k.toNat) := by
  intro page
  rcases Nat.lt_or_eq_of_le (Nat.le_trans hcur hk) with hlt | heq
  · let full := t.keylist.sorted.filter fun k => betweenbothincl r.current r.rngmax k.toNat
    have hfull : full.Pairwise fun a b => a.toNat < b.toNat := t.keylist.sorted_lt.filter _
    have hmem : ∀ c, c ∈ full ↔ c ∈ t.keylist ∧ r.current ≤ c.toNat ∧ c.toNat ≤ r.rngmax := by
      intro c
      rw [List.mem_filter, Keylist.mem_sorted, betweenbothincl_iff_of_lt hlt]
    have hpage : page = ((full.take 65).take 64, decide ((full.take 65).length = 65)) := by
      change handleGetKeys t r.current r.rngmax = _
      rw [handleGetKeys, getKeyrange_eq _ hlt]
    rw [List.take_take, Nat.min_eq_left (by omega), List.length_take] at hpage
    rw [hpage]
    dsimp only
    by_cases hmore : 65 ≤ full.length
    · have hne : full.take 64 ≠ [] := fun hnil => by
        have := congrArg List.length hnil
        simp only [List.length_take, List.length_nil] at this
        omega
      obtain ⟨c, hc⟩ : ∃ c, (full.take 64).getLast? = some c := ⟨_, List.getLast?_eq_some_getLast hne⟩
      have hsent : r.sentmax (full.take 64) = c.toNat := by rw [KeyRange.sentmax, hc]
      have hcmem := (hmem c).1 (List.mem_of_mem_take (List.mem_of_getLast? hc))
      rw [hsent]
      by_cases hkc : k.toNat ≤ c.toNat
      · have hbetween : betweenbothincl r.current c.toNat k.toNat := betweenbothincl_of_le hcur hkc
        refine .inr ⟨fun hkt => ⟨?_, hbetween⟩, fun _ => hbetween⟩
        exact mem_take_of_le hfull hc ((hmem k).2 ⟨hkt, hcur, hk⟩) hkc
      · refine .inl ⟨{ r with current := c.toNat + 1 }, ?_, by dsimp only; omega, rfl, rfl⟩
        have hinc : incID c.toNat = c.toNat + 1 := incID_of_lt (by
          have := k.isLt
          rw [NBIT]
          omega)
        rw [KeyRange.getkeysCb, hsent, if_pos (by simpa using hmore), hinc, KeyRange.go,
          if_pos (betweenbothincl_of_le (by dsimp only; omega) (by dsimp only; omega))]
    · have htake : full.take 64 = full := List.take_of_length_le (by omega)
      rw [htake]
      have hbetween : ∀ c ∈ full, k.toNat ≤ c.toNat →
          betweenbothincl r.current (r.sentmax full) k.toNat := by
        intro c hc hkc
        obtain ⟨d, hd⟩ : ∃ d, full.getLast? = some d :=
          ⟨_, List.getLast?_eq_some_getLast (List.ne_nil_of_mem hc)⟩
        rw [KeyRange.sentmax, hd]
        exact betweenbothincl_of_le hcur (hkc.trans (le_getLast hfull hd hc))
      refine .inr ⟨fun hkt => ?_, fun ⟨c, hc, hkc, hcm⟩ => ?_⟩
      · have hkf := (hmem k).2 ⟨hkt, hcur, hk⟩
        exact ⟨hkf, hbetween k hkf (Nat.le_refl _)⟩
      · exact hbetween c ((hmem c).2 ⟨hc, by omega, hcm⟩) (Nat.le_of_lt hkc)
  · have hkcur : r.current = k.toNat := by omega
    have hleft : betweenbothincl r.current (r.sentmax page.1) k.toNat := by
      rw [hkcur]
      exact betweenbothincl_left _ _
    refine .inr ⟨fun hkt => ⟨?_, hleft⟩, fun _ => hleft⟩
    obtain ⟨l, hl⟩ := fromClosestsucc_self hkt
    change k ∈ (handleGetKeys t r.current r.rngmax).1
    rw [handleGetKeys, getKeyrange, hkcur, hl, List.take_succ_cons, List.takeWhile_cons,
      if_pos (betweenbothincl_left _ _), List.take_succ_cons]
    exact List.mem_cons_self

end Session

end XGossip
