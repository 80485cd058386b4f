import XGossip.Merkle.Tree

namespace XGossip
set_option autoImplicit true

def leafHash (sha1 : List MerkleHash → MerkleHash) (s : Keylist) (d : Nat) (p : MerkleHash) :
    MerkleHash :=
  if (s.under d p).card = 0 then 0 else sha1 (s.under d p).sorted

def innerHash (sha1 : List MerkleHash → MerkleHash) (entry : Fin 64 → MerkleNode) : MerkleHash :=
  sha1 (List.ofFn fun i => (entry i).hash)

/-- The node at depth `d` under the prefix `p` of the one tree that a set of keys has; its hashes
are up to date where `fresh` holds. -/
inductive Canon (sha1 : List MerkleHash → MerkleHash) (fresh : Prop) (s : Keylist) :
    Nat → MerkleHash → MerkleNode → Prop where
  | leaf {hash : MerkleHash} (hcard : (s.under d p).card ≤ 64)
    (hhash : fresh → hash = leafHash sha1 s d p) :
    Canon sha1 fresh s d p (.leaf (s.under d p).card hash)
  | inner {hash : MerkleHash} {entry : Fin 64 → MerkleNode} (hcard : 64 < (s.under d p).card)
    (hhash : fresh → hash = innerHash sha1 entry)
    (hentry : ∀ (i : Fin 64) q, writeSlot p d i = some q → Canon sha1 fresh s (d + 1) q (entry i)) :
    Canon sha1 fresh s d p (.inner (s.under d p).card hash entry)

variable {sha1 : List MerkleHash → MerkleHash} {fresh : Prop} {s s' : Keylist} {n : MerkleNode}
  {entry : Fin 64 → MerkleNode} {hash key : MerkleHash}

section Canon

theorem Canon.mono {f f' : Prop} (h : Canon sha1 f s d p n) (hf : f' → f) :
    Canon sha1 f' s d p n := by
  induction h with
  | leaf hcard hhash => exact .leaf hcard fun h => hhash (hf h)
  | inner hcard hhash _ ih => exact .inner hcard (fun h => hhash (hf h)) ih

theorem Canon.isleaf_iff (h : Canon sha1 fresh s d p n) :
    n.isleaf = true ↔ (s.under d p).card ≤ 64 := by
  cases h with
  | leaf hcard => exact ⟨fun _ => hcard, fun _ => rfl⟩
  | inner hcard => exact ⟨fun h => by simp [MerkleNode.isleaf] at h, fun h => by omega⟩

theorem slot_child (hp : Clear d p) (hd : d ≤ 25) (i : Fin 64) :
    ∃ q, writeSlot p d i = some q ∧ Clear (d + 1) q ∧
      ∀ k, prefixMatch (d + 1) k q ↔ prefixMatch d k p ∧ branch k d = i := by
  have hi : (i : Nat) < 2 ^ slotBits d := by
    rw [slotBits_eq hd]
    exact i.isLt
  obtain ⟨q, hq, -⟩ := writeSlot_child hp (by omega) hi
  refine ⟨q, hq, writeSlot_clear hp (by omega) hi hq, fun k => ?_⟩
  rw [prefixMatch_child hp (by omega) hi hq, Fin.ext_iff]
  rfl

theorem under_child (s : Keylist) (hp : Clear d p) (hd : d ≤ 25) {i : Fin 64}
    (hq : writeSlot p d i = some q) :
    s.under (d + 1) q = (s.under d p).filter fun k => branch k d = i := by
  obtain ⟨q', hq', -, hmatch⟩ := slot_child hp hd i
  obtain rfl : q' = q := Option.some.inj (hq'.symm.trans hq)
  ext k
  simp only [Keylist.mem_under, Finset.mem_filter, hmatch, and_assoc]

theorem clear_child (hp : Clear d p) (hd : d ≤ 25) {i : Fin 64} (hq : writeSlot p d i = some q) :
    Clear (d + 1) q := by
  obtain ⟨q', hq', hc, -⟩ := slot_child hp hd i
  obtain rfl : q' = q := Option.some.inj (hq'.symm.trans hq)
  exact hc

theorem match_child (hp : Clear d p) (hd : d ≤ 25) {i : Fin 64} (hq : writeSlot p d i = some q) :
    prefixMatch (d + 1) k q ↔ prefixMatch d k p ∧ branch k d = i := by
  obtain ⟨q', hq', -, hmatch⟩ := slot_child hp hd i
  obtain rfl : q' = q := Option.some.inj (hq'.symm.trans hq)
  exact hmatch k

theorem Canon.congr (h : Canon sha1 fresh s d p n) (hp : Clear d p)
    (hs : s.under d p = s'.under d p) : Canon sha1 fresh s' d p n := by
  induction h with
  | leaf hcard hhash =>
    rw [hs]
    exact .leaf (hs ▸ hcard) fun hf => by rw [hhash hf, leafHash, leafHash, hs]
  | inner hcard hhash hentry ih =>
    have hd := depth_le_of_card hp hcard
    rw [hs]
    refine .inner (hs ▸ hcard) hhash fun i q hq => ih i q hq (clear_child hp hd hq) ?_
    rw [under_child s hp hd hq, under_child s' hp hd hq, hs]

theorem Canon.unique (h : Canon sha1 True s d p n) (hp : Clear d p) {n' : MerkleNode}
    (h' : Canon sha1 True s d p n') : n = n' := by
  induction h generalizing n' with
  | leaf hcard hhash =>
    cases h' with
    | leaf _ hhash' => rw [hhash trivial, hhash' trivial]
    | inner hcard' => omega
  | inner hcard hhash hentry ih =>
    have hd := depth_le_of_card hp hcard
    cases h' with
    | leaf hcard' => omega
    | @inner _ _ _ entry' _ hhash' hentry' =>
      have he : ∀ i, _ = entry' i := fun i => by
        obtain ⟨q, hq, hc, -⟩ := slot_child hp hd i
        exact ih i q hq hc (hentry' i q hq)
      obtain rfl := funext he
      rw [hhash trivial, hhash' trivial]

theorem under_insert (h : prefixMatch d k p) : Keylist.under (insert k s) d p =
    insert k (s.under d p) := by
  rw [Keylist.under, Finset.filter_insert, if_pos h]
  rfl

theorem under_erase (s : Keylist) (k : MerkleHash) : Keylist.under (s.erase k) d p =
    (s.under d p).erase k := Finset.filter_erase _ _ _

end Canon

section Rehash

variable (sha1 : List MerkleHash → MerkleHash) (rh : Bool)

theorem clearSuffix_of_match (hp : Clear d p) (hd : d ≤ NUM_SLOTS) (hk : prefixMatch d key p) :
    clearSuffix key d = some p := by
  obtain ⟨q, hq, hnum⟩ := clearSuffix_eq key hd
  rw [prefixMatch_iff.1 hk, Nat.div_mul_cancel hp] at hnum
  rw [hq, BitVec.eq_of_toNat_eq hnum]

theorem rehash_leaf (hp : Clear d p) (hd : d ≤ NUM_SLOTS) (hk : prefixMatch d key p)
    (hcard : (s.under d p).card ≤ 64) (hf : fresh → rh = true) (hash : MerkleHash) :
    ∃ n, rehash sha1 rh s d key (.leaf (s.under d p).card hash) = some n ∧
      Canon sha1 fresh s d p n := by
  cases rh with
  | false => exact ⟨_, rfl, .leaf hcard fun h => (Bool.false_ne_true (hf h)).elim⟩
  | true =>
    by_cases hz : (s.under d p).card = 0
    · refine ⟨.leaf (s.under d p).card 0, by simp [rehash, MerkleNode.count, hz, MerkleNode.setHash],
        .leaf hcard fun _ => ?_⟩
      rw [leafHash, if_pos hz]
    · refine ⟨.leaf (s.under d p).card (sha1 (s.under d p).sorted), ?_, .leaf hcard fun _ => ?_⟩
      · simp [rehash, MerkleNode.count, hz, hcard, clearSuffix_of_match hp hd hk,
          databaseGetKeys_eq s hp]
      · rw [leafHash, if_neg hz]

theorem rehash_inner (hcard : 64 < (s.under d p).card) (hf : fresh → rh = true)
    (hentry : ∀ (i : Fin 64) q, writeSlot p d i = some q → Canon sha1 fresh s (d + 1) q (entry i))
    (key hash : MerkleHash) :
    ∃ n, rehash sha1 rh s d key (.inner (s.under d p).card hash entry) = some n ∧
      Canon sha1 fresh s d p n := by
  cases rh with
  | false => exact ⟨_, rfl, .inner hcard (fun h => (Bool.false_ne_true (hf h)).elim) hentry⟩
  | true =>
    refine ⟨.inner (s.under d p).card (innerHash sha1 entry) entry, ?_,
      .inner hcard (fun _ => rfl) hentry⟩
    have hz : (s.under d p).card ≠ 0 := by omega
    simp [rehash, MerkleNode.count, hz, innerHash]

theorem allOf_spec {f : Fin 64 → Option α} {P : Fin 64 → α → Prop}
    (h : ∀ i, ∃ a, f i = some a ∧ P i a) : ∃ g, allOf f = some g ∧ ∀ i, P i (g i) := by
  have hsome : ∀ i, (f i).isSome := fun i => by
    obtain ⟨a, ha, -⟩ := h i
    rw [ha]
    rfl
  refine ⟨fun i => (f i).get (hsome i), dif_pos hsome, fun i => ?_⟩
  obtain ⟨a, ha, hP⟩ := h i
  simpa [ha] using hP

/-- A full leaf becomes an inner node whose children have its keys. -/
theorem leaf2internal_spec (hp : Clear d p) (hd : d ≤ 25) (hk : prefixMatch d key p)
    (hcard : (s.under d p).card ≤ 64) (hf : fresh → rh = true) (n : MerkleNode) :
    ∃ entry, leaf2internal sha1 rh s d key n = some (.inner n.count n.hash entry) ∧
      ∀ (i : Fin 64) q, writeSlot p d i = some q → Canon sha1 fresh s (d + 1) q (entry i) := by
  have hclear : clearSuffix key d = some p :=
    clearSuffix_of_match hp (by rw [NUM_SLOTS]; omega) hk
  have hchild : ∀ i : Fin 64, ∃ n, (do
      let pre ← writeSlot p d i
      rehash sha1 rh s (d + 1) pre
        (.leaf ((databaseGetKeys s d p).countP fun k => branch k d = i) 0)) = some n ∧
      ∀ q, writeSlot p d i = some q → Canon sha1 fresh s (d + 1) q n := by
    intro i
    obtain ⟨q, hq, hc, -⟩ := slot_child hp hd i
    have hcount : (databaseGetKeys s d p).countP (fun k => branch k d = i) =
        (s.under (d + 1) q).card := by
      rw [databaseGetKeys_eq s hp, List.countP_eq_length_filter, sorted_filter, length_sorted,
        under_child s hp hd hq]
      simp
    have hle : (s.under (d + 1) q).card ≤ 64 := by
      rw [under_child s hp hd hq]
      exact (Finset.card_filter_le _ _).trans hcard
    obtain ⟨n, hn, hcanon⟩ := rehash_leaf sha1 rh hc (by rw [NUM_SLOTS]; omega)
      (prefixMatch_iff.2 (Eq.refl (q.toNat / _))) hle hf 0
    refine ⟨n, by rw [hq, hcount]; exact hn, fun q' hq' => ?_⟩
    obtain rfl : q = q' := Option.some.inj (hq.symm.trans hq')
    exact hcanon
  obtain ⟨entry, hentry, hcanon⟩ := allOf_spec hchild
  refine ⟨entry, ?_, hcanon⟩
  simp only [Option.bind_eq_bind] at hentry
  simp only [leaf2internal, countBlocks, hclear, Option.bind_eq_bind, Option.bind_some,
    Option.pure_def, hentry]

end Rehash

section Modify

variable {rh : Bool}

theorem insertAt_leaf (left : Nat)
    (hn : makeRoom sha1 rh s (NUM_SLOTS - left) key n = some (.leaf count hash)) :
    insertAt sha1 rh key left n s = addKey sha1 rh s (NUM_SLOTS - left) key count hash := by
  cases left with
  | zero =>
    rw [Nat.sub_zero] at hn ⊢
    rw [insertAt, hn]
    rfl
  | succ left =>
    rw [insertAt]
    dsimp only
    rw [hn]
    rfl

theorem insertAt_inner (hd : d + (left + 1) = NUM_SLOTS)
    (hn : makeRoom sha1 rh s d key n = some (.inner count hash entry))
    (hchild : insertAt sha1 rh key left (entry (branch key d)) s = some (child, s'))
    (hnode : rehash sha1 rh s' d key
      (.inner (count + 1) hash (Function.update entry (branch key d) child)) = some n') :
    insertAt sha1 rh key (left + 1) n s = some (n', s') := by
  obtain rfl : NUM_SLOTS - (left + 1) = d := by omega
  rw [insertAt]
  simp only [hn, hchild, hnode, Option.bind_eq_bind, Option.bind_some, Option.pure_def]

theorem ne_of_branch (h : branch k d ≠ branch key d) : k ≠ key := fun he => h (he ▸ rfl)

theorem canon_update (s' : Keylist) (hp : Clear d p) (hd : d ≤ 25)
    (hentry : ∀ (i : Fin 64) q, writeSlot p d i = some q → Canon sha1 fresh s (d + 1) q (entry i))
    (hsame : ∀ k, branch k d ≠ b → (k ∈ s ↔ k ∈ s'))
    (hchild : ∀ q, writeSlot p d b = some q → Canon sha1 fresh s' (d + 1) q child) :
    ∀ (i : Fin 64) q, writeSlot p d i = some q →
      Canon sha1 fresh s' (d + 1) q (Function.update entry b child i) := by
  intro i q hq
  by_cases hi : i = b
  · subst hi
    rw [Function.update_self]
    exact hchild q hq
  · rw [Function.update_of_ne hi]
    refine (hentry i q hq).congr (clear_child hp hd hq) ?_
    ext k
    rw [Keylist.mem_under, Keylist.mem_under, and_congr_left_iff]
    intro hk
    exact hsame k fun hb => hi (((match_child hp hd hq).1 hk).2.symm.trans hb)

theorem card_under_insert (hk : prefixMatch d key p) (hkey : key ∉ s) :
    (Keylist.under (insert key s) d p).card = (s.under d p).card + 1 := by
  rw [under_insert hk, Finset.card_insert_of_notMem fun h => hkey (Keylist.mem_under.1 h).1]

theorem addKey_spec (hp : Clear d p) (hd : d ≤ NUM_SLOTS) (hk : prefixMatch d key p)
    (hkey : key ∉ s) (hcard : (s.under d p).card < 64) (hf : fresh → rh = true)
    (hash : MerkleHash) :
    ∃ n, addKey sha1 rh s d key (s.under d p).card hash = some (n, insert key s) ∧
      Canon sha1 fresh (insert key s) d p n := by
  have hinsert := card_under_insert hk hkey
  obtain ⟨n, hn, hcanon⟩ := rehash_leaf sha1 rh (s := insert key s) hp hd hk (by omega) hf hash
  refine ⟨n, ?_, hcanon⟩
  rw [hinsert] at hn
  rw [addKey, if_neg hkey]
  simp only [hn, Option.bind_eq_bind, Option.bind_some, Option.pure_def]

/-- Before a key is inserted, a node either is a leaf with room for it or has children. -/
theorem makeRoom_spec (hn : Canon sha1 fresh s d p n) (hp : Clear d p)
    (hk : prefixMatch d key p) (hkey : key ∉ s) (hf : fresh → rh = true) :
    (∃ hash, makeRoom sha1 rh s d key n = some (.leaf (s.under d p).card hash) ∧
      (s.under d p).card < 64) ∨
    ∃ hash entry, makeRoom sha1 rh s d key n = some (.inner (s.under d p).card hash entry) ∧
      d ≤ 25 ∧ 64 ≤ (s.under d p).card ∧
      ∀ (i : Fin 64) q, writeSlot p d i = some q → Canon sha1 fresh s (d + 1) q (entry i) := by
  cases hn with
  | @leaf _ _ hash hcard hhash =>
    by_cases hfull : (s.under d p).card = 64
    · have hd : d ≤ 25 := by
        refine depth_le_of_card (s := insert key s) hp ?_
        rw [card_under_insert hk hkey]
        omega
      obtain ⟨entry, hentry, hcanon⟩ :=
        leaf2internal_spec sha1 rh hp hd hk hcard hf (.leaf (s.under d p).card hash)
      refine .inr ⟨hash, entry, ?_, hd, hfull.ge, hcanon⟩
      rw [makeRoom, if_pos ⟨rfl, hfull⟩]
      exact hentry
    · exact .inl ⟨hash, if_neg fun h => hfull h.2, by omega⟩
  | @inner _ _ hash entry hcard hhash hentry =>
    exact .inr ⟨hash, entry, if_neg fun h => Bool.false_ne_true h.1, depth_le_of_card hp hcard,
      hcard.le, hentry⟩

theorem insertAt_spec (rh : Bool) (hn : Canon sha1 fresh s d p n) (hp : Clear d p)
    (hleft : d + left = NUM_SLOTS) (hk : prefixMatch d key p) (hkey : key ∉ s)
    (hf : fresh → rh = true) :
    ∃ n', insertAt sha1 rh key left n s = some (n', insert key s) ∧
      Canon sha1 fresh (insert key s) d p n' := by
  induction left generalizing d p n with
  | zero =>
    rcases makeRoom_spec hn hp hk hkey hf with ⟨hash, hroom, hlt⟩ | ⟨_, _, _, hd, -⟩
    · obtain rfl : NUM_SLOTS - 0 = d := hleft.symm
      rw [insertAt_leaf 0 hroom]
      exact addKey_spec hp (Nat.le_refl _) hk hkey hlt hf hash
    · rw [NUM_SLOTS] at hleft
      omega
  | succ left ih =>
    rcases makeRoom_spec hn hp hk hkey hf with ⟨hash, hroom, hlt⟩ |
      ⟨hash, entry, hroom, hd, hge, hentry⟩
    · obtain rfl : NUM_SLOTS - (left + 1) = d := by omega
      rw [insertAt_leaf _ hroom]
      exact addKey_spec hp (Nat.sub_le _ _) hk hkey hlt hf hash
    · obtain ⟨q, hq, hc, hmatch⟩ := slot_child hp hd (branch key d)
      obtain ⟨child, hchild, hcanon⟩ := ih (hentry _ q hq) hc (by omega) ((hmatch key).2 ⟨hk, rfl⟩)
      have hcard := card_under_insert hk hkey
      have hentry' := canon_update (insert key s) hp hd hentry
        (fun _ hb => (Finset.mem_insert.trans (or_iff_right (ne_of_branch hb))).symm)
        (fun q' hq' => by
          obtain rfl : q = q' := Option.some.inj (hq.symm.trans hq')
          exact hcanon)
      obtain ⟨n', hn', hcanon'⟩ := rehash_inner sha1 rh (by omega) hf hentry' key hash
      rw [hcard] at hn'
      exact ⟨n', insertAt_inner hleft hroom hchild hn', hcanon'⟩

theorem removeAt_spec (rh : Bool) (hn : Canon sha1 fresh s d p n) (hp : Clear d p) (hd : d ≤ NUM_SLOTS)
    (hk : prefixMatch d key p) (hkey : key ∈ s) (hf : fresh → rh = true) :
    ∃ n', removeAt sha1 rh key d n s = some (n', s.erase key) ∧
      Canon sha1 fresh (s.erase key) d p n' := by
  have hcard : ∀ {d p}, prefixMatch d key p →
      (Keylist.under (s.erase key) d p).card + 1 = (s.under d p).card := fun hk => by
    rw [under_erase, Finset.card_erase_add_one (Keylist.mem_under.2 ⟨hkey, hk⟩)]
  induction hn with
  | @leaf d p hash hle hhash =>
    have hc := hcard hk
    obtain ⟨n', hn', hcanon⟩ :=
      rehash_leaf sha1 rh (s := s.erase key) hp hd hk (by omega) hf hash
    refine ⟨n', ?_, hcanon⟩
    rw [removeAt, if_pos ⟨hkey, by omega⟩, ← hc, Nat.add_sub_cancel]
    simp only [hn', Option.bind_eq_bind, Option.bind_some, Option.pure_def]
  | @inner d p hash entry hgt hhash hentry ih =>
    have hc := hcard hk
    have hd' := depth_le_of_card hp hgt
    obtain ⟨q, hq, hclear, hmatch⟩ := slot_child hp hd' (branch key d)
    obtain ⟨child, hchild, hcanon⟩ := ih _ q hq hclear (by rw [NUM_SLOTS]; omega)
      ((hmatch key).2 ⟨hk, rfl⟩)
    have hentry' := canon_update (s.erase key) hp hd' hentry
      (fun _ hb => (Finset.mem_erase.trans (and_iff_right (ne_of_branch hb))).symm)
      (fun q' hq' => by
        obtain rfl : q = q' := Option.some.inj (hq.symm.trans hq')
        exact hcanon)
    have hnode : ∃ n', rehash sha1 rh (s.erase key) d key (internal2leaf
        (.inner (Keylist.under (s.erase key) d p).card hash
          (Function.update entry (branch key d) child))) = some n' ∧
        Canon sha1 fresh (s.erase key) d p n' := by
      rw [internal2leaf]
      split
      · next hle => exact rehash_leaf sha1 rh hp hd hk hle hf hash
      · next hle => exact rehash_inner sha1 rh (by omega) hf hentry' key hash
    obtain ⟨n', hn', hcanon'⟩ := hnode
    refine ⟨n', ?_, hcanon'⟩
    rw [removeAt]
    simp only [hchild, Option.bind_eq_bind, Option.bind_some, Option.pure_def]
    rw [if_neg (by omega), ← hc, Nat.add_sub_cancel]
    simp only [hn', Option.bind_some]

/-- Whatever was stale before, `_hash_tree` makes it fresh. -/
theorem hashTreeAt_spec (hn : Canon sha1 fresh s d p n) (hp : Clear d p) :
    ∃ n', hashTreeAt sha1 s d p n = some n' ∧ Canon sha1 True s d p n' := by
  induction hn with
  | @leaf d p hash hle hhash =>
    refine ⟨.leaf (s.under d p).card (leafHash sha1 s d p), ?_, .leaf hle fun _ => rfl⟩
    rw [hashTreeAt, if_pos hle, databaseGetKeys_eq s hp]
    rfl
  | @inner d p hash entry hgt hhash hentry ih =>
    have hd := depth_le_of_card hp hgt
    have hchild : ∀ i : Fin 64, ∃ n, (do hashTreeAt sha1 s (d + 1) (← writeSlot p d i) (entry i)) =
        some n ∧ ∀ q, writeSlot p d i = some q → Canon sha1 True s (d + 1) q n := by
      intro i
      obtain ⟨q, hq, hc, -⟩ := slot_child hp hd i
      obtain ⟨n, hn, hcanon⟩ := ih i q hq hc
      refine ⟨n, by rw [hq]; exact hn, fun q' hq' => ?_⟩
      obtain rfl : q = q' := Option.some.inj (hq.symm.trans hq')
      exact hcanon
    obtain ⟨entry', hall, hcanon⟩ := allOf_spec hchild
    refine ⟨.inner (s.under d p).card (innerHash sha1 entry') entry', ?_,
      .inner hgt (fun _ => rfl) hcanon⟩
    simp only [Option.bind_eq_bind] at hall
    rw [hashTreeAt]
    simp only [hall, Option.bind_eq_bind, Option.bind_some, Option.pure_def]
    rw [if_neg (by omega)]
    rfl

end Modify

section Runs

/-- What a tree is for: a set of keys, and whether its hashes are up to date. -/
structure TreeSpec where
  keys : Keylist
  do_rehash : Bool
  fresh : Bool

def TreeSpec.apply (a : TreeSpec) : TreeOp → Option TreeSpec
  | .insert key =>
    if key ∈ a.keys then none
    else some { a with keys := insert key a.keys, fresh := a.fresh && a.do_rehash }
  | .remove key =>
    if key ∈ a.keys then
      some { a with keys := a.keys.erase key, fresh := a.fresh && a.do_rehash }
    else none
  | .setRehashOnModification enable => some { a with do_rehash := enable }
  | .hashTree => some { a with fresh := true }

def TreeSpec.run (a : TreeSpec) (ops : List TreeOp) : Option TreeSpec := ops.foldlM TreeSpec.apply a

structure TreeRel (sha1 : List MerkleHash → MerkleHash) (t : MerkleTree) (a : TreeSpec) : Prop where
  keylist : t.keylist = a.keys
  do_rehash : t.do_rehash = a.do_rehash
  root : Canon sha1 (a.fresh = true) a.keys 0 0 t.root

theorem clear_zero (d : Nat) : Clear d 0 := Nat.dvd_zero _

theorem prefixMatch_zero (key : MerkleHash) : prefixMatch 0 key 0 := rfl

theorem TreeRel.empty (sha1 : List MerkleHash → MerkleHash) : TreeRel sha1 .empty ⟨∅, true, true⟩ where
  keylist := rfl
  do_rehash := rfl
  root := .leaf (Nat.zero_le _) fun _ => rfl

theorem fresh_and {fresh do_rehash : Bool} (h : (fresh && do_rehash) = true) :
    fresh = true ∧ do_rehash = true := by simpa using h

/-- One operation fails on the tree where it does on the set of keys, and keeps it the tree of its
keys otherwise. -/
theorem TreeRel.apply (h : TreeRel sha1 t a) (op : TreeOp) :
    Option.Rel (TreeRel sha1) (t.apply sha1 op) (a.apply op) := by
  obtain ⟨do_rehash, keylist, root⟩ := t
  obtain ⟨keys, rh, fresh⟩ := a
  obtain ⟨rfl, rfl, hroot⟩ := h
  have hweak : ∀ {f : Prop}, (f → fresh = true) → Canon sha1 f keylist 0 0 root :=
    fun hf => hroot.mono hf
  cases op with
  | insert key =>
    simp only [MerkleTree.apply, TreeSpec.apply]
    split
    · exact .none
    · next hkey =>
      obtain ⟨n', hn', hcanon⟩ := insertAt_spec do_rehash (hweak fun hf => (fresh_and hf).1) (clear_zero 0)
        (Nat.zero_add NUM_SLOTS) (prefixMatch_zero key) hkey fun hf => (fresh_and hf).2
      simp only [hn', Option.bind_eq_bind, Option.bind_some, Option.pure_def]
      exact .some ⟨rfl, rfl, hcanon⟩
  | remove key =>
    simp only [MerkleTree.apply, TreeSpec.apply]
    by_cases hkey : key ∈ keylist
    · obtain ⟨n', hn', hcanon⟩ := removeAt_spec do_rehash (hweak fun hf => (fresh_and hf).1) (clear_zero 0)
        (Nat.zero_le _) (prefixMatch_zero key) hkey fun hf => (fresh_and hf).2
      rw [if_neg (not_not.2 hkey), if_pos hkey]
      simp only [hn', Option.bind_eq_bind, Option.bind_some, Option.pure_def]
      exact .some ⟨rfl, rfl, hcanon⟩
    · rw [if_pos hkey, if_neg hkey]
      exact .none
  | setRehashOnModification enable => exact .some ⟨rfl, rfl, hroot⟩
  | hashTree =>
    obtain ⟨n', hn', hcanon⟩ := hashTreeAt_spec hroot (clear_zero 0)
    simp only [MerkleTree.apply, TreeSpec.apply, hn', Option.bind_eq_bind, Option.bind_some,
      Option.pure_def]
    exact .some ⟨rfl, rfl, hcanon.mono fun _ => trivial⟩

theorem TreeRel.run (h : TreeRel sha1 t a) (ops : List TreeOp) :
    Option.Rel (TreeRel sha1) (t.run sha1 ops) (a.run ops) := by
  induction ops generalizing t a with
  | nil => exact .some h
  | cons op ops ih =>
    simp only [MerkleTree.run, TreeSpec.run, List.foldlM_cons] at ih ⊢
    have hop := h.apply op
    generalize t.apply sha1 op = t', a.apply op = a' at hop
    cases hop with
    | none => exact .none
    | some h' => exact ih h'

theorem merkle_tree_canonical (sha1 : List MerkleHash → MerkleHash) {ops ops' : List TreeOp}
    (h : TreeSpec.run ⟨∅, true, true⟩ ops = some a) (h' : TreeSpec.run ⟨∅, true, true⟩ ops' = some a')
    (hkeys : a.keys = a'.keys) (hf : a.fresh = true) (hf' : a'.fresh = true) :
    ∃ t t', MerkleTree.empty.run sha1 ops = some t ∧ MerkleTree.empty.run sha1 ops' = some t' ∧
      t.keylist = a.keys ∧ Canon sha1 True a.keys 0 0 t.root ∧ t.root = t'.root := by
  have hrun := (TreeRel.empty sha1).run ops
  have hrun' := (TreeRel.empty sha1).run ops'
  rw [h] at hrun
  rw [h'] at hrun'
  generalize MerkleTree.empty.run sha1 ops = t at hrun ⊢
  generalize MerkleTree.empty.run sha1 ops' = t' at hrun' ⊢
  cases hrun with
  | some hr =>
    cases hrun' with
    | some hr' =>
      have hroot := hr.root.mono fun _ : True => hf
      have hroot' := hr'.root.mono fun _ : True => hf'
      exact ⟨_, _, rfl, rfl, hr.keylist, hroot, hroot.unique (clear_zero 0) (hkeys ▸ hroot')⟩

/-- The keys from `0` on, inserted one after the other. -/
def insertFirst (n : Nat) : List TreeOp := (List.range n).map fun i => .insert (BitVec.ofNat 160 i)

def keySum (hashes : List MerkleHash) : MerkleHash := hashes.foldr BitVec.add 0

theorem merkle_tree_canonical_seventy :
    ∃ t t', MerkleTree.empty.run keySum (insertFirst 70) = some t ∧
      MerkleTree.empty.run keySum (.setRehashOnModification false :: (insertFirst 72).reverse ++
        [.remove 70, .setRehashOnModification true, .remove 71, .hashTree]) = some t' ∧
      t.root = t'.root := by
  obtain ⟨t, t', ht, ht', -, -, hroot⟩ := merkle_tree_canonical keySum
    (show TreeSpec.run ⟨∅, true, true⟩ (insertFirst 70) = some _ by rfl)
    (show TreeSpec.run ⟨∅, true, true⟩ (.setRehashOnModification false :: (insertFirst 72).reverse ++
        [.remove 70, .setRehashOnModification true, .remove 71, .hashTree]) = some _ by rfl)
    (by decide +kernel) rfl rfl
  exact ⟨t, t', ht, ht', hroot⟩

end Runs

end XGossip
