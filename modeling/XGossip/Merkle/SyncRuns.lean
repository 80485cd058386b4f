import XGossip.Merkle.Reconcile

namespace XGossip
set_option autoImplicit true

variable {sha1 : List MerkleHash → MerkleHash} {net : SyncNet} {x x' : Syncer} {p q k : MerkleHash}

section Session

/-- Two trees of their keys whose nodes the hash tells apart, and a range of interest that does not
wrap around zero. -/
structure SyncNet.WellFormed (sha1 : List MerkleHash → MerkleHash) (net : SyncNet) : Prop where
  range : net.rngmin < net.rngmax
  ltree : Canon sha1 True net.ltree.keylist 0 0 net.ltree.root
  rtree : Canon sha1 True net.rtree.keylist 0 0 net.rtree.root
  free : CollisionFree sha1 net.ltree.keylist net.rtree.keylist

abbrev SyncNet.Place (net : SyncNet) (d : Nat) (p : MerkleHash) : Prop :=
  XGossip.Place net.ltree.keylist net.rtree.keylist d p

def SyncNet.InRange (net : SyncNet) (k : MerkleHash) : Prop :=
  betweenbothincl net.rngmin net.rngmax k.toNat = true

def SyncNet.Differs (net : SyncNet) : Missing → Prop
  | (k, true) => k ∈ net.rtree.keylist ∧ k ∉ net.ltree.keylist
  | (k, false) => k ∈ net.ltree.keylist ∧ k ∉ net.rtree.keylist

/-- Where a leaf here stands for an index node there, the last page of keys ends with a remote key,
and local keys are compared up to it only. -/
def SyncNet.Followed (net : SyncNet) : Missing → Prop
  | (_, true) => True
  | (k, false) => ∀ d p, net.Place d p → (net.ltree.keylist.under d p).card ≤ 64 →
    64 < (net.rtree.keylist.under d p).card → prefixMatch d k p →
    ∃ c ∈ net.rtree.keylist, prefixMatch d c p ∧ k.toNat < c.toNat ∧ c.toNat ≤ net.rngmax

structure SyncNet.Due (net : SyncNet) (m : Missing) : Prop where
  range : net.InRange m.1
  differs : net.Differs m
  followed : net.Followed m

/-- A pending node: an index node on both sides, with the hashes of its children there. -/
structure IndexNode (sha1 : List MerkleHash → MerkleHash) (net : SyncNet) (e : RpcNode) : Prop where
  place : net.Place e.depth e.pre
  left : 64 < (net.ltree.keylist.under e.depth e.pre).card
  right : 64 < (net.rtree.keylist.under e.depth e.pre).card
  hashes : ∃ hash entry, Canon sha1 True net.rtree.keylist e.depth e.pre
    (.inner (net.rtree.keylist.under e.depth e.pre).card hash entry) ∧
    e.child_hash = List.ofFn fun i => (entry i).hash

/-- The key is in a slot of a pending node that is still to be checked. -/
def InStack (st : List (RpcNode × Nat)) (k : MerkleHash) : Prop :=
  ∃ e ∈ st, prefixMatch e.1.depth k e.1.pre ∧ e.2 ≤ branch k e.1.depth

def Sent (sending : Option (Nat × MerkleHash)) (k : MerkleHash) : Prop :=
  ∃ d p, sending = some (d, p) ∧ prefixMatch d k p

def SyncNet.Asked (net : SyncNet) (r : KeyRange) (m : Missing) : Prop :=
  r.current ≤ m.1.toNat ∧ m.1.toNat ≤ r.rngmax ∧
    match m with
    | (k, true) => k ∉ r.lkeys
    | (k, false) => k ∈ r.lkeys ∧
      ∃ c ∈ net.rtree.keylist, k.toNat < c.toNat ∧ c.toNat ≤ r.rngmax

/-- A session for the keys of a range, with the local keys that it compares them to. -/
structure SyncNet.Session (net : SyncNet) (r : KeyRange) : Prop where
  lt : r.rngmin < r.rngmax
  current : r.rngmin ≤ r.current
  nodup : r.lkeys.Nodup
  lkeys : r.lkeys ⊆ net.ltree.keylist.sorted

theorem SyncNet.Differs.not_iff (h : net.Differs (k, b)) :
    ¬ (k ∈ net.ltree.keylist ↔ k ∈ net.rtree.keylist) := by
  cases b with
  | true => exact fun hiff => h.2 (hiff.2 h.1)
  | false => exact fun hiff => h.2 (hiff.1 h.1)

theorem SyncNet.InRange.le (h : net.InRange k) (hlt : net.rngmin < net.rngmax) :
    net.rngmin ≤ k.toNat ∧ k.toNat ≤ net.rngmax := (betweenbothincl_iff_of_lt hlt).1 h

theorem overlap_of_mem (hlt : net.rngmin < net.rngmax) (h : net.InRange k) (hlo : lo ≤ k.toNat)
    (hhi : k.toNat ≤ hi) : overlap net.rngmin net.rngmax lo hi := by
  obtain ⟨h₁, h₂⟩ := h.le hlt
  rw [overlap, Bool.or_eq_true, Bool.or_eq_true, Bool.or_eq_true]
  rcases Nat.le_total net.rngmin lo with hle | hle
  · exact .inl (.inl (.inl (betweenbothincl_of_le hle (hlo.trans h₂))))
  · exact .inl (.inr (betweenbothincl_of_le hle (h₁.trans hhi)))

/-- The requests that the slots of the pending nodes can still give rise to. -/
def stackLeft (st : List (RpcNode × Nat)) : Nat :=
  (st.map fun e => (64 - e.2) * 65 ^ (27 - e.1.depth)).sum

def Syncer.left (x : Syncer) : Nat :=
  stackLeft x.st + match x.sending with
    | none => 0
    | some (d, _) => 65 ^ (28 - d)

@[simp] theorem stackLeft_cons (e : RpcNode × Nat) (st : List (RpcNode × Nat)) :
    stackLeft (e :: st) = (64 - e.2) * 65 ^ (27 - e.1.depth) + stackLeft st := by
  simp [stackLeft]

theorem Syncer.left_none (h : x.sending = none) : x.left = stackLeft x.st := by
  rw [Syncer.left, h, Nat.add_zero]

theorem Syncer.left_some (h : x.sending = some (d, p)) :
    x.left = stackLeft x.st + 65 ^ (28 - d) := by rw [Syncer.left, h]

/-- A slot that is passed over has no differences of interest. -/
theorem nextSlot_spec {e : RpcNode} {entry : Fin 64 → MerkleNode} {hash : MerkleHash}
    (hnet : net.WellFormed sha1)
    (he : IndexNode sha1 net e) (hentry : Canon sha1 True net.ltree.keylist e.depth e.pre
      (.inner (net.ltree.keylist.under e.depth e.pre).card hash entry)) (hn : i + n = 64) :
    (nextSlot net e entry n i = some none ∧
      ∀ k b, net.InRange k → net.Differs (k, b) → prefixMatch e.depth k e.pre →
        branch k e.depth < i) ∨
    ∃ (j : Fin 64) (q : MerkleHash), nextSlot net e entry n i = some (some ((j : Nat), q)) ∧ i ≤ j ∧
      writeSlot e.pre e.depth j = some q ∧
      ∀ k b, net.InRange k → net.Differs (k, b) → prefixMatch e.depth k e.pre →
        i ≤ branch k e.depth → j ≤ branch k e.depth := by
  have hd := depth_le_of_card he.place.clear he.left
  obtain ⟨rhash, rentry, hrcanon, hrhashes⟩ := he.hashes
  induction n generalizing i with
  | zero => exact .inl ⟨rfl, fun k _ _ _ _ => (branch k e.depth).isLt.trans_le (by omega)⟩
  | succ n ih =>
    have hi : i < 64 := by omega
    obtain ⟨q, hq, hc, hmatch⟩ := slot_child he.place.clear hd ⟨i, hi⟩
    have hrem : e.child_hash[i]? = some (rentry ⟨i, hi⟩).hash := by
      rw [hrhashes, List.getElem?_ofFn, dif_pos hi]
    have hfin : Fin.ofNat 64 i = ⟨i, hi⟩ := Fin.ext (Nat.mod_eq_of_lt hi)
    rw [nextSlot]
    simp only [hrem, hq, hfin, Option.bind_eq_bind, Option.bind_some, Option.pure_def]
    split
    · exact .inr ⟨⟨i, hi⟩, q, rfl, Nat.le_refl _, hq, fun k b _ _ _ hk => hk⟩
    · next hsame =>
      have hquiet : ∀ k b, net.InRange k → net.Differs (k, b) → prefixMatch e.depth k e.pre →
          branch k e.depth ≠ ⟨i, hi⟩ := by
        intro k b hk hdiff hmk hbr
        have hkq : prefixMatch (e.depth + 1) k q := (hmatch k).2 ⟨hmk, hbr⟩
        apply hsame
        constructor
        · intro heq
          cases hentry with
          | inner _ _ hchild =>
            cases hrcanon with
            | inner _ _ hrchild =>
              have hunder := under_eq_of_hash hnet.free (hchild _ q hq) (hrchild _ q hq)
                (he.place.child he.left he.right hq) heq.symm
              apply hdiff.not_iff
              have hk' := congrArg (k ∈ ·) hunder
              simpa only [Keylist.mem_under, hkq, and_true, eq_iff_iff] using hk'
        · have hin := (prefixMatch_iff_between hc).1 hkq
          refine overlap_of_mem hnet.range hk hin.1 ?_
          have hw : width (e.depth + 1) = 160 - 6 * (e.depth + 1) := rfl
          rw [← hw]
          omega
      have hstep : ∀ k b, net.InRange k → net.Differs (k, b) → prefixMatch e.depth k e.pre →
          i ≤ branch k e.depth → i + 1 ≤ branch k e.depth := by
        intro k b hk hdiff hmk hle
        have hne := hquiet k b hk hdiff hmk
        rw [ne_eq, Fin.ext_iff] at hne
        dsimp only at hne
        omega
      rcases ih (show i + 1 + n = 64 by omega) with ⟨hnone, hrest⟩ | ⟨j, q', hsome, hij, hq', hrest⟩
      · refine .inl ⟨hnone, fun k b hk hdiff hmk => ?_⟩
        have := hrest k b hk hdiff hmk
        by_contra hge
        have := hstep k b hk hdiff hmk (by omega)
        omega
      · exact .inr ⟨j, q', hsome, by omega, hq', fun k b hk hdiff hmk hle =>
          hrest k b hk hdiff hmk (hstep k b hk hdiff hmk hle)⟩

theorem sendnode_spec (hnet : net.WellFormed sha1) (hp : net.Place d p) (x : Syncer) :
    sendnode net x d p = some { x with sending := some (d, p) } := by
  obtain ⟨n, hn, -, hcanon⟩ := lookup_spec hnet.ltree hp.clear hp.left
  have hformat : ∃ r, formatRpcnode net.ltree d p n = some r := by
    cases hcanon with
    | leaf =>
      have hlen : (databaseGetKeys net.ltree.keylist d p).length =
          (net.ltree.keylist.under d p).card := by
        rw [databaseGetKeys_eq _ hp.clear, length_sorted]
      exact ⟨_, if_pos hlen⟩
    | inner => exact ⟨_, rfl⟩
  obtain ⟨r, hr⟩ := hformat
  rw [sendnode, hn]
  simp only [if_pos, hr, Option.bind_eq_bind, Option.bind_some, Option.pure_def]

/-- What `next` leaves behind: the session is done, or one more node has been asked for, and no
slot with a difference of interest has been passed over. -/
structure NextSpec (sha1 : List MerkleHash → MerkleHash) (net : SyncNet) (x : Syncer)
    (st : List (RpcNode × Nat)) (x' : Syncer) : Prop where
  missing : x'.missing = x.missing
  ranges : x'.ranges = x.ranges
  fatal_err : x'.fatal_err = false
  stack : ∀ e ∈ x'.st, IndexNode sha1 net e.1 ∧ e.2 ≤ 64
  sending : (x'.sending = none ∧ x'.sync_done = true ∧ x'.st = []) ∨
    ∃ d p, x'.sending = some (d, p) ∧ net.Place d p ∧ x'.sync_done = false
  covers : ∀ k b, net.InRange k → net.Differs (k, b) → InStack st k →
    Sent x'.sending k ∨ InStack x'.st k
  left : x'.left ≤ stackLeft st

theorem next_spec (hnet : net.WellFormed sha1) (hx : x.sending = none) (hdone : x.sync_done = false)
    (hfatal : x.fatal_err = false) {st : List (RpcNode × Nat)}
    (hst : ∀ e ∈ st, IndexNode sha1 net e.1 ∧ e.2 ≤ 64) :
    ∃ x', x.next net st = some x' ∧ NextSpec sha1 net x st x' := by
  induction st with
  | nil =>
    refine ⟨_, rfl, rfl, rfl, hfatal, by simp, .inl ⟨hx, rfl, rfl⟩, ?_,
      Nat.le_of_eq (Syncer.left_none hx)⟩
    rintro k b - - ⟨e, he, -⟩
    simp at he
  | cons e st ih =>
    obtain ⟨e, second⟩ := e
    obtain ⟨he, hsecond⟩ := hst _ List.mem_cons_self
    have hst' := fun e' he' => hst e' (List.mem_cons_of_mem _ he')
    obtain ⟨n, -, hn, hcanon⟩ := lookup_spec hnet.ltree he.place.clear he.place.left
    rw [Syncer.next]
    simp only [hn, Option.bind_eq_bind, Option.bind_some]
    cases hcanon with
    | leaf hcard =>
      have := he.left
      omega
    | @inner _ _ hash entry hcard hhash hentry =>
      rcases nextSlot_spec hnet he (.inner hcard hhash hentry)
        (show second + (64 - second) = 64 by omega) with ⟨hnone, hrest⟩ |
        ⟨j, q, hsome, hij, hq, hrest⟩
      · obtain ⟨x', hx', hspec⟩ := ih hst'
        simp only [hnone, Option.bind_some]
        refine ⟨x', hx', hspec.missing, hspec.ranges, hspec.fatal_err, hspec.stack, hspec.sending,
          fun k b hk hdiff hin => ?_, hspec.left.trans (by simp)⟩
        obtain ⟨e', he', hmk, hle⟩ := hin
        rcases List.mem_cons.1 he' with rfl | he'
        · exact absurd hle (Nat.not_le.2 (hrest k b hk hdiff hmk))
        · exact hspec.covers k b hk hdiff ⟨e', he', hmk, hle⟩
      · have hplace := he.place.child he.left he.right hq
        simp only [hsome, Option.bind_some, sendnode_spec hnet hplace]
        refine ⟨_, rfl, rfl, rfl, hfatal, ?_, .inr ⟨_, _, rfl, hplace, hdone⟩,
          fun k b hk hdiff hin => ?_, ?_⟩
        · intro e' he'
          rcases List.mem_cons.1 he' with rfl | he'
          · exact ⟨he, j.isLt⟩
          · exact hst' e' he'
        · obtain ⟨e', he', hmk, hle⟩ := hin
          rcases List.mem_cons.1 he' with rfl | he'
          · have hjk := hrest k b hk hdiff hmk hle
            rcases Nat.lt_or_eq_of_le hjk with hlt | heq
            · exact .inr ⟨_, List.mem_cons_self, hmk, hlt⟩
            · refine .inl ⟨_, _, rfl, ?_⟩
              have hd := depth_le_of_card he.place.clear he.left
              exact (match_child he.place.clear hd hq).2 ⟨hmk, Fin.ext heq.symm⟩
          · exact .inr ⟨e', List.mem_cons_of_mem _ he', hmk, hle⟩
        · rw [Syncer.left_some rfl, stackLeft_cons, stackLeft_cons]
          have hslots : 64 - second = (64 - (j + 1)) + (j + 1 - second) := by omega
          have hone : 65 ^ (27 - e.depth) ≤ (j + 1 - second) * 65 ^ (27 - e.depth) :=
            Nat.le_mul_of_pos_left _ (by omega)
          dsimp only
          rw [show 28 - (e.depth + 1) = 27 - e.depth by omega, hslots, Nat.add_mul]
          omega

end Session

section Invariant

structure SyncInv (sha1 : List MerkleHash → MerkleHash) (net : SyncNet) (x : Syncer) : Prop where
  stack : ∀ e ∈ x.st, IndexNode sha1 net e.1 ∧ e.2 ≤ 64
  sending : ∀ d p, x.sending = some (d, p) → net.Place d p ∧ x.sync_done = false ∧ x.fatal_err = false
  idle : x.sending = none → x.sync_done = true ∧ (x.fatal_err = false → x.st = [])
  ranges : ∀ r ∈ x.ranges, net.Session r
  sound : ∀ m ∈ x.missing, m.1 ∈ if m.2 then net.rtree.keylist else net.ltree.keylist

def SyncCovers (net : SyncNet) (x : Syncer) : Prop :=
  ∀ m, net.Due m → m ∈ x.missing ∨ Sent x.sending m.1 ∨ InStack x.st m.1 ∨
    ∃ r ∈ x.ranges, net.Asked r m

theorem startSync_spec (hnet : net.WellFormed sha1) :
    ∃ x, startSync net = some x ∧ SyncInv sha1 net x ∧ SyncCovers net x ∧ x.fatal_err = false ∧
      x.left + 0 ≤ 65 ^ 28 := by
  have hroot := Place.root net.ltree.keylist net.rtree.keylist
  refine ⟨_, sendnode_spec hnet hroot _, ⟨by simp, ?_, by simp, by simp, by simp⟩, ?_, rfl, ?_⟩
  · rintro d p heq
    obtain ⟨rfl, rfl⟩ := Prod.mk.inj (Option.some.inj heq)
    exact ⟨hroot, rfl, rfl⟩
  · exact fun m _ => .inr (.inl ⟨0, 0, rfl, prefixMatch_zero _⟩)
  · rw [Syncer.left_some rfl]
    exact Nat.le_of_eq (Nat.zero_add _)

/-- The server has the node, and what it sends is the node of its keys. -/
theorem handleSendNode_spec (hnet : net.WellFormed sha1) (hp : net.Place d p) :
    ∃ r, handleSendNode net.rtree d p = some r ∧ r.depth = d ∧ r.pre = p ∧
      (((net.rtree.keylist.under d p).card ≤ 64 ∧ r.isleaf = true ∧
          r.child_hash = (net.rtree.keylist.under d p).sorted) ∨
        64 < (net.rtree.keylist.under d p).card ∧ r.isleaf = false ∧
          ∃ hash entry, Canon sha1 True net.rtree.keylist d p
            (.inner (net.rtree.keylist.under d p).card hash entry) ∧
            r.child_hash = List.ofFn fun i => (entry i).hash) := by
  obtain ⟨n, hn, -, hcanon⟩ := lookup_spec hnet.rtree hp.clear hp.right
  have hclear : clearSuffix p d = some p := clearSuffix_of_match hp.clear
    (hp.depth.trans (by decide)) (prefixMatch_self d p)
  cases hcanon with
  | @leaf _ _ hash hcard =>
    have hkeys := databaseGetKeys_eq net.rtree.keylist hp.clear
    have hlen : (databaseGetKeys net.rtree.keylist d p).length =
        (net.rtree.keylist.under d p).card := by rw [hkeys, length_sorted]
    refine ⟨⟨d, p, true, (net.rtree.keylist.under d p).card, hash,
        databaseGetKeys net.rtree.keylist d p⟩, ?_, rfl, rfl,
      .inl ⟨hcard, rfl, hkeys⟩⟩
    rw [handleSendNode, hn]
    simp only [if_pos, hclear, Option.bind_eq_bind, Option.bind_some]
    exact if_pos hlen
  | @inner _ _ hash entry hcard hhash hentry =>
    refine ⟨⟨d, p, false, (net.rtree.keylist.under d p).card, hash,
      List.ofFn fun i => (entry i).hash⟩, ?_, rfl, rfl,
      .inr ⟨hcard, rfl, hash, entry, .inner hcard hhash hentry, rfl⟩⟩
    rw [handleSendNode, hn]
    simp only [if_pos, hclear, Option.bind_eq_bind, Option.bind_some]
    rfl

theorem constrain_le {rngmin rngmax a w i : Nat} (hw : 2 ≤ w) (h₁ : rngmin ≤ i) (h₂ : i ≤ rngmax)
    (h₃ : a ≤ i) (h₄ : i < a + w) :
    let tmpmin := if between a (a + w - 1) rngmin then rngmin else a
    let tmpmax := if between tmpmin (a + w - 1) rngmax then rngmax else a + w - 1
    tmpmin ≤ i ∧ i ≤ tmpmax ∧ ∀ c < a + w, c ≤ rngmax → c ≤ tmpmax := by
  intro tmpmin tmpmax
  have hmin : tmpmin ≤ i := by
    rw [show tmpmin = if between a (a + w - 1) rngmin then rngmin else a from rfl]
    split
    · exact h₁
    · exact h₃
  refine ⟨hmin, ?_⟩
  rw [show tmpmax = if between tmpmin (a + w - 1) rngmax then rngmax else a + w - 1 from rfl]
  split
  · exact ⟨h₂, fun c _ hc => hc⟩
  · exact ⟨by omega, fun c hc _ => by omega⟩

theorem constrain_lt {rngmin rngmax a w : Nat} (hw : 2 ≤ w) :
    let tmpmin := if between a (a + w - 1) rngmin then rngmin else a
    (if between tmpmin (a + w - 1) rngmax then rngmax else a + w - 1) > tmpmin := by
  intro tmpmin
  have hmin : tmpmin < a + w - 1 := by
    rw [show tmpmin = if between a (a + w - 1) rngmin then rngmin else a from rfl]
    split
    · next h => exact ((between_iff_of_lt (by omega)).1 h).2
    · omega
  split
  · next h => exact ((between_iff_of_lt hmin).1 h).1
  · exact hmin

theorem KeyRange.go_start {r : KeyRange} (h : r.current = r.rngmin) : r.go = some r := by
  rw [KeyRange.go, h]
  exact if_pos (betweenbothincl_left _ _)

theorem KeyRange.go_eq_some {r r' : KeyRange} (h : r.go = some r') :
    betweenbothincl r.rngmin r.rngmax r.current ∧ r = r' := by
  rw [KeyRange.go] at h
  split at h
  · next hb => exact ⟨hb, Option.some.inj h⟩
  · cases h

structure CompareSpec (net : SyncNet) (d : Nat) (p : MerkleHash)
    (res : List Missing × Option KeyRange) : Prop where
  sound : ∀ m ∈ res.1, m.1 ∈ if m.2 then net.rtree.keylist else net.ltree.keylist
  range : ∀ r ∈ res.2.toList, net.Session r
  covers : ¬ (64 < (net.ltree.keylist.under d p).card ∧ 64 < (net.rtree.keylist.under d p).card) →
    ∀ m, net.Due m → prefixMatch d m.1 p → m ∈ res.1 ∨ ∃ r ∈ res.2.toList, net.Asked r m

theorem mem_compareKeylists_due {lkeys rkeys : List MerkleHash} (hl : lkeys.Nodup)
    (hr : rkeys.Nodup) (hlk : k ∈ lkeys ↔ k ∈ net.ltree.keylist)
    (hrk : k ∈ rkeys ↔ k ∈ net.rtree.keylist) (hdiff : net.Differs (k, b))
    (hbetween : betweenbothincl lo hi k.toNat) : (k, b) ∈ compareKeylists lkeys rkeys lo hi := by
  cases b with
  | true => exact (mem_compareKeylists_true hr).2 ⟨hrk.2 hdiff.1, hbetween, mt hlk.1 hdiff.2⟩
  | false => exact (mem_compareKeylists_false hl).2 ⟨hlk.2 hdiff.1, mt hrk.1 hdiff.2, hbetween⟩

theorem compareKeylists_sound {lkeys rkeys : List MerkleHash} (hl : lkeys.Nodup) (hr : rkeys.Nodup)
    (hlk : lkeys ⊆ net.ltree.keylist.sorted) (hrk : ∀ c ∈ rkeys, c ∈ net.rtree.keylist)
    {m : Missing} (hm : m ∈ compareKeylists lkeys rkeys lo hi) :
    m.1 ∈ if m.2 then net.rtree.keylist else net.ltree.keylist := by
  obtain ⟨k, b⟩ := m
  cases b with
  | true => exact hrk k ((mem_compareKeylists_true hr).1 hm).1
  | false => exact Keylist.mem_sorted.1 (hlk ((mem_compareKeylists_false hl).1 hm).1)

theorem under_subset (s : Keylist) (d : Nat) (p : MerkleHash) :
    (s.under d p).sorted ⊆ s.sorted := fun _ hk =>
  Keylist.mem_sorted.2 (Keylist.mem_under.1 (Keylist.mem_sorted.1 hk)).1

theorem mem_under_sorted (s : Keylist) (h : prefixMatch d k p) :
    k ∈ (s.under d p).sorted ↔ k ∈ s := by
  rw [Keylist.mem_sorted, Keylist.mem_under, and_iff_left h]

theorem compareNodes_spec {r : RpcNode} {n : MerkleNode} (hlt : net.rngmin < net.rngmax)
    (hp : net.Place d p) (hn : Canon sha1 True net.ltree.keylist d p n) (hd : r.depth = d)
    (hpre : r.pre = p)
    (hr : ((net.rtree.keylist.under d p).card ≤ 64 ∧ r.isleaf = true ∧
        r.child_hash = (net.rtree.keylist.under d p).sorted) ∨
      64 < (net.rtree.keylist.under d p).card ∧ r.isleaf = false) :
    CompareSpec net d p (compareNodes net.ltree net.rngmin net.rngmax n r) := by
  have hkeys := databaseGetKeys_eq net.ltree.keylist hp.clear
  have hnodup := nodup_sorted (net.ltree.keylist.under d p)
  have hsub := under_subset net.ltree.keylist d p
  rw [compareNodes, hd, hpre, hkeys]
  rcases hr with ⟨hcard, hleaf, hchild⟩ | ⟨hcard, hleaf⟩
  · rw [if_pos hleaf, hchild]
    refine ⟨fun m hm => compareKeylists_sound hnodup (nodup_sorted _) hsub
      (fun c hc => (Keylist.mem_under.1 (Keylist.mem_sorted.1 hc)).1) hm, by simp, ?_⟩
    rintro - ⟨k, b⟩ hm hmk
    exact .inl (mem_compareKeylists_due hnodup (nodup_sorted _) (mem_under_sorted _ hmk)
      (mem_under_sorted _ hmk) hm.differs hm.range)
  · rw [if_neg (by simp [hleaf])]
    split
    · next hlocal =>
      have hle := hn.isleaf_iff.1 hlocal
      have hwidth : width d ≤ 160 - d := by
        rw [width]
        omega
      have hw : 2 ≤ 2 ^ (160 - d) := by
        have hdepth := hp.depth
        calc 2 = 2 ^ 1 := rfl
          _ ≤ 2 ^ (160 - d) := Nat.pow_le_pow_right (by omega) (by omega)
      have hwle := Nat.pow_le_pow_right (show 0 < 2 by omega) hwidth
      dsimp only
      rw [KeyRange.go_start rfl]
      refine ⟨by simp, ?_, ?_⟩
      · rintro r' hr'
        obtain rfl := Option.some.inj (Option.mem_toList.1 hr')
        exact ⟨constrain_lt hw, Nat.le_refl _, hnodup, hsub⟩
      rintro - ⟨k, b⟩ hm hmk
      have hin := (prefixMatch_iff_between hp.clear).1 hmk
      obtain ⟨hlow, hhigh⟩ := hm.range.le hlt
      obtain ⟨h₁, h₂, h₃⟩ := constrain_le hw hlow hhigh hin.1 (by omega)
      refine .inr ⟨_, Option.mem_toList.2 rfl, h₁, h₂, ?_⟩
      cases b with
      | true => exact mt (mem_under_sorted _ hmk).1 hm.differs.2
      | false =>
        refine ⟨(mem_under_sorted _ hmk).2 hm.differs.1, ?_⟩
        obtain ⟨c, hc, hcp, hkc, hcm⟩ := hm.followed d p hp hle hcard hmk
        have := (prefixMatch_iff_between hp.clear).1 hcp
        exact ⟨c, hc, hkc, h₃ c.toNat (by omega) hcm⟩
    · next hlocal =>
      refine ⟨by simp, by simp, fun hboth => (hboth ⟨?_, hcard⟩).elim⟩
      exact Nat.lt_of_not_le (mt hn.isleaf_iff.2 hlocal)

theorem NextSpec.inv {y : Syncer} (h : NextSpec sha1 net y st x')
    (hranges : ∀ r ∈ y.ranges, net.Session r)
    (hsound : ∀ m ∈ y.missing, m.1 ∈ if m.2 then net.rtree.keylist else net.ltree.keylist) :
    SyncInv sha1 net x' where
  stack := h.stack
  sending d p hsend := by
    rcases h.sending with ⟨hnone, -⟩ | ⟨d', p', hsome, hplace, hdone⟩
    · rw [hnone] at hsend
      cases hsend
    · obtain ⟨rfl, rfl⟩ := Prod.mk.inj (Option.some.inj (hsome.symm.trans hsend))
      exact ⟨hplace, hdone, h.fatal_err⟩
  idle hnone := by
    rcases h.sending with ⟨-, hdone, hst⟩ | ⟨d', p', hsome, -⟩
    · exact ⟨hdone, fun _ => hst⟩
    · rw [hnone] at hsome
      cases hsome
  ranges := h.ranges ▸ hranges
  sound := h.missing ▸ hsound

/-- The reply to the request for a node: its keys are compared, or its children are next. -/
theorem handle_node (hnet : net.WellFormed sha1) (hx : SyncInv sha1 net x)
    (hsend : x.sending = some (d, p)) :
    ∃ x', x.handle net .node = some x' ∧ SyncInv sha1 net x' ∧ x'.left < x.left ∧
      (SyncCovers net x → SyncCovers net x' ∧ x'.fatal_err = false) := by
  obtain ⟨hp, hdone, hfatal⟩ := hx.sending d p hsend
  obtain ⟨r, hr, hd, hpre, hnode⟩ := handleSendNode_spec hnet hp
  obtain ⟨n, -, hn, hcanon⟩ := lookup_spec hnet.ltree hp.clear hp.left
  have hcmp := compareNodes_spec hnet.range hp hcanon hd hpre (hnode.imp_right fun h => ⟨h.1, h.2.1⟩)
  generalize hres : compareNodes net.ltree net.rngmin net.rngmax n r = res at hcmp
  obtain ⟨st, hst, hstack, hleft, hahead⟩ : ∃ st, (if !n.isleaf ∧ !r.isleaf then (r, 0) :: x.st else x.st) =
      st ∧ (∀ e ∈ st, IndexNode sha1 net e.1 ∧ e.2 ≤ 64) ∧
      stackLeft st ≤ 64 * 65 ^ (27 - d) + stackLeft x.st ∧
      ∀ m, net.Due m → Sent x.sending m.1 ∨ InStack x.st m.1 →
        InStack st m.1 ∨ m ∈ res.1 ∨ ∃ r ∈ res.2.toList, net.Asked r m := by
    have hsent : ∀ {m : Missing}, Sent x.sending m.1 → prefixMatch d m.1 p := by
      rintro m ⟨d', p', hsend', hm⟩
      obtain ⟨rfl, rfl⟩ := Prod.mk.inj (Option.some.inj (hsend.symm.trans hsend'))
      exact hm
    by_cases hboth : 64 < (net.ltree.keylist.under d p).card ∧ 64 < (net.rtree.keylist.under d p).card
    · obtain ⟨hr', hash, entry, hcr, hch⟩ : r.isleaf = false ∧ ∃ hash entry,
          Canon sha1 True net.rtree.keylist d p
            (.inner (net.rtree.keylist.under d p).card hash entry) ∧
            r.child_hash = List.ofFn fun i => (entry i).hash := by
        rcases hnode with ⟨hle, -⟩ | ⟨-, h⟩
        · omega
        · exact h
      have hn' : n.isleaf = false := by
        have := hcanon.isleaf_iff
        rw [Bool.eq_false_iff]
        intro h
        have := this.1 h
        omega
      refine ⟨(r, 0) :: x.st, if_pos (by simp [hn', hr']), ?_, ?_, ?_⟩
      · intro e he
        rcases List.mem_cons.1 he with rfl | he
        · refine ⟨⟨?_, ?_, ?_, ?_⟩, Nat.zero_le _⟩ <;> dsimp only <;> rw [hd, hpre]
          · exact hp
          · exact hboth.1
          · exact hboth.2
          · exact ⟨hash, entry, hcr, hch⟩
        · exact hx.stack e he
      · rw [stackLeft_cons, hd, Nat.sub_zero]
      · rintro m - (hm | ⟨e, he, hm⟩)
        · refine .inl ⟨_, List.mem_cons_self, ?_, Nat.zero_le _⟩
          dsimp only
          rw [hd, hpre]
          exact hsent hm
        · exact .inl ⟨e, List.mem_cons_of_mem _ he, hm⟩
    · have hif : ¬ ((!n.isleaf) = true ∧ (!r.isleaf) = true) := by
        rintro ⟨hl, hrl⟩
        apply hboth
        constructor
        · have := hcanon.isleaf_iff
          by_contra hle
          have := this.2 (by omega)
          simp [this] at hl
        · rcases hnode with ⟨-, h, -⟩ | ⟨h, -⟩
          · simp [h] at hrl
          · exact h
      refine ⟨x.st, if_neg hif, hx.stack, Nat.le_add_left _ _, ?_⟩
      rintro m hm (h | h)
      · exact .inr (hcmp.covers hboth m hm (hsent h))
      · exact .inl h
  let y : Syncer := { x with
    sending := none, missing := x.missing ++ res.1, ranges := x.ranges ++ res.2.toList }
  obtain ⟨x', hx', hspec⟩ := next_spec (x := y) hnet rfl hdone hfatal hstack
  have hhandle : x.handle net .node = some x' := by
    rw [Syncer.handle, hsend]
    simp only [hr, Option.bind_eq_bind, Option.bind_some, sendnodeCb, hd, hpre, hn, hres]
    rw [if_neg (by simp [hdone, hfatal])]
    rw [← hst] at hx'
    split
    · next h => rwa [if_pos h] at hx'
    · next h => rwa [if_neg h] at hx'
  have hlt : x'.left < x.left := by
    have hpow : 65 ^ (28 - d) = 65 * 65 ^ (27 - d) := by
      rw [show 28 - d = 27 - d + 1 by have := hp.depth; omega, Nat.pow_succ, Nat.mul_comm]
    have hpos : 0 < 65 ^ (27 - d) := Nat.pow_pos (by omega)
    rw [Syncer.left_some hsend, hpow]
    have := hspec.left
    omega
  refine ⟨x', hhandle, hspec.inv ?_ ?_, hlt, fun hcov => ⟨fun m hm => ?_, hspec.fatal_err⟩⟩
  · intro r' hr'
    rcases List.mem_append.1 hr' with h | h
    · exact hx.ranges r' h
    · exact hcmp.range r' h
  · intro m hm
    rcases List.mem_append.1 hm with h | h
    · exact hx.sound m h
    · exact hcmp.sound m h
  · have hstay : InStack st m.1 ∨ m ∈ res.1 ∨ (∃ r ∈ res.2.toList, net.Asked r m) ∨
        m ∈ x.missing ∨ ∃ r ∈ x.ranges, net.Asked r m := by
      rcases hcov m hm with h | h | h | h
      · exact .inr (.inr (.inr (.inl h)))
      · exact (hahead m hm (.inl h)).imp_right (·.imp_right .inl)
      · exact (hahead m hm (.inr h)).imp_right (·.imp_right .inl)
      · exact .inr (.inr (.inr (.inr h)))
    rw [hspec.missing, hspec.ranges]
    rcases hstay with h | h | ⟨r', hr', h⟩ | h | ⟨r', hr', h⟩
    · exact (hspec.covers m.1 m.2 hm.range hm.differs h).elim (fun h => .inr (.inl h))
        fun h => .inr (.inr (.inl h))
    · exact .inl (List.mem_append_right _ h)
    · exact .inr (.inr (.inr ⟨r', List.mem_append_right _ hr', h⟩))
    · exact .inl (List.mem_append_left _ h)
    · exact .inr (.inr (.inr ⟨r', List.mem_append_left _ hr', h⟩))

/-- The reply to the request for keys: a report is made, or the next page has it. -/
theorem getkeysCb_spec {r : KeyRange} (hr : net.Session r) :
    let page := handleGetKeys net.rtree r.current r.rngmax
    let res := r.getkeysCb page.1 page.2
    (∀ m ∈ res.1, m.1 ∈ if m.2 then net.rtree.keylist else net.ltree.keylist) ∧
    (∀ r' ∈ res.2.toList, net.Session r') ∧
    ∀ m, net.Differs m → net.Asked r m → m ∈ res.1 ∨ ∃ r' ∈ res.2.toList, net.Asked r' m := by
  intro page res
  have hkeys : page.1.Nodup ∧ ∀ c ∈ page.1, c ∈ net.rtree.keylist :=
    getkeys_nodup net.rtree r.current r.rngmax
  refine ⟨fun m hm => compareKeylists_sound hr.nodup hkeys.1 hr.lkeys hkeys.2 hm, ?_, ?_⟩
  · intro r' hr'
    obtain ⟨hbetween, rfl⟩ := KeyRange.go_eq_some (Option.mem_toList.1 hr')
    exact ⟨hr.lt, ((betweenbothincl_iff_of_lt hr.lt).1 hbetween).1, hr.nodup, hr.lkeys⟩
  · rintro ⟨k, b⟩ hdiff ⟨hcur, hmax, hside⟩
    have hpage := getkeys_page (t := net.rtree) hr.current hcur hmax
    obtain ⟨r', hr', hle, hrngmax, hlkeys⟩ | ⟨hremote, hlocal⟩ := hpage
    · refine .inr ⟨r', Option.mem_toList.2 hr', hle, hrngmax ▸ hmax, ?_⟩
      cases b with
      | true => exact hlkeys ▸ hside
      | false => exact ⟨hlkeys ▸ hside.1, hrngmax ▸ hside.2⟩
    · left
      cases b with
      | true =>
        obtain ⟨hmem, hbetween⟩ := hremote hdiff.1
        exact (mem_compareKeylists_true hkeys.1).2 ⟨hmem, hbetween, hside⟩
      | false =>
        exact (mem_compareKeylists_false hr.nodup).2
          ⟨hside.1, fun hk => hdiff.2 (hkeys.2 k hk), hlocal hside.2⟩

theorem mem_eraseIdx_or {l : List α} {i : Nat} {a b : α} (hi : l[i]? = some a) (hb : b ∈ l) :
    b = a ∨ b ∈ l.eraseIdx i := by
  obtain ⟨j, hj⟩ := List.mem_iff_getElem?.1 hb
  by_cases hij : j = i
  · subst hij
    exact .inl (Option.some.inj (hj.symm.trans hi))
  · exact .inr (List.mem_eraseIdx_iff_getElem?.2 ⟨j, hij, hj⟩)

theorem handle_keys (hx : SyncInv sha1 net x) (i : Nat) :
    ∃ x', x.handle net (.keys i) = some x' ∧ SyncInv sha1 net x' ∧
      x'.fatal_err = x.fatal_err ∧ x'.sending = x.sending ∧ x'.left = x.left ∧
      (SyncCovers net x → SyncCovers net x') := by
  rw [Syncer.handle]
  cases hi : x.ranges[i]? with
  | none => exact ⟨x, rfl, hx, rfl, rfl, rfl, id⟩
  | some r =>
    obtain ⟨hsound, hsession, hcovers⟩ := getkeysCb_spec (hx.ranges r (List.mem_of_getElem? hi))
    refine ⟨_, rfl, ⟨hx.stack, hx.sending, hx.idle, ?_, ?_⟩, rfl, rfl, rfl, fun hcov m hm => ?_⟩
    · intro r' hr'
      rcases List.mem_append.1 hr' with h | h
      · exact hx.ranges r' (List.mem_of_mem_eraseIdx h)
      · exact hsession r' h
    · intro m hm
      rcases List.mem_append.1 hm with h | h
      · exact hx.sound m h
      · exact hsound m h
    · rcases hcov m hm with h | h | h | ⟨r', hr', hasked⟩
      · exact .inl (List.mem_append_left _ h)
      · exact .inr (.inl h)
      · exact .inr (.inr (.inl h))
      · rcases mem_eraseIdx_or hi hr' with rfl | hrest
        · rcases hcovers m hm.differs hasked with h | ⟨r'', hr'', h⟩
          · exact .inl (List.mem_append_right _ h)
          · exact .inr (.inr (.inr ⟨r'', List.mem_append_right _ hr'', h⟩))
        · exact .inr (.inr (.inr ⟨r', List.mem_append_left _ hrest, hasked⟩))

def SyncEvent.isReply : SyncEvent → Bool
  | .node => true
  | .nodeErr => false
  | .keys _ => true
  | .keysErr _ => false

/-- No event makes the session fail, an answer loses no report that is due, and one about a node
brings the end of the walk nearer. -/
theorem handle_spec (hnet : net.WellFormed sha1) (hx : SyncInv sha1 net x) (e : SyncEvent) :
    ∃ x', x.handle net e = some x' ∧ SyncInv sha1 net x' ∧
      (e.isReply → (SyncCovers net x ∧ x.fatal_err = false →
        SyncCovers net x' ∧ x'.fatal_err = false) ∧
        ∀ n, x.sending = none ∨ x.left + n ≤ 65 ^ 28 →
          x'.sending = none ∨ x'.left + (n + [e].count .node) ≤ 65 ^ 28) := by
  cases e with
  | node =>
    cases hsend : x.sending with
    | none => exact ⟨x, by rw [Syncer.handle, hsend], hx, fun _ => ⟨id, fun _ _ => .inl hsend⟩⟩
    | some place =>
      obtain ⟨x', hx', hinv, hlt, hcov⟩ := handle_node hnet hx hsend
      refine ⟨x', hx', hinv, fun _ => ⟨fun h => hcov h.1, fun n hn => .inr ?_⟩⟩
      have hn' := hn.resolve_left nofun
      rw [List.count_singleton_self]
      omega
  | nodeErr =>
    cases hsend : x.sending with
    | none => exact ⟨x, by rw [Syncer.handle, hsend], hx, nofun⟩
    | some place =>
      refine ⟨{ x with sending := none, fatal_err := true, sync_done := true },
        by rw [Syncer.handle, hsend], ⟨hx.stack, nofun, ?_, hx.ranges, hx.sound⟩, nofun⟩
      exact fun _ => ⟨rfl, nofun⟩
  | keys i =>
    obtain ⟨x', hx', hinv, hfatal, hsend, hleft, hcov⟩ := handle_keys hx i
    refine ⟨x', hx', hinv, fun _ => ⟨fun h => ⟨hcov h.1, hfatal.trans h.2⟩, fun n hn => ?_⟩⟩
    rwa [hsend, hleft, show [SyncEvent.keys i].count .node = 0 from rfl, Nat.add_zero]
  | keysErr i =>
    exact ⟨_, rfl, ⟨hx.stack, hx.sending, hx.idle,
      fun r hr => hx.ranges r (List.mem_of_mem_eraseIdx hr), hx.sound⟩, nofun⟩

theorem handle_run (hnet : net.WellFormed sha1) (hx : SyncInv sha1 net x) (events : List SyncEvent) :
    ∃ x', events.foldlM (Syncer.handle net) x = some x' ∧ SyncInv sha1 net x' ∧
      ((∀ e ∈ events, e.isReply) → (SyncCovers net x ∧ x.fatal_err = false →
        SyncCovers net x' ∧ x'.fatal_err = false) ∧
        ∀ n, x.sending = none ∨ x.left + n ≤ 65 ^ 28 →
          x'.sending = none ∨ x'.left + (n + events.count .node) ≤ 65 ^ 28) := by
  induction events generalizing x with
  | nil => exact ⟨x, rfl, hx, fun _ => ⟨id, fun n hn => hn⟩⟩
  | cons e events ih =>
    obtain ⟨x₁, hx₁, hinv₁, hstep⟩ := handle_spec hnet hx e
    obtain ⟨x₂, hx₂, hinv₂, hrun⟩ := ih hinv₁
    refine ⟨x₂, ?_, hinv₂, fun hall => ?_⟩
    · rw [List.foldlM_cons, hx₁]
      exact hx₂
    · rw [List.forall_mem_cons] at hall
      obtain ⟨hcov₁, hleft₁⟩ := hstep hall.1
      obtain ⟨hcov₂, hleft₂⟩ := hrun hall.2
      refine ⟨fun h => hcov₂ (hcov₁ h), fun n hn => ?_⟩
      have h₂ := hleft₂ _ (hleft₁ n hn)
      rwa [Nat.add_assoc, ← List.count_append, List.singleton_append] at h₂

/-- A session in any order of answers and errors never fails, and names keys only that the side
which is to have them has. Answers without errors end the walk, and when the requests for keys have
been answered as well every report that is due has been made. -/
theorem merkle_sync_reports (hnet : net.WellFormed sha1) (events : List SyncEvent) :
    ∃ x, runSync net events = some x ∧
      (∀ k, (k, true) ∈ x.missing → k ∈ net.rtree.keylist) ∧
      (∀ k, (k, false) ∈ x.missing → k ∈ net.ltree.keylist) ∧
      ((∀ e ∈ events, e.isReply) →
        (65 ^ 28 ≤ events.count .node → x.sync_done) ∧
        (x.sync_done → x.ranges = [] → ∀ m, net.Due m → m ∈ x.missing)) := by
  obtain ⟨x₀, hx₀, hinv₀, hstart⟩ := startSync_spec hnet
  obtain ⟨x, hx, hinv, hrun⟩ := handle_run hnet hinv₀ events
  refine ⟨x, ?_, fun k hk => hinv.sound _ hk, fun k hk => hinv.sound _ hk, fun hall => ⟨?_, ?_⟩⟩
  · rw [runSync, hx₀]
    exact hx
  · intro hcount
    have hleft := (hrun hall).2 0 (.inr hstart.2.2)
    have hnone : x.sending = none := by
      cases hsend : x.sending with
      | none => rfl
      | some place =>
        have hpos : 0 < 65 ^ (28 - place.1) := Nat.pow_pos (by omega)
        have := hleft.resolve_left (by simp [hsend])
        rw [Syncer.left_some hsend] at this
        omega
    exact (hinv.idle hnone).1
  · intro hdone hranges m hm
    obtain ⟨hahead, hfatal⟩ := (hrun hall).1 ⟨hstart.1, hstart.2.1⟩
    have hnone : x.sending = none := by
      cases hsend : x.sending with
      | none => rfl
      | some place => exact absurd hdone (by simp [(hinv.sending place.1 place.2 hsend).2.1])
    have hst := (hinv.idle hnone).2 hfatal
    rcases hahead m hm with h | ⟨d, p, h, -⟩ | ⟨e, he, -⟩ | ⟨r, hr, -⟩
    · exact h
    · rw [hnone] at h
      cases h
    · rw [hst] at he
      cases he
    · rw [hranges] at hr
      cases hr

theorem runSync_leaves (hnet : net.WellFormed sha1) (hr : net.rtree.keylist.card ≤ 64) :
    ∃ x, runSync net [.node] = some x ∧ x.sync_done = true ∧ x.ranges = [] := by
  have hroot := Place.root net.ltree.keylist net.rtree.keylist
  obtain ⟨r, hsend, hd, hpre, hnode⟩ := handleSendNode_spec hnet hroot
  obtain ⟨n, -, hn, hcanon⟩ := lookup_spec hnet.ltree hroot.clear hroot.left
  have hleaf : r.isleaf = true := by
    rcases hnode with ⟨-, h, -⟩ | ⟨h, -⟩
    · exact h
    · exact absurd (h.trans_le (Finset.card_filter_le _ _)) (Nat.not_lt.2 hr)
  rw [runSync, startSync, sendnode_spec hnet hroot]
  simp only [Option.bind_eq_bind, Option.bind_some, List.foldlM_cons, List.foldlM_nil,
    Syncer.handle, hsend, sendnodeCb, hd, hpre, hn, compareNodes, hleaf]
  simp [Syncer.next]

/-- A tree of two keys is told to a peer that has none. -/
theorem merkle_sync_reports_two :
    ∃ x, runSync ⟨.empty, ⟨true, {5, 9}, .leaf 2 1⟩, 1, 100⟩ [.node] = some x ∧
      (5, true) ∈ x.missing ∧ (9, true) ∈ x.missing := by
  let sha1 : List MerkleHash → MerkleHash := fun _ => 1
  let net : SyncNet := ⟨.empty, ⟨true, {5, 9}, .leaf 2 1⟩, 1, 100⟩
  have hcard : (({5, 9} : Keylist).under 0 0).card = 2 := by decide
  have hrtree : Canon sha1 True {5, 9} 0 0 (.leaf 2 1) := by
    rw [← hcard]
    exact .leaf (by rw [hcard]; decide) fun _ => by rw [leafHash, hcard]; rfl
  have hnet : net.WellFormed sha1 := by
    refine ⟨by decide, (TreeRel.empty sha1).root.mono fun _ => rfl, hrtree,
      fun d p n m hp hn hm heq => ?_⟩
    have hd : d = 0 := by
      by_contra hd
      have hempty : ((∅ : Keylist).under 0 p).card = 0 := rfl
      exact absurd (hp.left 0 (by omega)) (by simp [net, MerkleTree.empty, hempty])
    subst hd
    have hp0 : p = 0 := hp.clear.eq (clear_zero 0) (prefixMatch_zero p)
    subst hp0
    rw [hn.unique (clear_zero 0) ((TreeRel.empty sha1).root.mono fun _ => rfl),
      hm.unique (clear_zero 0) hrtree] at heq
    exact absurd heq (by decide)
  obtain ⟨x, hx, hdone, hranges⟩ := runSync_leaves hnet (by decide)
  obtain ⟨x', hx', -, -, hdue⟩ := merkle_sync_reports hnet [.node]
  obtain rfl := Option.some.inj (hx'.symm.trans hx)
  have hall := (hdue (by decide)).2 hdone hranges
  exact ⟨_, hx', hall (5, true) ⟨rfl, ⟨by decide, by decide⟩, trivial⟩,
    hall (9, true) ⟨rfl, ⟨by decide, by decide⟩, trivial⟩⟩

end Invariant

end XGossip
