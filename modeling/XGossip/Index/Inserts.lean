import XGossip.Index.Crash

namespace XGossip
set_option autoImplicit true

open Gf2

section Calls

/-- The document `sig` goes from `x` down to the leaf `L`, whose parent is `P`. -/
inductive Descends (ix : Index) (σ : Store) (sig : Sig) : Key → Key → Key → Prop where
  | last : σ x = some n → n.isLeaf = false → σ (pickChild NULL n.entries sig ix.metric) = some m →
      m.isLeaf = true → Descends ix σ sig x x (pickChild NULL n.entries sig ix.metric)
  | next : σ x = some n → n.isLeaf = false →
      Descends ix σ sig (pickChild NULL n.entries sig ix.metric) P L → Descends ix σ sig x P L

/-- Where the leaf that a document comes to has to be split, its parent has room for the sibling. -/
def HasRoom (ix : Index) (σ : Store) (sig : Sig) : Prop :=
  ∀ P L p l, Descends ix σ sig ix.rootID P L → σ P = some p → σ L = some l → ix.full l = true →
    ix.full p = false

/-- A call of `insertDocument` and its result. -/
structure Call where
  docid : Key
  sig : Sig
  stat : DHTStatus

/-- A document is inserted again as long as this is asked for; another one has a new docid. -/
def Follows (calls : List Call) (docid : Key) (sig : Sig) : Prop :=
  match calls.getLast? with
  | none => True
  | some call =>
    if call.stat = .REINSERT then docid = call.docid ∧ sig = call.sig
    else docid ∉ calls.map Call.docid

/-- The index after the calls of one client, each of which was made where `ok` allowed it. -/
inductive Calls (ix : Index) (ok : Store → Sig → Prop) : List Call → Store → Prop where
  | create : Prog.Run (serve ix) (createEmptyIndexO ix) (fun _ => none) stat σ → Calls ix ok [] σ
  | insert : Calls ix ok calls σ → Follows calls docid sig → Normalized sig → 0 < fullDegree sig →
      ok σ sig →
      Prog.Run (serve ix) (insertDocument ix sig docid fuel ix.rootID) σ (stat, fullNodes) σ' →
      Calls ix ok (calls ++ [⟨docid, sig, stat⟩]) σ'

def inserted (calls : List Call) : List (Key × Sig) :=
  (calls.filter (·.stat = .SUCC)).map fun call => (call.docid, call.sig)

end Calls

section Shape

/-- A leaf that holds documents of `done` only. -/
structure LeafHolds (ix : Index) (done : List (Key × Sig)) (n : Node) : Prop where
  nodup : n.keys.Nodup
  length_le : n.entries.length ≤ ix.MAXENTRIES
  normalized : ∀ e ∈ n.entries, Normalized e.2
  subset : n.entries ⊆ done

structure OneNode (ix : Index) (done : List (Key × Sig)) (σ : Store) (r : Node) : Prop where
  root : σ ix.rootID = some r
  only : x ≠ ix.rootID → σ x = none
  nodeType : r.nodeType = .ROOT
  level : r.int.level = 0
  holds : LeafHolds ix done r
  stored : done ⊆ r.entries

/-- The child of a root at level 1 that has the label `t`. -/
structure ChildLeaf (ix : Index) (done : List (Key × Sig)) (t : Sig) (n : Node) : Prop where
  nodeType : n.nodeType = .LEAF
  level : n.int.level = 0
  holds : LeafHolds ix done n
  covered : ∀ e ∈ n.entries, Divides e.2 t

/-- An index of a root and leaves below it, which hold the documents. -/
structure TwoLevels (ix : Index) (done : List (Key × Sig)) (σ : Store) (r : Node) : Prop where
  root : σ ix.rootID = some r
  nodeType : r.nodeType = .ROOT
  level : r.int.level = 1
  nodup : r.keys.Nodup
  length_le : r.entries.length ≤ ix.MAXENTRIES
  normalized : ∀ e ∈ r.entries, Normalized e.2
  noHash : ∀ c ∈ r.keys, containsHash c = false
  child : (c, t) ∈ r.entries → c ≠ ix.rootID ∧ ∃ n, σ c = some n ∧ ChildLeaf ix done t n
  only : x ≠ ix.rootID → σ x = some n → x ∈ r.keys
  stored : e ∈ done → ∃ c ∈ r.keys, ∃ n, σ c = some n ∧ e ∈ n.entries

/-- The shapes that an index has as long as no split needs another one. -/
inductive Shaped (ix : Index) (done : List (Key × Sig)) (σ : Store) : Prop where
  | one : OneNode ix done σ r → Shaped ix done σ
  | two : TwoLevels ix done σ r → Shaped ix done σ

variable {ix : Index} {done : List (Key × Sig)} {σ σ' : Store} {r n : Node}

theorem OneNode.isLeaf (h : OneNode ix done σ r) : r.isLeaf = true := by
  simp [Node.isLeaf, h.nodeType, h.level]

theorem TwoLevels.isLeaf (h : TwoLevels ix done σ r) : r.isLeaf = false := by
  simp [Node.isLeaf, h.nodeType, h.level]

theorem ChildLeaf.isLeaf (h : ChildLeaf ix done t n) : n.isLeaf = true := by
  simp [Node.isLeaf, h.nodeType]

theorem OneNode.eq_root (h : OneNode ix done σ r) (hx : σ x = some n) : x = ix.rootID ∧ n = r := by
  by_cases hr : x = ix.rootID
  · subst hr
    exact ⟨rfl, Option.some.inj (hx.symm.trans h.root)⟩
  · simp [h.only hr] at hx

theorem OneNode.wellFormed (h : OneNode ix done σ r) : WellFormed ix σ := by
  have hnot : ∀ {y x}, ¬ Refers σ y x := by
    rintro y x ⟨n, hy, hpos, -⟩
    rw [(h.eq_root hy).2, h.level] at hpos
    exact absurd hpos (by decide)
  refine ⟨⟨r, h.root, h.nodeType⟩, fun hx => ?_, fun hx hne => ?_, fun hx hne => ?_,
    fun hx hpos hc => ?_, fun hx hne => ?_, fun hy => (hnot hy).elim, fun hx => ?_, fun hx => ?_,
    fun x n hx => ?_, ⟨[ix.rootID], fun x hx => ?_⟩, fun x c t d s hl he => ?_⟩
  · rw [(h.eq_root hx).2, h.level]
    decide
  · exact (hne (h.eq_root hx).1).elim
  · exact (hne (h.eq_root hx).1).elim
  · exact (hnot ⟨_, hx, hpos, hc⟩).elim
  · exact (hne (h.eq_root hx).1).elim
  · exact (h.eq_root hx).2 ▸ h.holds.nodup
  · exact (h.eq_root hx).2 ▸ h.holds.length_le
  · exact (h.eq_root hx).2 ▸ h.holds.normalized
  · obtain ⟨n, hn⟩ := Option.ne_none_iff_exists'.1 hx
    simp [(h.eq_root hn).1]
  · obtain ⟨n, hn, -⟩ := exists_of_entry he
    rw [forest_leaf hn, (h.eq_root hn).2, h.isLeaf] at hl
    exact (hl rfl).elim

theorem TwoLevels.child_of_key (h : TwoLevels ix done σ r) (hc : c ∈ r.keys) :
    c ≠ ix.rootID ∧ ∃ t n, (c, t) ∈ r.entries ∧ σ c = some n ∧ ChildLeaf ix done t n := by
  obtain ⟨t, ht⟩ := mem_keys.1 hc
  obtain ⟨hne, n, hn, hleaf⟩ := h.child ht
  exact ⟨hne, t, n, ht, hn, hleaf⟩

theorem TwoLevels.unused (h : TwoLevels ix done σ r) (hM : σ M = none) :
    M ∉ r.keys ∧ M ≠ ix.rootID := by
  constructor
  · intro hmem
    obtain ⟨-, t, m, -, hm, -⟩ := h.child_of_key hmem
    simp [hM] at hm
  · rintro rfl
    simp [h.root] at hM

theorem TwoLevels.node_cases (h : TwoLevels ix done σ r) (hx : σ x = some n) :
    x = ix.rootID ∧ n = r ∨ x ≠ ix.rootID ∧ ∃ t, (x, t) ∈ r.entries ∧ ChildLeaf ix done t n := by
  by_cases hr : x = ix.rootID
  · subst hr
    exact .inl ⟨rfl, Option.some.inj (hx.symm.trans h.root)⟩
  · obtain ⟨-, t, m, ht, hm, hleaf⟩ := h.child_of_key (h.only hr hx)
    obtain rfl : n = m := Option.some.inj (hx.symm.trans hm)
    exact .inr ⟨hr, t, ht, hleaf⟩

theorem TwoLevels.refers (h : TwoLevels ix done σ r) (hy : Refers σ y x) :
    y = ix.rootID ∧ x ∈ r.keys := by
  obtain ⟨n, hn, hpos, hx⟩ := hy
  rcases h.node_cases hn with ⟨rfl, rfl⟩ | ⟨-, t, -, hleaf⟩
  · exact ⟨rfl, hx⟩
  · rw [hleaf.level] at hpos
    exact absurd hpos (by decide)

theorem TwoLevels.covered (h : TwoLevels ix done σ r) : σ.forest.Covered Divides := by
  apply Forest.covered_of_entries
  intro x c t d s hx he hd
  obtain ⟨n, hn, hc⟩ := exists_of_entry he
  obtain ⟨m, hm, hs⟩ := exists_of_entry hd
  rcases h.node_cases hn with ⟨rfl, rfl⟩ | ⟨-, u, -, hleaf⟩
  · obtain ⟨-, m', hm', hleaf⟩ := h.child hc
    obtain rfl : m = m' := Option.some.inj (hm.symm.trans hm')
    exact hleaf.covered (d, s) hs
  · exact (hx ((forest_leaf hn).2 hleaf.isLeaf)).elim

theorem TwoLevels.wellFormed (h : TwoLevels ix done σ r) : WellFormed ix σ := by
  have hone : (1 : BitVec 32).toInt = 1 := by decide
  have hzero : (0 : BitVec 32).toInt = 0 := by decide
  refine ⟨⟨r, h.root, h.nodeType⟩, fun hx => ?_, fun hx hne => ?_, fun hx hne hr => ?_,
    fun hx hpos hc => ?_, fun hx hne => ?_, fun hy hy' => ?_, fun hx => ?_, fun hx => ?_,
    fun x n hx => ?_, ⟨ix.rootID :: r.keys, fun x hx => ?_⟩, h.covered⟩
  · rcases h.node_cases hx with ⟨-, rfl⟩ | ⟨-, t, -, hleaf⟩
    · rw [h.level]
      decide
    · rw [hleaf.level]
      decide
  · rcases h.node_cases hx with ⟨hr, -⟩ | ⟨-, t, -, hleaf⟩
    · exact (hne hr).elim
    · rw [hleaf.nodeType, hleaf.level, if_pos rfl]
  · obtain rfl := Option.some.inj (hr.symm.trans h.root)
    rcases h.node_cases hx with ⟨hr, -⟩ | ⟨-, t, -, hleaf⟩
    · exact (hne hr).elim
    · rw [hleaf.level, h.level, hone, hzero]
      decide
  · obtain ⟨rfl, hmem⟩ := h.refers ⟨_, hx, hpos, hc⟩
    obtain rfl := Option.some.inj (hx.symm.trans h.root)
    obtain ⟨-, t, m, -, hm, hleaf⟩ := h.child_of_key hmem
    exact ⟨m, hm, by rw [hleaf.level, h.level, hone, hzero]; rfl⟩
  · exact ⟨ix.rootID, r, h.root, by rw [h.level]; decide, h.only hne hx⟩
  · exact (h.refers hy).1.trans (h.refers hy').1.symm
  · rcases h.node_cases hx with ⟨-, rfl⟩ | ⟨-, t, -, hleaf⟩
    · exact h.nodup
    · exact hleaf.holds.nodup
  · rcases h.node_cases hx with ⟨-, rfl⟩ | ⟨-, t, -, hleaf⟩
    · exact h.length_le
    · exact hleaf.holds.length_le
  · rcases h.node_cases hx with ⟨-, rfl⟩ | ⟨-, t, -, hleaf⟩
    · exact h.normalized
    · exact hleaf.holds.normalized
  · obtain ⟨n, hn⟩ := Option.ne_none_iff_exists'.1 hx
    by_cases hr : x = ix.rootID
    · simp [hr]
    · exact List.mem_cons_of_mem _ (h.only hr hn)

theorem Shaped.wellFormed (h : Shaped ix done σ) : WellFormed ix σ := by
  cases h with
  | one h => exact h.wellFormed
  | two h => exact h.wellFormed

theorem Shaped.found (h : Shaped ix done σ) (he : (d, s) ∈ done) (hq : Normalized q)
    (hd : Divides q s) : Found ix σ q d := by
  have hw := h.wellFormed
  rw [found_iff hw.normalized hw.finite hq]
  suffices hs : σ.forest.Stored ix.rootID d s from hs.reach hw.covered hd
  cases h with
  | one h =>
    exact .doc ((forest_leaf h.root).2 h.isLeaf) ((forest_entry h.root).2 (h.stored he))
  | two h =>
    obtain ⟨c, hc, n, hn, hmem⟩ := h.stored he
    obtain ⟨-, t, m, ht, hm, hleaf⟩ := h.child_of_key hc
    obtain rfl : n = m := Option.some.inj (hn.symm.trans hm)
    refine .child (by simp [forest_leaf h.root, h.isLeaf]) ((forest_entry h.root).2 ht) ?_
    exact .doc ((forest_leaf hn).2 hleaf.isLeaf) ((forest_entry hn).2 hmem)

end Shape

section Messages

variable {ix : Index} {σ : Store} {Q : DHTStatus → Store → Prop}

theorem wp_insertThen {n n' : Node} (hx : σ ID = some n)
    (hserve : serve ix (some n) value = (some n', .DHASH_OK))
    (hnext : ∀ σ' : Store, σ' ID = some n' → (∀ x, x ≠ ID → σ' x = σ x) →
      Prog.wp (serve ix) Q next σ') :
    Prog.wp (serve ix) Q (insertThen ID value next) σ := by
  have hσ : serve ix (σ ID) value = (some n', .DHASH_OK) := by rw [hx, hserve]
  have hgo := hnext (ix.deliver σ ID value) (deliver_some (congrArg Prod.fst hσ))
    (fun x hne => deliver_of_ne hne value)
  change Prog.wp (serve ix) Q (Prog.bind (insertDHT ID value) _) σ
  simp only [insertDHT, Prog.bind, Prog.wp, hσ]
  exact hgo

theorem wp_create {next : DHTStatus → Client DHTStatus} (hx : σ ID = none)
    (hnext : ∀ σ' : Store, σ' ID = some ⟨nodeType, int, []⟩ → (∀ x, x ≠ ID → σ' x = σ x) →
      Prog.wp (serve ix) Q (next .SUCC) σ') :
    Prog.wp (serve ix) Q (insertDHT ID (.updateHdrLock nodeType int) >>= next) σ := by
  obtain ⟨hok, hx'⟩ := lock_free ix hx nodeType int
  have hgo := hnext (ix.deliver σ ID (.updateHdrLock nodeType int)) hx'
    (fun x hne => deliver_of_ne hne _)
  change Prog.wp (serve ix) Q (next (store_cb (serve ix (σ ID) (.updateHdrLock nodeType int)).2)) _
  rw [hok]
  exact hgo

theorem wp_create_taken {next : DHTStatus → Client DHTStatus} (hx : σ ID = some n)
    (hnext : Prog.wp (serve ix) Q (next .NOTFIRST) σ) :
    Prog.wp (serve ix) Q (insertDHT ID (.updateHdrLock nodeType int) >>= next) σ := by
  change Prog.wp (serve ix) Q (next (store_cb (serve ix (σ ID) (.updateHdrLock nodeType int)).2))
    (ix.deliver σ ID (.updateHdrLock nodeType int))
  rw [(lock_taken hx _ _).1, (lock_taken hx _ _).2]
  exact hnext

theorem wp_retrieveDHT {Q : α → Store → Prop} (ID : Key) (next : Option Node → Client α)
    (σ : Store) :
    Prog.wp (serve ix) Q (retrieveDHT ID >>= next) σ ↔ Prog.wp (serve ix) Q (next (σ ID)) σ :=
  Iff.rfl

theorem wp_awaitHeader (hQ : ∀ stat, Q stat σ) (ID : Key) (nodeInt : Interval) (done : DHTStatus)
    (attempts : Nat) : Prog.wp (serve ix) Q (awaitHeader ID nodeInt done attempts) σ := by
  induction attempts with
  | zero => exact hQ _
  | succ attempts ih =>
    rw [awaitHeader, wp_retrieveDHT]
    split
    · exact hQ _
    · split
      · exact ih
      · exact hQ _

theorem wp_updateHeader {n : Node} (hx : σ ID = some n) (hln : myInt.ln = n.int.ln)
    (hld : myInt.ld = n.int.ld)
    (hQ : ∀ stat (σ' : Store), σ' ID = some { n with
      int := updateInt (n.nodeType = .ROOT) n.int myInt } → (∀ x, x ≠ ID → σ' x = σ x) → Q stat σ')
    (fuel : Nat) : Prog.wp (serve ix) Q (updateHeader ID nodeType myInt done fuel) σ := by
  cases fuel with
  | zero => trivial
  | succ fuel =>
    have hserve : serve ix (some n) (.updateHdr nodeType myInt) = (some { n with
        int := updateInt (n.nodeType = .ROOT) n.int myInt }, .DHASH_OK) := by
      simp [serve, hln, hld]
    refine wp_insertThen hx hserve fun σ' hx' hother => ?_
    rw [wp_retrieveDHT, hx']
    dsimp only
    split
    · exact hQ _ σ' hx' hother
    · exact hQ _ σ' hx' hother

theorem wp_readFull {next : SplitJob → Client DHTStatus} (hx : σ ID = some n)
    (hQ : Q .FAIL σ)
    (hnext : ∀ g, ix.full n = true →
      splitNode ix.MAXENTRIES ix.metric (n.entries.map Prod.snd) = some g →
      Prog.wp (serve ix) Q (next ⟨ID, n, g⟩) σ) :
    Prog.wp (serve ix) Q (readFull ix ID oldInt next) σ := by
  rw [readFull, wp_retrieveDHT, hx]
  dsimp only
  split
  · exact hQ
  · next hfull =>
    split
    · exact hQ
    · split
      · trivial
      · next g hg => exact hnext g (by simpa using hfull) hg

end Messages

section Splits

variable {ix : Index} {done : List (Key × Sig)} {σ σ' : Store} {r n : Node} {j : SplitJob}

theorem LeafHolds.parts (h : LeafHolds ix done n) (hfull : ix.full n = true)
    (hg : splitNode ix.MAXENTRIES ix.metric (n.entries.map Prod.snd) = some g) (ID : Key) :
    (SplitJob.mk ID n g).Parts ix := by
  have hlen := h.length_le
  simp only [Index.full, decide_eq_true_eq] at hfull
  exact splitNode_parts (by dsimp only; omega) h.normalized hg

theorem LeafHolds.part (h : LeafHolds ix done n) (hp : (l ++ l').Perm n.entries) :
    LeafHolds ix done ⟨nodeType, int, l⟩ := by
  have hsub : l ⊆ n.entries := fun e he => hp.mem_iff.1 (List.mem_append_left _ he)
  have hnodup := (hp.map Prod.fst).nodup_iff.2 h.nodup
  have hlen := hp.length_eq
  rw [List.map_append] at hnodup
  rw [List.length_append] at hlen
  exact ⟨(List.nodup_append.1 hnodup).1, (Nat.le_add_right ..).trans (hlen.trans_le h.length_le),
    fun e he => h.normalized e (hsub he), List.Subset.trans hsub h.subset⟩

def SplitJob.rest (j : SplitJob) (int : Interval) : Node :=
  ⟨j.node.nodeType, int, j.node.entries.filter fun e => e.1 ∉ j.moved⟩

theorem mem_rest (hp : j.Parts ix) (hnodup : j.node.keys.Nodup) (int : Interval) :
    e ∈ (j.rest int).entries ↔ e ∈ j.items1 := by
  have hnd := (hp.perm.map Prod.fst).nodup_iff.2 hnodup
  rw [List.map_append] at hnd
  simp only [SplitJob.rest, List.mem_filter, decide_eq_true_eq]
  constructor
  · rintro ⟨he, hne⟩
    rcases List.mem_append.1 (hp.perm.mem_iff.2 he) with h₁ | h₂
    · exact h₁
    · exact (hne (List.mem_map.2 ⟨e, h₂, rfl⟩)).elim
  · intro he
    exact ⟨hp.perm.mem_iff.1 (List.mem_append_left _ he), fun hmem =>
      List.disjoint_of_nodup_append hnd (List.mem_map.2 ⟨e, he, rfl⟩) hmem⟩

theorem LeafHolds.rest (h : LeafHolds ix done j.node) (int : Interval) :
    LeafHolds ix done (j.rest int) :=
  ⟨h.nodup.sublist ((List.filter_sublist).map _), (List.length_filter_le _ _).trans h.length_le,
    fun e he => h.normalized e (List.mem_of_mem_filter he),
    fun _ he => h.subset (List.mem_of_mem_filter he)⟩

def SplitJob.newRoot (ix : Index) (j : SplitJob) (r : Node) : Node :=
  { r with
    entries := (r.entries ++ [(j.siblingID ix, j.groups.lcm2)]).map
      (updateEntry .REPLACESIG j.ID j.groups.lcm1) }

theorem keys_newRoot (ix : Index) (j : SplitJob) (r : Node) :
    (j.newRoot ix r).keys = r.keys ++ [j.siblingID ix] := by
  rw [Node.keys, SplitJob.newRoot, keys_map_updateEntry, List.map_append]
  rfl

theorem mem_newRoot (h : (c, t) ∈ (j.newRoot ix r).entries) :
    (c = j.siblingID ix ∧ t = j.groups.lcm2) ∨ (c = j.ID ∧ t = j.groups.lcm1) ∨
      (c ≠ j.ID ∧ (c, t) ∈ r.entries) := by
  obtain ⟨s, hs, rfl⟩ := mem_map_updateEntry.1 h
  have hrep : updatedSig .REPLACESIG s j.groups.lcm1 = j.groups.lcm1 := by simp [updatedSig]
  by_cases hc : c = j.ID
  · rw [if_pos hc, hrep]
    exact .inr (.inl ⟨hc, rfl⟩)
  · rw [if_neg hc]
    rcases List.mem_append.1 hs with hs | hs
    · exact .inr (.inr ⟨hc, hs⟩)
    · obtain ⟨rfl, rfl⟩ := Prod.mk.inj (List.mem_singleton.1 hs)
      exact .inl ⟨rfl, rfl⟩

structure SplitJob.Done (ix : Index) (j : SplitJob) (r : Node) (σ σ' : Store) : Prop where
  sibling : ∃ int, σ' (j.siblingID ix) = some ⟨j.node.nodeType, int, j.items2⟩ ∧
    int.level = j.node.int.level
  root : σ' ix.rootID = some (j.newRoot ix r)
  node : ∃ int, σ' j.ID = some (j.rest int) ∧ int.level = j.node.int.level
  other : x ≠ j.siblingID ix → x ≠ ix.rootID → x ≠ j.ID → σ' x = σ x

/-- The split of a full leaf below a root that has room. -/
theorem TwoLevels.split (h : TwoLevels ix done σ r) (hm : ix.metric = true)
    (hID : (j.ID, t) ∈ r.entries) (hn : σ j.ID = some j.node) (hp : j.Parts ix)
    (hroom : ix.full r = false) (hM : σ (j.siblingID ix) = none) (hd : j.Done ix r σ σ') :
    TwoLevels ix done σ' (j.newRoot ix r) := by
  obtain ⟨hIDroot, n, hn', hleaf⟩ := h.child hID
  obtain rfl : n = j.node := Option.some.inj (hn'.symm.trans hn)
  obtain ⟨hMkeys, hMroot⟩ := h.unused hM
  obtain ⟨int₂, hM', hl₂⟩ := hd.sibling
  obtain ⟨int₁, hn₁, hl₁⟩ := hd.node
  have hkeep : ∀ {c}, c ∈ r.keys → c ≠ j.ID → σ' c = σ c := by
    intro c hc hcID
    refine hd.other (fun he => hMkeys (he ▸ hc)) (h.child_of_key hc).1 hcID
  refine ⟨hd.root, h.nodeType, h.level, ?_, ?_, ?_, ?_, ?_, ?_, ?_⟩
  · rw [keys_newRoot, List.nodup_append]
    exact ⟨h.nodup, List.nodup_singleton _, fun a ha b hb he =>
      hMkeys (List.mem_singleton.1 hb ▸ he ▸ ha)⟩
  · have hlen := congrArg List.length (keys_newRoot ix j r)
    simp only [Node.keys, List.length_map, List.length_append, List.length_singleton] at hlen
    simp only [Index.full, decide_eq_false_iff_not] at hroom
    omega
  · rintro ⟨c, t⟩ he
    rcases mem_newRoot he with ⟨-, rfl⟩ | ⟨-, rfl⟩ | ⟨-, he⟩
    · exact hp.normalized2
    · exact hp.normalized1
    · exact h.normalized _ he
  · intro c hc
    rw [keys_newRoot, List.mem_append, List.mem_singleton] at hc
    rcases hc with hc | rfl
    · exact h.noHash c hc
    · exact ix.noHash _ _ _
  · intro c t he
    rcases mem_newRoot he with ⟨rfl, rfl⟩ | ⟨rfl, rfl⟩ | ⟨hcID, he⟩
    · exact ⟨hMroot, _, hM', hleaf.nodeType, hl₂.trans hleaf.level,
        hleaf.holds.part (List.perm_append_comm.trans hp.perm), hp.cover2 hm⟩
    · refine ⟨hIDroot, _, hn₁, hleaf.nodeType, hl₁.trans hleaf.level, hleaf.holds.rest int₁, ?_⟩
      intro e he
      exact hp.cover1 hm e ((mem_rest hp hleaf.holds.nodup int₁).1 he)
    · obtain ⟨hne, m, hm, hleaf⟩ := h.child he
      exact ⟨hne, m, (hkeep (mem_keys.2 ⟨t, he⟩) hcID).trans hm, hleaf⟩
  · intro x m hx hm
    rw [keys_newRoot, List.mem_append, List.mem_singleton]
    by_cases hxM : x = j.siblingID ix
    · exact .inr hxM
    · left
      by_cases hxID : x = j.ID
      · exact hxID ▸ mem_keys.2 ⟨t, hID⟩
      · exact h.only hx ((hd.other hxM hx hxID).symm.trans hm)
  · intro e he
    obtain ⟨c, hc, m, hm, hmem⟩ := h.stored he
    rw [keys_newRoot]
    by_cases hcID : c = j.ID
    · subst hcID
      obtain rfl := Option.some.inj (hm.symm.trans hn)
      rcases List.mem_append.1 (hp.perm.mem_iff.2 hmem) with h₁ | h₂
      · exact ⟨j.ID, List.mem_append_left _ hc, _, hn₁,
          (mem_rest hp hleaf.holds.nodup int₁).2 h₁⟩
      · exact ⟨j.siblingID ix, List.mem_append_right _ (List.mem_singleton.2 rfl), _, hM', h₂⟩
    · exact ⟨c, List.mem_append_left _ hc, m, (hkeep hc hcID).trans hm, hmem⟩

theorem serve_fill (ix : Index) (nodeType : NodeType) (int : Interval) (items : List (Key × Sig)) :
    serve ix (some ⟨nodeType, int, []⟩) (.split items) =
      (some ⟨nodeType, int, items⟩, .DHASH_OK) := by
  have h2 := ix.two_le
  have hfull : ix.full ⟨nodeType, int, []⟩ = false := by
    simp only [Index.full, List.length_nil, decide_eq_false_iff_not]
    omega
  simp [serve, serveSplit, hfull]

theorem serve_append {n : Node} (hkey : containsHash key = false) (hnew : key ∉ n.keys)
    (hroom : ix.full n = false) : serve ix (some n) (.update .UPDATE key sig) =
      (some { n with entries := n.entries ++ [(key, sig)] }, .DHASH_OK) := by
  simp [serve, serveUpdate, hkey, hnew, hroom]

theorem serve_present {n : Node} (hkey : containsHash key = false) (hmem : key ∈ n.keys)
    (type : InsertType) (sig : Sig) : serve ix (some n) (.update type key sig) =
      (some { n with entries := n.entries.map (updateEntry type key sig) }, .DHASH_OK) := by
  simp [serve, serveUpdate, hkey, hmem]

theorem serve_delete {n : Node} (hfull : ix.full n = true) (keys : List Key) :
    serve ix (some n) (.splitSpecial keys) =
      (some { n with entries := n.entries.filter fun e => e.1 ∉ keys }, .DHASH_OK) := by
  simp [serve, serveSplit, hfull]

theorem wp_performSplit {Q : DHTStatus → Store → Prop} (h : TwoLevels ix done σ r)
    (hm : ix.metric = true) (hID : (c, t) ∈ r.entries) (hroom : ix.full r = false)
    (hQ : ∀ stat σ' r', TwoLevels ix done σ' r' → Q stat σ') (fuel : Nat) (int : Interval) :
    Prog.wp (serve ix) Q (performSplit ix fuel c int ix.rootID) σ := by
  obtain ⟨hcroot, n, hn, hleaf⟩ := h.child hID
  refine wp_readFull hn (hQ _ _ _ h) fun g hfull hg random => ?_
  let j : SplitJob := ⟨c, n, g⟩
  have hp : j.Parts ix := hleaf.holds.parts hfull hg c
  change Prog.wp (serve ix) Q (j.create ix ix.rootID fuel _) σ
  cases hM : σ (j.siblingID ix) with
  | some m => exact wp_create_taken hM (wp_awaitHeader (fun stat => hQ _ _ _ h) ..)
  | none =>
    obtain ⟨hMkeys, hMroot⟩ := h.unused hM
    have hMc : j.siblingID ix ≠ c := fun he => by simp [he, hn] at hM
    refine wp_create hM fun σ₁ hM₁ h₁ => ?_
    refine wp_insertThen hM₁ (serve_fill ..) fun σ₂ hM₂ h₂ => ?_
    have hr₂ : σ₂ ix.rootID = some r := by rw [h₂ _ hMroot.symm, h₁ _ hMroot.symm, h.root]
    refine wp_insertThen hr₂ (serve_append (ix.noHash ..) hMkeys hroom) fun σ₃ hr₃ h₃ => ?_
    have hckeys : c ∈ r.keys := mem_keys.2 ⟨t, hID⟩
    refine wp_insertThen hr₃ (serve_present (h.noHash c hckeys) ?_ ..) fun σ₄ hr₄ h₄ => ?_
    · exact mem_keys.2 ⟨t, List.mem_append_left _ hID⟩
    have hn₄ : σ₄ c = some n := by
      rw [h₄ _ hcroot, h₃ _ hcroot, h₂ _ hMc.symm, h₁ _ hMc.symm, hn]
    refine wp_insertThen hn₄ (serve_delete hfull _) fun σ₅ hn₅ h₅ => ?_
    have hleft : j.myInt.ln = n.int.ln ∧ j.myInt.ld = n.int.ld := ⟨rfl, rfl⟩
    refine wp_updateHeader hn₅ hleft.1 hleft.2 (fun stat σ₆ hn₆ h₆ => ?_) fuel
    rw [← h₃ _ hMroot, ← h₄ _ hMroot, ← h₅ _ hMc, ← h₆ _ hMc] at hM₂
    refine hQ stat σ₆ _ (h.split hm hID hn hp hroom hM ⟨⟨_, hM₂, rfl⟩, ?_, ⟨_, hn₆, ?_⟩, ?_⟩)
    · rw [h₆ _ hcroot.symm, h₅ _ hcroot.symm, hr₄]
      rfl
    · simp [hleaf.nodeType, updateInt_level, j]
    · intro x hxM hxr hxc
      rw [h₆ _ hxc, h₅ _ hxc, h₄ _ hxr, h₃ _ hxr, h₂ _ hxM, h₁ _ hxM]

end Splits

section RootSplit

/-- The hash tells the second of the first two children of a root from the other one and from the
root. -/
structure Index.Apart (ix : Index) : Prop where
  first : ix.nodeID 0 1 2 ≠ ix.nodeID 0 0 1
  root : ix.nodeID 0 1 2 ≠ ix.rootID

variable {ix : Index} {done : List (Key × Sig)} {σ σ' : Store} {r r' : Node} {j : SplitJob}

structure SplitJob.RootDone (ix : Index) (j : SplitJob) (r' : Node) (σ' : Store) : Prop where
  root : σ' ix.rootID = some r'
  nodeType : r'.nodeType = .ROOT
  level : r'.int.level = 1
  entries : r'.entries = [(j.firstNodeID ix, j.groups.lcm1), (j.secondNodeID ix, j.groups.lcm2)]
  first : ∃ int, σ' (j.firstNodeID ix) = some ⟨.LEAF, int, j.items1⟩ ∧ int.level = 0
  second : ∃ int, σ' (j.secondNodeID ix) = some ⟨.LEAF, int, j.items2⟩ ∧ int.level = 0
  first_ne_root : j.firstNodeID ix ≠ ix.rootID
  second_ne_root : j.secondNodeID ix ≠ ix.rootID
  second_ne_first : j.secondNodeID ix ≠ j.firstNodeID ix
  other : x ≠ j.firstNodeID ix → x ≠ j.secondNodeID ix → x ≠ ix.rootID → σ' x = none

theorem OneNode.split (h : OneNode ix done σ j.node) (hm : ix.metric = true) (hp : j.Parts ix)
    (hd : j.RootDone ix r' σ') : TwoLevels ix done σ' r' := by
  have hkeys : r'.keys = [j.firstNodeID ix, j.secondNodeID ix] := by
    rw [Node.keys, hd.entries]
    rfl
  have hmem : ∀ {c t}, (c, t) ∈ r'.entries → c = j.firstNodeID ix ∧ t = j.groups.lcm1 ∨
      c = j.secondNodeID ix ∧ t = j.groups.lcm2 := by
    intro c t he
    simpa [hd.entries] using he
  obtain ⟨int₁, hA, hl₁⟩ := hd.first
  obtain ⟨int₂, hB, hl₂⟩ := hd.second
  refine ⟨hd.root, hd.nodeType, hd.level, ?_, ?_, ?_, ?_, ?_, ?_, ?_⟩
  · rw [hkeys]
    simpa using hd.second_ne_first.symm
  · rw [hd.entries]
    exact ix.two_le
  · rintro ⟨c, t⟩ he
    rcases hmem he with ⟨-, rfl⟩ | ⟨-, rfl⟩
    · exact hp.normalized1
    · exact hp.normalized2
  · intro c hc
    rw [hkeys, List.mem_cons, List.mem_singleton] at hc
    rcases hc with rfl | rfl
    · exact ix.noHash _ _ _
    · exact ix.noHash _ _ _
  · intro c t he
    rcases hmem he with ⟨rfl, rfl⟩ | ⟨rfl, rfl⟩
    · exact ⟨hd.first_ne_root, _, hA, rfl, hl₁, h.holds.part hp.perm, hp.cover1 hm⟩
    · exact ⟨hd.second_ne_root, _, hB, rfl, hl₂,
        h.holds.part (List.perm_append_comm.trans hp.perm), hp.cover2 hm⟩
  · intro x n hx hn
    rw [hkeys, List.mem_cons, List.mem_singleton]
    by_contra hne
    rw [not_or] at hne
    simp [hd.other hne.1 hne.2 hx] at hn
  · intro e he
    rw [hkeys]
    rcases List.mem_append.1 (hp.perm.mem_iff.2 (h.stored he)) with h₁ | h₂
    · exact ⟨j.firstNodeID ix, by simp, _, hA, h₁⟩
    · exact ⟨j.secondNodeID ix, by simp, _, hB, h₂⟩

theorem serve_header {n : Node} (nodeType : NodeType) (hln : int.ln = n.int.ln)
    (hld : int.ld = n.int.ld) : serve ix (some n) (.updateHdr nodeType int) =
      (some { n with int := updateInt (n.nodeType = .ROOT) n.int int }, .DHASH_OK) := by
  simp [serve, hln, hld]

/-- What is left of the split of a root that was a leaf when it is closed. -/
theorem wp_rootDelete {Q : DHTStatus → Store → Prop} (hr : σ j.ID = some r)
    (ht : r.nodeType = .ROOT) (hl : r.int.level = 0) (hj : j.node.int.level = 0)
    (hln : j.node.int.ln = r.int.ln) (hld : j.node.int.ld = r.int.ld)
    (hes : r.entries = j.node.entries) (hfull : ix.full j.node = true) (hp : j.Parts ix)
    (hne : j.secondNodeID ix ≠ j.firstNodeID ix)
    (hQ : ∀ stat (σ' : Store) r', σ' j.ID = some r' → r'.nodeType = .ROOT → r'.int.level = 1 →
      r'.entries = [(j.firstNodeID ix, j.groups.lcm1), (j.secondNodeID ix, j.groups.lcm2)] →
      (∀ x, x ≠ j.ID → σ' x = σ x) → Q stat σ') (fuel : Nat) :
    Prog.wp (serve ix) Q (j.rootDelete ix fuel) σ := by
  have h2 := ix.two_le
  refine wp_insertThen hr (serve_deleteAll hfull hp hes) fun σ₁ hr₁ h₁ => ?_
  refine wp_insertThen hr₁ (serve_append (ix.noHash ..) List.not_mem_nil ?_) fun σ₂ hr₂ h₂ => ?_
  · simp only [Index.full, List.length_nil, decide_eq_false_iff_not]
    omega
  refine wp_insertThen hr₂ (serve_append (ix.noHash ..) ?_ ?_) fun σ₃ hr₃ h₃ => ?_
  · simpa [Node.keys] using hne
  · simp only [Index.full, List.nil_append, List.length_singleton, decide_eq_false_iff_not]
    omega
  have hint : j.rootInt.ln = r.int.ln ∧ j.rootInt.ld = r.int.ld := ⟨hln, hld⟩
  refine wp_updateHeader hr₃ hint.1 hint.2 (fun stat σ₄ hr₄ h₄ => hQ stat σ₄ _ hr₄ ht ?_ rfl ?_) fuel
  · have hone : j.rootInt.level = 1 := by rw [SplitJob.rootInt, hj]; rfl
    have hlevel := (updateInt_left_level r.int j.rootInt).2.2
    rw [hl, hone] at hlevel
    simpa [ht] using hlevel
  · intro x hx
    rw [h₄ _ hx, h₃ _ hx, h₂ _ hx, h₁ _ hx]

theorem wp_performSplitRoot {Q : DHTStatus → Store → Prop} (h : OneNode ix done σ r)
    (hm : ix.metric = true) (ha : ix.Apart) (hQ : ∀ stat σ', Shaped ix done σ' → Q stat σ')
    (fuel : Nat) (int : Interval) :
    Prog.wp (serve ix) Q (performSplitRoot ix fuel ix.rootID int) σ := by
  refine wp_readFull h.root (hQ _ _ (.one h)) fun g hfull hg random1 random2 => ?_
  let j : SplitJob := ⟨ix.rootID, r, g⟩
  have hp : j.Parts ix := h.holds.parts hfull hg ix.rootID
  have hlevel : j.node.int.level = 0 := h.level
  have htype : j.newNodeType = .LEAF := if_pos hlevel
  have hBA : j.secondNodeID ix ≠ j.firstNodeID ix := by
    rw [SplitJob.secondNodeID, SplitJob.firstNodeID, hlevel]
    exact ha.first
  have hBroot : j.secondNodeID ix ≠ ix.rootID := by
    rw [SplitJob.secondNodeID, hlevel]
    exact ha.root
  change Prog.wp (serve ix) Q (j.first ix fuel _ _) σ
  by_cases hAroot : j.firstNodeID ix = ix.rootID
  · exact wp_create_taken (hAroot ▸ h.root) (wp_awaitHeader (fun stat => hQ _ _ (.one h)) ..)
  · refine wp_create (h.only hAroot) fun σ₁ hA₁ h₁ => ?_
    refine wp_insertThen hA₁ (serve_fill ..) fun σ₂ hA₂ h₂ => ?_
    have hB₂ : σ₂ (j.secondNodeID ix) = none := by rw [h₂ _ hBA, h₁ _ hBA, h.only hBroot]
    refine wp_create hB₂ fun σ₃ hB₃ h₃ => ?_
    refine wp_insertThen hB₃ (serve_fill ..) fun σ₄ hB₄ h₄ => ?_
    have hr₄ : σ₄ ix.rootID = some r := by
      rw [h₄ _ hBroot.symm, h₃ _ hBroot.symm, h₂ _ (Ne.symm hAroot), h₁ _ (Ne.symm hAroot), h.root]
    rw [SplitJob.rootClose, if_pos hlevel]
    refine wp_insertThen hr₄ (serve_header _ rfl rfl) fun σ₅ hr₅ h₅ => ?_
    obtain ⟨hln, hld, hl⟩ := updateInt_left_level r.int { j.node.int with random := -1 }
    refine wp_rootDelete hr₅ h.nodeType ?_ hlevel ?_ ?_ rfl hfull hp hBA
      (fun stat σ₆ r' hr₆ ht' hl' he' h₆ => ?_) fuel
    · simpa [h.nodeType, h.level, hlevel] using hl
    · simpa [h.nodeType] using hln.symm
    · simpa [h.nodeType] using hld.symm
    rw [htype, ← h₅ _ hBroot, ← h₆ _ hBroot] at hB₄
    rw [htype, ← h₃ _ hBA.symm, ← h₄ _ hBA.symm, ← h₅ _ hAroot, ← h₆ _ hAroot] at hA₂
    refine hQ stat σ₆ (.two (h.split hm hp ⟨hr₆, ht', hl', he', ⟨_, hA₂, hlevel⟩, ⟨_, hB₄, hlevel⟩,
      hAroot, hBroot, hBA, ?_⟩))
    intro x hxA hxB hxr
    rw [h₆ _ hxr, h₅ _ hxr, h₄ _ hxB, h₃ _ hxB, h₂ _ hxA, h₁ _ hxA, h.only hxr]

end RootSplit

section Puts

variable {ix : Index} {done : List (Key × Sig)} {σ σ' : Store} {r n : Node}

def Node.put (n : Node) (docid : Key) (sig : Sig) : Node :=
  { n with entries := n.entries ++ [(docid, sig)] }

theorem LeafHolds.mono (h : LeafHolds ix done n) (e : Key × Sig) : LeafHolds ix (done ++ [e]) n :=
  ⟨h.nodup, h.length_le, h.normalized, List.subset_append_of_subset_left _ h.subset⟩

theorem LeafHolds.put (h : LeafHolds ix done n) (hroom : ix.full n = false)
    (hnew : docid ∉ n.keys) (hs : Normalized sig) :
    LeafHolds ix (done ++ [(docid, sig)]) (n.put docid sig) := by
  refine ⟨?_, ?_, ?_, ?_⟩
  · rw [Node.keys, Node.put, List.map_append, List.nodup_append]
    refine ⟨h.nodup, List.nodup_singleton _, fun a ha b hb he => hnew ?_⟩
    obtain rfl : a = docid := he.trans (List.mem_singleton.1 hb)
    exact ha
  · simp only [Index.full, decide_eq_false_iff_not] at hroom
    simp only [Node.put, List.length_append, List.length_singleton]
    omega
  · intro e he
    rcases List.mem_append.1 he with he | he
    · exact h.normalized e he
    · rw [List.mem_singleton.1 he]
      exact hs
  · intro e he
    rcases List.mem_append.1 he with he | he
    · exact List.mem_append_left _ (h.subset he)
    · exact List.mem_append_right _ he

theorem OneNode.put (h : OneNode ix done σ r) (hroom : ix.full r = false) (hnew : docid ∉ r.keys)
    (hs : Normalized sig) (hr : σ' ix.rootID = some (r.put docid sig))
    (hother : ∀ x, x ≠ ix.rootID → σ' x = σ x) :
    OneNode ix (done ++ [(docid, sig)]) σ' (r.put docid sig) := by
  refine ⟨hr, fun hx => (hother _ hx).trans (h.only hx), h.nodeType, h.level,
    h.holds.put hroom hnew hs, ?_⟩
  intro e he
  rcases List.mem_append.1 he with he | he
  · exact List.mem_append_left _ (h.stored he)
  · exact List.mem_append_right _ he

theorem ChildLeaf.put (h : ChildLeaf ix done t n) (hroom : ix.full n = false)
    (hnew : docid ∉ n.keys) (ht : Normalized t) (hs : Normalized sig) :
    ChildLeaf ix (done ++ [(docid, sig)]) (lcm t sig) (n.put docid sig) := by
  obtain ⟨-, htl, hsl, -⟩ := lcm_spec ht hs
  refine ⟨h.nodeType, h.level, h.holds.put hroom hnew hs, ?_⟩
  intro e he
  rcases List.mem_append.1 he with he | he
  · exact trans_of Divides (h.covered e he) htl
  · rw [List.mem_singleton.1 he]
    exact hsl

/-- The document is in a leaf and the root has been told. -/
theorem TwoLevels.put (h : TwoLevels ix done σ r) (hc : c ∈ r.keys) (hn : σ c = some n)
    (hroom : ix.full n = false) (hnew : docid ∉ n.keys) (hs : Normalized sig)
    (hc' : σ' c = some (n.put docid sig)) (hr : σ' ix.rootID = some
      { r with entries := r.entries.map (updateEntry .UPDATEIFPRESENT c sig) })
    (hother : ∀ x, x ≠ c → x ≠ ix.rootID → σ' x = σ x) :
    TwoLevels ix (done ++ [(docid, sig)]) σ'
      { r with entries := r.entries.map (updateEntry .UPDATEIFPRESENT c sig) } := by
  have hkeys : Node.keys { r with entries := r.entries.map (updateEntry .UPDATEIFPRESENT c sig) } =
      r.keys := keys_map_updateEntry _
  have hcroot := (h.child_of_key hc).1
  refine ⟨hr, h.nodeType, h.level, hkeys ▸ h.nodup, ?_, ?_, hkeys ▸ h.noHash, ?_, ?_, ?_⟩
  · rw [List.length_map]
    exact h.length_le
  · rintro ⟨x, t⟩ he
    obtain ⟨s, hxs, rfl⟩ := mem_map_updateEntry.1 he
    dsimp only
    split
    · exact updatedSig_normalized (by simp) (h.normalized _ hxs) hs
    · exact h.normalized _ hxs
  · intro x t he
    obtain ⟨s, hxs, rfl⟩ := mem_map_updateEntry.1 he
    obtain ⟨hxroot, m, hm, hleaf⟩ := h.child hxs
    refine ⟨hxroot, ?_⟩
    by_cases hxc : x = c
    · subst hxc
      obtain rfl := Option.some.inj (hm.symm.trans hn)
      rw [if_pos rfl]
      exact ⟨_, hc', hleaf.put hroom hnew (h.normalized _ hxs) hs⟩
    · rw [if_neg hxc]
      exact ⟨m, (hother x hxc hxroot).trans hm, hleaf.nodeType, hleaf.level, hleaf.holds.mono _,
        hleaf.covered⟩
  · intro x m hx hm
    rw [hkeys]
    by_cases hxc : x = c
    · exact hxc ▸ hc
    · exact h.only hx ((hother x hxc hx).symm.trans hm)
  · intro e he
    rw [hkeys]
    rcases List.mem_append.1 he with he | he
    · obtain ⟨x, hx, m, hm, hmem⟩ := h.stored he
      by_cases hxc : x = c
      · subst hxc
        obtain rfl := Option.some.inj (hm.symm.trans hn)
        exact ⟨x, hx, _, hc', List.mem_append_left _ hmem⟩
      · exact ⟨x, hx, m, (hother x hxc (h.child_of_key hx).1).trans hm, hmem⟩
    · exact ⟨c, hc, _, hc', List.mem_append_right _ he⟩

def After (ix : Index) (done : List (Key × Sig)) (docid : Key) (sig : Sig)
    (result : DHTStatus × FullNodes) (σ : Store) : Prop :=
  Shaped ix (if result.1 = .SUCC then done ++ [(docid, sig)] else done) σ

theorem After.failed (h : Shaped ix done σ) (hstat : stat ≠ .SUCC) :
    After ix done docid sig (stat, fullNodes) σ := by
  rw [After, if_neg hstat]
  exact h

/-- A node that has room takes the document unless it refuses it. -/
theorem wp_put {Q : DHTStatus × FullNodes → Store → Prop} (hn : σ x = some n)
    (hnew : docid ∉ n.keys) (hfail : Q (.FAIL, []) σ)
    (hsucc : ∀ σ' : Store, ix.full n = false → σ' x = some (n.put docid sig) →
      (∀ y, y ≠ x → σ' y = σ y) → Q (.SUCC, []) σ') :
    Prog.wp (serve ix) Q (do
      let stat ← insertDHT x (.update .UPDATE docid sig)
      if stat ≠ .SUCC then return (.FAIL, []) else return (.SUCC, [])) σ := by
  change Prog.wp (serve ix) Q (if store_cb (serve ix (σ x) (.update .UPDATE docid sig)).2 ≠ .SUCC
    then Prog.ret (.FAIL, []) else Prog.ret (.SUCC, [])) (ix.deliver σ x (.update .UPDATE docid sig))
  rcases serveUpdate_cases ix .UPDATE docid sig n with
    ⟨stat, h₁, h₂, hs⟩ | ⟨hk, -⟩ | ⟨-, ht, -⟩ | ⟨-, -, hroom, hs⟩
  · have hserve : serve ix (σ x) (.update .UPDATE docid sig) = (some n, stat) := serve_update hn hs
    have hstat : store_cb stat ≠ .SUCC := by
      cases stat <;> simp_all [store_cb]
    rw [hserve, if_pos hstat, deliver_eq_self (by rw [hserve, hn])]
    exact hfail
  · exact (hnew hk).elim
  · cases ht
  · have hserve : serve ix (σ x) (.update .UPDATE docid sig) = (some (n.put docid sig), .DHASH_OK) :=
      serve_update hn hs
    rw [hserve, if_neg (by simp [store_cb])]
    exact hsucc _ hroom (deliver_some (congrArg Prod.fst hserve)) fun y hy => deliver_of_ne hy _

end Puts

section Insert

variable {ix : Index} {done : List (Key × Sig)} {σ : Store} {r : Node} {docid : Key} {sig : Sig}

theorem LeafHolds.not_mem {n : Node} (h : LeafHolds ix done n) (hnew : docid ∉ done.map Prod.fst) :
    docid ∉ n.keys :=
  fun hmem => hnew (List.map_subset _ h.subset hmem)

theorem OneNode.wp_insertDocument (h : OneNode ix done σ r) (hm : ix.metric = true) (ha : ix.Apart)
    (hnew : docid ∉ done.map Prod.fst) (hs : Normalized sig) (fuel : Nat) :
    Prog.wp (serve ix) (After ix done docid sig) (insertDocument ix sig docid fuel ix.rootID) σ := by
  cases fuel with
  | zero => trivial
  | succ fuel =>
    rw [insertDocument, wp_retrieveDHT, h.root]
    dsimp only
    rw [if_pos h.isLeaf]
    cases hfull : ix.full r with
    | true =>
      rw [if_pos rfl, if_neg (by simp [h.nodeType]), Prog.wp_bind]
      refine wp_performSplitRoot h hm ha (fun stat σ' hσ' => ?_) fuel r.int
      split
      · exact After.failed hσ' (by simp)
      · exact After.failed hσ' (by simp)
    | false =>
      rw [if_neg (by simp)]
      refine wp_put h.root (h.holds.not_mem hnew) (After.failed (.one h) (by simp)) ?_
      intro σ' hroom hr hother
      exact .one (h.put hroom (h.holds.not_mem hnew) hs hr hother)

theorem wp_insertLeaf {Q : DHTStatus × FullNodes → Store → Prop} {n : Node} (hn : σ c = some n)
    (ht : n.nodeType = .LEAF) (hnew : docid ∉ n.keys)
    (hsplit : ix.full n = true → Q (.NODESPLIT, [(c, n.int)]) σ) (hfail : Q (.FAIL, []) σ)
    (hsucc : ∀ σ' : Store, ix.full n = false → σ' c = some (n.put docid sig) →
      (∀ y, y ≠ c → σ' y = σ y) → Q (.SUCC, []) σ') (fuel : Nat) :
    Prog.wp (serve ix) Q (insertDocument ix sig docid fuel c) σ := by
  cases fuel with
  | zero => trivial
  | succ fuel =>
    rw [insertDocument, wp_retrieveDHT, hn]
    dsimp only
    rw [if_pos (by simp [Node.isLeaf, ht])]
    cases hfull : ix.full n with
    | true =>
      rw [if_pos rfl, if_pos ht]
      exact hsplit hfull
    | false =>
      rw [if_neg (by simp)]
      exact wp_put hn hnew hfail hsucc

theorem TwoLevels.wp_afterSplit (h : TwoLevels ix done σ r) (hm : ix.metric = true)
    (hID : (c, t) ∈ r.entries) (hroom : ix.full r = false) (fuel : Nat) (int : Interval) :
    Prog.wp (serve ix) (After ix done docid sig)
      (afterChild ix fuel ix.rootID r c sig (.NODESPLIT, [(c, int)])) σ := by
  have hsplits : Prog.wp (serve ix) (fun stat σ' => stat ≠ .SUCC ∧ ∃ r', TwoLevels ix done σ' r')
      (splitFullNodes ix fuel ix.rootID [(c, int)]) σ := by
    rw [splitFullNodes, Prog.wp_bind]
    refine wp_performSplit h hm hID hroom (fun stat σ' r' h' => ?_) fuel int
    split
    · exact ⟨by simp, r', h'⟩
    · exact ⟨by simp, r', h'⟩
  rw [afterChild, if_neg (by simp [hroom]), if_neg (by simp [hroom]), Prog.wp_bind]
  refine Prog.wp_mono (fun stat σ' hσ' => ?_) hsplits
  obtain ⟨hstat, r', h'⟩ := hσ'
  exact After.failed (.two h') hstat

theorem TwoLevels.wp_afterPut {n : Node} (h : TwoLevels ix done σ r) (hc : c ∈ r.keys)
    (hn : σ c = some n) (hroom : ix.full n = false) (hnew : docid ∉ n.keys) (hs : Normalized sig)
    (hc' : σ' c = some (n.put docid sig)) (hother : ∀ x, x ≠ c → σ' x = σ x) (fuel : Nat) :
    Prog.wp (serve ix) (After ix done docid sig)
      (afterChild ix fuel ix.rootID r c sig (.SUCC, [])) σ' := by
  have hcroot := (h.child_of_key hc).1
  have hr : σ' ix.rootID = some r := (hother _ hcroot.symm).trans h.root
  have hserve : serve ix (σ' ix.rootID) (.update .UPDATEIFPRESENT c sig) = (some
      { r with entries := r.entries.map (updateEntry .UPDATEIFPRESENT c sig) }, .DHASH_OK) := by
    rw [hr]
    exact serve_present (h.noHash c hc) hc ..
  change Prog.wp (serve ix) (After ix done docid sig) (if (store_cb (serve ix (σ' ix.rootID)
    (.update .UPDATEIFPRESENT c sig)).2).failed then Prog.ret (.FAIL, []) else Prog.ret (.SUCC, []))
    (ix.deliver σ' ix.rootID (.update .UPDATEIFPRESENT c sig))
  rw [hserve, if_neg (by simp [store_cb, DHTStatus.failed])]
  refine .two (h.put hc hn hroom hnew hs ?_ (deliver_some (congrArg Prod.fst hserve)) ?_)
  · rw [deliver_of_ne hcroot, hc']
  · intro x hxc hxr
    rw [deliver_of_ne hxr, hother x hxc]

theorem TwoLevels.wp_insertDocument (h : TwoLevels ix done σ r) (hm : ix.metric = true)
    (hnew : docid ∉ done.map Prod.fst) (hs : Normalized sig) (hroom : HasRoom ix σ sig)
    (fuel : Nat) :
    Prog.wp (serve ix) (After ix done docid sig) (insertDocument ix sig docid fuel ix.rootID) σ := by
  cases fuel with
  | zero => trivial
  | succ fuel =>
    rw [insertDocument, wp_retrieveDHT, h.root]
    dsimp only
    rw [if_neg (by simp [h.isLeaf])]
    split
    · exact After.failed (.two h) (by simp)
    · next hc =>
      have hkey : pickChild NULL r.entries sig ix.metric ∈ r.keys := pickChild_mem hc
      obtain ⟨-, t, n, hID, hn, hleaf⟩ := h.child_of_key hkey
      have hnew' := hleaf.holds.not_mem hnew
      rw [Prog.wp_bind]
      refine wp_insertLeaf hn hleaf.nodeType hnew' (fun hfull => ?_) ?_ (fun σ' hfree hc' hother => ?_)
        fuel
      · exact h.wp_afterSplit hm hID
          (hroom _ _ _ _ (.last h.root h.isLeaf hn hleaf.isLeaf) h.root hn hfull) fuel n.int
      · exact After.failed (.two h) (by simp)
      · exact h.wp_afterPut hkey hn hfree hnew' hs hc' hother fuel

theorem wp_insertDocument (h : Shaped ix done σ) (hm : ix.metric = true) (ha : ix.Apart)
    (hnew : docid ∉ done.map Prod.fst) (hs : Normalized sig) (hroom : HasRoom ix σ sig)
    (fuel : Nat) :
    Prog.wp (serve ix) (After ix done docid sig) (insertDocument ix sig docid fuel ix.rootID) σ := by
  cases h with
  | one h => exact h.wp_insertDocument hm ha hnew hs fuel
  | two h => exact h.wp_insertDocument hm hnew hs hroom fuel

end Insert

section Runs

variable {ix : Index} {ok : Store → Sig → Prop} {calls : List Call} {σ : Store}

theorem inserted_append (calls : List Call) (call : Call) : inserted (calls ++ [call]) =
    if call.stat = .SUCC then inserted calls ++ [(call.docid, call.sig)] else inserted calls := by
  rw [inserted, List.filter_append, List.map_append]
  split
  · next h => simp [inserted, h]
  · next h => simp [inserted, h]

theorem inserted_docids : (inserted calls).map Prod.fst ⊆ calls.map Call.docid := by
  rw [inserted, List.map_map]
  exact List.map_subset _ (List.filter_subset_self ..)

theorem Calls.fresh (h : Calls ix ok calls σ) (hf : Follows calls docid sig) :
    docid ∉ (inserted calls).map Prod.fst := by
  induction h generalizing docid sig with
  | create => simp [inserted]
  | insert _ hlast _ _ _ _ ih =>
    rw [Follows, List.getLast?_concat] at hf
    dsimp only at hf
    split at hf
    · next hstat =>
      rw [hf.1, inserted_append, if_neg (by simp [hstat])]
      exact ih hlast
    · exact fun hmem => hf (inserted_docids hmem)

theorem wp_createEmptyIndexO (ix : Index) :
    Prog.wp (serve ix) (fun _ σ => Shaped ix [] σ) (createEmptyIndexO ix) (fun _ => none) := by
  intro random
  change Shaped ix [] (ix.deliver _ _ _)
  refine .one ⟨deliver_some rfl, fun hx => deliver_of_ne hx _, rfl, rfl, ?_, by simp⟩
  exact ⟨List.nodup_nil, Nat.zero_le _, by simp, by simp⟩

theorem Calls.shaped (hm : ix.metric = true) (ha : ix.Apart)
    (h : Calls ix (HasRoom ix) calls σ) : Shaped ix (inserted calls) σ := by
  induction h with
  | create hrun =>
    have hstart := Prog.wp_run (wp_createEmptyIndexO ix) hrun
    exact hstart
  | insert h hf hs _ hroom hrun ih =>
    have hafter := Prog.wp_run (wp_insertDocument ih hm ha (h.fresh hf) hs hroom _) hrun
    rw [inserted_append]
    exact hafter

end Runs

section Replay

variable {ix : Index} {ok : Store → Sig → Prop} {check : Store → Sig → Bool}

instance (calls : List Call) (docid : Key) (sig : Sig) : Decidable (Follows calls docid sig) :=
  match h : calls.getLast? with
  | none => .isTrue (by rw [Follows, h]; trivial)
  | some call => decidable_of_iff (if call.stat = .REINSERT then docid = call.docid ∧ sig = call.sig
    else docid ∉ calls.map Call.docid) (by rw [Follows, h])

def replayCall (ix : Index) (check : Store → Sig → Bool) (run : List Call × Store)
    (doc : Key × Sig) : Option (List Call × Store) :=
  if Follows run.1 doc.1 doc.2 ∧ Normalized doc.2 ∧ 0 < fullDegree doc.2 ∧ check run.2 doc.2 then
    (Prog.exec (serve ix) ⟨0, by decide⟩ (insertDocument ix doc.2 doc.1 6 ix.rootID) run.2).map
      fun r => (run.1 ++ [⟨doc.1, doc.2, r.1.1⟩], r.2)
  else none

/-- The calls of a client that inserts the documents in this order. -/
def replay (ix : Index) (check : Store → Sig → Bool) (docs : List (Key × Sig)) :
    Option (List Call × Store) := do
  let r ← Prog.exec (serve ix) ⟨0, by decide⟩ (createEmptyIndexO ix) (fun _ => none)
  docs.foldlM (replayCall ix check) ([], r.2)

theorem calls_foldlM (hcheck : ∀ σ sig, check σ sig = true → ok σ sig)
    (docs : List (Key × Sig)) (h : Calls ix ok calls σ)
    (hr : docs.foldlM (replayCall ix check) (calls, σ) = some (calls', σ')) :
    Calls ix ok calls' σ' := by
  induction docs generalizing calls σ with
  | nil =>
    obtain ⟨rfl, rfl⟩ := Prod.mk.inj (Option.some.inj hr)
    exact h
  | cons doc docs ih =>
    rw [List.foldlM_cons] at hr
    obtain ⟨⟨calls₁, σ₁⟩, hcall, hr⟩ := Option.bind_eq_some_iff.1 hr
    rw [replayCall] at hcall
    split at hcall
    · next hok =>
      obtain ⟨⟨⟨stat, fullNodes⟩, σ₂⟩, hexec, heq⟩ := Option.map_eq_some_iff.1 hcall
      obtain ⟨rfl, rfl⟩ := Prod.mk.inj heq
      exact ih (.insert h hok.1 hok.2.1 hok.2.2.1 (hcheck _ _ hok.2.2.2) (Prog.run_exec hexec)) hr
    · cases hcall

theorem calls_replay (hcheck : ∀ σ sig, check σ sig = true → ok σ sig)
    (hr : replay ix check docs = some (calls, σ)) : Calls ix ok calls σ := by
  rw [replay] at hr
  obtain ⟨⟨stat, σ₀⟩, hexec, hr⟩ := Option.bind_eq_some_iff.1 hr
  exact calls_foldlM hcheck docs (.create (Prog.run_exec hexec)) hr

/-- The room for a document in an index of at most two levels. -/
def hasRoom (ix : Index) (σ : Store) (sig : Sig) : Bool :=
  match σ ix.rootID with
  | none => true
  | some p => p.isLeaf || match σ (pickChild NULL p.entries sig ix.metric) with
    | none => true
    | some l => l.isLeaf && (!ix.full l || !ix.full p)

theorem Descends.inner (h : Descends ix σ sig x P L) : ∃ n, σ x = some n ∧ n.isLeaf = false := by
  cases h with
  | last hx hleaf => exact ⟨_, hx, hleaf⟩
  | next hx hleaf => exact ⟨_, hx, hleaf⟩

theorem HasRoom.of_hasRoom (h : hasRoom ix σ sig = true) : HasRoom ix σ sig := by
  intro P L p l hd hP hL hfull
  cases hd with
  | last hx hleaf hm hmleaf =>
    obtain rfl := Option.some.inj (hP.symm.trans hx)
    have hroom : l.isLeaf = true ∧ ix.full p = false := by
      simpa [hasRoom, hx, hleaf, hL, hfull] using h
    exact hroom.2
  | next hx hleaf hd =>
    obtain ⟨m, hm, hml⟩ := hd.inner
    simp [hasRoom, hx, hleaf, hm, hml] at h

theorem smallIndex_apart : smallIndex.Apart := ⟨by decide, by decide⟩

/-- Insertions that split a leaf only below a node with room keep the tree well-formed, and the
documents that they have inserted are found. -/
theorem calls_wellFormed (hm : ix.metric = true) (ha : ix.Apart)
    (h : Calls ix (HasRoom ix) calls σ) : WellFormed ix σ ∧
      ∀ d s, (d, s) ∈ inserted calls → ∀ q, Normalized q → Divides q s → Found ix σ q d := by
  have hshaped := h.shaped hm ha
  exact ⟨hshaped.wellFormed, fun d s he q hq hd => hshaped.found he hq hd⟩

def smallDocs : List (Key × Sig) :=
  [([49, 35], [6]), ([50, 35], [7]), ([51, 35], [2]), ([51, 35], [2])]

theorem calls_wellFormed_three : ∃ calls σ, Calls smallIndex (HasRoom smallIndex) calls σ ∧
    inserted calls = [([49, 35], [6]), ([50, 35], [7]), ([51, 35], [2])] ∧
    WellFormed smallIndex σ ∧ Found smallIndex σ [2] [51, 35] := by
  have hrun : (replay smallIndex (hasRoom smallIndex) smallDocs).map (fun run => inserted run.1) =
      some [([49, 35], [6]), ([50, 35], [7]), ([51, 35], [2])] := by decide +kernel
  obtain ⟨⟨calls, σ⟩, hreplay, hins⟩ := Option.map_eq_some_iff.1 hrun
  have hcalls := calls_replay (fun _ _ => HasRoom.of_hasRoom) hreplay
  obtain ⟨hw, hfound⟩ := calls_wellFormed rfl smallIndex_apart hcalls
  refine ⟨calls, σ, hcalls, hins, hw, hfound _ [2] ?_ _ (by decide) (refl_of Divides _)⟩
  dsimp only at hins
  simp [hins]

def threeIndex : Index := ⟨3, by decide, true, [99], unaryID, unaryID_noHash⟩

def threeDocs : List (Key × Sig) :=
  [([49, 35], [2]), ([50, 35], [3]), ([51, 35], [7]), ([52, 35], [2]), ([52, 35], [2]),
    ([53, 35], [2]), ([53, 35], [2]), ([54, 35], [2])]

/-- The levels of the root and of the nodes that its entries point to. -/
def rootLevels (ix : Index) (σ : Store) : Option (BitVec 32 × List (Option (BitVec 32))) :=
  (σ ix.rootID).map fun n => (n.int.level, n.keys.map fun c => (σ c).map (·.int.level))

/-- Where a leaf and the root are full, the sibling of the leaf gets to be a child of the root
after the root has been split. -/
theorem calls_skip_level : ¬ ∀ (ix : Index) (calls : List Call) (σ : Store), ix.metric = true →
    ix.Apart → Calls ix (fun _ _ => True) calls σ → ∀ x n c, σ x = some n → 0 < n.int.level.toInt →
      c ∈ n.keys → ∃ m, σ c = some m ∧ m.int.level.toInt + 1 = n.int.level.toInt := by
  intro hall
  have hrun : (replay threeIndex (fun _ _ => true) threeDocs).map
      (fun run => rootLevels threeIndex run.2) = some (some (2, [some 1, some 1, some 0])) := by
    decide +kernel
  obtain ⟨⟨calls, σ⟩, hreplay, hlevels⟩ := Option.map_eq_some_iff.1 hrun
  have hcalls : Calls threeIndex (fun _ _ => True) calls σ := calls_replay (fun _ _ _ => trivial) hreplay
  obtain ⟨r, hr, heq⟩ := Option.map_eq_some_iff.1 hlevels
  obtain ⟨hl, hkeys⟩ := Prod.mk.inj heq
  have hzero : some 0 ∈ r.keys.map fun c => (σ c).map (·.int.level) := by
    rw [hkeys]
    simp
  obtain ⟨c, hc, hm⟩ := List.mem_map.1 hzero
  obtain ⟨m, hm, hm0⟩ := Option.map_eq_some_iff.1 hm
  obtain ⟨m', hm', hlevel⟩ := hall threeIndex calls σ rfl ⟨by decide, by decide⟩ hcalls _ r c hr
    (by rw [hl]; decide) hc
  obtain rfl := Option.some.inj (hm.symm.trans hm')
  rw [hl, hm0] at hlevel
  exact absurd hlevel (by decide)

end Replay

end XGossip
