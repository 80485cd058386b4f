import XGossip.Index.Query

namespace XGossip
set_option autoImplicit true

open Gf2

/-- The node `y` above the leaves has an entry for `x`. -/
def Refers (σ : Store) (y x : Key) : Prop :=
  ∃ n, σ y = some n ∧ 0 < n.int.level.toInt ∧ x ∈ n.keys

structure WellFormed (ix : Index) (σ : Store) : Prop where
  root : ∃ n, σ ix.rootID = some n ∧ n.nodeType = .ROOT
  level : σ x = some n → 0 ≤ n.int.level.toInt
  nodeType : σ x = some n → x ≠ ix.rootID →
    n.nodeType = if n.int.level = 0 then .LEAF else .NONLEAF
  below_root : σ x = some n → x ≠ ix.rootID → σ ix.rootID = some r →
    n.int.level.toInt < r.int.level.toInt
  /-- An entry of a node above the leaves points one level down. -/
  child : σ x = some n → 0 < n.int.level.toInt → c ∈ n.keys →
    ∃ m, σ c = some m ∧ m.int.level.toInt + 1 = n.int.level.toInt
  /-- Every node but the root is referenced by exactly one entry. -/
  parent : σ x = some n → x ≠ ix.rootID → ∃ y, Refers σ y x
  unique : Refers σ y x → Refers σ y' x → y = y'
  nodup : σ x = some n → n.keys.Nodup
  length_le : σ x = some n → n.entries.length ≤ ix.MAXENTRIES
  normalized : σ.Normalized
  finite : σ.Finite
  /-- The signature of an entry is a multiple of the signatures of the documents below it. -/
  covered : σ.forest.Covered Divides

section WellFormed

variable {ix : Index} {σ : Store}

theorem toInt_pos_iff {l : BitVec 32} (h : 0 ≤ l.toInt) : 0 < l.toInt ↔ l ≠ 0 := by
  rw [lt_iff_le_and_ne, and_iff_right h, ne_comm, ← BitVec.toInt_zero (w := 32), ne_eq,
    BitVec.toInt_inj]
  rfl

theorem WellFormed.not_leaf_iff (h : WellFormed ix σ) (hx : σ x = some n) :
    n.isLeaf = false ↔ 0 < n.int.level.toInt := by
  rw [toInt_pos_iff (h.level hx), Node.isLeaf, decide_eq_false_iff_not]
  by_cases hr : x = ix.rootID
  · obtain ⟨r, hr', ht⟩ := h.root
    obtain rfl : r = n := Option.some.inj ((hr ▸ hr').symm.trans hx)
    simp [ht]
  · rw [h.nodeType hx hr]
    split <;> simp_all

theorem WellFormed.refers_of_entry (h : WellFormed ix σ) (hx : σ x = some n) (hl : n.isLeaf = false)
    (hc : c ∈ n.keys) : Refers σ x c := ⟨n, hx, (h.not_leaf_iff hx).1 hl, hc⟩

theorem WellFormed.root_not_child (h : WellFormed ix σ) : ¬ Refers σ y ix.rootID := by
  rintro ⟨n, hy, hpos, hc⟩
  obtain ⟨m, hm, hlevel⟩ := h.child hy hpos hc
  by_cases hr : y = ix.rootID
  · subst hr
    obtain rfl : m = n := Option.some.inj (hm.symm.trans hy)
    omega
  · have := h.below_root hy hr hm
    omega

theorem Refers.ne (h : WellFormed ix σ) (hr : Refers σ y x) : y ≠ x := by
  rintro rfl
  obtain ⟨n, hy, hpos, hc⟩ := hr
  obtain ⟨m, hm, hlevel⟩ := h.child hy hpos hc
  obtain rfl : m = n := Option.some.inj (hm.symm.trans hy)
  omega

end WellFormed

section RootOnly

variable {ix : Index} {entries : List (Key × Sig)}

def rootLeaf (entries : List (Key × Sig)) : Node := ⟨.ROOT, ⟨0, 1, 1, 1, 0, 1⟩, entries⟩

def rootStore (ix : Index) (entries : List (Key × Sig)) : Store :=
  fun x => if x = ix.rootID then some (rootLeaf entries) else none

theorem rootStore_root (ix : Index) (entries : List (Key × Sig)) :
    rootStore ix entries ix.rootID = some (rootLeaf entries) := if_pos rfl

theorem rootStore_some (h : rootStore ix entries x = some n) :
    x = ix.rootID ∧ n = rootLeaf entries := by
  rw [rootStore] at h
  split at h
  · next hx => exact ⟨hx, (Option.some.inj h).symm⟩
  · simp at h

theorem rootStore_not_refers : ¬ Refers (rootStore ix entries) y x := by
  rintro ⟨n, hy, hpos, -⟩
  obtain ⟨-, rfl⟩ := rootStore_some hy
  exact absurd hpos (by simp [rootLeaf])

theorem rootStore_wellFormed (hnodup : (entries.map Prod.fst).Nodup)
    (hlen : entries.length ≤ ix.MAXENTRIES) (hnorm : ∀ e ∈ entries, Normalized e.2) :
    WellFormed ix (rootStore ix entries) := by
  have hleaf : ∀ {x c s}, (rootStore ix entries).forest.entry x c s →
      (rootStore ix entries).forest.leaf x := by
    intro x c s he
    obtain ⟨n, hn, -⟩ := exists_of_entry he
    rw [forest_leaf hn, (rootStore_some hn).2]
    rfl
  refine ⟨⟨rootLeaf entries, rootStore_root .., rfl⟩, fun h => ?_, fun h hx => ?_,
    fun h hx => ?_, fun h hpos => ?_, fun h hx => ?_, fun h => ?_, fun h => ?_, fun h => ?_,
    fun x n h => ?_, ?_, ?_⟩
  · rw [(rootStore_some h).2]
    simp [rootLeaf]
  · exact absurd (rootStore_some h).1 hx
  · exact absurd (rootStore_some h).1 hx
  · rw [(rootStore_some h).2] at hpos
    exact absurd hpos (by simp [rootLeaf])
  · exact absurd (rootStore_some h).1 hx
  · exact absurd h rootStore_not_refers
  · rw [(rootStore_some h).2]
    exact hnodup
  · rw [(rootStore_some h).2]
    exact hlen
  · rw [(rootStore_some h).2]
    exact hnorm
  · refine ⟨[ix.rootID], fun x hx => ?_⟩
    obtain ⟨n, hn⟩ := Option.ne_none_iff_exists'.1 hx
    rw [(rootStore_some hn).1]
    exact List.mem_cons_self
  · intro x c s d sd hx he
    exact absurd (hleaf he) hx

def unaryID (level ln ld : BitVec 32) : Key :=
  List.replicate level.toNat 97 ++ 98 :: List.replicate ln.toNat 97 ++
    98 :: List.replicate ld.toNat 97

theorem unaryID_noHash (level ln ld : BitVec 32) : containsHash (unaryID level ln ld) = false := by
  simp [containsHash, unaryID]

def smallIndex : Index := ⟨2, by decide, true, [99], unaryID, unaryID_noHash⟩

end RootOnly

section Groups

theorem filterMap_range' (l : List α) :
    (List.range' 1 l.length).filterMap (fun p => l[p - 1]?) = l := by
  induction l with
  | nil => rfl
  | cons a l ih =>
    rw [List.range'_eq_map_range, List.filterMap_map] at ih
    rw [List.length_cons, List.range'_succ, List.range'_eq_map_range]
    simp only [List.filterMap_cons, Nat.sub_self, List.getElem?_cons_zero, List.filterMap_map]
    congr 1
    refine Eq.trans (List.filterMap_congr ?_) ih
    intro i _
    simp [Nat.add_comm 1 i, Nat.add_comm 2 i]

structure SplitJob.Parts (ix : Index) (j : SplitJob) : Prop where
  perm : (j.items1 ++ j.items2).Perm j.node.entries
  normalized : ∀ e ∈ j.node.entries, Normalized e.2
  normalized1 : Normalized j.groups.lcm1
  normalized2 : Normalized j.groups.lcm2
  cover1 : ix.metric = true → ∀ e ∈ j.items1, Divides e.2 j.groups.lcm1
  cover2 : ix.metric = true → ∀ e ∈ j.items2, Divides e.2 j.groups.lcm2

variable {ix : Index} {j : SplitJob}

theorem SplitJob.Parts.items1_normalized (h : j.Parts ix) : ∀ e ∈ j.items1, Normalized e.2 :=
  fun e he => h.normalized e (h.perm.mem_iff.1 (List.mem_append_left _ he))

theorem SplitJob.Parts.items2_normalized (h : j.Parts ix) : ∀ e ∈ j.items2, Normalized e.2 :=
  fun e he => h.normalized e (h.perm.mem_iff.1 (List.mem_append_right _ he))

theorem mem_select (h : e ∈ j.select group) :
    ∃ p ∈ group, (j.node.entries.map Prod.snd).getD (p - 1) [] = e.2 := by
  obtain ⟨p, hp, he⟩ := List.mem_filterMap.1 h
  exact ⟨p, hp, by simp [List.getD_eq_getElem?_getD, he]⟩

theorem splitNode_parts (hlen : j.node.entries.length = ix.MAXENTRIES)
    (hn : ∀ e ∈ j.node.entries, Normalized e.2)
    (h : splitNode ix.MAXENTRIES ix.metric (j.node.entries.map Prod.snd) = some j.groups) :
    j.Parts ix := by
  have hlen' : (j.node.entries.map Prod.snd).length = ix.MAXENTRIES := by simpa using hlen
  have hs : ∀ s ∈ j.node.entries.map Prod.snd, Normalized s := by
    intro s hs
    obtain ⟨e, he, rfl⟩ := List.mem_map.1 hs
    exact hn e he
  rw [← hlen'] at h
  have hp := splitNode_partition hs h
  refine ⟨?_, hn, hp.normalized1, hp.normalized2, fun hm e he => ?_, fun hm e he => ?_⟩
  · have hperm := hp.perm.filterMap fun p => j.node.entries[p - 1]?
    rw [List.filterMap_append, List.length_map, filterMap_range'] at hperm
    exact hperm
  · obtain ⟨p, hpg, hpe⟩ := mem_select he
    exact hpe ▸ hp.cover1 hm p hpg
  · obtain ⟨p, hpg, hpe⟩ := mem_select he
    exact hpe ▸ hp.cover2 hm p hpg

end Groups

end XGossip
