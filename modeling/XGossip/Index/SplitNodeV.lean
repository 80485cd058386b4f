import XGossip.Index.Filter

namespace XGossip
set_option autoImplicit true

section SplitNodeV

/-- One pair of the two loops. The source never assigns `max`. -/
def seedStepV (max : Int) (sigList : List Sig) (i j : Nat) (seeds : Option (Nat × Nat)) :
    Option (Option (Nat × Nat)) := do
  let myMBR := updateMBR (← sigList[i]?) (← sigList[j]?)
  let e := ((← myMBR[1]?) - (← myMBR[0]?)).toInt
  return if e > max then some (i, j) else seeds

/-- The inner loop over `n` partners of `i`, from `j` on. -/
def seedsWithV (sigList : List Sig) (i : Nat) :
    Nat → Nat → Option (Nat × Nat) → Option (Option (Nat × Nat))
  | 0, _, seeds => some seeds
  | n + 1, j, seeds => do
    let seeds ← seedStepV (-1) sigList i j seeds
    seedsWithV sigList i n (j + 1) seeds

/-- The outer loop over `n` entries, from `i` on. -/
def findSeedsLoopV (sigList : List Sig) :
    Nat → Nat → Option (Nat × Nat) → Option (Option (Nat × Nat))
  | 0, _, seeds => some seeds
  | n + 1, i, seeds => do
    let seeds ← seedsWithV sigList i (sigList.length - i) i seeds
    findSeedsLoopV sigList n (i + 1) seeds

def findSeedsV (sigList : List Sig) : Option (Option (Nat × Nat)) :=
  findSeedsLoopV sigList (sigList.length - 1) 0 none

def groupStepV (sigList : List Sig) (g : Groups) (i : Nat) : Option Groups := do
  let s ← sigList[i]?
  let deg1 := (← enlargement g.lcm1 s).toInt
  let deg2 := (← enlargement g.lcm2 s).toInt
  let join1 := { g with lcm1 := updateMBR g.lcm1 s, group1 := g.group1 ++ [i + 1] }
  let join2 := { g with lcm2 := updateMBR g.lcm2 s, group2 := g.group2 ++ [i + 1] }
  if deg1 > deg2 then return join1
  else if deg1 < deg2 then return join2
  else if g.group1.length ≤ g.group2.length then return join1
  else return join2

def groupLoopV (sigList : List Sig) : List Nat → Groups → Option Groups
  | [], g => some g
  | i :: is, g => do groupLoopV sigList is (← groupStepV sigList g i)

/-- Split a node of a value index. Without two seeds the source reads in front of its list. -/
def splitNodeV (sigList : List Sig) : Option Groups := do
  let (seed1, seed2) ← (← findSeedsV sigList)
  let g : Groups := ⟨[seed1 + 1], [seed2 + 1], ← sigList[seed1]?, ← sigList[seed2]?⟩
  groupLoopV sigList
    ((List.range sigList.length).filter fun i => i ≠ seed1 ∧ i ≠ seed2) g

end SplitNodeV

section Intervals

def lowOf (s : Sig) : Nat := (s.getD 0 0).toNat

def highOf (s : Sig) : Nat := (s.getD 1 0).toNat

/-- A signature that is an interval, with bounds that are an `int`. -/
@[mk_iff]
structure IsInterval (s : Sig) : Prop where
  length : s.length = 2
  le : lowOf s ≤ highOf s
  lt : highOf s < 2 ^ 31

instance : DecidablePred IsInterval := fun s =>
  decidable_of_iff _ (isInterval_iff s).symm

/-- The interval `s` is a part of the interval `m`. -/
def Within (s m : Sig) : Prop := lowOf m ≤ lowOf s ∧ highOf s ≤ highOf m

instance : DecidableRel Within := fun _ _ => inferInstanceAs (Decidable (_ ∧ _))

def extent (s : Sig) : Nat := highOf s - lowOf s

variable {s t m : Sig}

theorem Within.refl (s : Sig) : Within s s := ⟨Nat.le_refl _, Nat.le_refl _⟩

theorem Within.trans (h : Within s t) (h' : Within t m) : Within s m :=
  ⟨h'.1.trans h.1, h.2.trans h'.2⟩

theorem IsInterval.cases (h : IsInterval s) : ∃ lo hi : POLY, s = [lo, hi] ∧ lo.toNat ≤ hi.toNat ∧
    hi.toNat < 2 ^ 31 := by
  obtain ⟨hlen, hle, hlt⟩ := h
  obtain ⟨lo, hi, rfl⟩ := List.length_eq_two.1 hlen
  exact ⟨lo, hi, rfl, hle, hlt⟩

theorem updateMBR_bounds (hs : IsInterval s) (ht : IsInterval t) :
    lowOf (updateMBR s t) = min (lowOf s) (lowOf t) ∧
      highOf (updateMBR s t) = max (highOf s) (highOf t) ∧ IsInterval (updateMBR s t) := by
  obtain ⟨lo, hi, rfl, hle, hlt⟩ := hs.cases
  obtain ⟨lo', hi', rfl, hle', hlt'⟩ := ht.cases
  have hlow : lowOf (updateMBR [lo, hi] [lo', hi']) = min lo.toNat lo'.toNat := by
    simp only [updateMBR, lowOf, List.getD_cons_zero]
    split
    · next h => rw [BitVec.lt_def] at h; omega
    · next h => rw [BitVec.lt_def] at h; omega
  have hhigh : highOf (updateMBR [lo, hi] [lo', hi']) = max hi.toNat hi'.toNat := by
    simp only [updateMBR, highOf, List.getD_cons_succ, List.getD_cons_zero, gt_iff_lt]
    split
    · next h => rw [BitVec.lt_def] at h; omega
    · next h => rw [BitVec.lt_def] at h; omega
  exact ⟨hlow, hhigh, rfl, by omega, by omega⟩

theorem IsInterval.extent_eq (h : IsInterval s) : ∃ w₀ w₁, s[0]? = some w₀ ∧ s[1]? = some w₁ ∧
    (w₁ - w₀).toInt = (extent s : Int) := by
  obtain ⟨lo, hi, rfl, hle, hlt⟩ := h.cases
  refine ⟨lo, hi, rfl, rfl, ?_⟩
  have hsub : (hi - lo).toNat = hi.toNat - lo.toNat := BitVec.toNat_sub_of_le hle
  rw [BitVec.toInt_eq_toNat_of_lt (by omega), hsub]
  rfl

theorem enlargement_isSome (hs : IsInterval s) (ht : IsInterval t) :
    ∃ e, enlargement s t = some e := by
  obtain ⟨m₀, m₁, hm₀, hm₁, -⟩ := (updateMBR_bounds hs ht).2.2.extent_eq
  obtain ⟨s₀, s₁, hs₀, hs₁, -⟩ := hs.extent_eq
  simp [enlargement, hm₀, hm₁, hs₀, hs₁]

end Intervals

section Seeds

variable {sigList : List Sig}

theorem getElem?_of_lt (h : i < sigList.length) : sigList[i]? = some (sigList.getD i []) := by
  simp [List.getD_eq_getElem?_getD, h]

theorem isInterval_getD (hs : ∀ s ∈ sigList, IsInterval s) (h : i < sigList.length) :
    IsInterval (sigList.getD i []) := hs _ (getD_mem h)

theorem seedStepV_eq (hs : ∀ s ∈ sigList, IsInterval s) (hi : i < sigList.length)
    (hj : j < sigList.length) (seeds : Option (Nat × Nat)) :
    seedStepV (-1) sigList i j seeds = some (some (i, j)) := by
  have hm := (updateMBR_bounds (isInterval_getD hs hi) (isInterval_getD hs hj)).2.2
  obtain ⟨m₀, m₁, hm₀, hm₁, he⟩ := hm.extent_eq
  simp only [seedStepV, getElem?_of_lt hi, getElem?_of_lt hj, Option.bind_eq_bind,
    Option.bind_some, hm₀, hm₁, he]
  rw [if_pos (by omega)]
  rfl

theorem seedsWithV_eq (hs : ∀ s ∈ sigList, IsInterval s) (hi : i < sigList.length)
    (hn : j + n < sigList.length) (seeds : Option (Nat × Nat)) :
    seedsWithV sigList i (n + 1) j seeds = some (some (i, j + n)) := by
  induction n generalizing j seeds with
  | zero =>
    rw [seedsWithV, seedStepV_eq hs hi (by omega)]
    rfl
  | succ n ih =>
    rw [seedsWithV, seedStepV_eq hs hi (by omega)]
    refine (ih (by omega) (some (i, j))).trans ?_
    rw [Nat.add_right_comm, Nat.add_assoc]

theorem findSeedsLoopV_eq (hs : ∀ s ∈ sigList, IsInterval s) (hn : i + n + 1 < sigList.length)
    (seeds : Option (Nat × Nat)) :
    findSeedsLoopV sigList (n + 1) i seeds = some (some (i + n, sigList.length - 1)) := by
  have hrow : ∀ {i} (_ : i + 1 < sigList.length) (seeds : Option (Nat × Nat)),
      seedsWithV sigList i (sigList.length - i) i seeds =
        some (some (i, sigList.length - 1)) := by
    intro i hi seeds
    obtain ⟨n, hn⟩ : ∃ n, sigList.length - i = n + 1 := ⟨sigList.length - i - 1, by omega⟩
    rw [hn, seedsWithV_eq hs (by omega) (by omega), show i + n = sigList.length - 1 by omega]
  induction n generalizing i seeds with
  | zero =>
    rw [findSeedsLoopV, hrow (by omega)]
    rfl
  | succ n ih =>
    rw [findSeedsLoopV, hrow (by omega)]
    refine (ih (by omega) _).trans ?_
    rw [Nat.add_right_comm, Nat.add_assoc]

theorem findSeedsV_eq (hs : ∀ s ∈ sigList, IsInterval s) (hn : 2 ≤ sigList.length) :
    findSeedsV sigList = some (some (sigList.length - 2, sigList.length - 1)) := by
  obtain ⟨n, hlen⟩ : ∃ n, sigList.length - 1 = n + 1 := ⟨sigList.length - 2, by omega⟩
  rw [findSeedsV, hlen, findSeedsLoopV_eq hs (by omega), Nat.zero_add,
    show sigList.length - 2 = n by omega, hlen]

end Seeds

section Groups

variable {sigList : List Sig} {g : Groups}

/-- The groups contain every entry once, and the bounding intervals the ones of their groups. -/
structure Groups.PartitionV (sigList : List Sig) (all : List Nat) (g : Groups) : Prop where
  perm : (g.group1 ++ g.group2).Perm all
  interval1 : IsInterval g.lcm1
  interval2 : IsInterval g.lcm2
  within1 : ∀ p ∈ g.group1, Within (sigList.getD (p - 1) []) g.lcm1
  within2 : ∀ p ∈ g.group2, Within (sigList.getD (p - 1) []) g.lcm2

theorem within_updateMBR (hs : IsInterval s) (ht : IsInterval t) :
    Within s (updateMBR s t) ∧ Within t (updateMBR s t) := by
  obtain ⟨hlow, hhigh, -⟩ := updateMBR_bounds hs ht
  simp only [Within, hlow, hhigh]
  omega

theorem within_concat (ht : IsInterval t) (hs : IsInterval (sigList.getD i []))
    (h : ∀ p ∈ group, Within (sigList.getD (p - 1) []) t) :
    ∀ p ∈ group ++ [i + 1],
      Within (sigList.getD (p - 1) []) (updateMBR t (sigList.getD i [])) := by
  obtain ⟨hold, hnew⟩ := within_updateMBR ht hs
  rw [List.forall_mem_append, List.forall_mem_singleton]
  exact ⟨fun p hp => (h p hp).trans hold, hnew⟩

theorem Groups.PartitionV.join1 (h : g.PartitionV sigList all)
    (hs : IsInterval (sigList.getD i [])) :
    Groups.PartitionV sigList (all ++ [i + 1])
      { g with lcm1 := updateMBR g.lcm1 (sigList.getD i []), group1 := g.group1 ++ [i + 1] } :=
  ⟨(perm_concat h.perm _).1, (updateMBR_bounds h.interval1 hs).2.2, h.interval2,
    within_concat h.interval1 hs h.within1, h.within2⟩

theorem Groups.PartitionV.join2 (h : g.PartitionV sigList all)
    (hs : IsInterval (sigList.getD i [])) :
    Groups.PartitionV sigList (all ++ [i + 1])
      { g with lcm2 := updateMBR g.lcm2 (sigList.getD i []), group2 := g.group2 ++ [i + 1] } :=
  ⟨(perm_concat h.perm _).2, h.interval1, (updateMBR_bounds h.interval2 hs).2.2, h.within1,
    within_concat h.interval2 hs h.within2⟩

theorem groupStepV_partition (h : g.PartitionV sigList all) (hi : i < sigList.length)
    (hs : IsInterval (sigList.getD i [])) : ∃ g', groupStepV sigList g i = some g' ∧
      g'.PartitionV sigList (all ++ [i + 1]) ∧ g.group1 ⊆ g'.group1 ∧ g.group2 ⊆ g'.group2 := by
  obtain ⟨e₁, he₁⟩ := enlargement_isSome h.interval1 hs
  obtain ⟨e₂, he₂⟩ := enlargement_isSome h.interval2 hs
  have hsub (l : List Nat) : l ⊆ l ++ [i + 1] := List.subset_append_left _ _
  simp only [groupStepV, getElem?_of_lt hi, Option.bind_eq_bind, Option.bind_some, he₁, he₂]
  split
  · exact ⟨_, rfl, h.join1 hs, hsub _, List.Subset.refl _⟩
  · split
    · exact ⟨_, rfl, h.join2 hs, List.Subset.refl _, hsub _⟩
    · split
      · exact ⟨_, rfl, h.join1 hs, hsub _, List.Subset.refl _⟩
      · exact ⟨_, rfl, h.join2 hs, List.Subset.refl _, hsub _⟩

theorem groupLoopV_partition {is : List Nat} (hs : ∀ s ∈ sigList, IsInterval s)
    (h : g.PartitionV sigList all) (his : ∀ i ∈ is, i < sigList.length) :
    ∃ g', groupLoopV sigList is g = some g' ∧ g'.PartitionV sigList (all ++ is.map (· + 1)) ∧
      g.group1 ⊆ g'.group1 ∧ g.group2 ⊆ g'.group2 := by
  induction is generalizing g all with
  | nil => exact ⟨g, rfl, by simpa using h, List.Subset.refl _, List.Subset.refl _⟩
  | cons i is ih =>
    obtain ⟨hi, his⟩ := List.forall_mem_cons.1 his
    obtain ⟨g₁, hg₁, h₁, hsub₁, hsub₂⟩ := groupStepV_partition h hi (isInterval_getD hs hi)
    obtain ⟨g', hg', h', hsub₁', hsub₂'⟩ := ih h₁ his
    refine ⟨g', ?_, by simpa using h', List.Subset.trans hsub₁ hsub₁',
      List.Subset.trans hsub₂ hsub₂'⟩
    rw [groupLoopV, hg₁]
    exact hg'

end Groups

section Results

variable {sigList : List Sig}

/-- `splitNodeV` shares out a node between the groups of two entries, whose bounding intervals
contain what is in them. -/
theorem splitNodeV_shares (hn : 2 ≤ sigList.length) (hs : ∀ s ∈ sigList, IsInterval s) :
    ∃ seed1 seed2 g, findSeedsV sigList = some (some (seed1, seed2)) ∧ seed1 ≠ seed2 ∧
      splitNodeV sigList = some g ∧ g.group1 ≠ [] ∧ g.group2 ≠ [] ∧
      g.group1.Disjoint g.group2 ∧
      (g.group1 ++ g.group2).Perm (List.range' 1 sigList.length) ∧
      (∀ p ∈ g.group1, Within (sigList.getD (p - 1) []) g.lcm1) ∧
      ∀ p ∈ g.group2, Within (sigList.getD (p - 1) []) g.lcm2 := by
  have hseeds := findSeedsV_eq hs hn
  have ha : sigList.length - 2 < sigList.length := by omega
  have hb : sigList.length - 1 < sigList.length := by omega
  have hne : sigList.length - 2 ≠ sigList.length - 1 := by omega
  generalize sigList.length - 2 = a at *
  generalize sigList.length - 1 = b at *
  have hseed : Groups.PartitionV sigList [a + 1, b + 1]
      ⟨[a + 1], [b + 1], sigList.getD a [], sigList.getD b []⟩ :=
    ⟨.refl _, isInterval_getD hs ha, isInterval_getD hs hb, by simp [Within.refl],
      by simp [Within.refl]⟩
  have hrest : ∀ i ∈ (List.range sigList.length).filter fun i => i ≠ a ∧ i ≠ b,
      i < sigList.length :=
    fun i hi => List.mem_range.1 (List.mem_of_mem_filter hi)
  obtain ⟨g, hg, hpart, hsub₁, hsub₂⟩ := groupLoopV_partition hs hseed hrest
  have hperm : (g.group1 ++ g.group2).Perm (List.range' 1 sigList.length) := by
    have hall := seeds_perm List.nodup_range (List.mem_range.2 ha) (List.mem_range.2 hb) hne
    have hmap : (List.range sigList.length).map (· + 1) = List.range' 1 sigList.length := by
      simp [List.range'_eq_map_range, Nat.add_comm]
    exact hpart.perm.trans (hmap ▸ hall.map (· + 1))
  refine ⟨a, b, g, hseeds, hne, ?_, List.ne_nil_of_mem (hsub₁ List.mem_cons_self),
    List.ne_nil_of_mem (hsub₂ List.mem_cons_self),
    List.disjoint_of_nodup_append (hperm.nodup_iff.2 List.nodup_range'), hperm, hpart.within1,
    hpart.within2⟩
  simp only [splitNodeV, hseeds, Option.bind_eq_bind, Option.bind_some, getElem?_of_lt ha,
    getElem?_of_lt hb]
  exact hg

theorem splitNodeV_shares_three : ∃ g, splitNodeV [[0, 1], [100, 101], [2, 3]] = some g ∧
    (g.group1 ++ g.group2).Perm [1, 2, 3] := by
  have hs : ∀ s ∈ ([[0, 1], [100, 101], [2, 3]] : List Sig), IsInterval s := by decide
  obtain ⟨-, -, g, -, -, hg, -, -, -, hperm, -⟩ := splitNodeV_shares (by decide) hs
  exact ⟨g, hg, hperm⟩

/-- The extent of the joint bounding interval of two entries. -/
def jointExtent (sigList : List Sig) (i j : Nat) : Nat :=
  extent (updateMBR (sigList.getD i []) (sigList.getD j []))

theorem jointExtent_eq (hs : ∀ s ∈ sigList, IsInterval s) (hi : i < sigList.length)
    (hj : j < sigList.length) : jointExtent sigList i j =
      max (highOf (sigList.getD i [])) (highOf (sigList.getD j [])) -
        min (lowOf (sigList.getD i [])) (lowOf (sigList.getD j [])) := by
  obtain ⟨hlow, hhigh, -⟩ := updateMBR_bounds (isInterval_getD hs hi) (isInterval_getD hs hj)
  rw [jointExtent, extent, hlow, hhigh]

theorem bounds_of_extents {la ha lb hb lk hk : Nat} (hle : lk ≤ hk) (hlea : la ≤ ha)
    (hleb : lb ≤ hb) (h₁ : max hk ha - min lk la ≤ max ha hb - min la lb)
    (h₂ : max hk hb - min lk lb ≤ max ha hb - min la lb) :
    min la lb ≤ lk ∧ hk ≤ max ha hb := by
  omega

/-- The seeds have the maximal extent if the last two entries contain the whole node. -/
theorem findSeedsV_maximal_iff (hn : 2 ≤ sigList.length) (hs : ∀ s ∈ sigList, IsInterval s) :
    (∃ seed1 seed2, findSeedsV sigList = some (some (seed1, seed2)) ∧
      ∀ i j, i < j → j < sigList.length →
        jointExtent sigList i j ≤ jointExtent sigList seed1 seed2) ↔
      ∀ s ∈ sigList, Within s (updateMBR (sigList.getD (sigList.length - 2) [])
        (sigList.getD (sigList.length - 1) [])) := by
  have hseeds := findSeedsV_eq hs hn
  have ha : sigList.length - 2 < sigList.length := by omega
  have hb : sigList.length - 1 < sigList.length := by omega
  have hia := isInterval_getD hs ha
  have hib := isInterval_getD hs hb
  obtain ⟨hlow, hhigh, -⟩ := updateMBR_bounds hia hib
  constructor
  · rintro ⟨seed1, seed2, hfound, hmax⟩ s hmem
    obtain ⟨rfl, rfl⟩ : sigList.length - 2 = seed1 ∧ sigList.length - 1 = seed2 := by
      simpa using hseeds.symm.trans hfound
    obtain ⟨k, hk, rfl⟩ := List.getElem_of_mem hmem
    rw [← List.getD_eq_getElem _ [] hk, Within, hlow, hhigh]
    by_cases hka : k = sigList.length - 2
    · rw [hka]
      exact ⟨min_le_left _ _, le_max_left _ _⟩
    · by_cases hkb : k = sigList.length - 1
      · rw [hkb]
        exact ⟨min_le_right _ _, le_max_right _ _⟩
      · have h₁ := hmax k (sigList.length - 2) (by omega) ha
        have h₂ := hmax k (sigList.length - 1) (by omega) hb
        rw [jointExtent_eq hs ha hb, jointExtent_eq hs hk ha] at h₁
        rw [jointExtent_eq hs ha hb, jointExtent_eq hs hk hb] at h₂
        exact bounds_of_extents (isInterval_getD hs hk).le hia.le hib.le h₁ h₂
  · intro h
    refine ⟨_, _, hseeds, fun i j hij hj => ?_⟩
    have hi : i < sigList.length := by omega
    have h₁ := h _ (getD_mem hi)
    have h₂ := h _ (getD_mem hj)
    rw [Within, hlow, hhigh] at h₁ h₂
    rw [jointExtent_eq hs hi hj, jointExtent_eq hs ha hb]
    exact tsub_le_tsub (max_le h₁.2 h₂.2) (le_min h₁.1 h₂.1)

theorem findSeedsV_maximal_three :
    ∃ seed1 seed2, findSeedsV [[2, 3], [0, 1], [100, 101]] = some (some (seed1, seed2)) ∧
      ∀ i j, i < j → j < 3 → jointExtent [[2, 3], [0, 1], [100, 101]] i j ≤
        jointExtent [[2, 3], [0, 1], [100, 101]] seed1 seed2 := by
  have hs : ∀ s ∈ ([[2, 3], [0, 1], [100, 101]] : List Sig), IsInterval s := by decide
  exact (findSeedsV_maximal_iff (by decide) hs).2 (by decide)

theorem findSeedsV_not_maximal :
    findSeedsV [[0, 1], [100, 101], [2, 3]] = some (some (1, 2)) ∧
      ¬ jointExtent [[0, 1], [100, 101], [2, 3]] 0 1 ≤
        jointExtent [[0, 1], [100, 101], [2, 3]] 1 2 := by
  decide

end Results

end XGossip
