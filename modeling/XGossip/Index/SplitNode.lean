import Mathlib.Data.Int.ConditionallyCompleteOrder
import Mathlib.Data.List.MinMax
import XGossip.Index.Arithmetic

open Polynomial

namespace XGossip
set_option autoImplicit true

open Gf2

section Seeds

/-- The pairs of a list, in the order of the two loops over it. -/
def pairs : List α → List (α × α)
  | [] => []
  | x :: xs => xs.map (x, ·) ++ pairs xs

def seedScore (metric : Bool) (sigList : List Sig) (p : Nat × Nat) : Int :=
  (pSimOpt (sigList.getD p.1 []) (sigList.getD p.2 [])
    (gcdSpecial (sigList.getD p.1 []) (sigList.getD p.2 [])) metric).1

def seedStep (metric : Bool) (sigList : List Sig) (st : Seeds) (p : Nat × Nat) : Seeds :=
  if seedScore metric sigList p < st.minDeg then ⟨some p, seedScore metric sigList p⟩ else st

variable {sigList : List Sig} {metric : Bool}

theorem mem_pairs_of_nodup (hl : l.Nodup) (h : (a, b) ∈ pairs l) : a ∈ l ∧ b ∈ l ∧ a ≠ b := by
  induction l with
  | nil => simp [pairs] at h
  | cons x l ih =>
    obtain ⟨hx, hl⟩ := List.nodup_cons.1 hl
    rcases List.mem_append.1 h with h | h
    · obtain ⟨y, hy, heq⟩ := List.mem_map.1 h
      obtain ⟨rfl, rfl⟩ := Prod.mk.inj heq
      exact ⟨List.mem_cons_self, List.mem_cons_of_mem _ hy, fun he => hx (he ▸ hy)⟩
    · obtain ⟨ha, hb, hne⟩ := ih hl h
      exact ⟨List.mem_cons_of_mem _ ha, List.mem_cons_of_mem _ hb, hne⟩

theorem seedsWith_eq (h : ∀ j ∈ js, 0 ≤ seedScore metric sigList (i, j)) (st : Seeds) :
    seedsWith metric sigList i js st =
      (js.map (i, ·)).foldl (seedStep metric sigList) st := by
  induction js generalizing st with
  | nil => rfl
  | cons j js ih =>
    obtain ⟨hj, hjs⟩ := List.forall_mem_cons.1 h
    rw [List.map_cons, List.foldl_cons, ← ih hjs]
    exact if_neg (Int.not_lt.2 hj)

theorem findSeeds_eq (h : ∀ p ∈ pairs is, 0 ≤ seedScore metric sigList p) (st : Seeds) :
    findSeeds metric sigList is st = (pairs is).foldl (seedStep metric sigList) st := by
  induction is generalizing st with
  | nil => rfl
  | cons i is ih =>
    rw [pairs, List.forall_mem_append, List.forall_mem_map] at h
    rw [findSeeds, pairs, List.foldl_append, ← seedsWith_eq h.1, ih h.2]

theorem foldl_seedStep (minDeg : Int) (ps : List (Nat × Nat)) :
    ps.foldl (seedStep metric sigList) ⟨none, minDeg⟩ =
      ⟨(ps.argmin (seedScore metric sigList)).filter (seedScore metric sigList · < minDeg),
        ((ps.argmin (seedScore metric sigList)).filter
          (seedScore metric sigList · < minDeg)).elim minDeg (seedScore metric sigList)⟩ := by
  induction ps using List.reverseRecOn with
  | nil => rfl
  | append_singleton ps p ih =>
    rw [List.foldl_append, ih, List.foldl_cons, List.foldl_nil, List.argmin_concat, seedStep]
    cases ps.argmin (seedScore metric sigList) with
    | none => by_cases hp : seedScore metric sigList p < minDeg <;> simp [Option.filter_some, hp]
    | some q =>
      by_cases hq : seedScore metric sigList q < minDeg
      · by_cases hp : seedScore metric sigList p < seedScore metric sigList q
        · simp [Option.filter_some, hp, hq, hp.trans hq]
        · simp [Option.filter_some, hp, hq]
      · by_cases hp : seedScore metric sigList p < seedScore metric sigList q
        · by_cases hpm : seedScore metric sigList p < minDeg <;> simp [Option.filter_some, hp, hq, hpm]
        · have hpm : ¬ seedScore metric sigList p < minDeg := by omega
          simp [Option.filter_some, hp, hq, hpm]

theorem eq_of_dvd_of_fullDegree_le (hs : Normalized s) (ht : Normalized t) (h : poly s ∣ poly t)
    (hle : fullDegree t ≤ fullDegree s) : s = t := by
  apply hs.eq_of_poly ht
  have hassoc := associated_of_dvd_of_degree_eq h ?_
  · exact eq_of_dvd_of_dvd h hassoc.symm.dvd
  · exact le_antisymm (degree_le_of_dvd h ht.poly_ne_zero) ((fullDegree_le_iff ht hs).1 hle)

theorem pSimOpt_nonneg (hs : Normalized s) (ht : Normalized t) (hne : s ≠ t) :
    0 ≤ (pSimOpt s t (gcdSpecial s t) metric).1 := by
  cases metric with
  | false => exact fullDegree_nonneg (gcdSpecial_spec hs ht).1
  | true => exact (pSimOpt_metric hs ht fun h => hne (h.1.trans h.2.symm)).2.1

theorem fullDegree_gcdSpecial_lt (hs : Normalized s) (ht : Normalized t) (hne : s ≠ t)
    (hds : fullDegree s ≤ d) (hdt : fullDegree t ≤ d) : fullDegree (gcdSpecial s t) < d := by
  obtain ⟨hg, hgs, hgt, -⟩ := gcdSpecial_spec hs ht
  have hls := fullDegree_le_of_dvd hg hs hgs
  have hlt := fullDegree_le_of_dvd hg ht hgt
  rcases Int.lt_or_eq_of_le (hls.trans hds) with h | h
  · exact h
  · have hgs' := eq_of_dvd_of_fullDegree_le hg hs hgs (by omega)
    have hgt' := eq_of_dvd_of_fullDegree_le hg ht hgt (by omega)
    exact (hne (hgs'.symm.trans hgt')).elim

theorem pSimOpt_lt (hs : Normalized s) (ht : Normalized t) (hne : s ≠ t)
    (hsf : FitsInt s) (htf : FitsInt t) : (pSimOpt s t (gcdSpecial s t) metric).1 < INT_MAX := by
  cases metric with
  | false => exact fullDegree_gcdSpecial_lt hs ht hne hsf htf
  | true =>
    have hle := (pSimOpt_metric hs ht fun h => hne (h.1.trans h.2.symm)).2.2
    omega

/-- The entries that seeds are looked for among, those of the highest degrees. -/
def topSigs (sigList : List Sig) : List Nat := (sortedSigList sigList).reverse.take MAXSIGS

theorem mem_pairs_topSigs (h : (a, b) ∈ pairs (topSigs sigList)) :
    a ∈ uniques sigList ∧ b ∈ uniques sigList ∧ a ≠ b := by
  have hperm := sortedSigList_perm sigList
  have hsub : ∀ {i}, i ∈ topSigs sigList → i ∈ uniques sigList :=
    fun hi => hperm.mem_iff.1 (List.mem_reverse.1 (List.mem_of_mem_take hi))
  have hnodup : (topSigs sigList).Nodup :=
    (List.nodup_reverse.2 (hperm.nodup_iff.2 nodup_uniques)).take
  obtain ⟨ha, hb, hne⟩ := mem_pairs_of_nodup hnodup h
  exact ⟨hsub ha, hsub hb, hne⟩

theorem exists_pair_topSigs (h : uniques sigList = i :: j :: is) : pairs (topSigs sigList) ≠ [] := by
  have hlen : 2 ≤ (topSigs sigList).length := by
    have hperm := (sortedSigList_perm sigList).length_eq
    rw [h] at hperm
    simp only [topSigs, List.length_take, List.length_reverse, hperm, List.length_cons, MAXSIGS]
    omega
  rcases ht : topSigs sigList with - | ⟨a, - | ⟨b, l⟩⟩
  · simp [ht] at hlen
  · simp [ht] at hlen
  · simp [pairs]

theorem getD_ne (ha : a ∈ uniques sigList) (hb : b ∈ uniques sigList) (hne : a ≠ b) :
    sigList.getD a [] ≠ sigList.getD b [] := fun h => hne (eq_of_mem_uniques ha hb h)

theorem findSeeds_topSigs (hs : ∀ s ∈ sigList, Normalized s) (metric : Bool) :
    (findSeeds metric sigList (topSigs sigList) ⟨none, INT_MAX⟩).seeds =
      ((pairs (topSigs sigList)).argmin (seedScore metric sigList)).filter
        (seedScore metric sigList · < INT_MAX) := by
  rw [findSeeds_eq, foldl_seedStep]
  rintro ⟨a, b⟩ hp
  obtain ⟨ha, hb, hne⟩ := mem_pairs_topSigs hp
  exact pSimOpt_nonneg (getD_normalized hs ha) (getD_normalized hs hb) (getD_ne ha hb hne)

theorem findSeeds_isSome (hs : ∀ s ∈ sigList, Normalized s) (hfit : ∀ s ∈ sigList, FitsInt s)
    (hu : uniques sigList = i :: j :: is) :
    ∃ p, (findSeeds metric sigList (topSigs sigList) ⟨none, INT_MAX⟩).seeds = some p := by
  have hget : ∀ {i}, i ∈ uniques sigList → sigList.getD i [] ∈ sigList :=
    fun hi => getD_mem (mem_uniques.1 hi).1
  rcases hmin : (pairs (topSigs sigList)).argmin (seedScore metric sigList) with - | ⟨a, b⟩
  · exact (exists_pair_topSigs hu (List.argmin_eq_none.1 hmin)).elim
  · obtain ⟨ha, hb, hne⟩ := mem_pairs_topSigs (List.argmin_mem hmin)
    have hlt : seedScore metric sigList (a, b) < INT_MAX :=
      pSimOpt_lt (getD_normalized hs ha) (getD_normalized hs hb) (getD_ne ha hb hne)
        (hfit _ (hget ha)) (hfit _ (hget hb))
    refine ⟨(a, b), ?_⟩
    rw [findSeeds_topSigs hs, hmin, Option.filter_some, if_pos (decide_eq_true hlt)]

end Seeds

section Groups

variable {sigList : List Sig} {metric : Bool}

theorem splitNode_of_seeds (hs : ∀ s ∈ sigList, Normalized s) (hu : uniques sigList = i :: j :: is)
    (h : (findSeeds metric sigList (topSigs sigList) ⟨none, INT_MAX⟩).seeds = some (a, b)) :
    splitNode sigList.length metric sigList = some (splitWith metric sigList a b) := by
  obtain ⟨ha, hb, hne⟩ := findSeeds_uniques h
  have hlen := (splitWith_partition hs ha hb hne metric).perm.length_eq
  rw [List.length_append, List.length_range'] at hlen
  rw [splitNode_of_distinct hu]
  change ((findSeeds metric sigList (topSigs sigList) ⟨none, INT_MAX⟩).seeds.bind _) = _
  rw [h, Option.bind_some, if_pos hlen]

theorem groupStep_subset (g : Groups) (i : Nat) :
    g.group1 ⊆ (groupStep metric sigList g i).group1 ∧
      g.group2 ⊆ (groupStep metric sigList g i).group2 := by
  simp only [groupStep]
  split
  · exact ⟨List.subset_append_left _ _, .refl _⟩
  · exact ⟨.refl _, List.subset_append_left _ _⟩

theorem foldl_groupStep_subset (metric : Bool) (sigList : List Sig) (g : Groups) (is : List Nat) :
    g.group1 ⊆ (is.foldl (groupStep metric sigList) g).group1 ∧
      g.group2 ⊆ (is.foldl (groupStep metric sigList) g).group2 := by
  induction is generalizing g with
  | nil => exact ⟨.refl _, .refl _⟩
  | cons i is ih =>
    obtain ⟨h₁, h₂⟩ := groupStep_subset g i
    obtain ⟨h₁', h₂'⟩ := ih (groupStep metric sigList g i)
    exact ⟨List.Subset.trans h₁ h₁', List.Subset.trans h₂ h₂'⟩

theorem seeds_mem_splitWith (metric : Bool) (sigList : List Sig) (a b : Nat) :
    a + 1 ∈ (splitWith metric sigList a b).group1 ∧
      b + 1 ∈ (splitWith metric sigList a b).group2 := by
  obtain ⟨h₁, h₂⟩ := foldl_groupStep_subset metric sigList
    ⟨[a + 1], [b + 1], sigList.getD a [], sigList.getD b []⟩
    ((sortedSigList sigList).filter fun i => i ≠ a ∧ i ≠ b)
  exact ⟨List.mem_append_left _ (h₁ List.mem_cons_self),
    List.mem_append_left _ (h₂ List.mem_cons_self)⟩

theorem mem_addDuplicates_of_same (h : ∀ p ∈ group, ∃ i ∈ uniques sigList, i + 1 = p)
    (hp : p ∈ addDuplicates sigList group) (hq : q ∈ List.range' 1 sigList.length)
    (he : sigList.getD (p - 1) [] = sigList.getD (q - 1) []) : q ∈ addDuplicates sigList group := by
  obtain ⟨p', hp', hsame⟩ := mem_addDuplicates hp
  rw [(addDuplicates_perm h).mem_iff, List.mem_flatMap]
  rw [List.mem_range'_1] at hq
  refine ⟨p', hp', mem_positions.2 ⟨q - 1, by omega, ?_, by omega⟩⟩
  rw [← hsame, he]

theorem splitWith_same (hs : ∀ s ∈ sigList, Normalized s) (ha : a ∈ uniques sigList)
    (hb : b ∈ uniques sigList) (hne : a ≠ b) (hp : p ∈ List.range' 1 sigList.length)
    (hq : q ∈ List.range' 1 sigList.length)
    (he : sigList.getD (p - 1) [] = sigList.getD (q - 1) []) :
    p ∈ (splitWith metric sigList a b).group1 ↔ q ∈ (splitWith metric sigList a b).group1 := by
  have hjoin := joinGroups_partition hs ha hb hne metric
  have hmem : ∀ p ∈ (joinGroups metric sigList a b).group1, ∃ i ∈ uniques sigList, i + 1 = p :=
    fun p hp => List.mem_map.1 (hjoin.perm.mem_iff.1 (List.mem_append_left _ hp))
  constructor
  · intro h
    exact mem_addDuplicates_of_same hmem h hq he
  · intro h
    exact mem_addDuplicates_of_same hmem h hp he.symm

end Groups

section Covers

/-- The multiples are divisible by the signatures of their groups. -/
@[mk_iff]
structure Groups.Covers (sigList : List Sig) (g : Groups) : Prop where
  cover1 : ∀ p ∈ g.group1, poly (sigList.getD (p - 1) []) ∣ poly g.lcm1
  cover2 : ∀ p ∈ g.group2, poly (sigList.getD (p - 1) []) ∣ poly g.lcm2

variable {sigList : List Sig}

theorem dvd_iff_fullDegree_gcdSpecial (ht : Normalized t) (hs : Normalized s) :
    poly s ∣ poly t ↔ fullDegree s ≤ fullDegree (gcdSpecial t s) := by
  obtain ⟨hg, hgt, hgs, -⟩ := gcdSpecial_spec ht hs
  constructor
  · intro h
    rw [(gcdSpecial_of_divides hs ht h).2]
  · intro h
    rwa [eq_of_dvd_of_fullDegree_le hg hs hgs h] at hgt

theorem forall_mem_concat_iff (group : List Nat) (i : Nat) (t : Sig) :
    (∀ p ∈ group ++ [i + 1], poly (sigList.getD (p - 1) []) ∣ poly t) ↔
      (∀ p ∈ group, poly (sigList.getD (p - 1) []) ∣ poly t) ∧ poly (sigList.getD i []) ∣ poly t := by
  rw [List.forall_mem_append, List.forall_mem_singleton, Nat.add_sub_cancel]

/-- Without the metric the seeds stay the multiples, so one of them has to be divisible. -/
theorem groupStep_covers_iff {g : Groups} (h₁ : Normalized g.lcm1) (h₂ : Normalized g.lcm2)
    (hs : Normalized (sigList.getD i [])) : (groupStep false sigList g i).Covers sigList ↔
      g.Covers sigList ∧
        (poly (sigList.getD i []) ∣ poly g.lcm1 ∨ poly (sigList.getD i []) ∣ poly g.lcm2) := by
  obtain ⟨hg₁, -, hgs₁, -⟩ := gcdSpecial_spec h₁ hs
  obtain ⟨hg₂, -, hgs₂, -⟩ := gcdSpecial_spec h₂ hs
  have hd₁ := dvd_iff_fullDegree_gcdSpecial h₁ hs
  have hd₂ := dvd_iff_fullDegree_gcdSpecial h₂ hs
  have hle₁ := fullDegree_le_of_dvd hg₁ hs hgs₁
  have hle₂ := fullDegree_le_of_dvd hg₂ hs hgs₂
  simp only [groupStep, pSimOpt, Bool.false_eq_true, if_false]
  split
  · next hlt =>
    have himp : poly (sigList.getD i []) ∣ poly g.lcm2 → poly (sigList.getD i []) ∣ poly g.lcm1 := by
      rw [hd₁, hd₂]
      intro h
      omega
    rw [or_iff_left_of_imp himp, Groups.covers_iff, Groups.covers_iff, forall_mem_concat_iff]
    exact and_right_comm
  · next hlt =>
    have himp : poly (sigList.getD i []) ∣ poly g.lcm1 → poly (sigList.getD i []) ∣ poly g.lcm2 := by
      rw [hd₁, hd₂]
      intro h
      omega
    rw [or_iff_right_of_imp himp, Groups.covers_iff, Groups.covers_iff, forall_mem_concat_iff]
    exact and_assoc.symm

theorem groupStep_lcm (sigList : List Sig) (g : Groups) (i : Nat) :
    (groupStep false sigList g i).lcm1 = g.lcm1 ∧ (groupStep false sigList g i).lcm2 = g.lcm2 := by
  simp only [groupStep, pSimOpt, Bool.false_eq_true, if_false]
  split
  · exact ⟨rfl, rfl⟩
  · exact ⟨rfl, rfl⟩

theorem foldl_groupStep_covers_iff {g : Groups} {is : List Nat} (h₁ : Normalized g.lcm1)
    (h₂ : Normalized g.lcm2)
    (hs : ∀ i ∈ is, Normalized (sigList.getD i [])) :
    (is.foldl (groupStep false sigList) g).Covers sigList ↔ g.Covers sigList ∧
      ∀ i ∈ is, poly (sigList.getD i []) ∣ poly g.lcm1 ∨ poly (sigList.getD i []) ∣ poly g.lcm2 := by
  induction is generalizing g with
  | nil => simp
  | cons i is ih =>
    obtain ⟨hi, his⟩ := List.forall_mem_cons.1 hs
    obtain ⟨hl₁, hl₂⟩ := groupStep_lcm sigList g i
    rw [List.foldl_cons, ih (hl₁ ▸ h₁) (hl₂ ▸ h₂) his, groupStep_covers_iff h₁ h₂ hi, hl₁, hl₂,
      List.forall_mem_cons, and_assoc]

theorem addDuplicates_covers_iff (sigList : List Sig) (g : Groups) :
    Groups.Covers sigList { g with
      group1 := addDuplicates sigList g.group1, group2 := addDuplicates sigList g.group2 } ↔
        g.Covers sigList := by
  constructor
  · rintro ⟨h₁, h₂⟩
    exact ⟨fun p hp => h₁ p (List.mem_append_left _ hp),
      fun p hp => h₂ p (List.mem_append_left _ hp)⟩
  · rintro ⟨h₁, h₂⟩
    refine ⟨fun p hp => ?_, fun p hp => ?_⟩
    · obtain ⟨p', hp', he⟩ := mem_addDuplicates hp
      exact he ▸ h₁ p' hp'
    · obtain ⟨p', hp', he⟩ := mem_addDuplicates hp
      exact he ▸ h₂ p' hp'

theorem splitWith_covers_iff (hs : ∀ s ∈ sigList, Normalized s) (ha : a ∈ uniques sigList)
    (hb : b ∈ uniques sigList) : (splitWith false sigList a b).Covers sigList ↔
      ∀ s ∈ sigList, poly s ∣ poly (sigList.getD a []) ∨ poly s ∣ poly (sigList.getD b []) := by
  have hmem : ∀ {i}, i ∈ sortedSigList sigList → i ∈ uniques sigList :=
    fun hi => (sortedSigList_perm sigList).mem_iff.1 hi
  have hrest : ∀ i ∈ (sortedSigList sigList).filter fun i => i ≠ a ∧ i ≠ b,
      Normalized (sigList.getD i []) :=
    fun i hi => getD_normalized hs (hmem (List.mem_of_mem_filter hi))
  have hseeds : Groups.Covers sigList
      ⟨[a + 1], [b + 1], sigList.getD a [], sigList.getD b []⟩ := ⟨by simp, by simp⟩
  rw [splitWith, addDuplicates_covers_iff, joinGroups,
    foldl_groupStep_covers_iff (getD_normalized hs ha) (getD_normalized hs hb) hrest,
    and_iff_right hseeds]
  constructor
  · intro h s hs
    obtain ⟨k, hk, rfl⟩ := List.getElem_of_mem hs
    obtain ⟨i, hi, he⟩ := exists_unique_first hk
    rw [List.getD_eq_getElem _ _ hk] at he
    rw [← he]
    by_cases hia : i = a
    · exact .inl (hia ▸ dvd_rfl)
    · by_cases hib : i = b
      · exact .inr (hib ▸ dvd_rfl)
      · refine h i (List.mem_filter.2 ⟨(sortedSigList_perm sigList).mem_iff.2 hi, ?_⟩)
        simp [hia, hib]
  · intro h i hi
    exact h _ (getD_mem (mem_uniques.1 (hmem (List.mem_of_mem_filter hi))).1)

end Covers

end XGossip
