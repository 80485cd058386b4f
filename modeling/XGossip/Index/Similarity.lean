import Mathlib.Data.List.GetD
import Mathlib.Data.List.Perm.Basic
import Mathlib.Data.List.Perm.Lattice
import XGossip.Index.Lcm

namespace XGossip
set_option autoImplicit true

open Gf2

/-- `(int) ((double) (INT_MAX-1) * degGcd / degLcm)`, where 0 / 0 is converted to `INT_MIN`. -/
def simScore (degGcd degLcm : Int) : Int :=
  if degLcm = 0 then -INT_MAX - 1 else ((INT_MAX - 1) * degGcd).tdiv degLcm

/-- Computes the similarity between two signatures: a smaller score is more dissimilar. -/
def pSim (s1 s2 mygcd : Sig) (isMetric : Bool) : Int :=
  if isMetric then simScore (fullDegree mygcd) (fullDegree (lcm (lcm [1] s1) s2))
  else fullDegree mygcd

/-- `pSim` that leaves the least common multiple in `s1`, if it computes one. -/
def pSimOpt (s1 s2 mygcd : Sig) (isMetric : Bool) : Int × Sig :=
  if isMetric then
    let s1 := lcmSpecial s1 s2 mygcd
    (simScore (fullDegree mygcd) (fullDegree s1), s1)
  else (fullDegree mygcd, s1)

section PickChild

structure Best (κ : Type) where
  maxGCDDegree : Int
  bestChild : κ
  bestChildSigDegree : Int

def pickStep (sig : Sig) (ismetric : Bool) (b : Best κ) (e : κ × Sig) : Best κ :=
  let sigDegree := fullDegree e.2
  let deg := pSim e.2 sig (gcdSpecial e.2 sig) ismetric
  if deg > b.maxGCDDegree then ⟨deg, e.1, sigDegree⟩
  else if deg = b.maxGCDDegree ∧ sigDegree < b.bestChildSigDegree then
    { b with bestChild := e.1, bestChildSigDegree := sigDegree }
  else b

/-- Pick the best child, which is `null` if there is none. -/
def pickChild (null : κ) (entries : List (κ × Sig)) (sig : Sig) (ismetric : Bool) : κ :=
  (entries.foldl (pickStep sig ismetric) ⟨-1, null, -1⟩).bestChild

theorem pickStep_bestChild (sig : Sig) (ismetric : Bool) (b : Best κ) (e : κ × Sig) :
    (pickStep sig ismetric b e).bestChild = b.bestChild ∨
      (pickStep sig ismetric b e).bestChild = e.1 := by
  simp only [pickStep]
  split
  · exact .inr rfl
  · split
    · exact .inr rfl
    · exact .inl rfl

theorem foldl_pickStep (sig : Sig) (ismetric : Bool) (entries : List (κ × Sig)) (b : Best κ) :
    (entries.foldl (pickStep sig ismetric) b).bestChild = b.bestChild ∨
      (entries.foldl (pickStep sig ismetric) b).bestChild ∈ entries.map Prod.fst := by
  induction entries generalizing b with
  | nil => exact .inl rfl
  | cons e es ih =>
    rw [List.foldl_cons, List.map_cons, List.mem_cons]
    rcases ih (pickStep sig ismetric b e) with h | h
    · rcases pickStep_bestChild sig ismetric b e with he | he
      · exact .inl (h.trans he)
      · exact .inr (.inl (h.trans he))
    · exact .inr (.inr h)

theorem pickChild_mem {entries : List (κ × Sig)} (h : pickChild null entries sig ismetric ≠ null) :
    pickChild null entries sig ismetric ∈ entries.map Prod.fst :=
  (foldl_pickStep sig ismetric entries _).resolve_left h

end PickChild

section SplitNode

/-- The (1-based) positions of the entries with one signature, as `uniqueSigList` holds them. -/
def positions (sigList : List Sig) (s : Sig) : List Nat :=
  ((List.range sigList.length).filter fun i => sigList.getD i [] = s).map (· + 1)

def uniques (sigList : List Sig) : List Nat :=
  (List.range sigList.length).filter fun i => sigList.getD i [] ∉ sigList.take i

/-- `multimap::insert`, behind the entries with the same degree. -/
def insertByDegree (deg : Int) (i : Nat) : List (Int × Nat) → List (Int × Nat)
  | [] => [(deg, i)]
  | e :: l => if deg < e.1 then (deg, i) :: e :: l else e :: insertByDegree deg i l

/-- The entries without duplicates, sorted by the degree of their signatures. -/
def sortedSigList (sigList : List Sig) : List Nat :=
  ((uniques sigList).foldl (fun l i => insertByDegree (fullDegree (sigList.getD i [])) i l)
    []).map Prod.snd

structure Seeds where
  seeds : Option (Nat × Nat)
  minDeg : Int

/-- The inner loop over the partners of `i`. -/
def seedsWith (metric : Bool) (sigList : List Sig) (i : Nat) : List Nat → Seeds → Seeds
  | [], st => st
  | j :: js, st =>
    let sigI := sigList.getD i []
    let sigJ := sigList.getD j []
    let deg := (pSimOpt sigI sigJ (gcdSpecial sigI sigJ) metric).1
    let st := if deg < st.minDeg then ⟨some (i, j), deg⟩ else st
    if deg < 0 then st else seedsWith metric sigList i js st

def findSeeds (metric : Bool) (sigList : List Sig) : List Nat → Seeds → Seeds
  | [], st => st
  | i :: is, st => findSeeds metric sigList is (seedsWith metric sigList i is st)

def MAXSIGS : Nat := 10

structure Groups where
  group1 : List Nat
  group2 : List Nat
  lcm1 : Sig
  lcm2 : Sig
deriving DecidableEq

/-- One more signature joins the group it is more similar to, or the smaller one. -/
def groupStep (metric : Bool) (sigList : List Sig) (g : Groups) (i : Nat) : Groups :=
  let s := sigList.getD i []
  let (deg1, testLCM1) := pSimOpt g.lcm1 s (gcdSpecial g.lcm1 s) metric
  let (deg2, testLCM2) := pSimOpt g.lcm2 s (gcdSpecial g.lcm2 s) metric
  if deg1 > deg2 ∨ (deg1 = deg2 ∧ g.group1.length ≤ g.group2.length) then
    { g with lcm1 := testLCM1, group1 := g.group1 ++ [i + 1] }
  else { g with lcm2 := testLCM2, group2 := g.group2 ++ [i + 1] }

/-- The entries with the same signatures go with the first ones. -/
def addDuplicates (sigList : List Sig) (group : List Nat) : List Nat :=
  group ++ group.flatMap fun p => (positions sigList (sigList.getD (p - 1) [])).drop 1

/-- Split a node. Without two seeds the source reads in front of its list of signatures. -/
def splitNode (MAXENTRIES : Nat) (metric : Bool) (sigList : List Sig) : Option Groups :=
  match uniques sigList with
  | [] => none
  | [i] =>
    let s := sigList.getD i []
    some ⟨List.range' 1 (MAXENTRIES / 2),
      List.range' (MAXENTRIES / 2 + 1) (MAXENTRIES - MAXENTRIES / 2), s, s⟩
  | _ => do
    let sorted := sortedSigList sigList
    let (seed1, seed2) ←
      (findSeeds metric sigList (sorted.reverse.take MAXSIGS) ⟨none, INT_MAX⟩).seeds
    let g : Groups := ⟨[seed1 + 1], [seed2 + 1], sigList.getD seed1 [], sigList.getD seed2 []⟩
    let g := (sorted.filter fun i => i ≠ seed1 ∧ i ≠ seed2).foldl (groupStep metric sigList) g
    let group1 := addDuplicates sigList g.group1
    let group2 := addDuplicates sigList g.group2
    if group1.length + group2.length = MAXENTRIES then some { g with group1, group2 } else none

end SplitNode

section Partition

variable {sigList : List Sig}

theorem getD_mem (h : i < sigList.length) : sigList.getD i [] ∈ sigList := by
  rw [List.getD_eq_getElem _ _ h]
  exact List.getElem_mem _

theorem mem_positions : p ∈ positions sigList s ↔
    ∃ i, i < sigList.length ∧ sigList.getD i [] = s ∧ i + 1 = p := by
  simp [positions, and_assoc]

theorem mem_uniques : i ∈ uniques sigList ↔
    i < sigList.length ∧ sigList.getD i [] ∉ sigList.take i := by
  simp [uniques]

theorem nodup_uniques : (uniques sigList).Nodup := List.nodup_range.filter _

theorem nodup_positions : (positions sigList s).Nodup :=
  (List.nodup_range.filter _).map (add_left_injective 1)

theorem exists_unique_first (h : i < sigList.length) :
    ∃ j ∈ uniques sigList, sigList.getD j [] = sigList.getD i [] := by
  induction i using Nat.strong_induction_on with
  | h i ih =>
    by_cases hi : sigList.getD i [] ∈ sigList.take i
    · obtain ⟨j, hj, hji⟩ := List.mem_take_iff_getElem.1 hi
      have hjl : j < sigList.length := by omega
      obtain ⟨k, hk, hkj⟩ := ih j (by omega) hjl
      refine ⟨k, hk, hkj.trans ?_⟩
      rw [List.getD_eq_getElem _ _ hjl, hji]
    · exact ⟨i, mem_uniques.2 ⟨h, hi⟩, rfl⟩

theorem eq_of_mem_uniques (hi : i ∈ uniques sigList) (hj : j ∈ uniques sigList)
    (h : sigList.getD i [] = sigList.getD j []) : i = j := by
  have hlt : ∀ {a b}, a ∈ uniques sigList → b ∈ uniques sigList →
      sigList.getD a [] = sigList.getD b [] → ¬ a < b := by
    intro a b ha hb hab hlt
    rw [mem_uniques] at ha hb
    apply hb.2
    rw [← hab, List.mem_take_iff_getElem]
    exact ⟨a, by omega, by rw [List.getD_eq_getElem _ _ ha.1]⟩
  have h₁ := hlt hi hj h
  have h₂ := hlt hj hi h.symm
  omega

theorem positions_eq_cons (h : i ∈ uniques sigList) :
    positions sigList (sigList.getD i []) =
      (i + 1) :: (positions sigList (sigList.getD i [])).drop 1 := by
  obtain ⟨hi, hfirst⟩ := mem_uniques.1 h
  obtain ⟨k, hk⟩ : ∃ k, sigList.length = i + (k + 1) := ⟨sigList.length - i - 1, by omega⟩
  have hnone : (List.range i).filter (fun j => sigList.getD j [] = sigList.getD i []) = [] := by
    rw [List.filter_eq_nil_iff]
    intro j hj hje
    have hj : j < i := List.mem_range.1 hj
    apply hfirst
    rw [← of_decide_eq_true hje, List.mem_take_iff_getElem]
    exact ⟨j, by omega, by rw [List.getD_eq_getElem]⟩
  have hsplit : List.range sigList.length =
      List.range i ++ i :: (List.range k).map (i + 1 + ·) := by
    rw [hk, List.range_add, List.range_succ_eq_map, List.map_cons, List.map_map]
    simp [Function.comp_def, Nat.add_comm, Nat.add_left_comm]
  rw [positions, hsplit, List.filter_append, hnone, List.nil_append,
    List.filter_cons_of_pos (by simp)]
  rfl

theorem flatMap_positions :
    ((uniques sigList).flatMap fun i => positions sigList (sigList.getD i [])).Perm
      (List.range' 1 sigList.length) := by
  rw [List.perm_ext_iff_of_nodup]
  · intro p
    simp only [List.mem_flatMap, mem_positions, List.mem_range'_1]
    constructor
    · rintro ⟨-, -, i, hi, -, rfl⟩
      omega
    · rintro ⟨hp, hlt⟩
      have hi : p - 1 < sigList.length := by omega
      obtain ⟨j, hj, hji⟩ := exists_unique_first hi
      exact ⟨j, hj, p - 1, hi, hji.symm, by omega⟩
  · rw [List.nodup_flatMap]
    refine ⟨fun _ _ => nodup_positions, nodup_uniques.pairwise_of_forall_ne ?_⟩
    intro i hi j hj hne p hpi hpj
    obtain ⟨a, -, ha, rfl⟩ := mem_positions.1 hpi
    obtain ⟨b, -, hb, hab⟩ := mem_positions.1 hpj
    obtain rfl : b = a := by omega
    exact hne (eq_of_mem_uniques hi hj (ha.symm.trans hb))
  · exact List.nodup_range'

theorem insertByDegree_perm (deg : Int) (i : Nat) (l : List (Int × Nat)) :
    (insertByDegree deg i l).Perm ((deg, i) :: l) := by
  induction l with
  | nil => exact .refl _
  | cons e l ih =>
    rw [insertByDegree]
    split
    · exact .refl _
    · exact (ih.cons e).trans (.swap ..)

theorem insertByDegree_sorted {l : List (Int × Nat)} (h : l.Pairwise (·.1 ≤ ·.1)) (deg : Int)
    (i : Nat) : (insertByDegree deg i l).Pairwise (·.1 ≤ ·.1) := by
  induction l with
  | nil => simp [insertByDegree]
  | cons e l ih =>
    obtain ⟨he, hl⟩ := List.pairwise_cons.1 h
    rw [insertByDegree]
    split
    · next hlt =>
      refine List.pairwise_cons.2 ⟨fun x hx => ?_, h⟩
      rcases List.mem_cons.1 hx with rfl | hx
      · exact hlt.le
      · exact hlt.le.trans (he x hx)
    · next hle =>
      refine List.pairwise_cons.2 ⟨fun x hx => ?_, ih hl⟩
      rcases List.mem_cons.1 ((insertByDegree_perm deg i l).mem_iff.1 hx) with rfl | hx
      · exact not_lt.1 hle
      · exact he x hx

theorem foldl_insertByDegree_perm (deg : Nat → Int) (is : List Nat) (l : List (Int × Nat)) :
    (is.foldl (fun l i => insertByDegree (deg i) i l) l).Perm
      (is.map (fun i => (deg i, i)) ++ l) := by
  induction is generalizing l with
  | nil => exact .refl _
  | cons i is ih =>
    have hi := insertByDegree_perm (deg i) i l
    exact (ih _).trans ((hi.append_left _).trans List.perm_middle)

theorem foldl_insertByDegree_sorted {l : List (Int × Nat)} (h : l.Pairwise (·.1 ≤ ·.1))
    (deg : Nat → Int) (is : List Nat) :
    (is.foldl (fun l i => insertByDegree (deg i) i l) l).Pairwise (·.1 ≤ ·.1) := by
  induction is generalizing l with
  | nil => exact h
  | cons i is ih => exact ih (insertByDegree_sorted h (deg i) i)

theorem sortedSigList_perm (sigList : List Sig) :
    (sortedSigList sigList).Perm (uniques sigList) := by
  have h := foldl_insertByDegree_perm (fun i => fullDegree (sigList.getD i [])) (uniques sigList) []
  simpa [sortedSigList, Function.comp_def] using h.map Prod.snd

theorem seedsWith_seeds {st : Seeds} (h : (seedsWith metric sigList i js st).seeds = some (a, b)) :
    st.seeds = some (a, b) ∨ (a = i ∧ b ∈ js) := by
  induction js generalizing st with
  | nil => exact .inl h
  | cons j js ih =>
    simp only [seedsWith] at h
    have hst : ∀ {deg : Int}, (if deg < st.minDeg then ⟨some (i, j), deg⟩ else st : Seeds).seeds =
        some (a, b) → st.seeds = some (a, b) ∨ (a = i ∧ b ∈ j :: js) := by
      intro deg h
      split at h
      · obtain ⟨rfl, rfl⟩ : i = a ∧ j = b := by simpa using h
        exact .inr ⟨rfl, List.mem_cons_self⟩
      · exact .inl h
    split at h
    · exact hst h
    · rcases ih h with h | ⟨ha, hb⟩
      · exact hst h
      · exact .inr ⟨ha, List.mem_cons_of_mem _ hb⟩

theorem findSeeds_seeds {st : Seeds} (hnodup : is.Nodup)
    (h : (findSeeds metric sigList is st).seeds = some (a, b)) :
    st.seeds = some (a, b) ∨ (a ∈ is ∧ b ∈ is ∧ a ≠ b) := by
  induction is generalizing st with
  | nil => exact .inl h
  | cons i is ih =>
    obtain ⟨hi, hnodup⟩ := List.nodup_cons.1 hnodup
    rcases ih hnodup h with h | ⟨ha, hb, hne⟩
    · rcases seedsWith_seeds h with h | ⟨rfl, hb⟩
      · exact .inl h
      · exact .inr ⟨List.mem_cons_self, List.mem_cons_of_mem _ hb, fun he => hi (he ▸ hb)⟩
    · exact .inr ⟨List.mem_cons_of_mem _ ha, List.mem_cons_of_mem _ hb, hne⟩

end Partition

section Groups

variable {sigList : List Sig}

/-- The groups contain every entry once, and the multiples cover the signatures of the groups,
which `pSimOpt` takes care of only if it computes the metric. -/
structure Groups.Partition (metric : Bool) (sigList : List Sig) (all : List Nat) (g : Groups) :
    Prop where
  perm : (g.group1 ++ g.group2).Perm all
  normalized1 : Normalized g.lcm1
  normalized2 : Normalized g.lcm2
  cover1 : metric = true → ∀ p ∈ g.group1, poly (sigList.getD (p - 1) []) ∣ poly g.lcm1
  cover2 : metric = true → ∀ p ∈ g.group2, poly (sigList.getD (p - 1) []) ∣ poly g.lcm2

theorem pSimOpt_normalized (ht : Normalized t) (hs : Normalized s) :
    Normalized (pSimOpt t s (gcdSpecial t s) metric).2 := by
  cases metric with
  | true => exact (lcm_spec ht hs).1
  | false => exact ht

theorem cover_concat (ht : Normalized t) (hs : Normalized (sigList.getD i []))
    (h : metric = true → ∀ p ∈ group, poly (sigList.getD (p - 1) []) ∣ poly t)
    (hm : metric = true) :
    ∀ p ∈ group ++ [i + 1], poly (sigList.getD (p - 1) []) ∣
      poly (pSimOpt t (sigList.getD i []) (gcdSpecial t (sigList.getD i [])) metric).2 := by
  subst hm
  obtain ⟨-, htl, hsl, -⟩ := lcm_spec ht hs
  intro p hp
  rcases List.mem_append.1 hp with hp | hp
  · exact (h rfl p hp).trans htl
  · obtain rfl := List.mem_singleton.1 hp
    exact hsl

theorem perm_concat {all : List Nat} (h : (group1 ++ group2).Perm all) (p : Nat) :
    (group1 ++ [p] ++ group2).Perm (all ++ [p]) ∧ (group1 ++ (group2 ++ [p])).Perm (all ++ [p]) := by
  constructor
  · rw [List.append_assoc]
    exact (List.perm_append_comm.append_left _).trans
      ((List.append_assoc ..).symm ▸ h.append_right _)
  · rw [← List.append_assoc]
    exact h.append_right _

theorem groupStep_partition {all : List Nat} (hs : Normalized (sigList.getD i []))
    (h : g.Partition metric sigList all) :
    (groupStep metric sigList g i).Partition metric sigList (all ++ [i + 1]) := by
  obtain ⟨hperm1, hperm2⟩ := perm_concat h.perm (i + 1)
  simp only [groupStep]
  split
  · exact ⟨hperm1, pSimOpt_normalized h.normalized1 hs, h.normalized2,
      cover_concat h.normalized1 hs h.cover1, h.cover2⟩
  · exact ⟨hperm2, h.normalized1, pSimOpt_normalized h.normalized2 hs, h.cover1,
      cover_concat h.normalized2 hs h.cover2⟩

theorem foldl_groupStep_partition {all is : List Nat}
    (hs : ∀ i ∈ is, Normalized (sigList.getD i [])) (h : g.Partition metric sigList all) :
    (is.foldl (groupStep metric sigList) g).Partition metric sigList
      (all ++ is.map (· + 1)) := by
  induction is generalizing g all with
  | nil => simpa using h
  | cons i is ih =>
    have hi := groupStep_partition (hs i List.mem_cons_self) h
    simpa using ih (fun j hj => hs j (List.mem_cons_of_mem _ hj)) hi

theorem addDuplicates_perm (h : ∀ p ∈ group, ∃ i ∈ uniques sigList, i + 1 = p) :
    (addDuplicates sigList group).Perm
      (group.flatMap fun p => positions sigList (sigList.getD (p - 1) [])) := by
  have hmap : (group.flatMap fun p => positions sigList (sigList.getD (p - 1) [])) =
      group.flatMap fun p => id p :: (positions sigList (sigList.getD (p - 1) [])).drop 1 := by
    apply List.flatMap_congr
    intro p hp
    obtain ⟨i, hi, rfl⟩ := h p hp
    exact positions_eq_cons hi
  rw [hmap, addDuplicates]
  simpa using List.map_append_flatMap_perm group id
    fun p => (positions sigList (sigList.getD (p - 1) [])).drop 1

theorem mem_addDuplicates (h : p ∈ addDuplicates sigList group) :
    ∃ p' ∈ group, sigList.getD (p - 1) [] = sigList.getD (p' - 1) [] := by
  rcases List.mem_append.1 h with h | h
  · exact ⟨p, h, rfl⟩
  · obtain ⟨p', hp', h⟩ := List.mem_flatMap.1 h
    obtain ⟨i, -, hi, rfl⟩ := mem_positions.1 (List.mem_of_mem_drop h)
    exact ⟨p', hp', hi⟩

theorem addDuplicates_partition {g : Groups} {all : List Nat}
    (h : g.Partition metric sigList all) (hall : all.Perm ((uniques sigList).map (· + 1))) :
    Groups.Partition metric sigList (List.range' 1 sigList.length)
      { g with
        group1 := addDuplicates sigList g.group1, group2 := addDuplicates sigList g.group2 } := by
  have hmem : ∀ p ∈ g.group1 ++ g.group2, ∃ i ∈ uniques sigList, i + 1 = p := by
    intro p hp
    simpa using (h.perm.trans hall).mem_iff.1 hp
  have h₁ := addDuplicates_perm fun p hp => hmem p (List.mem_append_left _ hp)
  have h₂ := addDuplicates_perm fun p hp => hmem p (List.mem_append_right _ hp)
  refine ⟨?_, h.normalized1, h.normalized2, ?_, ?_⟩
  · refine (h₁.append h₂).trans ?_
    rw [← List.flatMap_append]
    refine ((h.perm.trans hall).flatMap_right _).trans ?_
    simpa [List.flatMap_map] using flatMap_positions
  · intro hm p hp
    obtain ⟨p', hp', he⟩ := mem_addDuplicates hp
    exact he ▸ h.cover1 hm p' hp'
  · intro hm p hp
    obtain ⟨p', hp', he⟩ := mem_addDuplicates hp
    exact he ▸ h.cover2 hm p' hp'

theorem identical_partition (hs : Normalized (sigList.getD i [])) (hu : uniques sigList = [i]) :
    Groups.Partition metric sigList (List.range' 1 sigList.length)
      ⟨List.range' 1 (sigList.length / 2),
        List.range' (sigList.length / 2 + 1) (sigList.length - sigList.length / 2),
        sigList.getD i [], sigList.getD i []⟩ := by
  have hsame : ∀ p, 1 ≤ p → p < sigList.length + 1 → sigList.getD (p - 1) [] = sigList.getD i [] := by
    intro p hp hlt
    have hlt : p - 1 < sigList.length := by omega
    obtain ⟨j, hj, hji⟩ := exists_unique_first hlt
    rw [hu, List.mem_singleton] at hj
    rw [← hji, hj]
  refine ⟨?_, hs, hs, fun _ p hp => ?_, fun _ p hp => ?_⟩
  · rw [Nat.add_comm, List.range'_append_1]
    rw [Nat.add_sub_cancel' (Nat.div_le_self ..)]
  · rw [List.mem_range'_1] at hp
    rw [hsame p hp.1 (by omega)]
  · rw [List.mem_range'_1] at hp
    rw [hsame p (by omega) (by omega)]

theorem seeds_perm {l : List Nat} (hl : l.Nodup) (ha : a ∈ l) (hb : b ∈ l) (hne : a ≠ b) :
    (a :: b :: l.filter fun i => i ≠ a ∧ i ≠ b).Perm l := by
  rw [List.perm_ext_iff_of_nodup _ hl]
  · intro i
    simp only [List.mem_cons, List.mem_filter, decide_eq_true_eq]
    constructor
    · rintro (rfl | rfl | ⟨hi, -⟩)
      · exact ha
      · exact hb
      · exact hi
    · intro hi
      by_cases hia : i = a
      · exact .inl hia
      · by_cases hib : i = b
        · exact .inr (.inl hib)
        · exact .inr (.inr ⟨hi, hia, hib⟩)
  · simp [hne, hl.filter]

/-- The groups of two seeds, once the other entries without duplicates have joined them. -/
def joinGroups (metric : Bool) (sigList : List Sig) (seed1 seed2 : Nat) : Groups :=
  ((sortedSigList sigList).filter fun i => i ≠ seed1 ∧ i ≠ seed2).foldl (groupStep metric sigList)
    ⟨[seed1 + 1], [seed2 + 1], sigList.getD seed1 [], sigList.getD seed2 []⟩

def splitWith (metric : Bool) (sigList : List Sig) (seed1 seed2 : Nat) : Groups :=
  let g := joinGroups metric sigList seed1 seed2
  { g with
    group1 := addDuplicates sigList g.group1, group2 := addDuplicates sigList g.group2 }

theorem splitNode_of_distinct (h : uniques sigList = i :: j :: is) (MAXENTRIES : Nat)
    (metric : Bool) : splitNode MAXENTRIES metric sigList =
      (findSeeds metric sigList ((sortedSigList sigList).reverse.take MAXSIGS)
        ⟨none, INT_MAX⟩).seeds.bind fun p =>
          if (splitWith metric sigList p.1 p.2).group1.length +
              (splitWith metric sigList p.1 p.2).group2.length = MAXENTRIES then
            some (splitWith metric sigList p.1 p.2) else none := by
  rw [splitNode]
  simp only [h]
  rfl

theorem getD_normalized (hs : ∀ s ∈ sigList, Normalized s) (hi : i ∈ uniques sigList) :
    Normalized (sigList.getD i []) := hs _ (getD_mem (mem_uniques.1 hi).1)

theorem findSeeds_uniques
    (h : (findSeeds metric sigList ((sortedSigList sigList).reverse.take MAXSIGS)
      ⟨none, INT_MAX⟩).seeds = some (a, b)) :
    a ∈ uniques sigList ∧ b ∈ uniques sigList ∧ a ≠ b := by
  have hperm := sortedSigList_perm sigList
  have hsorted : (sortedSigList sigList).Nodup := hperm.nodup_iff.2 nodup_uniques
  have hsub : ∀ {i}, i ∈ (sortedSigList sigList).reverse.take MAXSIGS → i ∈ uniques sigList :=
    fun hi => hperm.mem_iff.1 (List.mem_reverse.1 (List.mem_of_mem_take hi))
  obtain ⟨ha, hb, hne⟩ :=
    (findSeeds_seeds ((List.nodup_reverse.2 hsorted).take) h).resolve_left (by simp)
  exact ⟨hsub ha, hsub hb, hne⟩

theorem joinGroups_partition (hs : ∀ s ∈ sigList, Normalized s) (ha : a ∈ uniques sigList)
    (hb : b ∈ uniques sigList) (hne : a ≠ b) (metric : Bool) :
    (joinGroups metric sigList a b).Partition metric sigList ((uniques sigList).map (· + 1)) := by
  have hperm := sortedSigList_perm sigList
  have hsorted : (sortedSigList sigList).Nodup := hperm.nodup_iff.2 nodup_uniques
  have hseed : Groups.Partition metric sigList [a + 1, b + 1]
      ⟨[a + 1], [b + 1], sigList.getD a [], sigList.getD b []⟩ :=
    ⟨.refl _, getD_normalized hs ha, getD_normalized hs hb, by simp, by simp⟩
  have hrest : ∀ i ∈ (sortedSigList sigList).filter fun i => i ≠ a ∧ i ≠ b,
      Normalized (sigList.getD i []) :=
    fun i hi => getD_normalized hs (hperm.mem_iff.1 (List.mem_of_mem_filter hi))
  have hfold := foldl_groupStep_partition hrest hseed
  have hall := (seeds_perm hsorted (hperm.mem_iff.2 ha) (hperm.mem_iff.2 hb) hne).trans hperm
  exact { hfold with perm := hfold.perm.trans (hall.map (· + 1)) }

theorem splitWith_partition (hs : ∀ s ∈ sigList, Normalized s) (ha : a ∈ uniques sigList)
    (hb : b ∈ uniques sigList) (hne : a ≠ b) (metric : Bool) :
    (splitWith metric sigList a b).Partition metric sigList (List.range' 1 sigList.length) :=
  addDuplicates_partition (joinGroups_partition hs ha hb hne metric) (.refl _)

theorem splitNode_partition (hs : ∀ s ∈ sigList, Normalized s)
    (h : splitNode sigList.length metric sigList = some g) :
    g.Partition metric sigList (List.range' 1 sigList.length) := by
  rcases hu : uniques sigList with - | ⟨i, - | ⟨j, is⟩⟩
  · simp [splitNode, hu] at h
  · simp only [splitNode, hu] at h
    obtain rfl := Option.some.inj h
    exact identical_partition (getD_normalized hs (hu ▸ List.mem_cons_self)) hu
  · rw [splitNode_of_distinct hu] at h
    obtain ⟨⟨a, b⟩, hseeds, h⟩ := Option.bind_eq_some_iff.1 h
    obtain ⟨ha, hb, hne⟩ := findSeeds_uniques hseeds
    obtain ⟨-, h⟩ := Option.ite_none_right_eq_some.1 h
    obtain rfl := Option.some.inj h
    exact splitWith_partition hs ha hb hne metric

end Groups

end XGossip
