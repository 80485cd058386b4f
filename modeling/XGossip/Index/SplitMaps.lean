import XGossip.Index.SplitNode

open Polynomial

namespace XGossip
set_option autoImplicit true

open Gf2

section Degrees

def seedLcms (sigList : List Sig) (is : List Nat) : List Sig :=
  (pairs is).map fun p => lcm (sigList.getD p.1 []) (sigList.getD p.2 [])

/-- The multiples that the metric compares the groups by, where the entries `is` join them. -/
def groupLcms (sigList : List Sig) : Groups → List Nat → List Sig
  | _, [] => []
  | g, i :: is =>
    lcm g.lcm1 (sigList.getD i []) :: lcm g.lcm2 (sigList.getD i []) ::
      groupLcms sigList (groupStep true sigList g i) is

/-- The multiples that `splitNode` computes with the metric. -/
def metricLcms (sigList : List Sig) : List Sig :=
  seedLcms sigList (topSigs sigList) ++
    match (findSeeds true sigList (topSigs sigList) ⟨none, INT_MAX⟩).seeds with
    | none => []
    | some (seed1, seed2) =>
      groupLcms sigList
        ⟨[seed1 + 1], [seed2 + 1], sigList.getD seed1 [], sigList.getD seed2 []⟩
        ((sortedSigList sigList).filter fun i => i ≠ seed1 ∧ i ≠ seed2)

/-- The degrees that `splitNode` computes are those of an `int`: the ones of the signatures, and with
the metric the ones of the multiples. -/
def DegreesFit (metric : Bool) (sigList : List Sig) : Prop :=
  (∀ s ∈ sigList, FitsInt s) ∧ (metric = true → ∀ t ∈ metricLcms sigList, FitsInt t)

instance : Decidable (DegreesFit metric sigList) := inferInstanceAs (Decidable (_ ∧ _))

end Degrees

namespace Maps

/-- The maps that duplicates are found with. An iterator into `uniqueSigList` is the signature that
it stands on. -/
structure SigMaps where
  sortedSigList : List (Int × Nat)
  uniqueSigList : SortedMap SigLt (List Nat)
  duplicateList : SortedMap (fun i j : Nat => i < j) Sig

def addSig (m : SigMaps) (i : Nat) (s : Sig) : Option SigMaps :=
  match m.uniqueSigList.find? s with
  | some e => some { m with uniqueSigList := m.uniqueSigList.insert s (e ++ [i + 1]) }
  | none => do
    let deg ← Words.getDegree s
    return ⟨insertByDegree deg i m.sortedSigList, m.uniqueSigList.insert s [i + 1],
      m.duplicateList.insert (i + 1) s⟩

def readSigs : Nat → List Sig → SigMaps → Option SigMaps
  | _, [], m => some m
  | i, s :: sigs, m => do readSigs (i + 1) sigs (← addSig m i s)

def sigMaps (sigList : List Sig) : Option SigMaps := readSigs 0 sigList ⟨[], .empty, .empty⟩

/-- The inner loop over the partners of `i`. -/
def seedsWith (fuel : Nat) (metric : Bool) (sigList : List Sig) (i : Nat) :
    List Nat → Seeds → Option Seeds
  | [], st => some st
  | j :: js, st => do
    let sigI ← sigList[i]?
    let sigJ ← sigList[j]?
    let gcdPoly ← Words.gcdSpecial fuel sigI sigJ
    let (deg, _) ← Words.pSimOpt sigI sigJ gcdPoly metric
    let st : Seeds := if deg < st.minDeg then ⟨some (i, j), deg⟩ else st
    if deg < 0 then return st else seedsWith fuel metric sigList i js st

def findSeeds (fuel : Nat) (metric : Bool) (sigList : List Sig) :
    List Nat → Seeds → Option Seeds
  | [], st => some st
  | i :: is, st => do findSeeds fuel metric sigList is (← seedsWith fuel metric sigList i is st)

def groupStep (fuel : Nat) (metric : Bool) (sigList : List Sig) (g : Groups) (i : Nat) :
    Option Groups := do
  let s ← sigList[i]?
  let gcd1 ← Words.gcdSpecial fuel g.lcm1 s
  let gcd2 ← Words.gcdSpecial fuel g.lcm2 s
  let (deg1, testLCM1) ← Words.pSimOpt g.lcm1 s gcd1 metric
  let (deg2, testLCM2) ← Words.pSimOpt g.lcm2 s gcd2 metric
  return if deg1 > deg2 ∨ (deg1 = deg2 ∧ g.group1.length ≤ g.group2.length) then
    { g with lcm1 := testLCM1, group1 := g.group1 ++ [i + 1] }
  else { g with lcm2 := testLCM2, group2 := g.group2 ++ [i + 1] }

/-- The loop over a group, each entry of which has to be in `duplicateList`. -/
def duplicates (m : SigMaps) : List Nat → Option (List Nat)
  | [] => some []
  | p :: group => do
    let s ← m.duplicateList.find? p
    let e ← m.uniqueSigList.find? s
    return e.drop 1 ++ (← duplicates m group)

/-- `splitNode` as the source has it, where an assertion that fails or a word outside of a vector
gives `none`. -/
def splitNode (fuel MAXENTRIES : Nat) (metric : Bool) (sigList : List Sig) : Option Groups := do
  let m ← sigMaps sigList
  match m.uniqueSigList.entries with
  | [] => none
  | [(s, _)] =>
    some ⟨List.range' 1 (MAXENTRIES / 2),
      List.range' (MAXENTRIES / 2 + 1) (MAXENTRIES - MAXENTRIES / 2), s, s⟩
  | _ => do
    let sorted := m.sortedSigList.map Prod.snd
    let st ← findSeeds fuel metric sigList (sorted.reverse.take MAXSIGS) ⟨none, INT_MAX⟩
    let (seed1, seed2) ← st.seeds
    let g : Groups := ⟨[seed1 + 1], [seed2 + 1], ← sigList[seed1]?, ← sigList[seed2]?⟩
    let g ← (sorted.filter fun i => i ≠ seed1 ∧ i ≠ seed2).foldlM (groupStep fuel metric sigList) g
    let group1 := g.group1 ++ (← duplicates m g.group1)
    let group2 := g.group2 ++ (← duplicates m g.group2)
    if group1.length + group2.length = MAXENTRIES then some { g with group1, group2 } else none

structure SigMaps.Reads (m : SigMaps) (sigList : List Sig) : Prop where
  sorted : m.sortedSigList = (uniques sigList).foldl
    (fun l i => insertByDegree (Words.toInt (fullDegree (sigList.getD i []))) i l) []
  unique : ∀ s, m.uniqueSigList.find? s = if s ∈ sigList then some (positions sigList s) else none
  duplicate : ∀ i ∈ uniques sigList, m.duplicateList.find? (i + 1) = some (sigList.getD i [])

theorem getD_concat (h : i < l.length) (s : Sig) : (l ++ [s]).getD i [] = l.getD i [] :=
  List.getD_append _ _ _ _ h

theorem positions_concat (l : List Sig) (s t : Sig) :
    positions (l ++ [s]) t = positions l t ++ if s = t then [l.length + 1] else [] := by
  have hfilter : (List.range l.length).filter (fun i => (l ++ [s]).getD i [] = t) =
      (List.range l.length).filter (fun i => l.getD i [] = t) := by
    apply List.filter_congr
    intro i hi
    rw [getD_concat (List.mem_range.1 hi)]
  simp only [positions, List.length_append, List.length_singleton, List.range_succ,
    List.filter_append, List.map_append, hfilter]
  congr 1
  by_cases h : s = t <;> simp [h]

theorem uniques_concat (l : List Sig) (s : Sig) :
    uniques (l ++ [s]) = uniques l ++ if s ∈ l then [] else [l.length] := by
  have hfilter : (List.range l.length).filter
      (fun i => (l ++ [s]).getD i [] ∉ (l ++ [s]).take i) =
        (List.range l.length).filter (fun i => l.getD i [] ∉ l.take i) := by
    apply List.filter_congr
    intro i hi
    have hlt : i < l.length := List.mem_range.1 hi
    rw [getD_concat hlt, List.take_append_of_le_length (by omega)]
  simp only [uniques, List.length_append, List.length_singleton, List.range_succ,
    List.filter_append, hfilter]
  congr 1
  by_cases h : s ∈ l <;> simp [h]

theorem positions_eq_nil (h : s ∉ l) : positions l s = [] := by
  rw [List.eq_nil_iff_forall_not_mem]
  intro p hp
  obtain ⟨i, hi, rfl, -⟩ := mem_positions.1 hp
  exact h (getD_mem hi)

theorem sorted_concat (l : List Sig) (s : Sig) :
    (uniques l).foldl
        (fun a i => insertByDegree (Words.toInt (fullDegree ((l ++ [s]).getD i []))) i a) [] =
      (uniques l).foldl (fun a i => insertByDegree (Words.toInt (fullDegree (l.getD i []))) i a)
        [] := by
  apply List.foldl_ext
  intro a i hi
  rw [getD_concat (mem_uniques.1 hi).1]

theorem SigMaps.Reads.add (h : m.Reads l) (hne : s ≠ []) :
    ∃ m', addSig m l.length s = some m' ∧ m'.Reads (l ++ [s]) := by
  have hfind := h.unique s
  by_cases hs : s ∈ l
  · rw [if_pos hs] at hfind
    have hu : uniques (l ++ [s]) = uniques l := by simp [uniques_concat, hs]
    simp only [addSig, hfind]
    refine ⟨_, rfl, ?_, fun t => ?_, fun i hi => ?_⟩
    · rw [hu, sorted_concat, h.sorted]
    · rw [SortedMap.find?_insert, positions_concat]
      by_cases ht : t = s
      · subst ht
        simp
      · simp [ht, Ne.symm ht, h.unique t]
    · rw [hu] at hi
      rw [getD_concat (mem_uniques.1 hi).1]
      exact h.duplicate i hi
  · rw [if_neg hs] at hfind
    have hu : uniques (l ++ [s]) = uniques l ++ [l.length] := by simp [uniques_concat, hs]
    have hlast : (l ++ [s]).getD l.length [] = s := by simp
    simp only [addSig, hfind, Words.getDegree_toInt hne]
    refine ⟨_, rfl, ?_, fun t => ?_, fun i hi => ?_⟩
    · rw [hu, List.foldl_append, sorted_concat, ← h.sorted, List.foldl_cons, List.foldl_nil, hlast]
    · rw [SortedMap.find?_insert, positions_concat]
      by_cases ht : t = s
      · subst ht
        simp [positions_eq_nil hs]
      · simp [ht, Ne.symm ht, h.unique t]
    · rw [SortedMap.find?_insert]
      rw [hu, List.mem_append, List.mem_singleton] at hi
      rcases hi with hi | rfl
      · have hlt := (mem_uniques.1 hi).1
        rw [if_neg (by omega), getD_concat hlt]
        exact h.duplicate i hi
      · rw [if_pos rfl, hlast]

theorem readSigs_reads (h : m.Reads l) (hne : ∀ s ∈ sigs, s ≠ []) :
    ∃ m', readSigs l.length sigs m = some m' ∧ m'.Reads (l ++ sigs) := by
  induction sigs generalizing m l with
  | nil => exact ⟨m, rfl, by simpa using h⟩
  | cons s sigs ih =>
    obtain ⟨hs, hsigs⟩ := List.forall_mem_cons.1 hne
    obtain ⟨m₁, hadd, h₁⟩ := h.add hs
    obtain ⟨m', hread, hm'⟩ := ih h₁ hsigs
    rw [List.length_append, List.length_singleton] at hread
    rw [List.append_assoc] at hm'
    exact ⟨m', by rw [readSigs, hadd]; exact hread, hm'⟩

theorem sigMaps_reads (hne : ∀ s ∈ sigList, s ≠ []) :
    ∃ m, sigMaps sigList = some m ∧ m.Reads sigList :=
  readSigs_reads (l := []) ⟨rfl, fun s => by simp, fun i hi => by simp [uniques] at hi⟩ hne

theorem SigMaps.Reads.keys_perm {m : SigMaps} (h : m.Reads sigList) :
    m.uniqueSigList.keys.Perm ((uniques sigList).map fun i => sigList.getD i []) := by
  rw [List.perm_ext_iff_of_nodup]
  · intro s
    rw [SortedMap.mem_keys_iff, h.unique, List.mem_map]
    constructor
    · intro hs
      have hmem : s ∈ sigList := by
        by_contra hn
        simp [hn] at hs
      obtain ⟨i, hi, rfl⟩ := List.getElem_of_mem hmem
      obtain ⟨j, hj, hji⟩ := exists_unique_first hi
      exact ⟨j, hj, hji.trans (List.getD_eq_getElem ..)⟩
    · rintro ⟨i, hi, rfl⟩
      rw [if_pos (getD_mem (mem_uniques.1 hi).1)]
      rfl
  · rw [SortedMap.keys, List.Nodup, List.pairwise_map]
    refine m.uniqueSigList.sorted.imp ?_
    intro a b hlt he
    rw [he] at hlt
    exact irrefl_of SigLt _ hlt
  · exact nodup_uniques.map_on fun i hi j hj he => eq_of_mem_uniques hi hj he

theorem SigMaps.Reads.duplicates_eq (h : m.Reads sigList)
    (hg : ∀ p ∈ group, ∃ i ∈ uniques sigList, i + 1 = p) :
    duplicates m group =
      some (group.flatMap fun p => (positions sigList (sigList.getD (p - 1) [])).drop 1) := by
  induction group with
  | nil => rfl
  | cons p group ih =>
    obtain ⟨⟨i, hi, rfl⟩, hgroup⟩ := List.forall_mem_cons.1 hg
    have hfind := h.unique (sigList.getD i [])
    rw [if_pos (getD_mem (mem_uniques.1 hi).1)] at hfind
    rw [duplicates, h.duplicate i hi]
    simp only [Option.bind_eq_bind, Option.bind_some, hfind, ih hgroup, List.flatMap_cons,
      Nat.add_sub_cancel, pure]

theorem getElem?_eq_getD {sigList : List Sig} (hi : i < sigList.length) :
    sigList[i]? = some (sigList.getD i []) := by
  simp [List.getD_eq_getElem?_getD, hi]

structure Fit (s : Sig) : Prop where
  normalized : Normalized s
  fits : FitsInt s

theorem Fit.gcdSpecial (hs : Fit s) (ht : Fit t) (hfuel : Words.enough ≤ fuel) :
    Words.gcdSpecial fuel s t = some (XGossip.gcdSpecial s t) :=
  Words.gcdSpecial_eq hs.normalized ht.normalized hs.fits ht.fits hfuel

theorem Fit.pSimOpt (hs : Fit s) (ht : Fit t) (hl : metric = true → FitsInt (XGossip.lcm s t)) :
    Words.pSimOpt s t (XGossip.gcdSpecial s t) metric =
        some (XGossip.pSimOpt s t (XGossip.gcdSpecial s t) metric) ∧
      Fit (XGossip.pSimOpt s t (XGossip.gcdSpecial s t) metric).2 := by
  have hsim := Words.pSimOpt_eq hs.normalized ht.normalized hs.fits ht.fits hl
  cases metric with
  | false => exact ⟨hsim, hs⟩
  | true => exact ⟨hsim, (lcm_spec hs.normalized ht.normalized).1, hl rfl⟩

section Fits

variable {fuel : Nat} {metric : Bool} {sigList : List Sig} (hfit : ∀ s ∈ sigList, Fit s)
  (hfuel : Words.enough ≤ fuel)

include hfit

theorem fit_getD (hi : i < sigList.length) :
    sigList[i]? = some (sigList.getD i []) ∧ Fit (sigList.getD i []) :=
  ⟨getElem?_eq_getD hi, hfit _ (getD_mem hi)⟩

include hfuel

theorem seedsWith_eq (hi : i < sigList.length) (hjs : ∀ j ∈ js, j < sigList.length)
    (hl : metric = true → ∀ j ∈ js, FitsInt (lcm (sigList.getD i []) (sigList.getD j [])))
    (st : Seeds) :
    seedsWith fuel metric sigList i js st = some (XGossip.seedsWith metric sigList i js st) := by
  obtain ⟨hgeti, hfiti⟩ := fit_getD hfit hi
  induction js generalizing st with
  | nil => rfl
  | cons j js ih =>
    obtain ⟨hj, hjs⟩ := List.forall_mem_cons.1 hjs
    obtain ⟨hgetj, hfitj⟩ := fit_getD hfit hj
    have hsim := (hfiti.pSimOpt hfitj fun h => hl h j List.mem_cons_self).1
    have hnext := ih hjs fun h k hk => hl h k (List.mem_cons_of_mem _ hk)
    simp only [seedsWith, hgeti, hgetj, hfiti.gcdSpecial hfitj hfuel, hsim, hnext,
      Option.bind_eq_bind, Option.bind_some, XGossip.seedsWith]
    split
    · rfl
    · rfl

theorem findSeeds_eq (his : ∀ i ∈ is, i < sigList.length)
    (hl : metric = true → ∀ t ∈ seedLcms sigList is, FitsInt t) (st : Seeds) :
    findSeeds fuel metric sigList is st = some (XGossip.findSeeds metric sigList is st) := by
  induction is generalizing st with
  | nil => rfl
  | cons i is ih =>
    obtain ⟨hi, his⟩ := List.forall_mem_cons.1 his
    simp only [seedLcms, pairs, List.map_append, List.map_map, List.forall_mem_append,
      List.forall_mem_map] at hl
    rw [findSeeds, seedsWith_eq hfit hfuel hi his fun h => (hl h).1]
    exact ih his (fun h => List.forall_mem_map.2 (hl h).2) _

theorem groupStep_eq (hi : i < sigList.length) (h₁ : Fit g.lcm1) (h₂ : Fit g.lcm2)
    (hl₁ : metric = true → FitsInt (lcm g.lcm1 (sigList.getD i [])))
    (hl₂ : metric = true → FitsInt (lcm g.lcm2 (sigList.getD i []))) :
    groupStep fuel metric sigList g i = some (XGossip.groupStep metric sigList g i) ∧
      Fit (XGossip.groupStep metric sigList g i).lcm1 ∧
      Fit (XGossip.groupStep metric sigList g i).lcm2 := by
  obtain ⟨hget, hs⟩ := fit_getD hfit hi
  obtain ⟨hsim₁, hfit₁⟩ := h₁.pSimOpt hs hl₁
  obtain ⟨hsim₂, hfit₂⟩ := h₂.pSimOpt hs hl₂
  simp only [groupStep, hget, h₁.gcdSpecial hs hfuel, h₂.gcdSpecial hs hfuel, hsim₁, hsim₂,
    Option.bind_eq_bind, Option.bind_some, XGossip.groupStep]
  split
  · exact ⟨rfl, hfit₁, h₂⟩
  · exact ⟨rfl, h₁, hfit₂⟩

theorem foldlM_groupStep {g : Groups} {is : List Nat} (his : ∀ i ∈ is, i < sigList.length)
    (h₁ : Fit g.lcm1) (h₂ : Fit g.lcm2)
    (hl : metric = true → ∀ t ∈ groupLcms sigList g is, FitsInt t) :
    is.foldlM (groupStep fuel metric sigList) g =
      some (is.foldl (XGossip.groupStep metric sigList) g) := by
  induction is generalizing g with
  | nil => rfl
  | cons i is ih =>
    obtain ⟨hi, his⟩ := List.forall_mem_cons.1 his
    simp only [groupLcms, List.forall_mem_cons] at hl
    obtain ⟨hstep, h₁, h₂⟩ := groupStep_eq hfit hfuel hi h₁ h₂ (fun h => (hl h).1)
      fun h => (hl h).2.1
    rw [List.foldlM_cons, hstep]
    refine ih his h₁ h₂ fun h => ?_
    subst h
    exact (hl rfl).2.2

end Fits

section SplitNode

variable {fuel MAXENTRIES : Nat} {metric : Bool} {sigList : List Sig}

/-- On degrees that are those of an `int`, `splitNode` moves the entries as it does without its
maps and without the bounds. -/
theorem splitNode_eq (hs : ∀ s ∈ sigList, Normalized s) (hdeg : DegreesFit metric sigList)
    (hfuel : Words.enough ≤ fuel) :
    splitNode fuel MAXENTRIES metric sigList = XGossip.splitNode MAXENTRIES metric sigList := by
  obtain ⟨hfits, hlcms⟩ := hdeg
  have hfit : ∀ s ∈ sigList, Fit s := fun s hmem => ⟨hs s hmem, hfits s hmem⟩
  obtain ⟨maps, hmaps, h⟩ := sigMaps_reads fun s hmem => (hs s hmem).ne_nil
  have hkeys := h.keys_perm
  have hsorted : maps.sortedSigList.map Prod.snd = sortedSigList sigList := by
    rw [h.sorted, sortedSigList]
    congr 1
    apply List.foldl_ext
    intro a i hi
    have hmem := getD_mem (mem_uniques.1 hi).1
    rw [Words.toInt_fullDegree (hs _ hmem).ne_nil (hfits _ hmem)]
  have hlt : ∀ {i}, i ∈ sortedSigList sigList → i < sigList.length :=
    fun hi => (mem_uniques.1 ((sortedSigList_perm sigList).mem_iff.1 hi)).1
  rw [splitNode, hmaps, Option.bind_eq_bind, Option.bind_some]
  rcases he : maps.uniqueSigList.entries with - | ⟨⟨s, e⟩, - | ⟨e', es⟩⟩
  · have hu : uniques sigList = [] := by simpa [SortedMap.keys, he] using hkeys
    simp [XGossip.splitNode, hu]
  · simp only [SortedMap.keys, he, List.map_cons, List.map_nil, List.singleton_perm] at hkeys
    obtain ⟨i, hu, rfl⟩ := List.map_eq_singleton_iff.1 hkeys.symm
    simp only [XGossip.splitNode, hu]
  · have hlen := hkeys.length_eq
    rcases hu : uniques sigList with - | ⟨i, - | ⟨j, is⟩⟩
    · simp [SortedMap.keys, he, hu] at hlen
    · simp [SortedMap.keys, he, hu] at hlen
    · have htop : ∀ i ∈ (sortedSigList sigList).reverse.take MAXSIGS, i < sigList.length :=
        fun i hi => hlt (List.mem_reverse.1 (List.mem_of_mem_take hi))
      have hfind := findSeeds_eq hfit hfuel htop
        (fun h t ht => hlcms h t (List.mem_append_left _ ht)) ⟨none, INT_MAX⟩
      rw [splitNode_of_distinct hu]
      simp only [hsorted, hfind, Option.bind_eq_bind, Option.bind_some]
      rcases hseeds : (XGossip.findSeeds metric sigList
        ((sortedSigList sigList).reverse.take MAXSIGS) ⟨none, INT_MAX⟩).seeds with - | ⟨a, b⟩
      · rfl
      · obtain ⟨ha, hb, hne⟩ := findSeeds_uniques hseeds
        obtain ⟨hgeta, hfita⟩ := fit_getD hfit (mem_uniques.1 ha).1
        obtain ⟨hgetb, hfitb⟩ := fit_getD hfit (mem_uniques.1 hb).1
        have hrest : ∀ i ∈ (sortedSigList sigList).filter fun i => i ≠ a ∧ i ≠ b,
            i < sigList.length := fun i hi => hlt (List.mem_of_mem_filter hi)
        have hfold := foldlM_groupStep hfit hfuel
          (g := ⟨[a + 1], [b + 1], sigList.getD a [], sigList.getD b []⟩) hrest hfita hfitb
          fun hmetric t ht => hlcms hmetric t (List.mem_append_right _ (by
            subst hmetric
            rw [topSigs, hseeds]
            exact ht))
        have hjoin := joinGroups_partition hs ha hb hne metric
        have hmem : ∀ p ∈ (joinGroups metric sigList a b).group1 ++
            (joinGroups metric sigList a b).group2, ∃ i ∈ uniques sigList, i + 1 = p :=
          fun p hp => List.mem_map.1 (hjoin.perm.mem_iff.1 hp)
        have h₁ := h.duplicates_eq fun p hp => hmem p (List.mem_append_left _ hp)
        have h₂ := h.duplicates_eq fun p hp => hmem p (List.mem_append_right _ hp)
        simp only [hgeta, hgetb, hfold, Option.bind_some]
        rw [joinGroups] at h₁ h₂
        simp only [h₁, h₂, Option.bind_some]
        rfl

theorem splitNode_returns (hs : ∀ s ∈ sigList, Normalized s) (hdeg : DegreesFit metric sigList)
    (h : XGossip.splitNode MAXENTRIES metric sigList = some g) :
    Returns (splitNode · MAXENTRIES metric sigList) g :=
  ⟨Words.enough, fun _ hfuel => (splitNode_eq hs hdeg hfuel).trans h⟩

theorem exists_returns_iff {P : Groups → Prop} (hs : ∀ s ∈ sigList, Normalized s)
    (hdeg : DegreesFit metric sigList) :
    (∃ g, Returns (splitNode · MAXENTRIES metric sigList) g ∧ P g) ↔
      ∃ g, XGossip.splitNode MAXENTRIES metric sigList = some g ∧ P g := by
  constructor
  · rintro ⟨g, ⟨n, hg⟩, hP⟩
    have hsome := hg _ (le_max_left n Words.enough)
    exact ⟨g, (splitNode_eq hs hdeg (le_max_right _ _)).symm.trans hsome, hP⟩
  · rintro ⟨g, hg, hP⟩
    exact ⟨g, splitNode_returns hs hdeg hg, hP⟩

end SplitNode

section Wraps

variable {fuel MAXENTRIES : Nat} {metric : Bool} {sigList : List Sig}

theorem seedsWith_seeds {st st' : Seeds} (h : seedsWith fuel metric sigList i js st = some st')
    (hseeds : st'.seeds = some (a, b)) : st.seeds = some (a, b) ∨ (a = i ∧ b ∈ js) := by
  induction js generalizing st with
  | nil =>
    obtain rfl := Option.some.inj h
    exact .inl hseeds
  | cons j js ih =>
    rw [seedsWith] at h
    obtain ⟨sigI, -, h⟩ := Option.bind_eq_some_iff.1 h
    obtain ⟨sigJ, -, h⟩ := Option.bind_eq_some_iff.1 h
    obtain ⟨gcdPoly, -, h⟩ := Option.bind_eq_some_iff.1 h
    obtain ⟨⟨deg, mylcm⟩, -, h⟩ := Option.bind_eq_some_iff.1 h
    have hst : (if deg < st.minDeg then ⟨some (i, j), deg⟩ else st : Seeds).seeds = some (a, b) →
        st.seeds = some (a, b) ∨ (a = i ∧ b ∈ j :: js) := by
      intro h
      split at h
      · obtain ⟨rfl, rfl⟩ : i = a ∧ j = b := by simpa using h
        exact .inr ⟨rfl, List.mem_cons_self⟩
      · exact .inl h
    dsimp only at h
    split at h
    · obtain rfl := Option.some.inj h
      exact hst hseeds
    · rcases ih h with h | ⟨ha, hb⟩
      · exact hst h
      · exact .inr ⟨ha, List.mem_cons_of_mem _ hb⟩

theorem findSeeds_seeds {st st' : Seeds} (h : findSeeds fuel metric sigList is st = some st')
    (hseeds : st'.seeds = some (a, b)) : st.seeds = some (a, b) ∨ (a ∈ is ∧ b ∈ is) := by
  induction is generalizing st with
  | nil =>
    obtain rfl := Option.some.inj h
    exact .inl hseeds
  | cons i is ih =>
    obtain ⟨st₁, h₁, h⟩ := Option.bind_eq_some_iff.1 h
    rcases ih h with h | ⟨ha, hb⟩
    · rcases seedsWith_seeds h₁ h with h | ⟨rfl, hb⟩
      · exact .inl h
      · exact .inr ⟨List.mem_cons_self, List.mem_cons_of_mem _ hb⟩
    · exact .inr ⟨List.mem_cons_of_mem _ ha, List.mem_cons_of_mem _ hb⟩

theorem findSeeds_append_eq_none
    (h : ∀ st, findSeeds fuel metric sigList js st = none) (is : List Nat) (st : Seeds) :
    findSeeds fuel metric sigList (is ++ js) st = none := by
  induction is generalizing st with
  | nil => exact h st
  | cons i is ih => exact Option.bind_eq_none_iff.2 fun st' _ => ih st'

/-- The degree of an entry as an `int`. -/
def degree (sigList : List Sig) (i : Nat) : Int := Words.toInt (fullDegree (sigList.getD i []))

theorem exists_sign {d : Nat → Int} {l : List Nat} (h : l.Pairwise (d · ≤ d ·)) :
    ∃ neg pos, l = neg ++ pos ∧ (∀ i ∈ neg, d i < 0) ∧ ∀ i ∈ pos, 0 ≤ d i := by
  induction l with
  | nil => exact ⟨[], [], rfl, by simp, by simp⟩
  | cons i l ih =>
    obtain ⟨hi, hl⟩ := List.pairwise_cons.1 h
    by_cases hneg : d i < 0
    · obtain ⟨neg, pos, rfl, hn, hp⟩ := ih hl
      exact ⟨i :: neg, pos, rfl, List.forall_mem_cons.2 ⟨hneg, hn⟩, hp⟩
    · have hle : 0 ≤ d i := not_lt.1 hneg
      exact ⟨[], i :: l, rfl, by simp,
        List.forall_mem_cons.2 ⟨hle, fun j hj => hle.trans (hi j hj)⟩⟩

theorem take_reverse_cases {neg pos : List Nat} (hpos : pos ≠ []) (n : Nat) :
    (∃ is i j js, (neg ++ pos).reverse.take n = is ++ i :: j :: js ∧ i ∈ pos ∧ j ∈ neg) ∨
      (neg ++ pos).reverse.take n ⊆ pos := by
  rw [List.reverse_append, List.take_append]
  rcases hneg : neg.reverse.take (n - pos.reverse.length) with - | ⟨j, js⟩
  · right
    intro i hi
    rw [List.append_nil] at hi
    exact List.mem_reverse.1 (List.mem_of_mem_take hi)
  · left
    have hj : j ∈ neg := by
      have hmem : j ∈ neg.reverse.take (n - pos.reverse.length) := by
        rw [hneg]
        exact List.mem_cons_self
      exact List.mem_reverse.1 (List.mem_of_mem_take hmem)
    have hlen : pos.reverse.length ≤ n := by
      by_contra hlt
      rw [Nat.sub_eq_zero_of_le (by omega), List.take_zero] at hneg
      cases hneg
    obtain ⟨i, pos, rfl⟩ := List.exists_cons_of_ne_nil hpos
    exact ⟨pos.reverse, i, j, js, by rw [List.take_of_length_le hlen]; simp, by simp, hj⟩

theorem SigMaps.Reads.sorted_perm {m : SigMaps} (h : m.Reads sigList) :
    (m.sortedSigList.map Prod.snd).Perm (uniques sigList) := by
  have hperm := foldl_insertByDegree_perm (degree sigList) (uniques sigList) []
  rw [h.sorted]
  simpa [degree, Function.comp_def] using hperm.map Prod.snd

theorem SigMaps.Reads.sorted_degrees {m : SigMaps} (h : m.Reads sigList) :
    (m.sortedSigList.map Prod.snd).Pairwise (degree sigList · ≤ degree sigList ·) := by
  have hperm := foldl_insertByDegree_perm (degree sigList) (uniques sigList) []
  have hsorted := foldl_insertByDegree_sorted (l := []) (by simp) (degree sigList) (uniques sigList)
  rw [h.sorted, List.pairwise_map]
  refine hsorted.imp_of_mem fun {x y} hx hy hle => ?_
  have hdeg : ∀ {x}, x ∈ (uniques sigList).foldl (fun l i => insertByDegree (degree sigList i) i l)
      [] → x.1 = degree sigList x.2 := by
    intro x hx
    rw [hperm.mem_iff, List.append_nil, List.mem_map] at hx
    obtain ⟨i, -, rfl⟩ := hx
    rfl
  rwa [← hdeg hx, ← hdeg hy]

variable (hs : ∀ s ∈ sigList, Normalized s) (hlt : ∀ s ∈ sigList, fullDegree s < 2 ^ 32)

include hs hlt

theorem fitsInt_iff (hi : i < sigList.length) :
    FitsInt (sigList.getD i []) ↔ 0 ≤ degree sigList i := by
  have hmem := getD_mem hi
  constructor
  · intro hfit
    rw [degree, Words.toInt_fullDegree (hs _ hmem).ne_nil hfit]
    exact fullDegree_nonneg (hs _ hmem)
  · intro hpos
    by_contra hfit
    exact not_lt.2 hpos (Words.toInt_neg (not_le.1 hfit) (hlt _ hmem))

theorem gcdSpecial_wraps (hi : i < sigList.length) (hj : j < sigList.length)
    (hpos : 0 ≤ degree sigList i) (hneg : degree sigList j < 0) :
    Words.gcdSpecial fuel (sigList.getD i []) (sigList.getD j []) = none := by
  have hfi := (fitsInt_iff hs hlt hi).2 hpos
  have hfj : ¬ FitsInt (sigList.getD j []) := by
    rw [fitsInt_iff hs hlt hj]
    exact not_le.2 hneg
  exact (Words.gcdSpecial_eq_none (hs _ (getD_mem hi)) hfi (hs _ (getD_mem hj)) hfj
    (hlt _ (getD_mem hj)) fuel).1

theorem findSeeds_wraps (hi : i < sigList.length) (hj : j < sigList.length)
    (hpos : 0 ≤ degree sigList i) (hneg : degree sigList j < 0) (is js : List Nat) (st : Seeds) :
    findSeeds fuel metric sigList (is ++ i :: j :: js) st = none := by
  refine findSeeds_append_eq_none (fun st => ?_) is st
  rw [findSeeds, seedsWith, getElem?_eq_getD hi, getElem?_eq_getD hj]
  simp only [Option.bind_eq_bind, Option.bind_some, gcdSpecial_wraps hs hlt hi hj hpos hneg,
    Option.bind_none]

theorem groupStep_wraps {g : Groups} (hi : i < sigList.length) (hj : j < sigList.length)
    (hpos : 0 ≤ degree sigList i) (hneg : degree sigList j < 0) (h : g.lcm1 = sigList.getD i []) :
    groupStep fuel metric sigList g j = none := by
  rw [groupStep, getElem?_eq_getD hj, h]
  simp only [Option.bind_eq_bind, Option.bind_some, gcdSpecial_wraps hs hlt hi hj hpos hneg,
    Option.bind_none]

/-- Where one degree is an `int` and another one is not, the two meet: in the search for the seeds,
or when the entry of the lowest degree joins a group. -/
theorem splitNode_eq_none (hfit : ∃ s ∈ sigList, FitsInt s) (hwrap : ∃ s ∈ sigList, ¬ FitsInt s) :
    splitNode fuel MAXENTRIES metric sigList = none := by
  obtain ⟨maps, hmaps, h⟩ := sigMaps_reads fun s hmem => (hs s hmem).ne_nil
  have hperm := h.sorted_perm
  obtain ⟨neg, pos, hsplit, hneg, hpos⟩ := exists_sign h.sorted_degrees
  have hindex : ∀ {i}, i ∈ neg ++ pos → i < sigList.length := by
    intro i hi
    rw [← hsplit] at hi
    exact (mem_uniques.1 (hperm.mem_iff.1 hi)).1
  have hfirst : ∀ s ∈ sigList, ∃ i ∈ neg ++ pos, sigList.getD i [] = s := by
    intro s hs
    obtain ⟨k, hk, rfl⟩ := List.getElem_of_mem hs
    obtain ⟨i, hi, he⟩ := exists_unique_first hk
    refine ⟨i, ?_, he.trans (List.getD_eq_getElem ..)⟩
    rw [← hsplit]
    exact hperm.mem_iff.2 hi
  obtain ⟨p, hp⟩ : ∃ p, p ∈ pos := by
    obtain ⟨s, hs', hfit⟩ := hfit
    obtain ⟨i, hi, rfl⟩ := hfirst s hs'
    rw [fitsInt_iff hs hlt (hindex hi)] at hfit
    exact ⟨i, (List.mem_append.1 hi).resolve_left fun hn => not_lt.2 hfit (hneg i hn)⟩
  obtain ⟨n, hn⟩ : ∃ n, n ∈ neg := by
    obtain ⟨s, hs', hwrap⟩ := hwrap
    obtain ⟨i, hi, rfl⟩ := hfirst s hs'
    rw [fitsInt_iff hs hlt (hindex hi)] at hwrap
    exact ⟨i, (List.mem_append.1 hi).resolve_right fun hp => hwrap (hpos i hp)⟩
  have hkeys := h.keys_perm.length_eq
  have hlen := hperm.length_eq
  have hnlen := List.length_pos_of_mem hn
  have hplen := List.length_pos_of_mem hp
  rw [hsplit, List.length_append] at hlen
  rw [splitNode, hmaps, Option.bind_eq_bind, Option.bind_some]
  rcases he : maps.uniqueSigList.entries with - | ⟨⟨s, e⟩, - | ⟨e', es⟩⟩
  · rfl
  · simp only [SortedMap.keys, he, List.length_map, List.length_singleton] at hkeys
    omega
  · simp only [hsplit, Option.bind_eq_bind]
    rcases take_reverse_cases (List.ne_nil_of_mem hp) MAXSIGS with
      ⟨is, i, j, js, htop, hi, hj⟩ | htop
    · rw [htop, findSeeds_wraps hs hlt (hindex (List.mem_append_right _ hi))
        (hindex (List.mem_append_left _ hj)) (hpos i hi) (hneg j hj), Option.bind_none]
    · refine Option.bind_eq_none_iff.2 fun st hst => Option.bind_eq_none_iff.2 ?_
      rintro ⟨a, b⟩ hseeds
      obtain ⟨ha, hb⟩ := (findSeeds_seeds hst hseeds).resolve_left (by simp)
      obtain ⟨i, neg, rfl⟩ := List.exists_cons_of_ne_nil (List.ne_nil_of_mem hn)
      have hi := hneg i List.mem_cons_self
      have hne : ∀ {a}, a ∈ pos → i ≠ a := by
        rintro a ha rfl
        exact not_lt.2 (hpos i ha) hi
      have hia := hindex (List.mem_append_right _ (htop ha))
      have hib := hindex (List.mem_append_right _ (htop hb))
      simp only [getElem?_eq_getD hia, getElem?_eq_getD hib, Option.bind_some]
      rw [List.cons_append, List.filter_cons_of_pos (by simp [hne (htop ha), hne (htop hb)]),
        List.foldlM_cons, groupStep_wraps hs hlt hia (hindex List.mem_cons_self)
          (hpos a (htop ha)) hi rfl]
      rfl

end Wraps

end Maps

section SplitNode

variable {sigList : List Sig} {metric : Bool} {MAXENTRIES : Nat}

theorem uniques_ne_nil (h : sigList ≠ []) : uniques sigList ≠ [] := by
  intro hu
  obtain ⟨i, hi, -⟩ := exists_unique_first (List.length_pos_iff.2 h)
  simp [hu] at hi

theorem same_of_uniques (hu : uniques sigList = [i]) (hs : s ∈ sigList) :
    s = sigList.getD i [] := by
  obtain ⟨k, hk, rfl⟩ := List.getElem_of_mem hs
  obtain ⟨j, hj, hjk⟩ := exists_unique_first hk
  rw [hu, List.mem_singleton] at hj
  rw [← hj, hjk, List.getD_eq_getElem _ _ hk]

theorem not_same_of_uniques (hu : uniques sigList = i :: j :: is) :
    ¬ ∀ s ∈ sigList, ∀ t ∈ sigList, s = t := by
  have hi : i ∈ uniques sigList := by simp [hu]
  have hj : j ∈ uniques sigList := by simp [hu]
  have hne : i ≠ j := by
    have hnodup : (uniques sigList).Nodup := nodup_uniques
    rw [hu] at hnodup
    rintro rfl
    simp at hnodup
  intro h
  exact getD_ne hi hj hne
    (h _ (getD_mem (mem_uniques.1 hi).1) _ (getD_mem (mem_uniques.1 hj).1))

/-- A full node is shared out between two groups that are not empty. -/
def SharesOut (MAXENTRIES : Nat) (metric : Bool) (sigList : List Sig) : Prop :=
  ∃ g, Returns (Maps.splitNode · MAXENTRIES metric sigList) g ∧ g.group1 ≠ [] ∧ g.group2 ≠ [] ∧
    g.group1.Disjoint g.group2 ∧ (g.group1 ++ g.group2).Perm (List.range' 1 MAXENTRIES) ∧
    ((∀ s ∈ sigList, ∀ t ∈ sigList, s = t) ∨
      ∀ p ∈ List.range' 1 MAXENTRIES, ∀ q ∈ List.range' 1 MAXENTRIES,
        sigList.getD (p - 1) [] = sigList.getD (q - 1) [] → (p ∈ g.group1 ↔ q ∈ g.group1))

theorem sharesOut_of_fit (hmax : 2 ≤ sigList.length) (hs : ∀ s ∈ sigList, Normalized s)
    (hfit : DegreesFit metric sigList) : SharesOut sigList.length metric sigList := by
  have hdisjoint : ∀ {l₁ l₂ : List Nat}, (l₁ ++ l₂).Perm (List.range' 1 sigList.length) →
      l₁.Disjoint l₂ :=
    fun h => List.disjoint_of_nodup_append (h.nodup_iff.2 List.nodup_range')
  rcases hu : uniques sigList with - | ⟨i, - | ⟨j, is⟩⟩
  · exact (uniques_ne_nil (List.length_pos_iff.1 (by omega)) hu).elim
  · have hpart : Groups.Partition metric sigList _ _ :=
      identical_partition (getD_normalized hs (hu ▸ List.mem_cons_self)) hu
    refine ⟨_, Maps.splitNode_returns hs hfit (by simp only [splitNode, hu]), ?_, ?_,
      hdisjoint hpart.perm, hpart.perm, .inl ?_⟩
    · rw [ne_eq, List.range'_eq_nil_iff]
      omega
    · rw [ne_eq, List.range'_eq_nil_iff]
      omega
    · intro s hs t ht
      rw [same_of_uniques hu hs, same_of_uniques hu ht]
  · obtain ⟨⟨a, b⟩, hseeds⟩ := findSeeds_isSome hs hfit.1 hu
    obtain ⟨ha, hb, hne⟩ := findSeeds_uniques hseeds
    obtain ⟨hmem₁, hmem₂⟩ := seeds_mem_splitWith metric sigList a b
    have hpart := splitWith_partition hs ha hb hne metric
    exact ⟨_, Maps.splitNode_returns hs hfit (splitNode_of_seeds hs hu hseeds),
      List.ne_nil_of_mem hmem₁, List.ne_nil_of_mem hmem₂, hdisjoint hpart.perm, hpart.perm,
      .inr fun p hp q hq he => splitWith_same hs ha hb hne hp hq he⟩

theorem not_sharesOut (h : ∀ fuel, Maps.splitNode fuel MAXENTRIES metric sigList = none) :
    ¬ SharesOut MAXENTRIES metric sigList := by
  rintro ⟨g, hg, -⟩
  obtain ⟨fuel, hg⟩ := hg.exists
  rw [h] at hg
  cases hg

/-- `splitNode` shares a node out if the degrees that it computes are those of an `int`. Of degrees
below `2 ^ 32`, one of which is an `int`, those of the signatures have to be. -/
theorem splitNode_shares (hlen : sigList.length = MAXENTRIES) (hmax : 2 ≤ MAXENTRIES)
    (hs : ∀ s ∈ sigList, Normalized s) :
    (DegreesFit metric sigList → SharesOut MAXENTRIES metric sigList) ∧
      ((∃ s ∈ sigList, FitsInt s) → (∀ s ∈ sigList, fullDegree s < 2 ^ 32) →
        SharesOut MAXENTRIES metric sigList → ∀ s ∈ sigList, FitsInt s) := by
  subst hlen
  refine ⟨sharesOut_of_fit hmax hs, fun hfit hlt hshares s hmem => ?_⟩
  by_contra hwrap
  exact not_sharesOut (fun _ => Maps.splitNode_eq_none hs hlt hfit ⟨s, hmem, hwrap⟩) hshares

theorem splitNode_shares_three : SharesOut 3 true [[2], [3], [2]] :=
  (splitNode_shares rfl (by decide) (by decide)).1 (by decide +kernel)

theorem not_sharesOut_wordPow {words : Nat} (h : 32 * (words : Int) = INT_MAX + 1)
    (metric : Bool) : (∀ fuel, Maps.splitNode fuel 2 metric [[2], wordPow words] = none) ∧
      ¬ SharesOut 2 metric [[2], wordPow words] := by
  have hlt : fullDegree (wordPow words) < 2 ^ 32 := by
    rw [fullDegree_wordPow, h]
    decide
  have hwrap : ¬ FitsInt (wordPow words) := not_fitsInt_wordPow (by omega)
  have hnone : ∀ fuel, Maps.splitNode fuel 2 metric [[2], wordPow words] = none := by
    intro fuel
    apply Maps.splitNode_eq_none
    · simpa using ⟨by decide, wordPow_normalized words⟩
    · simpa using ⟨by decide, hlt⟩
    · exact ⟨[2], by simp, by decide⟩
    · exact ⟨wordPow words, by simp, hwrap⟩
  exact ⟨hnone, not_sharesOut hnone⟩

/-- No seeds are found where a degree is no `int`. -/
theorem splitNode_finds_no_seeds : Normalized [2] ∧ Normalized (wordPow 67108864) ∧
    (∀ fuel, Maps.splitNode fuel 2 true [[2], wordPow 67108864] = none) ∧
    ¬ SharesOut 2 true [[2], wordPow 67108864] :=
  ⟨by decide, wordPow_normalized _, not_sharesOut_wordPow (by norm_num [INT_MAX]) true⟩

def gcdDegree (sigList : List Sig) (p : Nat × Nat) : Int :=
  fullDegree (gcdSpecial (sigList.getD p.1 []) (sigList.getD p.2 []))

theorem splitNode_false_iff (hs : ∀ s ∈ sigList, Normalized s) (hfit : ∀ s ∈ sigList, FitsInt s)
    (hu : uniques sigList = i :: j :: is) :
    (∃ g, splitNode sigList.length false sigList = some g ∧ g.Covers sigList) ↔
      ∃ a b, (pairs (topSigs sigList)).argmin (gcdDegree sigList) = some (a, b) ∧ ∀ s ∈ sigList,
        poly s ∣ poly (sigList.getD a []) ∨ poly s ∣ poly (sigList.getD b []) := by
  have hseeds : (findSeeds false sigList (topSigs sigList) ⟨none, INT_MAX⟩).seeds =
      ((pairs (topSigs sigList)).argmin (gcdDegree sigList)).filter
        (gcdDegree sigList · < INT_MAX) := findSeeds_topSigs hs false
  have hfound : ∀ {a b}, (pairs (topSigs sigList)).argmin (gcdDegree sigList) = some (a, b) →
      (findSeeds false sigList (topSigs sigList) ⟨none, INT_MAX⟩).seeds = some (a, b) := by
    intro a b hmin
    obtain ⟨p, hp⟩ := findSeeds_isSome hs hfit hu
    rw [hp]
    obtain ⟨hmin', -⟩ := Option.filter_eq_some_iff.1 (hseeds.symm.trans hp)
    exact hmin'.symm.trans hmin
  constructor
  · rintro ⟨g, hg, hcovers⟩
    rw [splitNode_of_distinct hu] at hg
    obtain ⟨⟨a, b⟩, hab, hg⟩ := Option.bind_eq_some_iff.1 hg
    obtain ⟨ha, hb, -⟩ := findSeeds_uniques hab
    obtain ⟨hmin, -⟩ := Option.filter_eq_some_iff.1 (hseeds.symm.trans hab)
    obtain ⟨-, hg⟩ := Option.ite_none_right_eq_some.1 hg
    obtain rfl := Option.some.inj hg
    exact ⟨a, b, hmin, (splitWith_covers_iff hs ha hb).1 hcovers⟩
  · rintro ⟨a, b, hmin, hdvd⟩
    have hab := hfound hmin
    obtain ⟨ha, hb, -⟩ := findSeeds_uniques hab
    exact ⟨_, splitNode_of_seeds hs hu hab, (splitWith_covers_iff hs ha hb).2 hdvd⟩

/-- The multiples cover their groups if the metric is computed, which leaves them behind, if all
signatures are the same, or if the two seeds cover all of the node. -/
theorem splitNode_covers_iff (hne : sigList ≠ []) (hs : ∀ s ∈ sigList, Normalized s)
    (hfit : DegreesFit metric sigList) :
    (∃ g, Returns (Maps.splitNode · sigList.length metric sigList) g ∧ g.Covers sigList) ↔
      metric = true ∨ (∀ s ∈ sigList, ∀ t ∈ sigList, s = t) ∨
        ∃ a b, (pairs (topSigs sigList)).argmin (gcdDegree sigList) = some (a, b) ∧
          ∀ s ∈ sigList, poly s ∣ poly (sigList.getD a []) ∨ poly s ∣ poly (sigList.getD b []) := by
  rw [Maps.exists_returns_iff hs hfit]
  rcases hu : uniques sigList with - | ⟨i, - | ⟨j, is⟩⟩
  · exact (uniques_ne_nil hne hu).elim
  · have hpart : Groups.Partition true sigList _ _ :=
      identical_partition (getD_normalized hs (hu ▸ List.mem_cons_self)) hu
    refine iff_of_true ⟨_, by simp only [splitNode, hu], hpart.cover1 rfl, hpart.cover2 rfl⟩
      (.inr (.inl fun s hs t ht => ?_))
    rw [same_of_uniques hu hs, same_of_uniques hu ht]
  · cases metric with
    | true =>
      obtain ⟨⟨a, b⟩, hseeds⟩ := findSeeds_isSome hs hfit.1 hu
      obtain ⟨ha, hb, hne⟩ := findSeeds_uniques hseeds
      have hpart := splitWith_partition hs ha hb hne true
      exact iff_of_true ⟨_, splitNode_of_seeds hs hu hseeds, hpart.cover1 rfl, hpart.cover2 rfl⟩
        (.inl rfl)
    | false =>
      rw [splitNode_false_iff hs hfit.1 hu, or_iff_right (by simp),
        or_iff_right (not_same_of_uniques hu)]

theorem splitNode_covers_three : ∃ g, Returns (Maps.splitNode · 3 true [[2], [3], [7]]) g ∧
    g.Covers [[2], [3], [7]] := by
  have hs : ∀ s ∈ ([[2], [3], [7]] : List Sig), Normalized s := by decide
  exact (splitNode_covers_iff (by simp) hs (by decide +kernel)).2 (.inl rfl)

/-- The signature of the first entry does not divide the one of the third, with which it is. -/
theorem splitNode_misses_one : ∃ g, Returns (Maps.splitNode · 3 false [[2], [3], [7]]) g ∧
    1 ∈ g.group1 ∧ ¬ poly ([2] : Sig) ∣ poly g.lcm1 := by
  have hs : ∀ s ∈ ([[2], [3], [7]] : List Sig), Normalized s := by decide
  have hfit : DegreesFit false [[2], [3], [7]] := by decide
  have hsplit : splitNode 3 false [[2], [3], [7]] = some ⟨[3, 1], [2], [7], [3]⟩ := by
    decide +kernel
  refine ⟨_, Maps.splitNode_returns hs hfit hsplit, by simp, ?_⟩
  rw [dvd_iff_fullDegree_gcdSpecial (by decide) (by decide)]
  decide +kernel

end SplitNode

end XGossip
