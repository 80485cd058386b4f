import Mathlib.Algebra.Field.Rat
import Mathlib.Data.Finset.Card
import Mathlib.Data.Multiset.UnionInter
import Mathlib.Tactic.FieldSimp
import XGossip.Sig

namespace XGossip
set_option autoImplicit true

section Code

/-- The loop of `set_inter_noskip`: the number of equal elements, and whether an element of `s2` was
repeated. -/
def setInterNoskipLoop (s1prev s2prev : POLY) (n s2skip : Nat) : Sig → Sig → Nat × Bool
  | a :: s1, b :: s2 =>
    let s2skip := if s1prev = a then s2skip else if s2prev = b then s2skip + 1 else s2skip
    if a < b then setInterNoskipLoop a s2prev n s2skip s1 (b :: s2)
    else if b < a then setInterNoskipLoop s1prev b n s2skip (a :: s1) s2
    else setInterNoskipLoop a b (n + 1) s2skip s1 s2
  | _, _ => (n, s2skip ≠ 0)
termination_by s1 s2 => s1.length + s2.length

def setInterNoskip (s1 s2 : Sig) : Nat × Bool := setInterNoskipLoop 0 0 0 0 s1 s2

/-- The loop of `set_inter`, which does not count duplicates. -/
def setInterLoop (s1prev s2prev : POLY) (n s2skip : Nat) : Sig → Sig → Nat × Bool
  | a :: s1, b :: s2 =>
    if s1prev = a then setInterLoop a s2prev n s2skip s1 (b :: s2)
    else if s2prev = b then setInterLoop s1prev b n (s2skip + 1) (a :: s1) s2
    else if a < b then setInterLoop a s2prev n s2skip s1 (b :: s2)
    else if b < a then setInterLoop s1prev b n s2skip (a :: s1) s2
    else setInterLoop a b (n + 1) s2skip s1 s2
  | _, _ => (n, s2skip ≠ 0)
termination_by s1 s2 => s1.length + s2.length

def setInter (s1 s2 : Sig) : Nat × Bool := setInterLoop 0 0 0 0 s1 s2

/-- The loops of `set_uni` for the rest of one signature when the other one has ended. -/
def setUniRest (prev : POLY) (n skip : Nat) : Sig → Nat × Nat
  | [] => (n, skip)
  | a :: s => if prev = a then setUniRest prev n (skip + 1) s else setUniRest a (n + 1) skip s

/-- The loop of `set_uni` from where it compares both iterators with the ends. -/
def setUniLoop (s1prev s2prev : POLY) (n s2skip : Nat) : Sig → Sig → Nat × Bool
  | [], s2 =>
    let (n, s2skip) := setUniRest s2prev n s2skip s2
    (n, s2skip ≠ 0)
  | s1, [] => ((setUniRest s1prev n 0 s1).1, s2skip ≠ 0)
  | a :: s1, b :: s2 =>
    if s1prev = a then setUniLoop s1prev s2prev n s2skip s1 (b :: s2)
    else if s2prev = b then setUniLoop s1prev s2prev n (s2skip + 1) (a :: s1) s2
    else if a < b then setUniLoop a s2prev (n + 1) s2skip s1 (b :: s2)
    else if b < a then setUniLoop s1prev b (n + 1) s2skip (a :: s1) s2
    else setUniLoop a b (n + 1) s2skip s1 s2
termination_by s1 s2 => s1.length + s2.length

/-- The first turn reads both iterators before it compares them with the ends: `none` if it reads
one that stands on its end. A duplicate of `s1prev` is skipped before the second one is read. -/
def setUni : Sig → Sig → Option (Nat × Bool)
  | [], _ => none
  | a :: s1, [] => if a = 0 then some (setUniLoop 0 0 0 0 s1 []) else none
  | a :: s1, b :: s2 => some (setUniLoop 0 0 0 0 (a :: s1) (b :: s2))

/-- A quotient of two `double`s; `none` if it is not a number. -/
def divide? (x y : ℚ) : Option ℚ := if y = 0 then none else some (x / y)

def signcmp (s1 s2 : Sig) : Option (Option ℚ × Bool) := do
  let (ninter, _) := setInter s1 s2
  let (nunion, multi) ← setUni s1 s2
  return (divide? ninter nunion, multi)

end Code

section Fresh

/-- The elements that are still to be counted behind `prev`. -/
def fresh (prev : POLY) (s : Sig) : Finset POLY := s.toFinset.erase prev

theorem fresh_cons_self (a : POLY) (s : Sig) : fresh a (a :: s) = fresh a s := by
  ext x
  simp only [fresh, Finset.mem_erase, List.mem_toFinset, List.mem_cons]
  tauto

theorem fresh_self (a : POLY) (s : Sig) : a ∉ fresh a s := Finset.notMem_erase _ _

theorem fresh_cons (h : (prev :: a :: s).Pairwise (· ≤ ·)) (hne : prev ≠ a) :
    fresh prev (a :: s) = insert a (fresh a s) := by
  obtain ⟨hle, hs⟩ := List.pairwise_cons.1 h
  have hprev : prev ∉ s := by
    intro hmem
    have h1 := hle a List.mem_cons_self
    have h2 := (List.pairwise_cons.1 hs).1 prev hmem
    exact hne (BitVec.le_antisymm h1 h2)
  ext x
  simp only [fresh, Finset.mem_erase, Finset.mem_insert, List.mem_toFinset, List.mem_cons]
  constructor
  · rintro ⟨hx, rfl | hmem⟩
    · exact .inl rfl
    · by_cases hxa : x = a
      · exact .inl hxa
      · exact .inr ⟨hxa, hmem⟩
  · rintro (rfl | ⟨hx, hmem⟩)
    · exact ⟨Ne.symm hne, .inl rfl⟩
    · exact ⟨fun he => hprev (he ▸ hmem), .inr hmem⟩

theorem not_mem_fresh (h : (prev :: b :: s).Pairwise (· ≤ ·)) (hlt : a < b) :
    a ∉ fresh prev (b :: s) := by
  intro hmem
  have hs := List.mem_toFinset.1 (Finset.mem_of_mem_erase hmem)
  obtain ⟨-, hb⟩ := List.pairwise_cons.1 h
  rcases List.mem_cons.1 hs with rfl | hs
  · exact BitVec.lt_irrefl _ hlt
  · exact BitVec.not_lt.2 ((List.pairwise_cons.1 hb).1 a hs) hlt

end Fresh

section Inter

/-- The loop counts the elements that both signatures still have. -/
theorem setInterLoop_spec (h1 : (s1prev :: s1).Pairwise (· ≤ ·))
    (h2 : (s2prev :: s2).Pairwise (· ≤ ·)) :
    (setInterLoop s1prev s2prev n s2skip s1 s2).1 =
      n + (fresh s1prev s1 ∩ fresh s2prev s2).card := by
  fun_induction setInterLoop s1prev s2prev n s2skip s1 s2 with
  | case1 s2prev n s2skip a s1 b s2 ih =>
    rw [ih (List.pairwise_cons.1 h1).2 h2, fresh_cons_self]
  | case2 s1prev n s2skip a s1 b s2 ha ih =>
    rw [ih h1 (List.pairwise_cons.1 h2).2, fresh_cons_self]
  | case3 s1prev s2prev n s2skip a s1 b s2 ha hb hlt ih =>
    rw [ih (List.pairwise_cons.1 h1).2 h2, fresh_cons h1 ha,
      Finset.insert_inter_of_notMem (not_mem_fresh h2 hlt)]
  | case4 s1prev s2prev n s2skip a s1 b s2 ha hb hlt hgt ih =>
    rw [ih h1 (List.pairwise_cons.1 h2).2, fresh_cons h2 hb,
      Finset.inter_insert_of_notMem (not_mem_fresh h1 hgt)]
  | case5 s1prev s2prev n s2skip a s1 b s2 ha hb hlt hgt ih =>
    obtain rfl : a = b := BitVec.le_antisymm (BitVec.not_lt.1 hgt) (BitVec.not_lt.1 hlt)
    rw [ih (List.pairwise_cons.1 h1).2 (List.pairwise_cons.1 h2).2, fresh_cons h1 ha,
      fresh_cons h2 hb, ← Finset.insert_inter_distrib, Finset.card_insert_of_notMem]
    · omega
    · exact fun hmem => fresh_self a s1 (Finset.mem_of_mem_inter_left hmem)
  | case6 s1prev s2prev n s2skip s1 s2 hend =>
    have hempty : fresh s1prev s1 ∩ fresh s2prev s2 = ∅ := by
      cases s1 with
      | nil => rw [fresh, List.toFinset_nil, Finset.erase_empty, Finset.empty_inter]
      | cons a s1 =>
        cases s2 with
        | nil => simp [fresh]
        | cons b s2 => exact (hend a s1 b s2 rfl rfl).elim
    rw [hempty, Finset.card_empty]
    rfl

theorem fresh_zero (h : 0 ∉ s) : fresh 0 s = s.toFinset :=
  Finset.erase_eq_of_notMem (mt List.mem_toFinset.1 h)

theorem pairwise_zero (h : s.Pairwise (· ≤ ·)) : ((0 : POLY) :: s).Pairwise (· ≤ ·) :=
  List.pairwise_cons.2 ⟨fun _ _ => BitVec.not_lt.1 BitVec.not_lt_zero, h⟩

theorem setInter_spec (h1 : s1.Pairwise (· ≤ ·)) (h2 : s2.Pairwise (· ≤ ·)) (hz1 : 0 ∉ s1)
    (hz2 : 0 ∉ s2) : (setInter s1 s2).1 = (s1.toFinset ∩ s2.toFinset).card := by
  rw [setInter, setInterLoop_spec (pairwise_zero h1) (pairwise_zero h2), Nat.zero_add,
    fresh_zero hz1, fresh_zero hz2]

theorem not_mem_of_lt (h : (b :: s).Pairwise (· ≤ ·)) (hlt : a < b) : a ∉ (b :: s : Sig) := by
  intro hmem
  rcases List.mem_cons.1 hmem with rfl | hmem
  · exact BitVec.lt_irrefl _ hlt
  · exact BitVec.not_lt.2 ((List.pairwise_cons.1 h).1 a hmem) hlt

/-- The loop that does not skip duplicates counts the intersection of the multisets. -/
theorem setInterNoskipLoop_spec (h1 : s1.Pairwise (· ≤ ·)) (h2 : s2.Pairwise (· ≤ ·)) :
    (setInterNoskipLoop s1prev s2prev n s2skip s1 s2).1 =
      n + ((s1 : Multiset POLY) ∩ (s2 : Multiset POLY)).card := by
  fun_induction setInterNoskipLoop s1prev s2prev n s2skip s1 s2 with
  | case1 s1prev s2prev n s2skip a s1 b s2 skip hlt ih =>
    have hmem : a ∉ ((b :: s2 : Sig) : Multiset POLY) := not_mem_of_lt h2 hlt
    rw [ih (List.pairwise_cons.1 h1).2 h2, ← Multiset.cons_coe a,
      Multiset.cons_inter_of_neg _ hmem]
  | case2 s1prev s2prev n s2skip a s1 b s2 skip hlt hgt ih =>
    have hmem : b ∉ ((a :: s1 : Sig) : Multiset POLY) := not_mem_of_lt h1 hgt
    rw [ih h1 (List.pairwise_cons.1 h2).2, Multiset.inter_comm, ← Multiset.cons_coe b,
      Multiset.inter_comm, Multiset.inter_comm _ (b ::ₘ _), Multiset.cons_inter_of_neg _ hmem,
      Multiset.inter_comm]
  | case3 s1prev s2prev n s2skip a s1 b s2 skip hlt hgt ih =>
    obtain rfl : a = b := BitVec.le_antisymm (BitVec.not_lt.1 hgt) (BitVec.not_lt.1 hlt)
    rw [ih (List.pairwise_cons.1 h1).2 (List.pairwise_cons.1 h2).2, ← Multiset.cons_coe a s1,
      ← Multiset.cons_coe a s2, Multiset.cons_inter_of_pos _ (Multiset.mem_cons_self a _),
      Multiset.erase_cons_head, Multiset.card_cons]
    omega
  | case4 s1prev s2prev n s2skip s1 s2 hend =>
    have hempty : (s1 : Multiset POLY) ∩ (s2 : Multiset POLY) = 0 := by
      cases s1 with
      | nil => exact Multiset.zero_inter _
      | cons a s1 =>
        cases s2 with
        | nil => exact Multiset.inter_zero _
        | cons b s2 => exact (hend a s1 b s2 rfl rfl).elim
    rw [hempty, Multiset.card_zero]
    rfl

theorem setInterNoskip_iff (h1 : s1.Pairwise (· ≤ ·)) (h2 : s2.Pairwise (· ≤ ·)) :
    (setInterNoskip s1 s2).1 = s1.length ↔ s1.Subperm s2 := by
  rw [setInterNoskip, setInterNoskipLoop_spec h1 h2, Nat.zero_add, ← Multiset.coe_card,
    ← Multiset.coe_le]
  constructor
  · intro h
    have heq := Multiset.eq_of_le_of_card_le
      (Multiset.inter_le_left (s := (s1 : Multiset POLY)) (t := s2)) h.ge
    exact heq ▸ Multiset.inter_le_right
  · intro h
    exact congrArg _ (le_antisymm Multiset.inter_le_left (Multiset.le_inter (le_refl _) h))

end Inter

section Uni

theorem setUniRest_spec (skip : Nat) (h : (prev :: s).Pairwise (· ≤ ·)) :
    (setUniRest prev n skip s).1 = n + (fresh prev s).card := by
  fun_induction setUniRest prev n skip s with
  | case1 => simp [fresh]
  | case2 n skip a s ih => rw [ih (List.pairwise_cons.1 h).2, fresh_cons_self]
  | case3 prev n skip a s ha ih =>
    rw [ih (List.pairwise_cons.1 h).2, fresh_cons h ha,
      Finset.card_insert_of_notMem (fresh_self a s)]
    omega

/-- The loop counts the elements that one of the signatures still has. -/
theorem setUniLoop_spec (n s2skip : Nat) (h1 : (s1prev :: s1).Pairwise (· ≤ ·))
    (h2 : (s2prev :: s2).Pairwise (· ≤ ·)) :
    (setUniLoop s1prev s2prev n s2skip s1 s2).1 =
      n + (fresh s1prev s1 ∪ fresh s2prev s2).card := by
  have hnil : ∀ prev, fresh prev [] = ∅ := fun prev => rfl
  fun_induction setUniLoop s1prev s2prev n s2skip s1 s2 with
  | case1 s1prev s2prev n s2skip s2 n' s2skip' hrest =>
    rw [hnil, Finset.empty_union, ← setUniRest_spec s2skip h2, hrest]
  | case2 s1prev s2prev n s2skip s1 hne =>
    rw [hnil, Finset.union_empty, ← setUniRest_spec 0 h1]
  | case3 s2prev n s2skip a s1 b s2 ih =>
    rw [ih (List.pairwise_cons.1 h1).2 h2, fresh_cons_self]
  | case4 s1prev n s2skip a s1 b s2 ha ih =>
    rw [ih h1 (List.pairwise_cons.1 h2).2, fresh_cons_self]
  | case5 s1prev s2prev n s2skip a s1 b s2 ha hb hlt ih =>
    rw [ih (List.pairwise_cons.1 h1).2 h2, fresh_cons h1 ha, Finset.insert_union,
      Finset.card_insert_of_notMem]
    · omega
    · rw [Finset.mem_union]
      exact not_or.2 ⟨fresh_self a s1, not_mem_fresh h2 hlt⟩
  | case6 s1prev s2prev n s2skip a s1 b s2 ha hb hlt hgt ih =>
    rw [ih h1 (List.pairwise_cons.1 h2).2, fresh_cons h2 hb, Finset.union_insert,
      Finset.card_insert_of_notMem]
    · omega
    · rw [Finset.mem_union]
      exact not_or.2 ⟨not_mem_fresh h1 hgt, fresh_self b s2⟩
  | case7 s1prev s2prev n s2skip a s1 b s2 ha hb hlt hgt ih =>
    obtain rfl : a = b := BitVec.le_antisymm (BitVec.not_lt.1 hgt) (BitVec.not_lt.1 hlt)
    rw [ih (List.pairwise_cons.1 h1).2 (List.pairwise_cons.1 h2).2, fresh_cons h1 ha,
      fresh_cons h2 hb, ← Finset.insert_union_distrib, Finset.card_insert_of_notMem]
    · omega
    · rw [Finset.mem_union]
      exact not_or.2 ⟨fresh_self a s1, fresh_self a s2⟩

theorem setUni_eq (h1 : s1 ≠ []) (h2 : s2 ≠ []) : setUni s1 s2 = some (setUniLoop 0 0 0 0 s1 s2) := by
  cases s1 with
  | nil => exact (h1 rfl).elim
  | cons a s1 =>
    cases s2 with
    | nil => exact (h2 rfl).elim
    | cons b s2 => rfl

theorem setUni_spec (h1 : s1.Pairwise (· ≤ ·)) (h2 : s2.Pairwise (· ≤ ·)) (hz1 : 0 ∉ s1)
    (hz2 : 0 ∉ s2) (hne1 : s1 ≠ []) (hne2 : s2 ≠ []) :
    ∃ multi, setUni s1 s2 = some ((s1.toFinset ∪ s2.toFinset).card, multi) := by
  have hloop := setUniLoop_spec 0 0 (pairwise_zero h1) (pairwise_zero h2)
  rw [fresh_zero hz1, fresh_zero hz2, Nat.zero_add] at hloop
  rw [setUni_eq hne1 hne2, ← hloop]
  exact ⟨_, rfl⟩

end Uni

section Jaccard

structure Comparable (s : Sig) : Prop where
  sorted : s.Pairwise (· ≤ ·)
  nonempty : s ≠ []
  zeroFree : 0 ∉ s

def jaccard (A B : Finset POLY) : ℚ := (A ∩ B).card / (A ∪ B).card

theorem jaccard_comm (A B : Finset POLY) : jaccard A B = jaccard B A := by
  rw [jaccard, jaccard, Finset.inter_comm, Finset.union_comm]

theorem jaccard_eq_one_iff {A B : Finset POLY} (h : (A ∪ B).card ≠ 0) :
    jaccard A B = 1 ↔ A = B := by
  have hne : ((A ∪ B).card : ℚ) ≠ 0 := Nat.cast_ne_zero.2 h
  rw [jaccard, div_eq_one_iff_eq hne, Nat.cast_inj]
  constructor
  · intro hcard
    have heq : A ∩ B = A ∪ B := Finset.eq_of_subset_of_card_le
      (Finset.inter_subset_left.trans Finset.subset_union_left) hcard.ge
    exact inf_eq_sup.1 heq
  · rintro rfl
    rw [Finset.inter_self, Finset.union_self]

theorem Comparable.union_ne_zero (h : Comparable s1) (s2 : Sig) :
    (s1.toFinset ∪ s2.toFinset).card ≠ 0 := by
  obtain ⟨a, ha⟩ := List.exists_mem_of_ne_nil s1 h.nonempty
  exact Finset.card_ne_zero_of_mem (Finset.mem_union_left _ (List.mem_toFinset.2 ha))

theorem Comparable.signcmp_eq (h1 : Comparable s1) (h2 : Comparable s2) :
    ∃ multi, signcmp s1 s2 = some (some (jaccard s1.toFinset s2.toFinset), multi) := by
  obtain ⟨multi, huni⟩ := setUni_spec h1.sorted h2.sorted h1.zeroFree h2.zeroFree h1.nonempty
    h2.nonempty
  have hinter := setInter_spec h1.sorted h2.sorted h1.zeroFree h2.zeroFree
  refine ⟨multi, ?_⟩
  simp only [signcmp, huni, hinter, Option.bind_eq_bind, Option.bind_some, divide?,
    Nat.cast_eq_zero, h1.union_ne_zero s2, if_false]
  rfl

/-- `signcmp` is the Jaccard coefficient of the sets of the elements, the counts are those of their
intersection and union, and no iterator is read at its end. -/
theorem signcmp_jaccard (h1 : Comparable s1) (h2 : Comparable s2) :
    (setInter s1 s2).1 = (s1.toFinset ∩ s2.toFinset).card ∧
      (∃ multi, setUni s1 s2 = some ((s1.toFinset ∪ s2.toFinset).card, multi)) ∧
        (s1.toFinset ∪ s2.toFinset).card ≠ 0 ∧
          ∃ sim, (signcmp s1 s2).map Prod.fst = some (some sim) ∧
            sim = ((s1.toFinset ∩ s2.toFinset).card : ℚ) / (s1.toFinset ∪ s2.toFinset).card ∧
              (signcmp s2 s1).map Prod.fst = some (some sim) ∧
                (sim = 1 ↔ s1.toFinset = s2.toFinset) := by
  obtain ⟨multi, hcmp⟩ := h1.signcmp_eq h2
  obtain ⟨multi', hcmp'⟩ := h2.signcmp_eq h1
  have hne := h1.union_ne_zero s2
  refine ⟨setInter_spec h1.sorted h2.sorted h1.zeroFree h2.zeroFree, setUni_spec h1.sorted
    h2.sorted h1.zeroFree h2.zeroFree h1.nonempty h2.nonempty, hne, jaccard s1.toFinset s2.toFinset,
    ?_, rfl, ?_, jaccard_eq_one_iff hne⟩
  · rw [hcmp]
    rfl
  · rw [hcmp', jaccard_comm]
    rfl

theorem signcmp_jaccard_repeated :
    ∃ sim, (signcmp [3, 3, 7] [3, 7]).map Prod.fst = some (some sim) ∧ sim = 1 := by
  have h1 : Comparable [3, 3, 7] := ⟨by decide, by decide, by decide⟩
  have h2 : Comparable [3, 7] := ⟨by decide, by decide, by decide⟩
  obtain ⟨-, -, -, sim, hsim, -, -, hone⟩ := signcmp_jaccard h1 h2
  exact ⟨sim, hsim, hone.2 (by decide)⟩

end Jaccard

end XGossip
