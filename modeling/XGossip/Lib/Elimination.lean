import Mathlib.Algebra.BigOperators.Field
import Mathlib.Algebra.BigOperators.Group.Finset.Sigma
import Mathlib.Tactic.Ring

set_option autoImplicit true

namespace Elimination

open Finset

variable {K : Type*} [Field K] {m k : ℕ} {A T : ℕ → ℕ → K}

/-- One step with the pivot on the diagonal: its row is scaled and taken off the other rows. -/
def eliminate (T : ℕ → ℕ → K) (r : ℕ) : ℕ → ℕ → K := fun i c =>
  if i = r then T r c / T r r else T i c - T i r * (T r c / T r r)

/-- The first `m` columns are the matrix, the next ones the unit matrix. -/
def augment (m : ℕ) (A : ℕ → ℕ → K) : ℕ → ℕ → K := fun i c =>
  if c < m then A i c else if i = c - m then 1 else 0

def reduce (m : ℕ) (A : ℕ → ℕ → K) : ℕ → ℕ → ℕ → K
  | 0 => augment m A
  | r + 1 => eliminate (reduce m A r) r

/-- No row is swapped, so that the first pivots have to be there. -/
def Pivots (m : ℕ) (A : ℕ → ℕ → K) (k : ℕ) : Prop := ∀ r < k, reduce m A r r r ≠ 0

theorem eliminate_self (T : ℕ → ℕ → K) (r c : ℕ) : eliminate T r r c = T r c / T r r := if_pos rfl

theorem eliminate_ne (h : i ≠ r) : eliminate T r i c = T i c - T i r * (T r c / T r r) := if_neg h

theorem Pivots.mono (h : Pivots m A k) (hl : l ≤ k) : Pivots m A l := fun r hr =>
  h r (hr.trans_le hl)

theorem pivots_succ : Pivots m A (k + 1) ↔ Pivots m A k ∧ reduce m A k k k ≠ 0 :=
  ⟨fun h => ⟨h.mono (Nat.le_succ k), h k (Nat.lt_succ_self k)⟩, fun h r hr =>
    (Nat.lt_or_eq_of_le (Nat.le_of_lt_succ hr)).elim (h.1 r) fun he => he ▸ h.2⟩

theorem reduce_unit (h : Pivots m A k) (hc : c < k) (i : ℕ) :
    reduce m A k i c = if i = c then 1 else 0 := by
  induction k generalizing i with
  | zero => omega
  | succ k ih =>
    obtain ⟨hk, hpivot⟩ := pivots_succ.1 h
    rw [reduce]
    rcases Nat.lt_or_eq_of_le (Nat.le_of_lt_succ hc) with hlt | rfl
    · have hzero : reduce m A k k c = 0 := by rw [ih hk hlt, if_neg (by omega)]
      by_cases hi : i = k
      · subst hi
        rw [eliminate_self, hzero, zero_div, if_neg (by omega)]
      · rw [eliminate_ne hi, hzero, zero_div, mul_zero, sub_zero, ih hk hlt]
    · by_cases hi : i = c
      · subst hi
        rw [eliminate_self, div_self hpivot, if_pos rfl]
      · rw [eliminate_ne hi, div_self hpivot, mul_one, sub_self, if_neg hi]

theorem reduce_right (hk : k ≤ m) (hi : i < m) (hc : c < m) :
    reduce m A k i c = ∑ j ∈ range m, reduce m A k i (m + j) * A j c := by
  induction k generalizing i with
  | zero =>
    have hterm : ∀ j, reduce m A 0 i (m + j) = if i = j then 1 else 0 := fun j => by
      rw [reduce, augment, if_neg (by omega), Nat.add_sub_cancel_left]
    simp only [hterm, ite_mul, one_mul, zero_mul]
    rw [sum_ite_eq, if_pos (mem_range.2 hi), reduce, augment, if_pos hc]
  | succ k ih =>
    have hrow := ih (by omega) (show k < m by omega)
    by_cases hik : i = k
    · subst hik
      simp only [reduce, eliminate_self, hrow, sum_div, div_mul_eq_mul_div]
    · have hrow' := ih (by omega) hi
      simp only [reduce, eliminate_ne hik]
      rw [hrow', hrow, sum_div, mul_sum, ← sum_sub_distrib]
      refine sum_congr rfl fun j _ => ?_
      ring

theorem reduce_inverse (h : Pivots m A m) (hi : i < m) (hc : c < m) :
    ∑ j ∈ range m, reduce m A m i (m + j) * A j c = if i = c then 1 else 0 := by
  rw [← reduce_right (Nat.le_refl m) hi hc, reduce_unit h hc]

theorem reduce_solves (h : Pivots m A m) (w : ℕ → K) (hi : i < m) :
    ∑ j ∈ range m, reduce m A m i (m + j) * ∑ c ∈ range m, A j c * w c = w i := by
  simp only [mul_sum]
  rw [sum_comm]
  have hcol : ∀ c ∈ range m, ∑ j ∈ range m, reduce m A m i (m + j) * (A j c * w c) =
      (if i = c then 1 else 0) * w c := by
    intro c hc
    rw [← reduce_inverse h hi (mem_range.1 hc), sum_mul]
    exact sum_congr rfl fun j _ => (mul_assoc ..).symm
  rw [sum_congr rfl hcol]
  simp only [ite_mul, one_mul, zero_mul]
  rw [sum_ite_eq, if_pos (mem_range.2 hi)]

section Regular

variable {u : ℕ → K}

def dot (m : ℕ) (row u : ℕ → K) : K := ∑ c ∈ range m, row c * u c

/-- The leading part of `k + 1` rows and columns is regular. -/
def RegularAt (m : ℕ) (A : ℕ → ℕ → K) (k : ℕ) : Prop :=
  ∀ u : ℕ → K, (∀ c, k < c → u c = 0) → (∀ i ≤ k, dot m (A i) u = 0) → ∀ c, u c = 0

def Regular (m : ℕ) (A : ℕ → ℕ → K) : Prop := ∀ k < m, RegularAt m A k

theorem dot_eliminate_self : dot m (eliminate T r r) u = dot m (T r) u / T r r := by
  simp only [dot, eliminate_self, sum_div, div_mul_eq_mul_div]

theorem dot_eliminate_ne (h : i ≠ r) :
    dot m (eliminate T r i) u = dot m (T i) u - T i r * (dot m (T r) u / T r r) := by
  simp only [dot, eliminate_ne h, sum_div, mul_sum, ← sum_sub_distrib]
  exact sum_congr rfl fun c _ => by ring

/-- Among the first rows a step changes no solutions. -/
theorem dot_reduce_iff (h : Pivots m A k) (hk : k ≤ n) :
    (∀ i < n, dot m (reduce m A k i) u = 0) ↔ ∀ i < n, dot m (A i) u = 0 := by
  induction k with
  | zero =>
    have hrow : ∀ i, dot m (reduce m A 0 i) u = dot m (A i) u := fun i =>
      sum_congr rfl fun c hc => by rw [reduce, augment, if_pos (mem_range.1 hc)]
    simp only [hrow]
  | succ k ih =>
    obtain ⟨hpre, hpivot⟩ := pivots_succ.1 h
    rw [← ih hpre (by omega)]
    constructor
    · intro hu
      have hzero : dot m (reduce m A k k) u = 0 := by
        have := hu k (by omega)
        rw [reduce, dot_eliminate_self, div_eq_zero_iff] at this
        exact this.resolve_right hpivot
      intro i hi
      by_cases hik : i = k
      · rw [hik, hzero]
      · have := hu i hi
        rwa [reduce, dot_eliminate_ne hik, hzero, zero_div, mul_zero, sub_zero] at this
    · intro hu i hi
      by_cases hik : i = k
      · rw [hik, reduce, dot_eliminate_self, hu k (by omega), zero_div]
      · rw [reduce, dot_eliminate_ne hik, hu i hi, hu k (by omega), zero_div, mul_zero, sub_zero]

theorem dot_reduce (h : Pivots m A k) (hk : k < m) (hu : ∀ c, k < c → u c = 0) (hi : i ≤ k) :
    dot m (reduce m A k i) u = (if i < k then u i else 0) + reduce m A k i k * u k := by
  have hterm : ∀ c ∈ range m, reduce m A k i c * u c =
      (if i = c then if i < k then u i else 0 else 0) +
        if k = c then reduce m A k i k * u k else 0 := by
    intro c _
    rcases Nat.lt_trichotomy c k with hlt | rfl | hgt
    · rw [reduce_unit h hlt]
      by_cases hic : i = c
      · subst hic
        simp [hlt, Nat.ne_of_gt hlt]
      · simp [hic, Nat.ne_of_gt hlt]
    · by_cases hic : i = c
      · simp [hic]
      · simp [hic]
    · rw [hu c hgt, mul_zero, if_neg (by omega), if_neg (by omega), add_zero]
  rw [dot, sum_congr rfl hterm, sum_add_distrib, sum_ite_eq, sum_ite_eq,
    if_pos (mem_range.2 (by omega)), if_pos (mem_range.2 hk)]

/-- The next pivot is there where the leading part up to it is regular. -/
theorem pivot_ne_zero_iff (h : Pivots m A k) (hk : k < m) :
    reduce m A k k k ≠ 0 ↔ RegularAt m A k := by
  constructor
  · intro hpivot u hu hdot c
    have hzero := (dot_reduce_iff (u := u) h (Nat.le_succ k)).2 fun i hi =>
      hdot i (Nat.le_of_lt_succ hi)
    have huk : u k = 0 := by
      have hrow := hzero k (Nat.lt_succ_self k)
      rw [dot_reduce h hk hu (Nat.le_refl k), if_neg (Nat.lt_irrefl k), zero_add] at hrow
      exact (mul_eq_zero.1 hrow).resolve_left hpivot
    rcases Nat.lt_trichotomy c k with hlt | rfl | hgt
    · have hrow := hzero c (by omega)
      rwa [dot_reduce h hk hu hlt.le, if_pos hlt, huk, mul_zero, add_zero] at hrow
    · exact huk
    · exact hu c hgt
  · intro hregular hpivot
    let u : ℕ → K := fun c => if c < k then reduce m A k c k else if c = k then -1 else 0
    have huk : u k = -1 := by simp [u]
    have hu : ∀ c, k < c → u c = 0 := fun c hc => by
      simp [u, Nat.not_lt.2 hc.le, Nat.ne_of_gt hc]
    have hdot : ∀ i < k + 1, dot m (reduce m A k i) u = 0 := by
      intro i hi
      rw [dot_reduce h hk hu (Nat.le_of_lt_succ hi), huk]
      rcases Nat.lt_or_eq_of_le (Nat.le_of_lt_succ hi) with hlt | rfl
      · have hui : u i = reduce m A k i k := if_pos hlt
        rw [if_pos hlt, hui]
        ring
      · rw [hpivot, if_neg (Nat.lt_irrefl i), zero_mul, add_zero]
    have hzero := hregular u hu (fun i hi =>
      (dot_reduce_iff h (Nat.le_succ k)).1 hdot i (Nat.lt_succ_of_le hi)) k
    rw [huk] at hzero
    exact neg_ne_zero.2 one_ne_zero hzero

theorem pivots_iff : Pivots m A m ↔ Regular m A := by
  have hle : ∀ k ≤ m, Pivots m A k ↔ ∀ j < k, RegularAt m A j := by
    intro k
    induction k with
    | zero => exact fun _ => ⟨fun _ _ h => absurd h (Nat.not_lt_zero _), fun _ _ h =>
        absurd h (Nat.not_lt_zero _)⟩
    | succ k ih =>
      intro hk
      rw [pivots_succ, Nat.forall_lt_succ_right, ← ih (by omega)]
      exact and_congr_right fun h => pivot_ne_zero_iff h hk
  exact hle m (Nat.le_refl m)

end Regular

end Elimination
