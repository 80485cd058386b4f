import Mathlib.Algebra.Field.ZMod
import Mathlib.Algebra.Polynomial.FieldDivision

open Polynomial

namespace Gf2
set_option autoImplicit true

abbrev Word := BitVec 32

noncomputable def coeffOf (b : Bool) : ZMod 2 := if b then 1 else 0

theorem coeffOf_xor (a b : Bool) : coeffOf (a ^^ b) = coeffOf a + coeffOf b := by
  cases a <;> cases b <;> simp [coeffOf, CharTwo.add_self_eq_zero]

theorem coeffOf_inj (h : coeffOf a = coeffOf b) : a = b := by
  cases a <;> cases b <;> simp_all [coeffOf]

/-- The polynomial with the first `n` of these coefficients. -/
noncomputable def ofBits (n : Nat) (b : Nat → Bool) : (ZMod 2)[X] :=
  ∑ i ∈ Finset.range n, monomial i (coeffOf (b i))

theorem coeff_ofBits (h : ∀ i, n ≤ i → b i = false) : (ofBits n b).coeff i = coeffOf (b i) := by
  simp only [ofBits, finsetSum_coeff, coeff_monomial]
  by_cases hi : i < n
  · simp [hi]
  · simp [hi, h i (by omega), coeffOf]

/-- A number as a polynomial, bit `i` for the coefficient of `X ^ i`. -/
noncomputable def ofNat (a : Nat) : (ZMod 2)[X] := ofBits a a.testBit

@[simp] theorem coeff_ofNat (a i : Nat) : (ofNat a).coeff i = coeffOf (a.testBit i) := by
  apply coeff_ofBits
  intro i hi
  exact Nat.testBit_lt_two_pow (a.lt_two_pow_self.trans_le (Nat.pow_le_pow_right (by omega) hi))

@[simp] theorem ofNat_zero : ofNat 0 = 0 := by
  ext i
  simp [coeffOf]

theorem ofNat_xor (a b : Nat) : ofNat (a ^^^ b) = ofNat a + ofNat b := by
  ext i
  simp [coeffOf_xor]

theorem ofNat_shiftLeft (a k : Nat) : ofNat (a <<< k) = X ^ k * ofNat a := by
  ext i
  rw [coeff_ofNat, coeff_X_pow_mul', Nat.testBit_shiftLeft]
  split
  · simp_all
  · simp_all [coeffOf]

theorem ofNat_split (a k : Nat) : ofNat a = ofNat (a % 2 ^ k) + X ^ k * ofNat (a >>> k) := by
  ext i
  rw [coeff_add, coeff_X_pow_mul']
  simp only [coeff_ofNat, Nat.testBit_mod_two_pow, Nat.testBit_shiftRight]
  split
  · next h => simp [h, Nat.not_lt.2 h, coeffOf]
  · next h => simp [Nat.not_le.1 h]

theorem ofNat_one : ofNat 1 = 1 := by
  ext i
  rw [coeff_ofNat, coeff_one]
  cases i with
  | zero => simp [coeffOf]
  | succ i => simp [coeffOf, Nat.testBit_succ]

/-- The bits of a list of words, counted from the lowest bit of its first word: the first word has
the bits 0 to 31 and the words behind it the negative ones. -/
def lead : List Word → Int → Bool
  | [], _ => false
  | w :: ws, q => if q < 0 then lead ws (q + 32) else w.getLsbD q.toNat

def bit (ws : List Word) (p : Int) : Bool := lead ws (p - 32 * (ws.length - 1))

theorem lead_of_ge {ws : List Word} (h : 32 ≤ q) : lead ws q = false := by
  cases ws with
  | nil => rfl
  | cons w ws =>
    rw [lead, if_neg (by omega)]
    exact BitVec.getLsbD_of_ge _ _ (by omega)

theorem lead_of_lt {ws : List Word} (h : q < -32 * ((ws.length : Int) - 1)) : lead ws q = false := by
  induction ws generalizing q with
  | nil => rfl
  | cons w ws ih =>
    rw [List.length_cons] at h
    rw [lead, if_pos (by omega)]
    exact ih (by omega)

theorem bit_of_ge {ws : List Word} {p : Int} (h : 32 * ws.length ≤ p) : bit ws p = false := lead_of_ge (by omega)

theorem bit_of_neg {ws : List Word} (h : p < 0) : bit ws p = false := lead_of_lt (by omega)

theorem bit_cons (w : Word) (ws : List Word) (p : Int) : bit (w :: ws) p =
    if p < 32 * ws.length then bit ws p else w.getLsbD (p - 32 * ws.length).toNat := by
  rw [bit, List.length_cons, lead]
  have h₁ : p - 32 * ((ws.length + 1 : Nat) - 1 : Int) = p - 32 * ws.length := by omega
  rw [h₁]
  by_cases h : p < 32 * ws.length
  · rw [if_pos (by omega), if_pos h, bit]
    congr 1
    omega
  · rw [if_neg (by omega), if_neg h]

/-- The polynomial that a list of words stands for, most significant word first. -/
noncomputable def poly (ws : List Word) : (ZMod 2)[X] :=
  ofBits (32 * ws.length) fun i => bit ws i

@[simp] theorem coeff_poly (ws : List Word) (i : Nat) : (poly ws).coeff i = coeffOf (bit ws i) := by
  apply coeff_ofBits
  intro i hi
  exact bit_of_ge (by omega)

theorem poly_ext_bit (h : ∀ p : Int, 0 ≤ p → bit a p = bit b p) : poly a = poly b := by
  ext i
  rw [coeff_poly, coeff_poly, h i (by omega)]

theorem bit_eq_of_poly (h : poly a = poly b) (p : Int) : bit a p = bit b p := by
  by_cases hp : p < 0
  · rw [bit_of_neg hp, bit_of_neg hp]
  · have hc := congrArg (fun f => f.coeff p.toNat) h
    simp only [coeff_poly] at hc
    have hp' : (p.toNat : Int) = p := by omega
    rw [hp'] at hc
    exact coeffOf_inj hc

@[simp] theorem poly_nil : poly [] = 0 := by
  ext i
  simp [bit, lead, coeffOf]

theorem poly_cons (w : Word) (ws : List Word) :
    poly (w :: ws) = X ^ (32 * ws.length) * ofNat w.toNat + poly ws := by
  ext i
  rw [coeff_add, coeff_X_pow_mul', coeff_poly, coeff_poly, bit_cons]
  by_cases h : i < 32 * ws.length
  · rw [if_pos (by omega), if_neg (by omega), zero_add]
  · rw [if_neg (by omega), if_pos (by omega), bit_of_ge (by omega), coeff_ofNat]
    have hi : ((i : Int) - 32 * ws.length).toNat = i - 32 * ws.length := by omega
    simp [hi, coeffOf, BitVec.testBit_toNat]

theorem poly_concat (ws : List Word) (w : Word) :
    poly (ws ++ [w]) = X ^ 32 * poly ws + ofNat w.toNat := by
  induction ws with
  | nil => simp [poly_cons]
  | cons v ws ih =>
    rw [List.cons_append, poly_cons, poly_cons, ih, List.length_append, List.length_singleton]
    ring

theorem poly_singleton (w : Word) : poly [w] = ofNat w.toNat := by
  simp [poly_cons]

theorem poly_zero_word : poly [0] = 0 := by
  rw [poly_singleton]
  exact ofNat_zero

theorem poly_replicate_zero (k : Nat) : poly (List.replicate k 0) = 0 := by
  induction k with
  | zero => exact poly_nil
  | succ k ih =>
    rw [List.replicate_succ, poly_cons, ih]
    simp [ofNat_zero]

theorem poly_cons_replicate (w : Word) (k : Nat) :
    poly (w :: List.replicate k 0) = X ^ (32 * k) * poly [w] := by
  rw [poly_cons, poly_replicate_zero, poly_singleton, List.length_replicate, add_zero]

theorem poly_cons_replicate_dvd (w : Word) (k m : Nat) :
    poly (w :: List.replicate k 0) ∣ poly (w :: List.replicate (k + m) 0) := by
  rw [poly_cons_replicate, poly_cons_replicate, Nat.mul_add, pow_add, mul_right_comm]
  exact dvd_mul_right ..

def Normalized (ws : List Word) : Prop := ws.headD 0 ≠ 0

instance : Decidable (Normalized ws) := inferInstanceAs (Decidable (_ ≠ _))

theorem Normalized.ne_nil (h : Normalized ws) : ws ≠ [] := by
  rintro rfl
  exact h rfl

theorem normalized_of_bit {ws : List Word} {p : Int} (h : bit ws p = true)
    (hp : 32 * ((ws.length : Int) - 1) ≤ p) : Normalized ws := by
  cases ws with
  | nil => simp [bit, lead] at h
  | cons w ws =>
    intro hw
    rw [List.length_cons] at hp
    rw [bit_cons, if_neg (by omega), show w = 0 from hw] at h
    simp at h

theorem exists_top (h : w ≠ (0 : Word)) :
    ∃ d < 32, w.getLsbD d = true ∧ ∀ i, d < i → w.getLsbD i = false := by
  have hn : w.toNat ≠ 0 := by
    intro h0
    exact h (BitVec.eq_of_toNat_eq h0)
  have htop : ∀ i, w.toNat.log2 < i → w.getLsbD i = false := by
    intro i hi
    have hw : w.toNat < 2 ^ i := (Nat.log2_lt hn).1 hi
    exact Nat.testBit_lt_two_pow hw
  refine ⟨w.toNat.log2, ?_, Nat.testBit_log2 hn, htop⟩
  exact (Nat.log2_lt hn).2 w.isLt

theorem degree_poly (hd : w.getLsbD d = true) (htop : ∀ i, d < i → w.getLsbD i = false) :
    (poly (w :: l)).degree = (32 * l.length + d : Nat) := by
  apply le_antisymm
  · rw [degree_le_iff_coeff_zero]
    intro i hi
    have hi' : 32 * l.length + d < i := by exact_mod_cast hi
    rw [coeff_poly, bit_cons, if_neg (by omega), htop _ (by omega)]
    rfl
  · apply le_degree_of_ne_zero
    have hp : (((32 * l.length + d : Nat) : Int) - 32 * l.length).toNat = d := by omega
    rw [coeff_poly, bit_cons, if_neg (by omega), hp, hd]
    simp [coeffOf]

theorem Normalized.poly_ne_zero (h : Normalized ws) : poly ws ≠ 0 := by
  cases ws with
  | nil => exact (h rfl).elim
  | cons w ws =>
    have hw : w ≠ 0 := h
    obtain ⟨d, -, hd, htop⟩ := exists_top hw
    intro h0
    have hdeg := degree_poly (l := ws) hd htop
    rw [h0, degree_zero] at hdeg
    exact WithBot.bot_ne_coe hdeg

/-- Words of one length are determined by their polynomial. -/
theorem eq_of_poly_of_length (hl : a.length = b.length) (h : poly a = poly b) : a = b := by
  induction a generalizing b with
  | nil => exact (List.length_eq_zero_iff.1 hl.symm).symm
  | cons w a ih =>
    cases b with
    | nil => simp at hl
    | cons v b =>
      have hl' : a.length = b.length := by simpa using hl
      have hbit := bit_eq_of_poly h
      have hwv : w = v := by
        apply BitVec.eq_of_getLsbD_eq
        intro i _
        have := hbit (32 * a.length + i)
        rw [bit_cons, bit_cons, if_neg (by omega), if_neg (by omega), ← hl'] at this
        simpa using this
      have hab : a = b := by
        apply ih hl'
        apply poly_ext_bit
        intro p _
        by_cases hlt : p < 32 * a.length
        · have := hbit p
          rwa [bit_cons, bit_cons, if_pos hlt, if_pos (by omega)] at this
        · rw [bit_of_ge (by omega), bit_of_ge (by omega)]
      rw [hwv, hab]

theorem Normalized.eq_of_poly (ha : Normalized a) (hb : Normalized b) (h : poly a = poly b) :
    a = b := by
  cases a with
  | nil => exact (ha rfl).elim
  | cons w a =>
    cases b with
    | nil => exact (hb rfl).elim
    | cons v b =>
      obtain ⟨d, hd, hw, hw'⟩ := exists_top (show w ≠ 0 from ha)
      obtain ⟨e, he, hv, hv'⟩ := exists_top (show v ≠ 0 from hb)
      have hdeg := degree_poly (l := a) hw hw'
      rw [h, degree_poly (l := b) hv hv'] at hdeg
      have hn : 32 * b.length + e = 32 * a.length + d := by exact_mod_cast hdeg
      exact eq_of_poly_of_length (by rw [List.length_cons, List.length_cons]; omega) h

theorem monic_of_ne_zero {p : (ZMod 2)[X]} (h : p ≠ 0) : p.Monic := by
  have hl : p.leadingCoeff ≠ 0 := leadingCoeff_ne_zero.2 h
  have : ∀ c : ZMod 2, c ≠ 0 → c = 1 := by decide
  exact this _ hl

theorem eq_of_dvd_of_dvd {p q : (ZMod 2)[X]} (h : p ∣ q) (h' : q ∣ p) : p = q := by
  by_cases hp : p = 0
  · rw [hp, zero_dvd_iff] at h
    rw [hp, h]
  · have hq : q ≠ 0 := fun h0 => hp (zero_dvd_iff.1 (h0 ▸ h'))
    exact eq_of_monic_of_associated (monic_of_ne_zero hp) (monic_of_ne_zero hq)
      (associated_of_dvd_dvd h h')

section Word

theorem coeff_word (w : Word) (i : Nat) : (poly [w]).coeff i = coeffOf (w.getLsbD i) := by
  rw [poly_singleton, coeff_ofNat, BitVec.testBit_toNat]

theorem poly_word_xor (v w : Word) : poly [v ^^^ w] = poly [v] + poly [w] := by
  rw [poly_singleton, poly_singleton, poly_singleton, BitVec.toNat_xor, ofNat_xor]

theorem poly_word_pow (h : d < 32) : poly [1#32 <<< d] = X ^ d := by
  have hval : (1#32 <<< d).toNat = 1 <<< d := by
    rw [BitVec.toNat_shiftLeft, BitVec.toNat_ofNat]
    apply Nat.mod_eq_of_lt
    rw [Nat.shiftLeft_eq, Nat.one_mod_eq_one.2 (by decide), Nat.one_mul]
    exact Nat.pow_lt_pow_right (by decide) h
  rw [poly_singleton, hval, ofNat_shiftLeft, ofNat_one, mul_one]

theorem poly_word_shift {w : Word} (h : w.getLsbD 31 = false) : poly [w <<< 1] = X * poly [w] := by
  ext i
  rw [coeff_word, BitVec.getLsbD_shiftLeft]
  cases i with
  | zero => simp [coeffOf]
  | succ i =>
    rw [coeff_X_mul, coeff_word, Nat.add_sub_cancel]
    by_cases hi : i < 31
    · simp [Nat.succ_lt_succ hi]
    · have hlast : w.getLsbD i = false := by
        rcases Nat.lt_or_eq_of_le (Nat.not_lt.1 hi) with hlt | rfl
        · exact BitVec.getLsbD_of_ge _ _ (by omega)
        · exact h
      simp [hlast]

theorem getLsbD_of_degree {w : Word} (h : (poly [w]).degree < (d : Nat)) (hi : d ≤ i) :
    w.getLsbD i = false := by
  apply coeffOf_inj
  rw [← coeff_word]
  exact (degree_lt_iff_coeff_zero _ _).1 h i hi

theorem word_ext {v w : Word} (h : poly [v] = poly [w]) : v = w := by
  have hl := eq_of_poly_of_length (List.length_singleton.trans List.length_singleton.symm) h
  exact List.singleton_injective hl

end Word

theorem mod_eq_of_dvd {p q r : (ZMod 2)[X]} (h : q ∣ p - r) (hr : r.degree < q.degree) :
    p % q = r := by
  have hq : q ≠ 0 := by
    rintro rfl
    exact not_lt_bot hr
  rw [mod_eq_of_dvd_sub h, (mod_eq_self_iff hq).2 hr]

theorem mul_mod_mod (p q m : (ZMod 2)[X]) : p * (q % m) % m = p * q % m := by
  apply mod_eq_of_dvd_sub
  rw [← mul_sub, EuclideanDomain.mod_eq_sub_mul_div, sub_sub_cancel_left, mul_neg, dvd_neg]
  exact (dvd_mul_right m _).mul_left p

theorem degree_add_lt_of_degree_eq {p q : (ZMod 2)[X]} (hp : p.degree = (d : Nat))
    (hq : q.degree = (d : Nat)) : (p + q).degree < (d : Nat) := by
  have hne : ∀ r : (ZMod 2)[X], r.degree = (d : Nat) → r ≠ 0 := by
    rintro _ hr rfl
    exact WithBot.bot_ne_coe hr
  have hlead : p.leadingCoeff = q.leadingCoeff :=
    (monic_of_ne_zero (hne p hp)).trans (monic_of_ne_zero (hne q hq)).symm
  have hlt := degree_sub_lt_left (hp.trans hq.symm) (hne p hp) hlead
  rwa [CharTwo.sub_eq_add, hp] at hlt

end Gf2
