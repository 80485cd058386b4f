import XGossip.Index.Lcm
import XGossip.Lib.Codec

open Polynomial

namespace XGossip
set_option autoImplicit true

open Codec Gf2

section Code

abbrev IRRPOLY := BitVec 32

/-- The variables of the loop of `findMod`; `k` is the number of bits read, an `int`. -/
structure ModState where
  res : POLY
  resMask : POLY
  smallBitsMask : POLY
  k : BitVec 32

/-- `1 << zDegree` -/
def testMask (z : IRRPOLY) : POLY := 1#32 <<< (getDegreeWord z).toNat

def modMask (z : IRRPOLY) : POLY := z ^^^ testMask z

/-- One bit of the string. The first `zDegree` bits are stored, the others are reduced. -/
def findModBit (z : IRRPOLY) (s : ModState) (isSet : Bool) : ModState :=
  if s.k.toInt ≥ getDegreeWord z then
    let resMask := s.resMask <<< 1
    { res := if isSet then s.res ^^^ s.resMask else s.res
      resMask := if resMask &&& testMask z > 0 then (resMask ^^^ testMask z) ^^^ modMask z
        else resMask
      smallBitsMask := s.smallBitsMask
      k := s.k + 1 }
  else
    { res := if isSet then s.res ||| s.smallBitsMask else s.res
      resMask := s.resMask
      smallBitsMask := s.smallBitsMask <<< 1
      k := s.k + 1 }

/-- The last `n` bits of a byte, from the one under `bitMask` on. -/
def findModByte (z : IRRPOLY) (byte : Byte) : Nat → Byte → ModState → ModState
  | 0, _, s => s
  | n + 1, bitMask, s =>
    findModByte z byte n (bitMask <<< 1) (findModBit z s (byte &&& bitMask > 0))

def findMod (x : List Byte) (z : IRRPOLY) : POLY :=
  (x.foldl (fun s byte => findModByte z byte 8 1 s) ⟨0, modMask z, 1, 0⟩).res

end Code

section Bits

def stringBits (x : List Byte) : List Bool :=
  x.flatMap fun byte => (List.range 8).map fun j => byte.getLsbD j

theorem and_mask_pos (byte : Byte) (h : j < 8) :
    decide (byte &&& (1#8 <<< j) > 0) = byte.getLsbD j := by
  rw [← BitVec.twoPow_eq, BitVec.and_twoPow]
  split
  · next hb =>
    have hpos : 0#8 < BitVec.twoPow 8 j := by
      rw [BitVec.lt_def, BitVec.toNat_twoPow, Nat.mod_eq_of_lt]
      · exact Nat.two_pow_pos j
      · exact Nat.pow_lt_pow_right (by decide) h
    rw [hb]
    exact decide_eq_true hpos
  · next hb => simp [hb]

theorem findModByte_eq (z : IRRPOLY) (byte : Byte) (s : ModState) :
    findModByte z byte 8 1 s =
      ((List.range 8).map fun j => byte.getLsbD j).foldl (findModBit z) s := by
  have hstep : ∀ n k, n + k = 8 → ∀ s, findModByte z byte n (1#8 <<< k) s =
      ((List.range' k n).map fun j => byte.getLsbD j).foldl (findModBit z) s := by
    intro n
    induction n with
    | zero => exact fun k _ s => rfl
    | succ n ih =>
      intro k hk s
      rw [findModByte, ← BitVec.shiftLeft_add, ih (k + 1) (by omega), and_mask_pos byte (by omega),
        List.range'_succ, List.map_cons, List.foldl_cons]
  have h := hstep 8 0 rfl s
  rwa [BitVec.shiftLeft_zero, ← List.range_eq_range'] at h

theorem findMod_eq (x : List Byte) (z : IRRPOLY) :
    findMod x z = ((stringBits x).foldl (findModBit z) ⟨0, modMask z, 1, 0⟩).res := by
  have hfold : ∀ s, x.foldl (fun s byte => findModByte z byte 8 1 s) s =
      (stringBits x).foldl (findModBit z) s := by
    induction x with
    | nil => exact fun s => rfl
    | cons byte x ih =>
      intro s
      rw [List.foldl_cons, ih, findModByte_eq, ← List.foldl_append]
      rfl
  rw [findMod, hfold]

theorem length_stringBits (x : List Byte) : (stringBits x).length = 8 * x.length := by
  simp [stringBits, List.length_flatMap, Nat.mul_comm]

theorem getD_stringBits (x : List Byte) (k : Nat) :
    (stringBits x).getD k false = (x.getD (k / 8) 0).getLsbD (k % 8) := by
  induction x generalizing k with
  | nil => simp [stringBits]
  | cons byte x ih =>
    have hcons : stringBits (byte :: x) =
        ((List.range 8).map fun j => byte.getLsbD j) ++ stringBits x := List.flatMap_cons
    rw [hcons, List.getD_eq_getElem?_getD, List.getElem?_append]
    by_cases hk : k < 8
    · have hdiv : k / 8 = 0 := by omega
      have hmod : k % 8 = k := by omega
      simp [hk, hdiv, hmod]
    · have hdiv : k / 8 = (k - 8) / 8 + 1 := by omega
      have hmod : k % 8 = (k - 8) % 8 := by omega
      have htail := ih (k - 8)
      rw [List.getD_eq_getElem?_getD] at htail
      simp [hk, hdiv, hmod, htail]

end Bits

section Message

/-- The polynomial with these coefficients, the constant term first. -/
noncomputable def bitsPoly (B : List Bool) : (ZMod 2)[X] := ofBits B.length fun i => B.getD i false

/-- The polynomial of a string, bit `j` of byte `i` for the coefficient of `X ^ (8 * i + j)`. -/
noncomputable def messagePoly (x : List Byte) : (ZMod 2)[X] :=
  ofBits (8 * x.length) fun k => (x.getD (k / 8) 0).getLsbD (k % 8)

theorem coeff_bitsPoly (B : List Bool) (i : Nat) :
    (bitsPoly B).coeff i = coeffOf (B.getD i false) := by
  apply coeff_ofBits
  intro i hi
  rw [List.getD_eq_getElem?_getD, List.getElem?_eq_none hi]
  rfl

theorem coeff_messagePoly (x : List Byte) (k : Nat) :
    (messagePoly x).coeff k = coeffOf ((x.getD (k / 8) 0).getLsbD (k % 8)) := by
  apply coeff_ofBits
  intro k hk
  rw [List.getD_eq_getElem?_getD, List.getElem?_eq_none (by omega)]
  exact BitVec.getLsbD_zero

theorem messagePoly_eq (x : List Byte) : messagePoly x = bitsPoly (stringBits x) := by
  ext k
  rw [coeff_messagePoly, coeff_bitsPoly, getD_stringBits]

theorem bitsPoly_nil : bitsPoly [] = 0 := by
  simp [bitsPoly, ofBits]

theorem bitsPoly_concat (B : List Bool) (b : Bool) :
    bitsPoly (B ++ [b]) = bitsPoly B + if b then X ^ B.length else 0 := by
  ext i
  rw [coeff_add, coeff_bitsPoly, coeff_bitsPoly, List.getD_eq_getElem?_getD,
    List.getD_eq_getElem?_getD, List.getElem?_append]
  rcases Nat.lt_trichotomy i B.length with hi | rfl | hi
  · have hne : i ≠ B.length := by omega
    cases b with
    | false => simp [hi]
    | true => simp [hi, coeff_X_pow, hne]
  · cases b with
    | false => simp [coeffOf]
    | true => simp [coeffOf]
  · have hpos : ¬ i < B.length := by omega
    have hsub : i - B.length ≠ 0 := by omega
    have hne : i ≠ B.length := by omega
    cases b with
    | false => simp [hpos, hsub]
    | true => simp [hpos, hsub, coeff_X_pow, hne]

theorem degree_bitsPoly_lt (h : B.length ≤ d) : (bitsPoly B).degree < (d : Nat) := by
  rw [degree_lt_iff_coeff_zero]
  intro i hi
  rw [coeff_bitsPoly, List.getD_eq_getElem?_getD, List.getElem?_eq_none (h.trans hi)]
  rfl

end Message

section Invariant

/-- `z` has degree `d`. -/
structure Modulus (z : IRRPOLY) (d : Nat) : Prop where
  lt : d < 32
  degreeWord : getDegreeWord z = d
  degree : (poly [z]).degree = d

theorem exists_modulus {z : IRRPOLY} (hz : z ≠ 0) : ∃ d, Modulus z d := by
  obtain ⟨d, hlt, hd, htop⟩ := exists_top hz
  refine ⟨d, hlt, getDegreeWord_eq hd htop, ?_⟩
  simpa using degree_poly (l := []) hd htop

variable {z : IRRPOLY} {d : Nat}

theorem Modulus.ne_zero (h : Modulus z d) : poly [z] ≠ 0 := by
  intro h0
  have hdeg := h.degree
  rw [h0, degree_zero] at hdeg
  exact WithBot.bot_ne_coe hdeg

theorem Modulus.testMask (h : Modulus z d) : testMask z = 1#32 <<< d := by
  rw [XGossip.testMask, h.degreeWord, Int.toNat_natCast]

theorem Modulus.poly_modMask (h : Modulus z d) : poly [modMask z] = poly [z] + X ^ d := by
  rw [modMask, poly_word_xor, h.testMask, poly_word_pow h.lt]

theorem Modulus.and_testMask (h : Modulus z d) (w : POLY) :
    w &&& XGossip.testMask z > 0 ↔ w.getLsbD d = true := by
  rw [h.testMask, ← BitVec.twoPow_eq, BitVec.and_twoPow]
  split
  · next hb =>
    have hne := twoPow_ne_zero h.lt
    have hpos : 0#32 < BitVec.twoPow 32 d := by bv_omega
    exact iff_of_true hpos hb
  · next hb => simp [hb]

theorem Modulus.mod_modMask (h : Modulus z d) : X ^ d % poly [z] = poly [modMask z] := by
  apply mod_eq_of_dvd
  · rw [h.poly_modMask, show X ^ d - (poly [z] + X ^ d) = -poly [z] by ring, dvd_neg]
  · rw [h.poly_modMask, h.degree]
    exact degree_add_lt_of_degree_eq h.degree (degree_X_pow d)

/-- A step of the mask that holds a power of `X` reduced. -/
theorem Modulus.shift (h : Modulus z d) {w : POLY} (hw : (poly [w]).degree < (d : Nat)) :
    poly [if w <<< 1 &&& XGossip.testMask z > 0 then
      (w <<< 1 ^^^ XGossip.testMask z) ^^^ modMask z else w <<< 1] =
        X * poly [w] % poly [z] := by
  have hlt := h.lt
  have hshift : poly [w <<< 1] = X * poly [w] :=
    poly_word_shift (getLsbD_of_degree hw (by omega))
  have hhigh : ∀ i, d < i → (w <<< 1).getLsbD i = false := by
    intro i hi
    rw [BitVec.getLsbD_shiftLeft, getLsbD_of_degree hw (show d ≤ i - 1 by omega), Bool.and_false]
  have htest := h.and_testMask (w <<< 1)
  symm
  split
  · next hb =>
    have hdeg : (poly [w <<< 1]).degree = (d : Nat) := by
      simpa using degree_poly (l := []) (htest.1 hb) hhigh
    have hsum : poly [(w <<< 1 ^^^ XGossip.testMask z) ^^^ modMask z] =
        poly [w <<< 1] + poly [z] := by
      rw [poly_word_xor, poly_word_xor, h.poly_modMask, h.testMask, poly_word_pow h.lt]
      linear_combination CharTwo.add_self_eq_zero (X ^ d : (ZMod 2)[X])
    apply mod_eq_of_dvd
    · rw [hsum, hshift, sub_add_cancel_left, dvd_neg]
    · rw [hsum, h.degree]
      exact degree_add_lt_of_degree_eq hdeg h.degree
  · next hb =>
    apply mod_eq_of_dvd
    · rw [hshift, sub_self]
      exact dvd_zero _
    · rw [h.degree, degree_lt_iff_coeff_zero]
      intro i hi
      rw [coeff_word]
      rcases Nat.lt_or_eq_of_le hi with hi | rfl
      · rw [hhigh i hi]
        rfl
      · rw [Bool.eq_false_iff.2 (mt htest.2 hb)]
        rfl

/-- What the loop has computed of the bits `B`. -/
structure ModInv (z : IRRPOLY) (d : Nat) (B : List Bool) (s : ModState) : Prop where
  res : poly [s.res] = bitsPoly B % poly [z]
  resMask : poly [s.resMask] = X ^ max B.length d % poly [z]
  smallBitsMask : s.smallBitsMask = 1#32 <<< min B.length d
  k : s.k = BitVec.ofNat 32 B.length

theorem ModInv.init (hz : Modulus z d) : ModInv z d [] ⟨0, modMask z, 1, 0⟩ := by
  refine ⟨?_, ?_, ?_, rfl⟩
  · rw [bitsPoly_nil, EuclideanDomain.zero_mod]
    exact poly_zero_word
  · rw [List.length_nil, Nat.zero_max, hz.mod_modMask]
  · rw [List.length_nil, Nat.zero_min, BitVec.shiftLeft_zero]
    rfl

theorem degree_mod_modulus (hz : Modulus z d) (p : (ZMod 2)[X]) :
    (p % poly [z]).degree < (d : Nat) := hz.degree ▸ degree_mod_lt p hz.ne_zero

theorem poly_or_bit {w : POLY} (hn : n < 32) (hw : (poly [w]).degree < (n : Nat)) :
    poly [w ||| 1#32 <<< n] = poly [w] + X ^ n := by
  have hor : w ||| 1#32 <<< n = w ^^^ 1#32 <<< n := by
    apply BitVec.eq_of_getLsbD_eq
    intro i _
    rw [BitVec.getLsbD_or, BitVec.getLsbD_xor, ← BitVec.twoPow_eq, BitVec.getLsbD_twoPow]
    by_cases hi : n = i
    · subst hi
      rw [getLsbD_of_degree hw (le_refl _), Bool.false_or, Bool.false_xor]
    · simp [hi]
  rw [hor, poly_word_xor, poly_word_pow hn]

/-- One bit keeps the invariant, as long as the number of bits fits into an `int`. -/
theorem ModInv.step (hz : Modulus z d) (h : ModInv z d B s) (hB : B.length < 2 ^ 31) (b : Bool) :
    ModInv z d (B ++ [b]) (findModBit z s b) := by
  have hlt := hz.lt
  have hk : s.k.toInt = B.length := by
    rw [h.k, BitVec.toInt_eq_toNat_of_lt] <;> rw [BitVec.toNat_ofNat, Nat.mod_eq_of_lt] <;> omega
  have hk' : s.k + 1 = BitVec.ofNat 32 (B ++ [b]).length := by
    rw [h.k, List.length_append, List.length_singleton]
    bv_omega
  have hres : (poly [s.res]).degree < (d : Nat) := h.res ▸ degree_mod_modulus hz _
  rw [findModBit, hk, hz.degreeWord]
  split
  · next hge =>
    have hmax : max B.length d = B.length := by omega
    have hmask := h.resMask
    rw [hmax] at hmask
    refine ⟨?_, ?_, ?_, hk'⟩
    · rw [bitsPoly_concat, add_mod, ← h.res]
      cases b with
      | false => simp
      | true => simp [poly_word_xor, hmask]
    · have hdeg : (poly [s.resMask]).degree < (d : Nat) := hmask ▸ degree_mod_modulus hz _
      rw [hz.shift hdeg, hmask, mul_mod_mod, ← pow_succ', List.length_append,
        List.length_singleton, show max (B.length + 1) d = B.length + 1 by omega]
    · rw [h.smallBitsMask, List.length_append, List.length_singleton,
        show min B.length d = min (B.length + 1) d by omega]
  · next hlt' =>
    have hmin : min B.length d = B.length := by omega
    have hsmall : ∀ C : List Bool, C.length ≤ d → bitsPoly C % poly [z] = bitsPoly C := by
      intro C hC
      rw [mod_eq_self_iff hz.ne_zero, hz.degree]
      exact degree_bitsPoly_lt hC
    have hres' := h.res
    rw [hsmall B (by omega)] at hres'
    refine ⟨?_, ?_, ?_, hk'⟩
    · rw [hsmall _ (by simp; omega), bitsPoly_concat, ← hres']
      cases b with
      | false => simp
      | true =>
        rw [if_pos rfl, if_pos rfl, h.smallBitsMask, hmin]
        exact poly_or_bit (by omega) (hres' ▸ degree_bitsPoly_lt (le_refl _))
    · rw [h.resMask, List.length_append, List.length_singleton,
        show max B.length d = max (B.length + 1) d by omega]
    · rw [h.smallBitsMask, ← BitVec.shiftLeft_add, List.length_append, List.length_singleton,
        show min B.length d + 1 = min (B.length + 1) d by omega]

theorem ModInv.run (hz : Modulus z d) (h : ModInv z d B s) (hl : B.length + l.length ≤ 2 ^ 31) :
    ModInv z d (B ++ l) (l.foldl (findModBit z) s) := by
  induction l generalizing B s with
  | nil => simpa using h
  | cons b l ih =>
    rw [List.length_cons] at hl
    have hstep := h.step hz (by omega) b
    have hrun := ih hstep (by rw [List.length_append, List.length_singleton]; omega)
    rwa [List.append_assoc] at hrun

theorem poly_findMod (hz : Modulus z d) (hx : x.length ≤ 2 ^ 28) :
    poly [findMod x z] = messagePoly x % poly [z] := by
  have hlen := length_stringBits x
  have hrun := (ModInv.init hz).run hz (l := stringBits x) (by rw [hlen, List.length_nil]; omega)
  rw [findMod_eq, messagePoly_eq, hrun.res, List.nil_append]

theorem stringBits_append (x y : List Byte) :
    stringBits (x ++ y) = stringBits x ++ stringBits y := List.flatMap_append

theorem stringBits_zeros (n : Nat) : ∀ b ∈ stringBits (List.replicate n 0), b = false := by
  intro b hb
  obtain ⟨byte, hbyte, hb⟩ := List.mem_flatMap.1 hb
  obtain ⟨j, -, rfl⟩ := List.mem_map.1 hb
  rw [List.eq_of_mem_replicate hbyte]
  exact BitVec.getLsbD_zero

theorem foldl_unset {l : List Bool} (z : IRRPOLY) (hl : ∀ b ∈ l, b = false) (s : ModState) :
    (l.foldl (findModBit z) s).res = s.res := by
  induction l generalizing s with
  | nil => rfl
  | cons b l ih =>
    have hb : (findModBit z s false).res = s.res := by
      rw [findModBit]
      split
      · rfl
      · rfl
    rw [List.foldl_cons, hl b List.mem_cons_self, ih fun b hb => hl b (List.mem_cons_of_mem _ hb),
      hb]

/-- Behind `2 ^ 31` bits the count is negative, so that the next bit is stored and not reduced. -/
theorem findMod_wraps (hz : Modulus z d) (hn : n = 2 ^ 28) (m : Nat) :
    findMod (List.replicate n 0 ++ 1 :: List.replicate m 0) z = 1#32 <<< d := by
  have hlen : (stringBits (List.replicate n 0)).length = 2 ^ 31 := by
    rw [length_stringBits, List.length_replicate]
    omega
  have hinv := (ModInv.init hz).run hz (l := stringBits (List.replicate n 0))
    (by rw [hlen, List.length_nil]; omega)
  have hzero : ((stringBits (List.replicate n 0)).foldl (findModBit z) ⟨0, modMask z, 1, 0⟩).res =
      0 := foldl_unset z (stringBits_zeros n) _
  rw [List.nil_append] at hinv
  have hbits : stringBits (1 :: List.replicate m 0) =
      true :: (List.replicate 7 false ++ stringBits (List.replicate m 0)) := rfl
  rw [findMod_eq, stringBits_append, List.foldl_append, hbits, List.foldl_cons]
  generalize (stringBits (List.replicate n 0)).foldl (findModBit z) ⟨0, modMask z, 1, 0⟩ = s
    at hinv hzero
  have hk := hinv.k
  have hsmall := hinv.smallBitsMask
  have hlt := hz.lt
  rw [hlen] at hk hsmall
  have hnext : (findModBit z s true).res = 1#32 <<< d := by
    rw [findModBit, hk, hz.degreeWord, if_neg (by simp; omega), hzero, hsmall, if_pos rfl,
      show min (2 ^ 31) d = d by omega]
    exact BitVec.zero_or
  rw [foldl_unset z, hnext]
  intro b hb
  rcases List.mem_append.1 hb with hb | hb
  · exact List.eq_of_mem_replicate hb
  · exact stringBits_zeros m b hb

end Invariant

section Claim

/-- `findMod` reduces the strings of a length modulo `z`, with what follows from that. -/
structure ReducesLength (z : IRRPOLY) (len : Nat) : Prop where
  mod : ∀ x : List Byte, x.length = len → poly [findMod x z] = messagePoly x % poly [z]
  degree : ∀ x : List Byte, x.length = len → (poly [findMod x z]).degree < (poly [z]).degree
  linear : ∀ x y : List Byte, x.length = len → y.length = len →
    findMod (List.zipWith (· ^^^ ·) x y) z = findMod x z ^^^ findMod y z

theorem messagePoly_xor {x y : List Byte} (h : x.length = y.length) :
    messagePoly (List.zipWith (· ^^^ ·) x y) = messagePoly x + messagePoly y := by
  have hget : ∀ i, (List.zipWith (· ^^^ ·) x y).getD i 0 = x.getD i 0 ^^^ y.getD i 0 := by
    intro i
    simp only [List.getD_eq_getElem?_getD, List.getElem?_zipWith]
    by_cases hi : i < x.length
    · simp [hi, h ▸ hi]
    · rw [List.getElem?_eq_none (by omega), List.getElem?_eq_none (by omega)]
      rfl
  ext k
  rw [coeff_add, coeff_messagePoly, coeff_messagePoly, coeff_messagePoly, hget,
    BitVec.getLsbD_xor, coeffOf_xor]

/-- The strings of a length are reduced exactly if the number of their bits fits into an `int`. -/
theorem findMod_reduces_iff {z : IRRPOLY} (hz : z ≠ 0) (len : Nat) :
    ReducesLength z len ↔ len ≤ 2 ^ 28 := by
  obtain ⟨d, hd⟩ := exists_modulus hz
  constructor
  · intro h
    by_contra hlen
    have hlong : (List.replicate (2 ^ 28) (0 : Byte) ++ 1 ::
        List.replicate (len - 2 ^ 28 - 1) 0).length = len := by
      rw [List.length_append, List.length_cons, List.length_replicate, List.length_replicate]
      omega
    have hdeg := h.degree _ hlong
    rw [findMod_wraps hd rfl, poly_word_pow hd.lt, degree_X_pow, hd.degree] at hdeg
    exact lt_irrefl _ hdeg
  · intro hlen
    have hmod : ∀ x : List Byte, x.length = len →
        poly [findMod x z] = messagePoly x % poly [z] := by
      intro x hx
      exact poly_findMod hd (by omega)
    refine ⟨hmod, fun x hx => ?_, fun x y hx hy => ?_⟩
    · rw [hmod x hx]
      exact degree_mod_lt _ hd.ne_zero
    · have hxy : (List.zipWith (· ^^^ ·) x y).length = len := by
        rw [List.length_zipWith, hx, hy, Nat.min_self]
      apply word_ext
      rw [hmod _ hxy, messagePoly_xor (hx.trans hy.symm), add_mod, poly_word_xor, hmod x hx,
        hmod y hy]

theorem findMod_reduces_iff_seven : ReducesLength 7 4 ∧ ¬ ReducesLength 7 (2 ^ 28 + 1) := by
  refine ⟨(findMod_reduces_iff (by decide) 4).2 (by norm_num), ?_⟩
  rw [findMod_reduces_iff (by decide)]
  norm_num

/-- A string of a quarter of a GiB and one byte, of which one bit is set. -/
theorem findMod_not_reduced :
    ¬ (poly [findMod (List.replicate (2 ^ 28) 0 ++ [1]) 7]).degree < (poly [7]).degree ∧
      poly [findMod (List.replicate (2 ^ 28) 0 ++ [1]) 7] ≠
        messagePoly (List.replicate (2 ^ 28) 0 ++ [1]) % poly [7] := by
  obtain ⟨d, hd⟩ := exists_modulus (z := 7) (by decide)
  have hwrap := findMod_wraps hd rfl 0
  rw [List.replicate_zero] at hwrap
  have hdeg : ¬ (poly [findMod (List.replicate (2 ^ 28) 0 ++ [1]) 7]).degree <
      (poly [7]).degree := by
    rw [hwrap, poly_word_pow hd.lt, degree_X_pow, hd.degree]
    exact lt_irrefl _
  refine ⟨hdeg, fun h => hdeg ?_⟩
  rw [h]
  exact degree_mod_lt _ hd.ne_zero

end Claim

end XGossip
