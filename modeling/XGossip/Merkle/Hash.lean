import Mathlib.Data.Nat.Bitwise
import Mathlib.Tactic.Ring

namespace XGossip
set_option autoImplicit true

/-- A key or a digest of the tree, as the number that `tobigint` makes of its bytes. -/
abbrev MerkleHash := BitVec 160

/-- The slots of a hash, from its highest bits down: six bits each, and four for the last one. -/
def NUM_SLOTS : Nat := 27

section Bits

def getbit (h : MerkleHash) (i : Nat) : Bool := h.getLsbD i

def setbit (h : MerkleHash) (i : Nat) (on : Bool) : MerkleHash :=
  if on then h ||| 1#160 <<< i else h &&& ~~~(1#160 <<< i)

/-- `for (int i = 0; i < 6 && high >= 0; i++, high--)` -/
def readSlotLoop (h : MerkleHash) : Nat → Int → Nat → Nat
  | 0, _, val => val
  | n + 1, high, val =>
    if high ≥ 0 then readSlotLoop h n (high - 1) (val <<< 1 ||| (getbit h high.toNat).toNat)
    else val

def readSlot (h : MerkleHash) (slotno : Nat) : Nat :=
  readSlotLoop h 6 (8 * 20 - 6 * slotno - 1) 0

/-- `for (int i = low; i <= high; i++)` -/
def setbits (h : MerkleHash) (low n val : Nat) : MerkleHash :=
  (List.range n).foldl (fun h i => setbit h (low + i) (val.testBit i)) h

/-- A value that does not fit the slot fails an assertion, and a slot that is not there is written
before the bytes of the hash. -/
def writeSlot (h : MerkleHash) (slotno val : Nat) : Option MerkleHash :=
  let high : Int := 8 * 20 - 6 * slotno - 1
  let low : Int := if high = 3 then 0 else high - 5
  let n := (1 + high - low).toNat
  if low ≥ 0 ∧ val >>> n = 0 then some (setbits h low.toNat n val) else none

/-- `clear_slot` from the slot `slotno` on. -/
def clearSuffix (h : MerkleHash) (slotno : Nat) : Option MerkleHash :=
  (List.range' slotno (NUM_SLOTS - slotno)).foldlM (fun h i => writeSlot h i 0) h

def prefixMatch (nslots : Nat) (a b : MerkleHash) : Bool :=
  (List.range nslots).all fun i => readSlot a i = readSlot b i

end Bits

section Slots

/-- The bits of a hash behind its first `d` slots. -/
def width (d : Nat) : Nat := 160 - 6 * d

def slotBits (d : Nat) : Nat := width d - width (d + 1)

/-- All slots from `d` on are 0. -/
def Clear (d : Nat) (p : MerkleHash) : Prop := 2 ^ width d ∣ p.toNat

theorem width_succ_add (d : Nat) : width (d + 1) + slotBits d = width d := by
  rw [slotBits, width, width]
  omega

theorem width_le (d : Nat) : width d ≤ 160 := Nat.sub_le _ _

theorem slotBits_le (d : Nat) : slotBits d ≤ 6 := by
  rw [slotBits, width, width]
  omega

theorem slotBits_eq (hd : d ≤ 25) : slotBits d = 6 := by
  rw [slotBits, width, width]
  omega

theorem getbit_setbit (h : MerkleHash) (on : Bool) (hi : i < 160) (j : Nat) :
    getbit (setbit h i on) j = if j = i then on else getbit h j := by
  have hone : (1#160 <<< i).getLsbD j = decide (j = i) := by
    rw [BitVec.getLsbD_shiftLeft, BitVec.getLsbD_one]
    by_cases hj : j = i
    · simp [hj, hi]
    · by_cases hlt : j < i
      · simp [hlt, hj]
      · simp [hj, show ¬ j - i = 0 by omega]
  rw [getbit, getbit, setbit]
  cases on with
  | true =>
    rw [if_pos rfl, BitVec.getLsbD_or, hone]
    by_cases hj : j = i <;> simp [hj]
  | false =>
    rw [if_neg Bool.false_ne_true, BitVec.getLsbD_and, BitVec.getLsbD_not, hone]
    by_cases hj : j = i
    · simp [hj]
    · by_cases hlt : j < 160
      · simp [hj, hlt]
      · simp [hj, BitVec.getLsbD_of_ge h j (by omega)]

theorem getbit_setbits (h : MerkleHash) (hn : low + n ≤ 160) (val j : Nat) :
    getbit (setbits h low n val) j =
      if low ≤ j ∧ j < low + n then val.testBit (j - low) else getbit h j := by
  induction n with
  | zero =>
    rw [if_neg (by omega)]
    rfl
  | succ n ih =>
    have hlast : setbits h low (n + 1) val =
        setbit (setbits h low n val) (low + n) (val.testBit n) := by
      simp [setbits, List.range_succ, List.foldl_append]
    rw [hlast, getbit_setbit _ _ (by omega), ih (by omega)]
    by_cases hj : j = low + n
    · rw [if_pos hj, if_pos (by omega), hj, Nat.add_sub_cancel_left]
    · rw [if_neg hj]
      by_cases hr : low ≤ j ∧ j < low + n
      · rw [if_pos hr, if_pos (by omega)]
      · rw [if_neg hr, if_neg (by omega)]

theorem readSlotLoop_eq (h : MerkleHash) (n high val : Nat) :
    readSlotLoop h n ((high : Int) - 1) val =
      val * 2 ^ min n high + h.toNat / 2 ^ (high - min n high) % 2 ^ min n high := by
  induction n generalizing high val with
  | zero => simp [readSlotLoop, Nat.mod_one]
  | succ n ih =>
    cases high with
    | zero => simp [readSlotLoop, Nat.mod_one]
    | succ high =>
      have hbit : (getbit h high).toNat = h.toNat / 2 ^ high % 2 := by
        rw [getbit, BitVec.getLsbD, Nat.testBit_eq_decide_div_mod_eq]
        rcases Nat.mod_two_eq_zero_or_one (h.toNat / 2 ^ high) with hb | hb <;> simp [hb]
      have hval : val <<< 1 ||| (getbit h high).toNat = 2 * val + (getbit h high).toNat := by
        rw [← Nat.shiftLeft_add_eq_or_of_lt (Bool.toNat_lt _), Nat.shiftLeft_eq]
        omega
      have hmin : min (n + 1) (high + 1) = min n high + 1 := by omega
      rw [readSlotLoop, if_pos (by omega), show ((high + 1 : Nat) : Int) - 1 = high by omega,
        Int.toNat_natCast, ih, hval, hbit, hmin,
        show high + 1 - (min n high + 1) = high - min n high by omega]
      have hsplit : h.toNat / 2 ^ (high - min n high) % 2 ^ (min n high + 1) =
          h.toNat / 2 ^ (high - min n high) % 2 ^ min n high +
            2 ^ min n high * (h.toNat / 2 ^ high % 2) := by
        rw [pow_succ, Nat.mod_mul, Nat.div_div_eq_div_mul, ← pow_add,
          show high - min n high + min n high = high by omega]
      rw [hsplit, pow_succ]
      ring

theorem readSlot_eq (h : MerkleHash) (d : Nat) :
    readSlot h d = h.toNat / 2 ^ width (d + 1) % 2 ^ slotBits d := by
  by_cases hd : d ≤ 26
  · have hhigh : (8 * 20 - 6 * (d : Int) - 1) = ((160 - 6 * d : Nat) : Int) - 1 := by omega
    rw [readSlot, hhigh, readSlotLoop_eq, Nat.zero_mul, Nat.zero_add, slotBits, width, width,
      show 160 - 6 * d - min 6 (160 - 6 * d) = 160 - 6 * (d + 1) by omega,
      show 160 - 6 * d - (160 - 6 * (d + 1)) = min 6 (160 - 6 * d) by omega]
  · rw [readSlot, readSlotLoop, if_neg (by omega), slotBits, width, width,
      show 160 - 6 * d - (160 - 6 * (d + 1)) = 0 by omega, pow_zero, Nat.mod_one]

theorem readSlot_lt_slotBits (h : MerkleHash) (d : Nat) : readSlot h d < 2 ^ slotBits d := by
  rw [readSlot_eq]
  exact Nat.mod_lt _ (Nat.two_pow_pos _)

theorem readSlot_lt (h : MerkleHash) (d : Nat) : readSlot h d < 64 :=
  Nat.lt_of_lt_of_le (readSlot_lt_slotBits h d) (Nat.pow_le_pow_right (by omega) (slotBits_le d))

theorem div_width_succ (h : MerkleHash) (d : Nat) :
    h.toNat / 2 ^ width (d + 1) = h.toNat / 2 ^ width d * 2 ^ slotBits d + readSlot h d := by
  rw [readSlot_eq, ← width_succ_add d, pow_add, ← Nat.div_div_eq_div_mul, Nat.div_add_mod']

theorem mul_add_inj {a b c e n : Nat} (hc : c < n) (he : e < n) :
    a * n + c = b * n + e ↔ a = b ∧ c = e := by
  constructor
  · intro h
    have hdiv := congrArg (· / n) h
    have hmod := congrArg (· % n) h
    simp only [Nat.mul_comm _ n, Nat.mul_add_div (Nat.zero_lt_of_lt hc), Nat.mul_add_mod,
      Nat.div_eq_of_lt hc, Nat.div_eq_of_lt he, Nat.add_zero, Nat.mod_eq_of_lt hc,
      Nat.mod_eq_of_lt he] at hdiv hmod
    exact ⟨hdiv, hmod⟩
  · rintro ⟨rfl, rfl⟩
    rfl

theorem prefixMatch_succ :
    prefixMatch (d + 1) a b ↔ prefixMatch d a b ∧ readSlot a d = readSlot b d := by
  simp [prefixMatch, List.range_succ]

theorem prefixMatch_iff : prefixMatch d a b ↔ a.toNat / 2 ^ width d = b.toNat / 2 ^ width d := by
  induction d with
  | zero =>
    have hz : ∀ h : MerkleHash, h.toNat / 2 ^ width 0 = 0 := fun h => Nat.div_eq_of_lt h.isLt
    simp [prefixMatch, hz]
  | succ d ih =>
    rw [prefixMatch_succ, ih, div_width_succ a, div_width_succ b,
      mul_add_inj (readSlot_lt_slotBits a d) (readSlot_lt_slotBits b d)]

theorem prefixMatch_iff_between (hp : Clear d p) :
    prefixMatch d k p ↔ p.toNat ≤ k.toNat ∧ k.toNat < p.toNat + 2 ^ width d := by
  have hpos : 0 < 2 ^ width d := Nat.two_pow_pos _
  obtain ⟨q, hq⟩ := hp
  rw [prefixMatch_iff, hq, Nat.mul_div_cancel_left q hpos, Nat.div_eq_iff hpos]
  rw [Nat.mul_comm q]
  omega

theorem writeSlot_eq (h : MerkleHash) (hd : d ≤ 26) (hval : val < 2 ^ slotBits d) :
    writeSlot h d val = some (setbits h (width (d + 1)) (slotBits d) val) := by
  have hshift : val >>> slotBits d = 0 := by
    rw [Nat.shiftRight_eq_div_pow, Nat.div_eq_of_lt hval]
  have hlow : (if (8 * 20 - 6 * (d : Int) - 1) = 3 then (0 : Int)
      else 8 * 20 - 6 * d - 1 - 5) = (width (d + 1) : Nat) := by
    rw [width]
    split <;> omega
  have hn : (1 + (8 * 20 - 6 * (d : Int) - 1) - (width (d + 1) : Nat)).toNat = slotBits d := by
    rw [slotBits, width, width]
    omega
  simp only [writeSlot, hlow, hn, hshift]
  rw [if_pos ⟨Int.natCast_nonneg _, trivial⟩, Int.toNat_natCast]

/-- The prefix of a child. -/
theorem writeSlot_child (hp : Clear d p) (hd : d ≤ 26) (hi : i < 2 ^ slotBits d) :
    ∃ q, writeSlot p d i = some q ∧ q.toNat = p.toNat + i * 2 ^ width (d + 1) := by
  refine ⟨_, writeSlot_eq p hd hi, Nat.eq_of_testBit_eq fun j => ?_⟩
  have hw : width (d + 1) + slotBits d ≤ 160 := (width_succ_add d).trans_le (width_le d)
  have hbit := getbit_setbits p hw i j
  obtain ⟨m, hm⟩ := hp
  have hnum : p.toNat + i * 2 ^ width (d + 1) =
      2 ^ width (d + 1) * (2 ^ slotBits d * m + i) := by
    rw [hm, ← width_succ_add d, pow_add]
    ring
  rw [getbit, BitVec.getLsbD] at hbit
  rw [hbit, hnum, Nat.testBit_two_pow_mul]
  by_cases hlow : width (d + 1) ≤ j
  · rw [decide_eq_true hlow, Bool.true_and, Nat.testBit_two_pow_mul_add _ hi]
    by_cases hhigh : j < width (d + 1) + slotBits d
    · rw [if_pos ⟨hlow, hhigh⟩, if_pos (by omega)]
    · rw [if_neg (by omega), if_neg (by omega), getbit, BitVec.getLsbD, hm,
        Nat.testBit_two_pow_mul, ← width_succ_add d, decide_eq_true (by omega), Bool.true_and,
        Nat.sub_sub]
  · rw [decide_eq_false hlow, if_neg (by omega), getbit, BitVec.getLsbD, hm,
      Nat.testBit_two_pow_mul, ← width_succ_add d, decide_eq_false (by omega), Bool.false_and,
      Bool.false_and]

theorem writeSlot_clear (hp : Clear d p) (hd : d ≤ 26) (hi : i < 2 ^ slotBits d)
    (h : writeSlot p d i = some q) : Clear (d + 1) q := by
  obtain ⟨q', hq', hnum⟩ := writeSlot_child hp hd hi
  obtain rfl : q' = q := Option.some.inj (hq'.symm.trans h)
  rw [Clear, hnum]
  refine Nat.dvd_add (Nat.dvd_trans (pow_dvd_pow 2 ?_) hp) (Nat.dvd_mul_left _ _)
  rw [← width_succ_add d]
  exact Nat.le_add_right _ _

theorem prefixMatch_child (hp : Clear d p) (hd : d ≤ 26) (hi : i < 2 ^ slotBits d)
    (h : writeSlot p d i = some q) :
    prefixMatch (d + 1) k q ↔ prefixMatch d k p ∧ readSlot k d = i := by
  obtain ⟨q', hq', hnum⟩ := writeSlot_child hp hd hi
  obtain rfl : q' = q := Option.some.inj (hq'.symm.trans h)
  have hq : q'.toNat / 2 ^ width (d + 1) = p.toNat / 2 ^ width d * 2 ^ slotBits d + i := by
    obtain ⟨m, hm⟩ := hp
    have hfactor : p.toNat + i * 2 ^ width (d + 1) =
        2 ^ width (d + 1) * (m * 2 ^ slotBits d + i) := by
      rw [hm, ← width_succ_add d, pow_add]
      ring
    rw [hnum, hfactor, Nat.mul_div_cancel_left _ (Nat.two_pow_pos _), hm,
      Nat.mul_div_cancel_left m (Nat.two_pow_pos _)]
  rw [prefixMatch_iff, prefixMatch_iff, div_width_succ k, hq,
    mul_add_inj (readSlot_lt_slotBits k d) hi]

theorem clearSuffix_bits (h : MerkleHash) (hn : d + n ≤ NUM_SLOTS) :
    ∃ q, (List.range' d n).foldlM (fun h i => writeSlot h i 0) h = some q ∧
      ∀ j, getbit q j = if width (d + n) ≤ j ∧ j < width d then false else getbit h j := by
  induction n with
  | zero => exact ⟨h, rfl, fun j => (if_neg (by rw [Nat.add_zero]; omega)).symm⟩
  | succ n ih =>
    rw [NUM_SLOTS] at hn ih
    obtain ⟨q, hq, hbits⟩ := ih (by omega)
    have hwrite := writeSlot_eq q (show d + n ≤ 26 by omega) (Nat.two_pow_pos (slotBits (d + n)))
    refine ⟨setbits q (width (d + n + 1)) (slotBits (d + n)) 0, ?_, fun j => ?_⟩
    · rw [List.range'_1_concat, List.foldlM_append, hq]
      simpa using hwrite
    · have hw := width_succ_add (d + n)
      have hle : width (d + n) ≤ width d := by
        rw [width, width]
        omega
      rw [getbit_setbits q (hw.trans_le (width_le _)), hbits, hw, Nat.zero_testBit, ← Nat.add_assoc]
      by_cases h₁ : width (d + n + 1) ≤ j ∧ j < width (d + n)
      · rw [if_pos h₁, if_pos (by omega)]
      · rw [if_neg h₁]
        by_cases h₂ : width (d + n) ≤ j ∧ j < width d
        · rw [if_pos h₂, if_pos (by omega)]
        · rw [if_neg h₂, if_neg (by omega)]

theorem clearSuffix_eq (h : MerkleHash) (hd : d ≤ NUM_SLOTS) :
    ∃ q, clearSuffix h d = some q ∧ q.toNat = h.toNat / 2 ^ width d * 2 ^ width d := by
  obtain ⟨q, hq, hbits⟩ := clearSuffix_bits h (show d + (NUM_SLOTS - d) ≤ NUM_SLOTS by omega)
  refine ⟨q, hq, Nat.eq_of_testBit_eq fun j => ?_⟩
  have hzero : width NUM_SLOTS = 0 := rfl
  have hbit := hbits j
  rw [Nat.add_sub_cancel' hd, hzero, getbit, getbit, BitVec.getLsbD, BitVec.getLsbD] at hbit
  rw [hbit, Nat.mul_comm, Nat.testBit_two_pow_mul, Nat.testBit_div_two_pow]
  by_cases hj : j < width d
  · rw [if_pos ⟨Nat.zero_le _, hj⟩, decide_eq_false (by omega), Bool.false_and]
  · rw [if_neg (by omega), decide_eq_true (by omega), Bool.true_and, Nat.sub_add_cancel (by omega)]

end Slots

end XGossip
