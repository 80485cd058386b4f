import Mathlib.Data.Nat.Log
import Mathlib.Tactic.Ring

namespace Rounding
set_option autoImplicit true

/-- The number of bits of `x` that do not fit into `p` bits. -/
def lost (p x : Nat) : Nat := x.log2 + 1 - p

/-- Half of the last place of `x`, rounded down. -/
def halfPlace (p x : Nat) : Nat := 2 ^ lost p x / 2

/-- The nearest number with `p` significant bits, of two such numbers the even one. -/
def roundBits (p x : Nat) : Nat :=
  let u := 2 ^ lost p x
  let q := x / u
  let r := x % u
  (if 2 * r < u ∨ 2 * r = u ∧ q % 2 = 0 then q else q + 1) * u

theorem lost_of_lt (hp : 0 < p) (h : x < 2 ^ p) : lost p x = 0 := by
  rw [lost]
  rcases Nat.eq_zero_or_pos x with rfl | hx
  · rw [Nat.log2_zero]
    omega
  · have hlog := (Nat.log2_lt hx.ne').2 h
    omega

theorem halfPlace_of_lt (hp : 0 < p) (h : x < 2 ^ p) : halfPlace p x = 0 := by
  rw [halfPlace, lost_of_lt hp h]
  rfl

/-- Rounding keeps a number below an even multiple of its last place if more than half of the place
is between them; from the middle it goes up, to the even multiple. -/
theorem roundBits_lt_iff (h : 2 * 2 ^ lost p x ∣ b) :
    roundBits p x < b ↔ x + halfPlace p x < b := by
  obtain ⟨c, rfl⟩ := h
  rw [roundBits, halfPlace]
  cases lost p x with
  | zero => simp [Nat.mod_one]
  | succ e =>
    have hv : 0 < 2 ^ e := Nat.two_pow_pos e
    rw [Nat.pow_succ']
    generalize 2 ^ e = v at hv
    have hx := Nat.div_add_mod x (2 * v)
    have hr := Nat.mod_lt x (show 0 < 2 * v by omega)
    generalize x / (2 * v) = q at hx
    generalize x % (2 * v) = r at hx hr
    rw [show 2 * (2 * v) * c = 2 * v * (2 * c) by ring,
      Nat.mul_div_cancel_left v (show 0 < 2 by decide)]
    have hle : ∀ n, n ≤ 2 * c ↔ 2 * v * n ≤ 2 * v * (2 * c) := fun n =>
      (Nat.mul_le_mul_left_iff (by omega)).symm
    have hge : ∀ n, 2 * c ≤ n ↔ 2 * v * (2 * c) ≤ 2 * v * n := fun n =>
      (Nat.mul_le_mul_left_iff (by omega)).symm
    have h0 := hge q
    have h1 := hle (q + 1)
    have h1' := hge (q + 1)
    have h2 := hle (q + 2)
    simp only [Nat.mul_add (2 * v) q] at h1 h1' h2
    split
    · rw [Nat.mul_comm q, Nat.mul_lt_mul_left (by omega)]
      omega
    · rw [Nat.mul_comm (q + 1), Nat.mul_lt_mul_left (by omega)]
      omega

end Rounding
