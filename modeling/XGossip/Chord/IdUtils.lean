import XGossip.Lib.Circle
import XGossip.Sig

namespace XGossip
set_option autoImplicit true
open Circle

def NBIT : Nat := 160

def incID (n : ChordID) : ChordID := if n + 1 ≥ 2 ^ NBIT then n + 1 - 2 ^ NBIT else n + 1

def decID (n : ChordID) : ChordID := if n = 0 then 2 ^ NBIT - 1 else n - 1

def successorID (n : ChordID) (p : Nat) : ChordID := (n + 2 ^ p) % 2 ^ NBIT

def between (a b n : ChordID) : Bool :=
  if a = b then n ≠ a else if a < b then n > a ∧ n < b else n > a ∨ n < b

/-- Check whether n in [a,b] on the circle. The circle from a point to itself is all of it. -/
def betweenbothincl (a b n : ChordID) : Bool :=
  if a = b ∧ n = a then true else if a < b then n ≥ a ∧ n ≤ b else n ≥ a ∨ n ≤ b

def betweenleftincl (a b n : ChordID) : Bool :=
  if a = b ∧ n = a then true else if a < b then n ≥ a ∧ n < b else n ≥ a ∨ n < b

def betweenrightincl (a b n : ChordID) : Bool :=
  if a = b ∧ n = a then true else if a < b then n > a ∧ n ≤ b else n > a ∨ n ≤ b

/-- The way from a to b on the circle. From a point to itself it is once around. -/
def distance (a b : ChordID) : ChordID := if a < b then b - a else 2 ^ NBIT - a + b

variable {a b n : Nat}

theorem incID_of_lt (h : n + 1 < 2 ^ NBIT) : incID n = n + 1 := if_neg (Nat.not_le.2 h)

theorem between_iff_of_lt (h : a < b) : between a b n ↔ a < n ∧ n < b := by
  simp [between, h, Nat.ne_of_lt h]

theorem betweenbothincl_iff_of_lt (h : a < b) : betweenbothincl a b n ↔ a ≤ n ∧ n ≤ b := by
  simp [betweenbothincl, h, Nat.ne_of_lt h]

theorem betweenbothincl_of_le (h : a ≤ n) (h' : n ≤ b) : betweenbothincl a b n := by
  rcases Nat.lt_or_eq_of_le (Nat.le_trans h h') with hlt | rfl
  · exact (betweenbothincl_iff_of_lt hlt).2 ⟨h, h'⟩
  · simp [betweenbothincl, h]

theorem successorID_lt (a p : Nat) : successorID a p < 2 ^ NBIT := Nat.mod_lt _ (by decide)

theorem gap_successorID {p : Nat} (ha : a < 2 ^ NBIT) (hp : p < NBIT) :
    gap (2 ^ NBIT) a (successorID a p) = 2 ^ p := by
  have hlt : 2 ^ p < 2 ^ NBIT := Nat.pow_lt_pow_right (by decide) hp
  have hpos := Nat.two_pow_pos p
  dsimp only [successorID, ChordID]
  generalize 2 ^ NBIT = N at *
  generalize 2 ^ p = d at *
  rcases Nat.lt_or_ge (a + d) N with h | h
  · rw [Nat.mod_eq_of_lt h, gap, if_pos (by omega)]
    omega
  · rw [Nat.mod_eq_sub_mod h, Nat.mod_eq_of_lt (by omega), gap, if_neg (by omega)]
    omega

section Distance

variable (ha : a < 2 ^ NBIT) (hb : b < 2 ^ NBIT) (hn : n < 2 ^ NBIT)
include ha

theorem incID_lt : incID a < 2 ^ NBIT := by
  dsimp only [incID, ChordID]
  split <;> omega

include hb

theorem distance_eq : distance a b = gap (2 ^ NBIT) (incID a) b + 1 := by
  dsimp only [distance, incID, gap, ChordID]
  split_ifs <;> omega

include hn

theorem between_iff : between a b n ↔ distance a n < distance a b := by
  dsimp only [between, distance, ChordID]
  split_ifs <;> simp <;> omega

theorem betweenleftincl_iff (h : n ≠ a) :
    betweenleftincl a b n ↔ distance a n < distance a b := by
  dsimp only [betweenleftincl, distance, ChordID]
  split_ifs <;> simp <;> omega

theorem betweenrightincl_iff : betweenrightincl a b n ↔ distance a n ≤ distance a b := by
  dsimp only [betweenrightincl, distance, ChordID]
  split_ifs <;> simp <;> omega

theorem distance_add (h : distance a n < distance a b) :
    distance a n + distance n b = distance a b := by
  dsimp only [distance, ChordID] at h ⊢
  split_ifs at h ⊢ <;> omega

end Distance

end XGossip
