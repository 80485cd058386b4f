import Mathlib.Algebra.Group.Basic
import XGossip.Wire.RoundTrip

namespace XGossip
set_option autoImplicit true

open Codec

section Layout

/-- The `int` at an offset of a message. -/
def intAt (buf : List Byte) (p : Int) : BitVec 32 := BitVec.ofNat 32 (ofLE (slice buf p 4))

def Inside (buf : List Byte) (p n : Int) : Prop := 0 ≤ p ∧ p + n ≤ buf.length

/-- Where a string or a signature at an offset ends, as its length says. -/
def lenEnd (buf : List Byte) (p : Int) : Int := p + 4 + (intAt buf p).toInt

/-- A string at an offset is in the message with its length, which is not negative. -/
def StrInside (buf : List Byte) (p : Int) : Prop :=
  Inside buf p 4 ∧ 0 ≤ (intAt buf p).toInt ∧ Inside buf (p + 4) (intAt buf p).toInt

/-- A signature at an offset has its length and its whole POLYs in the message. -/
def SigInside (buf : List Byte) (p : Int) : Prop :=
  Inside buf p 4 ∧ Inside buf (p + 4) (4 * ((intAt buf p).toInt.tdiv 4).toNat)

def HeaderInside (buf : List Byte) : Prop := StrInside buf 8 ∧ StrInside buf (lenEnd buf 8)

def bodyStart (buf : List Byte) : Int := lenEnd buf (lenEnd buf 8)

def InitInside (buf : List Byte) : Prop :=
  HeaderInside buf ∧ SigInside buf (bodyStart buf) ∧ Inside buf (lenEnd buf (bodyStart buf)) 16

def QueryInside (buf : List Byte) : Prop :=
  HeaderInside buf ∧ StrInside buf (bodyStart buf) ∧ SigInside buf (lenEnd buf (bodyStart buf)) ∧
    Inside buf (lenEnd buf (lenEnd buf (bodyStart buf))) 4

/-- An entry of an exec message with its frequency and its weight. -/
def EntryInside (buf : List Byte) (p : Int) : Prop := SigInside buf p ∧ Inside buf (lenEnd buf p) 16

def entryEnd (buf : List Byte) (p : Int) : Int := lenEnd buf p + 16

/-- Each entry begins where the one in front of it has ended. -/
def ExecInside (buf : List Byte) : Prop :=
  HeaderInside buf ∧ Inside buf (bodyStart buf) 8 ∧
    ∀ i < (intAt buf (bodyStart buf + 4)).toInt.toNat,
      EntryInside buf ((entryEnd buf)^[i] (bodyStart buf + 8))

/-- The rows of the bitmap, and then a frequency and a weight for each signature. -/
def CompressedInside (buf : List Byte) : Prop :=
  HeaderInside buf ∧ Inside buf (bodyStart buf) 12 ∧
    Inside buf (bodyStart buf + 12)
      ((intAt buf (bodyStart buf + 8)).toInt.toNat *
          (4 + (ceil8 (intAt buf (bodyStart buf + 4))).toNat) +
        (intAt buf (bodyStart buf + 4)).toInt.toNat * 16)

end Layout

section Readers

variable {buf : List Byte} {p : Int}

theorem getInt_decides (buf : List Byte) (p : Int) :
    Decides getInt buf p (Inside buf p 4) (intAt buf p) (p + 4) :=
  (Decides.get buf p 4).map fun bs => BitVec.ofNat 32 (ofLE bs)

theorem getDouble_decides (buf : List Byte) (p : Int) : Decides getDouble buf p (Inside buf p 8)
    (BitVec.ofNat 64 (ofLE (slice buf p 8))) (p + 8) :=
  (Decides.get buf p 8).map fun bs => BitVec.ofNat 64 (ofLE bs)

theorem getStr_decides (buf : List Byte) (p : Int) :
    Decides getStr buf p (StrInside buf p) (slice buf (p + 4) (intAt buf p).toNat)
      (lenEnd buf p) := by
  have hcast : 0 ≤ (intAt buf p).toInt → ((intAt buf p).toNat : Int) = (intAt buf p).toInt := by
    intro h
    rw [BitVec.toInt_eq_toNat_cond] at h ⊢
    split at h
    · next hlt => rw [if_pos hlt]
    · omega
  have hstr : Decides getStr buf p (Inside buf p 4 ∧ ¬ (intAt buf p).toInt < 0 ∧
      Inside buf (p + 4) (intAt buf p).toNat) _ _ :=
    (getInt_decides buf p).bind fun _ => Decides.guard (Decides.get buf (p + 4) _)
  refine (hstr.congr ?_).stop_at ?_
  · rw [StrInside, Int.not_lt]
    refine and_congr_right fun _ => and_congr_right fun h => ?_
    rw [hcast h]
  · rintro ⟨-, h, -⟩
    rw [hcast h]
    rfl

theorem iterate_add (d p : Int) (n : Nat) : (fun q => q + d)^[n] p = p + n * d := by
  induction n generalizing p with
  | zero => simp
  | succ n ih =>
    rw [Function.iterate_succ_apply, ih]
    push_cast
    ring

/-- Readers of `d` bytes each that are repeated read one piece. -/
theorem Decides.pieces {act : Reader α} {A : Int → α} (d : Nat)
    (h : ∀ q, Decides act buf q (Inside buf q d) (A q) (q + d)) (n : Nat) (p : Int) :
    Decides (repeatM act n) buf p (n = 0 ∨ Inside buf p (n * d))
      ((List.range n).map fun i : Nat => A (p + i * d)) (p + n * d) := by
  have hrep := Decides.repeatM h n p
  simp only [iterate_add] at hrep
  refine hrep.congr ?_
  constructor
  · intro hall
    cases n with
    | zero => exact .inl rfl
    | succ n =>
      have hfirst := (hall 0 (by omega)).1
      have hlast := (hall n (by omega)).2
      refine .inr ⟨by simpa using hfirst, ?_⟩
      push_cast
      rwa [add_mul, one_mul, ← add_assoc]
  · rintro (rfl | ⟨hp, hn⟩) i hi
    · omega
    · have hmul : ((i + 1 : Nat) : Int) * d ≤ n * d :=
        mul_le_mul_of_nonneg_right (by exact_mod_cast hi) (Int.natCast_nonneg d)
      have hpos : (0 : Int) ≤ i * d := mul_nonneg (Int.natCast_nonneg i) (Int.natCast_nonneg d)
      push_cast at hmul
      rw [add_mul, one_mul] at hmul
      exact ⟨by omega, by omega⟩

theorem getSig_decides (buf : List Byte) (p : Int) : Decides getSig buf p (SigInside buf p)
    ((List.range ((intAt buf p).toInt.tdiv 4).toNat).map fun i : Nat => intAt buf (p + 4 + i * 4))
    (lenEnd buf p) := by
  have hwords := Decides.pieces 4 (getInt_decides buf) ((intAt buf p).toInt.tdiv 4).toNat (p + 4)
  have hsig : Decides getSig buf p _ _ _ :=
    (getInt_decides buf p).bind fun _ => Decides.tell.bind fun _ => hwords.bind fun _ =>
      (Decides.seek _).map fun _ => _
  refine hsig.congr (and_congr_right fun h => ?_)
  simp only [Inside, true_and, and_true, Nat.cast_ofNat] at h ⊢
  omega

end Readers

section Decoders

variable {buf : List Byte} {p : Int}

/-- The part all formats begin with, and the body behind it, which begins with the key. -/
theorem getHeader_decides {body : List Byte → List Byte → Reader α} {c : Prop} {q : Int}
    (h8 : 8 ≤ buf.length)
    (h : ∀ key teamid, ∃ a, Decides (body key teamid) buf (bodyStart buf) c a q) :
    (∃ ret reads, runReader (getHeader recvlen body) buf = some (ret, reads) ∧
      ∀ o ∈ reads, 0 ≤ o ∧ o < buf.length) ↔
    (intAt buf 4 ≠ recvlen ∨ HeaderInside buf ∧ c) := by
  have htype := getInt_decides buf 0
  have hlen := getInt_decides buf 4
  by_cases hne : recvlen ≠ intAt buf 4
  · have hnone : Decides (getHeader recvlen body) buf 0 (Inside buf 0 4 ∧ Inside buf 4 4 ∧ True)
        none _ := htype.bind fun _ => hlen.bind fun _ => by
      rw [if_pos hne]
      exact Decides.pure none
    rw [hnone.run]
    refine iff_of_true ⟨⟨?_, ?_⟩, ⟨?_, ?_⟩, trivial⟩ (.inl (Ne.symm hne)) <;> omega
  · obtain ⟨a, ha⟩ := h (slice buf (8 + 4) (intAt buf 8).toNat)
      (slice buf (lenEnd buf 8 + 4) (intAt buf (lenEnd buf 8)).toNat)
    have hsome : Decides (getHeader recvlen body) buf 0 (Inside buf 0 4 ∧ Inside buf 4 4 ∧
        StrInside buf 8 ∧ StrInside buf (lenEnd buf 8) ∧ c) (some a) q :=
      htype.bind fun _ => hlen.bind fun _ => by
        rw [if_neg hne]
        exact (getStr_decides buf 8).bind fun _ => (getStr_decides buf (lenEnd buf 8)).bind fun _ =>
          ha.map some
    rw [hsome.run, HeaderInside]
    have h0 : Inside buf 0 4 := ⟨by omega, by omega⟩
    have h4 : Inside buf 4 4 := ⟨by omega, by omega⟩
    have heq : ¬ intAt buf 4 ≠ recvlen := fun h => hne (Ne.symm h)
    tauto

theorem getKeyValueInit_decides (h8 : 8 ≤ buf.length) :
    (∃ ret reads, runReader (getKeyValueInit recvlen) buf = some (ret, reads) ∧
      ∀ o ∈ reads, 0 ≤ o ∧ o < buf.length) ↔ (intAt buf 4 ≠ recvlen ∨ InitInside buf) := by
  refine (getHeader_decides h8 fun key teamid => ⟨_, (getSig_decides _ _).bind fun _ =>
    (getDouble_decides _ _).bind fun _ => (getDouble_decides _ _).map _⟩).trans ?_
  rw [InitInside]
  refine or_congr_right (and_congr_right fun _ => and_congr_right fun _ => ?_)
  simp only [Inside]
  omega

theorem getKeyValueQuery_decides (h8 : 8 ≤ buf.length) :
    (∃ ret reads, runReader (getKeyValueQuery recvlen) buf = some (ret, reads) ∧
      ∀ o ∈ reads, 0 ≤ o ∧ o < buf.length) ↔ (intAt buf 4 ≠ recvlen ∨ QueryInside buf) :=
  getHeader_decides h8 fun _ _ => ⟨_, (getStr_decides _ _).bind fun _ =>
    (getSig_decides _ _).bind fun _ => (getInt_decides _ _).map _⟩

theorem getEntry_decides (buf : List Byte) (p : Int) :
    ∃ a, Decides (do
      let sig ← getSig
      let freq ← getDouble
      let weight ← getDouble
      return (sig, freq, weight)) buf p (EntryInside buf p) a (entryEnd buf p) := by
  have hentry : Decides (do
      let sig ← getSig
      let freq ← getDouble
      let weight ← getDouble
      return (sig, freq, weight)) buf p _ _ _ :=
    (getSig_decides buf p).bind fun _ => (getDouble_decides buf (lenEnd buf p)).bind fun _ =>
      (getDouble_decides buf (lenEnd buf p + 8)).map _
  refine ⟨_, (hentry.congr (and_congr_right fun _ => ?_)).stop_at fun _ => ?_⟩
  · simp only [Inside]
    omega
  · rw [entryEnd]
    omega

theorem getKeyValueExec_decides (h8 : 8 ≤ buf.length) :
    (∃ ret reads, runReader (getKeyValueExec recvlen) buf = some (ret, reads) ∧
      ∀ o ∈ reads, 0 ≤ o ∧ o < buf.length) ↔ (intAt buf 4 ≠ recvlen ∨ ExecInside buf) := by
  choose A hA using getEntry_decides buf
  refine (getHeader_decides h8 fun key teamid => ⟨_, (getInt_decides _ _).bind fun _ =>
    (getInt_decides _ _).bind fun _ => (Decides.repeatM hA _ _).map _⟩).trans ?_
  rw [ExecInside, show bodyStart buf + 4 + 4 = bodyStart buf + 8 by omega]
  refine or_congr_right (and_congr_right fun _ => ?_)
  rw [← and_assoc]
  refine and_congr_left fun _ => ?_
  simp only [Inside]
  omega

theorem getRow_decides (buf : List Byte) (w : Nat) (p : Int) :
    ∃ a, Decides (do
      let poly ← getInt
      let row ← repeatM (do return (← get 1).headD 0) w
      return (poly, row)) buf p (Inside buf p (4 + w : Nat)) a (p + (4 + w : Nat)) := by
  have hbit : ∀ q, Decides (do return (← get 1).headD 0) buf q (Inside buf q (1 : Nat))
      ((slice buf q 1).headD 0) (q + (1 : Nat)) := fun q =>
    (Decides.get buf q 1).map fun bs => bs.headD 0
  have hrow : Decides (do
      let poly ← getInt
      let row ← repeatM (do return (← get 1).headD 0) w
      return (poly, row)) buf p _ _ _ :=
    (getInt_decides buf p).bind fun _ => (Decides.pieces 1 hbit w (p + 4)).map _
  refine ⟨_, (hrow.congr ?_).stop_at fun _ => ?_⟩
  · simp only [Inside]
    omega
  · push_cast
    omega

theorem getPair_decides (buf : List Byte) (p : Int) :
    ∃ a, Decides (do
      let freq ← getDouble
      let weight ← getDouble
      return (freq, weight)) buf p (Inside buf p (16 : Nat)) a (p + (16 : Nat)) := by
  have hpair : Decides (do
      let freq ← getDouble
      let weight ← getDouble
      return (freq, weight)) buf p _ _ _ :=
    (getDouble_decides buf p).bind fun _ => (getDouble_decides buf (p + 8)).map _
  refine ⟨_, (hpair.congr ?_).stop_at fun _ => ?_⟩
  · simp only [Inside]
    omega
  · push_cast
    omega

theorem inside_rows {n m d : Nat} (hp : Inside buf p 0) :
    (n = 0 ∨ Inside buf p (n * d)) ∧ (m = 0 ∨ Inside buf (p + n * d) (m * (16 : Nat))) ↔
      Inside buf p (n * d + m * 16) := by
  have hrows : (0 : Int) ≤ n * d := mul_nonneg (Int.natCast_nonneg n) (Int.natCast_nonneg d)
  have hzero : n = 0 → (n : Int) * d = 0 := by
    rintro rfl
    simp
  generalize (n : Int) * d = rows at *
  simp only [Inside, Nat.cast_ofNat] at hp ⊢
  omega

theorem getKeyValueCompressed_decides (h8 : 8 ≤ buf.length) :
    (∃ ret reads, runReader (getKeyValueCompressed recvlen) buf = some (ret, reads) ∧
      ∀ o ∈ reads, 0 ≤ o ∧ o < buf.length) ↔ (intAt buf 4 ≠ recvlen ∨ CompressedInside buf) := by
  choose A hA using getRow_decides buf (ceil8 (intAt buf (bodyStart buf + 4))).toNat
  choose B hB using getPair_decides buf
  refine (getHeader_decides h8 fun key teamid => ⟨_, (getInt_decides _ _).bind fun _ =>
    (getInt_decides _ _).bind fun _ => (getInt_decides _ _).bind fun _ =>
      (Decides.pieces _ hA _ _).bind fun _ => (Decides.pieces _ hB _ _).map _⟩).trans ?_
  rw [CompressedInside, show bodyStart buf + 4 + 4 = bodyStart buf + 8 by omega,
    show bodyStart buf + 8 + 4 = bodyStart buf + 12 by omega]
  refine or_congr_right (and_congr_right fun _ => ?_)
  have hfields : Inside buf (bodyStart buf) 12 ↔ Inside buf (bodyStart buf) 4 ∧
      Inside buf (bodyStart buf + 4) 4 ∧ Inside buf (bodyStart buf + 8) 4 := by
    simp only [Inside]
    omega
  rw [hfields, and_assoc, and_assoc]
  refine and_congr_right fun hp => and_congr_right fun _ => and_congr_right fun h12 => ?_
  have hend : Inside buf (bodyStart buf + 12) 0 := by
    simp only [Inside] at hp h12 ⊢
    omega
  have hrows := inside_rows (n := (intAt buf (bodyStart buf + 8)).toInt.toNat)
    (m := (intAt buf (bodyStart buf + 4)).toInt.toNat)
    (d := 4 + (ceil8 (intAt buf (bodyStart buf + 4))).toNat) hend
  push_cast at hrows ⊢
  exact hrows

/-- The gossip decoders stay inside of a message exactly if its length is refused or the lengths and
the counts in it do not lead out of it. -/
theorem decoders_inside_iff (buf : List Byte) (h8 : 8 ≤ buf.length) :
    ((∃ ret reads, runReader (getKeyValueExec (sizeInt buf.length)) buf = some (ret, reads) ∧
      ∀ o ∈ reads, 0 ≤ o ∧ o < buf.length) ↔
        intAt buf 4 ≠ sizeInt buf.length ∨ ExecInside buf) ∧
    ((∃ ret reads, runReader (getKeyValueCompressed (sizeInt buf.length)) buf = some (ret, reads) ∧
      ∀ o ∈ reads, 0 ≤ o ∧ o < buf.length) ↔
        intAt buf 4 ≠ sizeInt buf.length ∨ CompressedInside buf) ∧
    ((∃ ret reads, runReader (getKeyValueInit (sizeInt buf.length)) buf = some (ret, reads) ∧
      ∀ o ∈ reads, 0 ≤ o ∧ o < buf.length) ↔
        intAt buf 4 ≠ sizeInt buf.length ∨ InitInside buf) ∧
    ((∃ ret reads, runReader (getKeyValueQuery (sizeInt buf.length)) buf = some (ret, reads) ∧
      ∀ o ∈ reads, 0 ≤ o ∧ o < buf.length) ↔
        intAt buf 4 ≠ sizeInt buf.length ∨ QueryInside buf) :=
  ⟨getKeyValueExec_decides h8, getKeyValueCompressed_decides h8, getKeyValueInit_decides h8,
    getKeyValueQuery_decides h8⟩

/-- An init message with a key of two bytes, a team ID of one and a signature of two POLYs. -/
def twoPolyInit : List Byte :=
  intBytes InsertType.INITGOSSIP.code ++ intBytes 47 ++ (intBytes 2 ++ [49, 50]) ++
    (intBytes 1 ++ [55]) ++ (intBytes 8 ++ intBytes 5 ++ intBytes 7) ++
    ([0, 0, 0, 0, 0, 0, 0xf0, 0x3f] ++ [0, 0, 0, 0, 0, 0, 0, 0x40])

theorem decoders_inside_init :
    ∃ ret reads, runReader (getKeyValueInit (sizeInt twoPolyInit.length)) twoPolyInit =
      some (ret, reads) ∧ ∀ o ∈ reads, 0 ≤ o ∧ o < twoPolyInit.length := by
  have hkey : StrInside twoPolyInit 8 := ⟨⟨by decide, by decide⟩, by decide, by decide, by decide⟩
  have hteamid : StrInside twoPolyInit 14 :=
    ⟨⟨by decide, by decide⟩, by decide, by decide, by decide⟩
  have hsig : SigInside twoPolyInit 19 := ⟨⟨by decide, by decide⟩, by decide, by decide⟩
  have hrest : Inside twoPolyInit 31 16 := ⟨by decide, by decide⟩
  exact (decoders_inside_iff twoPolyInit (by decide)).2.2.1.2
    (.inr ⟨⟨hkey, hteamid⟩, hsig, hrest⟩)

/-- The key of this message is said to have 100 bytes. -/
theorem decoders_leave_message : ¬ ∀ buf : List Byte, 8 ≤ buf.length →
    (∃ ret reads, runReader (getKeyValueExec (sizeInt buf.length)) buf = some (ret, reads) ∧
      ∀ o ∈ reads, 0 ≤ o ∧ o < buf.length) ∧
    (∃ ret reads, runReader (getKeyValueCompressed (sizeInt buf.length)) buf = some (ret, reads) ∧
      ∀ o ∈ reads, 0 ≤ o ∧ o < buf.length) ∧
    (∃ ret reads, runReader (getKeyValueInit (sizeInt buf.length)) buf = some (ret, reads) ∧
      ∀ o ∈ reads, 0 ≤ o ∧ o < buf.length) ∧
    ∃ ret reads, runReader (getKeyValueQuery (sizeInt buf.length)) buf = some (ret, reads) ∧
      ∀ o ∈ reads, 0 ≤ o ∧ o < buf.length := by
  intro h
  obtain ⟨-, -, ⟨ret, reads, hrun, -⟩, -⟩ :=
    h (intBytes InsertType.INITGOSSIP.code ++ intBytes 12 ++ intBytes 100) (by decide)
  have hnone : runReader (getKeyValueInit 12)
      (intBytes InsertType.INITGOSSIP.code ++ intBytes 12 ++ intBytes 100) = none := by rfl
  cases hnone.symm.trans hrun

end Decoders

end XGossip
