import Mathlib.FieldTheory.Finite.Basic
import Mathlib.Tactic.NormNum.Prime
import XGossip.Lib.Elimination
import XGossip.Wire.Format

namespace XGossip
set_option autoImplicit true

/-! Information dispersal: a block is spread over fragments, `m` of which give it back. -/
namespace Ida

section Field

def field : Nat := 65537

def invPow (a : Nat) : Nat → Nat
  | 0 => a % field
  | n + 1 => invPow a n * invPow a n % field * a % field

/-- The table of inverses, which has the power to `field - 2` of each element. -/
def INV (a : Nat) : Nat := invPow a 15

def MUL (a b : Nat) : Nat := if a = field - 1 ∧ b = field - 1 then 1 else a * b % field

def DIV (a b : Nat) : Nat := MUL a (INV b)

/-- The difference is that of a `u_long`. -/
def SUB (a b : Nat) : Nat := (a + 2 ^ 64 - b + field) % 2 ^ 64 % field

def ADD (a b : Nat) : Nat := (a + b) % field

end Field

section Fragments

def magic : Byte := 0xef

/-- The byte at a position, and the next position: there is a NUL behind a string. -/
def nextByte (block : List Byte) (inp : Nat) : Nat × Nat :=
  if inp > block.length then (0, inp) else ((block.getD inp 0).toNat, inp + 1)

def encode (block : List Byte) : List Nat → Nat → Nat → Option Nat
  | [], _, cik => some cik
  | vj :: v, inp, cik =>
    let (b₁, inp) := nextByte block inp
    let (b₂, inp) := nextByte block inp
    let bi := b₁ <<< 8 ||| b₂
    if bi ≠ bi &&& 0xffff then none
    else
      let cik := ADD cik (MUL bi vj)
      if cik < field then encode block v inp cik else none

/-- The matrix row of a fragment, from random words: zeros are drawn again. -/
def drawRow : Nat → List Nat → Option (List Nat)
  | 0, _ => some []
  | m + 1, words =>
    match words.dropWhile (· % field = 0) with
    | [] => none
    | w :: words => do return w % field :: (← drawRow m words)

/-- One piece, with the row `v`. -/
def genFragElts (m : Nat) (block : List Byte) (v : List Nat) : Option (List Nat) := do
  let fraglen := (block.length + 2 * m - 1) / (2 * m)
  let data ← (List.range fraglen).mapM fun k => encode block v (k * 2 * m) 0
  return [3 + m + 1 + fraglen, block.length, m] ++ v ++ fraglen :: data

/-- The magic character and high-bit nums must be encoded carefully. -/
def packOne (c : Nat) : Option (List Byte) :=
  let c₁ := BitVec.ofNat 8 (c >>> 8)
  let c₂ := BitVec.ofNat 8 c
  if c / 2 ^ 24 % 2 ^ 8 ≠ 0 then none
  else if c / 2 ^ 16 % 2 ^ 16 ≠ 0 then some [magic, BitVec.ofNat 8 (c >>> 16), c₁, c₂]
  else if c₁ = magic then some [magic, 0, c₁, c₂]
  else some [c₁, c₂]

def pack (elts : List Nat) : Option (List Byte) := do
  let n := (sizeInt (← elts[0]?)).toInt.toNat
  if elts.length < n then none
  else return (← (elts.take n).mapM packOne).flatten

def genFrag (m : Nat) (block : List Byte) (words : List Nat) : Option (List Byte) := do
  if m = 0 then none
  else pack (← genFragElts m block (← drawRow m words))

abbrev Unpack := StateT (List Byte) Option

def checkHigh (x : Nat) (rest : List Byte) : Option (Nat × List Byte) :=
  if x / 2 ^ 24 % 2 ^ 8 ≠ 0 then none else some (x, rest)

def unpackone : Unpack Nat
  | c :: rest =>
    if c ≠ magic then
      match rest with
      | c₂ :: rest => checkHigh (c.toNat <<< 8 ||| c₂.toNat) rest
      | _ => none
    else
      match rest with
      | c₀ :: c₁ :: c₂ :: rest => checkHigh (c₀.toNat <<< 16 ||| c₁.toNat <<< 8 ||| c₂.toNat) rest
      | _ => none
  | [] => none

def unpackMany : Nat → Unpack (List Nat)
  | 0 => return []
  | n + 1 => do return (← unpackone) :: (← unpackMany n)

end Fragments

section Reconstruct

def swapAt (l : List α) (i r : Nat) : List α :=
  match l[i]?, l[r]? with
  | some a, some b => (l.set i b).set r a
  | _, _ => l

def randomShuffle (rand : Nat → Nat) (frags : List α) : List α :=
  (List.range frags.length).foldl (fun frags i => swapAt frags i (rand i % frags.length)) frags

/-- Sanity check a fragment and extract its row of the encoding matrix and its data, with the size
of the blocks; an inconsistent fragment gives nothing. -/
def readFrag (m rawlen blocksize : Nat) : Unpack (Option (List Nat × List Nat × Nat)) := do
  let len ← unpackone
  if len < m + 4 then return none
  else
    let myrawlen ← unpackone
    if myrawlen ≠ rawlen then return none
    else
      let mym ← unpackone
      if mym ≠ m then return none
      else
        let arow ← unpackMany m
        let myblocksize ← unpackone
        let blocksize := if blocksize = 0 then myblocksize else blocksize
        if blocksize ≠ myblocksize then return none
        else if len - (m + 4) ≠ blocksize then failure
        else
          let drow ← unpackMany (len - (m + 4))
          return some (arow, drow, blocksize)

structure Decode where
  frags : List (List Byte)
  a : List (List Nat)
  dfrags : List (List Nat)
  blocksize : Nat

/-- The loop over the first `m` fragments; where one is dropped, the next one takes its place and
is passed over. -/
def collect (m rawlen : Nat) : Nat → Nat → Decode → Option Decode
  | 0, _, s => some s
  | n + 1, i, s => do
    let (frag, _) ← readFrag m rawlen s.blocksize (← s.frags[i]?)
    match frag with
    | none => collect m rawlen n (i + 1) { s with frags := s.frags.eraseIdx i }
    | some (arow, drow, blocksize) =>
      collect m rawlen n (i + 1)
        { s with a := s.a ++ [arow], dfrags := s.dfrags ++ [drow], blocksize }

def reduceRow (to' : List (List Nat)) (r : Nat) : Option (List (List Nat)) :=
  let row := to'.getD r []
  let x := row.getD r 0
  if x = 0 then none
  else
    let pivot := row.map (DIV · x)
    some (to'.mapIdx fun r₁ row₁ =>
      if r₁ = r then pivot
      else
        let y := DIV (row₁.getD r 0) (pivot.getD r 0)
        row₁.zipWith (fun a b => SUB a (MUL y b)) pivot)

/-- The inverse of a matrix with `m` rows, by row reduction. -/
def minvert (m : Nat) (a : List (List Nat)) : Option (List (List Nat)) := do
  let to' := (a.take m).mapIdx fun r row =>
    row ++ (List.range m).map fun c => if r = c then 1 else 0
  return (← (List.range m).foldlM reduceRow to').map (·.drop m)

def decodeOne (c : List Nat) (row : List Nat) : Option (List Byte) :=
  let b := (c.zip row).foldl (fun b ca => ADD b (MUL ca.1 ca.2)) 0
  if b / 2 ^ 16 % 2 ^ 16 ≠ 0 then none
  else some [BitVec.ofNat 8 (b >>> 8), BitVec.ofNat 8 b]

def decode (a_inv dfrags : List (List Nat)) (blocksize : Nat) : Option (List Byte) := do
  let pairs ← (List.range blocksize).mapM fun inp => do
    a_inv.mapM (decodeOne (← dfrags.mapM (·[inp]?)))
  return pairs.flatten.flatten

/-- Where the outcome is `some none` the code returns false. -/
def reconstruct (rand : Nat → Nat) (f : List (List Byte)) : Option (Option (List Byte)) := do
  if f.length = 0 then return none
  else
    let frags := randomShuffle rand f
    let ((len, rawlen, m), _) ← (do return (← unpackone, ← unpackone, ← unpackone) : Unpack _).run
      (← frags[0]?)
    if len < m + 4 then return none
    else if frags.length < m then return none
    else
      let s ← collect m rawlen m 0 ⟨frags, [], [], 0⟩
      if s.frags.length < m then return none
      else if s.a.length < m then none
      else
        match minvert m s.a with
        | none => return none
        | some a_inv =>
          let out ← decode a_inv s.dfrags s.blocksize
          if out.length < rawlen then none
          else return some (out.take rawlen)

end Reconstruct

end Ida

end XGossip
