import XGossip.Lib.Gf2
import XGossip.Sig

open Polynomial

namespace XGossip
set_option autoImplicit true

open Gf2

/-- The loop of `getDegree` over the masks below bit `i`. -/
def getDegreeLoop (z : POLY) : Nat → Int
  | 0 => -1
  | i + 1 => if (1#32 <<< i) &&& z ≠ 0 then i else getDegreeLoop z i

/-- `getDegree` of one word. -/
def getDegreeWord (z : POLY) : Int := getDegreeLoop z 32

/-- The degree of a signature that is not empty, before `getDegree` makes an `int` of it. The
functions of this module compute with it; those of `Words` are the ones of the source. -/
def fullDegree (myPoly : Sig) : Int := (myPoly.length - 1) * 32 + getDegreeWord (myPoly.headD 0)

def INT_MAX : Int := 2147483647

def INT_MIN : Int := -2147483648

/-- The degree is one that an `int` can have. -/
def FitsInt (s : Sig) : Prop := fullDegree s ≤ INT_MAX

instance : Decidable (FitsInt s) := inferInstanceAs (Decidable (_ ≤ _))

def ONEFLAG : POLY := 0xffffffff

def shiftLeftLoop (numBits : Nat) : Sig → Sig × POLY
  | [] => ([], 0)
  | w :: ws =>
    let (ws, prevmsb) := shiftLeftLoop numBits ws
    (((w <<< numBits) ||| prevmsb) :: ws, (w &&& (ONEFLAG <<< (32 - numBits))) >>> (32 - numBits))

def shiftLeft (myPoly : Sig) (numBits : Nat) : Sig :=
  if numBits = 0 then myPoly
  else if numBits = 32 then myPoly ++ [0]
  else
    let (ws, prevmsb) := shiftLeftLoop numBits myPoly
    if prevmsb > 0 then prevmsb :: ws else ws

def shiftRightLoop (numBits : Nat) : POLY → Sig → Sig
  | prevlsb, [] => if prevlsb > 0 then [prevlsb] else []
  | prevlsb, w :: ws =>
    ((w >>> numBits) ||| prevlsb) ::
      shiftRightLoop numBits ((w &&& (ONEFLAG >>> (32 - numBits))) <<< (32 - numBits)) ws

/-- The low bits move into a new word behind the others; one empty word in front is removed. -/
def shiftRight (myPoly : Sig) (numBits : Nat) : Sig :=
  if numBits = 0 ∨ numBits = 32 then myPoly
  else
    match shiftRightLoop numBits 0 myPoly with
    | [] => []
    | w :: ws => if w = 0 then ws else w :: ws

/-- `r[j] ^= gtemp[j]` for every `j` that both lists have. -/
def xorWords : Sig → Sig → Sig
  | r :: rs, g :: gs => (r ^^^ g) :: xorWords rs gs
  | rs, _ => rs

/-- The variables of the loop that `remainder` and `quotient` share; only the latter uses `q`. -/
structure DivState where
  r : Sig
  gtemp : Sig
  i : Nat
  bitMask : POLY
  q : Sig

def setLowBit (q : Sig) : Sig := q.dropLast ++ [q.getLastD 0 ||| 1]

def divStep (k : Int) (s : DivState) : DivState :=
  let q := shiftLeft s.q 1
  let isSet := (s.r.getD s.i 0 &&& s.bitMask) > 0
  { r := if isSet then s.r.take s.i ++ xorWords (s.r.drop s.i) s.gtemp else s.r
    gtemp := shiftRight s.gtemp 1
    i := if k % 32 = 0 then s.i + 1 else s.i
    bitMask := if k % 32 = 0 then 1#32 <<< 31 else s.bitMask >>> 1
    q := if isSet then setLowBit q else q }

/-- The last `n` rounds of the loop, which ends at `gFullDegree`. -/
def divLoop (gFullDegree : Int) : Nat → DivState → DivState
  | 0, s => s
  | n + 1, s => divLoop gFullDegree n (divStep (gFullDegree + n) s)

/-- The state in front of the loop: `g` moved so that its highest bit meets that of `f`. -/
def divInit (f g : Sig) : DivState :=
  let fdeg := getDegreeWord (f.headD 0)
  let gdeg := getDegreeWord (g.headD 0)
  { r := f
    gtemp := if fdeg > gdeg then shiftLeft g (fdeg - gdeg).toNat
      else shiftRight g (gdeg - fdeg).toNat
    i := 0
    bitMask := 1#32 <<< fdeg.toNat
    q := [0] }

def divide (f g : Sig) : DivState :=
  divLoop (fullDegree g) (fullDegree f - fullDegree g + 1).toNat (divInit f g)

def eraseLeading : Sig → Sig
  | w :: v :: ws => if w > 0 then w :: v :: ws else eraseLeading (v :: ws)
  | ws => ws

def remainder (f g : Sig) : Sig :=
  if fullDegree f < fullDegree g then f else eraseLeading (divide f g).r

def quotient (f g : Sig) : Sig := (divide f g).q

/-- The recursion of `gcd`, for at most `n` calls. -/
def gcdLoop : Nat → Sig → Sig → Sig
  | 0, f, _ => f
  | n + 1, f, g => if g = [0] then f else gcdLoop n g (remainder f g)

def gcd (f g : Sig) : Sig := gcdLoop (32 * g.length + 1) f g

/-- `gcd` with the polynomial of the larger degree on the left. -/
def gcdSpecial (f g : Sig) : Sig := if fullDegree f ≥ fullDegree g then gcd f g else gcd g f

/-- The product of a word with `x`, added to what is left over from the words behind it. -/
def multiplyWordLoop : Nat → POLY → BitVec 64 → BitVec 64 → BitVec 64
  | 0, _, _, product => product
  | n + 1, x, y, product =>
    if x > 0 then
      multiplyWordLoop n (x >>> 1) (y <<< 1) (if x &&& 1 > 0 then product ^^^ y else product)
    else product

def multiplyLoop (multiplier : POLY) : Sig → Sig × BitVec 64
  | [] => ([], 0)
  | w :: ws =>
    let (res, product) := multiplyLoop multiplier ws
    let product := multiplyWordLoop 32 multiplier (w.setWidth 64) product
    (product.setWidth 32 :: res, product >>> 32)

/-- `multiplyPoly` by one word. -/
def multiplyPolyWord (multiplicand : Sig) (multiplier : POLY) : Sig :=
  let (res, product) := multiplyLoop multiplier multiplicand
  if product > 0 then product.setWidth 32 :: res else res

/-- The sum of two polynomials given by their words from the last one on. -/
def addWords : Sig → Sig → Sig
  | x :: xs, y :: ys => (x ^^^ y) :: addWords xs ys
  | [], ys => ys
  | xs, [] => xs

def addPoly (x y : Sig) : Sig := (addWords x.reverse y.reverse).reverse

def multiplyPolyLoop (f : Sig) : Sig → Sig → Sig
  | res, [] => res
  | res, w :: ws =>
    let res := addPoly res (multiplyPolyWord f w)
    multiplyPolyLoop f (if ws = [] then res else shiftLeft res 32) ws

def multiplyPoly (f g : Sig) : Sig := multiplyPolyLoop f [] g

/-- The least common multiple of `t` and `s`, whose greatest common divisor is given. -/
def lcmSpecial (t s g : Sig) : Sig :=
  if t = [1] ∧ s = [1] then t
  else
    let q := if fullDegree s ≥ fullDegree g then quotient s g else quotient g s
    multiplyPoly t q

def lcm (t s : Sig) : Sig := lcmSpecial t s (gcdSpecial t s)

end XGossip
