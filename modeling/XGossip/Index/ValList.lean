import XGossip.Index.Filter
import XGossip.Index.FindMod
import XGossip.Index.Words
import XGossip.Lib.Text

open Polynomial

namespace XGossip
set_option autoImplicit true

open Codec Gf2 Text

section Code

/-- A condition on a value: the string it is compared with and the operator. -/
structure ValPred where
  val : List Byte
  OP : BitVec 32
deriving DecidableEq

/-- `std::multimap<POLY, std::pair<std::string, enum OPTYPE> >`, in the order of its keys. -/
abbrev ValList := List (POLY × ValPred)

/-- `multimap::insert`, behind the entries with the same key. -/
def ValList.insert (valList : ValList) (e : POLY × ValPred) : ValList :=
  match valList with
  | [] => [e]
  | e' :: valList => if e.1 < e'.1 then e :: e' :: valList else e' :: ValList.insert valList e

/-- One condition of the file. To read no bytes does not succeed, and `predVal` has 128 bytes, the
last of which is needed for the 0. -/
def getValPred : Reader (POLY × ValPred) := do
  let p ← getInt
  let size ← getInt
  if size.toInt < 1 ∨ size.toInt ≥ 128 then failure
  let predVal ← get size.toNat
  let OP ← getInt
  return (p, ⟨predVal.takeWhile (· ≠ 0), OP⟩)

/-- `readValues` -/
def readValues : Reader ValList := do
  let num ← getInt
  let items ← repeatM getValPred num.toInt.toNat
  return items.foldl ValList.insert []

/-- `%d` -/
def showInt (n : Int) : List Char := if n < 0 then '-' :: showNat n.natAbs else showNat n.natAbs

/-- The name of the index that the text and the values of a key polynomial are inserted in. -/
def indexName (keyPoly : POLY) : List Char := showNat keyPoly.toNat

def chooseIndex (tagName : List Char) (valList : ValList) : List Char :=
  match valList with
  | [] => tagName
  | (p, _) :: _ => showInt p.toInt

def ROOTNODEID : List Char := ['r', 'o', 'o', 't', '.', 'n', 'o', 'd', 'e', '.', 'i', 'd']

/-- The text that is hashed for the ID of the root node of a replica. -/
def rootText (INDEXNAME REPLICAID : List Char) : List Char := INDEXNAME ++ ROOTNODEID ++ REPLICAID

def isStrValue (input : List Byte) : Bool := input.all fun c => ¬ (c > 57 ∨ c < 48)

/-- `atoi` -/
def atoi (s : List Byte) : BitVec 32 := BitVec.ofInt 32 (strtol (s.map fun c => Char.ofNat c.toNat))

/-- The signature and the operator that the first condition is asked with. -/
def getValArgs (valList : ValList) : Option (Sig × BitVec 32) := do
  let (p, e) ← valList.head?
  if isStrValue e.val then return ([atoi e.val, atoi e.val], e.OP)
  else return ([findMod e.val p], e.OP)

/-- The test for divisibility as the source has it; a word outside of a vector gives `none`. -/
def Words.dividesSig (entrySig valSig : Sig) : Option Bool := do
  let dega ← Words.getDegree entrySig
  let degb ← Words.getDegree valSig
  if dega ≥ degb then return (← Words.remainder entrySig valSig) = [0] else return false

end Code

section Name

/-- A key polynomial is inserted in the index in which a query looks for it, in every replica; no
other key polynomial is inserted there or looks there. -/
structure SameIndex (p : POLY) : Prop where
  name : ∀ tagName e rest, chooseIndex tagName ((p, e) :: rest) = indexName p
  root : ∀ tagName e rest REPLICAID,
    rootText (chooseIndex tagName ((p, e) :: rest)) REPLICAID = rootText (indexName p) REPLICAID
  inserted : ∀ q, indexName q = indexName p → q = p
  chosen : ∀ tagName tagName' e e' rest rest' q,
    chooseIndex tagName' ((q, e') :: rest') = chooseIndex tagName ((p, e) :: rest) → q = p

theorem indexName_injective : Function.Injective indexName := by
  intro p q h
  exact BitVec.eq_of_toNat_eq (showNat_injective h)

theorem minus_ne_showNat (l : List Char) (n : Nat) : '-' :: l ≠ showNat n := by
  intro h
  have hd := isDigit_of_mem_showNat (n := n) (h ▸ List.mem_cons_self)
  exact absurd hd (by decide)

theorem showInt_injective : Function.Injective showInt := by
  intro a b h
  simp only [showInt] at h
  split at h
  · next ha =>
    split at h
    · next hb =>
      have habs := showNat_injective (List.cons.inj h).2
      omega
    · exact (minus_ne_showNat _ _ h).elim
  · next ha =>
    split at h
    · exact (minus_ne_showNat _ _ h.symm).elim
    · next hb =>
      have habs := showNat_injective h
      omega

theorem chooseIndex_injective
    (h : chooseIndex tagName' ((q, e') :: rest') = chooseIndex tagName ((p, e) :: rest)) :
    q = p := BitVec.eq_of_toInt_eq (showInt_injective h)

theorem showInt_eq_indexName (p : POLY) : showInt p.toInt = indexName p ↔ p.toNat < 2 ^ 31 := by
  rw [BitVec.toInt_eq_toNat_cond]
  constructor
  · intro h
    by_contra hge
    have hlt := p.isLt
    rw [if_neg (by omega), showInt, if_pos (by omega)] at h
    exact minus_ne_showNat _ _ h
  · intro hlt
    rw [if_pos (by omega), showInt, if_neg (by omega), Int.natAbs_natCast]
    rfl

theorem chooseIndex_ne_indexName (h : 2 ^ 31 ≤ p.toNat) (q : POLY) :
    chooseIndex tagName ((p, e) :: rest) ≠ indexName q := by
  have hlt := p.isLt
  have hneg : p.toInt < 0 := by
    rw [BitVec.toInt_eq_toNat_cond, if_neg (by omega)]
    omega
  rw [chooseIndex, showInt, if_pos hneg]
  exact minus_ne_showNat _ _

/-- Indexing and querying address the same index exactly for the key polynomials below 2^31. -/
theorem sameIndex_iff (p : POLY) : SameIndex p ↔ p.toNat < 2 ^ 31 := by
  constructor
  · intro h
    exact (showInt_eq_indexName p).1 (h.name [] ⟨[], 0⟩ [])
  · intro h
    have hname := (showInt_eq_indexName p).2 h
    refine ⟨fun _ _ _ => hname, fun _ _ _ REPLICAID => congrArg (rootText · REPLICAID) hname, ?_, ?_⟩
    · intro q hq
      exact indexName_injective hq
    · intro _ _ _ _ _ _ q hq
      exact chooseIndex_injective hq

/-- The polynomial X^31 + X^3 + 1, which is irreducible. -/
theorem not_sameIndex_degree_31 : ¬ SameIndex 0x80000009 ∧
    chooseIndex [] [(0x80000009, ⟨[], 0⟩)] ≠ indexName 0x80000009 := by
  have hne : chooseIndex [] [(0x80000009, ⟨[], 0⟩)] ≠ indexName 0x80000009 :=
    chooseIndex_ne_indexName (by decide) _
  exact ⟨fun h => hne (h.name [] ⟨[], 0⟩ []), hne⟩

end Name

section Divisor

theorem dividesSig_total {entrySig valSig : Sig} (hf : entrySig ≠ []) (hg : valSig ≠ [])
    (h₀ : 0 ≤ Words.toInt (fullDegree valSig)) :
    ∃ isDivides, Words.dividesSig entrySig valSig = some isDivides := by
  simp only [Words.dividesSig, Words.getDegree_toInt hf, Words.getDegree_toInt hg,
    Words.remainder_cases hf hg, if_pos (Words.inside_of_nonneg hf h₀), Option.bind_eq_bind,
    Option.bind_some]
  split
  · next hle =>
    rw [if_neg (not_lt.2 hle)]
    exact ⟨_, rfl⟩
  · exact ⟨_, rfl⟩

end Divisor

section Arguments

theorem ValList.mem_insert {valList : ValList} (e e' : POLY × ValPred) :
    e' ∈ ValList.insert valList e ↔ e' = e ∨ e' ∈ valList := by
  induction valList with
  | nil => simp [ValList.insert]
  | cons x valList ih =>
    rw [ValList.insert]
    split
    · exact List.mem_cons
    · rw [List.mem_cons, List.mem_cons, ih]
      tauto

theorem getValPred_ensures : Ensures getValPred fun e => e.2.val.length < 128 := by
  refine (Ensures.trivial _).bind fun p _ => (Ensures.trivial _).bind fun size _ => ?_
  apply Ensures.guard
  intro hsize
  refine (Ensures.get _).bind fun predVal hlen => (Ensures.trivial _).bind fun OP _ => ?_
  apply Ensures.pure
  have hle := (List.takeWhile_prefix (· ≠ (0 : Byte)) (l := predVal)).length_le
  have hnat : size.toNat < 128 := by
    have hlt := size.isLt
    rw [BitVec.toInt_eq_toNat_cond] at hsize
    split at hsize <;> omega
  exact (hle.trans_eq hlen).trans_lt hnat

theorem readValues_ensures :
    Ensures readValues fun valList => ∀ e ∈ valList, e.2.val.length < 128 := by
  refine (Ensures.trivial _).bind fun num _ => ?_
  refine (getValPred_ensures.repeatM _).bind fun items hitems => ?_
  apply Ensures.pure
  have hfold : ∀ valList : ValList, (∀ e ∈ valList, e.2.val.length < 128) →
      ∀ e ∈ items.foldl ValList.insert valList, e.2.val.length < 128 := by
    induction items with
    | nil => exact fun _ h => h
    | cons x items ih =>
      obtain ⟨hx, hitems⟩ := List.forall_mem_cons.1 hitems
      intro valList h
      apply ih hitems
      intro e he
      rcases (ValList.mem_insert x e).1 he with rfl | he
      · exact hx
      · exact h e he
  exact hfold [] (List.forall_mem_nil _)

/-- A signature of one element that the entries of a node can be divided by. -/
structure SafeDivisor (valSig : Sig) : Prop where
  nonzero : valSig.length = 1 → poly valSig ≠ 0
  inside : valSig.length = 1 →
    ∀ entrySig ≠ [], ∃ isDivides, Words.dividesSig entrySig valSig = some isDivides

theorem safeDivisor_word (m : POLY) : SafeDivisor [m] ↔ m ≠ 0 := by
  constructor
  · rintro h rfl
    exact h.nonzero rfl poly_zero_word
  · intro hm
    have hn : Normalized [m] := hm
    obtain ⟨d, hd⟩ := exists_topBit hn
    have hdeg : fullDegree [m] = d := by simpa using hd.fullDegree
    refine ⟨fun _ => hn.poly_ne_zero, fun _ entrySig hne => ?_⟩
    apply dividesSig_total hne hn.ne_nil
    rw [Words.toInt_fullDegree hn.ne_nil]
    · omega
    · have hlt := hd.lt
      rw [FitsInt, INT_MAX]
      omega

/-- The value query divides by a polynomial that is not zero exactly if the string is a number or
its polynomial is no multiple of the key polynomial. -/
theorem getValArgs_safe_iff
    (hread : runReader readValues file = some ((p, e) :: rest, reads)) (hp : p ≠ 0)
    (hargs : getValArgs ((p, e) :: rest) = some (valSig, OP)) :
    SafeDivisor valSig ↔ isStrValue e.val = true ∨ ¬ poly [p] ∣ messagePoly e.val := by
  have hlen : e.val.length < 128 := readValues_ensures.run hread _ List.mem_cons_self
  obtain ⟨d, hd⟩ := exists_modulus hp
  simp only [getValArgs, List.head?_cons, Option.bind_eq_bind, Option.bind_some] at hargs
  by_cases hstr : isStrValue e.val = true
  · rw [if_pos hstr] at hargs
    obtain ⟨rfl, rfl⟩ := Prod.mk.inj (Option.some.inj hargs)
    have htwo : ¬ [atoi e.val, atoi e.val].length = 1 := by simp
    exact iff_of_true ⟨fun h => (htwo h).elim, fun h => (htwo h).elim⟩ (.inl hstr)
  · rw [if_neg hstr] at hargs
    obtain ⟨rfl, rfl⟩ := Prod.mk.inj (Option.some.inj hargs)
    have hmod := poly_findMod hd (x := e.val) (by omega)
    rw [safeDivisor_word, ← EuclideanDomain.mod_eq_zero, ← hmod]
    simp only [hstr, Bool.false_eq_true, false_or]
    refine not_congr ⟨?_, ?_⟩
    · intro h
      rw [h, poly_zero_word]
    · intro h
      exact word_ext (h.trans poly_zero_word.symm)

def valueFile (p : POLY) (predVal : List Byte) (OP : OPTYPE) : List Byte :=
  intBytes 1 ++ intBytes p ++ intBytes (sizeInt predVal.length) ++ predVal ++ intBytes OP.code

theorem getValArgs_safe_lean : SafeDivisor [findMod [108, 101, 97, 110] 7] ↔
    isStrValue [108, 101, 97, 110] = true ∨ ¬ poly [7] ∣ messagePoly [108, 101, 97, 110] := by
  have hread : runReader readValues (valueFile 7 [108, 101, 97, 110] .EQUAL) =
      some ([(7, ⟨[108, 101, 97, 110], 0⟩)], offsets 0 20) := by decide +kernel
  exact getValArgs_safe_iff hread (by decide) rfl

/-- "red", a multiple of X^2 + X + 1. -/
theorem getValArgs_divides_by_zero :
    runReader readValues (valueFile 7 [114, 101, 100] .EQUAL) =
      some ([(7, ⟨[114, 101, 100], 0⟩)], offsets 0 19) ∧
    getValArgs [(7, ⟨[114, 101, 100], 0⟩)] = some ([0], OPTYPE.EQUAL.code) ∧
    ¬ SafeDivisor [0] ∧ Words.dividesSig [5] [0] = none := by
  refine ⟨by decide +kernel, by decide +kernel, ?_, by decide +kernel⟩
  rw [safeDivisor_word]
  exact not_not.2 rfl

end Arguments

end XGossip
