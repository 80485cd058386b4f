import XGossip.Index.Lcm

open Polynomial

namespace XGossip
set_option autoImplicit true

open Gf2

namespace Words

section Vectors

/-- `v[i] = f(v[i])`, where the index has to be inside of the vector. -/
def modifyAt (v : Sig) (i : Nat) (f : POLY → POLY) : Option Sig := do
  return v.set i (f (← v[i]?))

/-- The value that is left of a number in an `int`. -/
def toInt (n : Int) : Int := n.bmod (2 ^ 32)

def getDegree (myPoly : Sig) : Option Int := do
  let deg := getDegreeWord (← myPoly[0]?)
  return toInt ((myPoly.length - 1) * 32 + deg)

/-- The loop over the words below `i`, from the last one on. -/
def shiftLeftLoop (numBits : Nat) : Nat → POLY → Sig → Option (Sig × POLY)
  | 0, prevmsb, myPoly => some (myPoly, prevmsb)
  | i + 1, prevmsb, myPoly => do
    let msb := ((← myPoly[i]?) &&& (ONEFLAG <<< (32 - numBits))) >>> (32 - numBits)
    let myPoly ← modifyAt myPoly i (· <<< numBits)
    let myPoly ←
      if i < myPoly.length - 1 then modifyAt myPoly i (· ||| prevmsb) else some myPoly
    shiftLeftLoop numBits i msb myPoly

def shiftLeft (myPoly : Sig) (numBits : Nat) : Option Sig :=
  if numBits = 0 then some myPoly
  else if numBits = 32 then some (myPoly ++ [0])
  else if numBits > 32 then none
  else do
    let (myPoly, prevmsb) ← shiftLeftLoop numBits myPoly.length 0 myPoly
    return if prevmsb > 0 then prevmsb :: myPoly else myPoly

/-- The loop over the last `n` words, the first of which has the index `i`. -/
def shiftRightLoop (numBits : Nat) : Nat → Nat → POLY → Sig → Option (Sig × POLY)
  | 0, _, prevlsb, myPoly => some (myPoly, prevlsb)
  | n + 1, i, prevlsb, myPoly => do
    let lsb := ((← myPoly[i]?) &&& (ONEFLAG >>> (32 - numBits))) <<< (32 - numBits)
    let myPoly ← modifyAt myPoly i (· >>> numBits)
    let myPoly ← if i > 0 then modifyAt myPoly i (· ||| prevlsb) else some myPoly
    shiftRightLoop numBits n (i + 1) lsb myPoly

def shiftRight (myPoly : Sig) (numBits : Nat) : Option Sig :=
  if numBits = 0 ∨ numBits = 32 then some myPoly
  else do
    let (myPoly, prevlsb) ← shiftRightLoop numBits myPoly.length 0 0 myPoly
    let myPoly := if prevlsb > 0 then myPoly ++ [prevlsb] else myPoly
    if myPoly.length > 0 then
      if (← myPoly[0]?) = 0 then return myPoly.tail else return myPoly
    else return myPoly

/-- The loop over the last `n` words of `gtemp`, the first of which has the index `j`. -/
def xorLoop (i : Nat) (gtemp : Sig) : Nat → Nat → Sig → Option Sig
  | 0, _, r => some r
  | n + 1, j, r =>
    if i + j < r.length then do
      let w ← gtemp[j]?
      xorLoop i gtemp n (j + 1) (← modifyAt r (i + j) (· ^^^ w))
    else some r

def divStep (k : Int) (s : DivState) : Option DivState := do
  let q ← shiftLeft s.q 1
  let isSet := ((← s.r[s.i]?) &&& s.bitMask) > 0
  let q ← if isSet then modifyAt q (q.length - 1) (· ||| 1) else some q
  let r ← if isSet then xorLoop s.i s.gtemp s.gtemp.length 0 s.r else some s.r
  let gtemp ← shiftRight s.gtemp 1
  return {
    r, gtemp, q
    i := if k % 32 = 0 then s.i + 1 else s.i
    bitMask := if k % 32 = 0 then 1#32 <<< 31 else s.bitMask >>> 1 }

/-- The last `n` rounds of the loop, which ends at `gFullDegree`. From there `k` has to go one down. -/
def divLoop (gFullDegree : Int) : Nat → DivState → Option DivState
  | 0, s => if gFullDegree = INT_MIN then none else some s
  | n + 1, s => do divLoop gFullDegree n (← divStep (gFullDegree + n) s)

def divInit (f g : Sig) : Option DivState := do
  let fdeg := getDegreeWord (← f[0]?)
  let gdeg := getDegreeWord (← g[0]?)
  let gtemp ←
    if fdeg > gdeg then shiftLeft g (fdeg - gdeg).toNat else shiftRight g (gdeg - fdeg).toNat
  return ⟨f, gtemp, 0, 1#32 <<< fdeg.toNat, [0]⟩

/-- The loop that removes the empty words in front, in `n` rounds. -/
def eraseLoop : Nat → Sig → Option Sig
  | 0, r => some r
  | n + 1, r => do if (← r[0]?) > 0 then return r else eraseLoop n r.tail

/-- `remainder` as the source has it: a word outside of a vector and an assertion that fails give
`none`. -/
def remainder (f g : Sig) : Option Sig := do
  let s ← divInit f g
  let fFullDegree ← getDegree f
  let gFullDegree ← getDegree g
  if fFullDegree < gFullDegree then return f
  let s ← divLoop gFullDegree (fFullDegree - gFullDegree + 1).toNat s
  eraseLoop (s.r.length - 1) s.r

def quotient (f g : Sig) : Option Sig := do
  let s ← divInit f g
  let fFullDegree ← getDegree f
  let gFullDegree ← getDegree g
  if fFullDegree < gFullDegree then none
  else
    let s ← divLoop gFullDegree (fFullDegree - gFullDegree + 1).toNat s
    return s.q

end Vectors

section Bounds

theorem getElem?_middle (pre : Sig) (w : POLY) (suf : Sig) : (pre ++ w :: suf)[pre.length]? = some w := by
  simp

theorem modifyAt_middle (pre : Sig) (w : POLY) (suf : Sig) (f : POLY → POLY) :
    modifyAt (pre ++ w :: suf) pre.length f = some (pre ++ f w :: suf) := by
  simp [modifyAt]

theorem length_shiftLeftLoop (numBits : Nat) (l : Sig) :
    (XGossip.shiftLeftLoop numBits l).1.length = l.length := by
  induction l with
  | nil => rfl
  | cons w l ih => exact congrArg (· + 1) ih

theorem shiftLeftLoop_eq (numBits : Nat) (pre l : Sig) :
    shiftLeftLoop numBits pre.length (XGossip.shiftLeftLoop numBits l).2
      (pre ++ (XGossip.shiftLeftLoop numBits l).1) =
        some (XGossip.shiftLeftLoop numBits (pre ++ l)) := by
  induction pre using List.reverseRecOn generalizing l with
  | nil => rfl
  | append_singleton pre w ih =>
    have hnext := ih (w :: l)
    rw [List.append_assoc, List.append_assoc, List.singleton_append, List.singleton_append,
      ← hnext, List.length_append, List.length_singleton, shiftLeftLoop]
    simp only [getElem?_middle, modifyAt_middle, Option.bind_eq_bind, Option.bind_some,
      XGossip.shiftLeftLoop]
    split
    · rfl
    · next hlast =>
      have hnil : l = [] := by
        have hlen := length_shiftLeftLoop numBits l
        simp only [List.length_append, List.length_cons] at hlast
        rw [← List.length_eq_zero_iff]
        omega
      subst hnil
      simp [XGossip.shiftLeftLoop]

theorem shiftLeft_eq (h : numBits ≤ 32) (v : Sig) :
    shiftLeft v numBits = some (XGossip.shiftLeft v numBits) := by
  have hloop := shiftLeftLoop_eq numBits v []
  rw [List.append_nil] at hloop
  rw [shiftLeft, XGossip.shiftLeft]
  split
  · rfl
  · split
    · rfl
    · rw [if_neg (by omega)]
      simp only [XGossip.shiftLeftLoop, List.append_nil] at hloop
      simp only [hloop, Option.bind_eq_bind, Option.bind_some]
      rfl

theorem shiftRightLoop_eq (numBits : Nat) (prevlsb : POLY) (pre l : Sig)
    (h : pre = [] → prevlsb = 0) :
    ∃ v p, shiftRightLoop numBits l.length pre.length prevlsb (pre ++ l) = some (v, p) ∧
      (if p > 0 then v ++ [p] else v) = pre ++ XGossip.shiftRightLoop numBits prevlsb l := by
  induction l generalizing pre prevlsb with
  | nil =>
    refine ⟨pre ++ [], prevlsb, rfl, ?_⟩
    rw [XGossip.shiftRightLoop]
    split
    · simp
    · rfl
  | cons w l ih =>
    let w' := (w >>> numBits) ||| prevlsb
    let lsb := (w &&& (ONEFLAG >>> (32 - numBits))) <<< (32 - numBits)
    have hstep : shiftRightLoop numBits (w :: l).length pre.length prevlsb (pre ++ w :: l) =
        shiftRightLoop numBits l.length (pre.length + 1) lsb (pre ++ w' :: l) := by
      rw [List.length_cons, shiftRightLoop]
      simp only [getElem?_middle, modifyAt_middle, Option.bind_eq_bind, Option.bind_some]
      split
      · rfl
      · next hpos =>
        have hpre : pre = [] := List.length_eq_zero_iff.1 (by omega)
        simp [w', h hpre, lsb]
    obtain ⟨v, p, hv, hp⟩ := ih lsb (pre ++ [w']) (by simp)
    refine ⟨v, p, ?_, ?_⟩
    · rw [hstep]
      simpa using hv
    · simpa [XGossip.shiftRightLoop] using hp

theorem shiftRight_eq (v : Sig) (numBits : Nat) :
    shiftRight v numBits = some (XGossip.shiftRight v numBits) := by
  rw [shiftRight, XGossip.shiftRight]
  split
  · rfl
  · obtain ⟨ws, p, hloop, hws⟩ := shiftRightLoop_eq numBits 0 [] v (fun _ => rfl)
    simp only [List.nil_append, List.length_nil] at hloop hws
    simp only [hloop, Option.bind_eq_bind, Option.bind_some, hws]
    cases XGossip.shiftRightLoop numBits 0 v with
    | nil => rfl
    | cons w ws =>
      simp only [List.length_cons, Nat.zero_lt_succ, if_true, List.getElem?_cons_zero,
        Option.bind_some, gt_iff_lt]
      split
      · rfl
      · rfl

theorem xorLoop_eq (g₀ g pre r : Sig) (h : pre.length = i + g₀.length) :
    xorLoop i (g₀ ++ g) g.length g₀.length (pre ++ r) = some (pre ++ xorWords r g) := by
  induction g generalizing g₀ pre r with
  | nil => cases r <;> rfl
  | cons w g ih =>
    rw [List.length_cons, xorLoop, ← h]
    cases r with
    | nil => simp [xorWords]
    | cons x r =>
      have hnext := ih (g₀ ++ [w]) (pre ++ [x ^^^ w]) r (by simp [h, Nat.add_assoc])
      rw [if_pos (by simp), xorWords]
      simp only [getElem?_middle, modifyAt_middle, Option.bind_eq_bind, Option.bind_some]
      simpa using hnext

theorem xorWords_eq (h : i ≤ r.length) (gtemp : Sig) :
    xorLoop i gtemp gtemp.length 0 r = some (r.take i ++ xorWords (r.drop i) gtemp) := by
  have hloop := xorLoop_eq (i := i) [] gtemp (r.take i) (r.drop i) (by simp [h])
  rw [List.take_append_drop] at hloop
  exact hloop

theorem shiftLeft_ne_nil (h : v ≠ []) (numBits : Nat) : XGossip.shiftLeft v numBits ≠ [] := by
  have hpos := List.length_pos_iff.2 h
  rw [← length_shiftLeftLoop numBits v, List.length_pos_iff] at hpos
  simp only [XGossip.shiftLeft]
  split
  · exact h
  · split
    · simp
    · split
      · simp
      · exact hpos

theorem setLowBit_eq (h : q ≠ []) :
    modifyAt q (q.length - 1) (· ||| 1) = some (setLowBit q) := by
  induction q using List.reverseRecOn with
  | nil => exact (h rfl).elim
  | append_singleton q w _ =>
    have hmid := modifyAt_middle q w [] (· ||| 1)
    simpa [setLowBit] using hmid

theorem eraseLoop_eq (w : POLY) (r : Sig) :
    eraseLoop r.length (w :: r) = some (eraseLeading (w :: r)) := by
  induction r generalizing w with
  | nil => rfl
  | cons v r ih =>
    simp only [List.length_cons, eraseLoop, List.getElem?_cons_zero, Option.bind_eq_bind,
      Option.bind_some, eraseLeading]
    split
    · rfl
    · exact ih v

variable {f g : Sig}

theorem toInt_bounds (n : Int) : INT_MIN ≤ toInt n ∧ toInt n ≤ INT_MAX := by
  have hle := Int.le_bmod (x := n) (m := 2 ^ 32) (by decide)
  have hlt := Int.bmod_lt (x := n) (m := 2 ^ 32) (by decide)
  simp only [toInt, INT_MIN, INT_MAX]
  omega

theorem toInt_eq (h₀ : INT_MIN ≤ n) (h : n ≤ INT_MAX) : toInt n = n := by
  rw [INT_MIN] at h₀
  rw [INT_MAX] at h
  exact Int.bmod_eq_of_le (by omega) (by omega)

theorem getDegreeLoop_bounds (z : POLY) (n : Nat) :
    -1 ≤ getDegreeLoop z n ∧ getDegreeLoop z n < n := by
  induction n with
  | zero => simp [getDegreeLoop]
  | succ n ih =>
    rw [getDegreeLoop]
    split
    · omega
    · omega

theorem fullDegree_bounds (h : f ≠ []) : -1 ≤ fullDegree f ∧ fullDegree f < 32 * f.length := by
  cases f with
  | nil => exact (h rfl).elim
  | cons w ws =>
    have hbounds := getDegreeLoop_bounds w 32
    simp only [fullDegree, getDegreeWord, List.headD_cons, List.length_cons]
    omega

theorem getDegree_toInt (h : f ≠ []) : getDegree f = some (toInt (fullDegree f)) := by
  cases f with
  | nil => exact (h rfl).elim
  | cons w ws => rfl

theorem toInt_fullDegree (h : f ≠ []) (hfit : FitsInt f) : toInt (fullDegree f) = fullDegree f := by
  have hbounds := fullDegree_bounds h
  exact toInt_eq (by rw [INT_MIN]; omega) hfit

theorem toInt_fullDegree_le (h : f ≠ []) : toInt (fullDegree f) ≤ fullDegree f := by
  by_cases hfit : FitsInt f
  · exact (toInt_fullDegree h hfit).le
  · exact (toInt_bounds _).2.trans (not_le.1 hfit).le

theorem getDegree_eq (h : f ≠ []) (hfit : FitsInt f) : getDegree f = some (fullDegree f) := by
  rw [getDegree_toInt h, toInt_fullDegree h hfit]

theorem getElem?_headD {v : Sig} (h : v ≠ []) : v[0]? = some (v.headD 0) := by
  cases v with
  | nil => exact (h rfl).elim
  | cons w v => rfl

theorem divInit_eq (hf : f ≠ []) (hg : g ≠ []) : divInit f g = some (XGossip.divInit f g) := by
  have h₁ := getDegreeLoop_bounds (f.headD 0) 32
  have h₂ := getDegreeLoop_bounds (g.headD 0) 32
  simp only [divInit, XGossip.divInit, getElem?_headD hf, getElem?_headD hg, Option.bind_eq_bind,
    Option.bind_some]
  split
  · rw [shiftLeft_eq (by simp only [getDegreeWord]; omega)]
    rfl
  · rw [shiftRight_eq]
    rfl

theorem divStep_eq (hi : s.i < s.r.length) (hq : s.q ≠ []) (k : Int) :
    divStep k s = some (XGossip.divStep k s) ∧ (XGossip.divStep k s).q ≠ [] := by
  have hq' := shiftLeft_ne_nil hq 1
  have hr : s.r[s.i]? = some (s.r.getD s.i 0) := by
    simp [List.getD_eq_getElem?_getD, hi]
  constructor
  · simp only [divStep, XGossip.divStep, shiftLeft_eq (show 1 ≤ 32 by omega), hr, shiftRight_eq,
      xorWords_eq (Nat.le_of_lt hi), setLowBit_eq hq', Option.bind_eq_bind, Option.bind_some]
    split
    · rfl
    · rfl
  · simp only [XGossip.divStep]
    split
    · simp [setLowBit]
    · exact hq'

/-- In front of the round for `k` of a division that begins with the round for `start`, the index
has moved past the words of the rounds before. -/
structure IndexInv (f : Sig) (start k : Int) (s : DivState) : Prop where
  length : s.r.length = f.length
  index : (s.i : Int) = start / 32 - k / 32
  quot : s.q ≠ []

theorem IndexInv.init (f g : Sig) (start : Int) : IndexInv f start start (XGossip.divInit f g) :=
  ⟨rfl, (sub_self _).symm, List.cons_ne_nil _ _⟩

theorem IndexInv.step (h : IndexInv f start k s) : IndexInv f start (k - 1) (XGossip.divStep k s) := by
  refine ⟨?_, ?_, ?_⟩
  · have hlen : (XGossip.divLoop k 1 s).r.length = s.r.length := length_divLoop s
    simp only [XGossip.divLoop, Nat.cast_zero, add_zero] at hlen
    rw [hlen, h.length]
  · have hindex := h.index
    simp only [XGossip.divStep]
    split
    · push_cast
      omega
    · omega
  · have hq := shiftLeft_ne_nil h.quot 1
    simp only [XGossip.divStep]
    split
    · simp [setLowBit]
    · exact hq

theorem IndexInv.divStep_eq (h : IndexInv f start k s) :
    divStep k s = if start / 32 - k / 32 < f.length then some (XGossip.divStep k s) else none := by
  have hlen := h.length
  have hindex := h.index
  split
  · next hlt => exact (Words.divStep_eq (by omega) h.quot k).1
  · next hge =>
    have hnone : s.r[s.i]? = none := List.getElem?_eq_none (by omega)
    simp only [divStep, shiftLeft_eq (show 1 ≤ 32 by omega), hnone, Option.bind_eq_bind,
      Option.bind_some, Option.bind_none]

/-- The loop comes to an end exactly if its last round is not behind the words of `f`, and not the
one for the lowest `int`. -/
theorem IndexInv.divLoop_eq {n : Nat} (h : IndexInv f start (gFullDegree + n - 1) s) (hn : 0 < n) :
    divLoop gFullDegree n s =
      if start / 32 - gFullDegree / 32 < f.length ∧ gFullDegree ≠ INT_MIN then
        some (XGossip.divLoop gFullDegree n s)
      else none := by
  induction n generalizing s with
  | zero => omega
  | succ n ih =>
    have hk : gFullDegree + ((n + 1 : Nat) : Int) - 1 = gFullDegree + n := by omega
    rw [hk] at h
    rw [divLoop, XGossip.divLoop, h.divStep_eq]
    rcases Nat.eq_zero_or_pos n with rfl | hpos
    · simp only [Nat.cast_zero, add_zero, divLoop, XGossip.divLoop]
      by_cases hin : start / 32 - gFullDegree / 32 < f.length
      · by_cases hmin : gFullDegree = INT_MIN
        · simp [hmin]
        · simp [hin, hmin]
      · simp [hin]
    · have hnext := ih h.step hpos
      by_cases hin : start / 32 - (gFullDegree + n) / 32 < f.length
      · rw [if_pos hin]
        exact hnext
      · rw [if_neg hin, if_neg fun hlast => hin (by omega)]
        rfl

/-- The rounds that `f` is divided by `g` in, with the degrees as an `int`. -/
def rounds (f g : Sig) : Nat := (toInt (fullDegree f) - toInt (fullDegree g) + 1).toNat

/-- All of the rounds are for words of `f`, and behind the last one `k` goes one down. -/
def Inside (f g : Sig) : Prop :=
  toInt (fullDegree f) / 32 - toInt (fullDegree g) / 32 < f.length ∧
    toInt (fullDegree g) ≠ INT_MIN

instance : Decidable (Inside f g) := inferInstanceAs (Decidable (_ ∧ _))

theorem divLoop_divInit (f : Sig) (h : ¬ toInt (fullDegree f) < toInt (fullDegree g)) :
    divLoop (toInt (fullDegree g)) (rounds f g) (XGossip.divInit f g) =
      if Inside f g then
        some (XGossip.divLoop (toInt (fullDegree g)) (rounds f g) (XGossip.divInit f g))
      else none := by
  have hinit := IndexInv.init f g (toInt (fullDegree f))
  have hk : toInt (fullDegree f) = toInt (fullDegree g) + rounds f g - 1 := by
    rw [rounds]
    omega
  rw [hk] at hinit
  have hloop := hinit.divLoop_eq (by rw [rounds]; omega)
  rw [← hk] at hloop
  exact hloop

theorem eraseLoop_divLoop {n : Nat} (hf : f ≠ []) (g : Sig) (gFullDegree : Int) :
    eraseLoop ((XGossip.divLoop gFullDegree n (XGossip.divInit f g)).r.length - 1)
        (XGossip.divLoop gFullDegree n (XGossip.divInit f g)).r =
      some (eraseLeading (XGossip.divLoop gFullDegree n (XGossip.divInit f g)).r) := by
  have hlen : (XGossip.divLoop gFullDegree n (XGossip.divInit f g)).r.length = f.length :=
    length_divLoop _
  cases hr : (XGossip.divLoop gFullDegree n (XGossip.divInit f g)).r with
  | nil =>
    rw [hr] at hlen
    exact (hf (List.length_eq_zero_iff.1 hlen.symm)).elim
  | cons w r => exact eraseLoop_eq w r

theorem remainder_cases (hf : f ≠ []) (hg : g ≠ []) :
    remainder f g =
      if toInt (fullDegree f) < toInt (fullDegree g) then some f
      else if Inside f g then
        some (eraseLeading
          (XGossip.divLoop (toInt (fullDegree g)) (rounds f g) (XGossip.divInit f g)).r)
      else none := by
  simp only [remainder, divInit_eq hf hg, getDegree_toInt hf, getDegree_toInt hg,
    Option.bind_eq_bind, Option.bind_some]
  split
  · rfl
  · next hlt =>
    have hloop := divLoop_divInit f hlt
    rw [rounds] at hloop
    rw [hloop]
    split
    · exact eraseLoop_divLoop hf g _
    · rfl

theorem quotient_cases (hf : f ≠ []) (hg : g ≠ []) :
    quotient f g =
      if toInt (fullDegree f) < toInt (fullDegree g) ∨ ¬ Inside f g then none
      else some (XGossip.divLoop (toInt (fullDegree g)) (rounds f g) (XGossip.divInit f g)).q := by
  simp only [quotient, divInit_eq hf hg, getDegree_toInt hf, getDegree_toInt hg,
    Option.bind_eq_bind, Option.bind_some]
  split
  · next hlt => rw [if_pos (.inl hlt)]
  · next hlt =>
    have hloop := divLoop_divInit f hlt
    rw [rounds] at hloop
    rw [hloop]
    by_cases hin : Inside f g
    · rw [if_pos hin, if_neg (by simp [hlt, hin])]
      rfl
    · rw [if_neg hin, if_pos (.inr hin)]
      rfl

theorem inside_of_nonneg (hf : f ≠ []) (h₀ : 0 ≤ toInt (fullDegree g)) : Inside f g := by
  have hle := toInt_fullDegree_le hf
  have hlt := (fullDegree_bounds hf).2
  refine ⟨by omega, ?_⟩
  rw [INT_MIN]
  omega

theorem toInt_emod (n : Int) : toInt n % 32 = n % 32 := by
  rw [toInt, Int.bmod]
  omega

theorem divLoop_congr {a b : Int} (h : a % 32 = b % 32) (n : Nat) (s : DivState) :
    XGossip.divLoop a n s = XGossip.divLoop b n s := by
  induction n generalizing s with
  | zero => rfl
  | succ n ih =>
    have hk : (a + n) % 32 = (b + n) % 32 := by omega
    simp only [XGossip.divLoop, XGossip.divStep, hk, ih]

/-- The degrees compare and differ as an `int` as they do without. A zero is only divided by the
loop, and stays in its word. -/
def DegreesAgree (f g : Sig) : Prop :=
  if f = [0] then -32 ≤ toInt (fullDegree g)
  else if fullDegree f < fullDegree g then toInt (fullDegree f) < toInt (fullDegree g)
  else toInt (fullDegree f) - toInt (fullDegree g) = fullDegree f - fullDegree g ∧
    toInt (fullDegree g) ≠ INT_MIN

theorem degreesAgree_of_fits (hf : f ≠ []) (hg : Normalized g) (hff : FitsInt f) (hgf : FitsInt g) :
    DegreesAgree f g := by
  obtain ⟨m, hm, -⟩ := degree_eq_fullDegree hg
  rw [DegreesAgree, toInt_fullDegree hf hff, toInt_fullDegree hg.ne_nil hgf, INT_MIN]
  split
  · omega
  · split
    · assumption
    · omega

theorem inside_of_diff (hf : f ≠ []) (hg : Normalized g)
    (hdiff : toInt (fullDegree f) - toInt (fullDegree g) = fullDegree f - fullDegree g)
    (hmin : toInt (fullDegree g) ≠ INT_MIN) : Inside f g := by
  obtain ⟨m, hm, -⟩ := degree_eq_fullDegree hg
  have hlt := (fullDegree_bounds hf).2
  have hmod := toInt_emod (fullDegree f)
  exact ⟨by omega, hmin⟩

theorem divLoop_of_diff (f : Sig)
    (hdiff : toInt (fullDegree f) - toInt (fullDegree g) = fullDegree f - fullDegree g) :
    XGossip.divLoop (toInt (fullDegree g)) (rounds f g) (XGossip.divInit f g) = divide f g := by
  rw [rounds, hdiff, divLoop_congr (toInt_emod _), divide]

theorem divLoop_rounds (hf : f ≠ []) (hg : g ≠ []) (hff : FitsInt f) (hgf : FitsInt g) :
    XGossip.divLoop (toInt (fullDegree g)) (rounds f g) (XGossip.divInit f g) = divide f g :=
  divLoop_of_diff f (by rw [toInt_fullDegree hf hff, toInt_fullDegree hg hgf])

theorem divLoop_zero_r {n : Nat} (h : s.r = [0]) : (XGossip.divLoop gFullDegree n s).r = [0] := by
  induction n generalizing s with
  | zero => exact h
  | succ n ih =>
    apply ih
    have hnone : ¬ (s.r.getD s.i 0 &&& s.bitMask) > 0 := by
      cases hi : s.i <;> simp [h]
    simp only [XGossip.divStep, if_neg hnone]
    exact h

theorem remainder_zero (hg : Normalized g) (h : -32 ≤ toInt (fullDegree g)) :
    remainder [0] g = some [0] := by
  have hzero : toInt (fullDegree [0]) = -1 := by decide
  have hin : Inside [0] g := by
    refine ⟨?_, ?_⟩
    · rw [hzero, List.length_singleton]
      omega
    · rw [INT_MIN]
      omega
  rw [remainder_cases (by simp) hg.ne_nil, if_pos hin, divLoop_zero_r rfl]
  split
  · rfl
  · rfl

theorem remainder_eq_of_agree (hf : f = [0] ∨ Normalized f) (hg : Normalized g)
    (h : DegreesAgree f g) : remainder f g = some (XGossip.remainder f g) := by
  rw [DegreesAgree] at h
  rcases hf with rfl | hf
  · rw [if_pos rfl] at h
    rw [remainder_zero hg h, remainder_zero_word hg]
  · rw [if_neg (by rintro rfl; exact hf rfl)] at h
    rw [remainder_cases hf.ne_nil hg.ne_nil, XGossip.remainder]
    split at h
    · next hlt => rw [if_pos h, if_pos hlt]
    · next hle =>
      rw [if_neg (by omega), if_pos (inside_of_diff hf.ne_nil hg h.1 h.2), if_neg hle,
        divLoop_of_diff f h.1]

theorem quotient_eq_of_agree (hf : Normalized f) (hg : Normalized g) (h : DegreesAgree f g)
    (hle : fullDegree g ≤ fullDegree f) : quotient f g = some (XGossip.quotient f g) := by
  rw [DegreesAgree, if_neg (by rintro rfl; exact hf rfl), if_neg (by omega)] at h
  have hin := inside_of_diff hf.ne_nil hg h.1 h.2
  rw [quotient_cases hf.ne_nil hg.ne_nil, divLoop_of_diff f h.1, if_neg]
  · rfl
  · rintro (hlt | hout)
    · omega
    · exact hout hin

theorem remainder_eq (hf : f = [0] ∨ Normalized f) (hg : Normalized g) (hff : FitsInt f)
    (hgf : FitsInt g) : remainder f g = some (XGossip.remainder f g) :=
  remainder_eq_of_agree hf hg (degreesAgree_of_fits (ne_nil_of_zero_or hf) hg hff hgf)

theorem quotient_eq (hf : Normalized f) (hg : Normalized g) (hff : FitsInt f) (hgf : FitsInt g)
    (h : fullDegree g ≤ fullDegree f) : quotient f g = some (XGossip.quotient f g) :=
  quotient_eq_of_agree hf hg (degreesAgree_of_fits hf.ne_nil hg hff hgf) h

end Bounds

end Words

section Division

variable {f g : Sig}

/-- `remainder` and `quotient` divide with remainder, and use no word outside of a vector. -/
def DividesWithRemainder (f g : Sig) : Prop :=
  ∃ r q, Words.remainder f g = some r ∧ (r = [0] ∨ Normalized r) ∧
    (r = [0] ∨ (poly r).degree < (poly g).degree) ∧ poly f = q * poly g + poly r ∧
    (Normalized f → (poly g).degree ≤ (poly f).degree →
      ∃ qs, Words.quotient f g = some qs ∧ Normalized qs ∧ poly qs = q)

theorem dividesWithRemainder_of_agree (hf : f = [0] ∨ Normalized f) (hg : Normalized g)
    (h : Words.DegreesAgree f g) : DividesWithRemainder f g := by
  obtain ⟨hmod, hnorm⟩ := remainder_mod hf hg
  refine ⟨remainder f g, poly f / poly g, Words.remainder_eq_of_agree hf hg h, hnorm, .inr ?_, ?_,
    ?_⟩
  · rw [hmod]
    exact EuclideanDomain.mod_lt _ hg.poly_ne_zero
  · rw [hmod, mul_comm]
    exact (EuclideanDomain.div_add_mod _ _).symm
  · intro hf' hdeg
    have hle := (fullDegree_le_iff hg hf').2 hdeg
    obtain ⟨hdiv, hq⟩ := quotient_div hf' hg hle
    exact ⟨quotient f g, Words.quotient_eq_of_agree hf' hg h hle, hq, hdiv⟩

theorem natDegree_divLoop_q {n : Nat} (h : poly s.q ≠ 0) :
    (poly (divLoop gFullDegree n s).q).natDegree = (poly s.q).natDegree + n := by
  induction n generalizing s with
  | zero => rfl
  | succ n ih =>
    have hdeg : (poly (divStep (gFullDegree + n) s).q).natDegree = (poly s.q).natDegree + 1 := by
      simp only [divStep]
      split
      · rw [poly_setLowBit (bit_shiftLeft_one s.q), poly_shiftLeft_one, ← C_1, natDegree_add_C,
          natDegree_X_mul h]
      · rw [poly_shiftLeft_one, natDegree_X_mul h]
    have hne : poly (divStep (gFullDegree + n) s).q ≠ 0 := by
      intro hzero
      rw [hzero, natDegree_zero] at hdeg
      omega
    rw [divLoop, ih hne, hdeg]
    omega

theorem divStep_divInit_q (hf : Normalized f) (g : Sig) (k : Int) :
    (divStep k (divInit f g)).q = [1] := by
  obtain ⟨d, hd⟩ := exists_topBit hf
  have htop := hd.top
  obtain ⟨w, ws, rfl⟩ := List.exists_cons_of_ne_nil hd.ne_nil
  have hdeg : getDegreeWord w = d := hd.getDegreeWord
  rw [lead, if_neg (by omega), Int.toNat_natCast] at htop
  have hset : (w &&& 1#32 <<< d) > 0 := by
    rw [pos_iff_ne_zero, ← BitVec.twoPow_eq, BitVec.and_twoPow, if_pos htop]
    exact twoPow_ne_zero hd.lt
  simp only [divStep, divInit, List.headD_cons, List.getD_cons_zero, hdeg, Int.toNat_natCast, hset,
    if_true]
  rfl

theorem natDegree_divInit_q (hf : Normalized f) (g : Sig) (gFullDegree : Int) (n : Nat) :
    (poly (divLoop gFullDegree (n + 1) (divInit f g)).q).natDegree = n := by
  have hone : poly (divStep (gFullDegree + n) (divInit f g)).q = 1 := by
    rw [divStep_divInit_q hf, poly_one_word]
  rw [divLoop, natDegree_divLoop_q (by rw [hone]; exact one_ne_zero), hone, natDegree_one]
  omega

/-- The quotient has a bit for each round. -/
theorem diff_of_quotient (hf : Normalized f) (hg : g ≠ []) (h : Words.quotient f g = some q) :
    Words.toInt (fullDegree f) - Words.toInt (fullDegree g) = (poly q).natDegree ∧
      Words.toInt (fullDegree g) ≠ INT_MIN := by
  rw [Words.quotient_cases hf.ne_nil hg] at h
  obtain ⟨hcond, h⟩ := Option.ite_none_left_eq_some.1 h
  obtain ⟨hle, hin⟩ := not_or.1 hcond
  obtain rfl := Option.some.inj h
  obtain ⟨n, hn⟩ : ∃ n, Words.rounds f g = n + 1 := ⟨Words.rounds f g - 1, by
    rw [Words.rounds]
    omega⟩
  refine ⟨?_, (not_not.1 hin).2⟩
  rw [hn, natDegree_divInit_q hf]
  rw [Words.rounds] at hn
  omega

/-- The remainder is the only one of a lower degree. -/
theorem eq_of_divides (h : poly f = q * poly g + poly r) (hf : (poly f).degree < (poly g).degree)
    (hr : (poly r).degree < (poly g).degree) : poly r = poly f := by
  have hdvd : poly g ∣ poly f - poly r := ⟨q, by rw [h, add_sub_cancel_right, mul_comm]⟩
  have hzero := eq_zero_of_dvd_of_degree_lt hdvd
    ((degree_sub_le _ _).trans_lt (max_lt hf hr))
  exact (sub_eq_zero.1 hzero).symm

/-- The first round removes the highest bit of `f`, and the others do not set it again. -/
theorem poly_divLoop_ne (hf : Normalized f) (hg : Normalized g)
    (hle : ¬ Words.toInt (fullDegree f) < Words.toInt (fullDegree g)) (hin : Words.Inside f g) :
    poly (divLoop (Words.toInt (fullDegree g)) (Words.rounds f g) (divInit f g)).r ≠ poly f := by
  obtain ⟨n, hn, -⟩ := degree_eq_fullDegree hf
  have hrounds : (Words.rounds f g : Int) =
      Words.toInt (fullDegree f) - Words.toInt (fullDegree g) + 1 := by
    rw [Words.rounds]
    omega
  have hmodf := Words.toInt_emod (fullDegree f)
  have hbounds := (Words.fullDegree_bounds hf.ne_nil).2
  have hcongr : Words.toInt (fullDegree g) % 32 =
      (fullDegree f - Words.rounds f g + 1) % 32 := by omega
  have hinit := Aligned.init hf hg
  rw [show fullDegree f = fullDegree f - Words.rounds f g + Words.rounds f g by omega] at hinit
  obtain ⟨d, hd⟩ := exists_topBit hf
  have hend : -1 ≤ fullDegree f - Words.rounds f g := by
    have hfirst := hin.1
    have hdeg := hd.fullDegree
    have hlt := hd.lt
    omega
  have habove := (hinit.loop hg hend).above (fullDegree f) (by omega)
  rw [Words.divLoop_congr hcongr]
  intro hpoly
  have hcoeff := congrArg (fun p => p.coeff n) hpoly
  simp only [coeff_poly, ← hn, habove, (bit_fullDegree hf).1] at hcoeff
  exact Bool.false_ne_true (coeffOf_inj hcoeff)

theorem degreesAgree_of_divides (hf : f = [0] ∨ Normalized f) (hg : Normalized g)
    (h : DividesWithRemainder f g) : Words.DegreesAgree f g := by
  obtain ⟨r, q, hr, -, hrem, hsum, hquot⟩ := h
  obtain ⟨m, hm, hm'⟩ := degree_eq_fullDegree hg
  have hlt : (poly r).degree < (poly g).degree := by
    rcases hrem with rfl | hlt
    · rw [poly_zero_word, degree_zero, hm']
      exact WithBot.bot_lt_coe m
    · exact hlt
  rw [Words.DegreesAgree]
  rcases hf with rfl | hf
  · have hzero : Words.toInt (fullDegree [0]) = -1 := by decide
    rw [if_pos rfl]
    rw [Words.remainder_cases (by simp) hg.ne_nil, hzero] at hr
    split at hr
    · omega
    · obtain ⟨hin, -⟩ := Option.ite_none_right_eq_some.1 hr
      have hfirst := hin.1
      rw [hzero, List.length_singleton] at hfirst
      omega
  · rw [if_neg (by rintro rfl; exact hf rfl)]
    split
    · next hfg =>
      by_contra hle
      rw [Words.remainder_cases hf.ne_nil hg.ne_nil, if_neg hle] at hr
      obtain ⟨hin, hr⟩ := Option.ite_none_right_eq_some.1 hr
      have hdeg : (poly f).degree < (poly g).degree := by
        rw [← not_le, ← fullDegree_le_iff hg hf]
        omega
      apply poly_divLoop_ne hf hg hle hin
      rw [← eq_of_divides hsum hdeg hlt, ← Option.some.inj hr, poly_eraseLeading]
    · next hfg =>
      obtain ⟨n, hn, hn'⟩ := degree_eq_fullDegree hf
      obtain ⟨qs, hqs, hnq, rfl⟩ := hquot hf ((fullDegree_le_iff hg hf).1 (not_lt.1 hfg))
      obtain ⟨hdiff, hmin⟩ := diff_of_quotient hf hg.ne_nil hqs
      refine ⟨?_, hmin⟩
      have hprod : (poly qs * poly g).natDegree = (poly qs).natDegree + m := by
        rw [natDegree_mul hnq.poly_ne_zero hg.poly_ne_zero, natDegree_eq_of_degree_eq_some hm']
      have hsmall : (poly r).degree < (poly qs * poly g).degree := by
        refine hlt.trans_le ?_
        rw [degree_mul, degree_eq_natDegree hnq.poly_ne_zero]
        exact le_add_of_nonneg_left (by exact_mod_cast Nat.zero_le _)
      have hsumdeg := natDegree_eq_of_degree_eq_some hn'
      rw [hsum, natDegree_add_eq_left_of_degree_lt hsmall, hprod] at hsumdeg
      omega

/-- The division is right exactly if the degrees compare and differ as an `int` as they do without,
which they do if both are an `int`. -/
theorem division_correct (hf : f = [0] ∨ Normalized f) (hg : Normalized g) :
    (DividesWithRemainder f g ↔ Words.DegreesAgree f g) ∧
      (FitsInt f → FitsInt g → Words.DegreesAgree f g) :=
  ⟨⟨degreesAgree_of_divides hf hg, dividesWithRemainder_of_agree hf hg⟩,
    Words.degreesAgree_of_fits (ne_nil_of_zero_or hf) hg⟩

theorem division_correct_two_words : DividesWithRemainder [1, 3] [6] :=
  (division_correct (.inr (by decide)) (by decide)).1.2
    ((division_correct (.inr (by decide)) (by decide)).2 (by decide) (by decide))

/-- The signature `x ^ (32 * words)`. -/
def wordPow (words : Nat) : Sig := 1 :: List.replicate words 0

theorem wordPow_normalized (words : Nat) : Normalized (wordPow words) := by
  simp [Normalized, wordPow]

theorem fullDegree_wordPow (words : Nat) : fullDegree (wordPow words) = 32 * words := by
  have hone : getDegreeWord 1 = 0 := by decide
  simp only [fullDegree, wordPow, List.length_cons, List.length_replicate, List.headD_cons, hone]
  omega

theorem not_fitsInt_wordPow {words : Nat} (h : INT_MAX < 32 * words) :
    ¬ FitsInt (wordPow words) := by
  rw [FitsInt, fullDegree_wordPow]
  exact not_le.2 h

theorem remainder_wordPow {words : Nat} (h : 32 * (words : Int) = INT_MAX + 1) :
    Words.remainder (wordPow words) [2] = some (wordPow words) := by
  have hint : Words.toInt (fullDegree (wordPow words)) = INT_MIN := by
    rw [fullDegree_wordPow, h]
    rfl
  have hone : Words.toInt (fullDegree [2]) = 1 := by decide
  rw [Words.remainder_cases (wordPow_normalized words).ne_nil (by decide), hint, hone, if_pos]
  decide

theorem not_dividesWithRemainder_wordPow {words : Nat} (h : 32 * (words : Int) = INT_MAX + 1) :
    ¬ DividesWithRemainder (wordPow words) [2] := by
  have hn := wordPow_normalized words
  have hone : fullDegree [2] = 1 := by decide
  intro hdiv
  have hagree := degreesAgree_of_divides (.inr hn) (by decide) hdiv
  rw [Words.DegreesAgree, if_neg (by simp [wordPow]), fullDegree_wordPow, h, hone,
    if_neg (by decide)] at hagree
  exact absurd hagree.1 (by decide)

theorem division_wraps : Normalized (wordPow 67108864) ∧ Normalized [2] ∧
    Words.remainder (wordPow 67108864) [2] = some (wordPow 67108864) ∧
    ¬ DividesWithRemainder (wordPow 67108864) [2] := by
  have h : 32 * ((67108864 : Nat) : Int) = INT_MAX + 1 := by norm_num [INT_MAX]
  exact ⟨wordPow_normalized _, by decide, remainder_wordPow h, not_dividesWithRemainder_wordPow h⟩

end Division

end XGossip
