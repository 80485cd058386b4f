import XGossip.Index.Words

open Polynomial

namespace XGossip
set_option autoImplicit true

open Gf2

namespace Words

section Vectors

/-- The loop of `multiplyPoly` by one word over the words below `i`, from the last one on. -/
def multiplyLoop (multiplicand : Sig) (multiplier : POLY) :
    Nat → Sig → BitVec 64 → Option (Sig × BitVec 64)
  | 0, res, product => some (res, product)
  | i + 1, res, product => do
    let y := (← multiplicand[i]?).setWidth 64
    let product := multiplyWordLoop 32 multiplier y product
    let res ← modifyAt res i fun _ => product.setWidth 32
    multiplyLoop multiplicand multiplier i res (product >>> 32)

/-- `multiplyPoly` by one word, which asserts that the two vectors are of one size. -/
def multiplyPolyWord (res multiplicand : Sig) (multiplier : POLY) : Option Sig :=
  if res.length = multiplicand.length then do
    let (res, product) ← multiplyLoop multiplicand multiplier multiplicand.length res 0
    return if product > 0 then product.setWidth 32 :: res else res
  else none

/-- The loop of `addPoly` over both vectors from their last words on, with the numbers of the words
that are left of each. -/
def addLoop (y : Sig) : Nat → Nat → Sig → Option (Sig × Nat × Nat)
  | i + 1, j + 1, x => do
    let w ← y[j]?
    addLoop y i j (← modifyAt x i (· ^^^ w))
  | i, j, x => some (x, i, j)

def insertLoop (y : Sig) : Nat → Sig → Option Sig
  | 0, x => some x
  | j + 1, x => do insertLoop y j ((← y[j]?) :: x)

def addPoly (x y : Sig) : Option Sig := do
  let (x, i, j) ← addLoop y x.length y.length x
  if i = 0 then insertLoop y j x else return x

/-- The loop over the last `n` words of `g`, the first of which has the index `i`. -/
def multiplyPolyLoop (f g : Sig) : Nat → Nat → Sig → Option Sig
  | 0, _, res => some res
  | n + 1, i, res => do
    let partialProd ← multiplyPolyWord (List.replicate f.length 0) f (← g[i]?)
    let res ← addPoly res partialProd
    let res ← if i < g.length - 1 then shiftLeft res 32 else some res
    multiplyPolyLoop f g n (i + 1) res

/-- `multiplyPoly` as the source has it, which leaves the product in `res`. -/
def multiplyPoly (res f g : Sig) : Option Sig := multiplyPolyLoop f g g.length 0 res

end Vectors

section Bounds

theorem multiplyLoop_eq (m : POLY) (z pre l : Sig) (hz : z.length = pre.length) :
    multiplyLoop (pre ++ l) m pre.length (z ++ (XGossip.multiplyLoop m l).1)
      (XGossip.multiplyLoop m l).2 = some (XGossip.multiplyLoop m (pre ++ l)) := by
  induction pre using List.reverseRecOn generalizing z l with
  | nil =>
    obtain rfl := List.length_eq_zero_iff.1 hz
    rfl
  | append_singleton pre w ih =>
    obtain ⟨z, v, rfl⟩ : ∃ z' v, z = z' ++ [v] := by
      cases z using List.reverseRecOn with
      | nil => simp at hz
      | append_singleton z v => exact ⟨z, v, rfl⟩
    have hz' : z.length = pre.length := by simpa using hz
    have hnext := ih z (w :: l) hz'
    rw [List.append_assoc, List.append_assoc, List.singleton_append, List.singleton_append,
      ← hnext, List.length_append, List.length_singleton, multiplyLoop]
    rw [getElem?_middle, ← hz']
    simp only [modifyAt_middle, Option.bind_eq_bind, Option.bind_some, XGossip.multiplyLoop]

theorem multiplyPolyWord_eq (f : Sig) (m : POLY) :
    multiplyPolyWord (List.replicate f.length 0) f m = some (XGossip.multiplyPolyWord f m) := by
  have hloop := multiplyLoop_eq m (List.replicate f.length 0) f [] (List.length_replicate ..)
  simp only [XGossip.multiplyLoop, List.append_nil] at hloop
  rw [multiplyPolyWord, if_pos (List.length_replicate ..), hloop]
  rfl

theorem getElem?_reverse_middle (ys sy : Sig) (y : Word) :
    (ys.reverse ++ y :: sy)[ys.length]? = some y := by
  have hlast := getElem?_middle ys.reverse y sy
  rwa [List.length_reverse] at hlast

theorem insertLoop_eq (ys sy x : Sig) :
    insertLoop (ys.reverse ++ sy) ys.length x = some (ys.reverse ++ x) := by
  induction ys generalizing sy x with
  | nil => rfl
  | cons y ys ih =>
    have hy : (ys.reverse ++ y :: sy)[ys.length]? = some y := getElem?_reverse_middle ys sy y
    rw [List.reverse_cons, List.append_assoc, List.append_assoc, List.singleton_append,
      List.singleton_append, List.length_cons, insertLoop, hy]
    exact ih (y :: sy) (y :: x)

/-- Both loops of `addPoly`, behind the words that are done. -/
theorem addLoop_eq (xs ys sx sy : Sig) :
    (do
      let (x, i, j) ← addLoop (ys.reverse ++ sy) xs.length ys.length (xs.reverse ++ sx)
      if i = 0 then insertLoop (ys.reverse ++ sy) j x else return x) =
        some ((addWords xs ys).reverse ++ sx) := by
  induction xs generalizing ys sx sy with
  | nil =>
    cases ys with
    | nil => rfl
    | cons y ys => exact insertLoop_eq (y :: ys) sy sx
  | cons x xs ih =>
    cases ys with
    | nil => rfl
    | cons y ys =>
      have hy : (ys.reverse ++ y :: sy)[ys.length]? = some y := getElem?_reverse_middle ys sy y
      have hx : modifyAt (xs.reverse ++ x :: sx) xs.length (· ^^^ y) =
          some (xs.reverse ++ (x ^^^ y) :: sx) := by
        have hlast := modifyAt_middle xs.reverse x sx (· ^^^ y)
        rwa [List.length_reverse] at hlast
      have hnext := ih ys ((x ^^^ y) :: sx) (y :: sy)
      simp only [List.reverse_cons, List.append_assoc, List.singleton_append, List.length_cons,
        addWords, addLoop, hy, hx, Option.bind_eq_bind, Option.bind_some]
      exact hnext

theorem addPoly_eq (x y : Sig) : addPoly x y = some (XGossip.addPoly x y) := by
  have hloop := addLoop_eq x.reverse y.reverse [] []
  simp only [List.reverse_reverse, List.append_nil, List.length_reverse] at hloop
  exact hloop

theorem multiplyPolyLoop_eq (f pre l res : Sig) :
    multiplyPolyLoop f (pre ++ l) l.length pre.length res =
      some (XGossip.multiplyPolyLoop f res l) := by
  induction l generalizing pre res with
  | nil => rfl
  | cons w l ih =>
    have hlast : pre.length < (pre ++ w :: l).length - 1 ↔ l ≠ [] := by
      rw [List.length_append, List.length_cons, ← List.length_pos_iff]
      omega
    have hnext := ih (pre ++ [w])
    simp only [List.append_assoc, List.singleton_append, List.length_append,
      List.length_singleton] at hnext
    simp only [List.length_cons, multiplyPolyLoop, getElem?_middle, multiplyPolyWord_eq, addPoly_eq,
      hlast, shiftLeft_eq (show 32 ≤ 32 by omega), Option.bind_eq_bind, Option.bind_some, hnext,
      XGossip.multiplyPolyLoop]
    by_cases hl : l = []
    · rw [if_neg (not_not.2 hl), if_pos hl]
    · rw [if_pos hl, if_neg hl]

theorem multiplyPoly_eq (f g : Sig) : multiplyPoly [] f g = some (XGossip.multiplyPoly f g) :=
  multiplyPolyLoop_eq f [] g []

end Bounds

end Words

section Product

variable {f g h : Sig}

theorem fullDegree_multiplyPoly (hf : Normalized f) (hg : Normalized g) :
    fullDegree (multiplyPoly f g) = fullDegree f + fullDegree g := by
  obtain ⟨hn, hprod⟩ := multiplyPoly_spec hf hg
  obtain ⟨a, ha, ha'⟩ := degree_eq_fullDegree hf
  obtain ⟨b, hb, hb'⟩ := degree_eq_fullDegree hg
  obtain ⟨c, hc, hc'⟩ := degree_eq_fullDegree hn
  rw [hprod, degree_mul, ha', hb'] at hc'
  have hsum : a + b = c := by exact_mod_cast hc'
  omega

theorem multiplyPoly_comm (hf : Normalized f) (hg : Normalized g) :
    multiplyPoly f g = multiplyPoly g f := by
  apply (multiplyPoly_spec hf hg).1.eq_of_poly (multiplyPoly_spec hg hf).1
  rw [poly_multiplyPoly, poly_multiplyPoly, mul_comm]

theorem multiplyPoly_assoc (hf : Normalized f) (hg : Normalized g) (hh : Normalized h) :
    multiplyPoly (multiplyPoly f g) h = multiplyPoly f (multiplyPoly g h) := by
  have hfg := (multiplyPoly_spec hf hg).1
  have hgh := (multiplyPoly_spec hg hh).1
  apply (multiplyPoly_spec hfg hh).1.eq_of_poly (multiplyPoly_spec hf hgh).1
  rw [poly_multiplyPoly, poly_multiplyPoly, poly_multiplyPoly, poly_multiplyPoly, mul_assoc]

/-- `multiplyPoly` computes the product of two polynomials, without words in front that are not
needed; it is commutative and associative. -/
theorem multiplyPoly_exact (hf : Normalized f) (hg : Normalized g) :
    ∃ res, (∀ v, Words.multiplyPoly [] f g = some v ↔ v = res) ∧ Normalized res ∧
      poly res = poly f * poly g ∧ (∀ v, Normalized v → poly v = poly f * poly g → v = res) ∧
      fullDegree res = fullDegree f + fullDegree g ∧
      Words.multiplyPoly [] g f = some res ∧
      ∀ h, Normalized h → ∃ gh, Words.multiplyPoly [] g h = some gh ∧
        Words.multiplyPoly [] res h = Words.multiplyPoly [] f gh := by
  obtain ⟨hn, hprod⟩ := multiplyPoly_spec hf hg
  refine ⟨multiplyPoly f g, ?_, hn, hprod, ?_, ?_, ?_, ?_⟩
  · intro v
    rw [Words.multiplyPoly_eq, Option.some_inj, eq_comm]
  · intro v hv hpoly
    exact hv.eq_of_poly hn (hpoly.trans hprod.symm)
  · exact fullDegree_multiplyPoly hf hg
  · rw [Words.multiplyPoly_eq, multiplyPoly_comm hg hf]
  · intro h hh
    refine ⟨multiplyPoly g h, Words.multiplyPoly_eq g h, ?_⟩
    rw [Words.multiplyPoly_eq, Words.multiplyPoly_eq, multiplyPoly_assoc hf hg hh]

theorem multiplyPoly_exact_two_words : ∃ res, Words.multiplyPoly [] [1, 3] [0x80000000] = some res ∧
    Normalized res ∧ fullDegree res = 63 := by
  obtain ⟨res, hcall, hn, -, -, hdeg, -, -⟩ :=
    multiplyPoly_exact (f := [1, 3]) (g := [0x80000000]) (by decide) (by decide)
  have hsum : fullDegree [1, 3] + fullDegree [0x80000000] = 63 := by decide
  exact ⟨res, (hcall res).2 rfl, hn, hdeg.trans hsum⟩

end Product

end XGossip
