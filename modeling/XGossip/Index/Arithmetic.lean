import XGossip.Index.Multiply
import XGossip.Index.Similarity

open Polynomial

namespace XGossip
set_option autoImplicit true

open Gf2

namespace Words

section Code

/-- `gcd`, for fewer calls than `fuel`. -/
def gcd : Nat → Sig → Sig → Option Sig
  | 0, _, _ => none
  | fuel + 1, f, g => if g = [0] then some f else do gcd fuel g (← remainder f g)

def gcdSpecial (fuel : Nat) (f g : Sig) : Option Sig := do
  let degf ← getDegree f
  let degg ← getDegree g
  if degf ≥ degg then gcd fuel f g else gcd fuel g f

def lcmSpecial (t s g : Sig) : Option Sig :=
  if t = [1] ∧ s = [1] then some t
  else do
    let degs ← getDegree s
    let degg ← getDegree g
    let q ← if degs ≥ degg then quotient s g else quotient g s
    multiplyPoly [] t q

def lcm (fuel : Nat) (t s : Sig) : Option Sig :=
  if t = [1] ∧ s = [1] then some t
  else do lcmSpecial t s (← gcdSpecial fuel t s)

def pSim (fuel : Nat) (s1 s2 mygcd : Sig) (isMetric : Bool) : Option Int :=
  if isMetric then do
    let mylcm ← lcm fuel [1] s1
    let mylcm ← lcm fuel mylcm s2
    return simScore (← getDegree mygcd) (← getDegree mylcm)
  else getDegree mygcd

def pSimOpt (s1 s2 mygcd : Sig) (isMetric : Bool) : Option (Int × Sig) :=
  if isMetric then do
    let s1 ← lcmSpecial s1 s2 mygcd
    return (simScore (← getDegree mygcd) (← getDegree s1), s1)
  else do return (← getDegree mygcd, s1)

end Code

/-- The calls of `gcd` that end, when the second polynomial is zero. -/
inductive Gcd : Sig → Sig → Sig → Prop where
  | done : Gcd f [0] f
  | next : g ≠ [0] → remainder f g = some r → Gcd g r res → Gcd f g res

end Words

/-- A recursion returns `a`: it does with any fuel that is enough. -/
def Returns (x : Nat → Option α) (a : α) : Prop := ∃ n, ∀ fuel ≥ n, x fuel = some a

theorem Returns.exists (h : Returns x a) : ∃ fuel, x fuel = some a := by
  obtain ⟨n, h⟩ := h
  exact ⟨n, h n le_rfl⟩

theorem Returns.unique (h : Returns x a) (h' : Returns x b) : a = b := by
  obtain ⟨n, h⟩ := h
  obtain ⟨n', h'⟩ := h'
  exact Option.some.inj ((h _ (le_max_left n n')).symm.trans (h' _ (le_max_right n n')))

section Gcd

variable {f g s t res : Sig} {fuel : Nat}

theorem Words.gcd_next (h : g ≠ [0]) :
    Words.gcd (fuel + 1) f g = (Words.remainder f g).bind (Words.gcd fuel g) := by
  rw [Words.gcd, if_neg h]
  rfl

theorem Words.gcd_calls (h : Words.gcd fuel f g = some res) : Words.Gcd f g res := by
  induction fuel generalizing f g with
  | zero => cases h
  | succ fuel ih =>
    by_cases hg : g = [0]
    · subst hg
      rw [Words.gcd, if_pos rfl] at h
      obtain rfl := Option.some.inj h
      exact .done
    · rw [Words.gcd_next hg] at h
      obtain ⟨r, hr, h⟩ := Option.bind_eq_some_iff.1 h
      exact .next hg hr (ih h)

theorem Words.Gcd.returns (h : Words.Gcd f g res) : Returns (Words.gcd · f g) res := by
  induction h with
  | done =>
    refine ⟨1, fun fuel hfuel => ?_⟩
    obtain ⟨n, rfl⟩ : ∃ n, fuel = n + 1 := ⟨fuel - 1, by omega⟩
    rfl
  | next hg hr _ ih =>
    obtain ⟨n, ih⟩ := ih
    refine ⟨n + 1, fun fuel hfuel => ?_⟩
    obtain ⟨m, rfl⟩ : ∃ m, fuel = m + 1 := ⟨fuel - 1, by omega⟩
    show Words.gcd (m + 1) _ _ = _
    rw [Words.gcd_next hg, hr, Option.bind_some]
    exact ih m (by omega)

theorem fullDegree_nonneg (hs : Normalized s) : 0 ≤ fullDegree s := by
  obtain ⟨n, hn, -⟩ := degree_eq_fullDegree hs
  omega

theorem fullDegree_le_of_dvd (hs : Normalized s) (ht : Normalized t) (h : poly s ∣ poly t) :
    fullDegree s ≤ fullDegree t :=
  (fullDegree_le_iff hs ht).2 (degree_le_of_dvd h ht.poly_ne_zero)

theorem FitsInt.of_dvd (ht : FitsInt t) (hs : Normalized s) (hn : Normalized t)
    (h : poly s ∣ poly t) : FitsInt s := (fullDegree_le_of_dvd hs hn h).trans ht

theorem FitsInt.remainder (hgf : FitsInt g) (hf : Normalized f) (hg : Normalized g) :
    FitsInt (remainder f g) := by
  obtain ⟨hmod, hr⟩ := remainder_spec hf hg
  rcases hr with hr | hr
  · rw [hr]
    decide
  · refine ((fullDegree_le_iff hr hg).2 ?_).trans hgf
    rw [hmod]
    exact (EuclideanDomain.mod_lt _ hg.poly_ne_zero).le

/-- Each call has a divisor of a smaller degree. -/
theorem Words.gcd_eq_gcdLoop (hf : Normalized f) (hg : g = [0] ∨ Normalized g)
    (hff : FitsInt f) (hgf : FitsInt g) (hfuel : (poly g).degree < fuel) :
    Words.gcd (fuel + 1) f g = some (gcdLoop fuel f g) := by
  induction fuel generalizing f g with
  | zero =>
    have hzero : poly g = 0 := by
      rw [← degree_eq_bot]
      exact Nat.WithBot.lt_zero_iff.1 hfuel
    obtain rfl := hg.resolve_right fun hg => hg.poly_ne_zero hzero
    rfl
  | succ n ih =>
    rw [gcdLoop]
    split
    · next h =>
      rw [Words.gcd, if_pos h]
    · next h =>
      have hg' := hg.resolve_left h
      obtain ⟨hmod, hr⟩ := remainder_spec hf hg'
      rw [Words.gcd_next h, Words.remainder_eq (.inr hf) hg' hff hgf, Option.bind_some]
      refine ih hg' hr hgf (hgf.remainder hf hg') ?_
      have hlt : (poly f % poly g).degree < (poly g).degree :=
        EuclideanDomain.mod_lt (poly f) hg'.poly_ne_zero
      obtain ⟨m, -, hm⟩ := degree_eq_fullDegree hg'
      rw [hmod]
      rw [hm] at hlt hfuel
      have hmn : m < n + 1 := by exact_mod_cast hfuel
      exact hlt.trans_le (by exact_mod_cast Nat.le_of_lt_succ hmn)

/-- The fuel that is enough for all degrees that fit an `int`. -/
def Words.enough : Nat := 2147483649

theorem Words.gcd_eq (hf : Normalized f) (hg : Normalized g) (hff : FitsInt f) (hgf : FitsInt g)
    (hfuel : Words.enough ≤ fuel) : Words.gcd fuel f g = some (XGossip.gcd f g) := by
  obtain ⟨m, hm, hdeg⟩ := degree_eq_fullDegree hg
  rw [FitsInt, INT_MAX] at hgf
  rw [Words.enough] at hfuel
  obtain ⟨n, rfl⟩ : ∃ n, fuel = n + 1 := ⟨fuel - 1, by omega⟩
  have hlt : (poly g).degree < n := by
    rw [hdeg]
    exact_mod_cast (by omega : m < n)
  obtain ⟨hn, hpoly⟩ := gcdLoop_spec hf (.inr hg) hlt
  obtain ⟨hn', hpoly'⟩ := gcd_spec hf hg
  rw [Words.gcd_eq_gcdLoop hf (.inr hg) hff hgf hlt, hn.eq_of_poly hn' (hpoly.trans hpoly'.symm)]

theorem Words.gcd_returns (hf : Normalized f) (hg : Normalized g) (hff : FitsInt f)
    (hgf : FitsInt g) : Returns (Words.gcd · f g) (XGossip.gcd f g) :=
  ⟨Words.enough, fun _ hfuel => Words.gcd_eq hf hg hff hgf hfuel⟩

theorem Words.gcdSpecial_eq (hf : Normalized f) (hg : Normalized g) (hff : FitsInt f)
    (hgf : FitsInt g) (hfuel : Words.enough ≤ fuel) :
    Words.gcdSpecial fuel f g = some (XGossip.gcdSpecial f g) := by
  simp only [Words.gcdSpecial, Words.getDegree_eq hf.ne_nil hff, Words.getDegree_eq hg.ne_nil hgf,
    Option.bind_eq_bind, Option.bind_some, XGossip.gcdSpecial]
  split
  · exact Words.gcd_eq hf hg hff hgf hfuel
  · exact Words.gcd_eq hg hf hgf hff hfuel

theorem Words.gcdSpecial_returns (hf : Normalized f) (hg : Normalized g) (hff : FitsInt f)
    (hgf : FitsInt g) : Returns (Words.gcdSpecial · f g) (XGossip.gcdSpecial f g) :=
  ⟨Words.enough, fun _ hfuel => Words.gcdSpecial_eq hf hg hff hgf hfuel⟩

theorem gcd_comm_poly (f g : Sig) :
    EuclideanDomain.gcd (poly f) (poly g) = EuclideanDomain.gcd (poly g) (poly f) :=
  eq_of_dvd_of_dvd
    (EuclideanDomain.dvd_gcd (EuclideanDomain.gcd_dvd_right _ _) (EuclideanDomain.gcd_dvd_left _ _))
    (EuclideanDomain.dvd_gcd (EuclideanDomain.gcd_dvd_right _ _) (EuclideanDomain.gcd_dvd_left _ _))

theorem gcdSpecial_comm (hf : Normalized f) (hg : Normalized g) :
    gcdSpecial f g = gcdSpecial g f := by
  apply (gcdSpecial_spec hf hg).1.eq_of_poly (gcdSpecial_spec hg hf).1
  rw [poly_gcdSpecial hf hg, poly_gcdSpecial hg hf, gcd_comm_poly]

theorem gcd_eq_gcdSpecial (hf : Normalized f) (hg : Normalized g) : gcd f g = gcdSpecial f g := by
  obtain ⟨hn, hp⟩ := gcd_spec hf hg
  apply hn.eq_of_poly (gcdSpecial_spec hf hg).1
  rw [hp, poly_gcdSpecial hf hg, gcd_comm_poly]

/-- `gcd` and `gcdSpecial` return the greatest common divisor, in either order. -/
def ReturnsGcd (f g : Sig) : Prop :=
  ∃ res, Returns (Words.gcd · f g) res ∧ Returns (Words.gcd · g f) res ∧
    Returns (Words.gcdSpecial · f g) res ∧ Returns (Words.gcdSpecial · g f) res ∧
    Normalized res ∧ poly res ∣ poly f ∧ poly res ∣ poly g ∧
    ∀ d, d ∣ poly f → d ∣ poly g → d ∣ poly res

theorem returnsGcd_of_fits (hf : Normalized f) (hg : Normalized g) (hff : FitsInt f)
    (hgf : FitsInt g) : ReturnsGcd f g := by
  obtain ⟨hn, hdf, hdg, hgreatest⟩ := gcdSpecial_spec hf hg
  have hfg := Words.gcd_returns hf hg hff hgf
  have hgf' := Words.gcd_returns hg hf hgf hff
  have hspecial := Words.gcdSpecial_returns hg hf hgf hff
  rw [gcd_eq_gcdSpecial hf hg] at hfg
  rw [gcd_eq_gcdSpecial hg hf, gcdSpecial_comm hg hf] at hgf'
  rw [gcdSpecial_comm hg hf] at hspecial
  exact ⟨gcdSpecial f g, hfg, hgf', Words.gcdSpecial_returns hf hg hff hgf, hspecial, hn, hdf, hdg,
    hgreatest⟩

theorem Words.toInt_neg (h : INT_MAX < n) (hlt : n < 2 ^ 32) : Words.toInt n < 0 := by
  rw [INT_MAX] at h
  rw [Words.toInt, Int.bmod]
  omega

theorem Words.remainder_eq_none (hf : Normalized f) (hff : FitsInt f) (hg : g ≠ [])
    (hneg : Words.toInt (fullDegree g) < 0) : Words.remainder f g = none := by
  obtain ⟨d, hd⟩ := exists_topBit hf
  have hlt := hd.lt
  have hdeg := hd.fullDegree
  have hpos := List.length_pos_iff.2 hf.ne_nil
  rw [Words.remainder_cases hf.ne_nil hg, Words.toInt_fullDegree hf.ne_nil hff, if_neg (by omega),
    if_neg]
  rintro ⟨hin, -⟩
  rw [Words.toInt_fullDegree hf.ne_nil hff] at hin
  omega

theorem Words.gcd_eq_none (hf : Normalized f) (hff : FitsInt f) (hg : Normalized g)
    (hgf : ¬ FitsInt g) (hlt : fullDegree g < 2 ^ 32) (fuel : Nat) :
    Words.gcd fuel f g = none := by
  have hzero : g ≠ [0] := by
    rintro rfl
    exact hgf (by decide)
  cases fuel with
  | zero => rfl
  | succ fuel =>
    rw [Words.gcd_next hzero, Words.remainder_eq_none hf hff hg.ne_nil
      (Words.toInt_neg (not_le.1 hgf) hlt), Option.bind_none]

theorem Words.gcdSpecial_eq_none (hf : Normalized f) (hff : FitsInt f) (hg : Normalized g)
    (hgf : ¬ FitsInt g) (hlt : fullDegree g < 2 ^ 32) (fuel : Nat) :
    Words.gcdSpecial fuel f g = none ∧ Words.gcdSpecial fuel g f = none := by
  have hneg := Words.toInt_neg (not_le.1 hgf) hlt
  have hpos := fullDegree_nonneg hf
  have hnone := Words.gcd_eq_none hf hff hg hgf hlt fuel
  simp only [Words.gcdSpecial, Words.getDegree_eq hf.ne_nil hff, Words.getDegree_toInt hg.ne_nil,
    Option.bind_eq_bind, Option.bind_some]
  constructor
  · rw [if_pos (by omega), hnone]
  · rw [if_neg (by omega), hnone]

/-- Of degrees below `2 ^ 32`, one of which is an `int`, the other one has to be an `int`, too. -/
theorem gcd_greatest (hf : Normalized f) (hg : Normalized g) (hgf : FitsInt g)
    (hlt : fullDegree f < 2 ^ 32) : ReturnsGcd f g ↔ FitsInt f := by
  constructor
  · rintro ⟨res, -, hres, -⟩
    by_contra hff
    obtain ⟨fuel, hres⟩ := hres.exists
    rw [Words.gcd_eq_none hg hgf hf hff hlt] at hres
    cases hres
  · intro hff
    exact returnsGcd_of_fits hf hg hff hgf

theorem gcd_greatest_two_words : ReturnsGcd [1, 3] [6] :=
  (gcd_greatest (by decide) (by decide) (by decide) (by decide)).2 (by decide)

theorem not_returnsGcd_wordPow {words : Nat} (h : 32 * (words : Int) = INT_MAX + 1) :
    (∀ fuel, Words.gcdSpecial fuel (wordPow words) [2] = none) ∧
      ¬ ReturnsGcd (wordPow words) [2] := by
  have hn := wordPow_normalized words
  have hff : ¬ FitsInt (wordPow words) := not_fitsInt_wordPow (by omega)
  have hlt : fullDegree (wordPow words) < 2 ^ 32 := by
    rw [fullDegree_wordPow, h]
    decide
  have hx : Normalized [2] := by decide
  refine ⟨fun fuel => (Words.gcdSpecial_eq_none hx (by decide) hn hff hlt fuel).2, ?_⟩
  rintro ⟨res, -, hres, -⟩
  obtain ⟨fuel, hres⟩ := hres.exists
  rw [Words.gcd_eq_none hx (by decide) hn hff hlt] at hres
  cases hres

theorem gcd_wraps : Normalized (wordPow 67108864) ∧ Normalized [2] ∧
    (∀ fuel, Words.gcdSpecial fuel (wordPow 67108864) [2] = none) ∧
    ¬ ReturnsGcd (wordPow 67108864) [2] :=
  ⟨wordPow_normalized _, by decide, not_returnsGcd_wordPow (by norm_num [INT_MAX])⟩

end Gcd

section Lcm

/-- The calls of `lcm` leave `res` in `t`. -/
def Words.Lcm (t s res : Sig) : Prop := Returns (Words.lcm · t s) res

/-- Signatures put together by `lcm`, in any order and grouping. -/
inductive Folding where
  | sig (s : Sig)
  | lcm (t s : Folding)

def Folding.sigs : Folding → List Sig
  | .sig s => [s]
  | .lcm t s => t.sigs ++ s.sigs

/-- What the calls of `lcm` leave. -/
def Folding.fold : Folding → Nat → Option Sig
  | .sig s, _ => some s
  | .lcm t s, fuel => do Words.lcm fuel (← t.fold fuel) (← s.fold fuel)

def Folding.value : Folding → Sig
  | .sig s => s
  | .lcm t s => XGossip.lcm t.value s.value

/-- The degrees of all that `lcm` is called with are those of an `int`. -/
def Folding.Fits : Folding → Prop
  | .sig _ => True
  | .lcm t s => FitsInt t.value ∧ FitsInt s.value ∧ t.Fits ∧ s.Fits

/-- `t` divides exactly what all of the signatures divide. -/
structure LeastMultiple (sigs : List Sig) (t : Sig) : Prop where
  normalized : Normalized t
  dvd_iff : ∀ u, poly t ∣ u ↔ ∀ s ∈ sigs, poly s ∣ u

variable {t s res : Sig} {sigs sigs' : List Sig} {fuel : Nat}

theorem Words.lcmSpecial_eq (ht : Normalized t) (hs : Normalized s) (hsf : FitsInt s) :
    Words.lcmSpecial t s (XGossip.gcdSpecial t s) = some (XGossip.lcm t s) := by
  rw [Words.lcmSpecial, XGossip.lcm, XGossip.lcmSpecial]
  split
  · rfl
  · obtain ⟨hg, -, hgs, -⟩ := gcdSpecial_spec ht hs
    have hle := fullDegree_le_of_dvd hg hs hgs
    have hgf := hsf.of_dvd hg hs hgs
    simp only [Words.getDegree_eq hs.ne_nil hsf, Words.getDegree_eq hg.ne_nil hgf,
      Option.bind_eq_bind, Option.bind_some, ge_iff_le, if_pos hle,
      Words.quotient_eq hs hg hsf hgf hle, Words.multiplyPoly_eq]

theorem Words.lcm_eq (ht : Normalized t) (hs : Normalized s) (htf : FitsInt t) (hsf : FitsInt s)
    (hfuel : Words.enough ≤ fuel) : Words.lcm fuel t s = some (XGossip.lcm t s) := by
  rw [Words.lcm]
  split
  · next hone =>
    rw [XGossip.lcm, XGossip.lcmSpecial, if_pos hone]
  · rw [Words.gcdSpecial_eq ht hs htf hsf hfuel]
    exact Words.lcmSpecial_eq ht hs hsf

theorem Words.lcm_returns (ht : Normalized t) (hs : Normalized s) (htf : FitsInt t)
    (hsf : FitsInt s) : Words.Lcm t s (XGossip.lcm t s) :=
  ⟨Words.enough, fun _ hfuel => Words.lcm_eq ht hs htf hsf hfuel⟩

theorem LeastMultiple.single (hs : Normalized s) : LeastMultiple [s] s :=
  ⟨hs, fun u => by simp⟩

theorem LeastMultiple.lcm (h : LeastMultiple sigs t) (h' : LeastMultiple sigs' s) :
    LeastMultiple (sigs ++ sigs') (lcm t s) := by
  obtain ⟨hn, htl, hsl, hleast⟩ := lcm_spec h.normalized h'.normalized
  refine ⟨hn, fun u => ?_⟩
  rw [List.forall_mem_append, ← h.dvd_iff, ← h'.dvd_iff]
  constructor
  · intro hu
    exact ⟨htl.trans hu, hsl.trans hu⟩
  · rintro ⟨htu, hsu⟩
    exact hleast u htu hsu

theorem LeastMultiple.unique (h : LeastMultiple sigs t) (h' : LeastMultiple sigs s) : t = s := by
  apply h.normalized.eq_of_poly h'.normalized
  exact eq_of_dvd_of_dvd ((h.dvd_iff _).2 ((h'.dvd_iff _).1 dvd_rfl))
    ((h'.dvd_iff _).2 ((h.dvd_iff _).1 dvd_rfl))

theorem LeastMultiple.perm (h : LeastMultiple sigs t) (hp : sigs.Perm sigs') :
    LeastMultiple sigs' t := by
  refine ⟨h.normalized, fun u => ?_⟩
  rw [h.dvd_iff]
  exact forall_congr' fun s => by rw [hp.mem_iff]

theorem Folding.leastMultiple (F : Folding) (h : ∀ s ∈ F.sigs, Normalized s) :
    LeastMultiple F.sigs F.value := by
  induction F with
  | sig s => exact .single (h s (List.mem_singleton.2 rfl))
  | lcm t s iht ihs =>
    rw [Folding.sigs, List.forall_mem_append] at h
    exact (iht h.1).lcm (ihs h.2)

theorem Folding.fold_eq (F : Folding) (h : ∀ s ∈ F.sigs, Normalized s) (hfit : F.Fits)
    (hfuel : Words.enough ≤ fuel) : F.fold fuel = some F.value := by
  induction F with
  | sig s => rfl
  | lcm t s iht ihs =>
    rw [Folding.sigs, List.forall_mem_append] at h
    obtain ⟨htf, hsf, ht, hs⟩ := hfit
    rw [Folding.fold, iht h.1 ht, ihs h.2 hs]
    exact Words.lcm_eq (t.leastMultiple h.1).normalized (s.leastMultiple h.2).normalized htf hsf
      hfuel

theorem Folding.fold_perm {F F' : Folding} (h : ∀ s ∈ F.sigs, Normalized s) (hfit : F.Fits)
    (hfit' : F'.Fits) (hp : F.sigs.Perm F'.sigs) :
    ∃ res, Returns F.fold res ∧ Returns F'.fold res := by
  have h' : ∀ s ∈ F'.sigs, Normalized s := fun s hs => h s (hp.mem_iff.2 hs)
  have hvalue : F'.value = F.value := (F'.leastMultiple h').unique ((F.leastMultiple h).perm hp)
  refine ⟨F.value, ⟨Words.enough, fun fuel hfuel => F.fold_eq h hfit hfuel⟩,
    ⟨Words.enough, fun fuel hfuel => ?_⟩⟩
  rw [F'.fold_eq h' hfit' hfuel, hvalue]

/-- `lcm` leaves the least common multiple in `t`. -/
def ReturnsLcm (t s : Sig) : Prop :=
  ∃ res g, Words.Lcm t s res ∧ Normalized res ∧ poly t ∣ poly res ∧ poly s ∣ poly res ∧
    (∀ u, poly t ∣ u → poly s ∣ u → poly res ∣ u) ∧ Returns (Words.gcd · t s) g ∧
    poly res * poly g = poly t * poly s ∧ (poly s ∣ poly t → res = t)

theorem returnsLcm_of_fits (ht : Normalized t) (hs : Normalized s) (htf : FitsInt t)
    (hsf : FitsInt s) : ReturnsLcm t s := by
  obtain ⟨hn, htl, hsl, hleast⟩ := lcm_spec ht hs
  refine ⟨lcm t s, gcd t s, Words.lcm_returns ht hs htf hsf, hn, htl, hsl, hleast,
    Words.gcd_returns ht hs htf hsf, ?_, fun hdvd => (lcm_of_divides hs ht hdvd).2⟩
  rw [(lcm_poly ht hs).2, gcd_eq_gcdSpecial ht hs, poly_gcdSpecial ht hs, mul_comm]
  exact EuclideanDomain.gcd_mul_lcm _ _

theorem Words.lcm_eq_none (ht : Normalized t) (htf : ¬ FitsInt t) (hs : Normalized s)
    (hsf : FitsInt s) (hlt : fullDegree t < 2 ^ 32) (fuel : Nat) :
    Words.lcm fuel t s = none := by
  have hone : t ≠ [1] := by
    rintro rfl
    exact htf (by decide)
  rw [Words.lcm, if_neg fun h => hone h.1, (Words.gcdSpecial_eq_none hs hsf ht htf hlt fuel).2]
  rfl

/-- `lcm` leaves the least common multiple exactly if its degrees are those of an `int`, and the
order and the grouping of the signatures that are put together do not matter then. -/
theorem lcm_least (ht : Normalized t) (hs : Normalized s) (hsf : FitsInt s)
    (hlt : fullDegree t < 2 ^ 32) :
    (ReturnsLcm t s ↔ FitsInt t) ∧
      ∀ F F' : Folding, (∀ s ∈ F.sigs, Normalized s) → F.Fits → F'.Fits → F.sigs.Perm F'.sigs →
        ∃ res, Returns F.fold res ∧ Returns F'.fold res := by
  refine ⟨⟨?_, fun htf => returnsLcm_of_fits ht hs htf hsf⟩, fun F F' => Folding.fold_perm⟩
  rintro ⟨res, g, hres, -⟩
  by_contra htf
  obtain ⟨fuel, hres⟩ := hres.exists
  rw [Words.lcm_eq_none ht htf hs hsf hlt] at hres
  cases hres

theorem lcm_least_two_words : ReturnsLcm [1, 3] [6] ∧ ∃ res,
    Returns (Folding.lcm (.sig [6]) (.lcm (.sig [5]) (.sig [1, 3]))).fold res ∧
      Returns (Folding.lcm (.lcm (.sig [1, 3]) (.sig [5])) (.sig [6])).fold res := by
  obtain ⟨hcalls, hfold⟩ :=
    lcm_least (t := [1, 3]) (s := [6]) (by decide) (by decide) (by decide) (by decide)
  refine ⟨hcalls.2 (by decide), hfold _ _ (by decide) ?_ ?_
    (List.reverse_perm [[1, 3], [5], [6]])⟩
  · exact ⟨by decide, by decide +kernel, trivial, by decide, by decide, trivial, trivial⟩
  · exact ⟨by decide +kernel, by decide, ⟨by decide, by decide, trivial, trivial⟩, trivial⟩

theorem not_returnsLcm_wordPow {words : Nat} (h : 32 * (words : Int) = INT_MAX + 1) :
    (∀ fuel, Words.lcm fuel (wordPow words) [2] = none) ∧ ¬ ReturnsLcm (wordPow words) [2] := by
  have hff : ¬ FitsInt (wordPow words) := not_fitsInt_wordPow (by omega)
  have hlt : fullDegree (wordPow words) < 2 ^ 32 := by
    rw [fullDegree_wordPow, h]
    decide
  have hnone := Words.lcm_eq_none (s := [2]) (wordPow_normalized words) hff (by decide) (by decide)
    hlt
  refine ⟨hnone, ?_⟩
  rintro ⟨res, g, hres, -⟩
  obtain ⟨fuel, hres⟩ := hres.exists
  rw [hnone] at hres
  cases hres

theorem lcm_wraps : Normalized (wordPow 67108864) ∧ Normalized [2] ∧
    (∀ fuel, Words.lcm fuel (wordPow 67108864) [2] = none) ∧
    ¬ ReturnsLcm (wordPow 67108864) [2] :=
  ⟨wordPow_normalized _, by decide, not_returnsLcm_wordPow (by norm_num [INT_MAX])⟩

end Lcm

section Similarity

variable {s s1 s2 : Sig} {fuel : Nat}

theorem eq_one_of_dvd_one (hs : Normalized s) (h : poly s ∣ 1) : s = [1] := by
  apply hs.eq_of_poly (by decide)
  rw [poly_one_word]
  exact eq_of_dvd_of_dvd h (one_dvd _)

theorem fullDegree_lcm_pos (h₁ : Normalized s1) (h₂ : Normalized s2)
    (hone : ¬ (s1 = [1] ∧ s2 = [1])) : 0 < fullDegree (lcm s1 s2) := by
  obtain ⟨hn, hd₁, hd₂, -⟩ := lcm_spec h₁ h₂
  obtain ⟨n, hdeg, hdeg'⟩ := degree_eq_fullDegree hn
  rcases Nat.eq_zero_or_pos n with rfl | hpos
  · have hunit : poly (lcm s1 s2) ∣ 1 :=
      (isUnit_iff_degree_eq_zero.2 (by exact_mod_cast hdeg')).dvd
    exact (hone ⟨eq_one_of_dvd_one h₁ (hd₁.trans hunit),
      eq_one_of_dvd_one h₂ (hd₂.trans hunit)⟩).elim
  · omega

theorem simScore_bounds (h₀ : 0 ≤ a) (hle : a ≤ b) (hb : 0 < b) :
    simScore a b = (INT_MAX - 1) * a / b ∧ 0 ≤ simScore a b ∧ simScore a b ≤ INT_MAX - 1 := by
  have hmul : 0 ≤ (INT_MAX - 1) * a := Int.mul_nonneg (by decide) h₀
  have hscore : simScore a b = (INT_MAX - 1) * a / b := by
    rw [simScore, if_neg (by omega), Int.tdiv_eq_ediv_of_nonneg hmul]
  refine ⟨hscore, ?_, ?_⟩
  · rw [hscore]
    exact Int.ediv_nonneg hmul (by omega)
  · rw [hscore]
    apply Int.ediv_le_of_le_mul hb
    exact Int.mul_le_mul_of_nonneg_left hle (by decide)

theorem pSimOpt_metric (h₁ : Normalized s1) (h₂ : Normalized s2)
    (hone : ¬ (s1 = [1] ∧ s2 = [1])) :
    (pSimOpt s1 s2 (gcdSpecial s1 s2) true).1 =
        (INT_MAX - 1) * fullDegree (gcdSpecial s1 s2) / fullDegree (lcm s1 s2) ∧
      0 ≤ (pSimOpt s1 s2 (gcdSpecial s1 s2) true).1 ∧
      (pSimOpt s1 s2 (gcdSpecial s1 s2) true).1 ≤ INT_MAX - 1 := by
  obtain ⟨hg, hg₁, -, -⟩ := gcdSpecial_spec h₁ h₂
  obtain ⟨hl, hl₁, -, -⟩ := lcm_spec h₁ h₂
  exact simScore_bounds (fullDegree_nonneg hg) (fullDegree_le_of_dvd hg hl (hg₁.trans hl₁))
    (fullDegree_lcm_pos h₁ h₂ hone)

theorem Words.pSimOpt_false (hg : Normalized g) (hgf : FitsInt g) :
    Words.pSimOpt s1 s2 g false = some (fullDegree g, s1) := by
  simp [Words.pSimOpt, Words.getDegree_eq hg.ne_nil hgf]

theorem Words.pSimOpt_eq (h₁ : Normalized s1) (h₂ : Normalized s2) (hf₁ : FitsInt s1)
    (hf₂ : FitsInt s2) (hl : isMetric = true → FitsInt (XGossip.lcm s1 s2)) :
    Words.pSimOpt s1 s2 (XGossip.gcdSpecial s1 s2) isMetric =
      some (XGossip.pSimOpt s1 s2 (XGossip.gcdSpecial s1 s2) isMetric) := by
  obtain ⟨hg, hg₁, -, -⟩ := gcdSpecial_spec h₁ h₂
  have hgf := hf₁.of_dvd hg h₁ hg₁
  cases isMetric with
  | false => exact Words.pSimOpt_false hg hgf
  | true =>
    have hn := (lcm_spec h₁ h₂).1
    simp only [Words.pSimOpt, if_true, Words.lcmSpecial_eq h₁ h₂ hf₂,
      Words.getDegree_eq hg.ne_nil hgf, Words.getDegree_eq hn.ne_nil (hl rfl),
      Option.bind_eq_bind, Option.bind_some]
    rfl

end Similarity

end XGossip
