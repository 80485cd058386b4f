import XGossip.Index.Arithmetic
import XGossip.Index.SplitNodeV

open Polynomial

namespace XGossip
set_option autoImplicit true

open Gf2

section Returns

variable {f g q r : Sig}

theorem fitsInt_of_length (h : f.length ≤ 2) : FitsInt f := by
  cases f with
  | nil => decide
  | cons w ws =>
    have hlt := (Words.fullDegree_bounds (List.cons_ne_nil w ws)).2
    rw [FitsInt, INT_MAX]
    omega

theorem ne_nil_of_divInit (h : Words.divInit f g = some s) : f ≠ [] ∧ g ≠ [] := by
  constructor
  · rintro rfl
    cases h
  · rintro rfl
    obtain ⟨w, -, h⟩ := Option.bind_eq_some_iff.1 h
    cases h

theorem quotient_of_some (hf : f.length ≤ 2) (hg : g.length ≤ 2) (h : Words.quotient f g = some q) :
    fullDegree g ≤ fullDegree f ∧ q = quotient f g := by
  have hs := h
  rw [Words.quotient] at hs
  obtain ⟨s, hs, -⟩ := Option.bind_eq_some_iff.1 hs
  obtain ⟨hfn, hgn⟩ := ne_nil_of_divInit hs
  have hff := fitsInt_of_length hf
  have hgf := fitsInt_of_length hg
  rw [Words.quotient_cases hfn hgn, Words.divLoop_rounds hfn hgn hff hgf,
    Words.toInt_fullDegree hfn hff, Words.toInt_fullDegree hgn hgf] at h
  obtain ⟨hle, h⟩ := Option.ite_none_left_eq_some.1 h
  exact ⟨not_lt.1 fun hlt => hle (.inl hlt), (Option.some.inj h).symm⟩

theorem remainder_of_some (hf : f.length ≤ 2) (hg : g.length ≤ 2)
    (h : Words.remainder f g = some r) : r = remainder f g := by
  have hs := h
  rw [Words.remainder] at hs
  obtain ⟨s, hs, -⟩ := Option.bind_eq_some_iff.1 hs
  obtain ⟨hfn, hgn⟩ := ne_nil_of_divInit hs
  have hff := fitsInt_of_length hf
  have hgf := fitsInt_of_length hg
  rw [Words.remainder_cases hfn hgn, Words.divLoop_rounds hfn hgn hff hgf,
    Words.toInt_fullDegree hfn hff, Words.toInt_fullDegree hgn hgf] at h
  rw [remainder]
  split at h
  · next hlt =>
    rw [if_pos hlt]
    exact (Option.some.inj h).symm
  · next hle =>
    obtain ⟨-, h⟩ := Option.ite_none_right_eq_some.1 h
    rw [if_neg hle]
    exact (Option.some.inj h).symm

theorem length_eraseLeading_le (ws : Sig) : (eraseLeading ws).length ≤ ws.length := by
  fun_induction eraseLeading ws with
  | case1 => exact le_rfl
  | case2 w v ws _ ih => exact ih.trans (Nat.le_succ _)
  | case3 => exact le_rfl

theorem length_remainder_le (f g : Sig) : (remainder f g).length ≤ f.length := by
  rw [remainder]
  split
  · exact le_rfl
  · exact (length_eraseLeading_le _).trans (length_divide_r f g).le

theorem length_of_gcd (h : Words.Gcd f g res) (hf : f.length ≤ 2) (hg : g.length ≤ 2) :
    res.length ≤ 2 := by
  induction h with
  | done => exact hf
  | next _ hr _ ih =>
    obtain rfl := remainder_of_some hf hg hr
    exact ih hg ((length_remainder_le _ _).trans hf)

end Returns

section Quotient

variable {f g : Sig} {s : DivState}

theorem divLoop_q_normalized {n : Nat} (h : s.q = [0] ∨ Normalized s.q) :
    (divLoop gFullDegree n s).q = [0] ∨ Normalized (divLoop gFullDegree n s).q := by
  induction n generalizing s with
  | zero => exact h
  | succ n ih => exact ih (divStep_q_normalized h)

theorem quotient_zero_or_normalized (f g : Sig) : quotient f g = [0] ∨ Normalized (quotient f g) :=
  divLoop_q_normalized (.inl rfl)

theorem natDegree_quotient (hf : Normalized f) (h : fullDegree g ≤ fullDegree f) :
    ((poly (quotient f g)).natDegree : Int) = fullDegree f - fullDegree g := by
  obtain ⟨n, hn⟩ : ∃ n : Nat, (fullDegree f - fullDegree g + 1).toNat = n + 1 :=
    ⟨(fullDegree f - fullDegree g).toNat, by omega⟩
  rw [quotient, divide, hn, natDegree_divInit_q hf]
  omega

end Quotient

section Empty

variable {g : Sig} {s : DivState}

theorem divLoop_empty {gFullDegree : Int} {n : Nat} (hi : s.i = 0) (hr : s.r = 0 :: ws) (hq : s.q = [0])
    (h₀ : 0 ≤ gFullDegree) (hn : gFullDegree + n ≤ 32) :
    (divLoop gFullDegree n s).r = 0 :: ws ∧ (divLoop gFullDegree n s).q = [0] := by
  induction n generalizing s with
  | zero => exact ⟨hr, hq⟩
  | succ n ih =>
    have hnone : ¬ (s.r.getD s.i 0 &&& s.bitMask) > 0 := by
      rw [hi, hr, List.getD_cons_zero]
      simp
    have hr' : (divStep (gFullDegree + n) s).r = 0 :: ws := by
      simp only [divStep, if_neg hnone]
      exact hr
    have hq' : (divStep (gFullDegree + n) s).q = [0] := by
      simp only [divStep, if_neg hnone, hq, shiftLeft_zero_one]
    cases n with
    | zero => exact ⟨hr', hq'⟩
    | succ n =>
      refine ih ?_ hr' hq' (by omega)
      have hk : ¬ (gFullDegree + ((n + 1 : Nat) : Int)) % 32 = 0 := by omega
      simp only [divStep, if_neg hk, hi]

theorem fullDegree_empty (b : POLY) : fullDegree [0, b] = 31 := by
  have hzero : getDegreeWord 0 = -1 := by decide
  rw [fullDegree, List.headD_cons, hzero]
  rfl

theorem quotient_empty (h₀ : 0 ≤ fullDegree g) (h : fullDegree g ≤ 31) (b : POLY) :
    quotient [0, b] g = [0] := by
  rw [quotient, divide, fullDegree_empty]
  exact (divLoop_empty rfl rfl rfl h₀ (by omega)).2

theorem remainder_empty (h₀ : 0 ≤ fullDegree g) (h : fullDegree g ≤ 31) (b : POLY) :
    remainder [0, b] g = [b] := by
  rw [remainder, fullDegree_empty, if_neg (by omega), divide, fullDegree_empty,
    (divLoop_empty rfl rfl rfl h₀ (by omega)).1]
  simp [eraseLeading]

theorem remainder_empty_of_lt (h : 31 < fullDegree g) (b : POLY) :
    remainder [0, b] g = [0, b] := by
  rw [remainder, fullDegree_empty, if_pos h]

end Empty

section Skewed

variable {b x y : POLY} {s : DivState}

/-- What holds in front of the round for bit `m` of the first word, when two words are divided by
`[0, b]`: the bits of `b` are where they would be below a full word, or some words away from it. -/
structure Skewed (b : POLY) (m : Nat) (s : DivState) : Prop where
  index : s.i = 0
  mask : s.bitMask = 1#32 <<< m
  first : ∃ r₀ r₁, s.r = [r₀, r₁] ∧ r₀ ≠ 0
  bits : ∃ j : Nat, ∀ q, lead s.gtemp q = lead [b] (q - (m + 1) + 32 * j)

theorem Skewed.init (hx : Normalized [x, y]) (b : POLY) :
    ∃ m : Nat, m < 32 ∧ fullDegree [x, y] = 32 + m ∧ Skewed b m (divInit [x, y] [0, b]) := by
  obtain ⟨d, hd⟩ := exists_topBit hx
  have hdeg : getDegreeWord x = d := hd.getDegreeWord
  have hzero : getDegreeWord 0 = -1 := by decide
  refine ⟨d, hd.lt, hd.fullDegree, rfl, ?_, ⟨x, y, rfl, hx⟩, ?_⟩
  · simp only [divInit, List.headD_cons, hdeg, Int.toNat_natCast]
  · have hgtemp : (divInit [x, y] [0, b]).gtemp = shiftLeft [0, b] (d + 1) := by
      simp only [divInit, List.headD_cons, hdeg, hzero]
      rw [if_pos (by omega)]
      congr 1
    have hlen := List.length_pos_iff.2
      (Words.shiftLeft_ne_nil (List.cons_ne_nil (0 : POLY) [b]) (d + 1))
    refine ⟨(shiftLeft [0, b] (d + 1)).length - 1, fun q => ?_⟩
    have hbit := bit_shiftLeft (l := [0, b]) (k := d + 1) (Nat.succ_le_of_lt hd.lt)
      (q + 32 * ((shiftLeft [0, b] (d + 1)).length - 1))
    rw [bit_zero_cons, bit, bit] at hbit
    rw [hgtemp]
    refine (congrArg (lead _) ?_).trans (hbit.trans (congrArg (lead [b]) ?_))
    · omega
    · simp only [List.length_singleton]
      omega

/-- A bit that is found in the first word stays there, so that the word does not become empty. -/
theorem Skewed.first_step (h : Skewed b m s) (hm : m < 32) (htop : b.getLsbD 31 = false) (k : Int) :
    ∃ r₀ r₁, (divStep k s).r = [r₀, r₁] ∧ r₀ ≠ 0 := by
  obtain ⟨r₀, r₁, hr, hne⟩ := h.first
  obtain ⟨j, hbits⟩ := h.bits
  simp only [divStep]
  split
  · next hset =>
    have hbit : r₀.getLsbD m = true := by
      rw [h.index, hr, List.getD_cons_zero, h.mask, pos_iff_ne_zero, ← BitVec.twoPow_eq,
        BitVec.and_twoPow] at hset
      by_contra hnot
      rw [if_neg hnot] at hset
      exact hset rfl
    rw [h.index, hr]
    cases hg : s.gtemp with
    | nil => exact ⟨r₀, r₁, rfl, hne⟩
    | cons w ws =>
      have hw : w.getLsbD m = false := by
        have hm' := hbits m
        rw [hg, lead, if_neg (by omega), Int.toNat_natCast,
          show (m : Int) - (m + 1) + 32 * j = 32 * j - 1 by omega] at hm'
        rw [hm']
        cases j with
        | zero => rfl
        | succ j =>
          cases j with
          | zero => exact htop
          | succ j => exact lead_of_ge (by omega)
      have hxor : r₀ ^^^ w ≠ 0 := by
        intro hzero
        have hb := congrArg (fun v => BitVec.getLsbD v m) hzero
        simp [hbit, hw] at hb
      cases ws with
      | nil => exact ⟨r₀ ^^^ w, r₁, rfl, hxor⟩
      | cons v ws => exact ⟨r₀ ^^^ w, r₁ ^^^ v, by cases ws <;> rfl, hxor⟩
  · exact ⟨r₀, r₁, hr, hne⟩

theorem Skewed.step (h : Skewed b (m + 1) s) (hm : m + 1 < 32) (hb : b ≠ 0)
    (htop : b.getLsbD 31 = false) : Skewed b m (divStep (31 + (m + 1 + 1 : Nat)) s) := by
  have hk : ¬ (31 + ((m + 1 + 1 : Nat) : Int)) % 32 = 0 := by omega
  refine ⟨?_, ?_, h.first_step hm htop _, ?_⟩
  · simp only [divStep, if_neg hk, h.index]
  · simp only [divStep, if_neg hk, h.mask]
    exact mask_ushiftRight (by omega)
  · obtain ⟨j, hbits⟩ := h.bits
    by_cases hempty : ∀ q : Int, 0 ≤ q → lead s.gtemp (q + 1) = false
    · cases j with
      | zero =>
        obtain ⟨i, -, hi, -⟩ := exists_top hb
        have hfalse := hempty (i + m + 1) (by omega)
        rw [hbits, show (i : Int) + m + 1 + 1 - ((m + 1 : Nat) + 1) + 32 * (0 : Nat) = i by omega,
          lead, if_neg (by omega), Int.toNat_natCast, hi] at hfalse
        cases hfalse
      | succ j =>
        refine ⟨j, fun q => ?_⟩
        have hshift : lead (divStep (31 + (m + 1 + 1 : Nat)) s).gtemp q =
            lead s.gtemp (q + 1 - 32) :=
          lead_shiftRight_of_empty (k := 1) (by decide) (by decide) hempty q
        rw [hshift, hbits]
        congr 1
        push_cast
        omega
    · obtain ⟨q₀, hempty⟩ := not_forall.1 hempty
      obtain ⟨h₀, htrue⟩ := Classical.not_imp.1 hempty
      refine ⟨j, fun q => ?_⟩
      have hshift : lead (divStep (31 + (m + 1 + 1 : Nat)) s).gtemp q = lead s.gtemp (q + 1) :=
        lead_shiftRight_of_top (k := 1) (by decide) (by decide) h₀ (by simpa using htrue) q
      rw [hshift, hbits]
      congr 1
      push_cast
      omega

theorem Skewed.loop (h : Skewed b m s) (hm : m < 32) (hb : b ≠ 0) (htop : b.getLsbD 31 = false) :
    ∃ r₀ r₁, (divLoop 31 (m + 2) s).r = [r₀, r₁] ∧ r₀ ≠ 0 := by
  induction m generalizing s with
  | zero =>
    obtain ⟨r₀, r₁, hr, hne⟩ := h.first_step hm htop (31 + (1 : Nat))
    have hi : (divStep (31 + (1 : Nat)) s).i = 1 := by
      simp only [divStep, h.index]
      rfl
    have hlast : divLoop 31 (0 + 2) s = divStep (31 + (0 : Nat)) (divStep (31 + (1 : Nat)) s) := rfl
    rw [hlast]
    generalize divStep (31 + (1 : Nat)) s = s' at hr hi
    simp only [divStep, hi, hr]
    split
    · cases s'.gtemp with
      | nil => exact ⟨r₀, r₁, rfl, hne⟩
      | cons w ws => exact ⟨r₀, r₁ ^^^ w, by cases ws <;> rfl, hne⟩
    · exact ⟨r₀, r₁, rfl, hne⟩
  | succ m ih => exact ih (h.step hm hb htop) (by omega)

theorem remainder_skewed (hx : Normalized [x, y]) (hb : b ≠ 0) (htop : b.getLsbD 31 = false) :
    ∃ r₀ r₁, remainder [x, y] [0, b] = [r₀, r₁] ∧ r₀ ≠ 0 := by
  obtain ⟨m, hm, hdeg, hinit⟩ := Skewed.init hx b
  obtain ⟨r₀, r₁, hr, hne⟩ := hinit.loop hm hb htop
  refine ⟨r₀, r₁, ?_, hne⟩
  rw [remainder, fullDegree_empty, hdeg, if_neg (by omega), divide, fullDegree_empty, hdeg,
    show (32 + (m : Int) - 31 + 1).toNat = m + 2 by omega, hr, eraseLeading,
    if_pos ((pos_iff_ne_zero r₀).2 hne)]

end Skewed

section Gcd

variable {b w x y : POLY} {f g res : Sig}

theorem ne_zero_of_gcd (h : Words.Gcd f g res) (hf : f ≠ [0]) : res ≠ [0] := by
  induction h with
  | done => exact hf
  | next hg _ _ ih => exact ih hg

theorem fullDegree_nonneg_of_ne (h : f ≠ []) (h' : f ≠ [0]) : 0 ≤ fullDegree f := by
  match f, h, h' with
  | [w], _, h' =>
    have hw : Normalized [w] := by
      rintro rfl
      exact h' rfl
    exact fullDegree_nonneg hw
  | w :: v :: f, _, _ =>
    have hbound : -1 ≤ getDegreeWord w := (Words.getDegreeLoop_bounds w 32).1
    rw [fullDegree, List.headD_cons, List.length_cons, List.length_cons]
    push_cast
    omega

theorem gcdSpecial_calls (hf : f ≠ []) (hg : g ≠ []) (hf₂ : f.length ≤ 2) (hg₂ : g.length ≤ 2)
    (h : Words.gcdSpecial fuel f g = some res) :
    if fullDegree f ≥ fullDegree g then Words.Gcd f g res else Words.Gcd g f res := by
  simp only [Words.gcdSpecial, Words.getDegree_eq hf (fitsInt_of_length hf₂),
    Words.getDegree_eq hg (fitsInt_of_length hg₂), Option.bind_eq_bind, Option.bind_some] at h
  split at h
  · next hle =>
    rw [if_pos hle]
    exact Words.gcd_calls h
  · next hlt =>
    rw [if_neg hlt]
    exact Words.gcd_calls h

theorem remainder_two_words (h : fullDegree g ≤ fullDegree [x, y]) :
    (∃ r₀ r₁, remainder [x, y] g = [r₀, r₁] ∧ r₀ ≠ 0) ∨ ∃ r₁, remainder [x, y] g = [r₁] := by
  have hlen : (divide [x, y] g).r.length = 2 := length_divide_r _ g
  obtain ⟨r₀, r₁, hr⟩ := List.length_eq_two.1 hlen
  rw [remainder, if_neg (not_lt.2 h), hr, eraseLeading]
  split
  · next hpos => exact .inl ⟨r₀, r₁, rfl, (pos_iff_ne_zero r₀).1 hpos⟩
  · exact .inr ⟨r₁, rfl⟩

theorem fullDegree_singleton (b : POLY) : fullDegree [b] = getDegreeWord b := by
  simp [fullDegree]

theorem fullDegree_gcd_word (hb : b ≠ 0) (hw : w ≠ 0) (h : Words.Gcd [0, b] [w] res) :
    fullDegree res ≤ getDegreeWord b := by
  have hnb : Normalized [b] := hb
  have hnw : Normalized [w] := hw
  cases h with
  | done => exact absurd rfl hw
  | next _ hr hgcd =>
    have hdeg := Words.getDegreeLoop_bounds w 32
    have hle : fullDegree [w] ≤ 31 := by
      rw [fullDegree_singleton, getDegreeWord]
      omega
    obtain rfl := remainder_of_some (by simp) (by simp) hr
    rw [remainder_empty (fullDegree_nonneg hnw) hle] at hgcd
    obtain rfl := hgcd.returns.unique (Words.gcd_returns hnw hnb (fitsInt_of_length (by simp))
      (fitsInt_of_length (by simp)))
    obtain ⟨hn, hpoly⟩ := gcd_spec hnw hnb
    rw [← fullDegree_singleton]
    apply fullDegree_le_of_dvd hn hnb
    rw [hpoly]
    exact EuclideanDomain.gcd_dvd_left _ _

theorem fullDegree_two_words (hx : x ≠ 0) (y : POLY) : 32 ≤ fullDegree [x, y] := by
  obtain ⟨d, hd⟩ := exists_topBit (show Normalized [x, y] from hx)
  have hdeg : fullDegree [x, y] = 32 + d := hd.fullDegree
  omega

/-- The calls of `gcd` for two words and a word behind an empty one, in either order. -/
theorem fullDegree_gcd_skewed (hb : b ≠ 0) (h : Words.Gcd f g res)
    (hfg : (∃ x y, x ≠ 0 ∧ f = [x, y]) ∧ g = [0, b] ∨ f = [0, b] ∧ ∃ x y, x ≠ 0 ∧ g = [x, y]) :
    fullDegree res ≤ getDegreeWord b := by
  induction h with
  | done =>
    rcases hfg with ⟨-, hg⟩ | ⟨-, x, y, -, hg⟩
    · cases hg
    · cases hg
  | @next g f r res _ hr hgcd ih =>
    rcases hfg with ⟨⟨x, y, hx, rfl⟩, rfl⟩ | ⟨rfl, x, y, hx, rfl⟩
    · obtain rfl := remainder_of_some (by simp) (by simp) hr
      have hle : fullDegree [0, b] ≤ fullDegree [x, y] := by
        have htwo := fullDegree_two_words hx y
        rw [fullDegree_empty]
        omega
      rcases remainder_two_words hle with ⟨r₀, r₁, heq, hne⟩ | ⟨r₁, heq⟩
      · exact ih (.inr ⟨rfl, r₀, r₁, hne, heq⟩)
      · rw [heq] at hgcd
        by_cases hr₁ : r₁ = 0
        · subst hr₁
          have hbit : b.getLsbD 31 = true := by
            by_contra hnot
            obtain ⟨s₀, s₁, hs, -⟩ := remainder_skewed (y := y) (show Normalized [x, y] from hx) hb
              (by simpa using hnot)
            rw [heq] at hs
            cases hs
          have hdeg : getDegreeWord b = 31 :=
            getDegreeWord_eq hbit fun i hi => BitVec.getLsbD_of_ge b i (Nat.succ_le_of_lt hi)
          cases hgcd with
          | done => rw [fullDegree_empty, hdeg]
          | next hne => exact absurd rfl hne
        · exact fullDegree_gcd_word hb hr₁ hgcd
    · obtain rfl := remainder_of_some (by simp) (by simp) hr
      rw [remainder_empty_of_lt (by have := fullDegree_two_words hx y; omega)] at ih
      exact ih (.inl ⟨⟨x, y, hx, rfl⟩, rfl⟩)

/-- The calls of `gcd` for two words that both are behind empty ones. -/
theorem fullDegree_gcd_empty {d : POLY} (h : Words.Gcd [0, b] [0, d] res) : fullDegree res ≤ 31 := by
  have hword : ∀ w : POLY, getDegreeWord w ≤ 31 := by
    intro w
    have hbound := (Words.getDegreeLoop_bounds w 32).2
    rw [getDegreeWord]
    omega
  cases h with
  | next _ hr hgcd =>
    obtain rfl := remainder_of_some (by simp) (by simp) hr
    rw [remainder_empty (by rw [fullDegree_empty]; decide) (by rw [fullDegree_empty])] at hgcd
    by_cases hb : b = 0
    · subst hb
      cases hgcd with
      | done => rw [fullDegree_empty]
      | next hne => exact absurd rfl hne
    · by_cases hd : d = 0
      · subst hd
        have hle : fullDegree [b] ≤ 31 := by
          rw [fullDegree_singleton]
          exact hword b
        cases hgcd with
        | done => exact absurd rfl hb
        | next _ hr hgcd =>
          obtain rfl := remainder_of_some (by simp) (by simp) hr
          rw [remainder_empty (fullDegree_nonneg (show Normalized [b] from hb)) hle] at hgcd
          cases hgcd with
          | done => exact hle
          | next hne => exact absurd rfl hne
      · exact (fullDegree_gcd_word hd hb hgcd).trans (hword d)

end Gcd

section Lcm

variable {t s res : Sig} {a b c d : POLY}

def IsRange (s : Sig) : Prop := s.length = 2 ∧ lowOf s ≤ highOf s

instance : DecidablePred IsRange := fun _ => inferInstanceAs (Decidable (_ ∧ _))

theorem IsRange.cases (h : IsRange s) : ∃ lo hi : POLY, s = [lo, hi] ∧ lo.toNat ≤ hi.toNat := by
  obtain ⟨hlen, hle⟩ := h
  obtain ⟨lo, hi, rfl⟩ := List.length_eq_two.1 hlen
  exact ⟨lo, hi, rfl, hle⟩

theorem multiplyPoly_zero (a b : POLY) : multiplyPoly [a, b] [0] = [0, 0] := by
  have hword : ∀ y p : BitVec 64, multiplyWordLoop 32 0#32 y p = p := fun y p => rfl
  simp [multiplyPoly, multiplyPolyLoop, addPoly_nil, multiplyPolyWord, multiplyLoop, hword]

def Covers (res t s : Sig) : Prop := IsRange res ∧ Within t res ∧ Within s res

instance : Decidable (Covers res t s) := inferInstanceAs (Decidable (_ ∧ _ ∧ _))

theorem getDegreeWord_le {x y : POLY} (hx : x ≠ 0) (hy : y ≠ 0) (h : x.toNat ≤ y.toNat) :
    getDegreeWord x ≤ getDegreeWord y := by
  obtain ⟨i, -, hi, hi'⟩ := exists_top hx
  obtain ⟨j, -, hj, hj'⟩ := exists_top hy
  rw [getDegreeWord_eq hi hi', getDegreeWord_eq hj hj']
  have hlow : 2 ^ i ≤ x.toNat := Nat.ge_two_pow_of_testBit (by rw [BitVec.testBit_toNat, hi])
  have hhigh : y.toNat < 2 ^ (j + 1) := by
    apply Nat.lt_pow_two_of_testBit
    intro k hk
    rw [BitVec.testBit_toNat, hj' k hk]
  have hlt : i < j + 1 := (Nat.pow_lt_pow_iff_right Nat.one_lt_two).1 (by omega)
  exact_mod_cast Nat.le_of_lt_succ hlt

theorem eq_of_dvd_two_words (ha : a ≠ 0) (hc : c ≠ 0) (hdvd : poly [a, b] ∣ poly [c, d])
    (hle : c.toNat ≤ a.toNat) : [a, b] = [c, d] := by
  have hab : Normalized [a, b] := ha
  have hcd : Normalized [c, d] := hc
  have hdeg : fullDegree [c, d] ≤ fullDegree [a, b] := by
    have hword := getDegreeWord_le hc ha hle
    simp only [fullDegree, List.headD_cons, List.length_cons, List.length_nil]
    omega
  apply hab.eq_of_poly hcd
  apply eq_of_dvd_of_natDegree_le_of_leadingCoeff hdvd
  · exact natDegree_le_natDegree ((fullDegree_le_iff hcd hab).1 hdeg)
  · rw [(monic_of_ne_zero hab.poly_ne_zero).leadingCoeff,
      (monic_of_ne_zero hcd.poly_ne_zero).leadingCoeff]

theorem eq_of_covers (ha : a ≠ 0) (hc : c ≠ 0) (hcov : Covers (lcm [a, b] [c, d]) [a, b] [c, d]) :
    [a, b] = [c, d] := by
  obtain ⟨hn, hta, hsc, -⟩ := lcm_spec (show Normalized [a, b] from ha)
    (show Normalized [c, d] from hc)
  obtain ⟨hrange, hwt, hws⟩ := hcov
  obtain ⟨lo, hi, heq, -⟩ := hrange.cases
  rw [heq] at hn hta hsc hwt hws
  have h₁ := eq_of_dvd_two_words ha hn hta hwt.1
  have h₂ := eq_of_dvd_two_words hc hn hsc hws.1
  exact h₁.trans h₂.symm

/-- What the calls of `lcm` for two intervals do. -/
theorem lcm_result (h : Words.Lcm [a, b] [c, d] res) : ∃ fuel g,
    Words.gcdSpecial fuel [a, b] [c, d] = some g ∧ g ≠ [] ∧
      (fullDegree g ≤ fullDegree [c, d] ∧ res = multiplyPoly [a, b] (quotient [c, d] g) ∨
        fullDegree [c, d] < fullDegree g ∧ res = multiplyPoly [a, b] (quotient g [c, d])) := by
  obtain ⟨fuel, h⟩ := h.exists
  rw [Words.lcm, if_neg (by simp)] at h
  obtain ⟨g, hg, h⟩ := Option.bind_eq_some_iff.1 h
  have hlen : g.length ≤ 2 := by
    have hcalls := gcdSpecial_calls (by simp) (by simp) (by simp) (by simp) hg
    split at hcalls
    · exact length_of_gcd hcalls (by simp) (by simp)
    · exact length_of_gcd hcalls (by simp) (by simp)
  rw [Words.lcmSpecial, if_neg (by simp)] at h
  have hne : g ≠ [] := by
    rintro rfl
    obtain ⟨degs, -, h⟩ := Option.bind_eq_some_iff.1 h
    cases h
  simp only [Words.getDegree_eq (List.cons_ne_nil c [d]) (fitsInt_of_length (by simp)),
    Words.getDegree_eq hne (fitsInt_of_length hlen), Words.multiplyPoly_eq, Option.bind_eq_bind,
    Option.bind_some] at h
  refine ⟨fuel, g, hg, hne, ?_⟩
  split at h
  · next hle =>
    obtain ⟨q, hq, h⟩ := Option.bind_eq_some_iff.1 h
    obtain ⟨-, rfl⟩ := quotient_of_some (by simp) hlen hq
    exact .inl ⟨hle, (Option.some.inj h).symm⟩
  · next hlt =>
    obtain ⟨q, hq, h⟩ := Option.bind_eq_some_iff.1 h
    obtain ⟨-, rfl⟩ := quotient_of_some hlen (by simp) hq
    exact .inr ⟨not_le.1 hlt, (Option.some.inj h).symm⟩

theorem toNat_pos_of_ne {x : POLY} (h : x ≠ 0) : 0 < x.toNat := by
  apply Nat.pos_of_ne_zero
  intro hzero
  exact h (BitVec.eq_of_toNat_eq hzero)

theorem not_covers_new (ha : a ≠ 0) (hab : a.toNat ≤ b.toNat)
    (h : Words.Lcm [a, b] [0, d] res) : ¬ Covers res [a, b] [0, d] := by
  rintro ⟨-, hwt, hws⟩
  have hq : ∃ q, (q = [0] ∨ Normalized q) ∧ res = multiplyPoly [a, b] q := by
    obtain ⟨-, g, -, -, ⟨-, hres⟩ | ⟨-, hres⟩⟩ := lcm_result h
    · exact ⟨_, quotient_zero_or_normalized _ _, hres⟩
    · exact ⟨_, quotient_zero_or_normalized _ _, hres⟩
  obtain ⟨q, rfl | hq, rfl⟩ := hq
  · rw [multiplyPoly_zero] at hwt
    have hhigh : b.toNat ≤ 0 := hwt.2
    have hpos := toNat_pos_of_ne ha
    omega
  · have hn := (multiplyPoly_spec (show Normalized [a, b] from ha) hq).1
    have hlow : lowOf (multiplyPoly [a, b] q) ≤ 0 := hws.1
    apply hn
    obtain ⟨w, ws, hw⟩ := List.exists_cons_of_ne_nil hn.ne_nil
    rw [hw] at hlow ⊢
    exact BitVec.eq_of_toNat_eq (Nat.le_zero.1 hlow)

theorem poly_empty_cons (b : POLY) : poly [0, b] = poly [b] := poly_ext_bit fun p _ => bit_zero_cons [b] p

theorem natDegree_word {b : POLY} (hb : b ≠ 0) :
    ((poly [b]).natDegree : Int) = getDegreeWord b ∧ getDegreeWord b ≤ 31 := by
  obtain ⟨n, hn, hdeg⟩ := degree_eq_fullDegree (show Normalized [b] from hb)
  have hbound := (Words.getDegreeLoop_bounds b 32).2
  rw [fullDegree_singleton] at hn
  rw [natDegree_eq_of_degree_eq_some hdeg, hn]
  rw [getDegreeWord] at hn
  exact ⟨rfl, by omega⟩

/-- The product with an interval that begins at 0 is too long, so that it does not begin at 0. -/
theorem not_covers_old (hc : c ≠ 0) (hcd : c.toNat ≤ d.toNat)
    (h : Words.Lcm [0, b] [c, d] res) : ¬ Covers res [0, b] [c, d] := by
  rintro ⟨hrange, hwt, hws⟩
  obtain ⟨lo, hi, rfl, -⟩ := hrange.cases
  obtain rfl : lo = 0 := BitVec.eq_of_toNat_eq (Nat.le_zero.1 hwt.1)
  have hhi : hi ≠ 0 := by
    rintro rfl
    have hhigh : d.toNat ≤ 0 := hws.2
    have hpos := toNat_pos_of_ne hc
    omega
  have hs : Normalized [c, d] := hc
  have htwo := fullDegree_two_words hc d
  obtain ⟨fuel, g, hgcd, -, hres⟩ := lcm_result h
  have hnz : poly [0, hi] ≠ 0 := by
    rw [poly_empty_cons]
    exact Normalized.poly_ne_zero (show Normalized [hi] from hhi)
  have hb : b ≠ 0 := by
    rintro rfl
    have hzero : poly [(0 : POLY), 0] = 0 := by rw [poly_empty_cons, poly_zero_word]
    rcases hres with ⟨-, hres⟩ | ⟨-, hres⟩
    · rw [hres, poly_multiplyPoly, hzero, zero_mul] at hnz
      exact hnz rfl
    · rw [hres, poly_multiplyPoly, hzero, zero_mul] at hnz
      exact hnz rfl
  have hdeg : fullDegree g ≤ getDegreeWord b := by
    have hcalls := gcdSpecial_calls (by simp) (by simp) (by simp) (by simp) hgcd
    rw [fullDegree_empty, if_neg (by omega)] at hcalls
    exact fullDegree_gcd_skewed hb hcalls (.inl ⟨⟨c, d, hc, rfl⟩, rfl⟩)
  have hword := natDegree_word hb
  rcases hres with ⟨hle, hres⟩ | ⟨hlt, -⟩
  · have hq := natDegree_quotient hs hle
    have hprod : poly [0, hi] = poly [b] * poly (quotient [c, d] g) := by
      rw [hres, poly_multiplyPoly, poly_empty_cons]
    have hne := hprod ▸ hnz
    have hsum := congrArg natDegree hprod
    rw [natDegree_mul (left_ne_zero_of_mul hne) (right_ne_zero_of_mul hne), poly_empty_cons] at hsum
    have hhigh := natDegree_word hhi
    omega
  · omega

theorem covers_empty (h : Words.Lcm [0, b] [0, d] res) (hcov : Covers res [0, b] [0, d]) :
    b = 0 ∧ d = 0 := by
  obtain ⟨-, hwt, hws⟩ := hcov
  obtain ⟨fuel, g, hgcd, hne, hres⟩ := lcm_result h
  have hcalls := gcdSpecial_calls (by simp) (by simp) (by simp) (by simp) hgcd
  rw [fullDegree_empty, fullDegree_empty, if_pos (le_refl _)] at hcalls
  have hdeg := fullDegree_gcd_empty hcalls
  have hpos := fullDegree_nonneg_of_ne hne (ne_zero_of_gcd hcalls (by simp))
  rcases hres with ⟨-, rfl⟩ | ⟨hlt, -⟩
  · rw [quotient_empty hpos hdeg, multiplyPoly_zero] at hwt hws
    exact ⟨BitVec.eq_of_toNat_eq (Nat.le_zero.1 hwt.2), BitVec.eq_of_toNat_eq (Nat.le_zero.1 hws.2)⟩
  · rw [fullDegree_empty] at hlt
    omega

theorem lcm_zero_zero : Words.Lcm [0, 0] [0, 0] [0, 0] := by
  have hcalls : Words.Gcd [0, 0] [0, 0] [0, 0] :=
    .next (by decide) (by decide : Words.remainder [0, 0] [0, 0] = some [0]) .done
  obtain ⟨n, hgcd⟩ := hcalls.returns
  refine ⟨n, fun fuel hfuel => ?_⟩
  have hspecial : Words.gcdSpecial fuel [0, 0] [0, 0] = some [0, 0] := hgcd fuel hfuel
  show Words.lcm fuel [0, 0] [0, 0] = _
  rw [Words.lcm, if_neg (by decide), hspecial]
  decide

theorem eq_of_lcm_covers (ht : IsRange t) (hs : IsRange s) (hlcm : Words.Lcm t s res)
    (hcov : Covers res t s) : t = s ∧ (lowOf t ≠ 0 ∨ highOf t = 0) := by
  obtain ⟨a, b, rfl, hab⟩ := ht.cases
  obtain ⟨c, d, rfl, hcd⟩ := hs.cases
  by_cases ha : a = 0
  · subst ha
    by_cases hc : c = 0
    · subst hc
      obtain ⟨rfl, rfl⟩ := covers_empty hlcm hcov
      exact ⟨rfl, .inr rfl⟩
    · exact absurd hcov (not_covers_old hc hcd hlcm)
  · by_cases hc : c = 0
    · subst hc
      exact absurd hcov (not_covers_new ha hab hlcm)
    · obtain rfl := hlcm.unique (Words.lcm_returns (show Normalized [a, b] from ha)
        (show Normalized [c, d] from hc) (fitsInt_of_length (by simp)) (fitsInt_of_length (by simp)))
      exact ⟨eq_of_covers ha hc hcov, .inl (Nat.ne_of_gt (toNat_pos_of_ne ha))⟩

theorem lcm_same (ht : IsRange t) (hlow : lowOf t ≠ 0 ∨ highOf t = 0) :
    lcm t t = t ∧ Words.Lcm t t t := by
  obtain ⟨a, b, rfl, -⟩ := ht.cases
  by_cases ha : a = 0
  · subst ha
    obtain rfl : b = 0 := BitVec.eq_of_toNat_eq (hlow.resolve_left fun hne => hne rfl)
    exact ⟨by decide, lcm_zero_zero⟩
  · have hn : Normalized [a, b] := ha
    have hfit : FitsInt [a, b] := fitsInt_of_length (by simp)
    have hlcm := Words.lcm_returns hn hn hfit hfit
    rw [lcm_self hn] at hlcm
    exact ⟨lcm_self hn, hlcm⟩

end Lcm

end XGossip
