import XGossip.Index.Poly
import Mathlib.Tactic.LinearCombination

open Polynomial

namespace XGossip
set_option autoImplicit true

open Gf2

theorem twoPow_ne_zero (h : n < 32) : BitVec.twoPow 32 n ≠ 0#32 := by
  intro h0
  have hb := congrArg (fun v => v.getLsbD n) h0
  simp [h] at hb

theorem getDegreeLoop_eq (hd : z.getLsbD d = true) (htop : ∀ i, d < i → z.getLsbD i = false)
    (h : d < n) : getDegreeLoop z n = d := by
  induction n with
  | zero => omega
  | succ n ih =>
    have hbit : (1#32 <<< n) &&& z ≠ 0 ↔ z.getLsbD n = true := by
      rw [← BitVec.twoPow_eq, BitVec.and_comm, BitVec.and_twoPow]
      split
      · next hn => simpa [hn] using twoPow_ne_zero (BitVec.lt_of_getLsbD hn)
      · next hn => simp [hn]
    rw [getDegreeLoop, if_congr hbit rfl rfl]
    by_cases hn : d = n
    · rw [if_pos (hn ▸ hd), hn]
    · rw [if_neg (by simp [htop n (by omega)]), ih (by omega)]

theorem getDegreeWord_eq {d : Nat} (hd : z.getLsbD d = true)
    (htop : ∀ i, d < i → z.getLsbD i = false) : getDegreeWord z = d :=
  getDegreeLoop_eq hd htop (BitVec.lt_of_getLsbD hd)

/-- The facts about a normalized signature that division uses. -/
structure TopBit (ws : Sig) (d : Nat) : Prop where
  lt : d < 32
  ne_nil : ws ≠ []
  getDegreeWord : getDegreeWord (ws.headD 0) = d
  fullDegree : fullDegree ws = 32 * (ws.length - 1) + d
  top : lead ws d = true
  above : ∀ q : Int, d < q → lead ws q = false

theorem exists_topBit (h : Normalized ws) : ∃ d, TopBit ws d := by
  cases ws with
  | nil => exact (h rfl).elim
  | cons w ws =>
    obtain ⟨d, hlt, hd, htop⟩ := exists_top (show w ≠ 0 from h)
    have hdeg := getDegreeWord_eq hd htop
    refine ⟨d, hlt, by simp, hdeg, ?_, ?_, ?_⟩
    · rw [XGossip.fullDegree, List.headD_cons, hdeg]
      omega
    · rw [lead, if_neg (by omega)]
      simpa using hd
    · intro q hq
      rw [lead, if_neg (by omega)]
      exact htop _ (by omega)

theorem degree_eq_fullDegree (h : Normalized ws) :
    ∃ n : Nat, fullDegree ws = n ∧ (poly ws).degree = n := by
  cases ws with
  | nil => exact (h rfl).elim
  | cons w ws =>
    obtain ⟨d, hlt, hd, htop⟩ := exists_top (show w ≠ 0 from h)
    refine ⟨32 * ws.length + d, ?_, degree_poly hd htop⟩
    rw [fullDegree, List.headD_cons, getDegreeWord_eq hd htop, List.length_cons]
    push_cast
    ring

theorem fullDegree_le_iff (ha : Normalized a) (hb : Normalized b) :
    fullDegree a ≤ fullDegree b ↔ (poly a).degree ≤ (poly b).degree := by
  obtain ⟨m, hm, hm'⟩ := degree_eq_fullDegree ha
  obtain ⟨n, hn, hn'⟩ := degree_eq_fullDegree hb
  rw [hm, hm', hn, hn']
  norm_cast

section Shifts

variable {k : Nat} {l ws : Sig}

theorem getLsbD_highMask (w : POLY) (hk : k ≤ 32) (i : Nat) :
    ((w &&& (ONEFLAG <<< (32 - k))) >>> (32 - k)).getLsbD i =
      (decide (i < k) && w.getLsbD (32 - k + i)) := by
  have hone : ONEFLAG = BitVec.allOnes 32 := by decide
  simp only [hone, BitVec.getLsbD_ushiftRight, BitVec.getLsbD_and, BitVec.getLsbD_shiftLeft,
    BitVec.getLsbD_allOnes]
  by_cases h : i < k
  · have h₁ : 32 - k + i < 32 := by omega
    have h₂ : i < 32 := by omega
    simp [h, h₁, h₂]
  · have h₁ : ¬ 32 - k + i < 32 := by omega
    simp [h, h₁]

theorem getLsbD_lowMask (w : POLY) (hk : k ≤ 32) (i : Nat) :
    ((w &&& (ONEFLAG >>> (32 - k))) <<< (32 - k)).getLsbD i =
      (decide (32 - k ≤ i ∧ i < 32) && w.getLsbD (i - (32 - k))) := by
  have hone : ONEFLAG = BitVec.allOnes 32 := by decide
  simp only [hone, BitVec.getLsbD_ushiftRight, BitVec.getLsbD_and, BitVec.getLsbD_shiftLeft,
    BitVec.getLsbD_allOnes]
  by_cases h : 32 - k ≤ i ∧ i < 32
  · have h₂ : ¬ i < 32 - k := by omega
    simp [h.1, h.2, h₂]
  · by_cases h₁ : i < 32
    · have h₂ : i < 32 - k := by omega
      have h₃ : ¬ 32 - k ≤ i := by omega
      simp [h₂, h₃]
    · simp [h₁]

/-- The carry out of a shift to the left, as one more word in front. -/
theorem bit_shiftLeftLoop (hk : k < 32) (p : Int) :
    bit ((shiftLeftLoop k l).2 :: (shiftLeftLoop k l).1) p = bit l (p - k) ∧
      (shiftLeftLoop k l).1.length = l.length := by
  induction l generalizing p with
  | nil => simp [shiftLeftLoop, bit, lead]
  | cons w l ih =>
    obtain ⟨-, hlen⟩ := ih p
    simp only [shiftLeftLoop, List.length_cons, hlen, and_true]
    have ih' := fun p => (ih p).1
    simp only [bit_cons, List.length_cons, hlen] at ih' ⊢
    by_cases h₁ : p < 32 * l.length
    · rw [if_pos (by omega), if_pos h₁, if_pos (by omega)]
      have := ih' p
      rwa [if_pos h₁] at this
    · have hprev := ih' p
      rw [if_neg h₁] at hprev
      by_cases h₂ : p < 32 * ((l.length + 1 : Nat) : Int)
      · rw [if_pos h₂, if_neg h₁, BitVec.getLsbD_or, hprev, BitVec.getLsbD_shiftLeft]
        by_cases h₃ : p - k < 32 * l.length
        · have h₄ : (p - 32 * l.length).toNat < k := by omega
          rw [if_pos h₃]
          simp [h₄]
        · have h₄ : ¬ (p - 32 * l.length).toNat < k := by omega
          have h₅ : (p - 32 * l.length).toNat < 32 := by omega
          have h₆ : (p - 32 * l.length).toNat - k = (p - k - 32 * l.length).toNat := by omega
          rw [if_neg h₃, bit_of_ge (by omega)]
          simp [h₄, h₅, h₆]
      · rw [if_neg h₂, if_neg (by omega), getLsbD_highMask w (by omega)]
        by_cases h₃ : (p - 32 * ((l.length + 1 : Nat) : Int)).toNat < k
        · simp only [h₃, decide_true, Bool.true_and]
          congr 1
          omega
        · simp only [h₃, decide_false, Bool.false_and]
          rw [BitVec.getLsbD_of_ge _ _ (by omega)]

theorem bit_zero_cons (ws : Sig) (p : Int) : bit (0 :: ws) p = bit ws p := by
  rw [bit_cons]
  split
  · rfl
  · rw [bit_of_ge (by omega)]
    simp

theorem pos_iff_ne_zero (w : BitVec n) : w > 0 ↔ w ≠ 0 := BitVec.pos_iff_ne_zero w

theorem lead_concat_zero (ws : Sig) (q : Int) : lead (ws ++ [0]) q = lead ws q := by
  induction ws generalizing q with
  | nil => simp [lead]
  | cons w ws ih => simp only [List.cons_append, lead, ih]

theorem bit_shiftLeft (hk : k ≤ 32) (p : Int) : bit (shiftLeft l k) p = bit l (p - k) := by
  rw [shiftLeft]
  split
  · next h => simp [h]
  · split
    · next h =>
      rw [h, bit, bit, lead_concat_zero, List.length_append]
      congr 1
      simp only [List.length_cons, List.length_nil]
      omega
    · next h₁ h₂ =>
      have hb := (bit_shiftLeftLoop (l := l) (k := k) (by omega) p).1
      simp only [pos_iff_ne_zero]
      split
      · exact hb
      · next h => 
        have h' : (shiftLeftLoop k l).2 = 0 := by simpa using h
        rwa [h', bit_zero_cons] at hb

/-- A shift to the right behind the word `v`, whose low bits are carried in. -/
theorem lead_shiftRightLoop (hk : 0 < k) (hk' : k < 32) (v : POLY) (ws : Sig) (q : Int)
    (hq : q < 32) :
    lead (shiftRightLoop k ((v &&& (ONEFLAG >>> (32 - k))) <<< (32 - k)) ws) q =
      lead (v :: ws) (q + k - 32) := by
  induction ws generalizing v q with
  | nil =>
    have hlead : lead [(v &&& (ONEFLAG >>> (32 - k))) <<< (32 - k)] q = lead [v] (q + k - 32) := by
      by_cases h : q < 0
      · simp only [lead, if_pos h, if_pos (show q + k - 32 < 0 by omega)]
      · rw [lead, if_neg h, getLsbD_lowMask v (by omega), lead]
        by_cases h₁ : q + k - 32 < 0
        · have h₂ : ¬ 32 - k ≤ q.toNat := by omega
          simp [h₁, h₂, lead]
        · have h₂ : 32 - k ≤ q.toNat ∧ q.toNat < 32 := by omega
          have h₃ : q.toNat - (32 - k) = (q + k - 32).toNat := by omega
          simp [h₁, h₂, h₃]
    rw [shiftRightLoop]
    split
    · exact hlead
    · next h =>
      rw [pos_iff_ne_zero, not_not] at h
      rw [h] at hlead
      rw [← hlead]
      simp [lead]
  | cons w ws ih =>
    rw [shiftRightLoop, lead]
    by_cases h : q < 0
    · rw [if_pos h, ih w (q + 32) (by omega), lead.eq_def (v :: w :: ws)]
      simp only [if_pos (show q + k - 32 < 0 by omega)]
      congr 1
      omega
    · rw [if_neg h, BitVec.getLsbD_or, BitVec.getLsbD_ushiftRight, getLsbD_lowMask v (by omega),
        lead]
      by_cases h₁ : q + k - 32 < 0
      · have h₂ : ¬ 32 - k ≤ q.toNat := by omega
        have h₃ : ¬ q + k < 0 := by omega
        have h₄ : (q + k).toNat = k + q.toNat := by omega
        simp [lead, h₁, h₂, h₃, h₄]
      · have h₂ : 32 - k ≤ q.toNat ∧ q.toNat < 32 := by omega
        have h₃ : q.toNat - (32 - k) = (q + k - 32).toNat := by omega
        rw [BitVec.getLsbD_of_ge w _ (by omega)]
        simp [h₁, h₂, h₃]

theorem lead_shiftRightLoop_zero (hk : 0 < k) (hk' : k < 32) (ws : Sig) (q : Int) :
    lead (shiftRightLoop k 0 ws) q = lead ws (q + k) := by
  by_cases hq : q < 32
  · have h := lead_shiftRightLoop hk hk' 0 ws q hq
    have hz : ((0 : POLY) &&& (ONEFLAG >>> (32 - k))) <<< (32 - k) = 0 := by simp
    rw [hz, lead.eq_def (0 :: ws)] at h
    simp only at h
    rw [h]
    split
    · congr 1
      omega
    · rw [lead_of_ge (by omega)]
      simp
  · rw [lead_of_ge (by omega), lead_of_ge (by omega)]

theorem lead_shiftRight_of_top (hk : 0 < k) (hk' : k < 32) (h₀ : 0 ≤ m)
    (hm : lead ws (m + k) = true) (q : Int) : lead (shiftRight ws k) q = lead ws (q + k) := by
  have h := lead_shiftRightLoop_zero hk hk' ws
  rw [shiftRight, if_neg (by omega)]
  split
  · next he => rw [← h, he]
  · next w l he =>
    rw [if_neg, ← he, h]
    intro hw
    have hb := h m
    rw [he, hw, hm, lead, if_neg (by omega)] at hb
    simp at hb

theorem lead_shiftRight_of_empty (hk : 0 < k) (hk' : k < 32)
    (hempty : ∀ q : Int, 0 ≤ q → lead ws (q + k) = false) (q : Int) :
    lead (shiftRight ws k) q = lead ws (q + k - 32) := by
  have h := lead_shiftRightLoop_zero hk hk' ws
  have hq : q + k - 32 = q - 32 + k := by omega
  rw [shiftRight, if_neg (by omega)]
  split
  · next he => rw [hq, ← h, he, lead, lead]
  · next w l he =>
    have hw : w = 0 := by
      apply BitVec.eq_of_getLsbD_eq
      intro i _
      have hb := h i
      rw [he, hempty i (by omega), lead, if_neg (by omega)] at hb
      simpa using hb
    rw [if_pos hw, hq, ← h, he, hw, lead]
    split
    · congr 1
      omega
    · rw [lead_of_ge (by omega)]
      simp

end Shifts

section Division

theorem lead_xorWords (r g : Sig) (q : Int) (h : -32 * ((r.length : Int) - 1) ≤ q) (hr : r ≠ []) :
    lead (xorWords r g) q = (lead r q ^^ lead g q) := by
  induction r generalizing g q with
  | nil => exact (hr rfl).elim
  | cons w r ih =>
    cases g with
    | nil => simp [xorWords, lead]
    | cons v g =>
      rw [xorWords, lead, lead, lead]
      split
      · rw [List.length_cons] at h
        by_cases hr' : r = []
        · rw [hr', List.length_nil] at h
          omega
        · exact ih g _ (by omega) hr'
      · exact BitVec.getLsbD_xor

theorem length_xorWords (r g : Sig) : (xorWords r g).length = r.length := by
  induction r generalizing g with
  | nil => cases g <;> rfl
  | cons w r ih =>
    cases g with
    | nil => rfl
    | cons v g => simp [xorWords, ih]

theorem lead_drop (ws : Sig) (i : Nat) (q : Int) (h : q < 32) :
    lead (ws.drop i) q = lead ws (q - 32 * i) := by
  induction i generalizing ws with
  | zero => simp
  | succ i ih =>
    cases ws with
    | nil => simp [lead]
    | cons w ws =>
      rw [List.drop_succ_cons, ih, lead.eq_def (w :: ws)]
      simp only [if_pos (show q - 32 * ((i + 1 : Nat) : Int) < 0 by omega)]
      congr 1
      omega

theorem lead_take_append (ws l : Sig) (i : Nat) (q : Int) (hi : i ≤ ws.length) :
    lead (ws.take i ++ l) q = if q < 32 - 32 * i then lead l (q + 32 * i) else lead ws q := by
  induction i generalizing ws q with
  | zero =>
    simp only [List.take_zero, List.nil_append]
    split
    · congr 1
      omega
    · rw [lead_of_ge (by omega), lead_of_ge (by omega)]
  | succ i ih =>
    cases ws with
    | nil => simp at hi
    | cons w ws =>
      rw [List.take_succ_cons, List.cons_append, lead, lead, ih _ _ (by simpa using hi)]
      by_cases h : q < 0
      · rw [if_pos h, if_pos h]
        by_cases h₁ : q + 32 < 32 - 32 * i
        · rw [if_pos h₁, if_pos (by omega)]
          congr 1
          omega
        · rw [if_neg h₁, if_neg (by omega)]
      · rw [if_neg h, if_neg h, if_neg (by omega)]

theorem getLsbD_getD (ws : Sig) (i b : Nat) (h : b < 32) :
    (ws.getD i 0).getLsbD b = lead ws (b - 32 * i) := by
  induction i generalizing ws with
  | zero =>
    cases ws with
    | nil => simp [lead]
    | cons w ws =>
      rw [lead, if_neg (by omega)]
      simp
  | succ i ih =>
    cases ws with
    | nil => simp [lead]
    | cons w ws =>
      rw [List.getD_cons_succ, ih, lead.eq_def (w :: ws)]
      simp only [if_pos (show (b : Int) - 32 * ((i + 1 : Nat) : Int) < 0 by omega)]
      congr 1
      omega

theorem poly_shiftLeft (ws : Sig) (hk : k ≤ 32) : poly (shiftLeft ws k) = X ^ k * poly ws := by
  ext i
  rw [coeff_X_pow_mul', coeff_poly, bit_shiftLeft hk]
  split
  · rw [coeff_poly]
    congr 2
    omega
  · rw [bit_of_neg (by omega)]
    rfl

theorem poly_setLowBit (h : bit q 0 = false) : poly (setLowBit q) = poly q + 1 := by
  induction q using List.reverseRecOn with
  | nil => simp [setLowBit, poly_singleton, ofNat_one]
  | append_singleton q w _ =>
    have hw : w.getLsbD 0 = false := by
      have hc := congrArg (fun f => f.coeff 0) (poly_concat q w)
      simp only [coeff_poly, coeff_add, coeff_X_pow_mul', coeff_ofNat, Nat.cast_zero, h] at hc
      apply coeffOf_inj
      rw [← BitVec.testBit_toNat]
      simpa using hc.symm
    have hor : w ||| 1 = w ^^^ 1 := by
      apply BitVec.eq_of_getLsbD_eq
      intro i hi
      rw [BitVec.getLsbD_or, BitVec.getLsbD_xor]
      cases i with
      | zero => rw [hw, Bool.false_or, Bool.false_xor]
      | succ i => simp [BitVec.getLsbD_one]
    simp only [setLowBit, List.dropLast_concat, List.getLastD_concat, poly_concat, hor,
      BitVec.toNat_xor, ofNat_xor]
    rw [show (1 : POLY).toNat = 1 from rfl, ofNat_one]
    ring

theorem shiftLeft_zero_one : shiftLeft [0] 1 = [0] := by decide

theorem normalized_shiftLeft_one (h : Normalized q) : Normalized (shiftLeft q 1) := by
  obtain ⟨d, hd⟩ := exists_topBit h
  have hbit := bit_shiftLeft (l := q) (k := 1) (by omega) (32 * ((q.length : Int) - 1) + d + 1)
  have hlen := (bit_shiftLeftLoop (l := q) (k := 1) (by omega) 0).2
  rw [shiftLeft, if_neg (by omega), if_neg (by omega)] at *
  simp only at *
  split
  · next hc =>
    intro h0
    exact (pos_iff_ne_zero _).1 hc h0
  · next hc =>
    rw [if_neg hc] at hbit
    apply normalized_of_bit (p := 32 * ((q.length : Int) - 1) + d + 1)
    · rw [hbit, ← hd.top, bit]
      congr 1
      push_cast
      ring
    · omega

theorem normalized_setLowBit (h : Normalized q) : Normalized (setLowBit q) := by
  match q, h with
  | [w], h =>
    intro h0
    have hb := congrArg (fun v => BitVec.getLsbD v 0) h0
    simp [XGossip.setLowBit] at hb
  | w :: v :: q, h => exact h

variable {f g : Sig}

/-- In front of round `k`, `gtemp` is `g` with its highest bit at bit `k` of `f`, above which the bits
of `r` are removed. -/
structure Aligned (f g : Sig) (k : Int) (s : DivState) : Prop where
  length : s.r.length = f.length
  index : (s.i : Int) = f.length - 1 - k / 32
  bitMask : s.bitMask = 1#32 <<< (k % 32).toNat
  gtemp : ∀ q : Int, lead s.gtemp q = bit g (q - k % 32 + fullDegree g)
  above : ∀ p, k < p → bit s.r p = false

/-- What holds in front of round `k` of the division: the multiples of `g` removed so far are in
`q`. -/
structure DivInv (f g : Sig) (k : Int) (s : DivState) : Prop extends Aligned f g k s where
  sum : poly f = poly s.r + X ^ (k + 1 - fullDegree g).toNat * poly s.q * poly g
  normalized : s.q = [0] ∨ Normalized s.q

theorem Aligned.isSet (h : Aligned f g k s) :
    (s.r.getD s.i 0 &&& s.bitMask) > 0 ↔ bit s.r k = true := by
  have hb : (s.r.getD s.i 0).getLsbD (k % 32).toNat = bit s.r k := by
    rw [getLsbD_getD _ _ _ (by omega), bit]
    congr 1
    have h₁ := h.length
    have h₂ := h.index
    omega
  rw [pos_iff_ne_zero, h.bitMask]
  rw [← BitVec.twoPow_eq, BitVec.and_twoPow, hb]
  have hne := twoPow_ne_zero (n := (k % 32).toNat) (by omega)
  cases bit s.r k <;> simp [hne]

theorem bit_fullDegree (hg : Normalized g) :
    bit g (fullDegree g) = true ∧ ∀ p, fullDegree g < p → bit g p = false := by
  obtain ⟨d, hd⟩ := exists_topBit hg
  constructor
  · rw [bit, hd.fullDegree, ← hd.top]
    congr 1
    omega
  · intro p hp
    rw [hd.fullDegree] at hp
    exact hd.above _ (by omega)

theorem Aligned.bit_xor (h : Aligned f g k s) (hg : Normalized g) (h₀ : 0 ≤ k) (p : Int) (hp : 0 ≤ p) :
    bit (s.r.take s.i ++ xorWords (s.r.drop s.i) s.gtemp) p =
      (bit s.r p ^^ bit g (p - k + fullDegree g)) := by
  have h₁ := h.length
  have h₂ := h.index
  have hlen : (s.r.take s.i ++ xorWords (s.r.drop s.i) s.gtemp).length = s.r.length := by
    simp only [List.length_append, length_xorWords, List.length_take, List.length_drop]
    omega
  have hi : s.i < s.r.length := by omega
  rw [bit, hlen, lead_take_append _ _ _ _ hi.le, bit]
  split
  · next hq =>
    have hdrop : s.r.drop s.i ≠ [] := by
      intro he
      have := List.length_drop (i := s.i) (l := s.r)
      rw [he, List.length_nil] at this
      omega
    rw [lead_xorWords _ _ _ _ hdrop, lead_drop _ _ _ (by omega), h.gtemp]
    · congr 2
      · omega
      · omega
    · rw [List.length_drop]
      omega
  · rw [(bit_fullDegree hg).2 _ (by omega), Bool.xor_false]

theorem mask_ushiftRight {m : Nat} (h : m < 31) : (1#32 <<< (m + 1)) >>> 1 = 1#32 <<< m := by
  revert m
  decide

theorem poly_shiftLeft_one (q : Sig) : poly (shiftLeft q 1) = X * poly q := by
  rw [poly_shiftLeft q (by decide), pow_one]

theorem bit_shiftLeft_one (q : Sig) : bit (shiftLeft q 1) 0 = false := by
  rw [bit_shiftLeft (by decide)]
  exact bit_of_neg (by decide)

theorem divStep_q_normalized (h : s.q = [0] ∨ Normalized s.q) :
    (divStep k s).q = [0] ∨ Normalized (divStep k s).q := by
  simp only [divStep]
  rcases h with hz | hn
  · rw [hz, shiftLeft_zero_one]
    split
    · exact .inr (by decide)
    · exact .inl rfl
  · right
    split
    · exact normalized_setLowBit (normalized_shiftLeft_one hn)
    · exact normalized_shiftLeft_one hn

theorem Aligned.gtemp_step (h : Aligned f g k s) (hg : Normalized g) (q : Int) :
    lead (divStep k s).gtemp q = bit g (q - (k - 1) % 32 + fullDegree g) := by
  obtain ⟨htop, habove⟩ := bit_fullDegree hg
  simp only [divStep]
  by_cases hm : k % 32 = 0
  · rw [lead_shiftRight_of_empty (by omega) (by omega), h.gtemp]
    · congr 1
      omega
    · intro q hq
      rw [h.gtemp, habove _ (by omega)]
  · rw [lead_shiftRight_of_top (m := k % 32 - 1) (by omega) (by omega) (by omega), h.gtemp]
    · congr 1
      omega
    · rw [h.gtemp, ← htop]
      congr 1
      omega

theorem Aligned.above_step (h : Aligned f g k s) (hg : Normalized g) (h₀ : 0 ≤ k) (hp : k - 1 < p) :
    bit (divStep k s).r p = false := by
  obtain ⟨htop, habove⟩ := bit_fullDegree hg
  simp only [divStep]
  split
  · next hs =>
    rw [h.bit_xor hg h₀ p (by omega)]
    by_cases hpk : p = k
    · rw [hpk, h.isSet.1 hs, show k - k + fullDegree g = fullDegree g by omega, htop]
      rfl
    · rw [h.above p (by omega), habove _ (by omega)]
      rfl
  · next hs =>
    by_cases hpk : p = k
    · rw [hpk]
      simpa using mt h.isSet.2 hs
    · exact h.above p (by omega)

theorem DivInv.poly_xor (h : DivInv f g k s) (hg : Normalized g) (hk : fullDegree g ≤ k) (h₀ : 0 ≤ k) :
    poly (s.r.take s.i ++ xorWords (s.r.drop s.i) s.gtemp) =
      poly s.r + X ^ (k - fullDegree g).toNat * poly g := by
  ext i
  rw [coeff_poly, h.bit_xor hg h₀ i (by omega), coeffOf_xor, coeff_add, coeff_poly, coeff_X_pow_mul']
  congr 1
  split
  · rw [coeff_poly]
    congr 2
    omega
  · rw [bit_of_neg (by omega)]
    rfl

theorem DivInv.sum_step (h : DivInv f g k s) (hg : Normalized g) (hk : fullDegree g ≤ k) (h₀ : 0 ≤ k) :
    poly f = poly (divStep k s).r +
      X ^ (k - 1 + 1 - fullDegree g).toNat * poly (divStep k s).q * poly g := by
  have hpow : (k + 1 - fullDegree g).toNat = (k - fullDegree g).toNat + 1 := by omega
  have hk1 : (k - 1 + 1 - fullDegree g).toNat = (k - fullDegree g).toNat := by omega
  simp only [divStep, hk1]
  split
  · rw [h.poly_xor hg hk h₀, poly_setLowBit (bit_shiftLeft_one s.q), poly_shiftLeft_one, h.sum, hpow]
    have h2 : (2 : (ZMod 2)[X]) = 0 := CharTwo.two_eq_zero
    linear_combination (-(X ^ (k - fullDegree g).toNat * poly g)) * h2
  · rw [poly_shiftLeft_one, h.sum, hpow]
    ring

theorem Aligned.step (h : Aligned f g k s) (hg : Normalized g) (h₀ : 0 ≤ k) :
    Aligned f g (k - 1) (divStep k s) := by
  constructor
  · simp only [divStep]
    split
    · simp only [List.length_append, length_xorWords, List.length_take, List.length_drop]
      have := h.length
      omega
    · exact h.length
  · simp only [divStep]
    have := h.index
    split
    · push_cast
      omega
    · omega
  · simp only [divStep]
    split
    · next hm =>
      have : (k - 1) % 32 = 31 := by omega
      rw [this]
      rfl
    · next hm =>
      have : (k % 32).toNat = ((k - 1) % 32).toNat + 1 := by omega
      rw [h.bitMask, this, mask_ushiftRight (by omega)]
  · exact h.gtemp_step hg
  · intro p hp
    exact h.above_step hg h₀ hp

theorem DivInv.step (h : DivInv f g k s) (hg : Normalized g) (hk : fullDegree g ≤ k)
    (h₀ : 0 ≤ fullDegree g) :
    DivInv f g (k - 1) (divStep k s) :=
  ⟨h.toAligned.step hg (h₀.trans hk), h.sum_step hg hk (h₀.trans hk),
    divStep_q_normalized h.normalized⟩

theorem lead_divInit (hf : Normalized f) (hg : Normalized g) (q : Int) :
    lead (divInit f g).gtemp q = bit g (q - getDegreeWord (f.headD 0) + fullDegree g) := by
  obtain ⟨d, hd⟩ := exists_topBit hf
  obtain ⟨e, he⟩ := exists_topBit hg
  have hd32 := hd.lt
  have he32 := he.lt
  simp only [divInit, hd.getDegreeWord, he.getDegreeWord, he.fullDegree]
  split
  · next hlt =>
    have hk : ((d : Int) - e).toNat = d - e := by omega
    have hloop := bit_shiftLeftLoop (l := g) (k := d - e) (by omega)
    have hcarry : (shiftLeftLoop (d - e) g).2 = 0 := by
      apply BitVec.eq_of_getLsbD_eq
      intro i _
      have hb := (hloop (32 * g.length + i)).1
      rw [bit_cons, (hloop 0).2, if_neg (by omega)] at hb
      rw [show (32 * (g.length : Int) + i - 32 * g.length).toNat = i by omega] at hb
      rw [hb, (bit_fullDegree hg).2]
      · simp
      · rw [he.fullDegree]
        omega
    have hlen : (shiftLeft g (d - e)).length = g.length := by
      rw [shiftLeft, if_neg (by omega), if_neg (by omega)]
      simp only [hcarry]
      rw [if_neg (BitVec.lt_irrefl _)]
      exact (hloop 0).2
    have hb := bit_shiftLeft (l := g) (k := d - e) (by omega) (q + 32 * (g.length - 1))
    rw [bit, hlen] at hb
    rw [hk, show q = q + 32 * ((g.length : Int) - 1) - 32 * (g.length - 1) by omega, hb]
    congr 1
    omega
  · next hle =>
    by_cases hde : d = e
    · rw [shiftRight, if_pos (by omega), bit]
      congr 1
      omega
    · rw [lead_shiftRight_of_top (m := d) (by omega) (by omega) (by omega), bit]
      · congr 1
        omega
      · rw [← he.top]
        congr 1
        omega

theorem Aligned.init (hf : Normalized f) (hg : Normalized g) :
    Aligned f g (fullDegree f) (divInit f g) := by
  obtain ⟨d, hd⟩ := exists_topBit hf
  have hd32 := hd.lt
  have hmod : fullDegree f % 32 = d := by
    rw [hd.fullDegree]
    omega
  constructor
  · rfl
  · rw [hd.fullDegree]
    simp only [divInit]
    omega
  · simp only [divInit, hd.getDegreeWord, hmod]
  · intro q
    rw [lead_divInit hf hg, hd.getDegreeWord, hmod]
  · exact (bit_fullDegree hf).2

theorem DivInv.init (hf : Normalized f) (hg : Normalized g) :
    DivInv f g (fullDegree f) (divInit f g) := by
  refine ⟨.init hf hg, ?_, .inl rfl⟩
  simp only [divInit]
  rw [poly_zero_word, mul_zero, zero_mul, add_zero]

theorem Aligned.loop {n : Nat} (h : Aligned f g (k + n) s) (hg : Normalized g) (h₀ : -1 ≤ k) :
    Aligned f g k (divLoop (k + 1) n s) := by
  induction n generalizing s with
  | zero => simpa [divLoop] using h
  | succ n ih =>
    rw [divLoop]
    apply ih
    have hstep := h.step hg (by omega)
    rwa [show k + ((n + 1 : Nat) : Int) - 1 = k + n by omega,
      show k + ((n + 1 : Nat) : Int) = k + 1 + n by omega] at hstep

theorem DivInv.loop {n : Nat} (h : DivInv f g (fullDegree g + n - 1) s) (hg : Normalized g)
    (h₀ : 0 ≤ fullDegree g) : DivInv f g (fullDegree g - 1) (divLoop (fullDegree g) n s) := by
  induction n generalizing s with
  | zero => simpa [divLoop] using h
  | succ n ih =>
    rw [divLoop]
    apply ih
    have hk : fullDegree g + ((n + 1 : Nat) : Int) - 1 = fullDegree g + n := by omega
    rw [hk] at h
    exact h.step hg (by omega) h₀

/-- The loop divides with remainder. -/
theorem divide_spec (hf : Normalized f) (hg : Normalized g) (h : fullDegree g ≤ fullDegree f) :
    poly f = poly (divide f g).r + poly (divide f g).q * poly g ∧
      (poly (divide f g).r).degree < (poly g).degree ∧ Normalized (divide f g).q := by
  obtain ⟨m, hm, hm'⟩ := degree_eq_fullDegree hg
  obtain ⟨n, hn, hn'⟩ := degree_eq_fullDegree hf
  have hinit := DivInv.init hf hg
  have hk : fullDegree f = fullDegree g + (fullDegree f - fullDegree g + 1).toNat - 1 := by omega
  rw [hk] at hinit
  have hinv := hinit.loop hg (by omega)
  have hdeg : (poly (divide f g).r).degree < (poly g).degree := by
    rw [hm', degree_lt_iff_coeff_zero]
    intro i hi
    rw [coeff_poly, divide, hinv.above i (by omega)]
    rfl
  have hsum := hinv.sum
  rw [show (fullDegree g - 1 + 1 - fullDegree g).toNat = 0 by omega, pow_zero, one_mul] at hsum
  refine ⟨hsum, hdeg, ?_⟩
  rcases hinv.normalized with hz | hq
  · rw [hz, poly_zero_word, zero_mul, add_zero] at hsum
    rw [divide, ← hsum, hm', hn'] at hdeg
    have : n < m := by exact_mod_cast hdeg
    omega
  · exact hq

theorem poly_eraseLeading (ws : Sig) : poly (eraseLeading ws) = poly ws := by
  fun_induction eraseLeading ws with
  | case1 => rfl
  | case2 w v ws h ih =>
    have hw : w = 0 := by simpa [pos_iff_ne_zero] using h
    rw [ih, hw]
    apply poly_ext_bit
    intro p _
    exact (bit_zero_cons _ p).symm
  | case3 => rfl

theorem eraseLeading_normalized (h : ws ≠ []) :
    eraseLeading ws = [0] ∨ Normalized (eraseLeading ws) := by
  fun_induction eraseLeading ws with
  | case1 w v ws hw => exact .inr ((pos_iff_ne_zero w).1 hw)
  | case2 w v ws hw ih => exact ih (by simp)
  | case3 ws hws =>
    match ws, h, hws with
    | [w], _, _ =>
      by_cases hw : w = 0
      · exact .inl (by rw [hw])
      · exact .inr hw
    | w :: v :: ws, _, hws => exact (hws w v ws rfl).elim

end Division

end XGossip
