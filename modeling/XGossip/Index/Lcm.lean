import XGossip.Index.Division

open Polynomial

namespace XGossip
set_option autoImplicit true

open Gf2

section Gcd

variable {f g : Sig}

theorem length_divLoop {n : Nat} (s : DivState) :
    (divLoop gFullDegree n s).r.length = s.r.length := by
  induction n generalizing s with
  | zero => rfl
  | succ n ih =>
    rw [divLoop, ih]
    simp only [divStep]
    split
    · rw [List.length_append, length_xorWords, ← List.length_append, List.take_append_drop]
    · rfl

theorem length_divide_r (f g : Sig) : (divide f g).r.length = f.length := length_divLoop (divInit f g)

theorem divide_div_mod (hf : Normalized f) (hg : Normalized g) (h : fullDegree g ≤ fullDegree f) :
    poly (divide f g).q = poly f / poly g ∧ poly (divide f g).r = poly f % poly g := by
  obtain ⟨hsum, hdeg, -⟩ := divide_spec hf hg h
  have hmonic := monic_of_ne_zero hg.poly_ne_zero
  have huniq := div_modByMonic_unique (f := poly f) (poly (divide f g).q) (poly (divide f g).r)
    hmonic ⟨by rw [hsum, mul_comm], hdeg⟩
  rw [← divByMonic_eq_div _ hmonic, ← modByMonic_eq_mod _ hmonic]
  exact ⟨huniq.1.symm, huniq.2.symm⟩

theorem remainder_spec (hf : Normalized f) (hg : Normalized g) :
    poly (remainder f g) = poly f % poly g ∧
      (remainder f g = [0] ∨ Normalized (remainder f g)) := by
  rw [remainder]
  split
  · next h =>
    have hdeg : (poly f).degree < (poly g).degree := by
      rw [← not_le, ← fullDegree_le_iff hg hf]
      omega
    exact ⟨((mod_eq_self_iff hg.poly_ne_zero).2 hdeg).symm, .inr hf⟩
  · next h =>
    rw [poly_eraseLeading]
    refine ⟨(divide_div_mod hf hg (by omega)).2, eraseLeading_normalized ?_⟩
    rw [← List.length_pos_iff, length_divide_r, List.length_pos_iff]
    exact hf.ne_nil

theorem ne_nil_of_zero_or (h : f = [0] ∨ Normalized f) : f ≠ [] := by
  rcases h with rfl | h
  · exact List.cons_ne_nil _ _
  · exact h.ne_nil

theorem remainder_zero_word (hg : Normalized g) : remainder [0] g = [0] := by
  obtain ⟨m, hm, -⟩ := degree_eq_fullDegree hg
  have hzero : fullDegree [0] = -1 := by decide
  rw [remainder, if_pos (by omega)]

theorem remainder_mod (hf : f = [0] ∨ Normalized f) (hg : Normalized g) :
    poly (remainder f g) = poly f % poly g ∧
      (remainder f g = [0] ∨ Normalized (remainder f g)) := by
  rcases hf with rfl | hf
  · rw [remainder_zero_word hg, poly_zero_word, EuclideanDomain.zero_mod]
    exact ⟨rfl, .inl rfl⟩
  · exact remainder_spec hf hg

theorem remainder_eq_zero_iff (hf : Normalized f) (hg : Normalized g) :
    remainder f g = [0] ↔ poly g ∣ poly f := by
  obtain ⟨hmod, hnorm⟩ := remainder_spec hf hg
  rw [← EuclideanDomain.mod_eq_zero, ← hmod]
  constructor
  · intro h
    rw [h, poly_zero_word]
  · intro h
    exact hnorm.resolve_right fun hn => hn.poly_ne_zero h

theorem quotient_div (hf : Normalized f) (hg : Normalized g) (h : fullDegree g ≤ fullDegree f) :
    poly (quotient f g) = poly f / poly g ∧ Normalized (quotient f g) :=
  ⟨(divide_div_mod hf hg h).1, (divide_spec hf hg h).2.2⟩

theorem quotient_spec (hf : Normalized f) (hg : Normalized g) (h : poly g ∣ poly f) :
    Normalized (quotient f g) ∧ poly f = poly (quotient f g) * poly g := by
  have hle : fullDegree g ≤ fullDegree f := by
    rw [fullDegree_le_iff hg hf]
    exact degree_le_of_dvd h hf.poly_ne_zero
  obtain ⟨hdiv, hq⟩ := quotient_div hf hg hle
  rw [hdiv, mul_comm, EuclideanDomain.mul_div_cancel' hg.poly_ne_zero h]
  exact ⟨hq, rfl⟩

theorem gcdLoop_spec {n : Nat} (hf : Normalized f) (hg : g = [0] ∨ Normalized g)
    (hn : (poly g).degree < n) : Normalized (gcdLoop n f g) ∧
      poly (gcdLoop n f g) = EuclideanDomain.gcd (poly g) (poly f) := by
  induction n generalizing f g with
  | zero =>
    have h0 : poly g = 0 := by
      rw [← degree_eq_bot]
      exact Nat.WithBot.lt_zero_iff.1 hn
    rw [gcdLoop, h0, EuclideanDomain.gcd_zero_left]
    exact ⟨hf, rfl⟩
  | succ n ih =>
    rw [gcdLoop]
    split
    · next h =>
      rw [h, poly_zero_word, EuclideanDomain.gcd_zero_left]
      exact ⟨hf, rfl⟩
    · next h =>
      have hg' := hg.resolve_left h
      obtain ⟨hmod, hr⟩ := remainder_spec hf hg'
      rw [EuclideanDomain.gcd_val, ← hmod]
      apply ih hg' hr
      rw [hmod]
      have hlt : (poly f % poly g).degree < (poly g).degree :=
        EuclideanDomain.mod_lt (poly f) hg'.poly_ne_zero
      obtain ⟨m, -, hm⟩ := degree_eq_fullDegree hg'
      rw [hm] at hlt hn
      have hmn : m < n + 1 := by exact_mod_cast hn
      exact hlt.trans_le (by exact_mod_cast Nat.le_of_lt_succ hmn)

theorem degree_lt_words (g : Sig) : (poly g).degree < (32 * g.length + 1 : Nat) := by
  rw [degree_lt_iff_coeff_zero]
  intro i hi
  rw [coeff_poly, bit_of_ge (by omega)]
  rfl

theorem gcd_spec (hf : Normalized f) (hg : Normalized g) :
    Normalized (gcd f g) ∧ poly (gcd f g) = EuclideanDomain.gcd (poly g) (poly f) :=
  gcdLoop_spec hf (.inr hg) (degree_lt_words g)

theorem gcdSpecial_spec (hf : Normalized f) (hg : Normalized g) : Normalized (gcdSpecial f g) ∧
    poly (gcdSpecial f g) ∣ poly f ∧ poly (gcdSpecial f g) ∣ poly g ∧
      ∀ d, d ∣ poly f → d ∣ poly g → d ∣ poly (gcdSpecial f g) := by
  rw [gcdSpecial]
  split
  · obtain ⟨hn, hp⟩ := gcd_spec hf hg
    rw [hp]
    exact ⟨hn, EuclideanDomain.gcd_dvd_right _ _, EuclideanDomain.gcd_dvd_left _ _,
      fun d h h' => EuclideanDomain.dvd_gcd h' h⟩
  · obtain ⟨hn, hp⟩ := gcd_spec hg hf
    rw [hp]
    exact ⟨hn, EuclideanDomain.gcd_dvd_left _ _, EuclideanDomain.gcd_dvd_right _ _,
      fun d h h' => EuclideanDomain.dvd_gcd h h'⟩

theorem poly_gcdSpecial (hf : Normalized f) (hg : Normalized g) :
    poly (gcdSpecial f g) = EuclideanDomain.gcd (poly f) (poly g) := by
  obtain ⟨-, hdf, hdg, hgreatest⟩ := gcdSpecial_spec hf hg
  exact eq_of_dvd_of_dvd (EuclideanDomain.dvd_gcd hdf hdg)
    (hgreatest _ (EuclideanDomain.gcd_dvd_left _ _) (EuclideanDomain.gcd_dvd_right _ _))

end Gcd

section Multiply

theorem ofNat_toNat_half (x : POLY) :
    ofNat x.toNat = (if x &&& 1 > 0 then 1 else 0 : (ZMod 2)[X]) + X * ofNat (x >>> 1).toNat := by
  have hlow : (x &&& 1).toNat = x.toNat % 2 := by
    rw [BitVec.toNat_and]
    exact Nat.and_one_is_mod _
  have hbit : x &&& 1 > 0 ↔ x.toNat % 2 = 1 := by
    rw [pos_iff_ne_zero, ne_eq, ← BitVec.toNat_inj, hlow]
    simp
  rw [ofNat_split x.toNat 1, pow_one, pow_one, BitVec.toNat_ushiftRight]
  congr 1
  split
  · next h => rw [hbit.1 h, ofNat_one]
  · next h =>
    rw [hbit] at h
    rw [show x.toNat % 2 = 0 by omega, ofNat_zero]

/-- The product fits: neither the shifts of `y` nor the sums lose a bit. -/
theorem multiplyWordLoop_spec (p : BitVec 64) (hn : n ≤ 64) (hx : x.toNat < 2 ^ n)
    (hy : y.toNat < 2 ^ (64 - n)) : ofNat (multiplyWordLoop n x y p).toNat =
      ofNat p.toNat + ofNat x.toNat * ofNat y.toNat := by
  induction n generalizing x y p with
  | zero =>
    have h0 : x.toNat = 0 := by simpa using hx
    simp [multiplyWordLoop, h0]
  | succ n ih =>
    rw [multiplyWordLoop]
    split
    · have hx' : (x >>> 1).toNat < 2 ^ n := by
        rw [BitVec.toNat_ushiftRight, Nat.shiftRight_eq_div_pow, Nat.pow_one]
        rw [Nat.pow_succ] at hx
        omega
      have hpow : 2 ^ (64 - n) = 2 * 2 ^ (64 - (n + 1)) := by
        rw [← Nat.pow_succ']
        congr 1
        omega
      have hshift : (y <<< 1).toNat = y.toNat <<< 1 := by
        rw [BitVec.toNat_shiftLeft]
        apply Nat.mod_eq_of_lt
        rw [Nat.shiftLeft_eq, Nat.pow_one]
        have : 2 ^ (64 - n) ≤ 2 ^ 64 := Nat.pow_le_pow_right (by omega) (by omega)
        omega
      have hy' : (y <<< 1).toNat < 2 ^ (64 - n) := by
        rw [hshift, Nat.shiftLeft_eq, Nat.pow_one]
        omega
      rw [ih _ (by omega) hx' hy', hshift, ofNat_shiftLeft, ofNat_toNat_half x]
      split
      · rw [BitVec.toNat_xor, ofNat_xor]
        ring
      · ring
    · next h =>
      have h0 : x = 0 := by simpa [pos_iff_ne_zero] using h
      simp [h0]

theorem multiplyLoop_spec (m : POLY) (ws : Sig) : (multiplyLoop m ws).1.length = ws.length ∧
    (multiplyLoop m ws).2.toNat < 2 ^ 32 ∧
      X ^ (32 * ws.length) * ofNat (multiplyLoop m ws).2.toNat + poly (multiplyLoop m ws).1 =
        poly ws * ofNat m.toNat := by
  induction ws with
  | nil => simp [multiplyLoop]
  | cons w ws ih =>
    obtain ⟨hlen, hlt, hsum⟩ := ih
    simp only [multiplyLoop]
    have hw : (w.setWidth 64).toNat = w.toNat := by
      rw [BitVec.toNat_setWidth]
      exact Nat.mod_eq_of_lt (w.isLt.trans (by norm_num))
    have hprod := multiplyWordLoop_spec (n := 32) (x := m) (y := w.setWidth 64)
      (multiplyLoop m ws).2 (by omega) m.isLt (by rw [hw]; exact w.isLt)
    rw [hw] at hprod
    generalize multiplyWordLoop 32 m (w.setWidth 64) (multiplyLoop m ws).2 = p at hprod ⊢
    refine ⟨by simp [hlen], ?_, ?_⟩
    · rw [BitVec.toNat_ushiftRight, Nat.shiftRight_eq_div_pow]
      have := p.isLt
      omega
    · have hsplit := ofNat_split p.toNat 32
      rw [poly_cons, poly_cons, List.length_cons, hlen, BitVec.toNat_setWidth,
        BitVec.toNat_ushiftRight]
      have hpow : X ^ (32 * (ws.length + 1)) = (X ^ (32 * ws.length) * X ^ 32 : (ZMod 2)[X]) := by
        ring
      rw [hpow]
      linear_combination X ^ (32 * ws.length) * (hprod - hsplit) + hsum

theorem multiplyPolyWord_spec (f : Sig) (m : POLY) :
    poly (multiplyPolyWord f m) = poly f * ofNat m.toNat ∧
      (multiplyPolyWord f m).length ≤ f.length + 1 ∧
        ((multiplyPolyWord f m).length = f.length ∨ Normalized (multiplyPolyWord f m)) := by
  obtain ⟨hlen, hlt, hsum⟩ := multiplyLoop_spec m f
  have hlow : ((multiplyLoop m f).2.setWidth 32).toNat = (multiplyLoop m f).2.toNat := by
    rw [BitVec.toNat_setWidth, Nat.mod_eq_of_lt hlt]
  simp only [multiplyPolyWord]
  split
  · next h =>
    refine ⟨?_, by simp [hlen], .inr ?_⟩
    · rw [poly_cons, hlen, hlow]
      exact hsum
    · intro h0
      have h1 : (multiplyLoop m f).2.toNat = 0 := by
        rw [← hlow]
        exact congrArg BitVec.toNat (show (multiplyLoop m f).2.setWidth 32 = 0 from h0)
      exact (pos_iff_ne_zero _).1 h (BitVec.eq_of_toNat_eq h1)
  · next h =>
    have h0 : (multiplyLoop m f).2 = 0 := by simpa [pos_iff_ne_zero] using h
    refine ⟨?_, by omega, .inl hlen⟩
    rw [h0] at hsum
    simpa using hsum

theorem poly_addWords (x y : Sig) :
    poly (addWords x y).reverse = poly x.reverse + poly y.reverse := by
  fun_induction addWords x y with
  | case1 x xs y ys ih =>
    simp only [List.reverse_cons, poly_concat, ih, BitVec.toNat_xor, ofNat_xor]
    ring
  | case2 ys => simp
  | case3 xs => simp

theorem poly_addPoly (x y : Sig) : poly (addPoly x y) = poly x + poly y := by
  simpa [addPoly] using poly_addWords x.reverse y.reverse

theorem length_addPoly (x y : Sig) : (addPoly x y).length = max x.length y.length := by
  have h : ∀ x y : Sig, (addWords x y).length = max x.length y.length := by
    intro x y
    fun_induction addWords x y with
    | case1 x xs y ys ih => simp [ih]
    | case2 ys => simp
    | case3 xs => simp
  simp [addPoly, h]

theorem normalized_of_degree {n : Nat} (hdeg : (poly ws).degree = n)
    (hlen : 32 * ((ws.length : Int) - 1) ≤ n) : Normalized ws := by
  apply normalized_of_bit (p := n) _ hlen
  apply coeffOf_inj
  rw [← coeff_poly]
  have hne : poly ws ≠ 0 := by
    intro h0
    rw [h0, degree_zero] at hdeg
    exact WithBot.bot_ne_coe hdeg
  have hnat := natDegree_eq_of_degree_eq_some hdeg
  have hmonic := monic_of_ne_zero hne
  rw [Monic, leadingCoeff, hnat] at hmonic
  rw [hmonic]
  rfl

theorem length_le_degree (h : Normalized ws) :
    ∃ n : Nat, (poly ws).degree = n ∧ 32 * ((ws.length : Int) - 1) ≤ n ∧ n < 32 * ws.length := by
  obtain ⟨n, hn, hdeg⟩ := degree_eq_fullDegree h
  obtain ⟨d, hd⟩ := exists_topBit h
  have h₁ := hd.fullDegree
  have h₂ := hd.lt
  exact ⟨n, hdeg, by omega, by omega⟩

theorem poly_multiplyStep (hprod : poly res = poly f * poly pre) (w : POLY) :
    poly (addPoly (shiftLeft res 32) (multiplyPolyWord f w)) = poly f * poly (pre ++ [w]) := by
  have hshift : shiftLeft res 32 = res ++ [0] := rfl
  rw [hshift, poly_addPoly, poly_concat, poly_concat, (multiplyPolyWord_spec f w).1, hprod]
  simp
  ring

theorem poly_multiplyPolyLoop (hprod : poly res = poly f * poly pre) :
    poly (multiplyPolyLoop f (if l = [] then res else shiftLeft res 32) l) =
      poly f * poly (pre ++ l) := by
  induction l generalizing pre res with
  | nil =>
    rw [if_pos rfl, multiplyPolyLoop, List.append_nil]
    exact hprod
  | cons w l ih =>
    rw [if_neg (List.cons_ne_nil w l), multiplyPolyLoop]
    have h := ih (poly_multiplyStep hprod w)
    rwa [List.append_assoc] at h

theorem addPoly_nil (f : Sig) : addPoly [] f = f := by simp [addPoly, addWords]

theorem poly_multiplyPoly (f g : Sig) : poly (multiplyPoly f g) = poly f * poly g := by
  cases g with
  | nil => simp [multiplyPoly, multiplyPolyLoop]
  | cons w ws =>
    have hprod : poly (multiplyPolyWord f w) = poly f * poly [w] := by
      rw [(multiplyPolyWord_spec f w).1, poly_singleton]
    have h := poly_multiplyPolyLoop (l := ws) hprod
    rw [multiplyPoly, multiplyPolyLoop, addPoly_nil]
    rwa [List.singleton_append] at h

theorem normalized_multiplyPolyLoop (hf : Normalized f) (hp : Normalized pre)
    (hres : Normalized res) (hprod : poly res = poly f * poly pre) :
    Normalized (multiplyPolyLoop f (if l = [] then res else shiftLeft res 32) l) := by
  induction l generalizing pre res with
  | nil =>
    rw [if_pos rfl, multiplyPolyLoop]
    exact hres
  | cons w l ih =>
    obtain ⟨-, hlen, -⟩ := multiplyPolyWord_spec f w
    have hsum := poly_multiplyStep hprod w
    have hshift : shiftLeft res 32 = res ++ [0] := rfl
    rw [if_neg (List.cons_ne_nil w l), multiplyPolyLoop]
    have hp' : Normalized (pre ++ [w]) := by
      cases pre with
      | nil => exact (hp rfl).elim
      | cons v pre => exact hp
    refine ih hp' ?_ hsum
    obtain ⟨df, hdf, hf₁, hf₂⟩ := length_le_degree hf
    obtain ⟨dp, hdp, hp₁, hp₂⟩ := length_le_degree hp
    obtain ⟨dr, hdr, hr₁, hr₂⟩ := length_le_degree hres
    have hdeg : dr = df + dp := by
      rw [hprod, degree_mul, hdf, hdp] at hdr
      exact_mod_cast hdr.symm
    have hdegw : (poly (pre ++ [w])).degree = (32 + dp : Nat) := by
      cases pre with
      | nil => exact (hp rfl).elim
      | cons v pre =>
        obtain ⟨d, -, hd, htop⟩ := exists_top (show v ≠ 0 from hp)
        rw [degree_poly hd htop] at hdp
        rw [List.cons_append, degree_poly hd htop, ← Nat.cast_inj.1 hdp, List.length_append]
        simp only [List.length_singleton]
        congr 1
        omega
    apply normalized_of_degree (n := df + (32 + dp))
    · rw [hsum, degree_mul, hdf, hdegw]
      rfl
    · rw [hshift, length_addPoly, List.length_append, List.length_singleton]
      omega

theorem multiplyPoly_spec (hf : Normalized f) (hg : Normalized g) :
    Normalized (multiplyPoly f g) ∧ poly (multiplyPoly f g) = poly f * poly g := by
  refine ⟨?_, poly_multiplyPoly f g⟩
  cases g with
  | nil => exact (hg rfl).elim
  | cons w ws =>
    obtain ⟨hword, -, hlen⟩ := multiplyPolyWord_spec f w
    have hprod : poly (multiplyPolyWord f w) = poly f * poly [w] := by
      rw [hword, poly_singleton]
    have hw : Normalized [w] := hg
    have hnorm : Normalized (multiplyPolyWord f w) := by
      obtain ⟨df, hdf, hf₁, -⟩ := length_le_degree hf
      obtain ⟨dw, hdw, -, -⟩ := length_le_degree hw
      rcases hlen with hlen | hn
      · apply normalized_of_degree (n := df + dw)
        · rw [hprod, degree_mul, hdf, hdw]
          rfl
        · omega
      · exact hn
    rw [multiplyPoly, multiplyPolyLoop, addPoly_nil]
    exact normalized_multiplyPolyLoop hf hw hnorm hprod

end Multiply

section Lcm

variable {t s : Sig}

theorem lcm_poly (ht : Normalized t) (hs : Normalized s) :
    Normalized (lcm t s) ∧ poly (lcm t s) = EuclideanDomain.lcm (poly t) (poly s) := by
  rw [lcm, lcmSpecial]
  split
  · next h =>
    obtain ⟨rfl, rfl⟩ := h
    refine ⟨ht, eq_of_dvd_of_dvd (EuclideanDomain.dvd_lcm_left _ _) ?_⟩
    exact EuclideanDomain.lcm_dvd dvd_rfl dvd_rfl
  · obtain ⟨hg, hgt, hgs, -⟩ := gcdSpecial_spec ht hs
    have hle : fullDegree s ≥ fullDegree (gcdSpecial t s) :=
      (fullDegree_le_iff hg hs).2 (degree_le_of_dvd hgs hs.poly_ne_zero)
    obtain ⟨hq, hsq⟩ := quotient_spec hs hg hgs
    obtain ⟨hn, hprod⟩ := multiplyPoly_spec ht hq
    simp only [if_pos hle]
    refine ⟨hn, ?_⟩
    rw [hprod, EuclideanDomain.lcm, ← poly_gcdSpecial ht hs]
    rw [hsq, ← mul_assoc, mul_div_cancel_right₀ _ hg.poly_ne_zero]

theorem lcm_spec (ht : Normalized t) (hs : Normalized s) : Normalized (lcm t s) ∧
    poly t ∣ poly (lcm t s) ∧ poly s ∣ poly (lcm t s) ∧
      ∀ u, poly t ∣ u → poly s ∣ u → poly (lcm t s) ∣ u := by
  obtain ⟨hn, hlcm⟩ := lcm_poly ht hs
  rw [hlcm]
  exact ⟨hn, EuclideanDomain.dvd_lcm_left _ _, EuclideanDomain.dvd_lcm_right _ _,
    fun u htu hsu => EuclideanDomain.lcm_dvd htu hsu⟩

theorem gcdSpecial_of_divides (hs : Normalized s) (ht : Normalized t) (h : poly s ∣ poly t) :
    gcdSpecial s t = s ∧ gcdSpecial t s = s := by
  obtain ⟨hn, hgs, -, hgreatest⟩ := gcdSpecial_spec hs ht
  obtain ⟨hn', -, hgs', hgreatest'⟩ := gcdSpecial_spec ht hs
  exact ⟨hn.eq_of_poly hs (eq_of_dvd_of_dvd hgs (hgreatest _ dvd_rfl h)),
    hn'.eq_of_poly hs (eq_of_dvd_of_dvd hgs' (hgreatest' _ h dvd_rfl))⟩

theorem lcm_of_divides (hs : Normalized s) (ht : Normalized t) (h : poly s ∣ poly t) :
    lcm s t = t ∧ lcm t s = t := by
  obtain ⟨hn, -, htl, hleast⟩ := lcm_spec hs ht
  obtain ⟨hn', htl', -, hleast'⟩ := lcm_spec ht hs
  exact ⟨hn.eq_of_poly ht (eq_of_dvd_of_dvd (hleast _ h dvd_rfl) htl),
    hn'.eq_of_poly ht (eq_of_dvd_of_dvd (hleast' _ dvd_rfl h) htl')⟩

theorem lcm_self_right (ht : Normalized t) (hs : Normalized s) : lcm (lcm t s) s = lcm t s := by
  obtain ⟨hn, -, hsl, -⟩ := lcm_spec ht hs
  exact (lcm_of_divides hs hn hsl).2

theorem lcm_self (hs : Normalized s) : lcm s s = s := (lcm_of_divides hs hs dvd_rfl).1

theorem poly_one_word : poly [1] = 1 := by
  rw [poly_singleton, show (1 : POLY).toNat = 1 from rfl, ofNat_one]

theorem lcm_one (hs : Normalized s) : lcm [1] s = s := by
  have h1 : poly [1] ∣ poly s := by
    rw [poly_one_word]
    exact one_dvd _
  exact (lcm_of_divides (by decide) hs h1).1

end Lcm

end XGossip
