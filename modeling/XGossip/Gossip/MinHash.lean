import Mathlib.Data.Nat.Prime.Int
import Mathlib.Order.Bounds.Basic
import Mathlib.Tactic.NormNum.Prime
import XGossip.Gossip.Lsh

namespace XGossip
set_option autoImplicit true

section Wrap

variable {a b v : Int}

theorem emod_emod_eq_iff (M p v : Int) : v % M % p = v % p ↔ p ∣ M * (v / M) := by
  have hsplit := Int.emod_add_mul_ediv v M
  rw [eq_comm, Int.emod_eq_emod_iff_emod_sub_eq_zero, Int.dvd_iff_emod_eq_zero]
  have hsub : v - v % M = M * (v / M) := by omega
  rw [hsub]

theorem exists_ediv (n : Int) (ha : 0 < a) : ∃ q, a * q ≤ n ∧ n < a * q + a := by
  refine ⟨n / a, ?_, ?_⟩
  · have hle := Int.mul_ediv_self_le (x := n) ha.ne'
    exact hle
  · exact Int.lt_mul_ediv_self_add ha

def NoWrap (a b : Int) : Prop := 0 ≤ b ∧ (a = 0 ∨ a = 1 ∧ b = 0)

instance : Decidable (NoWrap a b) := inferInstanceAs (Decidable (_ ∧ _))

theorem NoWrap.wraps (h : NoWrap a b) (hb : b < 2 ^ 31) (hx : 0 ≤ x) (hx' : x < 2 ^ 32) :
    (a * x + b) / 2 ^ 32 = 0 := by
  obtain ⟨hb₀, rfl | ⟨rfl, rfl⟩⟩ := h
  · omega
  · omega

/-- In all other linear functions with coefficients of type `int` some word wraps exactly once,
upwards or downwards. -/
theorem exists_wrap (ha : -2 ^ 31 ≤ a) (ha' : a < 2 ^ 31) (hb : -2 ^ 31 ≤ b) (hb' : b < 2 ^ 31)
    (h : ¬ NoWrap a b) :
    ∃ x, 0 ≤ x ∧ x < 2 ^ 32 ∧ ((a * x + b) / 2 ^ 32 = 1 ∨ (a * x + b) / 2 ^ 32 = -1) := by
  rcases lt_or_ge b 0 with hneg | hpos
  · exact ⟨0, by omega, by omega, .inr (by omega)⟩
  · rw [NoWrap] at h
    rcases Int.lt_trichotomy a 0 with hlt | rfl | hgt
    · obtain ⟨q, hq, hq'⟩ := exists_ediv b (show 0 < -a by omega)
      have hq₀ : 0 ≤ q := by nlinarith
      have hqb : q ≤ b := by nlinarith
      refine ⟨q + 1, by omega, by omega, .inr ?_⟩
      have hval : a * (q + 1) + b = a + b - -a * q := by ring
      omega
    · omega
    · obtain ⟨q, hq, hq'⟩ := exists_ediv (2 ^ 32 - b + a - 1) hgt
      have hq₀ : 0 ≤ q := by nlinarith
      refine ⟨q, hq₀, ?_, .inl (by omega)⟩
      by_contra hge
      have hmul : a * 2 ^ 32 ≤ a * q := Int.mul_le_mul_of_nonneg_left (by omega) hgt.le
      omega

theorem prime_dvd_wrap {p : Nat} (hp : p.Prime) (hw : w = 1 ∨ w = -1)
    (h : (p : Int) ∣ 2 ^ 32 * w) : p = 2 := by
  have hpow : (p : Int) ∣ 2 ^ 32 := by
    rcases hw with rfl | rfl
    · simpa using h
    · simpa using h
  have htwo : p ∣ 2 := hp.dvd_of_dvd_pow (show p ∣ 2 ^ 32 by exact_mod_cast hpow)
  exact (Nat.prime_dvd_prime_iff_eq hp Nat.prime_two).1 htwo

end Wrap

section MinHash

variable {o : LshOptions} {S : Sig} {p : Nat}

def LshOptions.a (o : LshOptions) (f : Nat) : Int := (o.hasha.getD f 0).toInt

def LshOptions.b (o : LshOptions) (f : Nat) : Int := (o.hashb.getD f 0).toInt

def LshOptions.linear (o : LshOptions) (f : Nat) (x : POLY) : Int := o.a f * x.toNat + o.b f

/-- Each minimum that `getHashCode` computes for a group of hash functions is the one over the
integers. -/
def MinExact (o : LshOptions) (S : Sig) : Prop :=
  ∀ i < o.mgroups.toNat, ∃ min_hash,
    (o.myLSH S).minHash S o.lfuncs.toNat (i * o.lfuncs.toNat) = some min_hash ∧
      ∀ j < o.lfuncs.toNat, ∃ min, min_hash[j]? = some min ∧
        IsLeast ((fun x => o.linear (i * o.lfuncs.toNat + j) x % o.lshseed.toInt) '' {x | x ∈ S})
          min.toNat

/-- The options that a peer starts with: the modulus is a prime number, and as many coefficients
are loaded as there are hash functions. -/
structure LshOptions.Loaded (o : LshOptions) (p : Nat) : Prop where
  prime : p.Prime
  highest : o.lshseed.toInt = p
  hasha : (o.hasha.length : Int) = o.lfuncs * o.mgroups
  hashb : (o.hashb.length : Int) = o.lfuncs * o.mgroups

def LshOptions.minOf (o : LshOptions) (S : Sig) (f : Nat) : Option POLY := do
  isMinimum (← (o.myLSH S).hashes S f)

theorem LshOptions.Loaded.highest_toNat (h : o.Loaded p) : o.lshseed.toNat = p := by
  have hp := h.highest
  rw [BitVec.toInt_eq_toNat_cond] at hp
  split at hp
  · exact_mod_cast hp
  · have hlt := o.lshseed.isLt
    omega

/-- In 32 bits the sum is reduced before the remainder is taken. -/
theorem LshOptions.Loaded.hashValue (h : o.Loaded p) (S : Sig) (hf : f < o.hasha.length)
    (hf' : f < o.hashb.length) (x : POLY) :
    ∃ v : POLY, (o.myLSH S).hashValue f x = some v ∧
      (v.toNat : Int) = o.linear f x % 2 ^ 32 % p := by
  have hp := h.highest_toNat
  have hne : o.lshseed ≠ 0 := by
    intro h0
    rw [h0] at hp
    exact h.prime.ne_zero hp.symm
  refine ⟨(o.hasha[f] * x + o.hashb[f]) % o.lshseed, ?_, ?_⟩
  · simp only [Lsh.hashValue, LshOptions.myLSH, List.getElem?_eq_getElem hf,
      List.getElem?_eq_getElem hf', Option.bind_eq_bind, Option.bind_some]
    exact if_neg hne
  · have hsum : ((o.hasha[f] * x + o.hashb[f]).toNat : Int) = o.linear f x % 2 ^ 32 := by
      have hword : o.hasha[f] * x + o.hashb[f] = BitVec.ofInt 32 (o.linear f x) := by
        rw [LshOptions.linear, BitVec.ofInt_add, BitVec.ofInt_mul, BitVec.ofInt_natCast,
          BitVec.ofNat_toNat, BitVec.setWidth_eq, LshOptions.a, LshOptions.b,
          List.getD_eq_getElem?_getD, List.getD_eq_getElem?_getD, List.getElem?_eq_getElem hf,
          List.getElem?_eq_getElem hf', Option.getD_some, Option.getD_some, BitVec.ofInt_toInt,
          BitVec.ofInt_toInt]
      rw [hword, BitVec.toNat_ofInt, Int.toNat_of_nonneg (Int.emod_nonneg _ (by decide))]
      rfl
    rw [BitVec.toNat_umod, hp, Int.natCast_emod, hsum]

theorem LshOptions.Loaded.minOf (h : o.Loaded p) (hne : S ≠ []) (hf : f < o.hasha.length)
    (hf' : f < o.hashb.length) : ∃ min, o.minOf S f = some min ∧
      IsLeast ((fun x => o.linear f x % 2 ^ 32 % p) '' {x | x ∈ S}) (min.toNat : Int) := by
  choose hash hhash hval using h.hashValue S hf hf'
  obtain ⟨min, hmin, hmem, hle⟩ := isMinimum_spec (List.map_eq_nil_iff.not.2 hne : S.map hash ≠ [])
  refine ⟨min, ?_, ?_, ?_⟩
  · rw [LshOptions.minOf, Lsh.hashes_eq rfl hash hhash, Option.bind_eq_bind, Option.bind_some, hmin]
  · obtain ⟨x, hx, rfl⟩ := List.mem_map.1 hmem
    exact ⟨x, hx, (hval x).symm⟩
  · rintro _ ⟨x, hx, rfl⟩
    have hlex := hle _ (List.mem_map_of_mem hx)
    simp only
    rw [← hval x]
    exact_mod_cast BitVec.le_def.1 hlex

theorem minHash_some {n : Nat} (h : ∀ j < n, ∃ min, o.minOf S (f + j) = some min) :
    ∃ v, (o.myLSH S).minHash S n f = some v ∧ ∀ j < n, v[j]? = o.minOf S (f + j) := by
  induction n generalizing f with
  | zero => exact ⟨[], rfl, fun j hj => by omega⟩
  | succ n ih =>
    obtain ⟨min, hmin⟩ := h 0 (Nat.succ_pos n)
    rw [Nat.add_zero] at hmin
    obtain ⟨v, hv, hget⟩ := ih (f := f + 1) fun j hj => by
      have hj' := h (j + 1) (by omega)
      rwa [Nat.add_comm j 1, ← Nat.add_assoc] at hj'
    obtain ⟨values, hvalues, hmin'⟩ := Option.bind_eq_some_iff.1 hmin
    refine ⟨min :: v, ?_, ?_⟩
    · rw [Lsh.minHash, hvalues, Option.bind_eq_bind, Option.bind_some, hmin', hv]
      rfl
    · intro j hj
      cases j with
      | zero => exact hmin.symm
      | succ j =>
        rw [List.getElem?_cons_succ, hget j (by omega), Nat.add_comm j 1, Nat.add_assoc]

theorem group_lt {i j m l : Nat} (hi : i < m) (hj : j < l) : i * l + j < m * l := by
  have hle : (i + 1) * l ≤ m * l := Nat.mul_le_mul_right _ hi
  rw [Nat.succ_mul] at hle
  omega

theorem exists_group {f m l : Nat} (hf : f < m * l) : ∃ i < m, ∃ j < l, i * l + j = f := by
  have hl : 0 < l := Nat.pos_of_ne_zero fun h0 => by simp [h0] at hf
  exact ⟨f / l, Nat.div_lt_of_lt_mul (by rwa [Nat.mul_comm]), f % l, Nat.mod_lt _ hl,
    Nat.div_add_mod' f l⟩

theorem LshOptions.Loaded.lt_hasha (h : o.Loaded p) (hf : f < o.mgroups.toNat * o.lfuncs.toNat) :
    f < o.hasha.length := hf.trans_le (toNat_mul_le h.hasha)

theorem LshOptions.Loaded.lt_hashb (h : o.Loaded p) (hf : f < o.mgroups.toNat * o.lfuncs.toNat) :
    f < o.hashb.length := hf.trans_le (toNat_mul_le h.hashb)

/-- The two sets of values of a hash function have the same minimum. -/
theorem minExact_iff (h : o.Loaded p) (hne : S ≠ []) :
    MinExact o S ↔ ∀ f < o.mgroups.toNat * o.lfuncs.toNat, ∀ min : Int,
      IsLeast ((fun x => o.linear f x % 2 ^ 32 % p) '' {x | x ∈ S}) min →
        IsLeast ((fun x => o.linear f x % p) '' {x | x ∈ S}) min := by
  constructor
  · intro hexact f hf min hmin
    obtain ⟨i, hi, j, hj, rfl⟩ := exists_group hf
    obtain ⟨min', hmin', hleast⟩ := h.minOf hne (h.lt_hasha hf) (h.lt_hashb hf)
    obtain ⟨v, hv, hget⟩ := hexact i hi
    obtain ⟨w, hw, hget'⟩ := minHash_some (f := i * o.lfuncs.toNat) fun j hj => by
      have hlt := group_lt hi hj
      obtain ⟨m, hm, -⟩ := h.minOf hne (h.lt_hasha hlt) (h.lt_hashb hlt)
      exact ⟨m, hm⟩
    obtain rfl := Option.some.inj (hv.symm.trans hw)
    obtain ⟨m, hm, hm'⟩ := hget j hj
    rw [hget' j hj, hmin'] at hm
    obtain rfl := Option.some.inj hm
    rw [hmin.unique hleast, ← h.highest]
    exact hm'
  · intro hsame i hi
    have hrow : ∀ j < o.lfuncs.toNat, ∃ min, o.minOf S (i * o.lfuncs.toNat + j) = some min := by
      intro j hj
      have hlt := group_lt hi hj
      obtain ⟨m, hm, -⟩ := h.minOf hne (h.lt_hasha hlt) (h.lt_hashb hlt)
      exact ⟨m, hm⟩
    obtain ⟨v, hv, hget⟩ := minHash_some hrow
    refine ⟨v, hv, fun j hj => ?_⟩
    have hlt := group_lt hi hj
    obtain ⟨m, hm, hleast⟩ := h.minOf hne (h.lt_hasha hlt) (h.lt_hashb hlt)
    refine ⟨m, (hget j hj).trans hm, ?_⟩
    rw [h.highest]
    exact hsame _ hlt _ hleast

theorem linear_exact_iff (p : Nat) (f : Nat) (x : POLY) :
    o.linear f x % 2 ^ 32 % p = o.linear f x % p ↔ (p : Int) ∣ 2 ^ 32 * (o.linear f x / 2 ^ 32) :=
  emod_emod_eq_iff _ _ _

/-- The signatures of which every part has exact minima are those in which the words wrap a
multiple of the modulus only. -/
theorem minExact_parts_iff (h : o.Loaded p) :
    (∀ T ⊆ S, T ≠ [] → MinExact o T) ↔ ∀ f < o.mgroups.toNat * o.lfuncs.toNat, ∀ x ∈ S,
      (p : Int) ∣ 2 ^ 32 * (o.linear f x / 2 ^ 32) := by
  constructor
  · intro hparts f hf x hx
    have hexact := (minExact_iff h (List.cons_ne_nil x [])).1
      (hparts [x] (by simpa using hx) (List.cons_ne_nil x [])) f hf
    have hset : {y : POLY | y ∈ [x]} = {x} := by
      ext y
      exact List.mem_singleton
    rw [hset, Set.image_singleton, Set.image_singleton] at hexact
    have hleast := hexact _ isLeast_singleton
    rw [← linear_exact_iff]
    exact hleast.1
  · intro hdvd T hT hne
    rw [minExact_iff h hne]
    intro f hf min hmin
    have hsame : (fun x => o.linear f x % 2 ^ 32 % p) '' {x | x ∈ T} =
        (fun x => o.linear f x % p) '' {x | x ∈ T} := by
      apply Set.image_congr
      intro x hx
      exact (linear_exact_iff p f x).2 (hdvd f hf x (hT hx))
    rwa [← hsame]

theorem LshOptions.coefficients (o : LshOptions) (f : Nat) :
    (-2 ^ 31 ≤ o.a f ∧ o.a f < 2 ^ 31) ∧ (-2 ^ 31 ≤ o.b f ∧ o.b f < 2 ^ 31) :=
  ⟨⟨BitVec.le_toInt _, BitVec.toInt_lt⟩, BitVec.le_toInt _, BitVec.toInt_lt⟩

/-- The minima of all signatures are exact just if the modulus is 2 or no word wraps in any of the
hash functions, which are then constant or the identity. For one signature it is enough that its
elements wrap a multiple of the modulus, and needed if the minima of its parts are to be exact. -/
theorem min_hash_exact_iff (h : o.Loaded p) :
    ((∀ S, S ≠ [] → MinExact o S) ↔
      p = 2 ∨ ∀ f < o.mgroups.toNat * o.lfuncs.toNat, NoWrap (o.a f) (o.b f)) ∧
    ∀ S, ((∀ T ⊆ S, T ≠ [] → MinExact o T) ↔
      ∀ f < o.mgroups.toNat * o.lfuncs.toNat, ∀ x ∈ S,
        (p : Int) ∣ 2 ^ 32 * (o.linear f x / 2 ^ 32)) := by
  refine ⟨⟨?_, ?_⟩, fun S => minExact_parts_iff h⟩
  · intro hexact
    by_contra hno
    obtain ⟨htwo, hwrap⟩ := not_or.1 hno
    push Not at hwrap
    obtain ⟨f, hf, hwrap⟩ := hwrap
    obtain ⟨⟨ha, ha'⟩, hb, hb'⟩ := o.coefficients f
    obtain ⟨x, hx, hx', hw⟩ := exists_wrap ha ha' hb hb' hwrap
    have hnat : ((BitVec.ofInt 32 x).toNat : Int) = x := by
      rw [BitVec.toNat_ofInt]
      omega
    have hdvd := (minExact_parts_iff (S := [BitVec.ofInt 32 x]) h).1
      (fun T _ hne => hexact T hne) f hf _ List.mem_cons_self
    rw [LshOptions.linear, hnat] at hdvd
    exact htwo (prime_dvd_wrap h.prime hw hdvd)
  · intro hcond S hne
    refine (minExact_parts_iff h).2 ?_ S (List.Subset.refl S) hne
    intro f hf x _
    rcases hcond with rfl | hcond
    · exact (show ((2 : Nat) : Int) ∣ 2 ^ 32 by decide).mul_right _
    · obtain ⟨-, -, hb'⟩ := o.coefficients f
      have hlt : (x.toNat : Int) < 2 ^ 32 := by exact_mod_cast x.isLt
      have hzero := (hcond f hf).wraps hb' (Int.natCast_nonneg _) hlt
      rw [LshOptions.linear, hzero, mul_zero]
      exact dvd_zero _

/-- One group of the hash function `x ↦ 2 * x`, with the modulus of the usage text. -/
def doubling : LshOptions := ⟨1, 1, 1122941, [7, 11], [2], [0], false⟩

theorem doubling_loaded : doubling.Loaded 1122941 :=
  ⟨by norm_num, by decide, rfl, rfl⟩

theorem min_hash_exact_small : MinExact doubling [7, 11] := by
  refine ((min_hash_exact_iff doubling_loaded).2 [7, 11]).2 ?_ _ (List.Subset.refl _)
    (List.cons_ne_nil _ _)
  intro f hf x hx
  obtain rfl : f = 0 := Nat.lt_one_iff.1 hf
  have hlt : x.toNat < 12 := by
    rcases List.mem_pair.1 hx with rfl | rfl
    · decide
    · decide
  have hlinear : doubling.linear 0 x = 2 * x.toNat := add_zero _
  have hzero : doubling.linear 0 x / 2 ^ 32 = 0 := by
    rw [hlinear]
    omega
  rw [hzero, mul_zero]
  exact dvd_zero _

/-- The polynomial X^31, which wraps once. -/
theorem min_hash_wraps : (doubling.myLSH [0x80000000]).minHash [0x80000000] 1 0 = some [0] ∧
    doubling.linear 0 0x80000000 % doubling.lshseed.toInt ≠ 0 ∧
    ¬ MinExact doubling [0x80000000] := by
  have hmin : (doubling.myLSH [0x80000000]).minHash [0x80000000] 1 0 = some [0] := by decide
  have hne : doubling.linear 0 0x80000000 % doubling.lshseed.toInt ≠ 0 := by decide
  refine ⟨hmin, hne, fun hexact => ?_⟩
  obtain ⟨v, hv, hget⟩ := hexact 0 (by decide)
  obtain rfl := Option.some.inj (hmin.symm.trans hv)
  obtain ⟨min, hmin', ⟨x, hx, hval⟩, -⟩ := hget 0 (by decide)
  obtain rfl : (0 : POLY) = min := Option.some.inj hmin'
  obtain rfl := List.mem_singleton.1 hx
  exact hne hval

end MinHash

end XGossip
