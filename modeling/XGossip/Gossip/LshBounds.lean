import XGossip.Gossip.Lsh
import XGossip.Index.Client
import XGossip.Lib.Rounding

namespace XGossip
set_option autoImplicit true

open Rounding Text

/-- What stops the code: an index outside of its vector or a division by zero. -/
inductive LshFault
  | outside
  | division
deriving DecidableEq

section Code

/-- An element of a vector; an index below 0 is far behind its end. -/
def access (v : List α) (i : Int) : Except LshFault α :=
  if i < 0 then .error .outside else v[i.toNat]?.elim (.error .outside) .ok

/-- `(double)a*b` for two numbers with the product `x`. -/
def roundProduct (x : Int) : Int := x.sign * roundBits 53 x.natAbs

/-- `size() + 1`, as an `int` -/
def randRange (size : Nat) : Int := (BitVec.ofNat 32 (size + 1)).toInt

/-- `int((double)range*rand()/(RAND_MAX + 1.0))`; the division by a power of 2 is exact. -/
def randIndex (range : Int) (rand : Nat) : Int := (roundProduct (range * rand)).tdiv (RAND_MAX + 1)

/-- The constructor, with the number that `rand` returns. -/
def newLsh (kc lc mc : Int) (nc colc : BitVec 32) (irrnumbers : List POLY)
    (hasha hashb : List (BitVec 32)) (rand : Nat) : Except LshFault (POLY × Lsh) := do
  let selected_poly ← access irrnumbers (randIndex (randRange irrnumbers.length) rand)
  return (selected_poly, ⟨kc.toNat, lc, mc, colc, irrnumbers, hasha, hashb, nc⟩)

namespace Lsh

def hashValueE (t : Lsh) (f : Nat) (x : POLY) : Except LshFault POLY := do
  let htmp := (← access t.randa f) * x + (← access t.randb f)
  if t.highest = 0 then throw .division else return htmp % t.highest

def hashesE (t : Lsh) (S : Sig) (f : Nat) : Except LshFault (List POLY) :=
  (List.range t.k).mapM fun (i : Nat) => do t.hashValueE f (← access S i)

def isMinimumE (v : List POLY) : Except LshFault POLY := do
  return v.foldl (fun v1 x => if x < v1 then x else v1) (← access v 0)

def minHashE (t : Lsh) (S : Sig) : Nat → Nat → Except LshFault (List POLY)
  | 0, _ => .ok []
  | n + 1, f => do
    let min ← isMinimumE (← t.hashesE S f)
    return min :: (← minHashE t S n (f + 1))

def preHashE (t : Lsh) (S : Sig) : Nat → Nat → Except LshFault (List (List Char))
  | 0, _ => .ok []
  | n + 1, f => do
    let min_hash ← t.minHashE S t.l.toNat f
    let temp := min_hash.flatMap fun min => showNat min.toNat
    if t.col ≠ 0 then return [temp]
    else return temp :: (← preHashE t S n (f + t.l.toNat))

/-- `getHashCode` with its faults. -/
def getHashCodeE (compute_hash : List Char → ChordID) (t : Lsh) (S : Sig) :
    Except LshFault (List ChordID) := do
  return (← t.preHashE S t.m.toNat 0).map compute_hash

end Lsh

/-- The size of the signature is passed on as an `int`. -/
def LshOptions.newLsh (o : LshOptions) (sig : Sig) (rand : Nat) : Except LshFault (POLY × Lsh) :=
  XGossip.newLsh (BitVec.ofNat 32 sig.length).toInt o.lfuncs o.mgroups o.lshseed 0 o.irrnums
    o.hasha o.hashb rand

/-- The signature that `readquery` makes from its words in the file. -/
def querySig (buf : List POLY) : Sig := (buf.filter (· ≠ 1)).mergeSort (· ≤ ·)

end Code

section Faults

def AllInside (result : Except LshFault α) : Prop := result ≠ .error .outside

theorem allInside_ok (a : α) : AllInside (.ok a) := nofun

theorem AllInside.bind {result : Except LshFault α} (h : AllInside result)
    (hf : ∀ a, result = .ok a → AllInside (f a)) : AllInside (result >>= f) := by
  cases result with
  | error e =>
    intro he
    exact h (congrArg _ (Except.error.inj he))
  | ok a => exact hf a rfl

theorem access_inside_iff {v : List α} : AllInside (access v i) ↔ 0 ≤ i ∧ i < v.length := by
  rw [access]
  split
  · next h => exact ⟨fun hin => (hin rfl).elim, fun hle => by omega⟩
  · next h =>
    cases hget : v[i.toNat]? with
    | none =>
      have hlen := List.getElem?_eq_none_iff.1 hget
      exact ⟨fun hin => (hin rfl).elim, fun hle => by omega⟩
    | some a =>
      obtain ⟨hlen, -⟩ := List.getElem?_eq_some_iff.1 hget
      exact ⟨fun _ => ⟨by omega, by omega⟩, fun _ => allInside_ok a⟩

theorem access_cases (v : List α) (i : Int) :
    (∃ a, access v i = .ok a) ∨ access v i = .error .outside := by
  rw [access]
  split
  · exact .inr rfl
  · cases v[i.toNat]? with
    | none => exact .inr rfl
    | some a => exact .inl ⟨a, rfl⟩

theorem inside_access {v : List α} {i : Nat} (h : i < v.length) : AllInside (access v i) :=
  access_inside_iff.2 ⟨Int.natCast_nonneg i, Int.ofNat_lt.2 h⟩

theorem mapM_inside {F : α → Except LshFault β} {l : List α} (h : ∀ a ∈ l, AllInside (F a)) :
    AllInside (l.mapM F) := by
  induction l with
  | nil => exact allInside_ok []
  | cons a l ih =>
    rw [List.mapM_cons]
    apply (h a List.mem_cons_self).bind
    intro b _
    apply (ih fun c hc => h c (List.mem_cons_of_mem a hc)).bind
    intro bs _
    exact allInside_ok (b :: bs)

theorem length_of_mapM {F : α → Except LshFault β} {l : List α} (h : l.mapM F = .ok v) :
    v.length = l.length := by
  induction l generalizing v with
  | nil =>
    obtain rfl := Except.ok.inj h
    rfl
  | cons a l ih =>
    rw [List.mapM_cons] at h
    cases ha : F a with
    | error e =>
      rw [ha] at h
      cases h
    | ok b =>
      cases hl : l.mapM F with
      | error e =>
        rw [ha, hl] at h
        cases h
      | ok bs =>
        rw [ha, hl] at h
        obtain rfl := Except.ok.inj h
        rw [List.length_cons, List.length_cons, ih hl]

end Faults

section HashCode

variable {t : Lsh} {S : Sig}

/-- There are as many elements as the object was made for, and `n` hash functions. -/
structure Lsh.HasData (t : Lsh) (S : Sig) (n : Nat) : Prop where
  k : t.k ≤ S.length
  randa : n ≤ t.randa.length
  randb : n ≤ t.randb.length

theorem Lsh.HasData.hashValueE (h : t.HasData S n) (hf : f < n) (x : POLY) :
    AllInside (t.hashValueE f x) := by
  apply (inside_access (hf.trans_le h.randa)).bind
  intro a _
  apply (inside_access (hf.trans_le h.randb)).bind
  intro b _
  split
  · nofun
  · exact allInside_ok _

theorem Lsh.HasData.hashesE (h : t.HasData S n) (hf : f < n) : AllInside (t.hashesE S f) := by
  apply mapM_inside
  intro i hi
  apply (inside_access ((List.mem_range.1 hi).trans_le h.k)).bind
  intro x _
  exact h.hashValueE hf x

theorem isMinimumE_inside (h : v ≠ []) : AllInside (Lsh.isMinimumE v) := by
  apply (inside_access (i := 0) (List.length_pos_of_ne_nil h)).bind
  intro a _
  exact allInside_ok _

theorem Lsh.HasData.minHashE (h : t.HasData S n) (hf : f + rows ≤ n) (hk : 0 < t.k ∨ rows = 0) :
    AllInside (t.minHashE S rows f) := by
  induction rows generalizing f with
  | zero => exact allInside_ok []
  | succ rows ih =>
    have hpos := hk.resolve_right (Nat.succ_ne_zero rows)
    apply (h.hashesE (f := f) (by omega)).bind
    intro v hv
    have hlen := length_of_mapM hv
    have hne : v ≠ [] := by
      rintro rfl
      rw [List.length_nil, List.length_range] at hlen
      omega
    apply (isMinimumE_inside hne).bind
    intro min _
    apply (ih (f := f + 1) (by omega) (.inl hpos)).bind
    intro mins _
    exact allInside_ok _

theorem Lsh.HasData.preHashE (h : t.HasData S N) (hf : f + n * t.l.toNat ≤ N)
    (hk : 0 < t.k ∨ t.l.toNat = 0) : AllInside (t.preHashE S n f) := by
  induction n generalizing f with
  | zero => exact allInside_ok []
  | succ n ih =>
    rw [Nat.add_mul, Nat.one_mul] at hf
    apply (h.minHashE (f := f) (by omega) hk).bind
    intro min_hash _
    simp only
    split
    · exact allInside_ok _
    · apply (ih (f := f + t.l.toNat) (by omega)).bind
      intro temps _
      exact allInside_ok _

theorem Lsh.preHashE_outside (hk : t.k = 0) (hl : 0 < t.l.toNat) :
    t.preHashE S (n + 1) f = .error .outside := by
  obtain ⟨rows, hrows⟩ := Nat.exists_eq_succ_of_ne_zero hl.ne'
  have hnone : t.hashesE S f = .ok [] := by
    rw [hashesE, hk]
    rfl
  rw [preHashE, hrows, minHashE, hnone]
  rfl

theorem Lsh.HasData.getHashCodeE_iff (h : t.HasData S (t.m.toNat * t.l.toNat))
    (compute_hash : List Char → ChordID) : AllInside (t.getHashCodeE compute_hash S) ↔
      0 < t.k ∨ t.l ≤ 0 ∨ t.m ≤ 0 := by
  constructor
  · intro hin
    by_contra hno
    obtain ⟨n, hn⟩ := Nat.exists_eq_succ_of_ne_zero (show t.m.toNat ≠ 0 by omega)
    apply hin
    rw [getHashCodeE, hn, preHashE_outside (by omega) (by omega)]
    rfl
  · intro hok
    have hpre : AllInside (t.preHashE S t.m.toNat 0) := by
      by_cases hm : t.m ≤ 0
      · rw [Int.toNat_of_nonpos hm]
        exact allInside_ok []
      · exact h.preHashE (Nat.zero_add _).le (by omega)
    apply hpre.bind
    intro texts _
    exact allInside_ok _

end HashCode

section Option

variable {t : Lsh} {S : Sig}

theorem toOption_bind (result : Except ε α) (f : α → Except ε β) :
    (result >>= f).toOption = result.toOption >>= fun a => (f a).toOption := by
  cases result with
  | error e => rfl
  | ok a => rfl

theorem toOption_mapM {F : α → Except ε β} {G : α → Option β} (h : ∀ a, (F a).toOption = G a)
    (l : List α) : (l.mapM F).toOption = l.mapM G := by
  induction l with
  | nil => rfl
  | cons a l ih =>
    rw [List.mapM_cons, List.mapM_cons, toOption_bind, h]
    simp only [toOption_bind, ih]
    rfl

theorem toOption_access (v : List α) (i : Nat) : (access v i).toOption = v[i]? := by
  rw [access, if_neg (by omega), Int.toNat_natCast]
  cases v[i]? with
  | none => rfl
  | some a => rfl

theorem toOption_hashValueE (f : Nat) (x : POLY) :
    (t.hashValueE f x).toOption = t.hashValue f x := by
  simp only [Lsh.hashValueE, Lsh.hashValue, toOption_bind, toOption_access]
  congr 1
  funext a
  congr 1
  funext b
  split
  · rfl
  · rfl

theorem toOption_hashesE (f : Nat) : (t.hashesE S f).toOption = t.hashes S f := by
  apply toOption_mapM
  intro i
  simp only [toOption_bind, toOption_access, toOption_hashValueE]

theorem toOption_isMinimumE (v : List POLY) : (Lsh.isMinimumE v).toOption = isMinimum v := by
  rw [Lsh.isMinimumE, toOption_bind]
  exact congrArg (· >>= _) (toOption_access v 0)

theorem toOption_minHashE (n f : Nat) : (t.minHashE S n f).toOption = t.minHash S n f := by
  induction n generalizing f with
  | zero => rfl
  | succ n ih =>
    simp only [Lsh.minHashE, Lsh.minHash, toOption_bind, toOption_hashesE, toOption_isMinimumE, ih]
    rfl

theorem toOption_preHashE (n f : Nat) : (t.preHashE S n f).toOption = t.preHash S n f := by
  induction n generalizing f with
  | zero => rfl
  | succ n ih =>
    simp only [Lsh.preHashE, Lsh.preHash, toOption_bind, toOption_minHashE]
    congr 1
    funext min_hash
    split
    · rfl
    · rw [toOption_bind, ih]
      rfl

theorem toOption_getHashCodeE (compute_hash : List Char → ChordID) :
    (t.getHashCodeE compute_hash S).toOption = t.getHashCode compute_hash S := by
  rw [Lsh.getHashCodeE, Lsh.getHashCode, toOption_bind, toOption_preHashE]
  rfl

end Option

section Draw

/-- The product of the range and the random number, as a double, is so small that the quotient is an
index: below the size or, for a range that is negative as an `int`, above -1. -/
def DrawFits (size rand : Nat) : Prop :=
  let x := (randRange size * rand).natAbs
  x + halfPlace 53 x < (if randRange size < 0 then 1 else size) * 2 ^ 31

instance : Decidable (DrawFits size rand) := inferInstanceAs (Decidable (_ < _))

theorem randRange_bounds (size : Nat) : (randRange size).natAbs ≤ 2 ^ 31 := by
  have hlt := (BitVec.ofNat 32 (size + 1)).toInt_lt
  have hle := (BitVec.ofNat 32 (size + 1)).le_toInt
  rw [randRange]
  omega

theorem roundBits_product (hx : x < 2 ^ 62) (c : Nat) :
    roundBits 53 x < c * 2 ^ 31 ↔ x + halfPlace 53 x < c * 2 ^ 31 := by
  apply roundBits_lt_iff
  have hlost : lost 53 x ≤ 9 := by
    rw [lost]
    rcases Nat.eq_zero_or_pos x with rfl | hpos
    · simp
    · have hlog := (Nat.log2_lt hpos.ne').2 hx
      omega
  have hpow : 2 * 2 ^ lost 53 x ∣ 2 ^ 31 := by
    rw [← Nat.pow_succ']
    exact Nat.pow_dvd_pow 2 (by omega)
  exact hpow.trans (Nat.dvd_mul_left _ c)

theorem product_lt (size : Nat) (hr : rand ≤ RAND_MAX) :
    (randRange size * rand).natAbs < 2 ^ 62 := by
  have hmax : rand < 2 ^ 31 := Nat.lt_of_le_of_lt hr (by decide)
  rw [Int.natAbs_mul, Int.natAbs_natCast]
  calc (randRange size).natAbs * rand ≤ 2 ^ 31 * rand :=
        Nat.mul_le_mul_right _ (randRange_bounds size)
    _ < 2 ^ 31 * 2 ^ 31 := Nat.mul_lt_mul_of_pos_left hmax (by decide)
    _ = 2 ^ 62 := by norm_num

theorem roundProduct_of_nonneg (h : 0 ≤ x) : roundProduct x = roundBits 53 x.natAbs := by
  rcases h.eq_or_lt with rfl | hpos
  · rfl
  · rw [roundProduct, Int.sign_eq_one_of_pos hpos, one_mul]

theorem roundProduct_of_nonpos (h : x ≤ 0) : roundProduct x = -roundBits 53 x.natAbs := by
  rcases h.eq_or_lt with rfl | hneg
  · rfl
  · rw [roundProduct, Int.sign_eq_neg_one_of_neg hneg, neg_one_mul]

theorem randIndex_iff (size : Nat) (hr : rand ≤ RAND_MAX) :
    (0 ≤ randIndex (randRange size) rand ∧ randIndex (randRange size) rand < size) ↔
      DrawFits size rand := by
  have hround := roundBits_product (product_lt size hr)
  have hmax : ((RAND_MAX : Int) + 1) = (2 ^ 31 : Nat) := by decide
  rw [DrawFits, randIndex, hmax]
  by_cases hneg : randRange size < 0
  · have hsize : 0 < size := by
      by_contra h0
      obtain rfl : size = 0 := by omega
      exact absurd hneg (by decide)
    rw [if_pos hneg, ← hround, roundProduct_of_nonpos (by nlinarith), Int.neg_tdiv,
      ← Int.ofNat_tdiv]
    have hdiv := Nat.div_eq_zero_iff_lt (x := roundBits 53 (randRange size * rand).natAbs)
      (show 0 < 2 ^ 31 by decide)
    omega
  · rw [if_neg hneg, ← hround, roundProduct_of_nonneg (by nlinarith), ← Int.ofNat_tdiv]
    have hdiv := Nat.div_lt_iff_lt_mul (x := roundBits 53 (randRange size * rand).natAbs)
      (y := size) (show 0 < 2 ^ 31 by decide)
    omega

theorem drawFits_iff (hsize : size + 1 < 2 ^ 22) (hr : rand ≤ RAND_MAX) :
    DrawFits size rand ↔ 2 ^ 31 < (size + 1) * (2 ^ 31 - rand) := by
  have hrange : randRange size = (size + 1 : Nat) := by
    rw [randRange, BitVec.toInt_eq_toNat_of_lt, BitVec.toNat_ofNat, Nat.mod_eq_of_lt (by omega)]
    rw [BitVec.toNat_ofNat, Nat.mod_eq_of_lt (by omega)]
    omega
  have hmax : rand < 2 ^ 31 := Nat.lt_of_le_of_lt hr (by decide)
  have habs : (randRange size * rand).natAbs = (size + 1) * rand := by
    rw [hrange, Int.natAbs_mul, Int.natAbs_natCast, Int.natAbs_natCast]
  have hsmall : (size + 1) * rand < 2 ^ 53 :=
    calc (size + 1) * rand ≤ (size + 1) * 2 ^ 31 := Nat.mul_le_mul_left _ hmax.le
      _ < 2 ^ 22 * 2 ^ 31 := Nat.mul_lt_mul_of_pos_right hsize (by decide)
      _ = 2 ^ 53 := by norm_num
  have hnonneg : ¬ randRange size < 0 := by
    rw [hrange]
    omega
  rw [DrawFits, habs, if_neg hnonneg, halfPlace_of_lt (by decide) hsmall, Nat.mul_sub]
  omega

end Draw

section Peer

variable (compute_hash : List Char → ChordID) (o : LshOptions)

/-- The object of a peer for a signature, and the IDs of `S`: the signature itself or the set that
was made of it. -/
def lshE (sig S : Sig) (rand : Nat) : Except LshFault (List ChordID) := do
  let (_, myLSH) ← o.newLsh sig rand
  myLSH.getHashCodeE compute_hash S

/-- All accesses are inside if the random number fits and there is an element, or no function to
find its minimum for. -/
theorem lsh_inside_iff (hr : rand ≤ RAND_MAX)
    (ha : (o.hasha.length : Int) = o.lfuncs * o.mgroups)
    (hb : (o.hashb.length : Int) = o.lfuncs * o.mgroups) (hS : S.length = sig.length) :
    AllInside (lshE compute_hash o sig S rand) ↔ DrawFits o.irrnums.length rand ∧
      (0 < (BitVec.ofNat 32 sig.length).toInt ∨ o.lfuncs ≤ 0 ∨ o.mgroups ≤ 0) := by
  rw [← randIndex_iff _ hr, ← access_inside_iff, lshE, LshOptions.newLsh, newLsh]
  rcases access_cases o.irrnums (randIndex (randRange o.irrnums.length) rand) with ⟨a, ha'⟩ | ha'
  · have hdata : Lsh.HasData ⟨(BitVec.ofNat 32 sig.length).toInt.toNat, o.lfuncs, o.mgroups, 0,
        o.irrnums, o.hasha, o.hashb, o.lshseed⟩ S (o.mgroups.toNat * o.lfuncs.toNat) := by
      refine ⟨?_, toNat_mul_le ha, toNat_mul_le hb⟩
      have hle := BitVec.toInt_eq_toNat_cond (BitVec.ofNat 32 sig.length)
      rw [BitVec.toNat_ofNat] at hle
      have hmod := Nat.mod_le sig.length (2 ^ 32)
      simp only
      split at hle
      · omega
      · omega
    rw [ha']
    simp only [allInside_ok, true_and]
    refine (hdata.getHashCodeE_iff compute_hash).trans (or_congr_left ?_)
    simp only
    omega
  · rw [ha']
    exact ⟨fun h => (h rfl).elim, fun h => (h.1 rfl).elim⟩

/-- One group of one hash function and one irreducible polynomial. -/
def oneFunc : LshOptions := ⟨1, 1, 1122941, [7], [3], [1], false⟩

theorem lsh_inside_iff_one : AllInside (lshE digitsValue oneFunc [7] [7] 5) := by
  refine (lsh_inside_iff digitsValue oneFunc (by decide) rfl rfl rfl).2 ⟨?_, .inl (by decide)⟩
  exact (drawFits_iff (by decide) (by decide)).2 (by decide)

/-- The upper half of the random numbers chooses a second polynomial. A signature with the element 1
only becomes empty when it is read. -/
theorem lsh_outside : 2 ^ 30 ≤ RAND_MAX ∧
    lshE digitsValue oneFunc [7] [7] (2 ^ 30) = .error .outside ∧ querySig [1] = [] ∧
      lshE digitsValue oneFunc (querySig [1]) (querySig [1]) 5 = .error .outside := by
  have hempty : querySig [1] = [] := by simp [querySig]
  refine ⟨by decide, rfl, hempty, ?_⟩
  rw [hempty]
  rfl

end Peer

end XGossip
