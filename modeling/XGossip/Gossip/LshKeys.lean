import Mathlib.Data.Countable.Basic
import XGossip.Gossip.Lsh

namespace XGossip
set_option autoImplicit true

open Text

section Bands

variable {t : Lsh} {S : Sig}

/-- The object is made for the size of the signature, with at least `n` hash functions. -/
structure Lsh.Hashes (t : Lsh) (S : Sig) (n : Nat) : Prop where
  k : t.k = S.length
  nonempty : S ≠ []
  highest : t.highest ≠ 0
  randa : n ≤ t.randa.length
  randb : n ≤ t.randb.length

theorem Lsh.hashValue_lt (h : t.hashValue f x = some a) : a < t.highest := by
  rw [hashValue] at h
  obtain ⟨ra, -, h⟩ := Option.bind_eq_some_iff.1 h
  obtain ⟨rb, -, h⟩ := Option.bind_eq_some_iff.1 h
  simp only at h
  split at h
  · cases h
  · next hne =>
    obtain rfl := Option.some.inj h
    exact BitVec.umod_lt _ ((BitVec.pos_iff_ne_zero _).2 hne)

theorem Lsh.Hashes.min (h : t.Hashes S n) (hf : f < n) :
    ∃ v min, t.hashes S f = some v ∧ isMinimum v = some min ∧ min < t.highest := by
  obtain ⟨hash, heq⟩ := exists_hash h.highest (hf.trans_le h.randa) (hf.trans_le h.randb)
  have hne : S.map hash ≠ [] := by
    rw [ne_eq, List.map_eq_nil_iff]
    exact h.nonempty
  obtain ⟨min, hmin, hmem, -⟩ := isMinimum_spec hne
  obtain ⟨x, -, rfl⟩ := List.mem_map.1 hmem
  exact ⟨_, _, hashes_eq h.k hash heq, hmin, hashValue_lt (heq x)⟩

theorem Lsh.Hashes.minHash (h : t.Hashes S n) (hf : f + rows ≤ n) :
    ∃ v, t.minHash S rows f = some v ∧ v.length = rows ∧ ∀ a ∈ v, a < t.highest := by
  induction rows generalizing f with
  | zero => exact ⟨[], rfl, rfl, nofun⟩
  | succ rows ih =>
    obtain ⟨v, min, hv, hmin, hlt⟩ := h.min (f := f) (by omega)
    obtain ⟨w, hw, hlen, hwlt⟩ := ih (f := f + 1) (by omega)
    refine ⟨min :: w, ?_, by rw [List.length_cons, hlen], List.forall_mem_cons.2 ⟨hlt, hwlt⟩⟩
    rw [Lsh.minHash, hv, Option.bind_eq_bind, Option.bind_some, hmin, hw]
    rfl

def bandText (min_hash : List POLY) : List Char := min_hash.flatMap fun min => showNat min.toNat

/-- The number of groups that get an ID, of `n`. -/
def Lsh.bands (t : Lsh) (n : Nat) : Nat := if t.col ≠ 0 then min 1 n else n

/-- Every group that gets an ID has its minima and their text. -/
theorem Lsh.Hashes.preHash (h : t.Hashes S N) (hf : f + n * t.l.toNat ≤ N) :
    ∃ ts, t.preHash S n f = some ts ∧ ts.length = t.bands n ∧ ∀ i < t.bands n,
      ∃ v, t.minHash S t.l.toNat (f + i * t.l.toNat) = some v ∧ v.length = t.l.toNat ∧
        (∀ a ∈ v, a < t.highest) ∧ ts[i]? = some (bandText v) := by
  induction n generalizing f with
  | zero =>
    refine ⟨[], rfl, ?_, ?_⟩
    · simp [bands]
    · simp [bands]
  | succ n ih =>
    rw [Nat.add_mul, Nat.one_mul] at hf
    obtain ⟨v, hv, hlen, hlt⟩ := h.minHash (show f + t.l.toNat ≤ N by omega)
    by_cases hcol : t.col ≠ 0
    · refine ⟨[bandText v], ?_, ?_, ?_⟩
      · rw [Lsh.preHash, hv]
        simp only [Option.bind_eq_bind, Option.bind_some, if_pos hcol]
        rfl
      · rw [bands, if_pos hcol, List.length_singleton]
        omega
      · intro i hi
        obtain rfl : i = 0 := by
          simp only [bands, if_pos hcol] at hi
          omega
        exact ⟨v, by simpa using hv, hlen, hlt, rfl⟩
    · obtain ⟨ts, hts, htlen, hband⟩ := ih (f := f + t.l.toNat) (by omega)
      simp only [bands, if_neg hcol] at htlen hband ⊢
      refine ⟨bandText v :: ts, ?_, by rw [List.length_cons, htlen], ?_⟩
      · rw [Lsh.preHash, hv, hts]
        simp only [Option.bind_eq_bind, Option.bind_some, if_neg hcol]
        rfl
      · intro i hi
        cases i with
        | zero => exact ⟨v, by simpa using hv, hlen, hlt, rfl⟩
        | succ i =>
          obtain ⟨w, hw, hrest⟩ := hband i (by omega)
          refine ⟨w, ?_, hrest⟩
          rw [← hw]
          congr 1
          ring

theorem bandText_eq (v : List POLY) : bandText v = (v.map BitVec.toNat).flatMap showNat := by
  rw [bandText, List.flatMap_map]

theorem Lsh.Hashes.getHashCode (h : t.Hashes S N) (hm : t.m.toNat * t.l.toNat ≤ N)
    (compute_hash : List Char → ChordID) :
    ∃ ids, t.getHashCode compute_hash S = some ids ∧ ids.length = t.bands t.m.toNat ∧
      ∀ i < t.bands t.m.toNat, ∃ v, t.minHash S t.l.toNat (i * t.l.toNat) = some v ∧
        v.length = t.l.toNat ∧ (∀ a ∈ v, a < t.highest) ∧
          ids[i]? = some (compute_hash (bandText v)) := by
  obtain ⟨ts, hts, hlen, hband⟩ := h.preHash (f := 0) (n := t.m.toNat) (by omega)
  refine ⟨ts.map compute_hash, ?_, by rw [List.length_map, hlen], ?_⟩
  · rw [Lsh.getHashCode, hts]
    rfl
  · intro i hi
    obtain ⟨v, hv, hvlen, hlt, hget⟩ := hband i hi
    refine ⟨v, by simpa using hv, hvlen, hlt, ?_⟩
    rw [List.getElem?_map, hget, Option.map_some]

end Bands

section Identify

/-- The IDs of two signatures for a group are equal just if all minima of the group are. -/
def BandsIdentify (l m : Int) (col highest : BitVec 32) : Prop :=
  ∀ (compute_hash : List Char → ChordID) (irrnums : List POLY) (randa randb : List (BitVec 32))
    (S S' : Sig), Function.Injective compute_hash →
    (randa.length : Int) = l * m → (randb.length : Int) = l * m → S ≠ [] → S' ≠ [] →
      let t : Lsh := ⟨S.length, l, m, col, irrnums, randa, randb, highest⟩
      let t' : Lsh := ⟨S'.length, l, m, col, irrnums, randa, randb, highest⟩
      ∃ ids ids', t.getHashCode compute_hash S = some ids ∧
        t'.getHashCode compute_hash S' = some ids' ∧
        ids.length = t.bands m.toNat ∧ ids'.length = t.bands m.toNat ∧
        ∀ i < t.bands m.toNat, ∃ min_hash min_hash',
          t.minHash S l.toNat (i * l.toNat) = some min_hash ∧
          t'.minHash S' l.toNat (i * l.toNat) = some min_hash' ∧
          (ids[i]? = ids'[i]? ↔ min_hash = min_hash')

/-- Groups whose minima can be told apart in their text have IDs that identify them. -/
theorem bandsIdentify_of_distinguishes (hh : highest ≠ 0)
    (h : 1 ≤ m → Distinguishes l.toNat highest.toNat) : BandsIdentify l m col highest := by
  intro compute_hash irrnums randa randb S S' hinj ha hb hS hS' t t'
  have ht : t.Hashes S (m.toNat * l.toNat) := ⟨rfl, hS, hh, toNat_mul_le ha, toNat_mul_le hb⟩
  have ht' : t'.Hashes S' (m.toNat * l.toNat) := ⟨rfl, hS', hh, toNat_mul_le ha, toNat_mul_le hb⟩
  obtain ⟨ids, hids, hlen, hband⟩ := ht.getHashCode (le_refl _) compute_hash
  obtain ⟨ids', hids', hlen', hband'⟩ := ht'.getHashCode (le_refl _) compute_hash
  refine ⟨ids, ids', hids, hids', hlen, hlen', ?_⟩
  intro i hi
  obtain ⟨v, hv, hvlen, hvlt, hget⟩ := hband i hi
  obtain ⟨v', hv', hvlen', hvlt', hget'⟩ := hband' i hi
  refine ⟨v, v', hv, hv', ?_⟩
  rw [hget, hget', Option.some_inj, hinj.eq_iff]
  constructor
  · intro he
    rw [bandText_eq, bandText_eq] at he
    have hm : 1 ≤ m := by
      rw [Lsh.bands] at hi
      split at hi
      · omega
      · omega
    have hnat := h hm _ _ (by rw [List.length_map, hvlen]) (by rw [List.length_map, hvlen'])
      (List.forall_mem_map.2 hvlt) (List.forall_mem_map.2 hvlt') he
    exact List.map_injective_iff.2 (fun a b hab => BitVec.eq_of_toNat_eq hab) hnat
  · exact congrArg bandText

theorem Lsh.minHash_single {t : Lsh} {vals : List POLY} (hk : t.k = 1)
    (h : ∀ i (hi : i < vals.length), t.hashValue (f + i) x = some vals[i]) :
    t.minHash [x] vals.length f = some vals := by
  induction vals generalizing f with
  | nil => rfl
  | cons a vals ih =>
    have ha : t.hashValue f x = some a := h 0 (Nat.succ_pos _)
    have hrest := ih (f := f + 1) fun i hi => by
      rw [Nat.add_right_comm]
      exact h (i + 1) (Nat.succ_lt_succ hi)
    have hhashes : t.hashes [x] f = some [a] := by
      rw [Lsh.hashes, hk]
      simp [ha]
    have hmin : isMinimum [a] = some a := by simp [isMinimum]
    rw [List.length_cons, Lsh.minHash, hhashes, Option.bind_eq_bind, Option.bind_some, hmin, hrest]
    rfl

/-- Coefficients of hash functions that map 2 to the values `v` and 3 to the values `w`. -/
def sepA (v w : List POLY) : List (BitVec 32) := List.zipWith (fun a b => b - a) v w

def sepB (v w : List POLY) : List (BitVec 32) := List.zipWith (fun a b => a - 2 * (b - a)) v w

def sepLsh (l m : Int) (col highest : BitVec 32) (v w : List POLY) : Lsh where
  k := 1
  l := l
  m := m
  col := col
  irrnums := []
  randa := sepA v w ++ List.replicate ((l * m).toNat - l.toNat) 0
  randb := sepB v w ++ List.replicate ((l * m).toNat - l.toNat) 0
  highest := highest

variable {l m : Int} {col highest : BitVec 32} {v w : List POLY}

theorem length_sepLsh (col highest : BitVec 32) (hl : 1 ≤ l) (hm : 1 ≤ m)
    (hv : v.length = l.toNat) (hw : w.length = l.toNat) :
    ((sepLsh l m col highest v w).randa.length : Int) = l * m ∧
      ((sepLsh l m col highest v w).randb.length : Int) = l * m := by
  have hle : l ≤ l * m := le_mul_of_one_le_right (by omega) hm
  simp only [sepLsh, sepA, sepB, List.length_append, List.length_zipWith, hv, hw, Nat.min_self,
    List.length_replicate]
  omega

theorem hashValue_sep (hv : ∀ a ∈ v, a < highest) (hw : ∀ a ∈ w, a < highest)
    (hi : i < v.length) (hi' : i < w.length) :
    (sepLsh l m col highest v w).hashValue i 2 = some v[i] ∧
      (sepLsh l m col highest v w).hashValue i 3 = some w[i] := by
  have hra : (sepLsh l m col highest v w).randa[i]? = some (w[i] - v[i]) := by
    rw [sepLsh, List.getElem?_append_left (by simpa [sepA] using ⟨hi, hi'⟩)]
    simp [sepA, hi, hi']
  have hrb : (sepLsh l m col highest v w).randb[i]? = some (v[i] - 2 * (w[i] - v[i])) := by
    rw [sepLsh, List.getElem?_append_left (by simpa [sepB] using ⟨hi, hi'⟩)]
    simp [sepB, hi, hi']
  have hvi := hv _ (List.getElem_mem hi)
  have hwi := hw _ (List.getElem_mem hi')
  have hne : (sepLsh l m col highest v w).highest ≠ 0 := by
    rintro rfl
    exact absurd hvi BitVec.not_lt_zero
  have h2 : (w[i] - v[i]) * 2 + (v[i] - 2 * (w[i] - v[i])) = v[i] := by grind
  have h3 : (w[i] - v[i]) * 3 + (v[i] - 2 * (w[i] - v[i])) = w[i] := by grind
  constructor
  · simp only [Lsh.hashValue, hra, hrb, Option.bind_eq_bind, Option.bind_some, if_neg hne, h2]
    exact congrArg some (BitVec.umod_eq_of_lt hvi)
  · simp only [Lsh.hashValue, hra, hrb, Option.bind_eq_bind, Option.bind_some, if_neg hne, h3]
    exact congrArg some (BitVec.umod_eq_of_lt hwi)

theorem minHash_sep (l m : Int) (col : BitVec 32) (hlen : v.length = w.length)
    (hv : ∀ a ∈ v, a < highest) (hw : ∀ a ∈ w, a < highest) :
    (sepLsh l m col highest v w).minHash [2] v.length 0 = some v ∧
      (sepLsh l m col highest v w).minHash [3] w.length 0 = some w := by
  constructor
  · apply Lsh.minHash_single rfl
    intro i hi
    rw [Nat.zero_add]
    exact (hashValue_sep hv hw hi (hlen ▸ hi)).1
  · apply Lsh.minHash_single rfl
    intro i hi
    rw [Nat.zero_add]
    exact (hashValue_sep hv hw (hlen ▸ hi) hi).2

theorem exists_compute_hash : ∃ compute_hash : List Char → ChordID,
    Function.Injective compute_hash := by
  have hchar : Countable Char := Function.Injective.countable fun a b h => Char.toNat_inj.1 h
  exact exists_injective_nat (List Char)

/-- Hash functions can have any minima, so that minima with one text have to be equal. -/
theorem eq_of_bandText (hl : 1 ≤ l) (hm : 1 ≤ m) (hh : highest ≠ 0)
    (h : BandsIdentify l m col highest) (hvl : v.length = l.toNat) (hwl : w.length = l.toNat)
    (hv : ∀ a ∈ v, a < highest) (hw : ∀ a ∈ w, a < highest) (htext : bandText v = bandText w) :
    v = w := by
  obtain ⟨compute_hash, hinj⟩ := exists_compute_hash
  obtain ⟨ha, hb⟩ := length_sepLsh col highest hl hm hvl hwl
  obtain ⟨hv', hw'⟩ := minHash_sep l m col (hvl.trans hwl.symm) hv hw
  rw [hvl] at hv'
  rw [hwl] at hw'
  have hhash := fun x => Lsh.Hashes.getHashCode (t := sepLsh l m col highest v w) (S := [x])
    ⟨rfl, by simp, hh, toNat_mul_le ha, toNat_mul_le hb⟩ (le_refl _) compute_hash
  have hpos : 0 < (sepLsh l m col highest v w).bands m.toNat := by
    rw [Lsh.bands]
    split
    · omega
    · omega
  obtain ⟨ids, ids', hids, hids', -, -, hband⟩ := h compute_hash [] _ _ [2] [3] hinj ha hb
    (by simp) (by simp)
  obtain ⟨a, b, ha', hb', hiff⟩ := hband 0 hpos
  obtain ⟨is, his, -, hget⟩ := hhash 2
  obtain ⟨is', his', -, hget'⟩ := hhash 3
  obtain ⟨c, hc, -, -, hci⟩ := hget 0 hpos
  obtain ⟨d, hd, -, -, hdi⟩ := hget' 0 hpos
  rw [Nat.zero_mul] at ha' hb' hc hd
  obtain rfl : v = c := Option.some.inj (hv'.symm.trans hc)
  obtain rfl : w = d := Option.some.inj (hw'.symm.trans hd)
  obtain rfl : v = a := Option.some.inj (hv'.symm.trans ha')
  obtain rfl : w = b := Option.some.inj (hw'.symm.trans hb')
  obtain rfl : ids = is := Option.some.inj (hids.symm.trans his)
  obtain rfl : ids' = is' := Option.some.inj (hids'.symm.trans his')
  apply hiff.1
  rw [hci, hdi, htext]

theorem distinguishes_of_bandsIdentify (hl : 1 ≤ l) (hm : 1 ≤ m) (hh : highest ≠ 0)
    (h : BandsIdentify l m col highest) : Distinguishes l.toNat highest.toNat := by
  intro v w hv hw hvlt hwlt htext
  have hnat : ∀ u : List Nat, (∀ a ∈ u, a < highest.toNat) →
      (u.map (BitVec.ofNat 32)).map BitVec.toNat = u := by
    intro u hu
    rw [List.map_map]
    refine (List.map_congr_left fun a ha => ?_).trans (List.map_id u)
    exact (BitVec.toNat_ofNat ..).trans (Nat.mod_eq_of_lt ((hu a ha).trans highest.isLt))
  have hlt : ∀ u : List Nat, (∀ a ∈ u, a < highest.toNat) →
      ∀ a ∈ u.map (BitVec.ofNat 32), a < highest := by
    intro u hu a ha
    rw [BitVec.lt_def]
    apply hu
    rw [← hnat u hu]
    exact List.mem_map_of_mem ha
  have heq := eq_of_bandText hl hm hh h (by rw [List.length_map, hv])
    (by rw [List.length_map, hw]) (hlt v hvlt) (hlt w hwlt)
    (by rw [bandText_eq, bandText_eq, hnat v hvlt, hnat w hwlt, htext])
  rw [← hnat v hvlt, heq, hnat w hwlt]

/-- IDs identify the minima of their groups if there is no group, if a group has one hash function,
or if the hash values are too small for two texts to coincide. -/
theorem band_ids_iff (hl : 1 ≤ l) (hh : highest ≠ 0) : BandsIdentify l m col highest ↔
    m ≤ 0 ∨ l = 1 ∨ highest.toNat ≤ 10 ∨ l = 2 ∧ highest.toNat ≤ 11 := by
  have hiff := distinguishes_iff (l := l.toNat) (by omega) highest.toNat
  constructor
  · intro h
    by_cases hm : 1 ≤ m
    · have hd := hiff.1 (distinguishes_of_bandsIdentify hl hm hh h)
      omega
    · exact .inl (by omega)
  · intro h
    exact bandsIdentify_of_distinguishes hh fun hm => hiff.2 (by omega)

theorem band_ids_iff_one : BandsIdentify 1 4 0 1122941 ∧ ¬ BandsIdentify 2 4 0 1122941 := by
  constructor
  · exact (band_ids_iff (by decide) (by decide)).2 (.inr (.inl rfl))
  · rw [band_ids_iff (by decide) (by decide)]
    decide

/-- One group of two hash functions, one with the values 1 and 11 and one with 11 and 1. -/
def twoFuncs : Lsh := ⟨1, 2, 1, 0, [], [10, 1122931], [1122922, 31], 1122941⟩

theorem band_ids_collide : twoFuncs.minHash [2] 2 0 = some [1, 11] ∧
    twoFuncs.minHash [3] 2 0 = some [11, 1] ∧
      twoFuncs.preHash [2] 1 0 = some ["111".toList] ∧
        (fun compute_hash => twoFuncs.getHashCode compute_hash [2]) =
          (fun compute_hash => twoFuncs.getHashCode compute_hash [3]) ∧
            ¬ BandsIdentify 2 1 0 1122941 := by
  have h2 : twoFuncs.preHash [2] 1 0 = some ["111".toList] := by decide +kernel
  have h3 : twoFuncs.preHash [3] 1 0 = some ["111".toList] := by decide +kernel
  have hkeys : twoFuncs.preHash [2] twoFuncs.m.toNat 0 =
      twoFuncs.preHash [3] twoFuncs.m.toNat 0 := h2.trans h3.symm
  refine ⟨by decide +kernel, by decide +kernel, h2, ?_, ?_⟩
  · funext compute_hash
    rw [Lsh.getHashCode, Lsh.getHashCode, hkeys]
  · intro h
    exact not_distinguishes_two (by decide)
      (distinguishes_of_bandsIdentify (by decide) (by decide) (by decide) h)

end Identify

end XGossip
