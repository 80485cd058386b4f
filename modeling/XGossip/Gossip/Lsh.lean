import Mathlib.Data.List.Destutter
import XGossip.Index.Poly
import XGossip.Lib.Text

namespace XGossip
set_option autoImplicit true

open Text

/-- The fields of `lsh` that its hash codes depend on. -/
structure Lsh where
  /-- The number of elements in the signature. -/
  k : Nat
  /-- The number of independent hash functions in each group. -/
  l : Int
  /-- The number of groups. -/
  m : Int
  col : BitVec 32
  irrnums : List POLY
  randa : List (BitVec 32)
  randb : List (BitVec 32)
  highest : BitVec 32

section Code

/-- The loop over the signature for one element of the set: behind the first occurrence the `i`-th
one is multiplied by the `i`-th irreducible polynomial. -/
def uniqueLoop (irrnums : List POLY) (polNum : POLY) : Nat → List POLY → Option (List POLY)
  | _, [] => some []
  | count, p :: outputPols =>
    if p = polNum then do
      let p ←
        if count > 0 then (multiplyPoly [p] [← irrnums[count - 1]?])[0]? else some p
      return p :: (← uniqueLoop irrnums polNum (count + 1) outputPols)
    else do return p :: (← uniqueLoop irrnums polNum count outputPols)

def Lsh.getUniqueSet (t : Lsh) (inputPols : Sig) : Option Sig :=
  (inputPols.destutter (· ≠ ·)).foldlM (fun outputPols polNum =>
    uniqueLoop t.irrnums polNum 0 outputPols) inputPols

def isMinimum (v : List POLY) : Option POLY := do
  return v.foldl (fun v1 x => if x < v1 then x else v1) (← v[0]?)

/-- The value of the hash function `f`, in 32 bits; a division by zero and an index outside of its
vector give `none`. -/
def Lsh.hashValue (t : Lsh) (f : Nat) (x : POLY) : Option POLY := do
  let htmp := (← t.randa[f]?) * x + (← t.randb[f]?)
  if t.highest = 0 then none else return htmp % t.highest

/-- The values of a hash function on the first `k` elements of a signature. -/
def Lsh.hashes (t : Lsh) (S : Sig) (f : Nat) : Option (List POLY) :=
  (List.range t.k).mapM fun i => do t.hashValue f (← S[i]?)

/-- The minima of the `n` hash functions from `f` on. -/
def Lsh.minHash (t : Lsh) (S : Sig) : Nat → Nat → Option (List POLY)
  | 0, _ => some []
  | n + 1, f => do
    let min ← isMinimum (← t.hashes S f)
    return min :: (← minHash t S n (f + 1))

/-- The last `n` groups, the first of which begins with the hash function `f`; only one column is
needed if there is a column. The minima of a group are printed one behind the other. -/
def Lsh.preHash (t : Lsh) (S : Sig) : Nat → Nat → Option (List (List Char))
  | 0, _ => some []
  | n + 1, f => do
    let min_hash ← t.minHash S t.l.toNat f
    let temp := min_hash.flatMap fun min => showNat min.toNat
    if t.col ≠ 0 then return [temp]
    else return temp :: (← preHash t S n (f + t.l.toNat))

variable (compute_hash : List Char → ChordID)

def Lsh.getHashCode (t : Lsh) (S : Sig) : Option (List ChordID) := do
  return (← t.preHash S t.m.toNat 0).map compute_hash

/-- The options of the peer that locality sensitive hashing reads. -/
structure LshOptions where
  lfuncs : Int
  mgroups : Int
  lshseed : BitVec 32
  irrnums : List POLY
  hasha : List (BitVec 32)
  hashb : List (BitVec 32)
  uflag : Bool

def LshOptions.myLSH (o : LshOptions) (sig : Sig) : Lsh where
  k := sig.length
  l := o.lfuncs
  m := o.mgroups
  col := 0
  irrnums := o.irrnums
  randa := o.hasha
  randb := o.hashb
  highest := o.lshseed

def runLsh (o : LshOptions) (sig : Sig) : Option (List ChordID) := do
  let myLSH := o.myLSH sig
  let lshsig ← if o.uflag then myLSH.getUniqueSet sig else some sig
  let minhash ← myLSH.getHashCode compute_hash lshsig
  return minhash.mergeSort (· ≤ ·)

end Code

section Minimum

theorem foldl_min_spec (v1 : POLY) (v : List POLY) :
    v.foldl (fun v1 x => if x < v1 then x else v1) v1 ∈ v1 :: v ∧
      ∀ x ∈ v1 :: v, v.foldl (fun v1 x => if x < v1 then x else v1) v1 ≤ x := by
  induction v generalizing v1 with
  | nil => simp
  | cons y v ih =>
    obtain ⟨hmem, hle⟩ := ih (if y < v1 then y else v1)
    rw [List.foldl_cons]
    refine ⟨?_, ?_⟩
    · rcases List.mem_cons.1 hmem with h | h
      · rw [h]
        split <;> simp
      · exact List.mem_cons_of_mem _ (List.mem_cons_of_mem _ h)
    · have hhead := hle _ List.mem_cons_self
      intro x hx
      rcases List.mem_cons.1 hx with rfl | hx
      · refine BitVec.le_trans hhead ?_
        split
        · next h => exact BitVec.le_of_lt h
        · exact BitVec.le_refl _
      · rcases List.mem_cons.1 hx with rfl | hx
        · refine BitVec.le_trans hhead ?_
          split
          · exact BitVec.le_refl _
          · next h => exact BitVec.not_lt.1 h
        · exact hle x (List.mem_cons_of_mem _ hx)

theorem isMinimum_spec (h : v ≠ []) :
    ∃ min, isMinimum v = some min ∧ min ∈ v ∧ ∀ x ∈ v, min ≤ x := by
  cases v with
  | nil => exact (h rfl).elim
  | cons y v =>
    obtain ⟨hmem, hle⟩ := foldl_min_spec y (y :: v)
    refine ⟨_, rfl, ?_, fun x hx => hle x (List.mem_cons_of_mem _ hx)⟩
    rcases List.mem_cons.1 hmem with h | h
    · exact List.mem_cons.2 (.inl h)
    · exact h

theorem isMinimum_of_same (hv : v ≠ []) (h : ∀ x, x ∈ v ↔ x ∈ w) :
    ∃ min, isMinimum v = some min ∧ isMinimum w = some min := by
  have hw : w ≠ [] := by
    obtain ⟨y, hy⟩ := List.exists_mem_of_ne_nil v hv
    exact List.ne_nil_of_mem ((h y).1 hy)
  obtain ⟨a, ha, hmema, hlea⟩ := isMinimum_spec hv
  obtain ⟨b, hb, hmemb, hleb⟩ := isMinimum_spec hw
  have hab : a = b := BitVec.le_antisymm (hlea b ((h b).2 hmemb)) (hleb a ((h a).1 hmema))
  exact ⟨a, ha, hab ▸ hb⟩

end Minimum

section Set

variable {t t' : Lsh} {S S' : Sig}

theorem mapM_range (F : α → Option β) (l : List α) :
    (List.range l.length).mapM (fun i => l[i]?.bind F) = l.mapM F := by
  induction l with
  | nil => rfl
  | cons a l ih =>
    rw [List.length_cons, List.range_succ_eq_map, List.mapM_cons, List.mapM_map, List.mapM_cons,
      ← ih]
    rfl

theorem Lsh.exists_hash (h : t.highest ≠ 0) (ha : f < t.randa.length) (hb : f < t.randb.length) :
    ∃ hash : POLY → POLY, ∀ x, t.hashValue f x = some (hash x) := by
  refine ⟨fun x => (t.randa[f] * x + t.randb[f]) % t.highest, fun x => ?_⟩
  simp only [hashValue, List.getElem?_eq_getElem ha, List.getElem?_eq_getElem hb, if_neg h]
  rfl

theorem Lsh.hashes_eq (hk : t.k = S.length) (hash : POLY → POLY)
    (h : ∀ x, t.hashValue f x = some (hash x)) : t.hashes S f = some (S.map hash) := by
  rw [hashes, hk]
  refine (mapM_range (t.hashValue f) S).trans ?_
  rw [funext h]
  exact List.mapM_pure

/-- Two signatures with the same elements, each with the object for its size; there are at least as
many hash functions as the groups have. -/
structure Lsh.SameSet (t t' : Lsh) (S S' : Sig) : Prop where
  k : t.k = S.length
  k' : t'.k = S'.length
  fields : t' = { t with k := t'.k }
  nonempty : S ≠ []
  mem : ∀ p, p ∈ S ↔ p ∈ S'
  highest : t.highest ≠ 0
  randa : t.m.toNat * t.l.toNat ≤ t.randa.length
  randb : t.m.toNat * t.l.toNat ≤ t.randb.length

theorem Lsh.SameSet.hashValue (h : t.SameSet t' S S') (f : Nat) (x : POLY) :
    t'.hashValue f x = t.hashValue f x := by
  rw [h.fields]
  rfl

theorem Lsh.SameSet.min (h : t.SameSet t' S S') (hf : f < t.m.toNat * t.l.toNat) :
    ∃ v v' min, t.hashes S f = some v ∧ t'.hashes S' f = some v' ∧ isMinimum v = some min ∧
      isMinimum v' = some min := by
  obtain ⟨hash, heq⟩ := exists_hash h.highest (hf.trans_le h.randa) (hf.trans_le h.randb)
  have heq' : ∀ x, t'.hashValue f x = some (hash x) := fun x => (h.hashValue f x).trans (heq x)
  have hsame : ∀ y, y ∈ S.map hash ↔ y ∈ S'.map hash := by
    intro y
    simp only [List.mem_map, h.mem]
  have hne : S.map hash ≠ [] := by
    rw [ne_eq, List.map_eq_nil_iff]
    exact h.nonempty
  obtain ⟨min, hmin, hmin'⟩ := isMinimum_of_same hne hsame
  exact ⟨_, _, min, hashes_eq h.k hash heq, hashes_eq h.k' hash heq', hmin, hmin'⟩

theorem Lsh.SameSet.minHash (h : t.SameSet t' S S') (hf : f + n ≤ t.m.toNat * t.l.toNat) :
    ∃ v, t.minHash S n f = some v ∧ t'.minHash S' n f = some v := by
  induction n generalizing f with
  | zero => exact ⟨[], rfl, rfl⟩
  | succ n ih =>
    obtain ⟨v, v', min, hv, hv', hmin, hmin'⟩ := h.min (f := f) (by omega)
    obtain ⟨w, hw, hw'⟩ := ih (f := f + 1) (by omega)
    refine ⟨min :: w, ?_, ?_⟩
    · rw [Lsh.minHash, hv, Option.bind_eq_bind, Option.bind_some, hmin, hw]
      rfl
    · rw [Lsh.minHash, hv', Option.bind_eq_bind, Option.bind_some, hmin', hw']
      rfl

/-- The printed groups, the first of which begins with the function `f`. -/
theorem Lsh.SameSet.preHash (h : t.SameSet t' S S')
    (hf : f + n * t.l.toNat ≤ t.m.toNat * t.l.toNat) :
    ∃ ts, t.preHash S n f = some ts ∧ t'.preHash S' n f = some ts := by
  have hl : t'.l = t.l := by rw [h.fields]
  have hcol : t'.col = t.col := by rw [h.fields]
  induction n generalizing f with
  | zero => exact ⟨[], rfl, rfl⟩
  | succ n ih =>
    rw [Nat.add_mul, Nat.one_mul] at hf
    obtain ⟨v, hv, hv'⟩ := h.minHash (f := f) (n := t.l.toNat) (by omega)
    obtain ⟨ts, hts, hts'⟩ := ih (f := f + t.l.toNat) (by omega)
    by_cases hc : t.col = 0
    · refine ⟨(v.flatMap fun min => showNat min.toNat) :: ts, ?_, ?_⟩
      · rw [Lsh.preHash, hv, hts]
        simp [hc]
      · rw [Lsh.preHash, hl, hv', hts', hcol]
        simp [hc]
    · refine ⟨[v.flatMap fun min => showNat min.toNat], ?_, ?_⟩
      · rw [Lsh.preHash, hv]
        simp only [Option.bind_eq_bind, Option.bind_some, ne_eq, hc, not_false_iff, if_true]
        rfl
      · rw [Lsh.preHash, hl, hv', hcol]
        simp only [Option.bind_eq_bind, Option.bind_some, ne_eq, hc, not_false_iff, if_true]
        rfl

theorem toNat_mul_le {n : Nat} {l m : Int} (h : (n : Int) = l * m) : m.toNat * l.toNat ≤ n := by
  have hle : ((m.toNat * l.toNat : Nat) : Int) ≤ n := by
    rcases le_or_gt m 0 with hm | hm
    · rw [Int.toNat_of_nonpos hm, Nat.zero_mul]
      exact Int.natCast_nonneg _
    · rcases le_or_gt l 0 with hl | hl
      · rw [Int.toNat_of_nonpos hl, Nat.mul_zero]
        exact Int.natCast_nonneg _
      · rw [h, Int.natCast_mul, Int.toNat_of_nonneg hm.le, Int.toNat_of_nonneg hl.le, Int.mul_comm]
  exact Int.ofNat_le.1 hle

theorem LshOptions.myLSH_sameSet {o : LshOptions} (hseed : o.lshseed ≠ 0)
    (ha : (o.hasha.length : Int) = o.lfuncs * o.mgroups)
    (hb : (o.hashb.length : Int) = o.lfuncs * o.mgroups) (hne : S ≠ [])
    (hS : ∀ p, p ∈ S ↔ p ∈ S') : (o.myLSH S).SameSet (o.myLSH S') S S' :=
  ⟨rfl, rfl, rfl, hne, hS, hseed, toNat_mul_le ha, toNat_mul_le hb⟩

theorem runLsh_eq (compute_hash : List Char → ChordID) {o : LshOptions} (hu : o.uflag = false)
    (h : (o.myLSH S).preHash S (o.myLSH S).m.toNat 0 = some ts) :
    runLsh compute_hash o S = some ((ts.map compute_hash).mergeSort (· ≤ ·)) := by
  have hcode : (o.myLSH S).getHashCode compute_hash S = some (ts.map compute_hash) := by
    rw [Lsh.getHashCode, h]
    rfl
  rw [runLsh, hu]
  simp only [Bool.false_eq_true, if_false, Option.bind_eq_bind, Option.bind_some, hcode]
  rfl

/-- The team IDs of a signature depend only on its set of elements: not on their order, and not on
how often they occur. -/
theorem team_ids_of_set (compute_hash : List Char → ChordID) (o : LshOptions)
    (hu : o.uflag = false) (hseed : o.lshseed ≠ 0)
    (ha : (o.hasha.length : Int) = o.lfuncs * o.mgroups)
    (hb : (o.hashb.length : Int) = o.lfuncs * o.mgroups) (hne : S ≠ [])
    (hS : ∀ p, p ∈ S ↔ p ∈ S') :
    ∃ ids, runLsh compute_hash o S = some ids ∧ runLsh compute_hash o S' = some ids := by
  have hsame := LshOptions.myLSH_sameSet hseed ha hb hne hS
  obtain ⟨ts, hts, hts'⟩ := hsame.preHash (f := 0) (n := o.mgroups.toNat) (Nat.zero_add _).le
  exact ⟨_, runLsh_eq compute_hash hu hts, runLsh_eq compute_hash hu hts'⟩

def fourFuncs : LshOptions := ⟨2, 2, 1122941, [7, 11], [3, 5, 7, 9], [1, 2, 4, 8], false⟩

theorem team_ids_of_repeated : ∃ ids,
    runLsh digitsValue fourFuncs [11, 7, 11] = some ids ∧
      runLsh digitsValue fourFuncs [7, 11] = some ids := by
  have hS : ∀ p : POLY, p ∈ [11, 7, 11] ↔ p ∈ [7, 11] := by
    intro p
    simp only [List.mem_cons, List.not_mem_nil, or_false]
    tauto
  exact team_ids_of_set digitsValue fourFuncs rfl (by decide) rfl rfl (by simp) hS

end Set

end XGossip
