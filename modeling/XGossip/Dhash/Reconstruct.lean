import Mathlib.Data.List.GetD
import Mathlib.Tactic.LinearCombination
import XGossip.Dhash.Dispersal

namespace XGossip
set_option autoImplicit true

namespace Ida

open Elimination Finset

section Reduction

variable {m : Nat} {to' a : List (List Nat)} {T : ℕ → ℕ → ZMod field}

def entry (to' : List (List Nat)) (i c : Nat) : ZMod field := ((to'.getD i []).getD c 0 : Nat)

/-- A matrix of `m` rows of `n` elements of the field. -/
structure Shaped (m n : Nat) (to' : List (List Nat)) : Prop where
  length : to'.length = m
  row : ∀ i < m, (to'.getD i []).length = n
  lt : ∀ i < m, ∀ c < n, (to'.getD i []).getD c 0 < field

/-- The matrix of the code and the one of the field are the same where the code has one. -/
structure Agree (m : Nat) (to' : List (List Nat)) (T : ℕ → ℕ → ZMod field) : Prop where
  shaped : Shaped m (2 * m) to'
  entry : ∀ i < m, ∀ c < 2 * m, entry to' i c = T i c

theorem getD_map {l : List Nat} {f : Nat → Nat} (h : c < l.length) :
    (l.map f).getD c 0 = f (l.getD c 0) := by
  simp [List.getD_eq_getElem?_getD, h]

theorem getD_zipWith {l l' : List Nat} {f : Nat → Nat → Nat} (h : c < l.length)
    (h' : c < l'.length) : (l.zipWith f l').getD c 0 = f (l.getD c 0) (l'.getD c 0) := by
  simp [List.getD_eq_getElem?_getD, h, h']

theorem getD_mapIdx {l : List (List Nat)} {f : Nat → List Nat → List Nat} (h : i < l.length) :
    (l.mapIdx f).getD i [] = f i (l.getD i []) := by
  simp [List.getD_eq_getElem?_getD, h]

theorem getD_drop (l : List Nat) (n c : Nat) : (l.drop n).getD c 0 = l.getD (n + c) 0 := by
  simp [List.getD_eq_getElem?_getD]

/-- One step of the code is one step of the elimination; it ends where there is no pivot. -/
theorem reduceRow_spec (h : Agree m to' T) (hr : r < m) :
    (T r r = 0 → reduceRow to' r = none) ∧
    (T r r ≠ 0 → ∃ to'', reduceRow to' r = some to'' ∧ Agree m to'' (eliminate T r)) := by
  obtain ⟨⟨hlen, hrow, hlt⟩, hentry⟩ := h
  have hpivot := hentry r hr r (by omega)
  have hzero : (to'.getD r []).getD r 0 = 0 ↔ T r r = 0 := by
    rw [← hpivot, entry, cast_eq_zero_iff (hlt r hr r (by omega))]
  rw [reduceRow]
  refine ⟨fun h0 => if_pos (hzero.2 h0), fun hne => ?_⟩
  rw [if_neg (mt hzero.1 hne)]
  let pivot := (to'.getD r []).map (DIV · ((to'.getD r []).getD r 0))
  have hplen : pivot.length = 2 * m := (List.length_map _).trans (hrow r hr)
  have hpget : ∀ c < 2 * m, pivot.getD c 0 = DIV ((to'.getD r []).getD c 0) ((to'.getD r []).getD r 0) :=
    fun c hc => getD_map (by rw [hrow r hr]; exact hc)
  have hpcast : ∀ c < 2 * m, (pivot.getD c 0 : ZMod field) = T r c / T r r := fun c hc => by
    rw [hpget c hc, cast_DIV, ← hentry r hr c hc, ← hpivot]
    rfl
  have hplt : ∀ c < 2 * m, pivot.getD c 0 < field := fun c hc => hpget c hc ▸ DIV_lt _ _
  have hget := fun {i : Nat} (hi : i < m) => getD_mapIdx (l := to') (i := i)
    (f := fun r₁ row₁ => if r₁ = r then pivot
      else row₁.zipWith (fun a b => SUB a (MUL (DIV (row₁.getD r 0) (pivot.getD r 0)) b)) pivot)
    (by omega)
  refine ⟨_, rfl, ⟨by rw [List.length_mapIdx, hlen], fun i hi => ?_, fun i hi c hc => ?_⟩,
    fun i hi c hc => ?_⟩
  · refine (congrArg List.length (hget hi)).trans ?_
    split
    · exact hplen
    · rw [List.length_zipWith, hrow i hi, hplen, Nat.min_self]
  · refine (congrArg (fun l : List Nat => l.getD c 0) (hget hi)).trans_lt ?_
    split
    · exact hplt c hc
    · rw [getD_zipWith (by rw [hrow i hi]; exact hc) (by rw [hplen]; exact hc)]
      exact SUB_lt _ _
  · refine (congrArg (fun l : List Nat => ((l.getD c 0 : Nat) : ZMod field)) (hget hi)).trans ?_
    by_cases hir : i = r
    · subst hir
      rw [if_pos rfl, eliminate_self, hpcast c hc]
    · have hone : T r r / T r r = 1 := div_self hne
      rw [if_neg hir, eliminate_ne hir,
        getD_zipWith (by rw [hrow i hi]; exact hc) (by rw [hplen]; exact hc),
        cast_SUB (hlt i hi c hc) (MUL_lt _ _), cast_MUL, cast_DIV, hpcast r (by omega), hone, div_one,
        hpcast c hc, ← hentry i hi c hc, ← hentry i hi r (by omega)]
      rfl

theorem reduceRow_fold {A : ℕ → ℕ → ZMod field} (h : Agree m to' (augment m A)) (hn : n ≤ m) :
    (Pivots m A n → ∃ to'', (List.range n).foldlM reduceRow to' = some to'' ∧
      Agree m to'' (reduce m A n)) ∧
    (¬ Pivots m A n → (List.range n).foldlM reduceRow to' = none) := by
  induction n with
  | zero => exact ⟨fun _ => ⟨to', rfl, h⟩, fun hno => (hno fun r hr => absurd hr (by omega)).elim⟩
  | succ n ih =>
    obtain ⟨hyes, hno⟩ := ih (by omega)
    rw [List.range_succ, List.foldlM_append]
    by_cases hpre : Pivots m A n
    · obtain ⟨to₁, h₁, hagree⟩ := hyes hpre
      obtain ⟨hnone, hsome⟩ := reduceRow_spec hagree (show n < m by omega)
      simp only [h₁, Option.bind_eq_bind, Option.bind_some, List.foldlM_cons, List.foldlM_nil,
        Option.pure_def, Option.bind_fun_some]
      rw [pivots_succ]
      exact ⟨fun hp => hsome hp.2, fun hp => hnone (by_contra fun h0 => hp ⟨hpre, h0⟩)⟩
    · rw [hno hpre]
      exact ⟨fun hp => (hpre (hp.mono (Nat.le_succ n))).elim, fun _ => rfl⟩

/-- A matrix is inverted if and only if its leading parts are regular. -/
theorem minvert_spec (h : Shaped m m a) :
    (¬ Regular m (entry a) → minvert m a = none) ∧
    (Regular m (entry a) → ∃ a_inv, minvert m a = some a_inv ∧ Shaped m m a_inv ∧
      ∀ i < m, ∀ c < m, entry a_inv i c = reduce m (entry a) m i (m + c)) := by
  have htake : a.take m = a := List.take_of_length_le (Nat.le_of_eq h.length)
  have hget := fun {i : Nat} (hi : i < m) => getD_mapIdx (l := a) (i := i)
    (f := fun r row => row ++ (List.range m).map fun c => if r = c then 1 else 0)
    (by rw [h.length]; exact hi)
  have helt : ∀ i < m, ∀ c < 2 * m,
      ((a.getD i []) ++ (List.range m).map fun c => if i = c then 1 else 0).getD c 0 =
        if c < m then (a.getD i []).getD c 0 else if i = c - m then 1 else 0 := by
    intro i hi c hc
    by_cases hcm : c < m
    · rw [List.getD_append _ _ _ _ (by rw [h.row i hi]; exact hcm), if_pos hcm]
    · rw [List.getD_append_right _ _ _ _ (by rw [h.row i hi]; omega), if_neg hcm, h.row i hi,
        List.getD_eq_getElem?_getD, List.getElem?_map, List.getElem?_range (by omega)]
      rfl
  have hagree : Agree m (a.mapIdx fun r row =>
      row ++ (List.range m).map fun c => if r = c then 1 else 0) (augment m (entry a)) := by
    refine ⟨⟨by rw [List.length_mapIdx, h.length], fun i hi => ?_, fun i hi c hc => ?_⟩,
      fun i hi c hc => ?_⟩
    · rw [hget hi, List.length_append, h.row i hi, List.length_map, List.length_range, Nat.two_mul]
    · rw [hget hi, helt i hi c hc]
      split
      · next hcm => exact h.lt i hi c hcm
      · split <;> decide
    · rw [entry, hget hi, helt i hi c hc, augment]
      split
      · rfl
      · split <;> simp
  obtain ⟨hyes, hno⟩ := reduceRow_fold hagree (Nat.le_refl m)
  rw [pivots_iff] at hyes hno
  rw [minvert, htake]
  refine ⟨fun hr => by simp [hno hr], fun hr => ?_⟩
  obtain ⟨to'', hto, ⟨⟨hlen, hrow, hlt⟩, hentry⟩⟩ := hyes hr
  have hdrop : ∀ i < m, (to''.map (·.drop m)).getD i [] = (to''.getD i []).drop m := fun i hi => by
    simp [List.getD_eq_getElem?_getD, hlen, hi]
  have hdget : ∀ i < m, ∀ c, ((to''.map (·.drop m)).getD i []).getD c 0 =
      (to''.getD i []).getD (m + c) 0 := fun i hi c => by
    rw [hdrop i hi, getD_drop]
  refine ⟨to''.map (·.drop m), by simp [hto], ⟨by rw [List.length_map, hlen], fun i hi => ?_,
    fun i hi c hc => ?_⟩, fun i hi c hc => ?_⟩
  · rw [hdrop i hi, List.length_drop, hrow i hi]
    omega
  · rw [hdget i hi]
    exact hlt i hi (m + c) (by omega)
  · rw [entry, hdget i hi]
    exact hentry i hi (m + c) (by omega)

end Reduction

section Decode

variable {m : Nat} {block : List Byte} {vs a_inv : List (List Nat)}

theorem cast_foldl {c row : List Nat} (h : c.length = row.length) (b : Nat) :
    (((c.zip row).foldl (fun b ca => ADD b (MUL ca.1 ca.2)) b : Nat) : ZMod field) =
      b + ∑ j ∈ range row.length, ((row.getD j 0 : Nat) : ZMod field) * (c.getD j 0 : Nat) := by
  induction c generalizing row b with
  | nil =>
    obtain rfl := List.length_eq_zero_iff.1 h.symm
    simp
  | cons x c ih =>
    cases row with
    | nil => simp at h
    | cons y row =>
      rw [List.zip_cons_cons, List.foldl_cons, ih (by simpa using h), cast_ADD, cast_MUL,
        List.length_cons, sum_range_succ']
      simp only [List.getD_cons_succ, List.getD_cons_zero]
      ring

theorem foldl_lt {l : List (Nat × Nat)} (h : b < field) :
    l.foldl (fun b ca => ADD b (MUL ca.1 ca.2)) b < field := by
  induction l generalizing b with
  | nil => exact h
  | cons ca l ih => exact ih (ADD_lt _ _)

theorem decodeOne_eq {c row : List Nat} (h : c.length = row.length)
    (hsum : ∑ j ∈ range row.length, ((row.getD j 0 : Nat) : ZMod field) * (c.getD j 0 : Nat) =
      wordAt block pos) :
    decodeOne c row = some [block.getD pos 0, block.getD (pos + 1) 0] := by
  have hword := wordAt_lt block pos
  have hb : (c.zip row).foldl (fun b ca => ADD b (MUL ca.1 ca.2)) 0 = wordAt block pos := by
    refine eq_of_cast (foldl_lt field_pos) (hword.trans (by decide)) ?_
    rw [cast_foldl h, hsum, Nat.cast_zero, zero_add]
  have h₁ := (block.getD pos 0).isLt
  have h₂ := (block.getD (pos + 1) 0).isLt
  rw [decodeOne, hb, if_neg (by omega)]
  congr 2
  · apply BitVec.eq_of_toNat_eq
    rw [BitVec.toNat_ofNat, Nat.shiftRight_eq_div_pow, wordAt]
    omega
  · congr 1
    apply BitVec.eq_of_toNat_eq
    rw [BitVec.toNat_ofNat, wordAt]
    omega

theorem mapM_of_getD {l : List α} {f : α → Option β} {g : Nat → β} {d : α}
    (h : ∀ i < l.length, f (l.getD i d) = some (g i)) :
    l.mapM f = some ((List.range l.length).map g) := by
  induction l generalizing g with
  | nil => rfl
  | cons a l ih =>
    have ha := h 0 (Nat.succ_pos _)
    have hl := ih (g := fun i => g (i + 1)) fun i hi => h (i + 1) (Nat.succ_lt_succ hi)
    rw [List.getD_cons_zero] at ha
    rw [List.mapM_cons, ha, hl, List.length_cons, List.range_succ_eq_map, List.map_cons,
      List.map_map]
    rfl

/-- Rows of pairs, one after the other, are all elements in order. -/
theorem flatten_pairs (f : Nat → α) (l m : Nat) :
    ((List.range l).map fun k => (List.range m).map fun i =>
      [f (k * 2 * m + 2 * i), f (k * 2 * m + 2 * i + 1)]).flatten.flatten =
      (List.range (l * (2 * m))).map f := by
  have hrow : ∀ k n, ((List.range n).map fun i =>
      [f (k + 2 * i), f (k + 2 * i + 1)]).flatten = (List.range (2 * n)).map fun i => f (k + i) := by
    intro k n
    induction n with
    | zero => rfl
    | succ n ih =>
      rw [List.range_succ, List.map_append, List.flatten_append, ih,
        show 2 * (n + 1) = 2 * n + 1 + 1 by ring, List.range_succ, List.range_succ]
      simp [Nat.add_assoc]
  induction l with
  | zero => simp
  | succ l ih =>
    rw [List.range_succ, List.map_append, List.flatten_append, List.flatten_append, ih,
      List.map_singleton, List.flatten_singleton, hrow,
      show (l + 1) * (2 * m) = l * (2 * m) + 2 * m by ring, List.range_add, List.map_append,
      List.map_map]
    congr 2
    funext i
    rw [Function.comp_apply]
    congr 1
    ring

/-- The data and the inverse of the matrix give the block back, with zeros behind it. -/
theorem decode_eq (hvs : ∀ v ∈ vs, IsRow m v) (hlen : vs.length = m) (hinv : Shaped m m a_inv)
    (hregular : Regular m (entry vs))
    (hentry : ∀ i < m, ∀ c < m, entry a_inv i c = reduce m (entry vs) m i (m + c)) (l : Nat)
    (hl : l = (block.length + 2 * m - 1) / (2 * m)) :
    decode a_inv (vs.map (dataOf m block)) l =
      some ((List.range (l * (2 * m))).map fun i => block.getD i 0) := by
  have hrow : ∀ k < l, (do
      a_inv.mapM (decodeOne (← (vs.map (dataOf m block)).mapM (·[k]?)))) =
        some ((List.range m).map fun i => [block.getD (k * 2 * m + 2 * i) 0,
          block.getD (k * 2 * m + 2 * i + 1) 0]) := by
    intro k hk
    have hcol : (vs.map (dataOf m block)).mapM (·[k]?) =
        some (vs.map fun v => encoded block v (k * 2 * m) 0) := by
      rw [mapM_of_forall (g := fun data : List Nat => data.getD k 0), List.map_map]
      · congr 1
        refine List.map_congr_left fun v _ => ?_
        rw [Function.comp_apply, dataOf, List.getD_eq_getElem?_getD, List.getElem?_map,
          List.getElem?_range (by omega)]
        rfl
      · intro data hdata
        obtain ⟨v, -, rfl⟩ := List.mem_map.1 hdata
        have hlt : k < (dataOf m block v).length := by rw [length_dataOf]; omega
        rw [List.getElem?_eq_getElem hlt, List.getD_eq_getElem _ _ hlt]
    rw [hcol]
    simp only [Option.bind_eq_bind, Option.bind_some]
    have hmap := mapM_of_getD (l := a_inv) (d := [])
      (f := decodeOne (vs.map fun v => encoded block v (k * 2 * m) 0))
      (g := fun i => [block.getD (k * 2 * m + 2 * i) 0, block.getD (k * 2 * m + 2 * i + 1) 0])
      (fun i hi => ?_)
    · rw [hmap, hinv.length]
    · rw [hinv.length] at hi
      refine decodeOne_eq (by rw [List.length_map, hlen, hinv.row i hi]) ?_
      rw [hinv.row i hi, ← reduce_solves (pivots_iff.2 hregular)
        (fun c => (wordAt block (k * 2 * m + 2 * c) : ZMod field)) hi]
      refine sum_congr rfl fun j hj => ?_
      have hj' : j < vs.length := by rw [hlen]; exact mem_range.1 hj
      have hget : (vs.map fun v => encoded block v (k * 2 * m) 0).getD j 0 =
          encoded block (vs.getD j []) (k * 2 * m) 0 := by
        simp [List.getD_eq_getElem?_getD, hj']
      have hjrow : IsRow m (vs.getD j []) := by
        rw [List.getD_eq_getElem _ _ hj']
        exact hvs _ (List.getElem_mem hj')
      rw [← hentry i hi j (mem_range.1 hj), hget, cast_encoded (.inl rfl), hjrow.length, Nat.cast_zero,
        zero_add]
      rfl
  rw [decode, mapM_of_forall fun k hk => hrow k (List.mem_range.1 hk)]
  simp only [Option.bind_eq_bind, Option.bind_some]
  exact congrArg some (flatten_pairs (fun i => block.getD i 0) l m)

theorem take_getD (block : List Byte) (h : block.length ≤ n) :
    ((List.range n).map fun i => block.getD i 0).take block.length = block := by
  refine List.ext_getElem (by simp [h]) fun i h₁ h₂ => ?_
  rw [List.getElem_take, List.getElem_map, List.getElem_range, List.getD_eq_getElem _ _ h₂]

end Decode

section Shuffle

theorem length_swapAt (l : List α) (i r : Nat) : (swapAt l i r).length = l.length := by
  rw [swapAt]
  split
  · rw [List.length_set, List.length_set]
  · rfl

theorem mem_swapAt {l : List α} (h : b ∈ swapAt l i r) : b ∈ l := by
  rw [swapAt] at h
  split at h
  · next a₁ a₂ h₁ h₂ =>
    rcases List.mem_or_eq_of_mem_set h with h | rfl
    · rcases List.mem_or_eq_of_mem_set h with h | rfl
      · exact h
      · exact List.mem_of_getElem? h₂
    · exact List.mem_of_getElem? h₁
  · exact h

theorem swapAt_map (f : α → β) (l : List α) (i r : Nat) :
    swapAt (l.map f) i r = (swapAt l i r).map f := by
  rw [swapAt, swapAt, List.getElem?_map, List.getElem?_map]
  cases l[i]? with
  | none => rfl
  | some a =>
    cases l[r]? with
    | none => rfl
    | some b => simp [List.map_set]

theorem randomShuffle_spec (rand : Nat → Nat) (l : List α) :
    (randomShuffle rand l).length = l.length ∧ (∀ b ∈ randomShuffle rand l, b ∈ l) ∧
      ∀ {β : Type} (f : α → β), randomShuffle rand (l.map f) = (randomShuffle rand l).map f := by
  have hfold : ∀ (is : List Nat) (l : List α),
      (is.foldl (fun frags i => swapAt frags i (rand i % frags.length)) l).length = l.length ∧
      (∀ b ∈ is.foldl (fun frags i => swapAt frags i (rand i % frags.length)) l, b ∈ l) ∧
      ∀ {β : Type} (f : α → β),
        is.foldl (fun frags i => swapAt frags i (rand i % frags.length)) (l.map f) =
          (is.foldl (fun frags i => swapAt frags i (rand i % frags.length)) l).map f := by
    intro is
    induction is with
    | nil => exact fun l => ⟨rfl, fun _ h => h, fun f => rfl⟩
    | cons i is ih =>
      intro l
      obtain ⟨hlen, hmem, hmap⟩ := ih (swapAt l i (rand i % l.length))
      refine ⟨hlen.trans (length_swapAt ..), fun b hb => mem_swapAt (hmem b hb), fun f => ?_⟩
      rw [List.foldl_cons, List.foldl_cons, List.length_map, swapAt_map, hmap]
  obtain ⟨hlen, hmem, hmap⟩ := hfold (List.range l.length) l
  refine ⟨hlen, hmem, fun f => ?_⟩
  rw [randomShuffle, List.length_map, hmap]
  rfl

end Shuffle

section Theorem

variable {m : Nat} {block : List Byte} {vs words : List (List Nat)}

theorem mapM_genFrag (hfits : Fits m block) (h : words.mapM (drawRow m) = some vs) :
    words.mapM (genFrag m block) = some (vs.map (fragOf m block)) ∧ ∀ v ∈ vs, IsRow m v := by
  induction words generalizing vs with
  | nil =>
    obtain rfl : [] = vs := Option.some.inj h
    exact ⟨rfl, by simp⟩
  | cons w words ih =>
    rw [List.mapM_cons] at h
    obtain ⟨v, hv, h⟩ := Option.bind_eq_some_iff.1 h
    obtain ⟨vs', hvs', h⟩ := Option.bind_eq_some_iff.1 h
    obtain rfl : v :: vs' = vs := Option.some.inj h
    obtain ⟨hfrags, hrows⟩ := ih hvs'
    rw [List.mapM_cons, genFrag_eq hfits hv, hfrags, List.forall_mem_cons]
    exact ⟨rfl, drawRow_isRow hv, hrows⟩

theorem shaped_of_isRow (h : ∀ v ∈ vs, IsRow m v) (hlen : vs.length = m) : Shaped m m vs := by
  have hrow : ∀ i < m, IsRow m (vs.getD i []) := fun i hi => by
    rw [List.getD_eq_getElem _ _ (by omega)]
    exact h _ (List.getElem_mem _)
  refine ⟨hlen, fun i hi => (hrow i hi).length, fun i hi c hc => ?_⟩
  rw [List.getD_eq_getElem _ _ (by rw [(hrow i hi).length]; exact hc)]
  exact (hrow i hi).lt _ (List.getElem_mem _)

/-- Fragments of a block never fail to be made. However they are shuffled, putting them together
again gives the block, if there are enough of them and the rows that come first have no pivot
missing, and nothing at all otherwise. -/
theorem ida_reconstruct (hfits : Fits m block) (hvs : words.mapM (drawRow m) = some vs) :
    ∃ frags, words.mapM (genFrag m block) = some frags ∧ ∀ rand,
      ((m ≤ vs.length ∧ Regular m (entry ((randomShuffle rand vs).take m))) →
        reconstruct rand frags = some (some block)) ∧
      (¬ (m ≤ vs.length ∧ Regular m (entry ((randomShuffle rand vs).take m))) →
        reconstruct rand frags = some none) := by
  obtain ⟨hfrags, hrows⟩ := mapM_genFrag hfits hvs
  refine ⟨_, hfrags, fun rand => ?_⟩
  have hpos := hfits.pos
  obtain ⟨hlen, hmem, hmap⟩ := randomShuffle_spec rand vs
  have hus : ∀ u ∈ randomShuffle rand vs, IsRow m u := fun u hu => hrows u (hmem u hu)
  simp only [reconstruct, List.length_map, hmap]
  rw [← hlen]
  generalize randomShuffle rand vs = us at hus
  cases us with
  | nil => exact ⟨fun h => absurd h.1 (Nat.not_le.2 hpos), fun _ => rfl⟩
  | cons u us =>
    have hheader := readHeader (m := m) hfits u
    rw [if_neg (by simp), List.map_cons, List.getElem?_cons_zero]
    simp only [Option.bind_eq_bind, Option.bind_some, hheader]
    rw [if_neg (by omega), ← List.map_cons]
    by_cases hm : (u :: us).length < m
    · rw [if_pos hm]
      exact ⟨fun h => absurd h.1 (Nat.not_le.2 hm), fun _ => rfl⟩
    · rw [if_neg hm]
      have hmle := Nat.not_lt.1 hm
      obtain ⟨blocksize, hcollect, hsize⟩ := collect_fragOf (i := 0) (n := m) hfits hus (.inl rfl)
        (by omega)
      rw [Nat.zero_add] at hcollect
      have hblocksize := hsize.resolve_left (by omega)
      have htlen : ((u :: us).take m).length = m := by rw [List.length_take, Nat.min_eq_left hmle]
      have htrows : ∀ v ∈ (u :: us).take m, IsRow m v := fun v hv =>
        hus v (List.mem_of_mem_take hv)
      obtain ⟨hno, hyes⟩ := minvert_spec (shaped_of_isRow htrows htlen)
      have hstart : collect m block.length m 0 ⟨(u :: us).map (fragOf m block), [], [], 0⟩ = _ :=
        hcollect
      simp only [hstart, Option.bind_some, List.length_map, if_neg hm, htlen, Nat.lt_irrefl, if_false]
      refine ⟨fun h => ?_, fun h => ?_⟩
      · obtain ⟨a_inv, ha, hshaped, hentry⟩ := hyes h.2
        have hdecode := decode_eq htrows htlen hshaped h.2 hentry blocksize hblocksize
        have hroom : block.length ≤ blocksize * (2 * m) := by
          have hdiv := Nat.div_add_mod (block.length + 2 * m - 1) (2 * m)
          have hmod := Nat.mod_lt (block.length + 2 * m - 1) (show 0 < 2 * m by omega)
          rw [hblocksize, Nat.mul_comm]
          omega
        simp only [ha, hdecode, Option.bind_some, List.length_map, List.length_range]
        rw [if_neg (Nat.not_lt.2 hroom), take_getD block hroom]
        rfl
      · rw [hno fun hr => h ⟨hmle, hr⟩]
        rfl

/-- Two of three fragments, one of them drawn with a zero in between, give back a block of odd
length. -/
theorem ida_reconstruct_two : ∃ frags,
    [[5, 7], [0, 11, 13], [2, 3]].mapM (genFrag 2 [1, 239, 3]) = some frags ∧
      reconstruct (fun i => i + 1) frags = some (some [1, 239, 3]) := by
  have hfits : Fits 2 [1, 239, 3] := ⟨by decide, by decide, by decide⟩
  have hrows : [[5, 7], [0, 11, 13], [2, 3]].mapM (drawRow 2) =
    some [[5, 7], [11, 13], [2, 3]] := rfl
  obtain ⟨frags, hfrags, hrec⟩ := ida_reconstruct hfits hrows
  refine ⟨frags, hfrags, (hrec _).1 ⟨by decide, fun k hk u hu hdot c => ?_⟩⟩
  have htake : (randomShuffle (fun i => i + 1) [[5, 7], [11, 13], [2, 3]]).take 2 =
    [[5, 7], [2, 3]] := rfl
  rw [htake] at hdot
  have hrow : ∀ i, dot 2 (entry [[5, 7], [2, 3]] i) u =
      entry [[5, 7], [2, 3]] i 0 * u 0 + entry [[5, 7], [2, 3]] i 1 * u 1 := fun i => by
    rw [dot, sum_range_succ, sum_range_one]
  have h₀ : 5 * u 0 + 7 * u 1 = 0 := by
    have := hdot 0 (Nat.zero_le k)
    rw [hrow] at this
    simpa [entry] using this
  have h₁ : k = 1 → 2 * u 0 + 3 * u 1 = 0 := fun hk => by
    have := hdot 1 (Nat.le_of_eq hk.symm)
    rw [hrow] at this
    simpa [entry] using this
  obtain ⟨hu₀, hu₁⟩ : u 0 = 0 ∧ u 1 = 0 := by
    rcases (show k = 0 ∨ k = 1 by omega) with rfl | rfl
    · have h1 : u 1 = 0 := hu 1 Nat.one_pos
      have h5 : (5 : ZMod field) ≠ 0 := by decide
      rw [h1, mul_zero, add_zero] at h₀
      exact ⟨(mul_eq_zero.1 h₀).resolve_left h5, h1⟩
    · have h2 := h₁ rfl
      exact ⟨by linear_combination 3 * h₀ - 7 * h2, by linear_combination 5 * h2 - 2 * h₀⟩
  rcases (show c = 0 ∨ c = 1 ∨ k < c by omega) with rfl | rfl | hc
  · exact hu₀
  · exact hu₁
  · exact hu c hc

end Theorem

end Ida

end XGossip
