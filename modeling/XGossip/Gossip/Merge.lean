import Mathlib.Data.List.Induction
import Mathlib.Tactic.Ring
import XGossip.Gossip.Lists

namespace XGossip
set_option autoImplicit true

def half (v : ℚ × ℚ) : ℚ × ℚ := (v.1 / 2, v.2 / 2)

theorem half_add_half (v : ℚ × ℚ) : half v + half v = v := by
  simp only [half, Prod.mk_add_mk, add_halves]

theorem effective_of_mem {m : MapType ℚ} (h : m.find? s = some v) : effective m s = v := by
  simp [effective, h]

theorem effective_of_not_mem {m : MapType ℚ} (h : m.find? s = none)
    (hd : m.find? dummysig = some v) : effective m s = v := by
  simp [effective, h, hd]

theorem WellFormedList.dummysig_mem {m : MapType ℚ} (h : WellFormedList vanilla m) :
    dummysig ∈ m.keys := by
  obtain ⟨w, hw⟩ := h.dummy
  rw [SortedMap.mem_keys_iff, hw]
  rfl

theorem WellFormedList.dummysig_lt {m : MapType ℚ} (h : WellFormedList vanilla m)
    (hs : s ∈ m.keys) (hh : s ≠ hldsig) (hd : s ≠ dummysig) : SigLt dummysig s := by
  have hf := h.front
  cases vanilla with
  | true => exact SortedMap.lt_of_begin? hf hs hd
  | false =>
    have hlt := SortedMap.lt_of_begin? hf.1 hs hh
    have hle := SortedMap.next?_le hf.2 hs hlt
    by_contra hn
    exact hd (SortedMap.eq_of_not_lt hle hn)

theorem WellFormedList.initCursor_eq {m : MapType ℚ} (h : WellFormedList vanilla m) :
    initCursor vanilla m = some ⟨m, m.next? dummysig⟩ := by
  have hf := h.front
  cases vanilla with
  | true => simp_all [initCursor]
  | false => simp_all [initCursor]

theorem WellFormedList.addend_eq {m : MapType ℚ} (h : WellFormedList vanilla m)
    (hk : m.next? b ≠ some k → k ∉ m.keys) :
    (Cursor.mk m (m.next? b)).addend k = some (effective m k) := by
  rw [Cursor.addend]
  split
  · next hi =>
    have hm := (SortedMap.mem_keys_iff _ _).1 (SortedMap.mem_of_next? hi).1
    obtain ⟨v, hv⟩ := Option.isSome_iff_exists.1 hm
    rw [hv, effective_of_mem hv]
  · next hi =>
    have hn := (SortedMap.find?_eq_none_iff _ _).2 (hk hi)
    obtain ⟨w, hw⟩ := h.dummy
    rw [hw, effective_of_not_mem hn hw]

theorem WellFormedList.find_dummysig {m : MapType ℚ} (h : WellFormedList vanilla m) :
    m.find? dummysig = some (effective m dummysig) := by
  obtain ⟨w, hw⟩ := h.dummy
  rw [effective_of_mem hw, hw]

structure IsMinsig (citr : List Cursor) (k : Sig) : Prop where
  mem : ∃ c ∈ citr, c.itr = some k
  le : ∀ c ∈ citr, ∀ j, c.itr = some j → ¬ SigLt j k

theorem IsMinsig.not_all (h : IsMinsig citr k) : ¬ citr.all (fun c => c.itr.isNone) = true := by
  obtain ⟨c, hc, hk⟩ := h.mem
  intro hall
  simpa [hk] using List.all_eq_true.1 hall c hc

theorem IsMinsig.cons_none (h : IsMinsig citr k) (hc : c.itr = none) :
    IsMinsig (citr ++ [c]) k := by
  obtain ⟨⟨d, hd, hk⟩, hle⟩ := h
  refine ⟨⟨d, List.mem_append_left _ hd, hk⟩, ?_⟩
  intro e he j hj
  rcases List.mem_append.1 he with he | he
  · exact hle e he j hj
  · rw [List.mem_singleton.1 he, hc] at hj
    cases hj

theorem minsigStep_isMinsig {citr : List Cursor} {m : Option Sig} {c : Cursor}
    (h : match m with
      | none => ∀ c ∈ citr, c.itr = none
      | some k => IsMinsig citr k) :
    match minsigStep m c with
    | none => ∀ c' ∈ citr ++ [c], c'.itr = none
    | some k => IsMinsig (citr ++ [c]) k := by
  cases hc : c.itr with
  | none =>
    cases m with
    | none =>
      simp only [minsigStep, hc]
      intro d hd
      rcases List.mem_append.1 hd with hd | hd
      · exact h d hd
      · rw [List.mem_singleton.1 hd, hc]
    | some k =>
      simp only [minsigStep, hc]
      exact IsMinsig.cons_none h hc
  | some j =>
    cases m with
    | none =>
      simp only [minsigStep, hc]
      refine ⟨⟨c, by simp, hc⟩, ?_⟩
      intro d hd i hi
      rcases List.mem_append.1 hd with hd | hd
      · rw [h d hd] at hi
        cases hi
      · rw [List.mem_singleton.1 hd, hc] at hi
        cases hi
        exact irrefl_of SigLt _
    | some k =>
      obtain ⟨⟨d, hd, hk⟩, hle⟩ := h
      simp only [minsigStep, hc]
      split
      · next heq =>
        split at heq
        · cases heq
        · cases heq
      · next k' heq =>
        split at heq
        · next hjk =>
          cases heq
          refine ⟨⟨c, by simp, hc⟩, ?_⟩
          intro e he i hi
          rcases List.mem_append.1 he with he | he
          · exact fun hlt => hle e he i hi (trans_of SigLt hlt hjk)
          · rw [List.mem_singleton.1 he, hc] at hi
            cases hi
            exact irrefl_of SigLt _
        · next hjk =>
          cases heq
          refine ⟨⟨d, List.mem_append_left _ hd, hk⟩, ?_⟩
          intro e he i hi
          rcases List.mem_append.1 he with he | he
          · exact hle e he i hi
          · rw [List.mem_singleton.1 he, hc] at hi
            cases hi
            exact hjk

theorem findMinsig_spec (citr : List Cursor) :
    match findMinsig citr with
    | none => ∀ c ∈ citr, c.itr = none
    | some k => IsMinsig citr k := by
  induction citr using List.reverseRecOn with
  | nil => simp [findMinsig]
  | append_singleton citr c ih =>
    rw [findMinsig, List.foldl_append, List.foldl_cons, List.foldl_nil]
    exact minsigStep_isMinsig ih

/-- The entry `mergelists` gives to a signature. -/
def merged (T : Vecomap ℚ) (s : Sig) : Option (ℚ × ℚ) :=
  if ∃ m ∈ T, s ∈ m.keys then some (half (T.map (effective · s)).sum) else none

/-- The iterators when every signature up to `b` has been merged. -/
def cursorsAt (b : Sig) (t : MapType ℚ) (rest : Vecomap ℚ) : List Cursor :=
  ⟨t, t.next? b⟩ :: rest.map fun m => ⟨m, m.next? b⟩

/-- The lists under merge when every signature up to `b` has been merged into `t`. -/
structure MergeInv (vanilla : Bool) (T₀ : MapType ℚ) (rest : Vecomap ℚ) (b : Sig)
    (t : MapType ℚ) : Prop where
  wf : ∀ m ∈ T₀ :: rest, WellFormedList vanilla m
  bound : ¬ SigLt b dummysig
  find : ∀ s, t.find? s =
    if SigLt dummysig s ∧ ¬ SigLt b s then merged (T₀ :: rest) s else T₀.find? s

theorem MergeInv.find_above (h : MergeInv vanilla T₀ rest b t) (hs : SigLt b s) :
    t.find? s = T₀.find? s := by
  rw [h.find, if_neg fun hn => hn.2 hs]

theorem MergeInv.find_dummies (h : MergeInv vanilla T₀ rest b t) (hs : ¬ SigLt dummysig s) :
    t.find? s = T₀.find? s := by
  rw [h.find, if_neg fun hn => hs hn.1]

theorem MergeInv.next_eq (h : MergeInv vanilla T₀ rest b t) : t.next? b = T₀.next? b := by
  apply SortedMap.next?_eq_of_keys
  intro k hk
  rw [SortedMap.mem_keys_iff, SortedMap.mem_keys_iff, h.find_above hk]

theorem MergeInv.cursor_addend (h : MergeInv vanilla T₀ rest b t) (hb : SigLt b k)
    (hk : T₀.next? b ≠ some k → k ∉ T₀.keys) :
    (Cursor.mk t (t.next? b)).addend k = some (effective T₀ k) := by
  have hT := (h.wf T₀ List.mem_cons_self).addend_eq hk
  rw [h.next_eq]
  simpa only [Cursor.addend, h.find_above hb, h.find_dummies (irrefl_of SigLt dummysig)] using hT

theorem MergeInv.dummysig_lt (h : MergeInv vanilla T₀ rest b t) (hk : SigLt b k) :
    SigLt dummysig k := by
  by_contra hn
  by_cases hd : SigLt k dummysig
  · exact h.bound (trans_of SigLt hk hd)
  · exact h.bound (SortedMap.eq_of_not_lt hd hn ▸ hk)

theorem next?_min {m : MapType ℚ} (hmin : ∀ j, m.next? b = some j → ¬ SigLt j k)
    (hs : s ∈ m.keys) (hb : SigLt b s) : ¬ SigLt s k := by
  cases hn : m.next? b with
  | none => exact (SortedMap.next?_eq_none hn hs hb).elim
  | some j =>
    intro hsk
    have hsj := SortedMap.next?_le hn hs hb
    by_cases hjs : SigLt j s
    · exact hmin j hn (trans_of SigLt hjs hsk)
    · exact hmin j hn (SortedMap.eq_of_not_lt hsj hjs ▸ hsk)

theorem not_mem_of_next?_ne {m : MapType ℚ} (hmin : ∀ j, m.next? b = some j → ¬ SigLt j k)
    (hb : SigLt b k) (hne : m.next? b ≠ some k) : k ∉ m.keys := by
  intro hk
  cases hn : m.next? b with
  | none => exact SortedMap.next?_eq_none hn hk hb
  | some j =>
    have hkj := SortedMap.next?_le hn hk hb
    exact hne (hn.trans (congrArg some (SortedMap.eq_of_not_lt (hmin j hn) hkj)))

theorem next?_eq_of_ne {m : MapType ℚ} (hmin : ∀ j, m.next? b = some j → ¬ SigLt j k)
    (hb : SigLt b k) (hne : m.next? b ≠ some k) : m.next? k = m.next? b := by
  apply SortedMap.next?_congr
  intro j hj
  refine ⟨fun hkj => trans_of SigLt hb hkj, fun hbj => ?_⟩
  by_contra hn
  have hkj : k = j := SortedMap.eq_of_not_lt hn (next?_min hmin hj hbj)
  exact not_mem_of_next?_ne hmin hb hne (hkj ▸ hj)

theorem advance_eq {m : MapType ℚ} (hmin : ∀ j, m.next? b = some j → ¬ SigLt j k)
    (hb : SigLt b k) : (Cursor.mk m (m.next? b)).advance k = ⟨m, m.next? k⟩ := by
  rw [Cursor.advance]
  split
  · rfl
  · next hne => rw [next?_eq_of_ne hmin hb hne]

theorem update_eq {m : MapType ℚ} (hmin : ∀ j, m.next? b = some j → ¬ SigLt j k)
    (hb : SigLt b k) (v : ℚ × ℚ) :
    (Cursor.mk m (m.next? b)).update k v = ⟨m.insert k v, (m.insert k v).next? k⟩ := by
  rw [Cursor.update]
  split
  · rfl
  · next hne =>
    have hk := not_mem_of_next?_ne hmin hb hne
    have hf : m.find? k = none := (SortedMap.find?_eq_none_iff _ _).2 hk
    have hp : m.push k v = m.insert k v := by simp [SortedMap.push, hf]
    rw [hp, SortedMap.next?_insert_self, next?_eq_of_ne hmin hb hne]

theorem mapM_eq_some {f : α → Option β} {g : α → β} {l : List α}
    (h : ∀ a ∈ l, f a = some (g a)) : l.mapM f = some (l.map g) := by
  induction l with
  | nil => rfl
  | cons a l ih =>
    have hl := ih fun a ha => h a (List.mem_cons_of_mem _ ha)
    simp only [List.mapM_cons, h a List.mem_cons_self, hl, List.map_cons]
    rfl

theorem MergeInv.min_le (h : MergeInv vanilla T₀ rest b t)
    (hmin : IsMinsig (cursorsAt b t rest) k) :
    ∀ m ∈ T₀ :: rest, ∀ j, m.next? b = some j → ¬ SigLt j k := by
  intro m hm j hj
  rcases List.mem_cons.1 hm with rfl | hm
  · exact hmin.le _ List.mem_cons_self j (h.next_eq.trans hj)
  · exact hmin.le _ (List.mem_cons_of_mem _ (List.mem_map.2 ⟨m, hm, rfl⟩)) j hj

theorem MergeInv.min_mem (h : MergeInv vanilla T₀ rest b t)
    (hmin : IsMinsig (cursorsAt b t rest) k) :
    SigLt b k ∧ ∃ m ∈ T₀ :: rest, k ∈ m.keys := by
  obtain ⟨c, hc, hk⟩ := hmin.mem
  rcases List.mem_cons.1 hc with rfl | hc
  · obtain ⟨hm, hb⟩ := SortedMap.mem_of_next? (h.next_eq.symm.trans hk)
    exact ⟨hb, T₀, List.mem_cons_self, hm⟩
  · obtain ⟨m, hm, rfl⟩ := List.mem_map.1 hc
    obtain ⟨hk', hb⟩ := SortedMap.mem_of_next? hk
    exact ⟨hb, m, List.mem_cons_of_mem _ hm, hk'⟩

theorem MergeInv.mapM_addend (h : MergeInv vanilla T₀ rest b t)
    (hmin : IsMinsig (cursorsAt b t rest) k) :
    (cursorsAt b t rest).mapM (Cursor.addend k) =
      some ((T₀ :: rest).map (effective · k)) := by
  have hb := (h.min_mem hmin).1
  have hnot : ∀ m ∈ T₀ :: rest, m.next? b ≠ some k → k ∉ m.keys :=
    fun m hm => not_mem_of_next?_ne (h.min_le hmin m hm) hb
  have hrest : (rest.map fun m => Cursor.mk m (m.next? b)).mapM (Cursor.addend k) =
      some (rest.map (effective · k)) := by
    rw [List.mapM_map]
    apply mapM_eq_some
    intro m hm
    have hm' := List.mem_cons_of_mem T₀ hm
    exact (h.wf m hm').addend_eq (hnot m hm')
  simp only [cursorsAt, List.mapM_cons, hrest, List.map_cons,
    h.cursor_addend hb (hnot T₀ List.mem_cons_self)]
  rfl

/-- One turn of the loop merges the next signature and moves the bound up to it. -/
theorem MergeInv.step (h : MergeInv vanilla T₀ rest b t)
    (hmin : IsMinsig (cursorsAt b t rest) k) :
    ∃ t', mergeStep k (cursorsAt b t rest) = some (cursorsAt k t' rest) ∧
      MergeInv vanilla T₀ rest k t' := by
  obtain ⟨hb, m, hm, hkm⟩ := h.min_mem hmin
  have hle := h.min_le hmin
  have hsum := h.mapM_addend hmin
  let v := half ((T₀ :: rest).map (effective · k)).sum
  have hupd := update_eq (m := t) (v := v)
    (fun j hj => hle T₀ List.mem_cons_self j (h.next_eq.symm.trans hj)) hb
  have hadv : (rest.map fun m => Cursor.mk m (m.next? b)).map (Cursor.advance k) =
      rest.map fun m => ⟨m, m.next? k⟩ := by
    rw [List.map_map]
    apply List.map_congr_left
    intro m hm
    exact advance_eq (hle m (List.mem_cons_of_mem _ hm)) hb
  refine ⟨t.insert k v, ?_, h.wf, ?_, ?_⟩
  · simp only [cursorsAt] at hsum ⊢
    simp only [mergeStep, hsum]
    exact congrArg some (List.cons_eq_cons.2 ⟨hupd, hadv⟩)
  · exact fun hk => irrefl_of SigLt k (trans_of SigLt hk (h.dummysig_lt hb))
  · intro s
    rw [SortedMap.find?_insert]
    split
    · next he =>
      subst he
      rw [if_pos ⟨h.dummysig_lt hb, irrefl_of SigLt s⟩, merged, if_pos ⟨m, hm, hkm⟩]
    · next hne =>
      by_cases hd : SigLt dummysig s
      · by_cases hks : SigLt k s
        · rw [if_neg fun hn => hn.2 hks, h.find_above (trans_of SigLt hb hks)]
        · rw [if_pos ⟨hd, hks⟩]
          by_cases hbs : SigLt b s
          · have hsk : SigLt s k := by
              by_contra hn
              exact hne (SortedMap.eq_of_not_lt hn hks)
            have hno : ∀ m ∈ T₀ :: rest, s ∉ m.keys :=
              fun m hm hs => next?_min (hle m hm) hs hbs hsk
            rw [merged, if_neg fun hx => hno _ hx.choose_spec.1 hx.choose_spec.2,
              h.find_above hbs, SortedMap.find?_eq_none_iff]
            exact hno T₀ List.mem_cons_self
          · rw [h.find, if_pos ⟨hd, hbs⟩]
      · rw [if_neg fun hn => hd hn.1, h.find_dummies hd]

theorem countP_lt_countP {p q : α → Bool} {l : List α} (h : ∀ a ∈ l, p a → q a)
    (ha : a ∈ l) (hq : q a = true) (hp : p a = false) : l.countP p < l.countP q := by
  induction l with
  | nil => cases ha
  | cons c l ih =>
    have hl : ∀ a ∈ l, p a → q a := fun a ha => h a (List.mem_cons_of_mem _ ha)
    have hmono := List.countP_mono_left hl
    rcases List.mem_cons.1 ha with rfl | ha
    · simp only [List.countP_cons, hq, hp, if_true, Bool.false_eq_true, if_false]
      omega
    · have hlt := ih hl ha
      have hc := h c List.mem_cons_self
      have hpq : (if p c then 1 else 0) ≤ (if q c then 1 else 0 : Nat) := by
        split
        · next hp => rw [if_pos (hc hp)]
        · exact Nat.zero_le _
      simp only [List.countP_cons]
      omega

def remaining (T : Vecomap ℚ) (b : Sig) : Nat :=
  (T.flatMap SortedMap.keys).countP fun s => SigLt b s

theorem remaining_le (T : Vecomap ℚ) (b : Sig) :
    remaining T b ≤ (T.map SortedMap.size).sum := by
  refine List.countP_le_length.trans (le_of_eq ?_)
  simp only [List.length_flatMap, SortedMap.keys, List.length_map]
  rfl

theorem remaining_lt {T : Vecomap ℚ} (hb : SigLt b k) (hm : m ∈ T) (hk : k ∈ m.keys) :
    remaining T k < remaining T b := by
  apply countP_lt_countP (a := k)
  · intro s _ hs
    simp only [decide_eq_true_eq] at hs ⊢
    exact trans_of SigLt hb hs
  · exact List.mem_flatMap.2 ⟨m, hm, hk⟩
  · simpa using hb
  · simpa using irrefl_of SigLt k

structure MergeDone (vanilla : Bool) (T : Vecomap ℚ) (t : MapType ℚ) : Prop where
  wf : WellFormedList vanilla t
  find : ∀ s, SigLt dummysig s → t.find? s = merged T s
  dummy : t.find? dummysig = some (half (T.map (effective · dummysig)).sum)

theorem effective_dummysig {m : MapType ℚ} (h : m.find? dummysig = some v) :
    effective m dummysig = v := effective_of_mem h

theorem WellFormedList.freq_dummysig {m : MapType ℚ} (h : WellFormedList vanilla m) :
    (effective m dummysig).1 = 0 := by
  obtain ⟨w, hw⟩ := h.dummy
  rw [effective_dummysig hw]

theorem sum_freq_dummysig {T : Vecomap ℚ} (h : ∀ m ∈ T, WellFormedList vanilla m) :
    (T.map (effective · dummysig)).sum.1 = 0 := by
  induction T with
  | nil => rfl
  | cons m T ih =>
    have hT := ih fun m hm => h m (List.mem_cons_of_mem _ hm)
    simp only [List.map_cons, List.sum_cons, Prod.fst_add, hT,
      (h m List.mem_cons_self).freq_dummysig, add_zero]

/-- The keys up to `dummysig` decide whether a list is well formed. -/
theorem WellFormedList.of_keys {m t : MapType ℚ} (h : WellFormedList vanilla m)
    (hd : ∃ w, t.find? dummysig = some (0, w))
    (hlow : ∀ s, ¬ SigLt dummysig s → (s ∈ t.keys ↔ s ∈ m.keys)) :
    WellFormedList vanilla t := by
  have hdm : dummysig ∈ t.keys := (hlow _ (irrefl_of SigLt _)).2 h.dummysig_mem
  have hf := h.front
  refine ⟨?_, hd⟩
  cases vanilla with
  | true =>
    refine SortedMap.begin?_eq_some hdm ?_
    intro j hj hlt
    have hjm := (hlow j (asymm_of SigLt hlt)).1 hj
    exact asymm_of SigLt hlt
      (SortedMap.lt_of_begin? hf hjm fun he => irrefl_of SigLt j (he ▸ hlt))
  | false =>
    obtain ⟨hfst, hsnd⟩ := hf
    have hhd : ¬ SigLt dummysig hldsig := asymm_of SigLt hldsig_lt_dummysig
    have hhm : hldsig ∈ t.keys := (hlow _ hhd).2 (SortedMap.mem_of_begin? hfst)
    refine ⟨SortedMap.begin?_eq_some hhm ?_,
      SortedMap.next?_eq_some hdm hldsig_lt_dummysig ?_⟩
    · intro j hj hlt
      have hjd : ¬ SigLt dummysig j := asymm_of SigLt (trans_of SigLt hlt hldsig_lt_dummysig)
      exact asymm_of SigLt hlt (SortedMap.lt_of_begin? hfst ((hlow j hjd).1 hj)
        fun he => irrefl_of SigLt j (he ▸ hlt))
    · intro j hj hlt hjd
      exact SortedMap.next?_le hsnd ((hlow j (asymm_of SigLt hjd)).1 hj) hlt hjd

theorem MergeInv.finish (h : MergeInv vanilla T₀ rest b t)
    (hend : ∀ c ∈ cursorsAt b t rest, c.itr = none) :
    ∃ t', mergeFinish (cursorsAt b t rest) = some t' ∧ MergeDone vanilla (T₀ :: rest) t' := by
  have hT₀ := h.wf T₀ List.mem_cons_self
  have hno : ∀ m ∈ T₀ :: rest, ∀ s ∈ m.keys, ¬ SigLt b s := by
    intro m hm s hs
    rcases List.mem_cons.1 hm with rfl | hm
    · exact SortedMap.next?_eq_none (h.next_eq.symm.trans (hend _ List.mem_cons_self)) hs
    · exact SortedMap.next?_eq_none
        (hend _ (List.mem_cons_of_mem _ (List.mem_map.2 ⟨m, hm, rfl⟩))) hs
  have hdum : ∀ m ∈ T₀ :: rest, m.find? dummysig = some (effective m dummysig) :=
    fun m hm => (h.wf m hm).find_dummysig
  have htd := h.find_dummies (irrefl_of SigLt dummysig)
  have hsum : (cursorsAt b t rest).mapM (fun c => c.list.find? dummysig) =
      some ((T₀ :: rest).map (effective · dummysig)) := by
    have hrest : (rest.map fun m => Cursor.mk m (m.next? b)).mapM
        (fun c => c.list.find? dummysig) = some (rest.map (effective · dummysig)) := by
      rw [List.mapM_map]
      exact mapM_eq_some fun m hm => hdum m (List.mem_cons_of_mem _ hm)
    simp only [cursorsAt, List.mapM_cons, hrest, htd, hdum T₀ List.mem_cons_self, List.map_cons]
    rfl
  let v : ℚ × ℚ := half ((T₀ :: rest).map (effective · dummysig)).sum
  have hv : v = ((effective T₀ dummysig).1,
      ((T₀ :: rest).map (effective · dummysig)).sum.2 / 2) := by
    simp only [v, half, sum_freq_dummysig h.wf, hT₀.freq_dummysig, zero_div]
  refine ⟨t.insert dummysig v, ?_, ?_, ?_, SortedMap.find?_insert_self _ _ _⟩
  · simp only [cursorsAt] at hsum ⊢
    simp only [mergeFinish, hsum, htd, hdum T₀ List.mem_cons_self, hv]
    rfl
  · refine hT₀.of_keys ⟨v.2, ?_⟩ ?_
    · rw [SortedMap.find?_insert_self, hv, hT₀.freq_dummysig]
    · intro s hs
      rw [SortedMap.mem_keys_iff, SortedMap.mem_keys_iff, SortedMap.find?_insert,
        h.find_dummies hs]
      split
      · next he => simp [he, hdum T₀ List.mem_cons_self]
      · rfl
  · intro s hs
    have hne : s ≠ dummysig := fun he => irrefl_of SigLt s (he ▸ hs)
    rw [SortedMap.find?_insert_of_ne _ _ hne]
    by_cases hbs : SigLt b s
    · rw [h.find_above hbs, merged, if_neg fun hx =>
        hno _ hx.choose_spec.1 s hx.choose_spec.2 hbs, SortedMap.find?_eq_none_iff]
      exact fun hm => hno T₀ List.mem_cons_self s hm hbs
    · rw [h.find, if_pos ⟨hs, hbs⟩]

theorem MergeInv.loop (h : MergeInv vanilla T₀ rest b t)
    (hfuel : remaining (T₀ :: rest) b < fuel) :
    ∃ t', mergeLoop fuel (cursorsAt b t rest) = some t' ∧
      MergeDone vanilla (T₀ :: rest) t' := by
  induction fuel generalizing b t with
  | zero => omega
  | succ fuel ih =>
    have hspec := findMinsig_spec (cursorsAt b t rest)
    cases hmin : findMinsig (cursorsAt b t rest) with
    | none =>
      rw [hmin] at hspec
      have hall : (cursorsAt b t rest).all (fun c => c.itr.isNone) = true := by
        simpa using hspec
      simpa only [mergeLoop, hall, if_true] using h.finish hspec
    | some k =>
      rw [hmin] at hspec
      obtain ⟨hb, m, hm, hkm⟩ := h.min_mem hspec
      obtain ⟨t', hstep, hinv⟩ := h.step hspec
      have hlt := remaining_lt hb hm hkm
      rw [mergeLoop, if_neg hspec.not_all, hmin]
      simpa only [Option.bind_eq_bind, Option.bind_some, hstep] using ih hinv (by omega)

theorem merged_singleton (m : MapType ℚ) (s : Sig) : merged [m] s = (m.find? s).map half := by
  simp only [merged, List.mem_singleton, exists_eq_left, List.map_cons, List.map_nil,
    List.sum_cons, List.sum_nil, add_zero, SortedMap.mem_keys_iff]
  cases hs : m.find? s with
  | none => rfl
  | some v => simp [effective_of_mem hs]

/-- Merging a team's lists terminates in one list, the signature-wise half sum. -/
theorem mergelists_spec {T : Vecomap ℚ} (hne : T ≠ [])
    (h : ∀ m ∈ T, WellFormedList vanilla m) :
    ∃ t, mergelists vanilla T = some [t] ∧ MergeDone vanilla T t := by
  match T, hne with
  | [m], _ =>
    have hm := h m List.mem_cons_self
    let t : MapType ℚ := m.mapVal fun _ v => half v
    have hfind : ∀ s, t.find? s = (m.find? s).map half := fun s => SortedMap.find?_mapVal _ _ _
    refine ⟨t, rfl, hm.of_keys ?_ ?_, ?_, ?_⟩
    · obtain ⟨w, hw⟩ := hm.dummy
      exact ⟨w / 2, by rw [hfind, hw]; simp [half]⟩
    · intro s _
      rw [SortedMap.mem_keys_iff, SortedMap.mem_keys_iff, hfind, Option.isSome_map]
    · intro s _
      rw [hfind, merged_singleton]
    · obtain ⟨w, hw⟩ := hm.dummy
      rw [hfind, hw, List.map_singleton, List.sum_singleton, effective_of_mem hw]
      rfl
  | T₀ :: m :: rest, _ =>
    have hinit : (T₀ :: m :: rest).mapM (initCursor vanilla) =
        some (cursorsAt dummysig T₀ (m :: rest)) :=
      mapM_eq_some fun m hm => (h m hm).initCursor_eq
    have hinv : MergeInv vanilla T₀ (m :: rest) dummysig T₀ := by
      refine ⟨h, irrefl_of SigLt _, ?_⟩
      intro s
      rw [if_neg fun hn => hn.2 hn.1]
    obtain ⟨t, hloop, hdone⟩ := hinv.loop (Nat.lt_succ_of_le (remaining_le _ _))
    refine ⟨t, ?_, hdone⟩
    simp only [mergelists, hinit, Option.bind_eq_bind, Option.bind_some, hloop]
    rfl

theorem sum_effective_of_not_mem {T : Vecomap ℚ} (h : ∀ m ∈ T, WellFormedList vanilla m)
    (hs : ∀ m ∈ T, s ∉ m.keys) :
    T.map (effective · s) = T.map (effective · dummysig) := by
  apply List.map_congr_left
  intro m hm
  obtain ⟨w, hw⟩ := (h m hm).dummy
  rw [effective_of_mem hw,
    effective_of_not_mem ((SortedMap.find?_eq_none_iff _ _).2 (hs m hm)) hw]

theorem MergeDone.effective_eq {T : Vecomap ℚ} (hT : ∀ m ∈ T, WellFormedList vanilla m)
    (h : MergeDone vanilla T t) (hh : s ≠ hldsig) (hd : s ≠ dummysig) :
    effective t s = half (T.map (effective · s)).sum := by
  by_cases hx : ∃ m ∈ T, s ∈ m.keys
  · obtain ⟨m, hm, hs⟩ := hx
    apply effective_of_mem
    rw [h.find s ((hT m hm).dummysig_lt hs hh hd), merged, if_pos ⟨m, hm, hs⟩]
  · have hno : ∀ m ∈ T, s ∉ m.keys := fun m hm hs => hx ⟨m, hm, hs⟩
    have hts : t.find? s = none := by
      rw [SortedMap.find?_eq_none_iff]
      intro hs
      have hlt := h.wf.dummysig_lt hs hh hd
      rw [SortedMap.mem_keys_iff, h.find s hlt, merged, if_neg hx] at hs
      cases hs
    rw [effective_of_not_mem hts h.dummy, sum_effective_of_not_mem hT hno]

theorem WellFormedList.mem_keys_cases {m : MapType ℚ} (h : WellFormedList vanilla m)
    (hs : s ∈ m.keys) : SigLt dummysig s ∨ s = dummysig ∨ vanilla = false ∧ s = hldsig := by
  by_cases hd : s = dummysig
  · exact .inr (.inl hd)
  · by_cases hh : s = hldsig
    · cases vanilla with
      | true => exact .inl (SortedMap.lt_of_begin? h.front hs hd)
      | false => exact .inr (.inr ⟨rfl, hh⟩)
    · exact .inl (h.dummysig_lt hs hh hd)

theorem WellFormedList.hldsig_mem {m : MapType ℚ} (h : WellFormedList false m) :
    hldsig ∈ m.keys := SortedMap.mem_of_begin? h.front.1

theorem mem_keys_of_merged {T : Vecomap ℚ} {t : MapType ℚ} (h : t.find? s = merged T s) :
    s ∈ t.keys ↔ ∃ m ∈ T, s ∈ m.keys := by
  rw [SortedMap.mem_keys_iff, h, merged]
  split
  · next hx => simpa using hx
  · next hx => simpa using hx

theorem MergeDone.mem_keys_iff {T : Vecomap ℚ} (hne : T ≠ [])
    (hT : ∀ m ∈ T, WellFormedList vanilla m) (h : MergeDone vanilla T t) :
    s ∈ t.keys ↔ ∃ m ∈ T, s ∈ m.keys := by
  obtain ⟨m₀, hm₀⟩ := List.exists_mem_of_ne_nil T hne
  constructor
  · intro hs
    rcases h.wf.mem_keys_cases hs with hlt | rfl | ⟨rfl, rfl⟩
    · exact (mem_keys_of_merged (h.find s hlt)).1 hs
    · exact ⟨m₀, hm₀, (hT m₀ hm₀).dummysig_mem⟩
    · exact ⟨m₀, hm₀, (hT m₀ hm₀).hldsig_mem⟩
  · rintro ⟨m, hm, hs⟩
    rcases (hT m hm).mem_keys_cases hs with hlt | rfl | ⟨rfl, rfl⟩
    · exact (mem_keys_of_merged (h.find s hlt)).2 ⟨m, hm, hs⟩
    · exact h.wf.dummysig_mem
    · exact h.wf.hldsig_mem

/-- Merging the lists of a team comes to its end with one list, their signature-wise half sum. -/
theorem mergelists_half_sum {T : Vecomap ℚ} (hne : T ≠ [])
    (h : ∀ m ∈ T, WellFormedList vanilla m) :
    ∃ t, mergelists vanilla T = some [t] ∧ (∀ s, s ∈ t.keys ↔ ∃ m ∈ T, s ∈ m.keys) ∧
      (∀ s ∈ t.keys, s ≠ dummysig → (vanilla = false → s ≠ hldsig) →
        t.find? s = some (half (T.map (effective · s)).sum)) ∧
      t.find? dummysig = some (0, (T.map (effective · dummysig)).sum.2 / 2) := by
  obtain ⟨t, ht, hdone⟩ := mergelists_spec hne h
  have hkeys : ∀ s, s ∈ t.keys ↔ ∃ m ∈ T, s ∈ m.keys := fun s => hdone.mem_keys_iff hne h
  refine ⟨t, ht, hkeys, fun s hs hd hh => ?_, ?_⟩
  · rcases hdone.wf.mem_keys_cases hs with hlt | rfl | ⟨hv, rfl⟩
    · rw [hdone.find s hlt, merged, if_pos ((hkeys s).1 hs)]
    · exact (hd rfl).elim
    · exact (hh hv rfl).elim
  · rw [hdone.dummy, half, sum_freq_dummysig h, zero_div]

def singleList (sig : Sig) (freq : ℚ) : MapType ℚ :=
  vec2map [hldsig, dummysig, sig] [0, 0, freq] [0, 1, 1]

theorem mergelists_half_sum_two : ∃ t,
    mergelists false [singleList [2] 4, singleList [3] 6] = some [t] ∧
      [3] ∈ t.keys ∧ t.find? [2] = some (2, 1) ∧ t.find? dummysig = some (0, 1) := by
  have hwf : ∀ m ∈ [singleList [2] 4, singleList [3] 6], WellFormedList false m := by
    simp only [List.forall_mem_cons, List.not_mem_nil, false_implies, implies_true, and_true]
    exact ⟨⟨⟨rfl, rfl⟩, 1, rfl⟩, ⟨⟨rfl, rfl⟩, 1, rfl⟩⟩
  obtain ⟨t, ht, hkeys, hfind, hdummy⟩ := mergelists_half_sum (by simp) hwf
  have h2 := hfind [2] ((hkeys [2]).2 ⟨_, List.mem_cons_self, by decide⟩) (by decide)
    (by decide)
  refine ⟨t, ht, (hkeys [3]).2 ⟨_, List.mem_cons_of_mem _ List.mem_cons_self, by decide⟩, ?_, ?_⟩
  · rw [h2]
    decide +kernel
  · rw [hdummy]
    decide +kernel

end XGossip
