import XGossip.Gossip.Merge

namespace XGossip
set_option autoImplicit true

section Nogossip

/-- The sums for `minsig` are computed, but no list takes them over. -/
def nogossipStep (minsig : Sig) (citr : List Cursor) : Option (List Cursor) := do
  let _sums := (← citr.mapM (Cursor.addend minsig)).sum
  return citr.map (Cursor.advance minsig)

/-- All lists are done: the sum of the weights of `dummysig` is not stored either, and all lists
except the first one are deleted. -/
def nogossipFinish (citr : List Cursor) : Option (Vecomap ℚ) := do
  let _sumw := (← citr.mapM fun c => c.list.find? dummysig).sum.2
  return (citr.map Cursor.list).take 1

def nogossipLoop : Nat → List Cursor → Option (Vecomap ℚ)
  | 0, _ => none
  | fuel + 1, citr =>
    if citr.all fun c => c.itr.isNone then nogossipFinish citr
    else do
      let minsig ← findMinsig citr
      nogossipLoop fuel (← nogossipStep minsig citr)

def mergelistsNogossip (vanilla : Bool) (teamvecomap : Vecomap ℚ) : Option (Vecomap ℚ) :=
  match teamvecomap with
  | [_] => some teamvecomap
  | _ => do
    let citr ← teamvecomap.mapM (initCursor vanilla)
    nogossipLoop ((teamvecomap.map SortedMap.size).sum + 1) citr

end Nogossip

section Loop

variable {vanilla : Bool} {T : Vecomap ℚ}

/-- The iterators when every signature up to `b` has been passed. -/
def cursorsPast (b : Sig) (T : Vecomap ℚ) : List Cursor := T.map fun m => ⟨m, m.next? b⟩

theorem cursorsPast_min (hmin : IsMinsig (cursorsPast b T) k) :
    (SigLt b k ∧ ∃ m ∈ T, k ∈ m.keys) ∧ ∀ m ∈ T, ∀ j, m.next? b = some j → ¬ SigLt j k := by
  constructor
  · obtain ⟨c, hc, hk⟩ := hmin.mem
    obtain ⟨m, hm, rfl⟩ := List.mem_map.1 hc
    obtain ⟨hmem, hb⟩ := SortedMap.mem_of_next? hk
    exact ⟨hb, m, hm, hmem⟩
  · intro m hm j hj
    exact hmin.le _ (List.mem_map.2 ⟨m, hm, rfl⟩) j hj

theorem nogossipStep_eq (h : ∀ m ∈ T, WellFormedList vanilla m)
    (hmin : IsMinsig (cursorsPast b T) k) :
    nogossipStep k (cursorsPast b T) = some (cursorsPast k T) := by
  obtain ⟨⟨hb, -⟩, hle⟩ := cursorsPast_min hmin
  have hsums : (cursorsPast b T).mapM (Cursor.addend k) = some (T.map (effective · k)) := by
    rw [cursorsPast, List.mapM_map]
    apply mapM_eq_some
    intro m hm
    exact (h m hm).addend_eq (not_mem_of_next?_ne (hle m hm) hb)
  have hadv : (cursorsPast b T).map (Cursor.advance k) = cursorsPast k T := by
    rw [cursorsPast, cursorsPast, List.map_map]
    apply List.map_congr_left
    intro m hm
    exact advance_eq (hle m hm) hb
  simp only [nogossipStep, hsums, hadv, Option.bind_eq_bind, Option.bind_some]
  rfl

theorem nogossipLoop_eq {T₀ : MapType ℚ} {rest : Vecomap ℚ}
    (h : ∀ m ∈ T₀ :: rest, WellFormedList vanilla m) (hfuel : remaining (T₀ :: rest) b < fuel) :
    nogossipLoop fuel (cursorsPast b (T₀ :: rest)) = some [T₀] := by
  induction fuel generalizing b with
  | zero => omega
  | succ fuel ih =>
    have hspec := findMinsig_spec (cursorsPast b (T₀ :: rest))
    cases hmin : findMinsig (cursorsPast b (T₀ :: rest)) with
    | none =>
      rw [hmin] at hspec
      have hall : (cursorsPast b (T₀ :: rest)).all (fun c => c.itr.isNone) = true := by
        simpa using hspec
      have hdummy : (cursorsPast b (T₀ :: rest)).mapM (fun c => c.list.find? dummysig) =
          some ((T₀ :: rest).map (effective · dummysig)) := by
        rw [cursorsPast, List.mapM_map]
        apply mapM_eq_some
        exact fun m hm => (h m hm).find_dummysig
      rw [nogossipLoop, if_pos hall]
      simp only [nogossipFinish, hdummy, Option.bind_eq_bind, Option.bind_some]
      rfl
    | some k =>
      rw [hmin] at hspec
      obtain ⟨⟨hb, m, hm, hkm⟩, -⟩ := cursorsPast_min hspec
      have hlt := remaining_lt hb hm hkm
      rw [nogossipLoop, if_neg hspec.not_all, hmin]
      simpa only [Option.bind_eq_bind, Option.bind_some, nogossipStep_eq h hspec] using
        ih (by omega)

theorem mergelistsNogossip_eq {T₀ : MapType ℚ} {rest : Vecomap ℚ}
    (h : ∀ m ∈ T₀ :: rest, WellFormedList vanilla m) :
    mergelistsNogossip vanilla (T₀ :: rest) = some [T₀] := by
  cases rest with
  | nil => rfl
  | cons m rest =>
    have hinit : (T₀ :: m :: rest).mapM (initCursor vanilla) =
        some (cursorsPast dummysig (T₀ :: m :: rest)) :=
      mapM_eq_some fun m hm => (h m hm).initCursor_eq
    have hloop := nogossipLoop_eq h (Nat.lt_succ_of_le (remaining_le (T₀ :: m :: rest) dummysig))
    simp only [mergelistsNogossip, hinit, Option.bind_eq_bind, Option.bind_some]
    exact hloop

end Loop

section Sums

variable {vanilla : Bool} {T₀ t : MapType ℚ} {rest : Vecomap ℚ}

def NotDummy (vanilla : Bool) (s : Sig) : Prop := s ≠ dummysig ∧ (vanilla = false → s ≠ hldsig)

/-- The list that holds all there is in the lists `T`. -/
structure HoldsAll (vanilla : Bool) (T : Vecomap ℚ) (t : MapType ℚ) : Prop where
  keys : ∀ s, s ∈ t.keys ↔ ∃ m ∈ T, s ∈ m.keys
  find : ∀ s ∈ t.keys, NotDummy vanilla s → t.find? s = some (T.map (effective · s)).sum
  dummy : (effective t dummysig).2 = (T.map (effective · dummysig)).sum.2

structure NothingToAdd (vanilla : Bool) (T₀ : MapType ℚ) (rest : Vecomap ℚ) : Prop where
  keys : ∀ m ∈ rest, m.keys ⊆ T₀.keys
  sums : ∀ s ∈ T₀.keys, NotDummy vanilla s → (rest.map (effective · s)).sum = 0
  dummy : (rest.map (effective · dummysig)).sum.2 = 0

theorem holdsAll_first_iff : HoldsAll vanilla (T₀ :: rest) T₀ ↔ NothingToAdd vanilla T₀ rest := by
  have hsome : ∀ {s}, s ∈ T₀.keys → T₀.find? s = some (effective T₀ s) := by
    intro s hs
    obtain ⟨v, hv⟩ := Option.isSome_iff_exists.1 ((SortedMap.mem_keys_iff _ _).1 hs)
    rw [hv, effective_of_mem hv]
  constructor
  · intro h
    refine ⟨fun m hm s hs => (h.keys s).2 ⟨m, List.mem_cons_of_mem _ hm, hs⟩, fun s hs hd => ?_, ?_⟩
    · have hsum := h.find s hs hd
      rw [hsome hs, List.map_cons, List.sum_cons, Option.some_inj] at hsum
      exact left_eq_add.1 hsum
    · have hsum := h.dummy
      rw [List.map_cons, List.sum_cons, Prod.snd_add] at hsum
      exact left_eq_add.1 hsum
  · intro h
    refine ⟨fun s => ⟨fun hs => ⟨T₀, List.mem_cons_self, hs⟩, ?_⟩, fun s hs hd => ?_, ?_⟩
    · rintro ⟨m, hm, hs⟩
      rcases List.mem_cons.1 hm with rfl | hm
      · exact hs
      · exact h.keys m hm hs
    · rw [hsome hs, List.map_cons, List.sum_cons, h.sums s hs hd, add_zero]
    · rw [List.map_cons, List.sum_cons, Prod.snd_add, h.dummy, add_zero]

/-- The merge after gossiping keeps what the lists hold only where the first list has it all. -/
theorem mergelistsNogossip_holdsAll_iff (h : ∀ m ∈ T₀ :: rest, WellFormedList vanilla m) :
    (∃ t, mergelistsNogossip vanilla (T₀ :: rest) = some [t] ∧ HoldsAll vanilla (T₀ :: rest) t) ↔
      NothingToAdd vanilla T₀ rest := by
  rw [mergelistsNogossip_eq h, ← holdsAll_first_iff]
  constructor
  · rintro ⟨t, ht, hall⟩
    obtain rfl : T₀ = t := by simpa using ht
    exact hall
  · intro hall
    exact ⟨T₀, rfl, hall⟩

def emptyList (sig : Sig) : MapType ℚ := vec2map [hldsig, dummysig, sig] [0, 0, 0] [0, 0, 0]

theorem mergelistsNogossip_holdsAll_two : ∃ t,
    mergelistsNogossip false [singleList [2] 4, emptyList [2]] = some [t] ∧
      HoldsAll false [singleList [2] 4, emptyList [2]] t := by
  apply (mergelistsNogossip_holdsAll_iff ?_).2
  · refine ⟨by decide, ?_, by decide +kernel⟩
    have hkeys : (singleList [2] 4).keys = [hldsig, dummysig, [2]] := by decide
    intro s hs hd
    rw [hkeys] at hs
    simp only [List.mem_cons, List.not_mem_nil, or_false] at hs
    rcases hs with rfl | rfl | rfl
    · exact (hd.2 rfl rfl).elim
    · exact (hd.1 rfl).elim
    · decide +kernel
  · simp only [List.forall_mem_cons, List.not_mem_nil, false_implies, implies_true, and_true]
    exact ⟨⟨⟨rfl, rfl⟩, 1, rfl⟩, ⟨⟨rfl, rfl⟩, 0, rfl⟩⟩

/-- What has been received after the last round is lost. -/
theorem mergelistsNogossip_loses : ¬ ∀ (vanilla : Bool) (T₀ : MapType ℚ) (rest : Vecomap ℚ),
    (∀ m ∈ T₀ :: rest, WellFormedList vanilla m) →
      ∃ t, mergelistsNogossip vanilla (T₀ :: rest) = some [t] ∧
        HoldsAll vanilla (T₀ :: rest) t := by
  intro hall
  have hwf : ∀ m ∈ [singleList [2] 4, singleList [3] 6], WellFormedList false m := by
    simp only [List.forall_mem_cons, List.not_mem_nil, false_implies, implies_true, and_true]
    exact ⟨⟨⟨rfl, rfl⟩, 1, rfl⟩, ⟨⟨rfl, rfl⟩, 1, rfl⟩⟩
  obtain ⟨t, ht, hholds⟩ := hall false _ _ hwf
  rw [mergelistsNogossip_eq hwf] at ht
  obtain rfl : singleList [2] 4 = t := by simpa using ht
  have hmem : [3] ∈ (singleList [2] 4).keys :=
    (hholds.keys [3]).2 ⟨_, List.mem_cons_of_mem _ List.mem_cons_self, by decide⟩
  exact absurd hmem (by decide)

end Sums

end XGossip
