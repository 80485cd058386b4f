import Mathlib.Algebra.BigOperators.Group.List.Lemmas
import XGossip.Gossip.Peer

namespace XGossip
set_option autoImplicit true

section Merging

def listOf (totalT : List (Vecomap ℚ)) (tix : Nat) : Option (MapType ℚ) := do (← totalT[tix]?)[0]?

/-- Update freq only, or set weight to 1 because there is no gossiping. -/
def addFreq (m : MapType ℚ) (e : Sig × ℚ × ℚ) : MapType ℚ :=
  match m.find? e.1 with
  | some v => m.insert e.1 (v.1 + e.2.1, v.2)
  | none => m.insert e.1 (e.2.1, 1)

/-- One turn of the loop over the entries of a list; an index that is not there is an error. -/
def mergeFreq (mergeix : Nat) (totalT : List (Vecomap ℚ)) (e : Sig × ℚ × ℚ) :
    Option (List (Vecomap ℚ)) := do
  let _ ← listOf totalT mergeix
  return totalT.modify mergeix (·.modify 0 (addFreq · e))

def mergeTeam : List Nat → Nat → List (Vecomap ℚ) → Option (Nat × List (Vecomap ℚ))
  | [], mergeix, totalT => some (mergeix, totalT)
  | tix :: ixs, mergeix, totalT =>
    if mergeix = 0 then mergeTeam ixs tix totalT
    else do
      let list ← listOf totalT tix
      mergeTeam ixs mergeix (← list.entries.foldlM (mergeFreq mergeix) totalT)

def mergeTeamid (p : Peer ℚ) (itr : ChordID × List Nat) : Option (Peer ℚ) := do
  let (mergeix, totalT) ← mergeTeam itr.2 0 p.totalT
  return ⟨totalT, p.teamindex.insert itr.1 [mergeix]⟩

def mergebyteamid (p : Peer ℚ) : Option (Peer ℚ) := p.teamindex.entries.foldlM mergeTeamid p

end Merging

section Freqs

/-- The freq of a signature, zero where the list does not have it. -/
def freqOf (m : MapType ℚ) (s : Sig) : ℚ := (m.find? s).elim 0 Prod.fst

def freqAt (totalT : List (Vecomap ℚ)) (tix : Nat) (s : Sig) : ℚ :=
  (listOf totalT tix).elim 0 (freqOf · s)

def HasKey (totalT : List (Vecomap ℚ)) (tix : Nat) (s : Sig) : Prop :=
  ∃ m, listOf totalT tix = some m ∧ s ∈ m.keys

theorem find?_addFreq (m : MapType ℚ) (e : Sig × ℚ × ℚ) (s : Sig) :
    (addFreq m e).find? s =
      if s = e.1 then some ((m.find? s).elim (e.2.1, 1) fun v => (v.1 + e.2.1, v.2))
      else m.find? s := by
  rw [addFreq]
  split
  · next v hv =>
    rw [SortedMap.find?_insert]
    split
    · next hs => rw [hs, hv]; rfl
    · rfl
  · next hv =>
    rw [SortedMap.find?_insert]
    split
    · next hs => rw [hs, hv]; rfl
    · rfl

theorem freqOf_addFreq (m : MapType ℚ) (e : Sig × ℚ × ℚ) (s : Sig) :
    freqOf (addFreq m e) s = freqOf m s + if s = e.1 then e.2.1 else 0 := by
  rw [freqOf, find?_addFreq, freqOf]
  split
  · cases m.find? s <;> simp
  · rw [add_zero]

theorem mem_keys_addFreq (m : MapType ℚ) (e : Sig × ℚ × ℚ) (s : Sig) :
    s ∈ (addFreq m e).keys ↔ s ∈ m.keys ∨ s = e.1 := by
  rw [SortedMap.mem_keys_iff, find?_addFreq, SortedMap.mem_keys_iff]
  split <;> simp [*]

theorem freqOf_foldl (es : List (Sig × ℚ × ℚ)) (m : MapType ℚ) (s : Sig) :
    freqOf (es.foldl addFreq m) s =
      freqOf m s + (es.map fun e => if s = e.1 then e.2.1 else 0).sum := by
  induction es generalizing m with
  | nil => simp
  | cons e es ih =>
    rw [List.foldl_cons, ih, freqOf_addFreq, List.map_cons, List.sum_cons, add_assoc]

theorem mem_keys_foldl (es : List (Sig × ℚ × ℚ)) (m : MapType ℚ) (s : Sig) :
    s ∈ (es.foldl addFreq m).keys ↔ s ∈ m.keys ∨ s ∈ es.map Prod.fst := by
  induction es generalizing m with
  | nil => simp
  | cons e es ih =>
    rw [List.foldl_cons, ih, mem_keys_addFreq, List.map_cons, List.mem_cons, or_assoc]

theorem sum_entries (m : MapType ℚ) (s : Sig) :
    (m.entries.map fun e => if s = e.1 then e.2.1 else 0).sum = freqOf m s := by
  obtain ⟨l, hl⟩ := m
  rw [freqOf, SortedMap.find?]
  induction l with
  | nil => rfl
  | cons e l ih =>
    obtain ⟨he, hl⟩ := List.pairwise_cons.1 hl
    rw [List.map_cons, List.sum_cons, ih hl, List.find?_cons]
    by_cases hs : s = e.1
    · subst hs
      have hnone : l.find? (fun e' => e'.1 = e.1) = none := by
        rw [List.find?_eq_none]
        intro e' he' heq
        rw [decide_eq_true_eq] at heq
        have hlt := he e' he'
        rw [heq] at hlt
        exact irrefl_of SigLt _ hlt
      simp [hnone]
    · simp [hs, Ne.symm hs]

end Freqs

section Team

/-- The list of `m` has the keys of the lists of `ixs` and the sums of their freqs. -/
structure SumsUp (m : Nat) (ixs : List Nat) (T T' : List (Vecomap ℚ)) : Prop where
  isSome : (listOf T' m).isSome
  keys : ∀ s, HasKey T' m s ↔ ∃ i ∈ ixs, HasKey T i s
  freq : ∀ s, freqAt T' m s = (ixs.map fun i => freqAt T i s).sum

/-- A part of the merging that adds the lists of `ixs` to the list of `m` and changes no other. -/
structure Adds (m : Nat) (ixs : List Nat) (T T' : List (Vecomap ℚ)) : Prop where
  frame : ∀ j, j ≠ m → listOf T' j = listOf T j
  sums : SumsUp m (m :: ixs) T T'

theorem hasKey_congr (h : listOf T i = listOf T' i) (s : Sig) : HasKey T i s ↔ HasKey T' i s := by
  rw [HasKey, h, HasKey]

theorem freqAt_congr (h : listOf T i = listOf T' i) (s : Sig) : freqAt T i s = freqAt T' i s := by
  rw [freqAt, h, freqAt]

theorem exists_hasKey_congr {ixs : List Nat} (h : ∀ i ∈ ixs, listOf T i = listOf T' i) (s : Sig) :
    (∃ i ∈ ixs, HasKey T i s) ↔ ∃ i ∈ ixs, HasKey T' i s :=
  exists_congr fun i => and_congr_right fun hi => hasKey_congr (h i hi) s

theorem map_freqAt_congr {ixs : List Nat} (h : ∀ i ∈ ixs, listOf T i = listOf T' i) (s : Sig) :
    (ixs.map fun i => freqAt T i s) = ixs.map fun i => freqAt T' i s :=
  List.map_congr_left fun i hi => freqAt_congr (h i hi) s

theorem SumsUp.congr (h : SumsUp m ixs T T') (hT : ∀ i ∈ ixs, listOf T i = listOf T₀ i)
    (hT' : listOf T₁ m = listOf T' m) : SumsUp m ixs T₀ T₁ := by
  refine ⟨hT' ▸ h.isSome, fun s => ?_, fun s => ?_⟩
  · rw [hasKey_congr hT', h.keys, exists_hasKey_congr hT]
  · rw [freqAt_congr hT', h.freq, map_freqAt_congr hT]

theorem listOf_modify (T : List (Vecomap ℚ)) (m : Nat) (f : MapType ℚ → MapType ℚ) (j : Nat) :
    listOf (T.modify m (·.modify 0 f)) j = if j = m then (listOf T m).map f else listOf T j := by
  rw [listOf, List.getElem?_modify]
  split
  · next h =>
    subst h
    cases hT : T[m]? with
    | none => simp [listOf, hT]
    | some lists => cases lists <;> simp [listOf, hT]
  · next h =>
    rw [if_neg (Ne.symm h)]
    simp [listOf]

theorem foldlM_mergeFreq (es : List (Sig × ℚ × ℚ)) (h : listOf T m = some dst) :
    ∃ T', es.foldlM (mergeFreq m) T = some T' ∧ listOf T' m = some (es.foldl addFreq dst) ∧
      ∀ j, j ≠ m → listOf T' j = listOf T j := by
  induction es generalizing T dst with
  | nil => exact ⟨T, rfl, h, fun _ _ => rfl⟩
  | cons e es ih =>
    have hstep : mergeFreq m T e = some (T.modify m (·.modify 0 (addFreq · e))) := by
      rw [mergeFreq, h]
      rfl
    have hm : listOf (T.modify m (·.modify 0 (addFreq · e))) m = some (addFreq dst e) := by
      rw [listOf_modify, if_pos rfl, h, Option.map_some]
    obtain ⟨T', hT', hdst, hframe⟩ := ih hm
    refine ⟨T', ?_, hdst, fun j hj => ?_⟩
    · rw [List.foldlM_cons, hstep]
      exact hT'
    · rw [hframe j hj, listOf_modify, if_neg hj]

theorem Adds.nil (h : (listOf T m).isSome) : Adds m [] T T :=
  ⟨fun _ _ => rfl, h, by simp, by simp⟩

theorem Adds.cons (h : listOf T m = some dst) (hsrc : listOf T i = some src)
    (hm : m ∉ i :: ixs) (hT₁ : listOf T₁ m = some (src.entries.foldl addFreq dst))
    (hframe : ∀ j, j ≠ m → listOf T₁ j = listOf T j) (ha : Adds m ixs T₁ T') :
    Adds m (i :: ixs) T T' := by
  have hsame : ∀ j ∈ ixs, listOf T₁ j = listOf T j := fun j hj =>
    hframe j fun he => hm (he ▸ List.mem_cons_of_mem _ hj)
  refine ⟨fun j hj => (ha.frame j hj).trans (hframe j hj), ha.sums.isSome, fun s => ?_,
    fun s => ?_⟩
  · have hkeys : HasKey T₁ m s ↔ HasKey T m s ∨ HasKey T i s := by
      simp only [HasKey, hT₁, h, hsrc, Option.some.injEq, exists_eq_left', mem_keys_foldl]
      rfl
    rw [ha.sums.keys, List.exists_mem_cons_iff, exists_hasKey_congr hsame, hkeys,
      List.exists_mem_cons_iff, List.exists_mem_cons_iff, or_assoc]
  · have hfreq : freqAt T₁ m s = freqAt T m s + freqAt T i s := by
      simp [freqAt, hT₁, h, hsrc, freqOf_foldl, sum_entries]
    rw [ha.sums.freq, List.map_cons, List.sum_cons, map_freqAt_congr hsame, hfreq, List.map_cons,
      List.map_cons, List.sum_cons, List.sum_cons, add_assoc]

theorem mergeTeam_chosen (hm : m ≠ 0) (hnm : m ∉ ixs)
    (hv : ∀ i ∈ m :: ixs, (listOf T i).isSome) :
    ∃ T', mergeTeam ixs m T = some (m, T') ∧ Adds m ixs T T' := by
  induction ixs generalizing T with
  | nil => exact ⟨T, rfl, .nil (hv m List.mem_cons_self)⟩
  | cons i ixs ih =>
    obtain ⟨dst, hdst⟩ := Option.isSome_iff_exists.1 (hv m List.mem_cons_self)
    obtain ⟨src, hsrc⟩ := Option.isSome_iff_exists.1 (hv i (by simp))
    obtain ⟨T₁, hT₁, hm₁, hframe⟩ := foldlM_mergeFreq src.entries hdst
    have hv₁ : ∀ j ∈ m :: ixs, (listOf T₁ j).isSome := by
      intro j hj
      by_cases he : j = m
      · rw [he, hm₁]
        rfl
      · rw [hframe j he]
        exact hv j (by grind)
    obtain ⟨T', hT', ha⟩ := ih (fun hmem => hnm (List.mem_cons_of_mem _ hmem)) hv₁
    refine ⟨T', ?_, .cons hdst hsrc hnm hm₁ hframe ha⟩
    rw [mergeTeam, if_neg hm, hsrc]
    simp only [Option.bind_eq_bind, Option.bind_some, hT₁]
    exact hT'

/-- The list that the others of a team are added to, and these: the index 0 is forgotten if a list
comes behind it. -/
def chosen : List Nat → Option (Nat × List Nat)
  | [] => none
  | [i] => some (i, [])
  | i :: j :: ixs => if i = 0 then some (j, ixs) else some (i, j :: ixs)

theorem chosen_cons (h : i ≠ 0) : chosen (i :: ixs) = some (i, ixs) := by
  cases ixs with
  | nil => rfl
  | cons j ixs => exact if_neg h

theorem chosen_subset (h : chosen ixs = some (m, rest)) : m :: rest ⊆ ixs := by
  fun_cases chosen ixs with
  | case1 => cases h
  | case2 => cases h; exact List.Subset.refl _
  | case3 j ixs => cases h; exact List.subset_cons_self _ _
  | case4 i j ixs hi =>
    rw [chosen_cons hi] at h
    cases h
    exact List.Subset.refl _

theorem mergeTeam_eq (hne : ixs ≠ []) (hn : ixs.Nodup) (hv : ∀ i ∈ ixs, (listOf T i).isSome) :
    ∃ m rest T', chosen ixs = some (m, rest) ∧ mergeTeam ixs 0 T = some (m, T') ∧
      Adds m rest T T' := by
  have hstart : ∀ {m rest}, m :: rest ⊆ ixs → (m :: rest).Nodup → m ≠ 0 →
      ∃ T', mergeTeam rest m T = some (m, T') ∧ Adds m rest T T' :=
    fun hsub hnd hm => mergeTeam_chosen hm (List.nodup_cons.1 hnd).1 fun i hi => hv i (hsub hi)
  fun_cases chosen ixs with
  | case1 => exact (hne rfl).elim
  | case2 i => exact ⟨i, [], T, rfl, rfl, .nil (hv i List.mem_cons_self)⟩
  | case3 j ixs =>
    obtain ⟨h0, hn⟩ := List.nodup_cons.1 hn
    have hj : j ≠ 0 := fun he => h0 (he ▸ List.mem_cons_self)
    obtain ⟨T', hT', ha⟩ := hstart (List.subset_cons_self _ _) hn hj
    exact ⟨j, ixs, T', rfl, hT', ha⟩
  | case4 i j ixs hi =>
    obtain ⟨T', hT', ha⟩ := hstart (List.Subset.refl _) hn hi
    exact ⟨i, j :: ixs, T', rfl, hT', ha⟩

end Team

section Teams

/-- The teams of a peer have lists, and no two of them have one in common. -/
structure DisjointTeams (teams : List (ChordID × List Nat)) (T : List (Vecomap ℚ)) : Prop where
  nonempty : ∀ e ∈ teams, e.2 ≠ []
  nodup : (teams.flatMap Prod.snd).Nodup
  valid : ∀ i ∈ teams.flatMap Prod.snd, (listOf T i).isSome

structure Merged (teams : List (ChordID × List Nat)) (p p' : Peer ℚ) : Prop where
  frame : ∀ j, j ∉ teams.flatMap Prod.snd → listOf p'.totalT j = listOf p.totalT j
  others : ∀ t, t ∉ teams.map Prod.fst → p'.teamindex.find? t = p.teamindex.find? t
  team : ∀ e ∈ teams, ∃ m rest, chosen e.2 = some (m, rest) ∧
    p'.teamindex.find? e.1 = some [m] ∧ SumsUp m (m :: rest) p.totalT p'.totalT

theorem foldlM_mergeTeamid (hids : (teams.map Prod.fst).Nodup)
    (h : DisjointTeams teams p.totalT) :
    ∃ p', teams.foldlM mergeTeamid p = some p' ∧ Merged teams p p' := by
  induction teams generalizing p with
  | nil => exact ⟨p, rfl, fun _ _ => rfl, fun _ _ => rfl, by simp⟩
  | cons e teams ih =>
    obtain ⟨hne, hnes⟩ := List.forall_mem_cons.1 h.nonempty
    have hn := h.nodup
    have hv := h.valid
    rw [List.flatMap_cons] at hn hv
    obtain ⟨hn₁, hn₂, hdisj⟩ := List.nodup_append'.1 hn
    obtain ⟨hv₁, hv₂⟩ := List.forall_mem_append.1 hv
    rw [List.map_cons, List.nodup_cons] at hids
    obtain ⟨m, rest, T₁, hc, hT₁, ha⟩ := mergeTeam_eq hne hn₁ hv₁
    have hm : m ∈ e.2 := chosen_subset hc List.mem_cons_self
    have hframe : ∀ j ∈ teams.flatMap Prod.snd, listOf T₁ j = listOf p.totalT j :=
      fun j hj => ha.frame j fun he => hdisj hm (he ▸ hj)
    have hstep : mergeTeamid p e = some ⟨T₁, p.teamindex.insert e.1 [m]⟩ := by
      rw [mergeTeamid, hT₁]
      rfl
    obtain ⟨p', hp', hmerged⟩ := ih (p := ⟨T₁, p.teamindex.insert e.1 [m]⟩) hids.2
      ⟨hnes, hn₂, fun i hi => hframe i hi ▸ hv₂ i hi⟩
    refine ⟨p', ?_, ?_, ?_, ?_⟩
    · rw [List.foldlM_cons, hstep]
      exact hp'
    · intro j hj
      rw [List.flatMap_cons, List.mem_append, not_or] at hj
      rw [hmerged.frame j hj.2]
      exact ha.frame j fun he => hj.1 (he ▸ hm)
    · intro t ht
      rw [List.map_cons, List.mem_cons, not_or] at ht
      rw [hmerged.others t ht.2]
      exact SortedMap.find?_insert_of_ne _ _ ht.1
    · intro e' he'
      rcases List.mem_cons.1 he' with rfl | he'
      · refine ⟨m, rest, hc, ?_, ha.sums.congr (fun _ _ => rfl) ?_⟩
        · rw [hmerged.others _ hids.1]
          exact SortedMap.find?_insert_self _ _ _
        · exact hmerged.frame m fun hmem => hdisj hm hmem
      · obtain ⟨m', rest', hc', hfind, hsums⟩ := hmerged.team e' he'
        refine ⟨m', rest', hc', hfind, hsums.congr (fun i hi => hframe i ?_) rfl⟩
        exact List.mem_flatMap.2 ⟨e', he', chosen_subset hc' hi⟩

def AddsUpTeams (p : Peer ℚ) : Prop :=
  ∃ p', mergebyteamid p = some p' ∧
    (∀ t, p.teamindex.find? t = none → p'.teamindex.find? t = none) ∧
    ∀ t ixs, p.teamindex.find? t = some ixs →
      ∃ m, p'.teamindex.find? t = some [m] ∧ SumsUp m ixs p.totalT p'.totalT

/-- List 0 has nothing that the other lists of its team do not have, where it is the first one of
several. -/
def NothingForgotten (p : Peer ℚ) : Prop :=
  ∀ t i ixs, p.teamindex.find? t = some (0 :: i :: ixs) → ∀ s, HasKey p.totalT 0 s →
    freqAt p.totalT 0 s = 0 ∧ ∃ j ∈ i :: ixs, HasKey p.totalT j s

theorem freqAt_of_not_hasKey (h : ¬ HasKey T i s) : freqAt T i s = 0 := by
  rw [freqAt]
  cases hm : listOf T i with
  | none => rfl
  | some m =>
    have hs : m.find? s = none := (m.find?_eq_none_iff s).2 fun hs => h ⟨m, hm, hs⟩
    simp [freqOf, hs]

theorem sumsUp_cons_zero (h : SumsUp m (i :: ixs) T T') :
    SumsUp m (0 :: i :: ixs) T T' ↔ ∀ s, HasKey T 0 s →
      freqAt T 0 s = 0 ∧ ∃ j ∈ i :: ixs, HasKey T j s := by
  constructor
  · intro h' s hs
    refine ⟨?_, ?_⟩
    · have hfreq := h'.freq s
      rw [h.freq, List.map_cons (a := 0), List.sum_cons (a := freqAt T 0 s)] at hfreq
      exact right_eq_add.1 hfreq
    · rw [← h.keys, h'.keys]
      exact ⟨0, List.mem_cons_self, hs⟩
  · intro h0
    refine ⟨h.isSome, fun s => ?_, fun s => ?_⟩
    · rw [h.keys, List.exists_mem_cons_iff (a := 0)]
      exact ⟨.inr, fun hs => hs.elim (fun hs => (h0 s hs).2) id⟩
    · have hzero : freqAt T 0 s = 0 := by
        by_cases hs : HasKey T 0 s
        · exact (h0 s hs).1
        · exact freqAt_of_not_hasKey hs
      rw [h.freq, List.map_cons (a := 0), List.sum_cons (a := freqAt T 0 s), hzero, zero_add]

theorem exists_merged (h : DisjointTeams p.teamindex.entries p.totalT) :
    ∃ p', mergebyteamid p = some p' ∧ Merged p.teamindex.entries p p' :=
  foldlM_mergeTeamid (List.pairwise_map.2 (p.teamindex.sorted.imp Nat.ne_of_lt)) h

theorem Merged.of_find? (h : Merged p.teamindex.entries p p')
    (ht : p.teamindex.find? t = some ixs) : ∃ m rest, chosen ixs = some (m, rest) ∧
      p'.teamindex.find? t = some [m] ∧ SumsUp m (m :: rest) p.totalT p'.totalT :=
  h.team (t, ixs) ((p.teamindex.mem_entries_iff t ixs).2 ht)

theorem nothingForgotten_of_addsUp (h : DisjointTeams p.teamindex.entries p.totalT)
    (ha : AddsUpTeams p) : NothingForgotten p := by
  intro t i ixs ht
  obtain ⟨p₁, hp₁, hmerged⟩ := exists_merged h
  obtain ⟨p₂, hp₂, -, hsums⟩ := ha
  obtain rfl : p₁ = p₂ := Option.some.inj (hp₁.symm.trans hp₂)
  obtain ⟨m, rest, hc, hm, hs⟩ := hmerged.of_find? ht
  obtain ⟨m', hm', hs'⟩ := hsums t _ ht
  cases hc
  cases hm.symm.trans hm'
  exact (sumsUp_cons_zero hs).1 hs'

theorem addsUp_of_nothingForgotten (h : DisjointTeams p.teamindex.entries p.totalT)
    (h0 : NothingForgotten p) : AddsUpTeams p := by
  obtain ⟨p', hp', hmerged⟩ := exists_merged h
  refine ⟨p', hp', fun t ht => ?_, fun t ixs ht => ?_⟩
  · rw [hmerged.others t, ht]
    exact (p.teamindex.find?_eq_none_iff t).1 ht
  · obtain ⟨m, rest, hc, hm, hs⟩ := hmerged.of_find? ht
    refine ⟨m, hm, ?_⟩
    fun_cases chosen ixs with
    | case1 => cases hc
    | case2 => cases hc; exact hs
    | case3 j ixs => cases hc; exact (sumsUp_cons_zero hs).2 (h0 t _ _ ht)
    | case4 i j ixs hi =>
      rw [chosen_cons hi] at hc
      cases hc
      exact hs

/-- Merging by team ID adds up all lists of a team, unless list 0 is the first of several lists of
one. -/
theorem mergebyteamid_iff (h : DisjointTeams p.teamindex.entries p.totalT) :
    AddsUpTeams p ↔ NothingForgotten p :=
  ⟨nothingForgotten_of_addsUp h, addsUp_of_nothingForgotten h⟩

/-- A team with the lists 0 and 1 in some order, of one signature each. -/
def twoLists (ixs : List Nat) : Peer ℚ :=
  ⟨[[SortedMap.empty.insert [2] (1, 1)], [SortedMap.empty.insert [3] (1, 1)]],
    SortedMap.empty.insert 5 ixs⟩

theorem twoLists_disjoint (hn : ixs.Nodup) (hne : ixs ≠ []) (h2 : ∀ i ∈ ixs, i < 2) :
    DisjointTeams (twoLists ixs).teamindex.entries (twoLists ixs).totalT := by
  have hentries : (twoLists ixs).teamindex.entries = [(5, ixs)] := rfl
  rw [hentries]
  refine ⟨by simpa using hne, by simpa using hn, fun i hi => ?_⟩
  have hi : i < 2 := h2 i (by simpa using hi)
  obtain rfl | rfl : i = 0 ∨ i = 1 := by omega
  · rfl
  · rfl

theorem mergebyteamid_iff_last :
    AddsUpTeams (twoLists [1, 0]) ∧ (twoLists [1, 0]).teamindex.find? 5 = some [1, 0] := by
  refine ⟨(mergebyteamid_iff (twoLists_disjoint (by decide) (by simp) (by simp))).2 ?_, rfl⟩
  intro t i ixs ht
  have hentry := (SortedMap.mem_entries_iff _ _ _).2 ht
  have hentries : (twoLists [1, 0]).teamindex.entries = [(5, [1, 0])] := rfl
  simp [hentries] at hentry

theorem list_forgotten :
    DisjointTeams (twoLists [0, 1]).teamindex.entries (twoLists [0, 1]).totalT ∧
      (∀ lists ∈ (twoLists [0, 1]).totalT, ∀ m ∈ lists, ∀ e ∈ m.entries, e.2.2 = 1) ∧
      ¬ AddsUpTeams (twoLists [0, 1]) := by
  have h : DisjointTeams (twoLists [0, 1]).teamindex.entries (twoLists [0, 1]).totalT :=
    twoLists_disjoint (by decide) (by simp) (by simp)
  refine ⟨h, by decide, fun ha => ?_⟩
  have hkey : HasKey (twoLists [0, 1]).totalT 0 [2] := ⟨_, rfl, by decide⟩
  obtain ⟨hfreq, -⟩ := nothingForgotten_of_addsUp h ha 5 1 [] rfl [2] hkey
  have hone : freqAt (twoLists [0, 1]).totalT 0 [2] = 1 := rfl
  rw [hone] at hfreq
  exact one_ne_zero hfreq

end Teams

end XGossip
