import XGossip.Gossip.Lists

namespace XGossip
set_option autoImplicit true

/-- The indexes of a team's lists in `totalT`, by team. -/
abbrev TeamIndex := SortedMap (fun a b : ChordID => a < b) (List Nat)

structure Peer (α : Type*) where
  totalT : List (Vecomap α)
  teamindex : TeamIndex

/-- The team of `totalT[tix]`, where `NULL` is the ID zero. -/
def findteamid (teamindex : TeamIndex) (tix : Nat) : ChordID :=
  match teamindex.entries.find? fun e => e.2.contains tix with
  | some e => e.1
  | none => 0

/-- Append a received list to the lists of its team. Only a broadcast opens a new team. -/
def add2vecomapx (bcast : Bool) (sigList : List Sig) (freqList weightList : List α)
    (teamID : ChordID) (p : Peer α) : Peer α :=
  let uniqueSigList := vec2map sigList freqList weightList
  match p.teamindex.find? teamID with
  | some ixs =>
    match ixs.head? with
    | some tind => { p with totalT := p.totalT.modify tind (· ++ [uniqueSigList]) }
    | none => p
  | none =>
    if bcast then
      { totalT := p.totalT ++ [[uniqueSigList]]
        teamindex := p.teamindex.insert teamID [p.totalT.length] }
    else p

def add2vecomapv (sigList : List Sig) (freqList weightList : List α) (p : Peer α) : Peer α :=
  { p with totalT := p.totalT.modify 0 (· ++ [vec2map sigList freqList weightList]) }

structure TeamIndex.Bijective (teamindex : TeamIndex) (n : Nat) : Prop where
  single : ∀ t ixs, teamindex.find? t = some ixs → ∃ i < n, ixs = [i]
  inj : ∀ t t' i, teamindex.find? t = some [i] → teamindex.find? t' = some [i] → t = t'
  surj : ∀ i < n, ∃ t, teamindex.find? t = some [i]

theorem TeamIndex.Bijective.findteamid_eq {teamindex : TeamIndex} (h : teamindex.Bijective n)
    (ht : teamindex.find? t = some [i]) : findteamid teamindex i = t := by
  have hmem : (t, [i]) ∈ teamindex.entries := (teamindex.mem_entries_iff _ _).2 ht
  rw [findteamid]
  cases he : teamindex.entries.find? fun e => e.2.contains i with
  | none =>
    have hn := List.find?_eq_none.1 he _ hmem
    simp at hn
  | some e =>
    have hc : e.2.contains i = true := by simpa using List.find?_some he
    have hfe := (teamindex.mem_entries_iff e.1 e.2).1 (List.mem_of_find?_eq_some he)
    obtain ⟨j, _, hj⟩ := h.single _ _ hfe
    obtain rfl : i = j := by simpa [hj] using hc
    exact h.inj _ _ i (hj ▸ hfe) ht

theorem TeamIndex.Bijective.findteamid_ne_zero {teamindex : TeamIndex}
    (h : teamindex.Bijective n) (h0 : teamindex.find? 0 = none) (hi : i < n) :
    findteamid teamindex i ≠ 0 := by
  obtain ⟨t, ht⟩ := h.surj i hi
  rw [h.findteamid_eq ht]
  intro h0'
  rw [h0', h0] at ht
  cases ht

/-- A new team takes the next index. -/
theorem TeamIndex.Bijective.insert {teamindex : TeamIndex} (h : teamindex.Bijective n)
    (ht : teamindex.find? t = none) :
    TeamIndex.Bijective (SortedMap.insert teamindex t [n]) (n + 1) := by
  constructor
  · intro t' ixs hf
    rw [SortedMap.find?_insert] at hf
    split at hf
    · cases hf
      exact ⟨n, n.lt_succ_self, rfl⟩
    · obtain ⟨i, hi, rfl⟩ := h.single t' ixs hf
      exact ⟨i, by omega, rfl⟩
  · intro t₁ t₂ i h₁ h₂
    rw [SortedMap.find?_insert] at h₁ h₂
    split at h₁
    · next he₁ =>
      cases h₁
      split at h₂
      · next he₂ => exact he₁.trans he₂.symm
      · obtain ⟨j, hj, he⟩ := h.single t₂ _ h₂
        cases he
        omega
    · split at h₂
      · cases h₂
        obtain ⟨j, hj, he⟩ := h.single t₁ _ h₁
        cases he
        omega
      · exact h.inj t₁ t₂ i h₁ h₂
  · intro i hi
    by_cases he : i = n
    · subst he
      exact ⟨t, SortedMap.find?_insert_self _ _ _⟩
    · obtain ⟨t', ht'⟩ := h.surj i (by omega)
      refine ⟨t', ?_⟩
      rw [SortedMap.find?_insert_of_ne, ht']
      intro htt
      rw [htt, ht] at ht'
      cases ht'

theorem vec2map_vecomap2vec (m : MapType α) :
    vec2map (vecomap2vec m).1 (vecomap2vec m).2.1 (vecomap2vec m).2.2 = m := by
  have hzip : (vecomap2vec m).1.zip ((vecomap2vec m).2.1.zip (vecomap2vec m).2.2) =
      m.entries := by
    simp only [vecomap2vec, List.zip_map']
    exact List.map_id _
  rw [vec2map, hzip, SortedMap.foldl_push_entries]

end XGossip
