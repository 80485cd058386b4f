import Mathlib.Data.Multiset.MapFold
import Mathlib.Algebra.BigOperators.Group.Multiset.Basic
import XGossip.Gossip.Network
import XGossip.Gossip.Team

namespace XGossip
set_option autoImplicit true

def Peer.list? (p : Peer α) (teamID : ChordID) : Option (MapType α) :=
  ((p.teamindex.find? teamID).bind List.head?).bind fun i => (p.totalT[i]?).bind List.head?

/-- A peer in the initialisation phase has one list for each of its teams. -/
structure InitPeer (p : Peer α) : Prop where
  index : p.teamindex.Bijective p.totalT.length
  single : ∀ T ∈ p.totalT, ∃ m, T = [m]

theorem InitPeer.empty : InitPeer (⟨[], .empty⟩ : Peer α) where
  index := ⟨nofun, nofun, nofun⟩
  single := nofun

theorem InitPeer.list?_of_index {p : Peer α} (hi : p.teamindex.find? t = some [i])
    (hT : p.totalT[i]? = some [m]) : p.list? t = some m := by
  simp only [Peer.list?, hi, hT, Option.bind_some, List.head?_cons]

theorem InitPeer.list?_eq_none_iff {p : Peer α} (h : InitPeer p) :
    p.list? t = none ↔ p.teamindex.find? t = none := by
  cases hi : p.teamindex.find? t with
  | none => simp [Peer.list?, hi]
  | some ixs =>
    obtain ⟨i, hlt, rfl⟩ := h.index.single t ixs hi
    have hT := List.getElem?_eq_getElem hlt
    obtain ⟨m, hm⟩ := h.single _ (List.getElem_mem hlt)
    rw [hm] at hT
    simp [list?_of_index hi hT]

theorem InitPeer.list?_eq_some {p : Peer α} (h : InitPeer p) (hl : p.list? t = some m) :
    ∃ i, p.teamindex.find? t = some [i] ∧ p.totalT[i]? = some [m] := by
  cases hi : p.teamindex.find? t with
  | none => simp [Peer.list?, hi] at hl
  | some ixs =>
    obtain ⟨i, hlt, rfl⟩ := h.index.single t ixs hi
    have hT := List.getElem?_eq_getElem hlt
    obtain ⟨m', hm⟩ := h.single _ (List.getElem_mem hlt)
    rw [hm] at hT
    rw [list?_of_index hi hT] at hl
    cases hl
    exact ⟨i, rfl, hT⟩

/-- Replacing the list of one team leaves the others alone. -/
theorem InitPeer.set_list {p : Peer α} (h : InitPeer p) (hi : p.teamindex.find? t = some [i]) :
    InitPeer { p with totalT := p.totalT.set i [m] } ∧
      ∀ t', ({ p with totalT := p.totalT.set i [m] } : Peer α).list? t' =
        if t' = t then some m else p.list? t' := by
  have hlt : i < p.totalT.length := by
    obtain ⟨j, hj, he⟩ := h.index.single t _ hi
    cases he
    exact hj
  constructor
  · constructor
    · simpa using h.index
    · intro T hT
      rcases List.mem_or_eq_of_mem_set hT with hT | rfl
      · exact h.single T hT
      · exact ⟨m, rfl⟩
  · intro t'
    split
    · next ht =>
      subst ht
      exact list?_of_index hi (by simp [hlt])
    · next ht =>
      cases hi' : p.teamindex.find? t' with
      | none => simp [Peer.list?, hi']
      | some ixs =>
        obtain ⟨j, -, rfl⟩ := h.index.single t' ixs hi'
        have hij : i ≠ j := by
          intro he
          subst he
          exact ht (h.index.inj t' t i hi' hi)
        simp [Peer.list?, hi', List.getElem?_set_ne hij]

/-- A new team gets the next index. -/
theorem InitPeer.add_team {p : Peer α} (h : InitPeer p) (ht : p.teamindex.find? t = none) :
    InitPeer (⟨p.totalT ++ [[m]], p.teamindex.insert t [p.totalT.length]⟩ : Peer α) ∧
      ∀ t', (⟨p.totalT ++ [[m]], p.teamindex.insert t [p.totalT.length]⟩ : Peer α).list? t' =
        if t' = t then some m else p.list? t' := by
  constructor
  · constructor
    · simpa using h.index.insert ht
    · intro T hT
      rcases List.mem_append.1 hT with hT | hT
      · exact h.single T hT
      · exact ⟨m, List.mem_singleton.1 hT⟩
  · intro t'
    split
    · next he =>
      subst he
      exact list?_of_index (SortedMap.find?_insert_self _ _ _) (by simp)
    · next he =>
      simp only [Peer.list?, SortedMap.find?_insert_of_ne _ _ he]
      cases hi : p.teamindex.find? t' with
      | none => rfl
      | some ixs =>
        obtain ⟨i, hlt, rfl⟩ := h.index.single t' ixs hi
        simp [List.getElem?_append_left hlt]

theorem InitPeer.exists_list (h : InitPeer p) (hi : p.teamindex.find? t = some ixs) :
    ∃ i m, ixs = [i] ∧ p.totalT[i]? = some [m] ∧ p.list? t = some m := by
  obtain ⟨i, hlt, rfl⟩ := h.index.single t ixs hi
  obtain ⟨m, hm⟩ := h.single _ (List.getElem_mem hlt)
  have hT : p.totalT[i]? = some [m] := (List.getElem?_eq_getElem hlt).trans (congrArg some hm)
  exact ⟨i, m, rfl, hT, InitPeer.list?_of_index hi hT⟩

theorem initgossiprecv_spec (h : InitPeer p) :
    InitPeer (initgossiprecv k ID t sig freq weight p).1 ∧
      ∀ t', (initgossiprecv k ID t sig freq weight p).1.list? t' =
        if t' = t then some (initList sig freq weight ((p.list? t).getD hldList)).1
        else p.list? t' := by
  cases hi : p.teamindex.find? t with
  | some ixs =>
    obtain ⟨i, m, rfl, hT, hl⟩ := h.exists_list hi
    simp only [initgossiprecv, openTeam, hi, List.headD_cons, List.getD_eq_getElem?_getD, hT,
      Option.getD_some, hl, List.tail_cons]
    exact h.set_list hi
  | none =>
    have hl : p.list? t = none := h.list?_eq_none_iff.2 hi
    simp only [initgossiprecv, openTeam, hi, List.getD_eq_getElem?_getD,
      List.getElem?_concat_length, Option.getD_some, List.headD_nil, hl, Option.getD_none,
      List.tail_nil, List.set_append_right _ _ (Nat.le_refl _), Nat.sub_self, List.set_cons_zero]
    exact h.add_team hi

theorem initgossiprecv_emit (h : InitPeer p) :
    (initgossiprecv k ID t sig freq weight p).2 =
      (initList sig freq weight ((p.list? t).getD hldList)).2.elim [] (informteam k ID t) := by
  cases hi : p.teamindex.find? t with
  | some ixs =>
    obtain ⟨i, m, rfl, hT, hl⟩ := h.exists_list hi
    simp only [initgossiprecv, openTeam, hi, List.headD_cons, List.getD_eq_getElem?_getD, hT,
      Option.getD_some, hl]
  | none =>
    simp only [initgossiprecv, openTeam, hi, List.getD_eq_getElem?_getD,
      List.getElem?_concat_length, Option.getD_some, List.headD_nil,
      h.list?_eq_none_iff.2 hi, Option.getD_none]

theorem hldList_find : hldList.find? s = if s = hldsig then some (0, 1) else none := by
  rw [hldList, SortedMap.find?_insert, SortedMap.find?_empty]

/-- A list past its first message never lacks `dummysig`. -/
theorem initList_find (hsig : sig ≠ dummysig)
    (hm : m.find? sig ≠ none → m.find? dummysig ≠ none) :
    (initList sig freq weight m).1.find? s =
      if s = sig then some ((m.find? sig).elim (freq, weight) fun v => (v.1 + freq, v.2))
      else if s = dummysig then some ((m.find? dummysig).getD (0, 1))
      else m.find? s := by
  rw [initList, if_pos hsig]
  cases hs : m.find? sig with
  | some v =>
    obtain ⟨w, hw⟩ := Option.ne_none_iff_exists'.1 (hm (by simp [hs]))
    simp only [SortedMap.find?_insert, Option.elim_some]
    split
    · rfl
    · split
      · next hd => rw [hd, hw, Option.getD_some]
      · rfl
  | none =>
    cases hd : m.find? dummysig with
    | some w =>
      simp only [SortedMap.find?_push, hs, Option.elim_none, Option.getD_some]
      split
      · rfl
      · split
        · next he => rw [he, hd]
        · rfl
    | none =>
      have hne : dummysig ≠ sig := hsig.symm
      simp only [SortedMap.find?_push, hs, hd, Option.elim_none, Option.getD_none]
      by_cases he : s = sig
      · subst he
        simp [hsig]
      · by_cases he' : s = dummysig
        · subst he'
          simp [hne]
        · simp [he, he']

theorem initList_find_dummysig :
    (initList dummysig freq weight m).1.find? s =
      if s = dummysig then some ((m.find? dummysig).getD (freq, weight)) else m.find? s := by
  rw [initList, if_neg (fun hn => hn rfl)]
  cases hd : m.find? dummysig with
  | some w =>
    simp only [Option.getD_some]
    split
    · next he => rw [he, hd]
    · rfl
  | none => simp only [SortedMap.find?_push, hd, Option.getD_none]

def InitMsg.Valid (m : InitMsg) : Prop :=
  match m.type with
  | .INITGOSSIP => DocumentSig m.sig ∧ m.weight = 1
  | .INFORMTEAM => m.sig = dummysig ∧ m.freq = 0 ∧ m.weight = 1

def initFreqs (ms : Multiset InitMsg) (t : ChordID) (s : Sig) : Multiset ℚ :=
  (ms.filter fun m => m.type = .INITGOSSIP ∧ m.teamid = t ∧ m.sig = s).map InitMsg.freq

/-- The list of a team that a multiset of messages adds up to. -/
def initTable (ms : Multiset InitMsg) (t : ChordID) (s : Sig) : Option (ℚ × ℚ) :=
  if s = hldsig ∨ s = dummysig then some (0, 1)
  else if initFreqs ms t s = 0 then none
  else some ((initFreqs ms t s).sum, 1)

theorem initFreqs_concat (l : List InitMsg) (m : InitMsg) :
    initFreqs ↑(l ++ [m]) t s = initFreqs ↑l t s +
      if m.type = .INITGOSSIP ∧ m.teamid = t ∧ m.sig = s then {m.freq} else 0 := by
  rw [← Multiset.coe_add, initFreqs, Multiset.filter_add, Multiset.map_add, initFreqs]
  congr 1
  rw [Multiset.coe_singleton, Multiset.filter_singleton]
  split
  · rfl
  · rfl

theorem initTable_concat_other {m : InitMsg}
    (h : ¬ (m.type = .INITGOSSIP ∧ m.teamid = t ∧ m.sig = s)) :
    initTable ↑(l ++ [m]) t s = initTable ↑l t s := by
  rw [initTable, initFreqs_concat, if_neg h, add_zero]
  rfl

theorem initTable_concat_self {m : InitMsg} (hs : DocumentSig m.sig) (ht : m.type = .INITGOSSIP) :
    initTable ↑(l ++ [m]) m.teamid m.sig =
      some ((initTable ↑l m.teamid m.sig).elim (m.freq, 1) fun v => (v.1 + m.freq, v.2)) := by
  have hne : ¬ (m.sig = hldsig ∨ m.sig = dummysig) :=
    fun hn => hn.elim hs.ne_hldsig hs.ne_dummysig
  have hadd : ¬ initFreqs ↑l m.teamid m.sig + {m.freq} = 0 := by
    rw [Multiset.add_singleton_eq_iff]
    simp
  simp only [initTable, if_neg hne, initFreqs_concat, ht, and_self, if_true, if_neg hadd]
  split
  · next h0 => simp [h0]
  · simp

/-- The state of a peer when it has received a sequence of messages. -/
structure Accumulated (l : List InitMsg) (p : Peer ℚ) : Prop where
  peer : InitPeer p
  present : ∀ t, (∃ m ∈ l, m.teamid = t) →
    ∃ m, p.list? t = some m ∧ ∀ s, m.find? s = initTable ↑l t s
  absent : ∀ t, (∀ m ∈ l, m.teamid ≠ t) → p.list? t = none

theorem Accumulated.find (h : Accumulated l p) (t : ChordID) :
    (∀ s, s ≠ dummysig → ((p.list? t).getD hldList).find? s = initTable ↑l t s) ∧
      ((p.list? t).getD hldList).find? dummysig =
        if ∃ m ∈ l, m.teamid = t then some (0, 1) else none := by
  by_cases hx : ∃ m ∈ l, m.teamid = t
  · obtain ⟨m, hm, hf⟩ := h.present t hx
    rw [hm, Option.getD_some]
    refine ⟨fun s _ => hf s, ?_⟩
    rw [hf, if_pos hx, initTable, if_pos (.inr rfl)]
  · have hno : ∀ m ∈ l, m.teamid ≠ t := fun m hm he => hx ⟨m, hm, he⟩
    rw [h.absent t hno, Option.getD_none, if_neg hx]
    constructor
    · intro s hs
      have hfreq : initFreqs ↑l t s = 0 := by
        rw [initFreqs, Multiset.map_eq_zero, Multiset.filter_eq_nil]
        intro m hm hmt
        exact hno m hm hmt.2.1
      simp only [hldList_find, initTable, hs, or_false, hfreq, if_true]
    · rw [hldList_find, if_neg hldsig_ne_dummysig.symm]

theorem readInit_spec (k : Nat) (m : InitMsg) (h : InitPeer p) :
    InitPeer (readInit true k m p).1 ∧ ∀ t, (readInit true k m p).1.list? t =
      if t = m.teamid then
        some (initList m.sig m.freq m.weight ((p.list? m.teamid).getD hldList)).1
      else p.list? t :=
  initgossiprecv_spec h

/-- The message adds its frequency to the list of its team and nothing else. -/
theorem Accumulated.initList_eq (h : Accumulated l p) (hm : InitMsg.Valid m) (s : Sig) :
    (initList m.sig m.freq m.weight ((p.list? m.teamid).getD hldList)).1.find? s =
      initTable ↑(l ++ [m]) m.teamid s := by
  obtain ⟨hfind, hdummy⟩ := h.find m.teamid
  have hget : (((p.list? m.teamid).getD hldList).find? dummysig).getD (0, 1) = (0, 1) := by
    rw [hdummy]
    split
    · rfl
    · rfl
  have hd : initTable ↑(l ++ [m]) m.teamid dummysig = some (0, 1) := if_pos (.inr rfl)
  cases ht : m.type with
  | INFORMTEAM =>
    simp only [InitMsg.Valid, ht] at hm
    obtain ⟨hsig, hfreq, hweight⟩ := hm
    rw [hsig, hfreq, hweight, initList_find_dummysig, hget]
    split
    · next he => rw [he, hd]
    · next he =>
      rw [hfind s he, initTable_concat_other]
      simp [ht]
  | INITGOSSIP =>
    simp only [InitMsg.Valid, ht] at hm
    obtain ⟨hsig, hweight⟩ := hm
    have hseen : ((p.list? m.teamid).getD hldList).find? m.sig ≠ none →
        ((p.list? m.teamid).getD hldList).find? dummysig ≠ none := by
      intro hne
      rw [hdummy, if_pos]
      · exact Option.some_ne_none _
      · by_contra hno
        have hl : p.list? m.teamid = none := h.absent _ fun m' hm' he => hno ⟨m', hm', he⟩
        rw [hl, Option.getD_none, hldList_find, if_neg hsig.ne_hldsig] at hne
        exact hne rfl
    rw [initList_find hsig.ne_dummysig hseen, hget, hfind _ hsig.ne_dummysig, hweight]
    split
    · next he => rw [he, initTable_concat_self hsig ht]
    · next he =>
      split
      · next he' => rw [he', hd]
      · next he' =>
        rw [hfind s he', initTable_concat_other]
        exact fun hn => he hn.2.2.symm

/-- One more message. -/
theorem Accumulated.step (h : Accumulated l p) (hm : InitMsg.Valid m) :
    Accumulated (l ++ [m]) (readInit true k m p).1 := by
  obtain ⟨hpeer, hlist⟩ := readInit_spec k m h.peer
  constructor
  · exact hpeer
  · intro t ht
    rw [hlist]
    split
    · next he =>
      subst he
      exact ⟨_, rfl, h.initList_eq hm⟩
    · next he =>
      obtain ⟨m', hm', ht'⟩ := ht
      have hmem : m' ∈ l := by
        rcases List.mem_append.1 hm' with hm' | hm'
        · exact hm'
        · exact (he (ht' ▸ congrArg InitMsg.teamid (List.mem_singleton.1 hm'))).elim
      obtain ⟨m₀, hm₀, hfind⟩ := h.present t ⟨m', hmem, ht'⟩
      refine ⟨m₀, hm₀, ?_⟩
      intro s
      rw [hfind, initTable_concat_other]
      exact fun hn => he hn.2.1.symm
  · intro t ht
    rw [hlist, if_neg]
    · exact h.absent t fun m' hm' => ht m' (List.mem_append_left _ hm')
    · exact fun he => ht m (List.mem_append_right _ List.mem_cons_self) he.symm

/-- The state of a peer that has received a sequence of messages. -/
def readInits (teamsize : Nat) (l : List InitMsg) : Peer ℚ :=
  l.foldl (fun p m => (readInit true teamsize m p).1) ⟨[], .empty⟩

theorem accumulated_readInits (k : Nat) (l : List InitMsg) (h : ∀ m ∈ l, InitMsg.Valid m) :
    Accumulated l (readInits k l) := by
  induction l using List.reverseRecOn with
  | nil =>
    constructor
    · exact InitPeer.empty
    · rintro t ⟨m, hm, -⟩
      cases hm
    · exact fun _ _ => rfl
  | append_singleton l m ih =>
    have hl := ih fun m hm => h m (List.mem_append_left _ hm)
    rw [readInits, List.foldl_append, List.foldl_cons, List.foldl_nil]
    exact hl.step (h m (List.mem_append_right _ List.mem_cons_self))

/-- In every order of arrival the messages add up to the same lists, one for each team. -/
theorem readInits_any_order (k : Nat) (ms : Multiset InitMsg) (hms : ∀ m ∈ ms, InitMsg.Valid m)
    (l : List InitMsg) (hl : (l : Multiset InitMsg) = ms) :
    (∀ t, (∃ m ∈ ms, m.teamid = t) → ∃ i m, (readInits k l).teamindex.find? t = some [i] ∧
      (readInits k l).totalT[i]? = some [m] ∧ ∀ s, m.find? s = initTable ms t s) ∧
    (∀ t, (∀ m ∈ ms, m.teamid ≠ t) → (readInits k l).teamindex.find? t = none) ∧
    ∀ i < (readInits k l).totalT.length, ∃! t, (readInits k l).teamindex.find? t = some [i] := by
  subst hl
  have hacc := accumulated_readInits k l hms
  refine ⟨?_, ?_, ?_⟩
  · intro t ht
    obtain ⟨m, hm, hfind⟩ := hacc.present t ht
    obtain ⟨i, hi, hT⟩ := hacc.peer.list?_eq_some hm
    exact ⟨i, m, hi, hT, hfind⟩
  · intro t ht
    exact hacc.peer.list?_eq_none_iff.1 (hacc.absent t ht)
  · intro i hi
    obtain ⟨t, ht⟩ := hacc.peer.index.surj i hi
    exact ⟨t, ht, fun t' ht' => hacc.peer.index.inj t' t i ht' ht⟩

theorem readInits_any_order_three :
    ∃ i m, (readInits 3 [⟨.INITGOSSIP, 7, 7, [5], 1, 1⟩, ⟨.INFORMTEAM, 7, 7, [1], 0, 1⟩,
        ⟨.INITGOSSIP, 7, 7, [5], 2, 1⟩]).teamindex.find? 7 = some [i] ∧
      (readInits 3 [⟨.INITGOSSIP, 7, 7, [5], 1, 1⟩, ⟨.INFORMTEAM, 7, 7, [1], 0, 1⟩,
        ⟨.INITGOSSIP, 7, 7, [5], 2, 1⟩]).totalT[i]? = some [m] ∧ m.find? [5] = some (3, 1) := by
  have hdoc : DocumentSig [5#32] := ⟨by decide, by decide, by decide⟩
  obtain ⟨i, m, hi, hT, hfind⟩ := (readInits_any_order 3
    ↑[⟨.INITGOSSIP, 7, 7, [5], 1, 1⟩, ⟨.INFORMTEAM, 7, 7, [1], 0, 1⟩,
      (⟨.INITGOSSIP, 7, 7, [5], 2, 1⟩ : InitMsg)]
    (by simp [InitMsg.Valid, hdoc, dummysig]) _ rfl).1 7 (by simp)
  refine ⟨i, m, hi, hT, ?_⟩
  rw [hfind]
  decide +kernel

theorem initTable_keys {l : List InitMsg} (h : ∀ m ∈ l, InitMsg.Valid m) (hs : (initTable ↑l t s).isSome) :
    s = hldsig ∨ s = dummysig ∨ DocumentSig s := by
  rw [initTable] at hs
  split at hs
  · next hd => exact hd.elim .inl fun hd => .inr (.inl hd)
  · split at hs
    · cases hs
    · next hne =>
      obtain ⟨f, hf⟩ := Multiset.exists_mem_of_ne_zero hne
      obtain ⟨m, hmem, -⟩ := Multiset.mem_map.1 hf
      obtain ⟨hm, ht, -, rfl⟩ := Multiset.mem_filter.1 hmem
      have hv := h m (Multiset.mem_coe.1 hm)
      simp only [InitMsg.Valid, ht] at hv
      exact .inr (.inr hv.1)

theorem initTable_wellFormed {l : List InitMsg} {m : MapType ℚ}
    (h : ∀ m ∈ l, InitMsg.Valid m)
    (hm : ∀ s, m.find? s = initTable ↑l t s) : WellFormedList false m := by
  have hh : m.find? hldsig = some (0, 1) := (hm _).trans (if_pos (.inl rfl))
  have hd : m.find? dummysig = some (0, 1) := (hm _).trans (if_pos (.inr rfl))
  have hkeys : ∀ s ∈ m.keys, s = hldsig ∨ s = dummysig ∨ SigLt dummysig s := by
    intro s hs
    rw [SortedMap.mem_keys_iff, hm] at hs
    rcases initTable_keys h hs with he | he | he
    · exact .inl he
    · exact .inr (.inl he)
    · exact .inr (.inr he.dummysig_lt)
  refine ⟨⟨SortedMap.begin?_eq_some ?_ ?_, SortedMap.next?_eq_some ?_ hldsig_lt_dummysig ?_⟩, 1, hd⟩
  · rw [SortedMap.mem_keys_iff, hh]
    rfl
  · intro s hs hlt
    rcases hkeys s hs with rfl | rfl | he
    · exact irrefl_of SigLt _ hlt
    · exact asymm_of SigLt hlt hldsig_lt_dummysig
    · exact asymm_of SigLt (trans_of SigLt hlt hldsig_lt_dummysig) he
  · rw [SortedMap.mem_keys_iff, hd]
    rfl
  · intro s hs hlt hlt'
    rcases hkeys s hs with rfl | rfl | he
    · exact irrefl_of SigLt _ hlt
    · exact irrefl_of SigLt _ hlt'
    · exact asymm_of SigLt hlt' he

/-- The initialisation phase leaves a peer in a state the exec phase can start from. -/
theorem readInits_wellFormed (k : Nat) (l : List InitMsg) (h : ∀ m ∈ l, InitMsg.Valid m)
    (h0 : ∀ m ∈ l, m.teamid ≠ 0) : WellFormedGossiper false ⟨readInits k l, [], none⟩ := by
  have hacc := accumulated_readInits k l h
  constructor
  · intro T hT
    obtain ⟨m, rfl⟩ := hacc.peer.single T hT
    exact List.cons_ne_nil _ _
  · intro T hT m hm
    obtain ⟨m', rfl⟩ := hacc.peer.single T hT
    obtain rfl := List.mem_singleton.1 hm
    obtain ⟨i, hi⟩ := List.mem_iff_getElem?.1 hT
    obtain ⟨t, ht⟩ := hacc.peer.index.surj i (List.getElem?_eq_some_iff.1 hi).1
    have hl := InitPeer.list?_of_index ht hi
    have hx : ∃ m ∈ l, m.teamid = t := by
      by_contra hno
      rw [hacc.absent t fun m hm he => hno ⟨m, hm, he⟩] at hl
      cases hl
    obtain ⟨m₀, hm₀, hfind⟩ := hacc.present t hx
    rw [hl] at hm₀
    cases hm₀
    exact initTable_wellFormed h hfind
  · exact hacc.peer.index
  · exact fun _ => hacc.peer.list?_eq_none_iff.1 (hacc.absent 0 h0)
  · exact List.nodup_nil
  · exact fun _ hi => nomatch hi
  · exact nofun
  · exact nofun

end XGossip
