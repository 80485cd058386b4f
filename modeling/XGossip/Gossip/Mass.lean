import Mathlib.Algebra.BigOperators.Group.Finset.Basic
import Mathlib.Algebra.BigOperators.GroupWithZero.Action
import Mathlib.Tactic.Abel
import XGossip.Gossip.Network

namespace XGossip
set_option autoImplicit true

def massOf (T : Vecomap ℚ) (s : Sig) : ℚ × ℚ := (T.map (effective · s)).sum

def teamLists (vanilla : Bool) (p : Peer ℚ) (t : ChordID) : Vecomap ℚ :=
  ((slot vanilla p t).bind (p.totalT[·]?)).getD []

/-- The copies of `T_0` that the round has still to send count as in flight. -/
def copyMass (vanilla : Bool) (t : ChordID) (s : Sig) (g : Gossiper) : ℚ × ℚ :=
  (g.tosend.map fun i => if slot vanilla g.peer t = some i then
    massOf ((teamLists vanilla g.peer t).take 1) s else 0).sum

def msgMass (vanilla : Bool) (t : ChordID) (s : Sig) (m : GossipMsg) : ℚ × ℚ :=
  if vanilla ∨ m.teamid = t then effective m.list s else 0

def flightMass (vanilla : Bool) (t : ChordID) (s : Sig) (l : List GossipMsg) : ℚ × ℚ :=
  (l.map (msgMass vanilla t s)).sum

def Gossiper.mass (vanilla : Bool) (t : ChordID) (s : Sig) (g : Gossiper) : ℚ × ℚ :=
  massOf (teamLists vanilla g.peer t) s + copyMass vanilla t s g +
    flightMass vanilla t s (g.wire.map Prod.snd).toList

/-- The effective `(freq, weight)` of a signature in a team, over all lists and messages. -/
def Network.mass [Fintype ι] (vanilla : Bool) (t : ChordID) (s : Sig) (nw : Network ι) : ℚ × ℚ :=
  ∑ q, (nw.peers q).mass vanilla t s + flightMass vanilla t s nw.flight

theorem massOf_cons (m : MapType ℚ) (T : Vecomap ℚ) (s : Sig) :
    massOf (m :: T) s = effective m s + massOf T s := by
  simp only [massOf, List.map_cons, List.sum_cons]

theorem massOf_append (T T' : Vecomap ℚ) (s : Sig) :
    massOf (T ++ T') s = massOf T s + massOf T' s := by
  simp only [massOf, List.map_append, List.sum_append]

theorem flightMass_append (l l' : List GossipMsg) :
    flightMass vanilla t s (l ++ l') = flightMass vanilla t s l + flightMass vanilla t s l' := by
  simp only [flightMass, List.map_append, List.sum_append]

theorem flightMass_singleton (m : GossipMsg) :
    flightMass vanilla t s [m] = msgMass vanilla t s m := by
  simp only [flightMass, List.map_cons, List.map_nil, List.sum_cons, List.sum_nil, add_zero]

theorem flightMass_nil : flightMass vanilla t s [] = 0 := rfl

theorem copyMass_cons (p : Peer ℚ) (i : Nat) (rest : List Nat) (w : Option (Nat × GossipMsg)) :
    copyMass vanilla t s ⟨p, i :: rest, w⟩ =
      (if slot vanilla p t = some i then massOf ((teamLists vanilla p t).take 1) s else 0) +
        copyMass vanilla t s ⟨p, rest, w⟩ := by
  simp only [copyMass, List.map_cons, List.sum_cons]

theorem copyMass_of_not_mem {l : List Nat} (h : slot vanilla p t = some i) (hi : i ∉ l) :
    copyMass vanilla t s ⟨p, l, w⟩ = 0 := by
  rw [copyMass]
  apply List.sum_eq_zero
  intro x hx
  obtain ⟨j, hj, rfl⟩ := List.mem_map.1 hx
  rw [if_neg]
  rw [h]
  rintro ⟨⟩
  exact hi hj

theorem teamLists_of_slot (h : slot vanilla p t = some i) (hT : p.totalT[i]? = some T) :
    teamLists vanilla p t = T := by
  rw [teamLists, h, Option.bind_some, hT, Option.getD_some]

theorem teamLists_of_none (h : slot vanilla p t = none) : teamLists vanilla p t = [] := by
  rw [teamLists, h]
  rfl

theorem teamLists_modify (vanilla : Bool) (t : ChordID) (f : Vecomap ℚ → Vecomap ℚ)
    (hT : p.totalT[i]? = some T) :
    teamLists vanilla { p with totalT := p.totalT.modify i f } t =
      if slot vanilla p t = some i then f T else teamLists vanilla p t := by
  change ((slot vanilla p t).bind ((p.totalT.modify i f)[·]?)).getD [] = _
  cases hs : slot vanilla p t with
  | none => simp [teamLists, hs]
  | some j =>
    simp only [Option.bind_some, List.getElem?_modify, Option.some.injEq]
    split
    · next hij =>
      subst hij
      simp [hT]
    · next hij =>
      have hij' : ¬ j = i := fun he => hij he.symm
      simp [teamLists, hs, hij']

theorem effective_double {m : MapType ℚ} :
    effective (m.mapVal fun _ v => (v.1 * 2, v.2 * 2)) s = effective m s + effective m s := by
  simp only [effective, SortedMap.find?_mapVal]
  cases m.find? s with
  | some v => simp [mul_two, Prod.ext_iff]
  | none =>
    cases m.find? dummysig with
    | some v => simp [mul_two, Prod.ext_iff]
    | none => simp

theorem multiplyfreq_cons (m : MapType ℚ) (T : Vecomap ℚ) :
    multiplyfreq (m :: T) 0 2 2 = (m.mapVal fun _ v => (v.1 * 2, v.2 * 2)) :: T := by
  simp [multiplyfreq]

theorem WellFormedList.double {m : MapType ℚ} (h : WellFormedList vanilla m) :
    WellFormedList vanilla (m.mapVal fun _ v => (v.1 * 2, v.2 * 2)) := by
  obtain ⟨w, hw⟩ := h.dummy
  refine h.of_keys ⟨w * 2, by simp [hw]⟩ ?_
  intro s _
  rw [SortedMap.mem_keys_iff, SortedMap.mem_keys_iff, SortedMap.find?_mapVal, Option.isSome_map]

theorem gossipMsg_spec (h : gossipMsg teamid totalT i = some m) :
    m.teamid = teamid ∧ ∃ T rest, totalT[i]? = some (T :: rest) ∧ m.list = T := by
  simp only [gossipMsg, Option.bind_eq_bind, Option.bind_eq_some_iff] at h
  obtain ⟨T, hT, T₀, hT₀, hm⟩ := h
  cases T with
  | nil => cases hT₀
  | cons _ rest =>
    cases hT₀
    cases hm
    exact ⟨rfl, T₀, rest, hT, vec2map_vecomap2vec T₀⟩

theorem WellFormedGossiper.tail (h : WellFormedGossiper vanilla ⟨p, i :: rest, none⟩) :
    WellFormedGossiper vanilla ⟨p, rest, none⟩ :=
  ⟨h.nonempty, h.lists, h.index, h.nonzero, (List.nodup_cons.1 h.tosend).2,
    fun j hj => h.range j (List.mem_cons_of_mem _ hj),
    fun hv j hj => h.vanillaSend hv j (List.mem_cons_of_mem _ hj), fun _ _ he => nomatch he⟩

theorem WellFormedGossiper.landed (h : WellFormedGossiper vanilla ⟨p, rest, w⟩) :
    WellFormedGossiper vanilla ⟨p, rest, none⟩ :=
  ⟨h.nonempty, h.lists, h.index, h.nonzero, h.tosend, h.range, h.vanillaSend, fun _ _ he => nomatch he⟩

theorem transmit_wf (h : WellFormedGossiper vanilla ⟨p, i :: rest, none⟩)
    (ht : vanilla = false → teamid = findteamid p.teamindex i ∧ teamid ≠ 0)
    (hm : gossipMsg teamid p.totalT i = some m) :
    WellFormedGossiper vanilla ⟨p, rest, some (i, m)⟩ := by
  obtain ⟨hteam, hlist⟩ := gossipMsg_spec hm
  refine { h.tail with wire := ?_ }
  rintro _ _ ⟨⟩
  exact ⟨(List.nodup_cons.1 h.tosend).1, fun hv => h.vanillaSend hv i List.mem_cons_self,
    fun hv => hteam.trans (ht hv).1, hlist⟩

theorem WellFormedGossiper.msgMass_eq (h : WellFormedGossiper vanilla ⟨p, rest, some (i, m)⟩)
    (hT : p.totalT[i]? = some (T :: tl)) :
    msgMass vanilla t s m = if slot vanilla p t = some i then effective T s else 0 := by
  obtain ⟨-, hv, hteam, T', tl', hT', hm⟩ := h.wire i m rfl
  have hi : i < p.totalT.length := (List.getElem?_eq_some_iff.1 hT).1
  have hiff := h.slot_iff (t := t) hi hv
  rw [hT] at hT'
  cases hT'
  simp only [msgMass, hm, hiff]
  cases vanilla with
  | true => simp
  | false => simp [hteam rfl]

theorem transmit_mass (h : WellFormedGossiper vanilla ⟨p, rest, some (i, m)⟩) :
    Gossiper.mass vanilla t s ⟨p, rest, some (i, m)⟩ =
      Gossiper.mass vanilla t s ⟨p, i :: rest, none⟩ := by
  obtain ⟨-, -, -, T, tl, hT, -⟩ := h.wire i m rfl
  have hcopy : (if slot vanilla p t = some i then
      massOf ((teamLists vanilla p t).take 1) s else 0) = msgMass vanilla t s m := by
    rw [h.msgMass_eq hT]
    split
    · next hs =>
      rw [teamLists_of_slot hs hT, List.take_succ_cons, List.take_zero, massOf_cons]
      exact add_zero _
    · rfl
  have htail : copyMass vanilla t s ⟨p, rest, some (i, m)⟩ =
      copyMass vanilla t s ⟨p, rest, none⟩ := rfl
  simp only [Gossiper.mass, copyMass_cons, hcopy, Option.map_some, Option.toList_some,
    flightMass_singleton, Option.map_none, Option.toList_none, flightMass_nil, htail]
  abel

theorem sent_mass : Gossiper.mass vanilla t s ⟨p, rest, none⟩ + flightMass vanilla t s [m] =
    Gossiper.mass vanilla t s ⟨p, rest, some (i, m)⟩ := by
  have htail : copyMass vanilla t s ⟨p, rest, some (i, m)⟩ =
      copyMass vanilla t s ⟨p, rest, none⟩ := rfl
  simp only [Gossiper.mass, Option.map_some, Option.toList_some, Option.map_none,
    Option.toList_none, flightMass_nil, htail, add_zero]

theorem WellFormedGossiper.modify (h : WellFormedGossiper vanilla ⟨p, rest, none⟩)
    (f : Vecomap ℚ → Vecomap ℚ) (hne : ∀ T, T ≠ [] → f T ≠ [])
    (hf : ∀ T, (∀ m ∈ T, WellFormedList vanilla m) → ∀ m ∈ f T, WellFormedList vanilla m) :
    WellFormedGossiper vanilla ⟨{ p with totalT := p.totalT.modify i f }, rest, none⟩ := by
  have hmem : ∀ T ∈ p.totalT.modify i f, ∃ T' ∈ p.totalT, T = T' ∨ T = f T' := by
    intro T hT
    obtain ⟨j, hj⟩ := List.mem_iff_getElem?.1 hT
    rw [List.getElem?_modify] at hj
    obtain ⟨T', hT', rfl⟩ := Option.map_eq_some_iff.1 hj
    refine ⟨T', List.mem_of_getElem? hT', ?_⟩
    split
    · exact .inr rfl
    · exact .inl rfl
  refine ⟨?_, ?_, ?_, h.nonzero, h.tosend, ?_, h.vanillaSend, fun _ _ he => nomatch he⟩
  · intro T hT
    obtain ⟨T', hT', rfl | rfl⟩ := hmem T hT
    · exact h.nonempty T hT'
    · exact hne T' (h.nonempty T' hT')
  · intro T hT
    obtain ⟨T', hT', rfl | rfl⟩ := hmem T hT
    · exact h.lists T hT'
    · exact hf T' (h.lists T' hT')
  · have hidx := h.index
    cases vanilla with
    | true =>
      intro hnil
      apply hidx
      have hlen := congrArg List.length hnil
      rw [List.length_modify] at hlen
      exact List.length_eq_zero_iff.1 hlen
    | false => simpa using hidx
  · intro j hj
    simpa using h.range j hj

theorem failed_wf (h : WellFormedGossiper vanilla ⟨p, rest, some (i, m)⟩) :
    WellFormedGossiper vanilla
      ⟨{ p with totalT := p.totalT.modify i (multiplyfreq · 0 2 2) }, rest, none⟩ := by
  apply h.landed.modify
  · intro T hT
    cases T with
    | nil => exact (hT rfl).elim
    | cons m T => simp [multiplyfreq_cons]
  · intro T hT
    cases T with
    | nil => simp [multiplyfreq]
    | cons m T =>
      rw [multiplyfreq_cons]
      intro m' hm'
      rcases List.mem_cons.1 hm' with rfl | hm'
      · exact (hT m List.mem_cons_self).double
      · exact hT m' (List.mem_cons_of_mem _ hm')

/-- Doubling `T_0` takes the message back that could not be sent. -/
theorem failed_mass (h : WellFormedGossiper vanilla ⟨p, rest, some (i, m)⟩) :
    Gossiper.mass vanilla t s
      ⟨{ p with totalT := p.totalT.modify i (multiplyfreq · 0 2 2) }, rest, none⟩ =
      Gossiper.mass vanilla t s ⟨p, rest, some (i, m)⟩ := by
  obtain ⟨hi, -, -, T, tl, hT, -⟩ := h.wire i m rfl
  have hlists := teamLists_modify vanilla t (multiplyfreq · 0 2 2) hT
  have hmsg := h.msgMass_eq (t := t) (s := s) hT
  by_cases hs : slot vanilla p t = some i
  · have hs' : slot vanilla { p with totalT := p.totalT.modify i (multiplyfreq · 0 2 2) } t =
        some i := hs
    rw [if_pos hs] at hmsg hlists
    simp only [Gossiper.mass, hlists, copyMass_of_not_mem hs hi, copyMass_of_not_mem hs' hi,
      teamLists_of_slot hs hT, multiplyfreq_cons, massOf_cons, effective_double,
      Option.map_some, Option.toList_some, flightMass_singleton, hmsg, Option.map_none,
      Option.toList_none, flightMass_nil]
    abel
  · rw [if_neg hs] at hmsg hlists
    have hcopy : copyMass vanilla t s
        ⟨{ p with totalT := p.totalT.modify i (multiplyfreq · 0 2 2) }, rest, none⟩ =
        copyMass vanilla t s ⟨p, rest, some (i, m)⟩ := by
      simp only [copyMass, hlists]
      rfl
    simp only [Gossiper.mass, hlists, hcopy, Option.map_some, Option.toList_some,
      flightMass_singleton, hmsg, Option.map_none, Option.toList_none, flightMass_nil]

theorem addReceived_eq (h : slot vanilla p m.teamid = some i) :
    addReceived vanilla m p = { p with totalT := p.totalT.modify i (· ++ [m.list]) } := by
  cases vanilla with
  | true =>
    obtain rfl : 0 = i := by simpa [slot] using h
    rfl
  | false =>
    simp only [slot, Bool.false_eq_true, if_false] at h
    obtain ⟨ixs, hf, hh⟩ := Option.bind_eq_some_iff.1 h
    simp only [addReceived, add2vecomapx, hf, hh, Bool.false_eq_true, if_false]
    rfl

theorem deliver_wf (h : WellFormedGossiper vanilla ⟨p, rest, w⟩)
    (hm : WellFormedList vanilla m.list) (hs : slot vanilla p m.teamid = some i) :
    WellFormedGossiper vanilla ⟨addReceived vanilla m p, rest, w⟩ := by
  rw [addReceived_eq hs]
  have hmod : WellFormedGossiper vanilla
      ⟨{ p with totalT := p.totalT.modify i (· ++ [m.list]) }, rest, none⟩ := by
    apply h.landed.modify
    · intro T _
      simp
    · intro T hT m' hm'
      rcases List.mem_append.1 hm' with hm' | hm'
      · exact hT m' hm'
      · rw [List.mem_singleton.1 hm']
        exact hm
  refine { hmod with wire := ?_ }
  intro j m' he
  obtain ⟨hj, hv, hteam, T, tl, hT, hl⟩ := h.wire j m' he
  refine ⟨hj, hv, hteam, T, ?_⟩
  simp only [List.getElem?_modify, hT]
  split
  · exact ⟨tl ++ [m.list], rfl, hl⟩
  · exact ⟨tl, rfl, hl⟩

theorem deliver_mass (h : WellFormedGossiper vanilla ⟨p, rest, w⟩)
    (hs : slot vanilla p m.teamid = some i) :
    Gossiper.mass vanilla t s ⟨addReceived vanilla m p, rest, w⟩ =
      Gossiper.mass vanilla t s ⟨p, rest, w⟩ + flightMass vanilla t s [m] := by
  have hi := h.slot_lt hs
  have hv : vanilla = true → i = 0 := by
    rintro rfl
    simpa [slot] using hs.symm
  have hsame : slot vanilla p t = some i ↔ vanilla = true ∨ m.teamid = t := by
    have hteam := (h.slot_iff hi hv).1 hs
    rw [h.slot_iff hi hv]
    rcases hteam with hteam | hteam
    · simp [hteam]
    · rw [hteam]
  obtain ⟨T, hT⟩ : ∃ T, p.totalT[i]? = some T := ⟨_, List.getElem?_eq_getElem hi⟩
  have hne : T ≠ [] := h.nonempty T (List.mem_of_getElem? hT)
  have hlists := teamLists_modify vanilla t (· ++ [m.list]) hT
  have hslot : ∀ t', slot vanilla { p with totalT := p.totalT.modify i (· ++ [m.list]) } t' =
      slot vanilla p t' := fun _ => rfl
  rw [addReceived_eq hs, flightMass_singleton]
  by_cases ht : slot vanilla p t = some i
  · have htake : ((T ++ [m.list]).take 1) = T.take 1 :=
      List.take_append_of_le_length (List.length_pos_iff.2 hne)
    have hmsg : massOf [m.list] s = msgMass vanilla t s m := by
      rw [msgMass, if_pos (by simpa using hsame.1 ht), massOf_cons]
      exact add_zero _
    rw [if_pos ht] at hlists
    simp only [Gossiper.mass, copyMass, hlists, hslot, teamLists_of_slot ht hT, htake,
      massOf_append, hmsg]
    abel
  · have hmsg : msgMass vanilla t s m = 0 := if_neg fun hx => ht (hsame.2 (by simpa using hx))
    rw [if_neg ht] at hlists
    simp only [Gossiper.mass, copyMass, hlists, hslot, hmsg, add_zero]

theorem copyMass_of_mem {l : List Nat} (h : slot vanilla p t = some i) (hl : l.Nodup)
    (hi : i ∈ l) :
    copyMass vanilla t s ⟨p, l, w⟩ = massOf ((teamLists vanilla p t).take 1) s := by
  induction l with
  | nil => cases hi
  | cons j l ih =>
    obtain ⟨hj, hl⟩ := List.nodup_cons.1 hl
    rw [copyMass_cons]
    rcases List.mem_cons.1 hi with rfl | hi
    · rw [if_pos h, copyMass_of_not_mem h hj, add_zero]
    · have hij : ¬ slot vanilla p t = some j := by
        intro hs
        rw [h] at hs
        cases hs
        contradiction
      rw [if_neg hij, zero_add, ih hl hi]

theorem copyMass_of_none (h : slot vanilla p t = none) :
    copyMass vanilla t s ⟨p, l, w⟩ = 0 := by
  rw [copyMass]
  apply List.sum_eq_zero
  intro x hx
  obtain ⟨j, -, rfl⟩ := List.mem_map.1 hx
  rw [h, if_neg nofun]

structure RoundDone (vanilla : Bool) (totalT totalT' : List (Vecomap ℚ)) : Prop where
  length : totalT'.length = totalT.length
  merged : ∀ i T, (vanilla = true → i = 0) → totalT[i]? = some T →
    ∃ t, totalT'[i]? = some [t] ∧ MergeDone vanilla T t
  other : ∀ i, vanilla = true → i ≠ 0 → totalT'[i]? = totalT[i]?

/-- The merge of a round is defined on every well-formed peer. -/
theorem WellFormedGossiper.mergeall_spec (h : WellFormedGossiper vanilla g) :
    ∃ totalT', mergeall vanilla g.peer.totalT = some totalT' ∧
      RoundDone vanilla g.peer.totalT totalT' := by
  have hmerge : ∀ T ∈ g.peer.totalT,
      ∃ t, mergelists vanilla T = some [t] ∧ MergeDone vanilla T t :=
    fun T hT => mergelists_spec (h.nonempty T hT) (h.lists T hT)
  cases vanilla with
  | true =>
    have hidx : g.peer.totalT ≠ [] := h.index
    revert hmerge hidx
    cases g.peer.totalT with
    | nil => exact fun _ hidx => (hidx rfl).elim
    | cons T rest =>
      intro hmerge _
      obtain ⟨t, ht, hdone⟩ := hmerge T List.mem_cons_self
      refine ⟨[t] :: rest, by simp [mergeall, ht], by simp, ?_, ?_⟩
      · intro i T' hi hT'
        obtain rfl := hi rfl
        obtain rfl : T = T' := by simpa using hT'
        exact ⟨t, rfl, hdone⟩
      · intro i _ hi
        obtain ⟨j, rfl⟩ := Nat.exists_eq_succ_of_ne_zero hi
        rfl
  | false =>
    let mg : Vecomap ℚ → Vecomap ℚ := fun T => (mergelists false T).getD []
    have hmap : g.peer.totalT.mapM (mergelists false) = some (g.peer.totalT.map mg) := by
      apply mapM_eq_some
      intro T hT
      obtain ⟨t, ht, -⟩ := hmerge T hT
      simp only [mg, ht, Option.getD_some]
    refine ⟨_, hmap, by simp, ?_, nofun⟩
    intro i T _ hT
    obtain ⟨t, ht, hdone⟩ := hmerge T (List.mem_of_getElem? hT)
    exact ⟨t, by simp [hT, mg, ht], hdone⟩

theorem round_wf (h : WellFormedGossiper vanilla ⟨p, [], none⟩)
    (hr : RoundDone vanilla p.totalT totalT') :
    WellFormedGossiper vanilla
      ⟨{ p with totalT := totalT' }, if vanilla then [0] else List.range totalT'.length, none⟩ := by
  have hmem : ∀ T ∈ totalT', T ∈ p.totalT ∨ ∃ t, T = [t] ∧ WellFormedList vanilla t := by
    intro T hT
    obtain ⟨i, hi⟩ := List.mem_iff_getElem?.1 hT
    have hlt : i < p.totalT.length := hr.length ▸ (List.getElem?_eq_some_iff.1 hi).1
    by_cases hv : vanilla = true ∧ i ≠ 0
    · rw [hr.other i hv.1 hv.2] at hi
      exact .inl (List.mem_of_getElem? hi)
    · have hi0 : vanilla = true → i = 0 := fun hv' => by
        by_contra hn
        exact hv ⟨hv', hn⟩
      obtain ⟨t, ht, hdone⟩ := hr.merged i _ hi0 (List.getElem?_eq_getElem hlt)
      rw [hi] at ht
      exact .inr ⟨t, Option.some.inj ht, hdone.wf⟩
  refine ⟨?_, ?_, ?_, h.nonzero, ?_, ?_, ?_, fun _ _ he => nomatch he⟩
  · intro T hT
    rcases hmem T hT with hT | ⟨t, rfl, -⟩
    · exact h.nonempty T hT
    · exact List.cons_ne_nil _ _
  · intro T hT m hm
    rcases hmem T hT with hT | ⟨t, rfl, ht⟩
    · exact h.lists T hT m hm
    · rw [List.mem_singleton.1 hm]
      exact ht
  · have hidx := h.index
    cases vanilla with
    | true =>
      have hpos : 0 < totalT'.length := hr.length ▸ List.length_pos_iff.2 hidx
      exact List.length_pos_iff.1 hpos
    | false => simpa [hr.length] using hidx
  · cases vanilla with
    | true => exact List.nodup_singleton 0
    | false => exact List.nodup_range
  · intro i hi
    have hidx := h.index
    cases vanilla with
    | true =>
      rw [List.mem_singleton.1 hi, hr.length]
      exact List.length_pos_iff.2 hidx
    | false => exact List.mem_range.1 hi
  · rintro rfl i hi
    exact List.mem_singleton.1 hi

/-- Half of a team's sum stays in `T_0`, the other half is the copy to be sent. -/
theorem round_mass (h : WellFormedGossiper vanilla ⟨p, [], none⟩)
    (hr : RoundDone vanilla p.totalT totalT') (hh : s ≠ hldsig) (hd : s ≠ dummysig) :
    Gossiper.mass vanilla t s
      ⟨{ p with totalT := totalT' }, if vanilla then [0] else List.range totalT'.length, none⟩ =
      Gossiper.mass vanilla t s ⟨p, [], none⟩ := by
  have hwf := round_wf h hr
  simp only [Gossiper.mass, Option.map_none, Option.toList_none, flightMass_nil, add_zero]
  have hslot : slot vanilla { p with totalT := totalT' } t = slot vanilla p t := rfl
  cases hs : slot vanilla p t with
  | none =>
    rw [copyMass_of_none hs, copyMass_of_none (hslot.trans hs), teamLists_of_none hs,
      teamLists_of_none (hslot.trans hs)]
  | some i =>
    have hlt : i < p.totalT.length := h.slot_lt hs
    have hv : vanilla = true → i = 0 := by
      rintro rfl
      simpa [slot] using hs.symm
    have hT := List.getElem?_eq_getElem hlt
    obtain ⟨t', ht', hdone⟩ := hr.merged i _ hv hT
    have hmem : i ∈ (if vanilla then [0] else List.range totalT'.length) := by
      cases vanilla with
      | true => simpa using hv rfl
      | false => simpa [hr.length] using hlt
    have hhalf : massOf [t'] s = half (massOf p.totalT[i] s) := by
      rw [massOf_cons, hdone.effective_eq (h.lists _ (List.getElem_mem hlt)) hh hd]
      exact add_zero _
    rw [copyMass_of_mem (hslot.trans hs) hwf.tosend hmem, copyMass_of_not_mem hs List.not_mem_nil,
      teamLists_of_slot (hslot.trans hs) ht', teamLists_of_slot hs hT, List.take_succ_cons,
      List.take_zero, hhalf, half_add_half, add_zero]

/-- A step of a peer moves mass between its lists and the network and loses none. -/
theorem GossiperStep.conserves (hstep : GossiperStep vanilla g recv emit g')
    (h : WellFormedGossiper vanilla g) (hrecv : ∀ m ∈ recv, WellFormedList vanilla m.list) :
    WellFormedGossiper vanilla g' ∧ (∀ m ∈ emit, WellFormedList vanilla m.list) ∧
      ∀ t s, s ≠ hldsig → s ≠ dummysig →
        g'.mass vanilla t s + flightMass vanilla t s emit =
          g.mass vanilla t s + flightMass vanilla t s recv := by
  cases hstep with
  | round hm =>
    obtain ⟨totalT', hm', hr⟩ := h.mergeall_spec
    cases hm.symm.trans hm'
    refine ⟨round_wf h hr, nofun, ?_⟩
    intro t s hh hd
    rw [round_mass h hr hh hd]
  | @skip i p rest hv hz =>
    subst hv
    have hidx := h.index
    simp only [Bool.false_eq_true, if_false] at hidx
    exact (hidx.findteamid_ne_zero (h.nonzero rfl) (h.range i List.mem_cons_self) hz).elim
  | transmit ht hm =>
    have hwf := transmit_wf h ht hm
    refine ⟨hwf, nofun, ?_⟩
    intro t s _ _
    rw [transmit_mass hwf]
  | @sent p rest i m =>
    obtain ⟨-, -, -, T, tl, hT, hl⟩ := h.wire i m rfl
    refine ⟨h.landed, ?_, ?_⟩
    · intro m' hm'
      rw [List.mem_singleton.1 hm', hl]
      exact h.lists _ (List.mem_of_getElem? hT) T List.mem_cons_self
    · intro t s _ _
      rw [sent_mass, flightMass_nil, add_zero]
  | failed =>
    refine ⟨failed_wf h, nofun, ?_⟩
    intro t s _ _
    rw [failed_mass h]
  | deliver hs =>
    obtain ⟨i, hs⟩ := Option.isSome_iff_exists.1 hs
    refine ⟨deliver_wf h (hrecv _ List.mem_cons_self) hs, nofun, ?_⟩
    intro t s _ _
    rw [deliver_mass h hs, flightMass_nil, add_zero]

/-- One step of any peer keeps the system well formed and its mass. -/
theorem NetworkStep.conserves [DecidableEq ι] [Fintype ι] {nw nw' : Network ι}
    (hstep : NetworkStep vanilla nw nw') (h : WellFormedNetwork vanilla nw) :
    WellFormedNetwork vanilla nw' ∧
      ∀ t s, s ≠ hldsig → s ≠ dummysig → nw'.mass vanilla t s = nw.mass vanilla t s := by
  cases hstep with
  | @act peers recv emit g before after q hq =>
    have hrecv : ∀ m ∈ recv, WellFormedList vanilla m.list := by
      intro m hm
      exact h.flight m (List.mem_append_left _ (List.mem_append_right _ hm))
    obtain ⟨hg, hemit, hmass⟩ := hq.conserves (h.peers q) hrecv
    refine ⟨⟨?_, ?_⟩, ?_⟩
    · intro r
      by_cases hr : r = q
      · subst hr
        simpa using hg
      · simpa [hr] using h.peers r
    · intro m hm
      rcases List.mem_append.1 hm with hm | hm
      · rcases List.mem_append.1 hm with hm | hm
        · exact h.flight m (List.mem_append_left _ (List.mem_append_left _ hm))
        · exact h.flight m (List.mem_append_right _ hm)
      · exact hemit m hm
    · intro t s hh hd
      have hupd : ∀ r, (Function.update peers q g r).mass vanilla t s =
          Function.update (fun r => (peers r).mass vanilla t s) q (g.mass vanilla t s) r := by
        intro r
        by_cases hr : r = q
        · subst hr
          simp
        · simp [hr]
      have hsum : ∑ r, (peers r).mass vanilla t s =
          (peers q).mass vanilla t s + ∑ r ∈ Finset.univ \ {q}, (peers r).mass vanilla t s := by
        rw [add_comm, Finset.sum_sdiff_eq_sub (Finset.subset_univ _), Finset.sum_singleton]
        abel
      have hq := hmass t s hh hd
      simp only [Network.mass, hupd, Finset.sum_update_of_mem (Finset.mem_univ q), hsum,
        flightMass_append]
      calc g.mass vanilla t s + ∑ r ∈ Finset.univ \ {q}, (peers r).mass vanilla t s +
            (flightMass vanilla t s before + flightMass vanilla t s after +
              flightMass vanilla t s emit)
          = (g.mass vanilla t s + flightMass vanilla t s emit) +
            ∑ r ∈ Finset.univ \ {q}, (peers r).mass vanilla t s +
            (flightMass vanilla t s before + flightMass vanilla t s after) := by abel
        _ = _ := by rw [hq]; abel

/-- Mass conservation: however rounds, deliveries and failed sends of all peers interleave,
the frequency and the weight of a document signature stay what they were. -/
theorem mass_conservation [DecidableEq ι] [Fintype ι] {nw nw' : Network ι}
    (hrun : Relation.ReflTransGen (NetworkStep vanilla) nw nw')
    (h : WellFormedNetwork vanilla nw) (t : ChordID) (hs : DocumentSig s) :
    nw'.mass vanilla t s = nw.mass vanilla t s := by
  suffices hinv : WellFormedNetwork vanilla nw' ∧ nw'.mass vanilla t s = nw.mass vanilla t s from
    hinv.2
  induction hrun with
  | refl => exact ⟨h, rfl⟩
  | tail _ hstep ih =>
    obtain ⟨hwf, hmass⟩ := hstep.conserves ih.1
    exact ⟨hwf, (hmass t s hs.ne_hldsig hs.ne_dummysig).trans ih.2⟩

def sampleList : MapType ℚ := ⟨[([1], (0, 1)), ([5], (2, 1))], by decide⟩

theorem sampleList_wf : WellFormedList true sampleList := ⟨rfl, 1, rfl⟩

def sampleGossiper : Gossiper := ⟨⟨[[sampleList]], .empty⟩, [], none⟩

theorem sampleGossiper_wf : WellFormedGossiper true sampleGossiper where
  nonempty := by simp [sampleGossiper]
  lists := by simp [sampleGossiper, sampleList_wf]
  index := by simp [sampleGossiper]
  nonzero := nofun
  tosend := List.nodup_nil
  range := nofun
  vanillaSend := nofun
  wire := nofun

theorem mass_conservation_round : ∃ nw nw' : Network Bool,
    Relation.ReflTransGen (NetworkStep true) nw nw' ∧ nw'.flight ≠ [] ∧
      nw'.mass true 0 [5] = nw.mass true 0 [5] := by
  let t : MapType ℚ := sampleList.mapVal fun _ v => (v.1 / 2, v.2 / 2)
  let p : Peer ℚ := ⟨[[t]], .empty⟩
  let m : GossipMsg := ⟨0, (vecomap2vec t).1, (vecomap2vec t).2.1, (vecomap2vec t).2.2⟩
  let merged := Function.update (fun _ : Bool => sampleGossiper) true ⟨p, [0], none⟩
  let sending := Function.update merged true ⟨p, [], some (0, m)⟩
  have hround : NetworkStep true ⟨fun _ => sampleGossiper, []⟩ ⟨merged, []⟩ :=
    @NetworkStep.act _ _ _ (fun _ => sampleGossiper) _ _ _ [] [] true
      (@GossiperStep.round true [[t]] sampleGossiper.peer rfl)
  have htransmit : NetworkStep true ⟨merged, []⟩ ⟨sending, []⟩ :=
    @NetworkStep.act _ _ _ merged _ _ _ [] [] true
      (@GossiperStep.transmit true 0 0 m p [] nofun rfl)
  have hsent : NetworkStep true ⟨sending, []⟩
      ⟨Function.update sending true ⟨p, [], none⟩, [m]⟩ :=
    @NetworkStep.act _ _ _ sending _ _ _ [] [] true (@GossiperStep.sent true p [] 0 m)
  have hrun := ((Relation.ReflTransGen.single hround).tail htransmit).tail hsent
  refine ⟨_, _, hrun, List.cons_ne_nil _ _, ?_⟩
  exact mass_conservation hrun ⟨fun _ => sampleGossiper_wf, nofun⟩ 0
    ⟨by decide, by decide, by decide⟩

end XGossip
