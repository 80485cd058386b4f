import Mathlib.Data.Finset.Card
import XGossip.Gossip.Coverage
import XGossip.Gossip.Lsh
import XGossip.Gossip.Mass

namespace XGossip
set_option autoImplicit true

def calcfreqStep (uniqueSigList : MapType ℚ) (sig : Sig) : MapType ℚ :=
  match uniqueSigList.find? sig with
  | some v => uniqueSigList.insert sig (v.1 + 1, v.2)
  | none => uniqueSigList.push sig (1, 1)

/-- The list of a peer's documents. With `usedummy` the first signature is the dummy. -/
def calcfreq (sigList : List Sig) (usedummy : Bool) : Option (MapType ℚ) :=
  if usedummy then
    match sigList with
    | [] => none
    | dummy :: rest => some (rest.foldl calcfreqStep (SortedMap.empty.push dummy (0, 1)))
  else some (sigList.foldl calcfreqStep .empty)

section Lshsig

variable (compute_hash : List Char → ChordID)

/-- The messages for one signature: for each of its team IDs one, to a random member. -/
def initMsgs (teamsize : Nat) (randcol : Nat → Nat) (minhash : List ChordID) (sig : Sig)
    (freq weight : ℚ) : List InitMsg :=
  minhash.mapIdx fun i teamID =>
    ⟨.INITGOSSIP, (team teamsize teamID).getD (randcol i) 0, teamID, sig, freq, weight⟩

/-- The messages that a peer sends in the initialisation phase, with the columns it draws. -/
def lshsig (o : LshOptions) (teamsize : Nat) (randcol : Sig → Nat → Nat) (allT : MapType ℚ) :
    Option (List InitMsg) := do
  let msgs ← allT.entries.mapM fun e => do
    return initMsgs teamsize (randcol e.1) (← runLsh compute_hash o e.1) e.1 e.2.1 e.2.2
  return msgs.flatten

end Lshsig

section Frequencies

theorem find?_calcfreqStep (m : MapType ℚ) (sig s : Sig) :
    (calcfreqStep m sig).find? s =
      if s = sig then some ((m.find? sig).elim (1, 1) fun v => (v.1 + 1, v.2)) else m.find? s := by
  rw [calcfreqStep]
  cases h : m.find? sig with
  | some v => rw [SortedMap.find?_insert, Option.elim_some]
  | none =>
    rw [SortedMap.find?_push, h]
    rfl

theorem find?_foldl_calcfreqStep (l : List Sig) (m : MapType ℚ) (s : Sig) :
    (l.foldl calcfreqStep m).find? s =
      if s ∈ l then some ((m.find? s).elim ((l.count s : ℚ), 1) fun v => (v.1 + l.count s, v.2))
      else m.find? s := by
  induction l generalizing m with
  | nil => simp
  | cons sig l ih =>
    rw [List.foldl_cons, ih, find?_calcfreqStep]
    by_cases hs : s = sig
    · subst hs
      cases m.find? s with
      | none => by_cases hl : s ∈ l <;> simp [hl, List.count_eq_zero_of_not_mem, add_comm]
      | some v =>
        by_cases hl : s ∈ l
        · simp [hl, add_assoc, add_comm (1 : ℚ)]
        · simp [hl, List.count_eq_zero_of_not_mem]
    · have hsig : sig ≠ s := fun he => hs he.symm
      simp [hs, hsig]

theorem find?_calcfreq (h : calcfreq l false = some m) (s : Sig) :
    m.find? s = if s ∈ l then some ((l.count s : ℚ), 1) else none := by
  obtain rfl := Option.some.inj h
  rw [find?_foldl_calcfreqStep, SortedMap.find?_empty]
  rfl

end Frequencies

section Sent

variable {compute_hash : List Char → ChordID} {randcol : Sig → Nat → Nat}

theorem exists_of_mem_mapM {f : α → Option β} {l : List α} {l' : List β} (h : l.mapM f = some l')
    (hb : b ∈ l') : ∃ a ∈ l, f a = some b := by
  induction l generalizing l' with
  | nil =>
    obtain rfl := Option.some.inj h
    cases hb
  | cons a l ih =>
    simp only [List.mapM_cons, Option.bind_eq_bind, Option.bind_eq_some_iff, Option.pure_def,
      Option.some.injEq] at h
    obtain ⟨b', hb', l'', hl, rfl⟩ := h
    rcases List.mem_cons.1 hb with rfl | hb
    · exact ⟨a, List.mem_cons_self, hb'⟩
    · obtain ⟨a', ha', hf⟩ := ih hl hb
      exact ⟨a', List.mem_cons_of_mem _ ha', hf⟩

theorem initFreqs_append (l l' : List InitMsg) (t : ChordID) (s : Sig) :
    initFreqs ↑(l ++ l') t s = initFreqs ↑l t s + initFreqs ↑l' t s := by
  rw [← Multiset.coe_add, initFreqs, Multiset.filter_add, Multiset.map_add]
  rfl

theorem initFreqs_of_other {l : List InitMsg}
    (h : ∀ m ∈ l, ¬ (m.type = .INITGOSSIP ∧ m.teamid = t ∧ m.sig = s)) :
    initFreqs ↑l t s = 0 := by
  rw [initFreqs, Multiset.map_eq_zero, Multiset.filter_eq_nil]
  exact h

theorem initFreqs_initMsgs (minhash : List ChordID) (sig : Sig) (freq weight : ℚ) :
    initFreqs ↑(initMsgs k col minhash sig freq weight) t s =
      if s = sig then Multiset.replicate (minhash.count t) freq else 0 := by
  induction minhash using List.reverseRecOn with
  | nil => simp [initMsgs, initFreqs]
  | append_singleton l x ih =>
    rw [initMsgs] at ih
    rw [initMsgs, List.mapIdx_concat, initFreqs_concat, ih]
    by_cases hs : s = sig
    · by_cases hx : x = t
      · rw [if_pos hs, if_pos ⟨rfl, hx, hs.symm⟩, if_pos hs, List.count_append, hx,
          List.count_singleton_self, Multiset.replicate_add, Multiset.replicate_one]
      · simp [hs, hx, List.count_append]
    · simp [hs, Ne.symm hs]

theorem sum_of_key (m : MapType ℚ) (s : Sig) :
    (m.entries.map fun e => if e.1 = s then e.2.1 else 0).sum = (m.find? s).elim 0 Prod.fst := by
  obtain ⟨l, hl⟩ := m
  simp only [SortedMap.find?]
  induction l with
  | nil => rfl
  | cons e l ih =>
    obtain ⟨ha, hl'⟩ := List.pairwise_cons.1 hl
    rw [List.map_cons, List.sum_cons]
    by_cases he : e.1 = s
    · have hzero : (l.map fun e => if e.1 = s then e.2.1 else 0).sum = 0 := by
        apply List.sum_eq_zero
        intro x hx
        obtain ⟨e', he', rfl⟩ := List.mem_map.1 hx
        rw [if_neg]
        intro hs
        have hlt := ha e' he'
        rw [hs, he] at hlt
        exact irrefl_of SigLt s hlt
      simp [he, hzero]
    · rw [if_neg he, zero_add, ih hl', List.find?_cons_of_neg (by simpa using he)]

theorem initFreqs_flatten {es : List (Sig × ℚ × ℚ)} {mss : List (List InitMsg)}
    (hl : runLsh compute_hash o s = some minhash)
    (h : es.mapM (fun e => do
      return initMsgs k (randcol e.1) (← runLsh compute_hash o e.1) e.1 e.2.1 e.2.2) = some mss) :
    (initFreqs ↑mss.flatten t s).sum =
      (es.map fun e => if e.1 = s then e.2.1 else 0).sum * minhash.count t := by
  induction es generalizing mss with
  | nil =>
    obtain rfl := Option.some.inj h
    simp [initFreqs]
  | cons e es ih =>
    simp only [List.mapM_cons, Option.bind_eq_bind, Option.bind_eq_some_iff, Option.pure_def,
      Option.some.injEq] at h
    obtain ⟨ms, ⟨minhash', hl', rfl⟩, mss, hmss, rfl⟩ := h
    rw [List.flatten_cons, initFreqs_append, Multiset.sum_add, ih hmss, initFreqs_initMsgs,
      List.map_cons, List.sum_cons, add_mul]
    congr 1
    by_cases hs : e.1 = s
    · rw [hs, hl] at hl'
      obtain rfl := Option.some.inj hl'
      rw [if_pos hs.symm, if_pos hs, Multiset.sum_replicate, nsmul_eq_mul, mul_comm]
    · rw [if_neg (Ne.symm hs), if_neg hs, Multiset.sum_zero, zero_mul]

theorem initFreqs_lshsig (hdocs : calcfreq docs false = some allT)
    (h : lshsig compute_hash o k randcol allT = some msgs)
    (hl : runLsh compute_hash o s = some minhash) :
    (initFreqs ↑msgs t s).sum = docs.count s * minhash.count t := by
  simp only [lshsig, Option.bind_eq_bind, Option.bind_eq_some_iff, Option.pure_def,
    Option.some.injEq] at h
  obtain ⟨mss, hmss, rfl⟩ := h
  rw [initFreqs_flatten hl hmss, sum_of_key, find?_calcfreq hdocs]
  split
  · rfl
  · next hs =>
    rw [List.count_eq_zero_of_not_mem hs]
    simp

theorem lshsig_mem (h : lshsig compute_hash o k randcol allT = some msgs) (hm : m ∈ msgs) :
    m.type = .INITGOSSIP ∧ allT.find? m.sig = some (m.freq, m.weight) := by
  simp only [lshsig, Option.bind_eq_bind, Option.bind_eq_some_iff, Option.pure_def,
    Option.some.injEq] at h
  obtain ⟨mss, hmss, rfl⟩ := h
  obtain ⟨ms, hms, hm⟩ := List.mem_flatten.1 hm
  obtain ⟨e, he, hms⟩ := exists_of_mem_mapM hmss hms
  obtain ⟨minhash, -, hms⟩ := Option.bind_eq_some_iff.1 hms
  obtain rfl := Option.some.inj hms
  obtain ⟨i, hi, rfl⟩ := List.mem_mapIdx.1 hm
  exact ⟨rfl, (allT.mem_entries_iff _ _).1 he⟩

theorem lshsig_valid (hdocs : calcfreq docs false = some allT) (hdoc : ∀ d ∈ docs, DocumentSig d)
    (h : lshsig compute_hash o k randcol allT = some msgs) (hm : m ∈ msgs) : m.Valid := by
  obtain ⟨ht, hf⟩ := lshsig_mem h hm
  rw [find?_calcfreq hdocs] at hf
  split at hf
  · next hmem =>
    simp only [Option.some.injEq, Prod.mk.injEq] at hf
    simp only [InitMsg.Valid, ht]
    exact ⟨hdoc _ hmem, hf.2.symm⟩
  · cases hf

end Sent

section History

variable [Fintype ι] {owner : ChordID → ι} {nw nw' : InitNetwork ι}

/-- The messages each peer has taken in so far, the sum of which is what the senders announced. -/
structure InitHistory (k : Nat) (msgs : List InitMsg) (received : ι → List InitMsg)
    (nw : InitNetwork ι) : Prop where
  peers : ∀ q, nw.peers q = readInits k (received q)
  valid : ∀ q, ∀ m ∈ received q, m.Valid ∧ m.teamid ≠ 0
  flight : ∀ m ∈ nw.flight, m.Valid ∧ m.teamid ≠ 0
  freqs : ∀ t s, ∑ q, initFreqs ↑(received q) t s + initFreqs ↑nw.flight t s = initFreqs ↑msgs t s

theorem InitHistory.init (h : ∀ m ∈ msgs, InitMsg.Valid m ∧ m.teamid ≠ 0) :
    InitHistory k msgs (fun _ => []) (initNetwork ι msgs) where
  peers _ := rfl
  valid _ _ hm := nomatch hm
  flight := h
  freqs t s := by
    rw [Finset.sum_eq_zero, zero_add]
    · rfl
    · exact fun _ _ => rfl

theorem initList_inform (h : (initList sig freq weight m).2 = some s) : s = dummysig := by
  rw [initList] at h
  split at h
  · split at h
    · cases h
    · split at h
      · exact (Option.some.inj h).symm
      · cases h
  · next hs =>
    have hs : sig = dummysig := by simpa using hs
    split at h
    · exact (Option.some.inj h).symm.trans hs
    · cases h

theorem readInit_emit_valid (h : InitPeer p) (hm : m' ∈ (readInit true k m p).2) :
    m'.type = .INFORMTEAM ∧ m'.Valid ∧ m'.teamid = m.teamid := by
  rw [readInit_emit k m h] at hm
  cases hi : (initList m.sig m.freq m.weight ((p.list? m.teamid).getD hldList)).2 with
  | none =>
    rw [hi] at hm
    cases hm
  | some s =>
    rw [hi, Option.elim_some, initList_inform hi] at hm
    simp only [informteam] at hm
    split at hm
    · cases hm
    · obtain rfl := List.mem_singleton.1 hm
      exact ⟨rfl, ⟨rfl, rfl, rfl⟩, rfl⟩

theorem InitHistory.step [DecidableEq ι] (h : InitHistory k msgs received nw)
    (hstep : InitStep owner k nw nw') : ∃ received', InitHistory k msgs received' nw' := by
  cases hstep with
  | @deliver m peers p emit before after hr =>
    have hm := h.flight m (List.mem_append_right _ List.mem_cons_self)
    have hp : peers (owner m.key) = readInits k (received (owner m.key)) := h.peers _
    have hpeer : InitPeer (peers (owner m.key)) := by
      rw [hp]
      exact (accumulated_readInits k _ fun m hm => (h.valid _ m hm).1).peer
    have hemit : ∀ m' ∈ emit, m'.type = .INFORMTEAM ∧ m'.Valid ∧ m'.teamid = m.teamid := by
      intro m' hm'
      apply readInit_emit_valid hpeer
      rwa [hr]
    refine ⟨Function.update received (owner m.key) (received (owner m.key) ++ [m]), ?_, ?_, ?_, ?_⟩
    · intro q
      change Function.update peers (owner m.key) p q = _
      by_cases hq : q = owner m.key
      · subst hq
        rw [Function.update_self, Function.update_self, readInits, List.foldl_append,
          List.foldl_cons, List.foldl_nil, ← readInits, ← hp, hr]
      · rw [Function.update_of_ne hq, Function.update_of_ne hq]
        exact h.peers q
    · intro q m' hm'
      by_cases hq : q = owner m.key
      · subst hq
        rw [Function.update_self] at hm'
        rcases List.mem_append.1 hm' with hm' | hm'
        · exact h.valid _ m' hm'
        · rw [List.mem_singleton.1 hm']
          exact hm
      · rw [Function.update_of_ne hq] at hm'
        exact h.valid q m' hm'
    · intro m' hm'
      rcases List.mem_append.1 hm' with hm' | hm'
      · exact h.flight m' (by simp_all [or_left_comm])
      · obtain ⟨-, hv, ht⟩ := hemit m' hm'
        exact ⟨hv, ht ▸ hm.2⟩
    · intro t s
      have hzero : initFreqs ↑emit t s = 0 := initFreqs_of_other fun m' hm' hn => by
        rw [(hemit m' hm').1] at hn
        cases hn.1
      have hother : ∀ q ∈ Finset.univ.erase (owner m.key),
          initFreqs ↑(Function.update received (owner m.key) (received (owner m.key) ++ [m]) q) t s =
            initFreqs ↑(received q) t s := by
        intro q hq
        rw [Function.update_of_ne (Finset.ne_of_mem_erase hq)]
      rw [← h.freqs t s, ← Finset.add_sum_erase _ _ (Finset.mem_univ (owner m.key)),
        ← Finset.add_sum_erase _ _ (Finset.mem_univ (owner m.key)), Finset.sum_congr rfl hother,
        Function.update_self]
      have hcons : initFreqs ↑(m :: after) t s = initFreqs ↑[m] t s + initFreqs ↑after t s :=
        initFreqs_append [m] after t s
      simp only [initFreqs_append, hzero, hcons]
      abel

theorem InitHistory.run [DecidableEq ι] (h : InitHistory k msgs received nw)
    (hrun : Relation.ReflTransGen (InitStep owner k) nw nw') :
    ∃ received', InitHistory k msgs received' nw' := by
  induction hrun with
  | refl => exact ⟨received, h⟩
  | tail _ hstep ih =>
    obtain ⟨received', h'⟩ := ih
    exact h'.step hstep

end History

section Start

def InitNetwork.start (nw : InitNetwork ι) : Network ι :=
  ⟨fun q => ⟨nw.peers q, [], none⟩, []⟩

/-- A peer starts with what it was told of a signature, and with weight one. -/
theorem start_mass (k : Nat) (h : ∀ m ∈ l, InitMsg.Valid m) (hh : s ≠ hldsig) (hd : s ≠ dummysig) :
    Gossiper.mass false t s ⟨readInits k l, [], none⟩ =
      ((initFreqs ↑l t s).sum, if (readInits k l).list? t = none then 0 else 1) := by
  have hacc := accumulated_readInits k l h
  have hmass : Gossiper.mass false t s ⟨readInits k l, [], none⟩ =
      massOf (teamLists false (readInits k l) t) s := by
    simp [Gossiper.mass, copyMass, flightMass]
  rw [hmass]
  by_cases hx : ∃ m ∈ l, m.teamid = t
  · obtain ⟨m, hm, hfind⟩ := hacc.present t hx
    obtain ⟨i, hi, hT⟩ := hacc.peer.list?_eq_some hm
    have hslot : slot false (readInits k l) t = some i := by
      simp [slot, hi]
    rw [teamLists_of_slot hslot hT, massOf_cons, hm, if_neg (Option.some_ne_none _)]
    have hdummy : m.find? dummysig = some (0, 1) := (hfind _).trans (if_pos (.inr rfl))
    have hs := hfind s
    rw [initTable, if_neg (not_or.2 ⟨hh, hd⟩)] at hs
    split at hs
    · next h0 =>
      rw [effective_of_not_mem hs hdummy, h0]
      exact add_zero _
    · rw [effective_of_mem hs]
      exact add_zero _
  · have hno : ∀ m ∈ l, m.teamid ≠ t := fun m hm he => hx ⟨m, hm, he⟩
    have hl := hacc.absent t hno
    have hslot : slot false (readInits k l) t = none := by
      rw [slot, if_neg Bool.false_ne_true, hacc.peer.list?_eq_none_iff.1 hl]
      rfl
    rw [teamLists_of_none hslot, hl, if_pos rfl, initFreqs_of_other fun m hm hn => hno m hm hn.2.1]
    rfl

end Start

section Total

/-- A step of the exec phase, with the messages that were dropped: `add2vecomapx` only warns about
a message of a team that the receiver has no list of. -/
inductive ExecStep [DecidableEq ι] :
    Network ι × List GossipMsg → Network ι × List GossipMsg → Prop where
  | act : NetworkStep false nw nw' → ExecStep (nw, lost) (nw', lost)
  | drop : slot false (peers q).peer m.teamid = none →
      ExecStep (⟨peers, before ++ m :: after⟩, lost)
        (⟨Function.update peers q { peers q with peer := addReceived false m (peers q).peer },
          before ++ after⟩, m :: lost)

theorem addReceived_of_none (h : slot false p m.teamid = none) : addReceived false m p = p := by
  simp only [slot, Bool.false_eq_true, if_false, Option.bind_eq_none_iff] at h
  simp only [addReceived, add2vecomapx, Bool.false_eq_true, if_false]
  split
  · next ixs hf => rw [h ixs hf]
  · rfl

variable [Fintype ι]

theorem ExecStep.conserves [DecidableEq ι] {x y : Network ι × List GossipMsg} (hstep : ExecStep x y)
    (h : WellFormedNetwork false x.1) :
    WellFormedNetwork false y.1 ∧ ∀ t s, s ≠ hldsig → s ≠ dummysig →
      y.1.mass false t s + flightMass false t s y.2 =
        x.1.mass false t s + flightMass false t s x.2 := by
  cases hstep with
  | act hact =>
    obtain ⟨hwf, hmass⟩ := hact.conserves h
    exact ⟨hwf, fun t s hh hd => by rw [hmass t s hh hd]⟩
  | @drop peers before m after q lost hslot =>
    rw [addReceived_of_none hslot, Function.update_eq_self]
    refine ⟨⟨h.peers, fun m' hm' => h.flight m' ?_⟩, fun t s _ _ => ?_⟩
    · rcases List.mem_append.1 hm' with hm' | hm'
      · exact List.mem_append_left _ hm'
      · exact List.mem_append_right _ (List.mem_cons_of_mem _ hm')
    · have hcons : ∀ l, flightMass false t s (m :: l) =
          flightMass false t s [m] + flightMass false t s l :=
        fun l => flightMass_append [m] l
      simp only [Network.mass, flightMass_append, hcons after, hcons lost]
      abel

theorem ExecStep.run_conserves [DecidableEq ι] {x y : Network ι × List GossipMsg}
    (h : WellFormedNetwork false x.1) (hrun : Relation.ReflTransGen ExecStep x y) :
    WellFormedNetwork false y.1 ∧ ∀ t s, s ≠ hldsig → s ≠ dummysig →
      y.1.mass false t s + flightMass false t s y.2 =
        x.1.mass false t s + flightMass false t s x.2 := by
  induction hrun with
  | refl => exact ⟨h, fun _ _ _ _ => rfl⟩
  | tail _ hstep ih =>
    obtain ⟨hwf, hmass⟩ := hstep.conserves ih.1
    exact ⟨hwf, fun t s hh hd => (hmass t s hh hd).trans (ih.2 t s hh hd)⟩

theorem initFreqs_sent {sent : ι → List InitMsg} {msgs : List InitMsg}
    (hmsgs : (msgs : Multiset InitMsg) = ∑ q, (sent q : Multiset InitMsg)) (t : ChordID) (s : Sig) :
    initFreqs ↑msgs t s = ∑ q, initFreqs ↑(sent q) t s := by
  rw [hmsgs]
  exact map_sum (⟨⟨fun ms => initFreqs ms t s, rfl⟩, fun a b => by
    simp [initFreqs, Multiset.filter_add, Multiset.map_add]⟩ : Multiset InitMsg →+ Multiset ℚ) _ _

variable [DecidableEq ι] {compute_hash : List Char → ChordID} {owner : ChordID → ι}

/-- From the documents to the end of gossip: after an initialisation phase in any order of
delivery and any run of the exec phase, the frequency of a signature over all lists and messages
of a team, with those that were dropped, is the number of documents with that signature, once for
each time LSH names the team, and its weight is the number of peers in the team. -/
theorem gossip_totals (o : LshOptions) (k : Nat) (docs : ι → List Sig)
    (allT : ι → MapType ℚ) (randcol : ι → Sig → Nat → Nat) (sent : ι → List InitMsg)
    (msgs : List InitMsg) (inw : InitNetwork ι) (nw : Network ι)
    (hdocs : ∀ q, calcfreq (docs q) false = some (allT q))
    (hsent : ∀ q, lshsig compute_hash o k (randcol q) (allT q) = some (sent q))
    (hmsgs : (msgs : Multiset InitMsg) = ∑ q, (sent q : Multiset InitMsg))
    (hdoc : ∀ q, ∀ d ∈ docs q, DocumentSig d) (hteam : ∀ m ∈ msgs, m.teamid ≠ 0)
    (hinit : Relation.ReflTransGen (InitStep owner k) (initNetwork ι msgs) inw)
    (hquiet : inw.flight = [])
    (hrun : Relation.ReflTransGen ExecStep (inw.start, []) (nw, lost))
    (hs : DocumentSig s) (hl : runLsh compute_hash o s = some minhash) (t : ChordID) :
    nw.mass false t s + flightMass false t s lost =
      (((∑ q, (docs q).count s : Nat) : ℚ) * minhash.count t,
        ((Finset.univ.filter fun q => ((inw.peers q).list? t).isSome).card : ℚ)) := by
  have hvalid : ∀ m ∈ msgs, m.Valid ∧ m.teamid ≠ 0 := by
    intro m hm
    have hmem : m ∈ ∑ q, (sent q : Multiset InitMsg) := by
      rw [← hmsgs]
      exact hm
    obtain ⟨q, -, hq⟩ := Multiset.mem_sum.1 hmem
    exact ⟨lshsig_valid (hdocs q) (hdoc q) (hsent q) hq, hteam m hm⟩
  obtain ⟨received, hhist⟩ := (InitHistory.init hvalid).run hinit
  have hwf : WellFormedNetwork false inw.start := by
    constructor
    · intro q
      change WellFormedGossiper false ⟨inw.peers q, [], none⟩
      rw [hhist.peers q]
      exact readInits_wellFormed k _ (fun m hm => (hhist.valid q m hm).1)
        fun m hm => (hhist.valid q m hm).2
    · exact nofun
  have hpeer : ∀ q, (inw.start.peers q).mass false t s =
      ((initFreqs ↑(received q) t s).sum, if (inw.peers q).list? t = none then 0 else 1) := by
    intro q
    change Gossiper.mass false t s ⟨inw.peers q, [], none⟩ = _
    rw [hhist.peers q]
    exact start_mass k (fun m hm => (hhist.valid q m hm).1) hs.ne_hldsig hs.ne_dummysig
  have hfreqs := hhist.freqs t s
  rw [hquiet, show initFreqs ↑([] : List InitMsg) t s = 0 from rfl, add_zero,
    initFreqs_sent hmsgs] at hfreqs
  have hmass := (ExecStep.run_conserves hwf hrun).2 t s hs.ne_hldsig hs.ne_dummysig
  have hflight : flightMass false t s inw.start.flight = 0 := rfl
  rw [hmass, flightMass_nil, add_zero, Network.mass, hflight, add_zero,
    Finset.sum_congr rfl fun q _ => hpeer q]
  refine Prod.ext ?_ ?_
  · rw [Prod.fst_sum]
    calc ∑ q, (initFreqs ↑(received q) t s).sum
        = (∑ q, initFreqs ↑(received q) t s).sum := (Multiset.sum_sum _ _).symm
      _ = ∑ q, (initFreqs ↑(sent q) t s).sum := by rw [hfreqs, Multiset.sum_sum]
      _ = ∑ q, ((docs q).count s : ℚ) * minhash.count t :=
        Finset.sum_congr rfl fun q _ => initFreqs_lshsig (hdocs q) (hsent q) hl
      _ = _ := by rw [← Finset.sum_mul, Nat.cast_sum]
  · rw [Prod.snd_sum]
    simp only [Finset.card_filter, Nat.cast_sum]
    apply Finset.sum_congr rfl
    intro q _
    cases (inw.peers q).list? t with
    | none => simp
    | some m => simp

end Total

section Example

theorem InitNetwork.deliver_reach [DecidableEq ι] (owner : ChordID → ι) (k n : Nat)
    (nw : InitNetwork ι) :
    Relation.ReflTransGen (InitStep owner k) nw ((InitNetwork.deliver owner k)^[n] nw) := by
  induction n generalizing nw with
  | zero => exact .refl
  | succ n ih =>
    rw [Function.iterate_succ_apply]
    by_cases hf : nw.flight = []
    · have hd : nw.deliver owner k = nw := by
        rw [InitNetwork.deliver, hf]
      rw [hd]
      exact ih nw
    · exact .head (InitStep.head hf) (ih _)

def oneGroup : LshOptions := ⟨1, 1, 1122941, [7], [3], [1], false⟩

def sampleDocs (q : Bool) : List Sig := if q then [[5#32], [5#32]] else [[5#32]]

def sampleAllT (q : Bool) : MapType ℚ := (sampleDocs q).foldl calcfreqStep .empty

def sampleSent (q : Bool) : List InitMsg :=
  [⟨.INITGOSSIP, 16, 16, [5#32], if q then 2 else 1, 1⟩]

theorem runLsh_sample : runLsh Text.digitsValue oneGroup [5#32] = some [16] := by
  have hsort : ([16] : List ChordID).mergeSort (· ≤ ·) = [16] := List.mergeSort_singleton 16
  rw [← hsort]
  rfl

theorem lshsig_sample (q : Bool) :
    lshsig Text.digitsValue oneGroup 2 (fun _ _ => 0) (sampleAllT q) = some (sampleSent q) := by
  have hlist : (sampleAllT q).entries = [([5#32], (if q then 2 else 1, 1))] := by
    cases q <;> decide +kernel
  have hmember : (team 2 16).getD 0 0 = 16 := by decide +kernel
  simpa [lshsig, hlist, runLsh_sample, initMsgs, sampleSent] using hmember

/-- The messages of the three documents are delivered, and each of two members told of the team. -/
theorem gossip_totals_two : ∃ inw : InitNetwork Bool,
    Relation.ReflTransGen (InitStep (fun ID => decide (ID = 16)) 2)
        (initNetwork Bool (sampleSent true ++ sampleSent false)) inw ∧ inw.flight = [] ∧
      inw.start.mass false 16 [5#32] = (3, 2) := by
  have hdoc : DocumentSig [5#32] := ⟨by decide, by decide, by decide⟩
  have hdocs : ∀ q, ∀ d ∈ sampleDocs q, DocumentSig d := by
    intro q d hd
    cases q with
    | true =>
      obtain rfl : d = [5#32] := by simpa [sampleDocs] using hd
      exact hdoc
    | false =>
      obtain rfl := List.mem_singleton.1 hd
      exact hdoc
  have hrun := InitNetwork.deliver_reach (fun ID => decide (ID = 16)) 2 4
    (initNetwork Bool (sampleSent true ++ sampleSent false))
  have hquiet := List.isEmpty_iff.1 (show ((InitNetwork.deliver (fun ID => decide (ID = 16)) 2)^[4]
    (initNetwork Bool (sampleSent true ++ sampleSent false))).flight.isEmpty by decide +kernel)
  have htotal := gossip_totals oneGroup 2 sampleDocs sampleAllT (fun _ _ _ => 0) sampleSent
    (sampleSent true ++ sampleSent false) _ _ (fun _ => rfl) lshsig_sample
    (by rw [Fintype.sum_bool, Multiset.coe_add]) hdocs (by simp [sampleSent]) hrun hquiet .refl
    hdoc runLsh_sample 16
  refine ⟨_, hrun, hquiet, ?_⟩
  rw [flightMass_nil, add_zero] at htotal
  rw [htotal]
  decide +kernel

end Example

end XGossip
