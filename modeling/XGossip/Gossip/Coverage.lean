import Mathlib.Logic.Function.Basic
import Mathlib.Logic.Relation
import XGossip.Gossip.Init

namespace XGossip
set_option autoImplicit true

/-- All peers and the messages of the initialisation phase in flight. -/
structure InitNetwork (ι : Type*) where
  peers : ι → Peer ℚ
  flight : List InitMsg

inductive InitStep [DecidableEq ι] (owner : ChordID → ι) (k : Nat) :
    InitNetwork ι → InitNetwork ι → Prop where
  | deliver : readInit true k m (peers (owner m.key)) = (p, emit) →
      InitStep owner k ⟨peers, before ++ m :: after⟩
        ⟨Function.update peers (owner m.key) p, before ++ after ++ emit⟩

/-- Nobody has received anything, and the `INITGOSSIP` messages are under way. -/
def initNetwork (ι : Type*) (msgs : List InitMsg) : InitNetwork ι :=
  ⟨fun _ => ⟨[], .empty⟩, msgs⟩

/-- An `INITGOSSIP` message goes to a member of its team. -/
structure InitMsg.Addressed (k : Nat) (m : InitMsg) : Prop where
  type : m.type = .INITGOSSIP
  key : m.key ∈ team k m.teamid
  sig : m.sig ≠ hldsig

/-- A peer that owns two IDs of a team sees the same peer behind both. -/
def SuccessorsAgree (owner : ChordID → ι) (k : Nat) (t : ChordID) : Prop :=
  ∀ i j, owner (member k t i) = owner (member k t j) →
    owner (member k t (i + 1)) = owner (member k t (j + 1))

def Peer.Holds (p : Peer ℚ) (t : ChordID) : Prop := p.list? t ≠ none

/-- Behind every informed peer of the team stands another one, or a message to it. -/
structure CoverageInv (owner : ChordID → ι) (k : Nat) (t : ChordID) (nw : InitNetwork ι) :
    Prop where
  peers : ∀ q, InitPeer (nw.peers q)
  msgs : ∀ m ∈ nw.flight, m.teamid = t → m.key ∈ team k t ∧ m.sig ≠ hldsig
  dummy : ∀ q m, (nw.peers q).list? t = some m → m.find? dummysig ≠ none
  owned : ∀ q, (nw.peers q).Holds t → ∃ i, owner (member k t i) = q
  chain : ∀ i, (nw.peers (owner (member k t i))).Holds t →
    (nw.peers (owner (member k t (i + 1)))).Holds t ∨
      ∃ m ∈ nw.flight, m.teamid = t ∧ owner m.key = owner (member k t (i + 1))

theorem initList_dummysig (hsig : sig ≠ hldsig) (hm : m = hldList ∨ m.find? dummysig ≠ none) :
    (initList sig freq weight m).1.find? dummysig ≠ none := by
  by_cases hs : sig = dummysig
  · subst hs
    simp [initList_find_dummysig]
  · have hseen : m.find? sig ≠ none → m.find? dummysig ≠ none := by
      intro hf
      rcases hm with rfl | hm
      · rw [hldList_find, if_neg hsig] at hf
        exact (hf rfl).elim
      · exact hm
    simp [initList_find hs hseen, Ne.symm hs]

theorem initList_silent (hm : m.find? dummysig ≠ none) :
    (initList sig freq weight m).2 = none := by
  obtain ⟨v, hv⟩ := Option.ne_none_iff_exists'.1 hm
  rw [initList]
  split
  · cases m.find? sig with
    | some w => rfl
    | none => simp [hv]
  · next hs =>
    have hs : sig = dummysig := by simpa using hs
    simp [hs, hv]

theorem initList_informs (hsig : sig ≠ hldsig) :
    (initList sig freq weight hldList).2 = some dummysig := by
  have hd : hldList.find? dummysig = none := by
    rw [hldList_find, if_neg hldsig_ne_dummysig.symm]
  have hs : hldList.find? sig = none := by
    rw [hldList_find, if_neg hsig]
  rw [initList]
  split
  · simp [hs, hd]
  · next he =>
    have he : sig = dummysig := by simpa using he
    simp [he, hd]

theorem readInit_emit (k : Nat) (m : InitMsg) (h : InitPeer p) :
    (readInit true k m p).2 =
      (initList m.sig m.freq m.weight ((p.list? m.teamid).getD hldList)).2.elim []
        (informteam k m.key m.teamid) :=
  initgossiprecv_emit h

theorem informteam_teamid (h : m ∈ informteam k myID t sig) : m.teamid = t := by
  simp only [informteam] at h
  split at h
  · cases h
  · rw [List.mem_singleton.1 h]

theorem CoverageInv.init (owner : ChordID → ι) {l : List InitMsg}
    (h : ∀ m ∈ l, InitMsg.Addressed k m) : CoverageInv owner k t (initNetwork ι l) where
  peers _ := InitPeer.empty
  msgs m hm ht := ⟨ht ▸ (h m hm).key, (h m hm).sig⟩
  dummy _ _ hl := nomatch hl
  owned _ hq := (hq rfl).elim
  chain _ hq := (hq rfl).elim

theorem mem_split_flight {m m' : InitMsg} (h : m' ∈ before ++ m :: after) :
    m' = m ∨ m' ∈ before ++ after := by
  rcases List.mem_append.1 h with h | h
  · exact .inr (List.mem_append_left _ h)
  · rcases List.mem_cons.1 h with h | h
    · exact .inl h
    · exact .inr (List.mem_append_right _ h)

theorem initPeer_update [DecidableEq ι] {peers : ι → Peer ℚ} (h : ∀ q, InitPeer (peers q))
    (hp : InitPeer p) (q r : ι) : InitPeer (Function.update peers q p r) := by
  by_cases hrq : r = q
  · subst hrq
    rwa [Function.update_self]
  · rw [Function.update_of_ne hrq]
    exact h r

section Delivered

variable {owner : ChordID → ι} {peers : ι → Peer ℚ}

theorem CoverageInv.msgs_left (h : CoverageInv owner k t ⟨peers, before ++ m :: after⟩)
    (hm : m' ∈ before ++ after) (ht : m'.teamid = t) : m'.key ∈ team k t ∧ m'.sig ≠ hldsig := by
  apply h.msgs m' _ ht
  exact (List.perm_middle.mem_iff).2 (List.mem_cons_of_mem _ hm)

theorem CoverageInv.emit_old (h : CoverageInv owner k m.teamid ⟨peers, flight⟩)
    (hold : (peers q).Holds m.teamid) : (readInit true k m (peers q)).2 = [] := by
  obtain ⟨l, hl⟩ := Option.ne_none_iff_exists'.1 hold
  rw [readInit_emit k m (h.peers q), hl, Option.getD_some, initList_silent (h.dummy q l hl),
    Option.elim_none]

theorem CoverageInv.emit_new (h : CoverageInv owner k m.teamid ⟨peers, flight⟩)
    (hsig : m.sig ≠ hldsig) (hnew : ¬ (peers q).Holds m.teamid) :
    (readInit true k m (peers q)).2 = informteam k m.key m.teamid dummysig := by
  have hnone : (peers q).list? m.teamid = none := by
    by_contra hne
    exact hnew hne
  rw [readInit_emit k m (h.peers q), hnone, Option.getD_none, initList_informs hsig,
    Option.elim_some]

end Delivered

/-- A message of another team changes nothing for this one. -/
theorem CoverageInv.step_other [DecidableEq ι] {owner : ChordID → ι} {peers : ι → Peer ℚ}
    (h : CoverageInv owner k t ⟨peers, before ++ m :: after⟩) (ht : m.teamid ≠ t)
    (hr : readInit true k m (peers (owner m.key)) = (p, emit)) :
    CoverageInv owner k t
      ⟨Function.update peers (owner m.key) p, before ++ after ++ emit⟩ := by
  obtain ⟨hp, hlist⟩ := readInit_spec k m (h.peers (owner m.key))
  have hemit := readInit_emit k m (h.peers (owner m.key))
  simp only [hr] at hp hlist hemit
  have hsame : ∀ r, (Function.update peers (owner m.key) p r).list? t = (peers r).list? t := by
    intro r
    by_cases hrq : r = owner m.key
    · subst hrq
      rw [Function.update_self, hlist, if_neg (Ne.symm ht)]
    · rw [Function.update_of_ne hrq]
  have hteam : ∀ m' ∈ emit, m'.teamid ≠ t := by
    intro m' hm'
    rw [hemit] at hm'
    cases hi : (initList m.sig m.freq m.weight
        (((peers (owner m.key)).list? m.teamid).getD hldList)).2 with
    | none =>
      rw [hi] at hm'
      cases hm'
    | some s =>
      rw [hi] at hm'
      rw [informteam_teamid hm']
      exact ht
  constructor
  · exact initPeer_update h.peers hp (owner m.key)
  · intro m' hm' ht'
    rcases List.mem_append.1 hm' with hm' | hm'
    · exact h.msgs_left hm' ht'
    · exact (hteam m' hm' ht').elim
  · intro r m' hm'
    exact h.dummy r m' ((hsame r).symm.trans hm')
  · intro r hr'
    apply h.owned r
    rwa [Peer.Holds, ← hsame]
  · intro i hi
    have hi' : (peers (owner (member k t i))).Holds t := by
      rwa [Peer.Holds, ← hsame]
    rcases h.chain i hi' with hc | ⟨m', hm', ht', ho⟩
    · left
      rwa [Peer.Holds, hsame]
    · right
      rcases mem_split_flight hm' with rfl | hm'
      · exact (ht ht').elim
      · exact ⟨m', List.mem_append_left _ hm', ht', ho⟩

/-- A message of the team informs its receiver, which passes it on if it is new to it. -/
theorem CoverageInv.step_self [DecidableEq ι] {owner : ChordID → ι} {peers : ι → Peer ℚ}
    (hagree : SuccessorsAgree owner k m.teamid)
    (h : CoverageInv owner k m.teamid ⟨peers, before ++ m :: after⟩)
    (hr : readInit true k m (peers (owner m.key)) = (p, emit)) :
    CoverageInv owner k m.teamid
      ⟨Function.update peers (owner m.key) p, before ++ after ++ emit⟩ := by
  obtain ⟨hp, hlist⟩ := readInit_spec k m (h.peers (owner m.key))
  simp only [hr] at hp hlist
  obtain ⟨hkey, hsig⟩ := h.msgs m (by simp) rfl
  have hother : ∀ r, r ≠ owner m.key →
      (Function.update peers (owner m.key) p r).list? m.teamid = (peers r).list? m.teamid := by
    intro r hrq
    rw [Function.update_of_ne hrq]
  have hself : (Function.update peers (owner m.key) p (owner m.key)).Holds m.teamid := by
    rw [Peer.Holds, Function.update_self, hlist, if_pos rfl]
    exact Option.some_ne_none _
  have hmono : ∀ r, (peers r).Holds m.teamid →
      (Function.update peers (owner m.key) p r).Holds m.teamid := by
    intro r hr
    by_cases hrq : r = owner m.key
    · rw [hrq]
      exact hself
    · rw [Peer.Holds, hother r hrq]
      exact hr
  obtain ⟨j, hj, hinform⟩ := informteam_eq dummysig hkey
  have hnew : ¬ (peers (owner m.key)).Holds m.teamid →
      emit = [⟨.INFORMTEAM, member k m.teamid (j + 1), m.teamid, dummysig, 0, 1⟩] := by
    intro hn
    have hemit := h.emit_new hsig hn
    rwa [hr, hinform] at hemit
  have hold : (peers (owner m.key)).Holds m.teamid → emit = [] := by
    intro hh
    have hemit := h.emit_old hh
    rwa [hr] at hemit
  constructor
  · exact initPeer_update h.peers hp (owner m.key)
  · intro m' hm' ht'
    rcases List.mem_append.1 hm' with hm' | hm'
    · exact h.msgs_left hm' ht'
    · by_cases hh : (peers (owner m.key)).Holds m.teamid
      · rw [hold hh] at hm'
        cases hm'
      · rw [hnew hh] at hm'
        rw [List.mem_singleton.1 hm']
        exact ⟨member_mem k m.teamid (j + 1), hldsig_ne_dummysig.symm⟩
  · intro r l hl
    by_cases hrq : r = owner m.key
    · subst hrq
      have hl' : p.list? m.teamid = some l := by simpa using hl
      rw [hlist, if_pos rfl] at hl'
      cases hl'
      apply initList_dummysig hsig
      cases hold : (peers (owner m.key)).list? m.teamid with
      | none => exact .inl rfl
      | some l => exact .inr (h.dummy _ l hold)
    · exact h.dummy r l ((hother r hrq).symm.trans hl)
  · intro r hr'
    by_cases hrq : r = owner m.key
    · exact ⟨j, by rw [hj, hrq]⟩
    · rw [Peer.Holds, hother r hrq] at hr'
      exact h.owned r hr'
  · intro i hi
    by_cases hnext : owner (member k m.teamid (i + 1)) = owner m.key
    · left
      rw [hnext]
      exact hself
    · by_cases hbefore : (peers (owner (member k m.teamid i))).Holds m.teamid
      · rcases h.chain i hbefore with hc | ⟨m', hm', ht', ho⟩
        · exact .inl (hmono _ hc)
        · rcases mem_split_flight hm' with rfl | hm'
          · exact (hnext ho.symm).elim
          · exact .inr ⟨m', List.mem_append_left _ hm', ht', ho⟩
      · have hi' : owner (member k m.teamid i) = owner m.key := by
          by_contra hne
          rw [Peer.Holds, hother _ hne] at hi
          exact hbefore hi
        rw [hi'] at hbefore
        have hsucc := hagree i j (hi'.trans (congrArg owner hj.symm))
        right
        rw [hnew hbefore]
        exact ⟨_, List.mem_append_right _ List.mem_cons_self, rfl, hsucc.symm⟩

theorem InitStep.coverage [DecidableEq ι] {owner : ChordID → ι} {nw nw' : InitNetwork ι}
    (hagree : SuccessorsAgree owner k t) (h : CoverageInv owner k t nw)
    (hstep : InitStep owner k nw nw') : CoverageInv owner k t nw' := by
  cases hstep with
  | @deliver m peers p emit before after hr =>
    by_cases ht : m.teamid = t
    · subst ht
      exact h.step_self hagree hr
    · exact h.step_other ht hr

theorem CoverageInv.covered {owner : ChordID → ι} {nw : InitNetwork ι}
    (h : CoverageInv owner k t nw) (hflight : nw.flight = []) (hq : (nw.peers q).Holds t)
    (i : Nat) : (nw.peers (owner (member k t i))).Holds t := by
  obtain ⟨j, hj⟩ := h.owned q hq
  have hround : ∀ n, (nw.peers (owner (member k t (j + n)))).Holds t := by
    intro n
    induction n with
    | zero => rwa [Nat.add_zero, hj]
    | succ n ih =>
      rcases h.chain (j + n) ih with hc | ⟨m, hm, -⟩
      · exact hc
      · rw [hflight] at hm
        cases hm
  have hlen := List.length_pos_iff.2 (team_ne_nil k t)
  have hi := hround (i + (team k t).length * j - j)
  have hle : j ≤ (team k t).length * j := Nat.le_mul_of_pos_left j hlen
  rwa [member, show j + (i + (team k t).length * j - j) = i + (team k t).length * j by omega,
    Nat.add_mul_mod_self_left] at hi

theorem CoverageInv.run [DecidableEq ι] {owner : ChordID → ι} {nw nw' : InitNetwork ι}
    (hagree : SuccessorsAgree owner k t) (h : CoverageInv owner k t nw)
    (hrun : Relation.ReflTransGen (InitStep owner k) nw nw') : CoverageInv owner k t nw' := by
  induction hrun with
  | refl => exact h
  | tail _ hstep ih => exact hstep.coverage hagree ih

def InitNetwork.deliver [DecidableEq ι] (owner : ChordID → ι) (k : Nat) (nw : InitNetwork ι) :
    InitNetwork ι :=
  match nw.flight with
  | [] => nw
  | m :: after =>
    let r := readInit true k m (nw.peers (owner m.key))
    ⟨Function.update nw.peers (owner m.key) r.1, after ++ r.2⟩

theorem InitStep.head [DecidableEq ι] {owner : ChordID → ι} {nw : InitNetwork ι}
    (h : nw.flight ≠ []) : InitStep owner k nw (nw.deliver owner k) := by
  obtain ⟨peers, flight⟩ := nw
  cases flight with
  | nil => exact (h rfl).elim
  | cons m after => exact @InitStep.deliver _ _ owner k m peers _ _ [] after rfl

theorem InitStep.run_three [DecidableEq ι] {owner : ChordID → ι} {nw : InitNetwork ι}
    (h₁ : nw.flight ≠ []) (h₂ : (nw.deliver owner k).flight ≠ [])
    (h₃ : ((nw.deliver owner k).deliver owner k).flight ≠ []) :
    Relation.ReflTransGen (InitStep owner k) nw
      (((nw.deliver owner k).deliver owner k).deliver owner k) :=
  ((Relation.ReflTransGen.single (InitStep.head h₁)).tail (InitStep.head h₂)).tail
    (InitStep.head h₃)

/-- In a quiescent state of every run the whole team holds the list, provided that the peers
with several IDs of the team see the same peer behind each of them. -/
theorem informteam_coverage [DecidableEq ι] (owner : ChordID → ι) (k : Nat) (t : ChordID)
    (hagree : SuccessorsAgree owner k t) (msgs : List InitMsg)
    (hmsgs : ∀ m ∈ msgs, InitMsg.Addressed k m) (nw : InitNetwork ι)
    (hrun : Relation.ReflTransGen (InitStep owner k) (initNetwork ι msgs) nw)
    (hflight : nw.flight = []) (hq : ∃ q, (nw.peers q).Holds t) :
    ∀ ID ∈ team k t, ∃ m, (nw.peers (owner ID)).list? t = some m ∧ dummysig ∈ m.keys := by
  have hinv := (CoverageInv.init owner hmsgs).run hagree hrun
  obtain ⟨q, hq⟩ := hq
  intro ID hID
  obtain ⟨i, rfl⟩ := exists_member hID
  obtain ⟨m, hm⟩ := Option.ne_none_iff_exists'.1 (hinv.covered hflight hq i)
  refine ⟨m, hm, ?_⟩
  rw [SortedMap.mem_keys_iff, Option.isSome_iff_ne_none]
  exact hinv.dummy _ m hm

theorem member_two (t : ChordID) (i : Nat) : member 2 t i = member 2 t (i % 2) := by
  have hlen : (team 2 t).length = 2 := makeTeamLoop_length 0 _ t 1
  rw [member, member, hlen, Nat.mod_mod]

/-- A team of two owners, each of which informs the other. -/
theorem informteam_coverage_two : ∃ nw : InitNetwork ChordID, ∃ m,
    Relation.ReflTransGen (InitStep id 2)
      (initNetwork ChordID [⟨.INITGOSSIP, 1, 1, [5], 1, 1⟩]) nw ∧
      (nw.peers (member 2 1 1)).list? 1 = some m ∧ dummysig ∈ m.keys := by
  let start := initNetwork ChordID [⟨.INITGOSSIP, 1, 1, [5], 1, 1⟩]
  have hrun : Relation.ReflTransGen (InitStep id 2) start _ :=
    InitStep.run_three (by simp [start, initNetwork])
      (fun h => absurd (List.isEmpty_iff.2 h) (by decide +kernel))
      (fun h => absurd (List.isEmpty_iff.2 h) (by decide +kernel))
  have hagree : SuccessorsAgree id 2 1 := by
    intro i j hij
    rw [id, id, member_two 1 i, member_two 1 j] at hij
    rw [id, id, member_two 1 (i + 1), member_two 1 (j + 1), Nat.add_mod, Nat.add_mod j]
    rcases Nat.mod_two_eq_zero_or_one i with hi | hi <;>
      rcases Nat.mod_two_eq_zero_or_one j with hj | hj <;> rw [hi, hj] at hij ⊢
    · exact absurd hij (by decide +kernel)
    · exact absurd hij (by decide +kernel)
  obtain ⟨m, hm, hd⟩ := informteam_coverage id 2 1 hagree [⟨.INITGOSSIP, 1, 1, [5], 1, 1⟩]
    (by simp only [List.mem_singleton, forall_eq]; exact ⟨rfl, by decide +kernel, by decide⟩)
    _ hrun (List.isEmpty_iff.1 (by decide +kernel))
    ⟨1, Option.isSome_iff_ne_none.1 (by decide +kernel)⟩ (member 2 1 1) (member_mem 2 1 1)
  exact ⟨_, m, hrun, hm, hd⟩

/-- Four IDs of a team, the first and the third owned by one peer. -/
def sharedOwner (ID : ChordID) : Fin 3 :=
  if ID = member 4 1 1 then 1 else if ID = member 4 1 3 then 2 else 0

/-- The message that comes back to the peer with two IDs stops there. -/
theorem informteam_misses_member :
    ∃ nw, Relation.ReflTransGen (InitStep sharedOwner 4)
        (initNetwork (Fin 3) [⟨.INITGOSSIP, 1, 1, [5], 1, 1⟩]) nw ∧
      nw.flight = [] ∧ (nw.peers 0).Holds 1 ∧
      ∃ ID ∈ team 4 1, ¬ (nw.peers (sharedOwner ID)).Holds 1 := by
  refine ⟨_, InitStep.run_three (by simp [initNetwork])
    (fun h => absurd (List.isEmpty_iff.2 h) (by decide +kernel))
    (fun h => absurd (List.isEmpty_iff.2 h) (by decide +kernel)),
    List.isEmpty_iff.1 (by decide +kernel), Option.isSome_iff_ne_none.1 (by decide +kernel),
    member 4 1 3, member_mem 4 1 3, fun h => ?_⟩
  exact absurd (Option.isSome_iff_ne_none.2 h) (by decide +kernel)

end XGossip
