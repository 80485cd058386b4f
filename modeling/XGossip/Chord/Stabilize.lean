import XGossip.Chord.VNode
import Mathlib.Algebra.BigOperators.Group.Finset.Basic
import Mathlib.Algebra.Order.BigOperators.Group.Finset

namespace XGossip
set_option autoImplicit true
open Circle

def VNode.updatePred (v : VNode) (x : ChordID) : VNode :=
  if between v.myPred v.myID x then v.insert x else v

/-- What a node makes of the predecessor p of its successor sd, and whether it notifies sd. -/
def SuccList.stabilizeGetpredCb (v : VNode) (sd p : ChordID) : VNode × Bool :=
  if v.myID = p then (v, false)
  else if betweenleftincl v.myID sd p then (v.insert p, false)
  else (v, true)

/-- How far a node is with its successor: it asks for its predecessor, and waits for the answer. -/
inductive Phase where
  | idle
  | asked (s : ChordID)
  | answered (s p : ChordID)
  deriving DecidableEq

/-- The nodes of the ring, what they wait for, the nodes that are to join with the first of the
successors they have been sent, and the notifications on their way. -/
structure RingState where
  members : Finset ChordID
  node : ChordID → Option VNode
  phase : ChordID → Phase
  lookups : List (ChordID × ChordID)
  notifies : List (ChordID × ChordID)

inductive RingAct where
  | ask (n : ChordID)
  | answer (n : ChordID)
  | hear (n s p : ChordID)
  | notify (n : ChordID)
  | notified (s n : ChordID)
  | learn (n m : ChordID)
  | forget (n : ChordID)
  | find (n m : ChordID)
  | join (n : ChordID)
  deriving DecidableEq

def AllAlive (v : VNode) : Prop := ∀ l ∈ v.locations.loclist, l.alive = true

instance : Decidable (AllAlive v) :=
  inferInstanceAs (Decidable (∀ l ∈ v.locations.loclist, l.alive = true))

/-- A step of the ring, as long as no node leaves. Calls that overlap are steps in any order. -/
inductive RingStep : RingState → RingAct → RingState → Prop
  | ask {st n v} (hn : st.node n = some v) (hidle : st.phase n = .idle) :
      RingStep st (.ask n) { st with phase := Function.update st.phase n (.asked v.mySucc) }
  | answer {st n s w} (hn : st.phase n = .asked s) (hs : st.node s = some w) :
      RingStep st (.answer n)
        { st with phase := Function.update st.phase n (.answered s w.myPred) }
  | hear {st n v s p} (hn : st.node n = some v) (hp : st.phase n = .answered s p) :
      RingStep st (.hear n s p)
        { st with
          node := Function.update st.node n (some (SuccList.stabilizeGetpredCb v s p).1)
          phase := Function.update st.phase n .idle
          notifies := if (SuccList.stabilizeGetpredCb v s p).2 then (s, n) :: st.notifies
            else st.notifies }
  -- a node tells its successor when it joins, or when the successor is another one
  | notify {st n v} (hn : st.node n = some v) :
      RingStep st (.notify n) { st with notifies := (v.mySucc, n) :: st.notifies }
  | notified {st s n w} (hmem : (s, n) ∈ st.notifies) (hs : st.node s = some w) :
      RingStep st (.notified s n)
        { st with
          node := Function.update st.node s (some (w.updatePred n))
          notifies := st.notifies.erase (s, n) }
  -- what lookups, successor lists and fingers bring to a node
  | learn {st n v m w} (hn : st.node n = some v) (hm : st.node m = some w) :
      RingStep st (.learn n m) { st with node := Function.update st.node n (some (v.insert m)) }
  -- the cache of locations is cut down to its size, the neighbours are pinned
  | forget {st n v v'} (hn : st.node n = some v) (hid : v'.myID = v.myID)
      (hgood : v'.locations.good ⊆ v.locations.good) (halive : AllAlive v')
      (hsucc : v'.mySucc = v.mySucc) (hpred : v'.myPred = v.myPred) :
      RingStep st (.forget n) { st with node := Function.update st.node n (some v') }
  -- a node to be asks for the successors of the ID before its own, which is nobody's
  | find {st m w n failed s succs} (hm : st.node m = some w) (hn : st.node n = none)
      (hlt : n < 2 ^ NBIT) (hdec : st.node (decID n) = none)
      (hroute : w.doroute (decID n) failed = .inrange (s :: succs)) :
      RingStep st (.find n m) { st with lookups := (n, s) :: st.lookups }
  | join {st n s v} (hmem : (n, s) ∈ st.lookups) (hn : st.node n = none) (hid : v.myID = n)
      (hs : s ∈ v.locations.good) (halive : AllAlive v)
      (hgood : ∀ m ∈ v.locations.good, m = n ∨ m ∈ st.members) :
      RingStep st (.join n)
        { members := insert n st.members
          node := Function.update st.node n (some v)
          phase := Function.update st.phase n .idle
          lookups := st.lookups
          notifies := (v.mySucc, n) :: st.notifies }

inductive RingRun : RingState → List RingAct → RingState → Prop
  | nil : RingRun st [] st
  | cons (h : RingStep st a st') (hs : RingRun st' as st'') : RingRun st (a :: as) st''

section Nodes

variable {v v' : VNode} {n p x : Nat}

theorem VNode.mySucc_isNext (v : VNode) :
    IsNext (2 ^ NBIT) v.locations.good v.myID v.mySucc := by
  have hfirst := VNode.incID_isFirst v.me
  refine ⟨hfirst.1, fun m hm => ?_⟩
  have hle := hfirst.2 m hm
  have hs : way (2 ^ NBIT) v.myID v.mySucc = _ := distance_eq v.myID_lt (VNode.good_lt _ hfirst.1)
  have hm : way (2 ^ NBIT) v.myID m = _ := distance_eq v.myID_lt (VNode.good_lt _ hm)
  rw [hs, hm]
  exact Nat.succ_le_succ hle

structure Nearer (v v' : VNode) : Prop where
  own : v'.myID = v.myID
  succ : distance v.myID v'.mySucc ≤ distance v.myID v.mySucc
  pred : gap (2 ^ NBIT) v.myID v.myPred ≤ gap (2 ^ NBIT) v.myID v'.myPred

theorem Nearer.refl (v : VNode) : Nearer v v := ⟨rfl, Nat.le_refl _, Nat.le_refl _⟩

theorem Nearer.trans {v'' : VNode} (h : Nearer v v') (h' : Nearer v' v'') : Nearer v v'' :=
  ⟨h'.own.trans h.own, (h.own ▸ h'.succ).trans h.succ, h.pred.trans (h.own ▸ h'.pred)⟩

theorem Nearer.of_subset (hid : v'.myID = v.myID)
    (h : v.locations.good ⊆ v'.locations.good) : Nearer v v' := by
  refine ⟨hid, ?_, ?_⟩
  · exact hid ▸ v'.mySucc_isNext.2 _ (h v.mySucc_isNext.1)
  · exact hid ▸ VNode.myPred_isLast.2 _ (h VNode.myPred_isLast.1)

theorem VNode.good_insert (h : AllAlive v) (hn : n < 2 ^ NBIT) :
    (v.insert n).locations.good = Insert.insert n v.locations.good := by
  rw [VNode.insert]
  split
  · next hnew => exact LocationTable.good_insert hnew.1 hnew.2
  · next hknown =>
    obtain ⟨l, hl⟩ := Option.ne_none_iff_exists'.1 fun hnone => hknown ⟨hn, hnone⟩
    have hid : l.id = n := by simpa using List.find?_some hl
    have hmem := List.mem_of_find?_eq_some hl
    refine (Finset.insert_eq_of_mem (LocationTable.mem_good.2 ?_)).symm
    rw [← hid, ← h l hmem]
    exact hmem

theorem AllAlive.insert (h : AllAlive v) : AllAlive (v.insert n) := by
  rw [VNode.insert]
  split
  · next hnew =>
    intro l hl
    rcases (LocationTable.mem_insert hnew.1 hnew.2).1 hl with rfl | hl
    · rfl
    · exact h l hl
  · exact h

theorem Nearer.insert (h : AllAlive v) (hn : n < 2 ^ NBIT) : Nearer v (v.insert n) :=
  .of_subset (VNode.insert_myID n) (VNode.good_insert h hn ▸ Finset.subset_insert _ _)

end Nodes

/-- What a node of the ring knows, and that its successor passes over none of the base. -/
structure Sound (members base : Finset ChordID) (n : ChordID) (v : VNode) : Prop where
  mem : n ∈ members
  own : v.myID = n
  known : v.locations.good ⊆ members
  alive : AllAlive v
  skip : ∀ b ∈ base, distance n v.mySucc ≤ distance n b

def PhaseIn (members : Finset ChordID) : Phase → Prop
  | .idle => True
  | .asked s => s ∈ members
  | .answered s p => s ∈ members ∧ p ∈ members

structure Pending (members base : Finset ChordID) (st : RingState) : Prop where
  phase : ∀ n, PhaseIn members (st.phase n)
  lookups : ∀ n s, (n, s) ∈ st.lookups →
    n < 2 ^ NBIT ∧ s ∈ members ∧ ∀ b ∈ base, distance n s ≤ distance n b
  notifies : ∀ s n, (s, n) ∈ st.notifies → s ∈ members ∧ n ∈ members

/-- The nodes of the base are in the ring, and nobody's successor passes over one of them. -/
structure RingInv (base : Finset ChordID) (st : RingState) : Prop where
  lt : ∀ n ∈ st.members, n < 2 ^ NBIT
  sub : base ⊆ st.members
  node : ∀ n v, st.node n = some v → Sound st.members base n v
  isSome : ∀ n ∈ st.members, ∃ v, st.node n = some v
  pending : Pending st.members base st

section Steps

variable {base : Finset ChordID} {st st' : RingState} {act : RingAct} {v v' : VNode} {n : ChordID}

theorem Sound.nearer {members : Finset ChordID} (h : Sound members base n v) (hv : Nearer v v')
    (hknown : v'.locations.good ⊆ members) (halive : AllAlive v') : Sound members base n v' where
  mem := h.mem
  own := hv.own.trans h.own
  known := hknown
  alive := halive
  skip b hb := (h.own ▸ hv.succ).trans (h.skip b hb)

theorem Sound.insert {members : Finset ChordID} {m : Nat} (h : Sound members base n v)
    (hlt : m < 2 ^ NBIT) (hm : m ∈ members) : Sound members base n (v.insert m) := by
  refine h.nearer (.insert h.alive hlt) ?_ h.alive.insert
  rw [VNode.good_insert h.alive hlt]
  exact Finset.insert_subset hm h.known

theorem Sound.updatePred {members : Finset ChordID} {m : Nat} (h : Sound members base n v)
    (hlt : m < 2 ^ NBIT) (hm : m ∈ members) :
    Sound members base n (v.updatePred m) ∧ Nearer v (v.updatePred m) := by
  rw [VNode.updatePred]
  split
  · exact ⟨h.insert hlt hm, .insert h.alive hlt⟩
  · exact ⟨h, .refl v⟩

theorem Sound.stabilizeGetpredCb {members : Finset ChordID} {s p : Nat}
    (h : Sound members base n v) (hlt : p < 2 ^ NBIT) (hp : p ∈ members) :
    Sound members base n (SuccList.stabilizeGetpredCb v s p).1 ∧
      Nearer v (SuccList.stabilizeGetpredCb v s p).1 := by
  rw [SuccList.stabilizeGetpredCb]
  split
  · exact ⟨h, .refl v⟩
  · split
    · exact ⟨h.insert hlt hp, .insert h.alive hlt⟩
    · exact ⟨h, .refl v⟩

theorem Sound.mono {members members' : Finset ChordID} (h : Sound members base n v)
    (hsub : members ⊆ members') : Sound members' base n v :=
  ⟨hsub h.mem, h.own, h.known.trans hsub, h.alive, h.skip⟩

theorem PhaseIn.mono {members members' : Finset ChordID} {p : Phase} (h : PhaseIn members p)
    (hsub : members ⊆ members') : PhaseIn members' p := by
  cases p with
  | idle => trivial
  | asked s => exact hsub h
  | answered s p => exact ⟨hsub h.1, hsub h.2⟩

/-- The nodes that were there are there, and their neighbours have not moved away. -/
def Moves (st st' : RingState) : Prop :=
  ∀ n v, st.node n = some v → ∃ v', st'.node n = some v' ∧ Nearer v v'

theorem Moves.trans {st'' : RingState} (h : Moves st st') (h' : Moves st' st'') :
    Moves st st'' := fun n v hn => by
  obtain ⟨v', hn', hv⟩ := h n v hn
  obtain ⟨v'', hn'', hv'⟩ := h' n v' hn'
  exact ⟨v'', hn'', hv.trans hv'⟩

theorem Moves.update (hn : st.node n = some v) (hnear : Nearer v v')
    (hnode : st'.node = Function.update st.node n (some v')) : Moves st st' := fun m w hm => by
  rw [hnode]
  by_cases hmn : m = n
  · subst hmn
    rw [Function.update_self]
    exact ⟨v', rfl, Option.some.inj (hn.symm.trans hm) ▸ hnear⟩
  · rw [Function.update_of_ne hmn]
    exact ⟨w, hm, .refl w⟩

theorem eq_some_of_update {m : ChordID} {w : VNode}
    (h : Function.update st.node n (some v) m = some w) :
    m = n ∧ w = v ∨ m ≠ n ∧ st.node m = some w := by
  by_cases hmn : m = n
  · rw [hmn, Function.update_self] at h
    exact .inl ⟨hmn, (Option.some.inj h).symm⟩
  · rw [Function.update_of_ne hmn] at h
    exact .inr ⟨hmn, h⟩

theorem exists_update {m : ChordID} (h : m ≠ n → ∃ w, st.node m = some w) :
    ∃ w, Function.update st.node n (some v) m = some w := by
  by_cases hmn : m = n
  · exact ⟨v, by rw [hmn, Function.update_self]⟩
  · rw [Function.update_of_ne hmn]
    exact h hmn

theorem RingInv.update (h : RingInv base st) (hv : Sound st.members base n v')
    (hst : st'.members = st.members) (hnode : st'.node = Function.update st.node n (some v'))
    (hpending : Pending st.members base st') : RingInv base st' := by
  refine ⟨hst ▸ h.lt, hst ▸ h.sub, fun m w hm => ?_, fun m hm => ?_, hst ▸ hpending⟩
  · rw [hst]
    rcases eq_some_of_update (hnode ▸ hm) with ⟨rfl, rfl⟩ | ⟨-, hm⟩
    · exact hv
    · exact h.node m w hm
  · exact hnode ▸ exists_update fun _ => h.isSome m (hst ▸ hm)

theorem PhaseIn.update {members : Finset ChordID} {phase : ChordID → Phase} {p : Phase}
    (h : ∀ n, PhaseIn members (phase n)) (hp : PhaseIn members p) (n : ChordID) :
    ∀ m, PhaseIn members (Function.update phase n p m) := fun m => by
  by_cases hmn : m = n
  · rw [hmn, Function.update_self]
    exact hp
  · rw [Function.update_of_ne hmn]
    exact h m

theorem update_same (hn : st.node n = some v) : st.node = Function.update st.node n (some v) :=
  hn ▸ (Function.update_eq_self n st.node).symm

theorem decID_lt {n : Nat} (hn : n < 2 ^ NBIT) : decID n < 2 ^ NBIT := by
  dsimp only [decID, ChordID]
  split <;> omega

theorem way_decID {n : Nat} (hn : n < 2 ^ NBIT) : way (2 ^ NBIT) (decID n) n = 1 := by
  dsimp only [decID, way, ChordID]
  split_ifs <;> omega

/-- The first successor that a node to be is sent passes over no more than the sender's does. -/
theorem Sound.skip_of_inrange {members : Finset ChordID} {m n s : Nat} {failed succs : List ChordID}
    (hlt : ∀ n ∈ members, n < 2 ^ NBIT) (hsub : base ⊆ members) (h : Sound members base m v)
    (hn : n < 2 ^ NBIT) (hnmem : n ∉ members) (hdec : decID n ∉ members)
    (hroute : v.doroute (decID n) failed = .inrange (s :: succs)) :
    s ∈ members ∧ ∀ b ∈ base, distance n s ≤ distance n b := by
  rw [VNode.doroute] at hroute
  split at hroute
  · next hin =>
    obtain rfl : v.mySucc = s := (List.cons.inj (TestandfindRes.inrange.inj hroute)).1
    have hs := h.known v.mySucc_isNext.1
    refine ⟨hs, fun b hb => ?_⟩
    have hm : m < 2 ^ NBIT := hlt m h.mem
    have hslt := hlt _ hs
    have hle := (betweenrightincl_iff v.myID_lt hslt (decID_lt hn)).1 hin
    rw [h.own] at hle
    have hskip := h.skip b hb
    change way (2 ^ NBIT) m (decID n) ≤ way (2 ^ NBIT) m v.mySucc at hle
    change way (2 ^ NBIT) m v.mySucc ≤ way (2 ^ NBIT) m b at hskip
    have hne : way (2 ^ NBIT) m (decID n) ≠ way (2 ^ NBIT) m v.mySucc := fun he =>
      hdec (way_inj hm (decID_lt hn) hslt he ▸ hs)
    have hone := way_decID hn
    have htop := way_le hm hslt
    have hmn : way (2 ^ NBIT) m n = way (2 ^ NBIT) m (decID n) + way (2 ^ NBIT) (decID n) n :=
      way_add_of_le hm (decID_lt hn) (by omega)
    have hne' : way (2 ^ NBIT) m n ≠ way (2 ^ NBIT) m v.mySucc := fun he =>
      hnmem (way_inj hm hn hslt he ▸ hs)
    have hadds := way_add hm hn hslt (by omega)
    have haddb := way_add hm hn (hlt b (hsub hb)) (by omega)
    change way (2 ^ NBIT) n v.mySucc ≤ way (2 ^ NBIT) n b
    omega
  · cases hroute

/-- A step keeps the ring sound; only a join makes it grow. -/
theorem RingInv.step (h : RingInv base st) (hs : RingStep st act st') :
    RingInv base st' ∧ Moves st st' ∧ ((∀ n, act ≠ .join n) → st'.members = st.members) := by
  obtain ⟨hphase, hlookups, hnotifies⟩ := h.pending
  have hsucc {n : ChordID} {v : VNode} (hn : st.node n = some v) : v.mySucc ∈ st.members :=
    (h.node n v hn).known v.mySucc_isNext.1
  have hpred {n : ChordID} {v : VNode} (hn : st.node n = some v) : v.myPred ∈ st.members :=
    (h.node n v hn).known VNode.myPred_isLast.1
  have hmem {n : ChordID} {v : VNode} (hn : st.node n = some v) : n ∈ st.members :=
    (h.node n v hn).mem
  cases hs with
  | @ask n v hn hidle =>
    have hp : PhaseIn st.members (.asked v.mySucc) := hsucc hn
    exact ⟨h.update (h.node n v hn) rfl (update_same hn) ⟨.update hphase hp n, hlookups, hnotifies⟩,
      .update hn (.refl v) (update_same hn), fun _ => rfl⟩
  | @answer n s w hn hs =>
    have hp : PhaseIn st.members (.answered s w.myPred) := ⟨hmem hs, hpred hs⟩
    exact ⟨h.update (h.node s w hs) rfl (update_same hs) ⟨.update hphase hp n, hlookups, hnotifies⟩,
      .update hs (.refl w) (update_same hs), fun _ => rfl⟩
  | @hear n v s p hn hp =>
    have hin : PhaseIn st.members (.answered s p) := hp ▸ hphase n
    obtain ⟨hsound, hnear⟩ := (h.node n v hn).stabilizeGetpredCb (s := s) (h.lt p hin.2) hin.2
    have hidle : PhaseIn st.members .idle := trivial
    refine ⟨h.update hsound rfl rfl ⟨.update hphase hidle n, hlookups, fun s' n' hmem' => ?_⟩,
      .update hn hnear rfl, fun _ => rfl⟩
    dsimp only at hmem'
    split at hmem'
    · rcases List.mem_cons.1 hmem' with heq | hold
      · obtain ⟨rfl, rfl⟩ := Prod.mk.inj heq
        exact ⟨hin.1, hmem hn⟩
      · exact hnotifies _ _ hold
    · exact hnotifies _ _ hmem'
  | @notify n v hn =>
    refine ⟨h.update (h.node n v hn) rfl (update_same hn)
      ⟨hphase, hlookups, fun s' n' hmem' => ?_⟩, .update hn (.refl v) (update_same hn),
      fun _ => rfl⟩
    rcases List.mem_cons.1 hmem' with heq | hold
    · obtain ⟨rfl, rfl⟩ := Prod.mk.inj heq
      exact ⟨hsucc hn, hmem hn⟩
    · exact hnotifies _ _ hold
  | @notified s n w hmem' hs =>
    have hn := (hnotifies s n hmem').2
    obtain ⟨hsound, hnear⟩ := (h.node s w hs).updatePred (h.lt n hn) hn
    exact ⟨h.update hsound rfl rfl ⟨hphase, hlookups, fun s' n' hold =>
      hnotifies _ _ (List.mem_of_mem_erase hold)⟩, .update hs hnear rfl, fun _ => rfl⟩
  | @learn n v m w hn hm =>
    have hlt := h.lt m (hmem hm)
    exact ⟨h.update ((h.node n v hn).insert hlt (hmem hm)) rfl rfl ⟨hphase, hlookups, hnotifies⟩,
      .update hn (.insert (h.node n v hn).alive hlt) rfl, fun _ => rfl⟩
  | @forget n v v' hn hid hgood halive hsucc' hpred' =>
    have hnear : Nearer v v' :=
      ⟨hid, Nat.le_of_eq (congrArg _ hsucc'), Nat.le_of_eq (congrArg _ hpred'.symm)⟩
    have hsound := h.node n v hn
    exact ⟨h.update (hsound.nearer hnear (hgood.trans hsound.known) halive) rfl rfl
      ⟨hphase, hlookups, hnotifies⟩, .update hn hnear rfl, fun _ => rfl⟩
  | @find m w n failed s succs hm hn hlt hdec hroute =>
    have hnot {n : ChordID} (hn : st.node n = none) : n ∉ st.members := fun hmem => by
      obtain ⟨v, hv⟩ := h.isSome n hmem
      cases hn.symm.trans hv
    have hskip := (h.node m w hm).skip_of_inrange h.lt h.sub hlt (hnot hn) (hnot hdec) hroute
    refine ⟨h.update (h.node m w hm) rfl (update_same hm)
      ⟨hphase, fun n' s' hmem' => ?_, hnotifies⟩, .update hm (.refl w) (update_same hm),
      fun _ => rfl⟩
    rcases List.mem_cons.1 hmem' with heq | hold
    · obtain ⟨rfl, rfl⟩ := Prod.mk.inj heq
      exact ⟨hlt, hskip⟩
    · exact hlookups _ _ hold
  | @join n s v hlookup hn hid hs halive hgood =>
    obtain ⟨hlt, hsmem, hskip⟩ := hlookups n s hlookup
    have hsub : st.members ⊆ insert n st.members := Finset.subset_insert _ _
    have hknown : v.locations.good ⊆ insert n st.members := fun m hm =>
      Finset.mem_insert.2 (hgood m hm)
    have hsound : Sound (insert n st.members) base n v :=
      ⟨Finset.mem_insert_self _ _, hid, hknown, halive, fun b hb =>
        (hid ▸ v.mySucc_isNext.2 s hs).trans (hskip b hb)⟩
    refine ⟨⟨fun m hm => ?_, h.sub.trans hsub, fun m w hm => ?_, fun m hm => ?_, ⟨?_, fun m s' hm =>
      ?_, fun s' m hm => ?_⟩⟩, fun m w hm => ?_, fun hne => absurd rfl (hne n)⟩
    · rcases Finset.mem_insert.1 hm with rfl | hm
      · exact hlt
      · exact h.lt m hm
    · rcases eq_some_of_update hm with ⟨rfl, rfl⟩ | ⟨-, hm⟩
      · exact hsound
      · exact (h.node m w hm).mono hsub
    · exact exists_update fun hmn => h.isSome m (Finset.mem_of_mem_insert_of_ne hm hmn)
    · exact .update (p := .idle) (fun m => (hphase m).mono hsub) trivial n
    · obtain ⟨hlt', hs', hskip'⟩ := hlookups m s' hm
      exact ⟨hlt', hsub hs', hskip'⟩
    · rcases List.mem_cons.1 hm with heq | hold
      · obtain ⟨rfl, rfl⟩ := Prod.mk.inj heq
        exact ⟨hknown v.mySucc_isNext.1, Finset.mem_insert_self _ _⟩
      · obtain ⟨hs', hm'⟩ := hnotifies s' m hold
        exact ⟨hsub hs', hsub hm'⟩
    · have hmn : m ≠ n := by
        rintro rfl
        cases hn.symm.trans hm
      exact ⟨w, (Function.update_of_ne hmn ..).trans hm, .refl w⟩

end Steps

section Rank

variable {members base : Finset ChordID} {st st' : RingState} {v v' : VNode}

/-- The nodes of the ring that are nearer to a node than its neighbours. -/
def VNode.rank (members : Finset ChordID) (v : VNode) : Nat :=
  (members.filter fun m => distance v.myID m < distance v.myID v.mySucc).card +
    (members.filter fun m => gap (2 ^ NBIT) v.myID v.myPred < gap (2 ^ NBIT) v.myID m).card

def RingState.rank (st : RingState) : Nat :=
  ∑ n ∈ st.members, ((st.node n).map (VNode.rank st.members)).getD 0

theorem Nearer.filters (h : Nearer v v') :
    (members.filter fun m => distance v'.myID m < distance v'.myID v'.mySucc) ⊆
        members.filter (fun m => distance v.myID m < distance v.myID v.mySucc) ∧
      (members.filter fun m => gap (2 ^ NBIT) v'.myID v'.myPred < gap (2 ^ NBIT) v'.myID m) ⊆
        members.filter fun m => gap (2 ^ NBIT) v.myID v.myPred < gap (2 ^ NBIT) v.myID m := by
  rw [h.own]
  exact ⟨Finset.monotone_filter_right _ fun m _ hm => hm.trans_le h.succ,
    Finset.monotone_filter_right _ fun m _ hm => h.pred.trans_lt hm⟩

theorem Nearer.rank_le (h : Nearer v v') : v'.rank members ≤ v.rank members :=
  Nat.add_le_add (Finset.card_le_card h.filters.1) (Finset.card_le_card h.filters.2)

/-- Without a node less between, the neighbours are the same ones. -/
theorem Nearer.eq_of_rank (h : Nearer v v') (hlt : ∀ n ∈ members, n < 2 ^ NBIT)
    (hv : v.locations.good ⊆ members) (hv' : v'.locations.good ⊆ members)
    (hrank : v.rank members ≤ v'.rank members) : v'.mySucc = v.mySucc ∧ v'.myPred = v.myPred := by
  obtain ⟨hsub, hsub'⟩ := @Nearer.filters members _ _ h
  have hcard := Finset.card_le_card hsub
  have hcard' := Finset.card_le_card hsub'
  rw [VNode.rank, VNode.rank] at hrank
  have hs := hv v.mySucc_isNext.1
  have hs' := hv' v'.mySucc_isNext.1
  have hp := hv (VNode.myPred_isLast (v := v)).1
  have hp' := hv' (VNode.myPred_isLast (v := v')).1
  constructor
  · have heq := Finset.eq_of_subset_of_card_le hsub (by omega)
    refine way_inj v.myID_lt (hlt _ hs') (hlt _ hs) (Nat.le_antisymm h.succ ?_)
    by_contra hnot
    have hmem : v'.mySucc ∈ members.filter fun m => distance v.myID m < distance v.myID v.mySucc :=
      Finset.mem_filter.2 ⟨hs', Nat.lt_of_not_le hnot⟩
    rw [← heq] at hmem
    exact Nat.lt_irrefl _ (Finset.mem_filter.1 hmem).2
  · have heq := Finset.eq_of_subset_of_card_le hsub' (by omega)
    refine gap_inj v.myID_lt (hlt _ hp') (hlt _ hp) (Nat.le_antisymm ?_ h.pred)
    by_contra hnot
    have hmem : v'.myPred ∈ members.filter fun m =>
        gap (2 ^ NBIT) v.myID v.myPred < gap (2 ^ NBIT) v.myID m :=
      Finset.mem_filter.2 ⟨hp', Nat.lt_of_not_le hnot⟩
    rw [← heq] at hmem
    exact Nat.lt_irrefl _ (Finset.mem_filter.1 hmem).2

theorem RingState.rank_le (st : RingState) : st.rank ≤ 2 * st.members.card ^ 2 := by
  have hnode : ∀ n ∈ st.members,
      ((st.node n).map (VNode.rank st.members)).getD 0 ≤ 2 * st.members.card := by
    intro n _
    cases st.node n with
    | none => exact Nat.zero_le _
    | some v =>
      rw [Nat.two_mul]
      exact Nat.add_le_add (Finset.card_filter_le ..) (Finset.card_filter_le ..)
  refine (Finset.sum_le_card_nsmul _ _ _ hnode).trans_eq ?_
  rw [nsmul_eq_mul, Nat.cast_id, Nat.pow_two, Nat.mul_left_comm]

theorem Moves.rank_le (h : RingInv base st) (hmoves : Moves st st')
    (hst : st'.members = st.members) : st'.rank ≤ st.rank := by
  rw [RingState.rank, hst]
  refine Finset.sum_le_sum fun n hn => ?_
  obtain ⟨v, hv⟩ := h.isSome n hn
  obtain ⟨v', hv', hnear⟩ := hmoves n v hv
  rw [hv, hv']
  exact hnear.rank_le

def Still (st st' : RingState) : Prop :=
  ∀ n v, st.node n = some v →
    ∃ v', st'.node n = some v' ∧ v'.mySucc = v.mySucc ∧ v'.myPred = v.myPred

theorem Moves.still (h : RingInv base st) (h' : RingInv base st') (hmoves : Moves st st')
    (hst : st'.members = st.members) (hrank : st.rank ≤ st'.rank) : Still st st' := by
  intro n v hv
  obtain ⟨v', hv', hnear⟩ := hmoves n v hv
  have hsound := h.node n v hv
  have hsound' := h'.node n v' hv'
  refine ⟨v', hv', hnear.eq_of_rank h.lt hsound.known (hst ▸ hsound'.known) ?_⟩
  have hle : ∀ n ∈ st.members, ((st'.node n).map (VNode.rank st.members)).getD 0 ≤
      ((st.node n).map (VNode.rank st.members)).getD 0 := by
    intro m hm
    obtain ⟨w, hw⟩ := h.isSome m hm
    obtain ⟨w', hw', hnear'⟩ := hmoves m w hw
    rw [hw, hw']
    exact hnear'.rank_le
  have hsum := (Finset.sum_eq_sum_iff_of_le hle).1
    (Nat.le_antisymm (Finset.sum_le_sum hle)
      (by rwa [RingState.rank, RingState.rank, hst] at hrank))
  have heq := hsum n hsound.mem
  rw [hv, hv'] at heq
  exact Nat.le_of_eq heq.symm

end Rank

section Runs

variable {base : Finset ChordID} {st st' : RingState} {acts : List RingAct}

def NoJoin (acts : List RingAct) : Prop := ∀ n, .join n ∉ acts

theorem RingRun.split {before after : List RingAct} (h : RingRun st (before ++ after) st') :
    ∃ mid, RingRun st before mid ∧ RingRun mid after st' := by
  induction before generalizing st with
  | nil => exact ⟨st, .nil, h⟩
  | cons a before ih =>
    cases h with
    | cons hstep hrun =>
      obtain ⟨mid, hbefore, hafter⟩ := ih hrun
      exact ⟨mid, .cons hstep hbefore, hafter⟩

theorem RingRun.append {acts' : List RingAct} (h : RingRun st acts st')
    (h' : RingRun st' acts' st'') : RingRun st (acts ++ acts') st'' := by
  induction h with
  | nil => exact h'
  | cons hstep _ ih => exact .cons hstep (ih h')

theorem RingRun.replicate (h : RingRun st acts st) :
    ∀ k, RingRun st (List.replicate k acts).flatten st
  | 0 => .nil
  | k + 1 => h.append (h.replicate k)

theorem RingInv.run (h : RingInv base st) (hs : RingRun st acts st') :
    RingInv base st' ∧ Moves st st' ∧ (NoJoin acts → st'.members = st.members) := by
  induction hs with
  | nil => exact ⟨h, fun n v hn => ⟨v, hn, .refl v⟩, fun _ => rfl⟩
  | cons hstep hrun ih =>
    obtain ⟨h', hmoves, hsame⟩ := h.step hstep
    obtain ⟨h'', hmoves', hsame'⟩ := ih h'
    refine ⟨h'', hmoves.trans hmoves', fun hjoin => ?_⟩
    rw [hsame' fun n hn => hjoin n (List.mem_cons_of_mem _ hn)]
    exact hsame fun n hn => hjoin n (hn ▸ List.mem_cons_self)

theorem RingInv.rank_le (h : RingInv base st) (hs : RingRun st acts st') (hjoin : NoJoin acts) :
    st'.rank ≤ st.rank := by
  obtain ⟨-, hmoves, hsame⟩ := h.run hs
  exact hmoves.rank_le h (hsame hjoin)

/-- What a node can be waiting for after it has asked the successor σ whose predecessor is π. -/
def Fresh (σ π : ChordID) : Phase → Prop
  | .idle => True
  | .asked s => s = σ
  | .answered s p => s = σ ∧ p = π

def Between (st : RingState) (n σ π : ChordID) : Prop :=
  (∃ v, st.node n = some v ∧ v.mySucc = σ) ∧ ∃ w, st.node σ = some w ∧ w.myPred = π

variable {n σ π : ChordID} {act : RingAct}

theorem Between.still (h : Between st n σ π) (hstill : Still st st') : Between st' n σ π := by
  obtain ⟨⟨v, hv, hsucc⟩, w, hw, hpred⟩ := h
  obtain ⟨v', hv', hsucc', -⟩ := hstill n v hv
  obtain ⟨w', hw', -, hpred'⟩ := hstill σ w hw
  exact ⟨⟨v', hv', hsucc'.trans hsucc⟩, w', hw', hpred'.trans hpred⟩

theorem RingStep.fresh (hs : RingStep st act st') (hbetween : Between st n σ π)
    (hjoin : act ≠ .join n) (hfresh : act = .ask n ∨ Fresh σ π (st.phase n)) :
    Fresh σ π (st'.phase n) := by
  obtain ⟨⟨v, hv, rfl⟩, w, hw, rfl⟩ := hbetween
  have hkept {m : ChordID} {p : Phase} (hother : m = n → Fresh v.mySucc w.myPred p)
      (hask : act ≠ .ask n ∨ m = n) :
      Fresh v.mySucc w.myPred (Function.update st.phase m p n) := by
    by_cases hmn : m = n
    · subst hmn
      rw [Function.update_self]
      exact hother rfl
    · rw [Function.update_of_ne (Ne.symm hmn)]
      rcases hfresh with hact | hfresh
      · exact absurd hact (hask.resolve_right hmn)
      · exact hfresh
  cases hs with
  | @ask m v' hm hidle =>
    refine hkept (fun hmn => ?_) ?_
    · subst hmn
      cases hv.symm.trans hm
      rfl
    · by_cases hmn : m = n
      · exact .inr hmn
      · exact .inl fun he => hmn (RingAct.ask.inj he)
  | @answer m s w' hm hs' =>
    refine hkept (fun hmn => ?_) (.inl RingAct.noConfusion)
    subst hmn
    rcases hfresh with hact | hfresh
    · cases hact
    · rw [hm] at hfresh
      cases (show s = v.mySucc from hfresh)
      cases hw.symm.trans hs'
      exact ⟨rfl, rfl⟩
  | hear => exact hkept (fun _ => trivial) (.inl RingAct.noConfusion)
  | join => exact hkept (fun _ => trivial) (.inl RingAct.noConfusion)
  | notify => exact hfresh.resolve_left RingAct.noConfusion
  | notified => exact hfresh.resolve_left RingAct.noConfusion
  | learn => exact hfresh.resolve_left RingAct.noConfusion
  | forget => exact hfresh.resolve_left RingAct.noConfusion
  | find => exact hfresh.resolve_left RingAct.noConfusion

theorem RingRun.still (h : RingInv base st) (hs : RingRun st acts st') (hjoin : NoJoin acts)
    (hrank : st.rank ≤ st'.rank) : Still st st' := by
  obtain ⟨h', hmoves, hsame⟩ := h.run hs
  exact hmoves.still h h' (hsame hjoin) hrank

theorem RingRun.fresh (hs : RingRun st acts st') (h : RingInv base st) (hjoin : NoJoin acts)
    (hrank : st.rank ≤ st'.rank) (hbetween : Between st n σ π)
    (hask : .ask n ∈ acts ∨ Fresh σ π (st.phase n)) : Fresh σ π (st'.phase n) := by
  induction hs with
  | nil => exact hask.resolve_left List.not_mem_nil
  | @cons st act mid acts st' hstep hrun ih =>
    have hjoin' : NoJoin acts := fun m hm => hjoin m (List.mem_cons_of_mem _ hm)
    have hone : RingRun st [act] mid := .cons hstep .nil
    have hact : NoJoin [act] := fun m hm =>
      hjoin m (List.mem_singleton.1 hm ▸ List.mem_cons_self)
    have h' := (h.run hone).1
    have hle := h.rank_le hone hact
    have hle' := h'.rank_le hrun hjoin'
    have hmid := hbetween.still (hone.still h hact (by omega))
    have hne : act ≠ .join n := fun he => hact n (List.mem_singleton.2 he.symm)
    refine ih h' hjoin' (by omega) hmid ?_
    rcases hask with hask | hfresh
    · rcases List.mem_cons.1 hask with he | hask
      · exact .inr (hstep.fresh hbetween hne (.inl he.symm))
      · exact .inl hask
    · exact .inr (hstep.fresh hbetween hne (.inr hfresh))

/-- A node asks its successor, and hears the answer; if it notifies the successor then, that is
notified. -/
def Completes (acts : List RingAct) (n : ChordID) : Prop :=
  ∃ before s p after, acts = before ++ .hear n s p :: after ∧ .ask n ∈ before ∧
    (n ≠ p → ¬ betweenleftincl n s p → .notified s n ∈ after)

theorem distance_lt_of_not_before {N a b c : Nat} (ha : a < N) (hb : b < N) (hc : c < N)
    (hca : c ≠ a) (h : way N a b ≤ way N a c) :
    way N c a < way N c b ∧ gap N b c < gap N b a := by
  simp only [way, gap] at h ⊢
  split_ifs at h ⊢ <;> omega

/-- A step in a run that moves no neighbours. -/
theorem RingRun.at_step {before after : List RingAct} (h : RingInv base st)
    (hs : RingRun st (before ++ act :: after) st') (hjoin : NoJoin (before ++ act :: after))
    (hrank : st.rank ≤ st'.rank) (hbetween : Between st n σ π) :
    ∃ sa sb, RingRun st before sa ∧ st.rank ≤ sa.rank ∧ RingStep sa act sb ∧ RingInv base sa ∧
      Between sa n σ π ∧ RingInv base sb ∧ Between sb n σ π ∧ RingRun sb after st' ∧
      sb.rank ≤ st'.rank := by
  have hjoinB : NoJoin before := fun m hm => hjoin m (List.mem_append_left _ hm)
  have hjoinC : NoJoin (act :: after) := fun m hm => hjoin m (List.mem_append_right _ hm)
  have hjoinA : NoJoin after := fun m hm => hjoinC m (List.mem_cons_of_mem _ hm)
  have hact : NoJoin [act] := fun m hm => hjoinC m (List.mem_singleton.1 hm ▸ List.mem_cons_self)
  obtain ⟨sa, hbefore, hrest⟩ := hs.split
  cases hrest with
  | @cons _ _ sb _ _ hstep hafter =>
    have hone : RingRun sa [act] sb := .cons hstep .nil
    have ha := (h.run hbefore).1
    have hb := (ha.run hone).1
    have hle := h.rank_le hbefore hjoinB
    have hle' := ha.rank_le hone hact
    have hle'' := hb.rank_le hafter hjoinA
    have hbetweenA := hbetween.still (hbefore.still h hjoinB (by omega))
    exact ⟨sa, sb, hbefore, by omega, hstep, ha, hbetweenA, hb,
      hbetweenA.still (hone.still ha hact (by omega)), hafter, by omega⟩

theorem RingStep.hear_still {s p : ChordID} (hs : RingStep st (.hear n s p) st')
    (h : RingInv base st) (hbetween : Between st' n s π) (hne : n ≠ p) :
    ¬ betweenleftincl n s p := fun hleft => by
  cases hs with
  | @hear _ v _ _ hv hp =>
    have hsound := h.node n v hv
    have hin : PhaseIn st.members (.answered s p) := hp ▸ h.pending.phase n
    have hplt := h.lt p hin.2
    obtain ⟨v', hv', hsucc⟩ := hbetween.1
    rcases eq_some_of_update hv' with ⟨-, rfl⟩ | ⟨hne', -⟩
    · rw [SuccList.stabilizeGetpredCb, hsound.own, if_neg hne, if_pos hleft] at hsucc
      rw [betweenleftincl_iff (h.lt n hsound.mem) (h.lt s hin.1) hplt hne.symm] at hleft
      have hmem : p ∈ (v.insert p).locations.good :=
        VNode.good_insert hsound.alive hplt ▸ Finset.mem_insert_self _ _
      have hle := (v.insert p).mySucc_isNext.2 p hmem
      rw [VNode.insert_myID, hsound.own, hsucc] at hle
      exact Nat.not_lt.2 hle hleft
    · exact hne' rfl

/-- A notification that leaves the predecessor where it is comes from before it. -/
theorem RingStep.notified_still {s p : ChordID} (hs : RingStep st (.notified s n) st')
    (h : RingInv base st) (hbetween : Between st n s p) (hbetween' : Between st' n s p)
    (hp : p < 2 ^ NBIT) (hne : n ≠ p) : betweenleftincl n s p := by
  by_contra hleft
  cases hs with
  | @notified _ _ w hmem hw =>
    obtain ⟨w', hw', hpred⟩ := hbetween.2
    cases hw.symm.trans hw'
    have hsound := h.node s w hw
    have hn := (h.pending.notifies s n hmem).2
    have hnlt := h.lt n hn
    have hslt := h.lt s hsound.mem
    rw [betweenleftincl_iff hnlt hslt hp hne.symm] at hleft
    obtain ⟨hway, hgap⟩ := distance_lt_of_not_before hnlt hslt hp hne.symm (Nat.le_of_not_lt hleft)
    have hin : between w.myPred w.myID n := by
      rw [hpred, hsound.own]
      exact (between_iff hp hslt hnlt).2 hway
    obtain ⟨w'', hw'', hpred'⟩ := hbetween'.2
    rcases eq_some_of_update hw'' with ⟨-, rfl⟩ | ⟨hne', -⟩
    · rw [VNode.updatePred, if_pos hin] at hpred'
      have hmem' : n ∈ (w.insert n).locations.good :=
        VNode.good_insert hsound.alive hnlt ▸ Finset.mem_insert_self _ _
      have hle := (VNode.myPred_isLast (v := w.insert n)).2 n hmem'
      rw [VNode.insert_myID, hsound.own, hpred'] at hle
      exact Nat.not_lt.2 hle hgap
    · exact hne' rfl

/-- A round that moves no neighbours: the successor's predecessor is the node itself. -/
theorem RingRun.pred_eq (h : RingInv base st) (hs : RingRun st acts st') (hjoin : NoJoin acts)
    (hrank : st.rank ≤ st'.rank) (hbetween : Between st n σ π) (hn : Completes acts n) : π = n := by
  obtain ⟨before, s, p, after, rfl, hask, hnotified⟩ := hn
  obtain ⟨sa, sb, hbefore, hle, hhear, ha, hbetweenA, hb, hbetweenB, hafter, hle'⟩ :=
    hs.at_step h hjoin hrank hbetween
  have hfresh := hbefore.fresh h (fun m hm => hjoin m (List.mem_append_left _ hm)) hle hbetween
    (.inl hask)
  have hphase : sa.phase n = .answered s p := by
    cases hhear
    assumption
  rw [hphase] at hfresh
  obtain ⟨rfl, rfl⟩ := hfresh
  by_contra hne
  have hleft := hhear.hear_still ha hbetweenB (Ne.symm hne)
  obtain ⟨after₁, after₂, rfl⟩ := List.append_of_mem (hnotified (Ne.symm hne) hleft)
  have hjoinA : NoJoin (after₁ ++ .notified s n :: after₂) := fun m hm =>
    hjoin m (List.mem_append_right _ (List.mem_cons_of_mem _ hm))
  obtain ⟨sc, sd, -, -, hnotify, hc, hbetweenC, -, hbetweenD, -, -⟩ :=
    hafter.at_step hb hjoinA hle' hbetweenB
  have hp := ha.pending.phase n
  rw [hphase] at hp
  exact hleft (hnotify.notified_still hc hbetweenC hbetweenD (ha.lt p hp.2) (Ne.symm hne))

end Runs

/-- The successors and the predecessors are the nodes next to a node. -/
def Right (st : RingState) : Prop :=
  ∀ n v, st.node n = some v → IsNext (2 ^ NBIT) st.members n v.mySucc ∧
    v.myPred ∈ st.members ∧ ∀ m ∈ st.members, gap (2 ^ NBIT) n m ≤ gap (2 ^ NBIT) n v.myPred

/-- A ring to begin with: it is right, and nothing is pending. -/
structure Initial (st : RingState) : Prop where
  lt : ∀ n ∈ st.members, n < 2 ^ NBIT
  isSome : ∀ n ∈ st.members, ∃ v, st.node n = some v
  node : ∀ n v, st.node n = some v → Sound st.members st.members n v
  phase : ∀ n, st.phase n = .idle
  lookups : st.lookups = []
  notifies : st.notifies = []

section Rounds

variable {base : Finset ChordID} {st st' : RingState} {acts : List RingAct}

theorem Initial.inv (h : Initial st) : RingInv st.members st := by
  refine ⟨h.lt, Finset.Subset.refl _, h.node, h.isSome, fun n => ?_, fun n s hn => ?_,
    fun s n hn => ?_⟩
  · rw [h.phase n]
    trivial
  · rw [h.lookups] at hn
    cases hn
  · rw [h.notifies] at hn
    cases hn

theorem Right.moves (hright : Right st) (h : RingInv base st) (h' : RingInv base st')
    (hmoves : Moves st st') (hsame : st'.members = st.members) : Right st' := by
  intro n v' hv'
  have hsound' := h'.node n v' hv'
  obtain ⟨v, hv⟩ := h.isSome n (hsame ▸ hsound'.mem)
  obtain ⟨v'', hv'', hnear⟩ := hmoves n v hv
  cases hv'.symm.trans hv''
  obtain ⟨hsucc, -, hpred⟩ := hright n v hv
  have hid := (h.node n v hv).own
  refine ⟨⟨hsound'.known v'.mySucc_isNext.1, fun m hm => ?_⟩,
    hsound'.known VNode.myPred_isLast.1, fun m hm => ?_⟩
  · exact (hid ▸ hnear.succ).trans (hsucc.2 m (hsame ▸ hm))
  · exact (hpred m (hsame ▸ hm)).trans (hid ▸ hnear.pred)

/-- When the predecessor of every node's successor is the node, there is one ring. -/
theorem RingInv.right (h : RingInv base st) (hne : base.Nonempty)
    (hinv : ∀ n σ π, Between st n σ π → π = n) : Right st := by
  let succ (n : ChordID) := ((st.node n).map VNode.mySucc).getD n
  let pred (n : ChordID) := ((st.node n).map VNode.myPred).getD n
  have hsucc {n : ChordID} {v : VNode} (hv : st.node n = some v) : succ n = v.mySucc := by
    simp only [succ, hv, Option.map_some, Option.getD_some]
  have hpred {n : ChordID} {v : VNode} (hv : st.node n = some v) : pred n = v.myPred := by
    simp only [pred, hv, Option.map_some, Option.getD_some]
  have hmem : ∀ n ∈ st.members, succ n ∈ st.members := fun n hn => by
    obtain ⟨v, hv⟩ := h.isSome n hn
    exact hsucc hv ▸ (h.node n v hv).known v.mySucc_isNext.1
  have hback : ∀ n ∈ st.members, pred (succ n) = n := fun n hn => by
    obtain ⟨v, hv⟩ := h.isSome n hn
    obtain ⟨w, hw⟩ := h.isSome _ (hmem n hn)
    rw [hpred hw]
    exact hinv n (succ n) w.myPred ⟨⟨v, hv, (hsucc hv).symm⟩, w, hw, rfl⟩
  have hskip : ∀ n ∈ st.members, ∀ b ∈ base, way (2 ^ NBIT) n (succ n) ≤ way (2 ^ NBIT) n b :=
    fun n hn b hb => by
      obtain ⟨v, hv⟩ := h.isSome n hn
      exact hsucc hv ▸ (h.node n v hv).skip b hb
  have hring := isNext_of_inverse h.lt h.sub hne hmem hback hskip
  intro n v hv
  have hn := (h.node n v hv).mem
  obtain ⟨p, hp, hmax⟩ := st.members.exists_max_image (gap (2 ^ NBIT) n) ⟨n, hn⟩
  have hpn : succ p = n :=
    (hring p hp).unique h.lt (h.lt p hp) (isNext_of_last h.lt hn hp hmax)
  have hpv : v.myPred = p := by rw [← hpred hv, ← hpn, hback p hp]
  exact ⟨hsucc hv ▸ hring n hn, hpv ▸ hp, hpv ▸ hmax⟩

theorem RingInv.round (h : RingInv base st) (hne : base.Nonempty) (hs : RingRun st acts st')
    (hjoin : NoJoin acts) (hround : ∀ n ∈ st.members, Completes acts n) :
    st'.rank < st.rank ∨ Right st' := by
  rcases Nat.lt_or_ge st'.rank st.rank with hlt | hge
  · exact .inl hlt
  · obtain ⟨h', hmoves, hsame⟩ := h.run hs
    refine .inr ((h.right hne fun n σ π hbetween => ?_).moves h h' hmoves (hsame hjoin))
    obtain ⟨v, hv, -⟩ := hbetween.1
    exact hs.pred_eq h hjoin hge hbetween (hround n (h.node n v hv).mem)

theorem RingInv.rounds (hne : base.Nonempty) {rounds : List (List RingAct)} (h : RingInv base st)
    (hs : RingRun st rounds.flatten st') (hjoin : ∀ acts ∈ rounds, NoJoin acts)
    (hround : ∀ acts ∈ rounds, ∀ n ∈ st.members, Completes acts n) :
    st'.rank + rounds.length ≤ st.rank ∨ Right st' := by
  induction rounds generalizing st with
  | nil =>
    cases hs
    exact .inl (Nat.le_refl _)
  | cons acts rounds ih =>
    obtain ⟨mid, hfirst, hrest⟩ := RingRun.split hs
    have hacts := hjoin acts List.mem_cons_self
    have hjoin' : ∀ acts ∈ rounds, NoJoin acts := fun r hr => hjoin r (List.mem_cons_of_mem _ hr)
    obtain ⟨hmid, hmoves, hsame⟩ := h.run hfirst
    have hflat : NoJoin rounds.flatten := fun n hn => by
      obtain ⟨r, hr, hmem⟩ := List.mem_flatten.1 hn
      exact hjoin' r hr n hmem
    rcases h.round hne hfirst hacts (hround acts List.mem_cons_self) with hlt | hright
    · rcases ih hmid hrest hjoin' fun r hr n hn =>
        hround r (List.mem_cons_of_mem _ hr) n (hsame hacts ▸ hn) with hle | hright
      · rw [List.length_cons]
        exact .inl (by omega)
      · exact .inr hright
    · obtain ⟨h', hmoves', hsame'⟩ := hmid.run hrest
      exact .inr (hright.moves hmid h' hmoves' (hsame' hflat))

end Rounds

theorem stabilize_ring {st₀ st₁ st₂ : RingState} {acts : List RingAct}
    {rounds : List (List RingAct)} (h₀ : Initial st₀) (hne : st₀.members.Nonempty)
    (hacts : RingRun st₀ acts st₁) (hs : RingRun st₁ rounds.flatten st₂)
    (hjoin : ∀ acts ∈ rounds, NoJoin acts)
    (hround : ∀ acts ∈ rounds, ∀ n ∈ st₁.members, Completes acts n)
    (hlen : 2 * st₁.members.card ^ 2 < rounds.length) :
    Right st₂ ∧ ∀ acts st₃, NoJoin acts → RingRun st₂ acts st₃ → Right st₃ := by
  have h₁ := (h₀.inv.run hacts).1
  have h₂ := (h₁.run hs).1
  have hright : Right st₂ := by
    rcases h₁.rounds hne hs hjoin hround with hle | hright
    · have := st₁.rank_le
      omega
    · exact hright
  refine ⟨hright, fun acts st₃ hlater hrun => ?_⟩
  obtain ⟨h₃, hmoves, hsame⟩ := h₂.run hrun
  exact hright.moves h₂ h₃ hmoves (hsame hlater)

theorem RingRun.settled {st : RingState} {n s : ChordID} {v w : VNode} (hn : st.node n = some v)
    (hid : v.myID = n) (hs : v.mySucc = s) (hw : st.node s = some w) (hp : w.myPred = n)
    (hidle : st.phase n = .idle) : RingRun st [.ask n, .answer n, .hear n s n] st := by
  subst hs
  have hhear : SuccList.stabilizeGetpredCb v v.mySucc n = (v, false) := if_pos hid
  let answered : RingState :=
    { st with phase := Function.update st.phase n (.answered v.mySucc n) }
  have hlast : RingStep answered (.hear n v.mySucc n) st := by
    have hstep := RingStep.hear (show answered.node n = some v from hn)
      (show answered.phase n = .answered v.mySucc n from Function.update_self ..)
    rw [hhear] at hstep
    simpa [answered, ← hidle, ← hn] using hstep
  refine .cons (.ask hn hidle) (.cons (.answer (Function.update_self ..) hw) (.cons ?_ .nil))
  simpa [answered, hp] using hlast

def fiveAlone : VNode := ⟨5, ⟨[⟨5, true⟩], by decide, by decide⟩, 12, by decide, by decide⟩

def nine : VNode := ⟨9, ⟨[⟨5, true⟩, ⟨9, true⟩], by decide, by decide⟩, 12, by decide, by decide⟩

def ringAlone : RingState where
  members := {5}
  node n := if n = 5 then some fiveAlone else none
  phase _ := .idle
  lookups := []
  notifies := []

def ringPair : RingState where
  members := insert 9 ringAlone.members
  node := Function.update (Function.update ringAlone.node 9 (some nine)) 5
    (some (fiveAlone.updatePred 9))
  phase := Function.update ringAlone.phase 9 .idle
  lookups := [(9, 5)]
  notifies := [(nine.mySucc, 9)].erase (5, 9)

theorem ringAlone_initial : Initial ringAlone := by
  refine ⟨by decide, fun n hn => ?_, fun n v hn => ?_, fun _ => rfl, rfl, rfl⟩
  · exact ⟨fiveAlone, if_pos (Finset.mem_singleton.1 hn)⟩
  · simp only [ringAlone] at hn
    split at hn
    · next h =>
      cases hn
      subst h
      exact ⟨by decide, rfl, by decide, by decide, by decide +kernel⟩
    · cases hn

theorem ringPair_joined : RingRun ringAlone [.find 9 5, .join 9, .notified 5 9] ringPair := by
  have hroute : fiveAlone.doroute (decID 9) [] = .inrange [5] := by decide +kernel
  have hgood : ∀ m ∈ nine.locations.good, m = 9 ∨ m ∈ ringAlone.members := by decide
  have hfive : ringAlone.node 5 = some fiveAlone := rfl
  refine .cons (.find hfive rfl (by decide) ?_ hroute) ?_
  · decide
  · refine .cons (.join (v := nine) List.mem_cons_self rfl rfl (by decide) (by decide) hgood) ?_
    exact .cons (.notified (by decide +kernel) rfl) .nil

theorem ringPair_settled : RingRun ringPair
    ([.ask 5, .answer 5, .hear 5 9 5] ++ [.ask 9, .answer 9, .hear 9 5 9]) ringPair := by
  have hfive : ringPair.node 5 = some (fiveAlone.updatePred 9) := by
    simp only [ringPair, Function.update_self]
  have hnine : ringPair.node 9 = some nine := rfl
  have hsettled := RingRun.settled hfive (by decide +kernel) (by decide +kernel) hnine
    (by decide +kernel) rfl
  exact hsettled.append (.settled hnine rfl (by decide +kernel) hfive (by decide +kernel) rfl)

theorem stabilize_ring_pair : Right ringPair ∧
    ∀ acts st₃, NoJoin acts → RingRun ringPair acts st₃ → Right st₃ := by
  refine stabilize_ring ringAlone_initial ⟨5, by decide⟩ ringPair_joined
    (ringPair_settled.replicate 9) (fun acts hacts => ?_) (fun acts hacts n hn => ?_) (by decide)
  · rw [List.eq_of_mem_replicate hacts]
    simp [NoJoin]
  · rw [List.eq_of_mem_replicate hacts]
    rcases Finset.mem_insert.1 hn with rfl | hn
    · exact ⟨[.ask 5, .answer 5, .hear 5 9 5, .ask 9, .answer 9], 5, 9, [], rfl, by simp,
        fun h => absurd rfl h⟩
    · obtain rfl := Finset.mem_singleton.1 hn
      exact ⟨[.ask 5, .answer 5], 9, 5, [.ask 9, .answer 9, .hear 9 5 9], rfl, by simp,
        fun h => absurd rfl h⟩

end XGossip
