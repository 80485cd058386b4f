import XGossip.Chord.LocationTable

namespace XGossip
set_option autoImplicit true
open Circle

/-- A node of the ring: its ID, the locations it knows, itself among them, and how many successors
it keeps. -/
structure VNode where
  myID : ChordID
  locations : LocationTable
  nsucc : Nat
  nsucc_pos : 0 < nsucc
  me : myID ∈ locations.good

namespace VNode

variable (v : VNode)

/-- With its own location among the good ones, a node always finds one. -/
def closestsuccloc (x : ChordID) : ChordID :=
  ((v.locations.closestsuccloc x).get (LocationTable.closestsuccloc_isSome ⟨_, v.me⟩)).id

def mySucc : ChordID := v.closestsuccloc (incID v.myID)

def myPred : ChordID :=
  ((v.locations.closestpredloc v.myID).get (LocationTable.closestpredloc_isSome ⟨_, v.me⟩)).id

/-- A location that is known already is only brought up to date. -/
def insert (n : ChordID) : VNode :=
  if h : n < 2 ^ NBIT ∧ v.locations.lookup n = none then
    { v with
      locations := v.locations.insert n h.1 h.2
      me := LocationTable.good_insert h.1 h.2 ▸ Finset.mem_insert_of_mem v.me }
  else v

def numSucc : Nat :=
  let goodnodes := v.locations.usablenodes - 1
  if v.nsucc > goodnodes then goodnodes else v.nsucc

def succs : List ChordID :=
  List.iterate (fun cur => v.closestsuccloc (incID cur)) v.mySucc (v.numSucc - 1 + 1)

end VNode

def SuccList.better (v : VNode) (x : ChordID) (failed : List ChordID) (best : ChordID) : ChordID :=
  let n := v.closestsuccloc (incID best)
  if between v.myID x n ∧ n ∉ failed then n else best

/-- The successors from the node on, as long as they are between it and x. One that failed keeps
the search from the ones behind it. -/
def SuccList.closestpred (v : VNode) (x : ChordID) (failed : List ChordID) : ChordID :=
  (better v x failed)^[v.numSucc] v.myID

def FingerTable.finger (v : VNode) (i : Nat) : ChordID := v.closestsuccloc (successorID v.myID i)

def FingerTable.closestpredBelow (v : VNode) (x : ChordID) (failed : List ChordID) : Nat → ChordID
  | 0 => v.myID
  | i + 1 =>
    let n := finger v i
    if between v.myID x n ∧ n ∉ failed then n else closestpredBelow v x failed i

def FingerTable.closestpred (v : VNode) (x : ChordID) (failed : List ChordID) : ChordID :=
  closestpredBelow v x failed NBIT

def Fingerroute.closestpred (v : VNode) (x : ChordID) (failed : List ChordID) : ChordID :=
  let f := FingerTable.closestpred v x failed
  let u := SuccList.closestpred v x failed
  if f = v.myID then u else if between v.myID f u then f else u

inductive TestandfindRes where
  | inrange (n : List ChordID)
  | notinrange (n : ChordID) (succs : List ChordID)
  deriving DecidableEq

/-- What a node answers to one that looks for x and has met some nodes that failed. -/
def VNode.doroute (v : VNode) (x : ChordID) (failed : List ChordID) : TestandfindRes :=
  if betweenrightincl v.myID v.mySucc x then .inrange v.succs
  else .notinrange (Fingerroute.closestpred v x failed) v.succs

variable {v : VNode} {x : Nat} {failed : List ChordID}

namespace VNode

theorem myID_lt (v : VNode) : v.myID < 2 ^ NBIT := LocationTable.lt_of_mem_good v.me

theorem good_lt (n : Nat) (h : n ∈ v.locations.good) : n < 2 ^ NBIT :=
  LocationTable.lt_of_mem_good h

theorem closestsuccloc_isFirst (hx : x < 2 ^ NBIT) :
    IsFirst (2 ^ NBIT) v.locations.good x (v.closestsuccloc x) :=
  LocationTable.closestsuccloc_isFirst hx (Option.some_get _).symm

theorem incID_isFirst {n : Nat} (hn : n ∈ v.locations.good) :
    IsFirst (2 ^ NBIT) v.locations.good (incID n) (v.closestsuccloc (incID n)) :=
  closestsuccloc_isFirst (incID_lt (good_lt n hn))

theorem finger_isFirst (i : Nat) : IsFirst (2 ^ NBIT) v.locations.good (successorID v.myID i)
    (FingerTable.finger v i) :=
  closestsuccloc_isFirst (successorID_lt _ _)

theorem myPred_isLast : v.myPred ∈ v.locations.good ∧ ∀ m ∈ v.locations.good,
    gap (2 ^ NBIT) v.myID m ≤ gap (2 ^ NBIT) v.myID v.myPred :=
  LocationTable.closestpredloc_isLast v.myID_lt (Option.some_get _).symm

@[simp] theorem insert_myID (n : ChordID) : (v.insert n).myID = v.myID := by
  rw [insert]
  split <;> rfl

theorem head_succs : v.succs = v.mySucc ::
    List.iterate (fun cur => v.closestsuccloc (incID cur)) (v.closestsuccloc (incID v.mySucc))
      (v.numSucc - 1) := rfl

end VNode

/-- Where a search for x may go on: the node itself, or a good one between it and x. -/
def Ahead (v : VNode) (x : ChordID) (failed : List ChordID) (p : ChordID) : Prop :=
  p ∈ v.locations.good ∧ (p = v.myID ∨ between v.myID x p ∧ p ∉ failed)

theorem not_between_left {a : ChordID} : ¬ between a x a := by
  dsimp only [between, ChordID]
  split_ifs <;> simp
  omega

theorem SuccList.better_ahead {n : Nat} (h : Ahead v x failed n) :
    Ahead v x failed (better v x failed n) := by
  rw [better]
  split
  · next hn => exact ⟨(VNode.incID_isFirst h.1).1, .inr hn⟩
  · exact h

theorem SuccList.closestpred_ahead (v : VNode) (x : ChordID) (failed : List ChordID) :
    Ahead v x failed (closestpred v x failed) :=
  Function.Iterate.rec (Ahead v x failed) ⟨v.me, .inl rfl⟩ (fun _ => better_ahead) _

theorem FingerTable.closestpredBelow_ahead (v : VNode) (x : ChordID) (failed : List ChordID) :
    ∀ i, Ahead v x failed (closestpredBelow v x failed i)
  | 0 => ⟨v.me, .inl rfl⟩
  | i + 1 => by
    rw [closestpredBelow]
    split
    · next h => exact ⟨(VNode.finger_isFirst i).1, .inr h⟩
    · exact closestpredBelow_ahead v x failed i

theorem Fingerroute.closestpred_ahead (v : VNode) (x : ChordID) (failed : List ChordID) :
    Ahead v x failed (closestpred v x failed) := by
  rw [closestpred]
  split
  · exact SuccList.closestpred_ahead v x failed
  · split
    · exact FingerTable.closestpredBelow_ahead v x failed _
    · exact SuccList.closestpred_ahead v x failed

theorem SuccList.better_ne {n : Nat} (h : n ≠ v.myID) : better v x failed n ≠ v.myID := by
  rw [better]
  split
  · next hn => exact fun he => not_between_left (he ▸ hn.1)
  · exact h

theorem SuccList.closestpred_ne (h : between v.myID x v.mySucc) (hf : v.mySucc ∉ failed) :
    closestpred v x failed ≠ v.myID := by
  have hne : v.mySucc ≠ v.myID := fun he => not_between_left (he ▸ h)
  have hcard : 1 < v.locations.usablenodes := by
    rw [← LocationTable.card_good]
    exact Finset.one_lt_card.2 ⟨_, (VNode.incID_isFirst v.me).1, _, v.me, hne⟩
  have hnum : v.numSucc ≠ 0 := by
    have := v.nsucc_pos
    rw [VNode.numSucc]
    split <;> omega
  obtain ⟨n, hn⟩ := Nat.exists_eq_succ_of_ne_zero hnum
  have hfirst : better v x failed v.myID = v.mySucc := if_pos ⟨h, hf⟩
  rw [closestpred, hn, Function.iterate_succ_apply, hfirst]
  exact Function.Iterate.rec (· ≠ v.myID) hne (fun _ => better_ne) n

theorem Fingerroute.closestpred_ne (h : between v.myID x v.mySucc) (hf : v.mySucc ∉ failed) :
    closestpred v x failed ≠ v.myID := by
  rw [closestpred]
  split
  · exact SuccList.closestpred_ne h hf
  · next hne =>
    split
    · exact hne
    · exact SuccList.closestpred_ne h hf

theorem Fingerroute.closestpred_eq (hf : v.mySucc ∈ failed) : closestpred v x failed = v.myID := by
  have hfixed : SuccList.better v x failed v.myID = v.myID := if_neg fun h => h.2 hf
  have hu : SuccList.closestpred v x failed = v.myID := Function.iterate_fixed hfixed _
  rw [closestpred, hu]
  split
  · rfl
  · exact if_neg not_between_left

end XGossip
