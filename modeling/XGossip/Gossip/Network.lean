import Mathlib.Logic.Relation
import XGossip.Gossip.Merge
import XGossip.Gossip.Peer

namespace XGossip
set_option autoImplicit true

structure GossipMsg where
  teamid : ChordID
  sigList : List Sig
  freqList : List ℚ
  weightList : List ℚ

def GossipMsg.list (m : GossipMsg) : MapType ℚ := vec2map m.sigList m.freqList m.weightList

/-- A peer in the exec loop, with the indexes it has still to send in this round and the
message whose insert is under way. -/
structure Gossiper where
  peer : Peer ℚ
  tosend : List Nat
  wire : Option (Nat × GossipMsg)

/-- VanillaXGossip merges `totalT[0]` only. -/
def mergeall (vanilla : Bool) (totalT : List (Vecomap ℚ)) : Option (List (Vecomap ℚ)) :=
  if vanilla then
    match totalT with
    | [] => none
    | T :: rest => do return (← mergelists vanilla T) :: rest
  else totalT.mapM (mergelists vanilla)

/-- The message made of `totalT[i][0]`. -/
def gossipMsg (teamid : ChordID) (totalT : List (Vecomap ℚ)) (i : Nat) : Option GossipMsg := do
  let m ← (← totalT[i]?).head?
  return ⟨teamid, (vecomap2vec m).1, (vecomap2vec m).2.1, (vecomap2vec m).2.2⟩

def slot (vanilla : Bool) (p : Peer ℚ) (t : ChordID) : Option Nat :=
  if vanilla then some 0 else (p.teamindex.find? t).bind List.head?

def addReceived (vanilla : Bool) (m : GossipMsg) (p : Peer ℚ) : Peer ℚ :=
  if vanilla then add2vecomapv m.sigList m.freqList m.weightList p
  else add2vecomapx false m.sigList m.freqList m.weightList m.teamid p

/-- The steps of one peer, with the messages it takes from and gives to the network. Between
a round's merge and its sends, and during an insert, deliveries may come in. -/
inductive GossiperStep (vanilla : Bool) :
    Gossiper → List GossipMsg → List GossipMsg → Gossiper → Prop where
  | round : mergeall vanilla p.totalT = some totalT →
      GossiperStep vanilla ⟨p, [], none⟩ [] []
        ⟨{ p with totalT }, if vanilla then [0] else List.range totalT.length, none⟩
  | skip : vanilla = false → findteamid p.teamindex i = 0 →
      GossiperStep vanilla ⟨p, i :: rest, none⟩ [] [] ⟨p, rest, none⟩
  | transmit : (vanilla = false → teamid = findteamid p.teamindex i ∧ teamid ≠ 0) →
      gossipMsg teamid p.totalT i = some m →
      GossiperStep vanilla ⟨p, i :: rest, none⟩ [] [] ⟨p, rest, some (i, m)⟩
  | sent : GossiperStep vanilla ⟨p, rest, some (i, m)⟩ [] [m] ⟨p, rest, none⟩
  | failed : GossiperStep vanilla ⟨p, rest, some (i, m)⟩ [] []
      ⟨{ p with totalT := p.totalT.modify i (multiplyfreq · 0 2 2) }, rest, none⟩
  | deliver : (slot vanilla p m.teamid).isSome →
      GossiperStep vanilla ⟨p, rest, wire⟩ [m] [] ⟨addReceived vanilla m p, rest, wire⟩

structure Network (ι : Type*) where
  peers : ι → Gossiper
  flight : List GossipMsg

inductive NetworkStep [DecidableEq ι] (vanilla : Bool) : Network ι → Network ι → Prop where
  | act : GossiperStep vanilla (peers q) recv emit g →
      NetworkStep vanilla ⟨peers, before ++ recv ++ after⟩
        ⟨Function.update peers q g, before ++ after ++ emit⟩

structure WellFormedGossiper (vanilla : Bool) (g : Gossiper) : Prop where
  nonempty : ∀ T ∈ g.peer.totalT, T ≠ []
  lists : ∀ T ∈ g.peer.totalT, ∀ m ∈ T, WellFormedList vanilla m
  index : if vanilla then g.peer.totalT ≠ []
    else g.peer.teamindex.Bijective g.peer.totalT.length
  nonzero : vanilla = false → g.peer.teamindex.find? 0 = none
  tosend : g.tosend.Nodup
  range : ∀ i ∈ g.tosend, i < g.peer.totalT.length
  vanillaSend : vanilla = true → ∀ i ∈ g.tosend, i = 0
  wire : ∀ i m, g.wire = some (i, m) → i ∉ g.tosend ∧ (vanilla = true → i = 0) ∧
    (vanilla = false → m.teamid = findteamid g.peer.teamindex i) ∧
    ∃ T rest, g.peer.totalT[i]? = some (T :: rest) ∧ m.list = T

structure WellFormedNetwork (vanilla : Bool) (nw : Network ι) : Prop where
  peers : ∀ q, WellFormedGossiper vanilla (nw.peers q)
  flight : ∀ m ∈ nw.flight, WellFormedList vanilla m.list

theorem WellFormedGossiper.slot_iff (h : WellFormedGossiper vanilla g)
    (hi : i < g.peer.totalT.length) (hv : vanilla = true → i = 0) :
    slot vanilla g.peer t = some i ↔
      vanilla = true ∨ findteamid g.peer.teamindex i = t := by
  have hidx := h.index
  cases vanilla with
  | true => simp [slot, hv]
  | false =>
    simp only [Bool.false_eq_true, if_false] at hidx
    simp only [slot, Bool.false_eq_true, if_false, false_or]
    constructor
    · intro hs
      obtain ⟨ixs, hf, hh⟩ := Option.bind_eq_some_iff.1 hs
      obtain ⟨j, _, rfl⟩ := hidx.single _ _ hf
      cases hh
      exact hidx.findteamid_eq hf
    · rintro rfl
      obtain ⟨t, ht⟩ := hidx.surj i hi
      rw [hidx.findteamid_eq ht, ht]
      rfl

theorem WellFormedGossiper.slot_lt (h : WellFormedGossiper vanilla g)
    (hs : slot vanilla g.peer t = some i) : i < g.peer.totalT.length := by
  have hidx := h.index
  cases vanilla with
  | true =>
    obtain rfl : 0 = i := by simpa [slot] using hs
    exact List.length_pos_iff.2 hidx
  | false =>
    simp only [Bool.false_eq_true, if_false] at hidx
    simp only [slot, Bool.false_eq_true, if_false] at hs
    obtain ⟨ixs, hf, hh⟩ := Option.bind_eq_some_iff.1 hs
    obtain ⟨j, hj, rfl⟩ := hidx.single _ _ hf
    cases hh
    exact hj

end XGossip
