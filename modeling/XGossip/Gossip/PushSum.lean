import Mathlib.Algebra.BigOperators.Group.Finset.Basic
import Mathlib.Algebra.BigOperators.Group.Multiset.Basic
import Mathlib.Algebra.BigOperators.Pi
import Mathlib.Algebra.Order.BigOperators.Group.Finset
import Mathlib.Data.Fintype.Basic
import Mathlib.Tactic.Abel
import XGossip.Gossip.Lists

namespace XGossip
set_option autoImplicit true

/-- The sums and weights of a peer so far, the current ones last. A peer that only listens has none
until it receives some. -/
structure SumPeer where
  sum : List ℚ
  weight : List ℚ
  seq : List Nat
  paired : sum.length = weight.length

/-- `sum.back()` and `weight.back()`, where there is nothing yet as nothing. -/
def SumPeer.current (p : SumPeer) : ℚ × ℚ := (p.sum.getLastD 0, p.weight.getLastD 0)

/-- The share of a turn of the main loop, which changes nothing of the peer. -/
def gossipShare (p : SumPeer) : Option (ℚ × ℚ) := do
  let s ← p.sum.getLast?
  let w ← p.weight.getLast?
  return (s / 2, w / 2)

def readGossip (share : ℚ × ℚ) (p : SumPeer) : SumPeer :=
  if p.sum.isEmpty || p.weight.isEmpty then
    ⟨p.sum ++ [share.1], p.weight ++ [share.2], p.seq ++ [1], by simp [p.paired]⟩
  else
    ⟨p.sum ++ [p.sum.getLastD 0 + share.1], p.weight ++ [p.weight.getLastD 0 + share.2],
      p.seq ++ [p.seq.getLastD 0 + 1], by simp [p.paired]⟩

/-- All peers and the shares in flight, each with the peer that it is for. -/
structure SumNetwork (ι : Type) where
  peers : ι → SumPeer
  flight : Multiset (ι × ℚ × ℚ)

inductive SumEvent (ι : Type) where
  | send (sender receiver : ι)
  | deliver (receiver : ι) (share : ℚ × ℚ)

section Run

variable {ι : Type} [DecidableEq ι]

def SumNetwork.step (n : SumNetwork ι) : SumEvent ι → Option (SumNetwork ι)
  | .send sender receiver => do
    let share ← gossipShare (n.peers sender)
    return { n with flight := (receiver, share) ::ₘ n.flight }
  | .deliver receiver share =>
    if (receiver, share) ∈ n.flight then
      some ⟨Function.update n.peers receiver (readGossip share (n.peers receiver)),
        n.flight.erase (receiver, share)⟩
    else none

def SumNetwork.run (n : SumNetwork ι) (events : List (SumEvent ι)) : Option (SumNetwork ι) :=
  events.foldlM SumNetwork.step n

def SumNetwork.total [Fintype ι] (n : SumNetwork ι) : ℚ × ℚ :=
  ∑ i, (n.peers i).current + (n.flight.map Prod.snd).sum

/-- What a step adds to the total: the sender keeps the half that it sends. -/
def SumNetwork.gain (n : SumNetwork ι) : SumEvent ι → ℚ × ℚ
  | .send sender _ => ((n.peers sender).current.1 / 2, (n.peers sender).current.2 / 2)
  | .deliver _ _ => 0

theorem SumPeer.current_readGossip (p : SumPeer) (share : ℚ × ℚ) :
    (readGossip share p).current = p.current + share := by
  obtain ⟨sum, weight, seq, paired⟩ := p
  rw [readGossip]
  split
  · next h =>
    have hempty : sum = [] ∧ weight = [] := by
      rcases Bool.or_eq_true_iff.1 h with h | h
      · obtain rfl := List.isEmpty_iff.1 h
        exact ⟨rfl, List.length_eq_zero_iff.1 paired.symm⟩
      · obtain rfl := List.isEmpty_iff.1 h
        exact ⟨List.length_eq_zero_iff.1 paired, rfl⟩
    obtain ⟨rfl, rfl⟩ := hempty
    simp [current]
  · simp [current, Prod.ext_iff]

theorem gossipShare_eq_some (h : gossipShare p = some share) :
    share = (p.current.1 / 2, p.current.2 / 2) := by
  simp only [gossipShare, Option.bind_eq_bind, Option.bind_eq_some_iff] at h
  obtain ⟨s, hs, w, hw, h⟩ := h
  obtain rfl := Option.some.inj h
  simp [SumPeer.current, List.getLastD_eq_getLast?, hs, hw]

theorem current_of_gossipShare_none {p : SumPeer} (h : gossipShare p = none) : p.current = 0 := by
  obtain ⟨sum, weight, seq, paired⟩ := p
  have hempty : sum = [] := by
    by_contra hne
    have hne' : weight ≠ [] := by
      rintro rfl
      exact hne (List.length_eq_zero_iff.1 paired)
    simp [gossipShare, List.getLast?_eq_some_getLast hne, List.getLast?_eq_some_getLast hne'] at h
  subst hempty
  obtain rfl := List.length_eq_zero_iff.1 paired.symm
  rfl

theorem SumNetwork.total_step [Fintype ι] {n n' : SumNetwork ι} (h : n.step e = some n') :
    n'.total = n.total + n.gain e := by
  cases e with
  | send sender receiver =>
    obtain ⟨share, hs, h⟩ := Option.bind_eq_some_iff.1 h
    obtain rfl := Option.some.inj h
    simp only [total, gain, Multiset.map_cons, Multiset.sum_cons, gossipShare_eq_some hs]
    abel
  | deliver receiver share =>
    rw [step] at h
    split at h
    · next hmem =>
      obtain rfl := Option.some.inj h
      obtain ⟨flight, hflight⟩ := Multiset.exists_cons_of_mem hmem
      have hpeers : ∑ i, (Function.update n.peers receiver
          (readGossip share (n.peers receiver)) i).current =
            ∑ i, (n.peers i).current + share := by
        rw [← Finset.add_sum_erase _ _ (Finset.mem_univ receiver),
          ← Finset.add_sum_erase _ (fun i => (n.peers i).current) (Finset.mem_univ receiver),
          Function.update_self, SumPeer.current_readGossip]
        have hrest : ∀ i ∈ Finset.univ.erase receiver, (Function.update n.peers receiver
            (readGossip share (n.peers receiver)) i).current = (n.peers i).current := by
          intro i hi
          rw [Function.update_of_ne (Finset.ne_of_mem_erase hi)]
        rw [Finset.sum_congr rfl hrest]
        abel
      simp only [total, gain, hpeers, hflight, Multiset.erase_cons_head, Multiset.map_cons,
        Multiset.sum_cons]
      abel
    · cases h

theorem SumNetwork.run_concat (n : SumNetwork ι) (pre : List (SumEvent ι)) (e : SumEvent ι) :
    n.run (pre ++ [e]) = (n.run pre).bind (·.step e) := by
  simp [run, List.foldlM_append]

/-- The total of a run of a network is the one that it starts with, in every state. -/
def SumNetwork.Conserves [Fintype ι] (n : SumNetwork ι) (events : List (SumEvent ι)) : Prop :=
  ∀ pre m, pre <+: events → n.run pre = some m → m.total = n.total

def SumNetwork.SendsNothing (n : SumNetwork ι) (events : List (SumEvent ι)) : Prop :=
  ∀ pre m sender receiver, pre ++ [.send sender receiver] <+: events → n.run pre = some m →
    (m.peers sender).current = 0

omit [DecidableEq ι] in
theorem SumNetwork.gain_eq_zero_iff (n : SumNetwork ι) (sender receiver : ι) :
    n.gain (.send sender receiver) = 0 ↔ (n.peers sender).current = 0 := by
  simp [gain, Prod.ext_iff]

theorem SumNetwork.total_run [Fintype ι] {n m : SumNetwork ι} (h : n.SendsNothing events)
    (hpre : pre <+: events) (hm : n.run pre = some m) : m.total = n.total := by
  induction pre using List.reverseRecOn generalizing m with
  | nil => exact congrArg total (Option.some.inj hm).symm
  | append_singleton pre e ih =>
    have hpre' : pre <+: events := (List.prefix_append pre [e]).trans hpre
    rw [run_concat] at hm
    obtain ⟨m₁, h₁, hm⟩ := Option.bind_eq_some_iff.1 hm
    have hgain : m₁.gain e = 0 := by
      cases e with
      | send sender receiver =>
        exact (gain_eq_zero_iff ..).2 (h pre m₁ sender receiver hpre h₁)
      | deliver => rfl
    rw [total_step hm, hgain, add_zero, ih hpre' h₁]

/-- A peer keeps all of what it shares, so that the total stays the same just where nobody shares
anything. -/
theorem SumNetwork.conserves_iff [Fintype ι] (n : SumNetwork ι) (events : List (SumEvent ι)) :
    n.Conserves events ↔ n.SendsNothing events := by
  constructor
  · intro h pre m sender receiver hpre hm
    cases hs : m.step (.send sender receiver) with
    | none =>
      apply current_of_gossipShare_none
      rw [Option.eq_none_iff_forall_ne_some]
      intro share hshare
      simp [step, hshare] at hs
    | some m' =>
      have htotal := total_step hs
      have hrun : n.run (pre ++ [.send sender receiver]) = some m' := by
        rw [run_concat, hm, Option.bind_some, hs]
      have h₁ := h pre m ((List.prefix_append ..).trans hpre) hm
      have h₂ := h _ m' hpre hrun
      rw [h₁, h₂, left_eq_add] at htotal
      exact (gain_eq_zero_iff m sender receiver).1 htotal
  · exact fun h pre m hpre hm => total_run h hpre hm

def twoSums : SumNetwork Bool := ⟨fun _ => ⟨[10], [1], [0], rfl⟩, 0⟩

theorem twoSums_not_conserves :
    ¬ twoSums.Conserves [.send true false, .deliver false (5, 1 / 2)] := by
  intro h
  have hsend : twoSums.run [.send true false] =
      some ⟨twoSums.peers, (false, 10 / 2, 1 / 2) ::ₘ 0⟩ := rfl
  have htotal := h [.send true false] _ (by simp) hsend
  exact absurd htotal (by decide +kernel)

end Run

end XGossip
