import XGossip.Chord.Lookup
import Mathlib.Data.Nat.Log

namespace XGossip
set_option autoImplicit true
open Circle

/-- The nodes that a node holds for alive are of the ring, its fingers the right ones among them. -/
structure RightFingers (ring : Finset ChordID) (v : VNode) : Prop where
  good : v.locations.good ⊆ ring
  fingers : ∀ i < NBIT, ∃ n ∈ v.locations.good, IsFirst (2 ^ NBIT) ring (successorID v.myID i) n

section Distance

variable {a b x : Nat}

theorem distance_eq_gap (h : a ≠ b) : distance a b = gap (2 ^ NBIT) a b := by
  dsimp only [distance, gap, ChordID]
  split_ifs <;> omega

theorem distance_lt_of_nearer (ha : a < 2 ^ NBIT) (hb : b < 2 ^ NBIT)
    (h : distance b x < distance a x) : distance a b < distance a x := by
  dsimp only [distance, ChordID] at h ⊢
  split_ifs at h ⊢ <;> omega

theorem ne_of_between (h : between a x b) : b ≠ a := fun he => not_between_left (he ▸ h)

end Distance

section Fingers

variable {ring : Finset ChordID} {v : VNode} {x p i : Nat}

theorem RightFingers.finger (h : RightFingers ring v) (hi : i < NBIT) :
    IsFirst (2 ^ NBIT) ring (successorID v.myID i) (FingerTable.finger v i) := by
  obtain ⟨n, hn, hfirst⟩ := h.fingers i hi
  have heq := (VNode.finger_isFirst i).unique VNode.good_lt (successorID_lt _ _)
    (hfirst.subset hn h.good)
  exact heq ▸ hfirst

theorem successorID_zero {n : Nat} (hn : n < 2 ^ NBIT) : successorID n 0 = incID n := by
  dsimp only [successorID, incID, ChordID]
  rw [Nat.pow_zero]
  split
  · next h => rw [Nat.mod_eq_sub_mod h, Nat.mod_eq_of_lt (by omega)]
  · next h => exact Nat.mod_eq_of_lt (by omega)

theorem RightFingers.mySucc (h : RightFingers ring v) :
    IsFirst (2 ^ NBIT) ring (incID v.myID) v.mySucc := by
  have hfirst := h.finger (show 0 < NBIT by decide)
  rwa [FingerTable.finger, successorID_zero v.myID_lt] at hfirst

theorem FingerTable.closestpredBelow_far (hi : between v.myID x (finger v i)) :
    ∀ m, i < m → ∃ j, i ≤ j ∧ j < m ∧ closestpredBelow v x [] m = finger v j ∧
      between v.myID x (finger v j)
  | 0, h => absurd h (Nat.not_lt_zero i)
  | m + 1, h => by
    rw [closestpredBelow]
    split
    · next hm => exact ⟨m, Nat.le_of_lt_succ h, Nat.lt_succ_self m, rfl, hm.1⟩
    · next hm =>
      have hne : i ≠ m := by
        rintro rfl
        exact hm ⟨hi, List.not_mem_nil⟩
      obtain ⟨j, hij, hjm, heq, hj⟩ := closestpredBelow_far hi m (by omega)
      exact ⟨j, hij, Nat.lt_succ_of_lt hjm, heq, hj⟩

variable (hring : ∀ n ∈ ring, n < 2 ^ NBIT) (hx : x < 2 ^ NBIT) (hv : RightFingers ring v)
  (hp : p ∈ ring) (hbetween : between v.myID x p) (hi : i < NBIT)
  (hfar : 2 ^ i ≤ gap (2 ^ NBIT) v.myID p)
include hring hx hv hp hbetween

theorem RightFingers.between_mySucc : between v.myID x v.mySucc := by
  have hfirst := hv.mySucc
  have hsucc := hring _ hfirst.1
  have hlt := (between_iff v.myID_lt hx (hring p hp)).1 hbetween
  refine (between_iff v.myID_lt hx hsucc).2 (Nat.lt_of_le_of_lt ?_ hlt)
  rw [distance_eq v.myID_lt hsucc, distance_eq v.myID_lt (hring p hp)]
  exact Nat.succ_le_succ (hfirst.2 p hp)

include hi hfar

theorem RightFingers.between_finger : between v.myID x (FingerTable.finger v i) := by
  have hfinger := hv.finger hi
  have hgap := gap_successorID v.myID_lt hi
  obtain ⟨hadd, hle⟩ := hfinger.jump_le hring v.myID_lt (successorID_lt _ _) hp
    (hgap.trans_le hfar)
  have hpos := Nat.two_pow_pos i
  have hne : v.myID ≠ FingerTable.finger v i := fun he => by
    rw [← he, gap_self] at hadd
    omega
  have hlt := (between_iff v.myID_lt hx (hring p hp)).1 hbetween
  refine (between_iff v.myID_lt hx (hring _ hfinger.1)).2 ?_
  rw [distance_eq_gap (ne_of_between hbetween).symm] at hlt
  rw [distance_eq_gap hne]
  exact hle.trans_lt hlt

theorem FingerTable.closestpred_far : between v.myID x (closestpred v x []) ∧
    2 ^ i ≤ gap (2 ^ NBIT) v.myID (closestpred v x []) := by
  obtain ⟨j, hij, hj, heq, hbetween'⟩ := closestpredBelow_far
    (hv.between_finger hring hx hp hbetween hi hfar) NBIT hi
  rw [closestpred, heq]
  refine ⟨hbetween', ?_⟩
  have hgap := gap_successorID v.myID_lt hj
  have hpos := Nat.two_pow_pos j
  have hne : successorID v.myID j ≠ v.myID := fun he => by
    rw [he, gap_self] at hgap
    omega
  rcases (VNode.finger_isFirst j).jump_self VNode.good_lt v.myID_lt (successorID_lt _ _) hne
    v.me with he | hadd
  · exact absurd he (ne_of_between hbetween')
  · have := Nat.pow_le_pow_right (show 0 < 2 by decide) hij
    omega

theorem Fingerroute.closestpred_far : between v.myID x (closestpred v x []) ∧
    2 ^ i ≤ gap (2 ^ NBIT) v.myID (closestpred v x []) := by
  obtain ⟨hf, hfgap⟩ := FingerTable.closestpred_far hring hx hv hp hbetween hi hfar
  have hsucc := hv.between_mySucc hring hx hp hbetween
  have hu := SuccList.closestpred_ne hsucc (List.not_mem_nil (a := v.mySucc))
  rw [closestpred, if_neg (ne_of_between hf)]
  split
  · exact ⟨hf, hfgap⟩
  · next hfu =>
    obtain ⟨hugood, hume | ⟨hubetween, -⟩⟩ := SuccList.closestpred_ahead v x []
    · exact absurd hume hu
    · have hflt := (FingerTable.closestpredBelow_ahead v x [] NBIT).1
      have hle := Nat.le_of_not_lt ((between_iff v.myID_lt (VNode.good_lt _ hflt)
        (VNode.good_lt _ hugood)).not.1 hfu)
      rw [distance_eq_gap hu.symm] at hle
      refine ⟨hubetween, (hfgap.trans ?_).trans hle⟩
      exact Nat.le_of_eq (distance_eq_gap (ne_of_between hf).symm).symm

end Fingers

section Halving

variable {ring : Finset ChordID} {v : VNode} {x p : Nat} (hring : ∀ n ∈ ring, n < 2 ^ NBIT)
  (hx : x < 2 ^ NBIT) (hv : RightFingers ring v) (hp : p ∈ ring)
  (hlast : ∀ n ∈ ring, distance p x ≤ distance n x)
include hring hx hv hp hlast

theorem ne_of_not_inrange (hout : ¬ betweenrightincl v.myID v.mySucc x) :
    between v.myID x p := by
  have hsucc := hv.mySucc.1
  have hlt := Nat.lt_of_not_le ((betweenrightincl_iff v.myID_lt (hring _ hsucc) hx).not.1 hout)
  have hadd := distance_add v.myID_lt hx (hring _ hsucc) hlt
  have hpos := distance_pos v.myID_lt (hring _ hsucc)
  have hle := hlast _ hsucc
  refine (between_iff v.myID_lt hx (hring p hp)).2
    (distance_lt_of_nearer v.myID_lt (hring p hp) ?_)
  dsimp only [ChordID] at *
  omega

/-- A hop takes a binary digit off the way to the last node before x. -/
theorem gap_closestpred_lt {k : Nat} (hbetween : between v.myID x p)
    (hk : gap (2 ^ NBIT) v.myID p < 2 ^ (k + 1)) (hkN : k < NBIT) :
    gap (2 ^ NBIT) (Fingerroute.closestpred v x []) p < 2 ^ k := by
  have hpos := gap_pos v.myID_lt (hring p hp) (ne_of_between hbetween)
  generalize hi : Nat.log 2 (gap (2 ^ NBIT) v.myID p) = i
  have hfar : 2 ^ i ≤ gap (2 ^ NBIT) v.myID p := hi ▸ Nat.pow_log_le_self 2 (Nat.ne_of_gt hpos)
  have hlog : gap (2 ^ NBIT) v.myID p < 2 ^ (i + 1) := hi ▸ Nat.lt_pow_succ_log_self (by decide) _
  have hik : i ≤ k := by
    have := (Nat.pow_lt_pow_iff_right (show 1 < 2 by decide)).1 (hfar.trans_lt hk)
    omega
  obtain ⟨hn, hngap⟩ :=
    Fingerroute.closestpred_far hring hx hv hp hbetween (hik.trans_lt hkN) hfar
  have hgood := (Fingerroute.closestpred_ahead v x []).1
  generalize Fingerroute.closestpred v x [] = n at hn hngap hgood ⊢
  have hnlt := VNode.good_lt _ hgood
  have hle : gap (2 ^ NBIT) v.myID n ≤ gap (2 ^ NBIT) v.myID p := by
    have hnd := (between_iff v.myID_lt hx hnlt).1 hn
    have hpd := (between_iff v.myID_lt hx (hring p hp)).1 hbetween
    have hnadd := distance_add v.myID_lt hx hnlt hnd
    have hpadd := distance_add v.myID_lt hx (hring p hp) hpd
    have hmin := hlast n (hv.good hgood)
    rw [← distance_eq_gap (ne_of_between hn).symm, ← distance_eq_gap (ne_of_between hbetween).symm]
    dsimp only [ChordID] at *
    omega
  have hadd := gap_add v.myID_lt hnlt (hring p hp) hle
  have hpow := Nat.pow_le_pow_right (show 0 < 2 by decide) hik
  rw [Nat.pow_succ] at hlog
  omega

end Halving

namespace RouteIter

variable {ring : Finset ChordID} {x p k : Nat} {it : RouteIter}

/-- A search after some hops: the way to the last node before x has lost as many digits. -/
structure Nearing (ring : Finset ChordID) (x p k : Nat) (it : RouteIter) : Prop where
  key : it.x = x
  r : it.r = .ok
  failed : it.failedNodes = []
  mem : it.back ∈ ring
  length : it.before.length = k
  near : gap (2 ^ NBIT) it.back p < 2 ^ (NBIT - k)

/-- A search has come to the node that x belongs to, over so many nodes. -/
def Arrived (ring : Finset ChordID) (x n : Nat) (it : RouteIter) : Prop :=
  it.cb = .done ∧ it.r = .ok ∧ IsFirst (2 ^ NBIT) ring x it.back ∧
    it.successors.head? = some it.back ∧ it.searchPath.length ≤ n

theorem Nearing.step {net : Net} {me : ChordID} (h : Nearing ring x p k it)
    (hring : ∀ n ∈ ring, n < 2 ^ NBIT) (hx : x < 2 ^ NBIT) (hp : p ∈ ring)
    (hlast : ∀ n ∈ ring, distance p x ≤ distance n x)
    (hnet : ∀ n ∈ ring, ∃ w, net.answers n = some w ∧ RightFingers ring w) :
    Arrived ring x (k + 2) (nextHop me net it) ∨
      k < NBIT ∧ (nextHop me net it).ended = false ∧
        Nearing ring x p (k + 1) (nextHop me net it) := by
  obtain ⟨v, hanswer, hv⟩ := hnet _ h.mem
  have hown : v.myID = it.back := net.own _ _ hanswer
  rw [nextHop, hanswer, Option.map_some, h.key, h.failed, VNode.doroute]
  split
  · next hin =>
    have hfirst := isFirst_mySucc hring hx hv.mySucc hin
    refine .inl ⟨rfl, h.r, hfirst, rfl, ?_⟩
    rw [VNode.head_succs, makeHopCb, searchPath]
    simp [h.length]
  · next hout =>
    have hbetween := ne_of_not_inrange hring hx hv hp hlast hout
    have hpos := gap_pos v.myID_lt (hring p hp) (ne_of_between hbetween)
    have hnear := hown ▸ h.near
    have hk : k < NBIT := by
      by_contra hk
      rw [Nat.sub_eq_zero_of_le (Nat.le_of_not_lt hk), Nat.pow_zero] at hnear
      omega
    have hlt := gap_closestpred_lt hring hx hv hp hlast hbetween
      (show _ < 2 ^ (NBIT - (k + 1) + 1) from (by omega : NBIT - (k + 1) + 1 = NBIT - k) ▸ hnear)
      (by omega)
    have hne : it.back ≠ Fingerroute.closestpred v x [] := hown ▸ (Fingerroute.closestpred_ne
      (hv.between_mySucc hring hx hp hbetween) List.not_mem_nil).symm
    have hgood := (Fingerroute.closestpred_ahead v x []).1
    have hlen : it.before.length + 2 ≤ 1000 := by
      have := h.length
      rw [NBIT] at hk
      omega
    rw [makeHopCb, if_neg hne, if_pos hlen]
    refine .inr ⟨hk, rfl, h.key, h.r, h.failed, hv.good hgood, ?_, hlt⟩
    exact congrArg (· + 1) h.length

theorem Nearing.of_run {net : Nat → Net} {me : ChordID} (h : Nearing ring x p 0 it)
    (hover : it.ended = false) (hring : ∀ n ∈ ring, n < 2 ^ NBIT) (hx : x < 2 ^ NBIT) (hp : p ∈ ring)
    (hlast : ∀ n ∈ ring, distance p x ≤ distance n x)
    (hnet : ∀ t, ∀ n ∈ ring, ∃ w, (net t).answers n = some w ∧ RightFingers ring w) (k : Nat) :
    Arrived ring x (NBIT + 2) (run me net it k) ∨
      k ≤ NBIT ∧ (run me net it k).ended = false ∧ Nearing ring x p k (run me net it k) := by
  induction k with
  | zero => exact .inr ⟨Nat.zero_le _, hover, h⟩
  | succ k ih =>
    rw [run]
    rcases ih with harrived | ⟨hk, hover', hnear⟩
    · rw [if_pos (by simp [ended, harrived.1])]
      exact .inl harrived
    · rw [if_neg (by simp [hover'])]
      rcases hnear.step hring hx hp hlast (hnet k) with ⟨hcb, hr, hfirst, hhead, hlen⟩ | hnext
      · exact .inl ⟨hcb, hr, hfirst, hhead, by omega⟩
      · exact .inr hnext

theorem lookup_hops {net : Nat → Net} {v : VNode} (hx : x < 2 ^ NBIT)
    (hring : ∀ n ∈ ring, n < 2 ^ NBIT) (hv : RightFingers ring v)
    (hnet : ∀ t, ∀ n ∈ ring, ∃ w, (net t).answers n = some w ∧ RightFingers ring w) :
    Arrived ring x (NBIT + 2) (run v.myID net (firstHop v x none) (NBIT + 1)) := by
  obtain ⟨p, hp, hlast⟩ := ring.exists_min_image (distance · x) ⟨_, hv.good v.me⟩
  have hback : (firstHop v x none).back ∈ ring :=
    hv.good (Fingerroute.closestpred_ahead v x []).1
  have hfirst : Nearing ring x p 0 (firstHop v x none) :=
    ⟨rfl, rfl, rfl, hback, rfl, gap_lt (hring _ hback) (hring p hp)⟩
  rcases hfirst.of_run rfl hring hx hp hlast hnet (NBIT + 1) with h | ⟨hk, -⟩
  · exact h
  · exact absurd hk (Nat.not_succ_le_self _)

theorem lookup_hops_three : Arrived {10, 20, 30} 25 (NBIT + 2)
    (run 10 (fun _ => threeNet) (firstHop ⟨10, three, 16, by decide, by decide⟩ 25 none)
      (NBIT + 1)) := by
  have hfingers : ∀ (n : ChordID) (hn : n ∈ three.good), ∀ i < NBIT, ∃ m ∈ three.good,
      IsFirst (2 ^ NBIT) {10, 20, 30} (successorID n i) m := by
    decide +kernel
  have hgood : three.good ⊆ {10, 20, 30} := by decide
  let v : VNode := ⟨10, three, 16, by decide, by decide⟩
  have hv : RightFingers {10, 20, 30} v := ⟨hgood, hfingers 10 (by decide)⟩
  refine lookup_hops (v := v) (by decide) (by decide) hv fun _ n hn => ?_
  have hn' : n ∈ three.good := by
    revert n
    decide
  exact ⟨⟨n, three, 16, by decide, hn'⟩, dif_pos hn', hgood, hfingers n hn'⟩

end RouteIter

end XGossip
