import Mathlib.Data.List.Nodup
import Mathlib.Data.Nat.ModEq
import XGossip.Gossip.Team

namespace XGossip
set_option autoImplicit true

section Ring

/-- The point of a ring of `n` points that is `j` arcs of length `arc` behind `start`. -/
def arcPoint (n start arc j : Nat) : Nat := (start + j * arc) % n

variable {n start arc : Nat}

theorem arcPoint_zero (h : start < n) : arcPoint n start arc 0 = start := by
  rw [arcPoint, Nat.zero_mul, Nat.add_zero, Nat.mod_eq_of_lt h]

theorem arcPoint_lt (hn : 0 < n) (j : Nat) : arcPoint n start arc j < n := Nat.mod_lt _ hn

theorem arcPoint_succ (harc : arc < n) (j : Nat) :
    arcPoint n start arc (j + 1) =
      if n ≤ arcPoint n start arc j + arc then arcPoint n start arc j + arc - n
      else arcPoint n start arc j + arc := by
  have hlt : arcPoint n start arc j < n := arcPoint_lt (Nat.zero_lt_of_lt harc) j
  have hsum : arcPoint n start arc (j + 1) = (arcPoint n start arc j + arc) % n := by
    rw [arcPoint, arcPoint, Nat.mod_add_mod, Nat.succ_mul, Nat.add_assoc]
  rw [hsum]
  split
  · next h => rw [Nat.mod_eq_sub_mod h, Nat.mod_eq_of_lt (by omega)]
  · next h => exact Nat.mod_eq_of_lt (by omega)

theorem arcPoint_injective (hi : i * arc < n) (hj : j * arc < n) (harc : 0 < arc)
    (h : arcPoint n start arc i = arcPoint n start arc j) : i = j := by
  have hmod : i * arc ≡ j * arc [MOD n] := Nat.ModEq.add_left_cancel' start h
  exact Nat.eq_of_mul_eq_mul_right harc (hmod.eq_of_lt_of_lt hi hj)

theorem arcs_fit (hn : 0 < n) (hj : j < k) : j * ((n - 1) / k) < n := by
  have hle : j * ((n - 1) / k) ≤ k * ((n - 1) / k) := Nat.mul_le_mul_right _ hj.le
  have hdiv := Nat.mul_div_le (n - 1) k
  omega

end Ring

section Spread

variable {k : Nat} {teamID myID : ChordID}

def arclen (k : Nat) : ChordID := (2 ^ 160 - 1) / k

theorem makeTeamLoop_points (ht : teamID < 2 ^ 160) (harc : arc < 2 ^ 160) (n : Nat) :
    (makeTeamLoop myID arc teamID n).2 =
      ((List.range (n + 1)).map (arcPoint (2 ^ 160) teamID arc),
        arcPoint (2 ^ 160) teamID arc n) := by
  induction n with
  | zero =>
    rw [arcPoint_zero ht, List.range_one, List.map_singleton, arcPoint_zero ht]
    rfl
  | succ n ih =>
    rw [makeTeamLoop_succ, makeTeamStep, ih, List.range_succ (n := n + 1), List.map_append,
      List.map_singleton, arcPoint_succ harc]

theorem team_eq_points (ht : teamID < 2 ^ 160) (hk : 1 ≤ k) :
    team k teamID = (List.range k).map (arcPoint (2 ^ 160) teamID (arclen k)) := by
  have harc : arclen k < 2 ^ 160 := (Nat.div_le_self _ _).trans_lt (by decide)
  have hloop := @makeTeamLoop_points teamID 0 (arclen k) ht harc (k - 1)
  rw [show k - 1 + 1 = k by omega] at hloop
  exact congrArg Prod.fst hloop

theorem arclen_pos (hk : 1 ≤ k) (hk' : k < 2 ^ 31) : 0 < arclen k :=
  Nat.div_pos (by omega) hk

theorem team_nodup (ht : teamID < 2 ^ 160) (hk : 1 ≤ k) (hk' : k < 2 ^ 31) :
    (team k teamID).Nodup := by
  rw [team_eq_points ht hk]
  refine List.Nodup.map_on ?_ List.nodup_range
  intro i hi j hj h
  have hring : 0 < 2 ^ 160 := by decide
  exact arcPoint_injective (arcs_fit hring (List.mem_range.1 hi))
    (arcs_fit hring (List.mem_range.1 hj)) (arclen_pos hk hk') h

theorem makeTeam_index_iff (hnodup : (team k teamID).Nodup) :
    (makeTeam k myID teamID).1 = some j ↔ (team k teamID)[j]? = some myID := by
  constructor
  · exact (makeTeam_found k myID teamID).1 j
  · intro hj
    obtain ⟨i, hi, hget⟩ := makeTeam_index (List.mem_of_getElem? hj)
    have hlt := (List.getElem?_eq_some_iff.1 hget).1
    have hij : i = j := (List.getElem?_inj hlt hnodup).1 (hget.trans hj.symm)
    rw [← hij]
    exact hi

theorem makeTeam_none_iff :
    (makeTeam k myID teamID).1 = none ↔ myID ∉ team k teamID := by
  constructor
  · intro hnone hm
    exact (makeTeam_found k myID teamID).2 hm hnone
  · intro hm
    by_contra hne
    obtain ⟨i, hi⟩ := Option.ne_none_iff_exists'.1 hne
    exact hm (List.mem_of_getElem? ((makeTeam_found k myID teamID).1 i hi))

/-- `make_team` spreads a team evenly around the ring and returns the index of the asker, if there
is one; the index is -1 otherwise. -/
theorem make_team_spread (ht : teamID < 2 ^ 160) (hk : 1 ≤ k) (hk' : k < 2 ^ 31) (myID : ChordID) :
    (makeTeam k myID teamID).2.length = k ∧ (makeTeam k myID teamID).2.Nodup ∧
      (∀ ID ∈ (makeTeam k myID teamID).2, ID < 2 ^ 160) ∧
      (∀ j < k, (makeTeam k myID teamID).2[j]? =
        some ((teamID + j * ((2 ^ 160 - 1) / k)) % 2 ^ 160)) ∧
      (∀ j, (makeTeam k myID teamID).1 = some j ↔
        (makeTeam k myID teamID).2[j]? = some myID) ∧
      ((makeTeam k myID teamID).1 = none ↔ myID ∉ (makeTeam k myID teamID).2) := by
  have hnodup := team_nodup ht hk hk'
  have hpoints := team_eq_points ht hk
  rw [makeTeam_eq]
  refine ⟨?_, hnodup, ?_, ?_, fun j => makeTeam_index_iff hnodup, makeTeam_none_iff⟩
  · rw [hpoints, List.length_map, List.length_range]
  · intro ID hID
    rw [hpoints] at hID
    obtain ⟨j, -, rfl⟩ := List.mem_map.1 hID
    exact arcPoint_lt (by decide) j
  · intro j hj
    rw [hpoints, List.getElem?_map, List.getElem?_range hj]
    rfl

theorem make_team_spread_three : (makeTeam 3 7 5).2.length = 3 ∧ (makeTeam 3 7 5).2.Nodup ∧
    (makeTeam 3 7 5).2[2]? = some ((5 + 2 * ((2 ^ 160 - 1) / 3)) % 2 ^ 160) := by
  obtain ⟨hlen, hnodup, -, hpoint, -, -⟩ :=
    make_team_spread (show 5 < 2 ^ 160 by decide) (show 1 ≤ 3 by decide) (by decide) 7
  exact ⟨hlen, hnodup, hpoint 2 (by decide)⟩

end Spread

end XGossip
