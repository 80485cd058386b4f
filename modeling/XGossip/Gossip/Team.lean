import Mathlib.Data.List.Induction
import XGossip.Gossip.Peer

namespace XGossip
set_option autoImplicit true

/-- The turn of the loop of `make_team` that makes the ID with index `j`. -/
def makeTeamStep (myID arclen : ChordID) (st : Option Nat × List ChordID × ChordID) (j : Nat) :
    Option Nat × List ChordID × ChordID :=
  let curID := st.2.2 + arclen
  let curID := if 2 ^ 160 ≤ curID then curID - 2 ^ 160 else curID
  (if myID = curID then some j else st.1, st.2.1 ++ [curID], curID)

/-- The IDs of a team, spread over the ring, and the index of `myID` among them. -/
def makeTeam (teamsize : Nat) (myID teamID : ChordID) : Option Nat × List ChordID :=
  let arclen := (2 ^ 160 - 1) / teamsize
  let st := (List.range' 1 (teamsize - 1)).foldl (makeTeamStep myID arclen)
    (if myID = teamID then some 0 else none, [teamID], teamID)
  (st.1, st.2.1)

def team (teamsize : Nat) (teamID : ChordID) : List ChordID := (makeTeam teamsize 0 teamID).2

inductive InitType where
  | INITGOSSIP | INFORMTEAM
deriving DecidableEq

/-- A message of the initialisation phase, sent to the owner of `key`. -/
structure InitMsg where
  type : InitType
  key : ChordID
  teamid : ChordID
  sig : Sig
  freq : ℚ
  weight : ℚ

/-- The message to the next member of the team, the last one wrapping around to the first. -/
def informteam (teamsize : Nat) (myID teamID : ChordID) (sig : Sig) : List InitMsg :=
  let (idindex, team) := makeTeam teamsize myID teamID
  match idindex with
  | none => []
  | some i =>
    let nextID := if i = team.length - 1 then team.getD 0 0 else team.getD (i + 1) 0
    [⟨.INFORMTEAM, nextID, teamID, sig, 0, 1⟩]

def hldList : MapType ℚ := SortedMap.empty.insert hldsig (0, 1)

/-- The three cases of `initgossiprecv`, with the signature the team is informed of. -/
def initList (sig : Sig) (freq weight : ℚ) (m : MapType ℚ) : MapType ℚ × Option Sig :=
  if sig ≠ dummysig then
    match m.find? sig with
    | some v => (m.insert sig (v.1 + freq, v.2), none)
    | none =>
      let m' := m.push sig (freq, weight)
      match m.find? dummysig with
      | none => (m'.push dummysig (0, 1), some dummysig)
      | some _ => (m', none)
  else
    match m.find? sig with
    | none => (m.push sig (freq, weight), some sig)
    | some _ => (m, none)

/-- The index of a team's lists, in a peer that has been given one. -/
def openTeam (teamID : ChordID) (p : Peer α) : Nat × Peer α :=
  match p.teamindex.find? teamID with
  | some ixs => (ixs.headD 0, p)
  | none => (p.totalT.length,
      ⟨p.totalT ++ [[]], p.teamindex.insert teamID [p.totalT.length]⟩)

def initgossiprecv (teamsize : Nat) (ID teamID : ChordID) (sig : Sig) (freq weight : ℚ)
    (p : Peer ℚ) : Peer ℚ × List InitMsg :=
  let (tind, p) := openTeam teamID p
  let T := p.totalT.getD tind []
  let (m, inform) := initList sig freq weight (T.headD hldList)
  ({ p with totalT := p.totalT.set tind (m :: T.tail) },
    inform.elim [] (informteam teamsize ID teamID))

/-- The case of `readgossip` for the two types; after the phase they are discarded. -/
def readInit (initphase : Bool) (teamsize : Nat) (msg : InitMsg) (p : Peer ℚ) :
    Peer ℚ × List InitMsg :=
  if initphase then initgossiprecv teamsize msg.key msg.teamid msg.sig msg.freq msg.weight p
  else (p, [])

/-- The loop state of `make_team` after `n` turns. -/
def makeTeamLoop (myID arclen teamID : ChordID) (n : Nat) :
    Option Nat × List ChordID × ChordID :=
  (List.range' 1 n).foldl (makeTeamStep myID arclen)
    (if myID = teamID then some 0 else none, [teamID], teamID)

theorem makeTeamLoop_succ (myID arclen teamID : ChordID) (n : Nat) :
    makeTeamLoop myID arclen teamID (n + 1) =
      makeTeamStep myID arclen (makeTeamLoop myID arclen teamID n) (1 + n) := by
  rw [makeTeamLoop, List.range'_concat, List.foldl_append, Nat.one_mul]
  rfl

theorem makeTeamLoop_length (myID arclen teamID : ChordID) (n : Nat) :
    (makeTeamLoop myID arclen teamID n).2.1.length = n + 1 := by
  induction n with
  | zero => rfl
  | succ n ih => simp [makeTeamLoop_succ, makeTeamStep, ih]

theorem makeTeamLoop_team (a b arclen teamID : ChordID) (n : Nat) :
    (makeTeamLoop a arclen teamID n).2 = (makeTeamLoop b arclen teamID n).2 := by
  induction n with
  | zero => rfl
  | succ n ih => simp only [makeTeamLoop_succ, makeTeamStep, ih]

theorem makeTeamLoop_index (myID arclen teamID : ChordID) (n : Nat) :
    (∀ i, (makeTeamLoop myID arclen teamID n).1 = some i →
      (makeTeamLoop myID arclen teamID n).2.1[i]? = some myID) ∧
    (myID ∈ (makeTeamLoop myID arclen teamID n).2.1 →
      (makeTeamLoop myID arclen teamID n).1 ≠ none) := by
  induction n with
  | zero =>
    by_cases h : myID = teamID
    · simp [makeTeamLoop, h]
    · simp [makeTeamLoop, h]
  | succ n ih =>
    obtain ⟨hindex, hmem⟩ := ih
    have hlen := makeTeamLoop_length myID arclen teamID n
    simp only [makeTeamLoop_succ, makeTeamStep]
    generalize (if 2 ^ 160 ≤ (makeTeamLoop myID arclen teamID n).2.2 + arclen then _ else _) = cur
    constructor
    · intro i hi
      split at hi
      · next he =>
        cases hi
        rw [List.getElem?_append_right (by omega), hlen, he]
        simp [Nat.add_comm]
      · have hi' := hindex i hi
        rw [List.getElem?_append_left (List.getElem?_eq_some_iff.1 hi').1, hi']
    · intro hm
      split
      · exact Option.some_ne_none _
      · next he =>
        rcases List.mem_append.1 hm with hm | hm
        · exact hmem hm
        · exact (he (List.mem_singleton.1 hm)).elim

theorem makeTeam_eq (k : Nat) (myID teamID : ChordID) :
    (makeTeam k myID teamID).2 = team k teamID :=
  congrArg Prod.fst (makeTeamLoop_team myID 0 _ teamID _)

theorem team_ne_nil (k : Nat) (t : ChordID) : team k t ≠ [] := by
  have hlen := makeTeamLoop_length 0 ((2 ^ 160 - 1) / k) t (k - 1)
  exact List.ne_nil_of_length_pos (hlen ▸ Nat.succ_pos _)

theorem makeTeam_found (k : Nat) (myID t : ChordID) :
    (∀ i, (makeTeam k myID t).1 = some i → (team k t)[i]? = some myID) ∧
      (myID ∈ team k t → (makeTeam k myID t).1 ≠ none) := by
  obtain ⟨hindex, hmem⟩ := makeTeamLoop_index myID ((2 ^ 160 - 1) / k) t (k - 1)
  have hteam : (makeTeamLoop myID ((2 ^ 160 - 1) / k) t (k - 1)).2.1 = team k t :=
    makeTeam_eq k myID t
  rw [hteam] at hindex hmem
  exact ⟨hindex, hmem⟩

theorem makeTeam_index (h : myID ∈ team k t) :
    ∃ i, (makeTeam k myID t).1 = some i ∧ (team k t)[i]? = some myID := by
  obtain ⟨hindex, hmem⟩ := makeTeam_found k myID t
  obtain ⟨i, hi⟩ := Option.ne_none_iff_exists'.1 (hmem h)
  exact ⟨i, hi, hindex i hi⟩

/-- The member at a position of the team, counted around the ring. -/
def member (k : Nat) (t : ChordID) (i : Nat) : ChordID := (team k t).getD (i % (team k t).length) 0

theorem member_of_getElem? (h : (team k t)[i]? = some ID) : member k t i = ID := by
  have hlt := (List.getElem?_eq_some_iff.1 h).1
  rw [member, Nat.mod_eq_of_lt hlt, List.getD_eq_getElem?_getD, h, Option.getD_some]

theorem exists_member (h : ID ∈ team k t) : ∃ i, member k t i = ID := by
  obtain ⟨i, hi⟩ := List.mem_iff_getElem?.1 h
  exact ⟨i, member_of_getElem? hi⟩

theorem member_mem (k : Nat) (t : ChordID) (i : Nat) : member k t i ∈ team k t := by
  have hlt := Nat.mod_lt i (List.length_pos_iff.2 (team_ne_nil k t))
  rw [member, List.getD_eq_getElem?_getD, List.getElem?_eq_getElem hlt]
  exact List.getElem_mem hlt

theorem informteam_eq (sig : Sig) (h : myID ∈ team k t) : ∃ i, member k t i = myID ∧
    informteam k myID t sig = [⟨.INFORMTEAM, member k t (i + 1), t, sig, 0, 1⟩] := by
  obtain ⟨i, hi, hT⟩ := makeTeam_index h
  have hlt := (List.getElem?_eq_some_iff.1 hT).1
  refine ⟨i, member_of_getElem? hT, ?_⟩
  simp only [informteam, hi, makeTeam_eq, member]
  split
  · next he =>
    have hmod : (i + 1) % (team k t).length = 0 := by
      rw [show i + 1 = (team k t).length by omega, Nat.mod_self]
    rw [hmod]
  · next he => rw [Nat.mod_eq_of_lt (by omega)]

end XGossip
