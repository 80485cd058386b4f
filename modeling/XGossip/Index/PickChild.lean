import XGossip.Index.Filter

namespace XGossip
set_option autoImplicit true

open Codec Gf2

section InsertDocumentO

/-- The elements that a client gets of a node, behind its header: without a filter all of them. -/
def sentElements (MAXENTRIES : Nat) (n : Node) (sigdata : List Byte) : Option Block :=
  if sigdata = [] then some (n.entries.map elemBytes) else executeFilter MAXENTRIES n sigdata

/-- What `insertDocumentO` reads from a node: whether it is full, and the child that the server has
picked. The first of it is asserted to be a status. -/
def retrieveO (ix : Index) (n : Node) (sig : Sig) : Option (Bool × Option Key) := do
  let sigdata ← makeSigDataOne [] sig .PICKCHILD
  let myNodeEntries ← sentElements ix.MAXENTRIES n sigdata
  let status ← myNodeEntries[0]?
  if status = FULLNODE ∨ status = NOTFULLNODE then return (status = FULLNODE, myNodeEntries[1]?)
  else none

def afterChildO (ix : Index) (fuel : Nat) (ID : Key) (n : Node) (full : Bool) (childID : Key)
    (sig : Sig) : DHTStatus × FullNodes → Client (DHTStatus × FullNodes)
  | (.NODESPLIT, fullNodes) => do
    if n.nodeType ≠ .ROOT ∧ full then return (.NODESPLIT, fullNodes ++ [(ID, n.int)])
    else if n.nodeType = .ROOT ∧ full then
      if (← performSplitRoot ix fuel ID n.int) = .FAIL then return (.FAIL, fullNodes)
      else return (← splitFullNodes ix fuel ID fullNodes, fullNodes)
    else return (← splitFullNodes ix fuel ID fullNodes, fullNodes)
  | (.SUCC, fullNodes) => do
    let stat ← insertDHT ID (.update .UPDATEIFPRESENT childID sig)
    if stat.failed then return (.FAIL, fullNodes) else return (.SUCC, fullNodes)
  | result => return result

def insertDocumentO (ix : Index) (sig : Sig) (docid : Key) :
    Nat → Key → Client (DHTStatus × FullNodes)
  | 0, _ => .stop
  | fuel + 1, ID => do
    match ← retrieveDHT ID with
    | none => return (.FAIL, [])
    | some n =>
      match retrieveO ix n sig with
      | none => .stop
      | some (full, child) =>
        if n.isLeaf then
          if full then
            if n.nodeType = .LEAF then return (.NODESPLIT, [(ID, n.int)])
            else if (← performSplitRoot ix fuel ID n.int) = .FAIL then return (.FAIL, [])
            else return (.REINSERT, [])
          else
            let stat ← insertDHT ID (.update .UPDATE docid sig)
            if stat ≠ .SUCC then return (.FAIL, []) else return (.SUCC, [])
        else
          match child with
          | none => .stop
          | some childID =>
            if childID = NULL then return (.FAIL, [])
            else
              let result ← insertDocumentO ix sig docid fuel childID
              afterChildO ix fuel ID n full childID sig result

end InsertDocumentO

section SameChoice

variable {ix : Index} {sig : Sig}

theorem fits_iff : FitsBuffer [sig] ↔ 3 + sig.length ≤ BUFWORDS := by
  simp only [FitsBuffer, allWords, sigWords, List.flatMap_cons, List.flatMap_nil, List.append_nil,
    List.length_cons]
  omega

theorem makeSigDataOne_of_fits (h : FitsBuffer [sig]) (type : RetrieveType) :
    makeSigDataOne [] sig type = makeSigData [sig] type := by
  have hlen : 2 + (sigWords sig).length ≤ BUFWORDS := by
    simpa [FitsBuffer, allWords] using h
  have hlimit : overLimit 2 (sigWords sig).length = false := by
    simp only [overLimit, decide_eq_false_iff_not]
    omega
  rw [makeSigData_of_fits h, makeSigDataOne, hlimit, writeWords, if_pos hlen]
  simp [allWords]

def statusOf (full : Bool) : Key := if full then FULLNODE else NOTFULLNODE

theorem executeFilter_pickChild (h : FitsBuffer [sig])
    (hf : makeSigData [sig] .PICKCHILD = some filter) (ix : Index) (n : Node) :
    executeFilter ix.MAXENTRIES n filter = some (statusOf (ix.full n) ::
      if n.isLeaf then [] else [pickChild NULL n.entries sig true]) ∧ filter ≠ [] := by
  rw [makeSigData_of_fits h, Option.some_inj] at hf
  have hcode : intBytes RetrieveType.PICKCHILD.code = [3, 0, 0, 0] := by decide
  have hhdr : filter.takeWhile (· ≠ 0) ≠ HDRONLY ∧ filter ≠ [] := by
    rw [← hf, List.flatMap_cons, hcode]
    simp [HDRONLY]
  have hread : runReader getFilter filter = some ((RetrieveType.PICKCHILD.code, [sig]),
      offsets 0 filter.length) := by
    rw [← hf]
    exact (getFilter_parses h _).run
  have h₁ : RetrieveType.PICKCHILD.code ≠ RetrieveType.DIVISIBLE.code := by decide
  have h₂ : RetrieveType.PICKCHILD.code ≠ RetrieveType.DIVISIBLEV.code := by decide
  refine ⟨?_, hhdr.2⟩
  rw [executeFilter, if_neg hhdr.1, hread]
  simp only [Option.bind_eq_bind, Option.bind_some, if_neg h₁, if_neg h₂, if_true]
  cases n.isLeaf with
  | true => simp [statusOf, Index.full]
  | false => simp [statusOf, Index.full]

theorem retrieveO_of_fits (h : FitsBuffer [sig]) (n : Node) :
    retrieveO ix n sig = some (ix.full n,
      if n.isLeaf then none else some (pickChild NULL n.entries sig true)) := by
  have hf := makeSigData_of_fits h .PICKCHILD
  obtain ⟨hexec, hne⟩ := executeFilter_pickChild h hf ix n
  have hstatus : ∀ full, (statusOf full = FULLNODE ∨ statusOf full = NOTFULLNODE) ∧
      decide (statusOf full = FULLNODE) = full := by decide
  rw [retrieveO, makeSigDataOne_of_fits h, hf]
  simp only [Option.bind_eq_bind, Option.bind_some, sentElements, if_neg hne, hexec,
    List.getElem?_cons_zero, if_pos (hstatus _).1, (hstatus _).2]
  cases n.isLeaf with
  | true => rfl
  | false => rfl

theorem afterChildO_full (ix : Index) (fuel : Nat) (ID : Key) (n : Node) (childID : Key)
    (sig : Sig) (result : DHTStatus × FullNodes) :
    afterChildO ix fuel ID n (ix.full n) childID sig result =
      afterChild ix fuel ID n childID sig result := by
  obtain ⟨status, fullNodes⟩ := result
  cases status <;> rfl

theorem insertDocumentO_eq (hm : ix.metric = true) (h : FitsBuffer [sig]) (docid : Key)
    (fuel : Nat) (ID : Key) :
    insertDocumentO ix sig docid fuel ID = insertDocument ix sig docid fuel ID := by
  induction fuel generalizing ID with
  | zero => rfl
  | succ fuel ih =>
    rw [insertDocumentO, insertDocument]
    congr 1
    funext o
    cases o with
    | none => rfl
    | some n =>
      simp only [retrieveO_of_fits h]
      cases hl : n.isLeaf with
      | true => rfl
      | false =>
        simp only [Bool.false_eq_true, if_false, hm, ih, afterChildO_full]

theorem retrieveO_of_not_fits (h : ¬ FitsBuffer [sig]) (n : Node) : retrieveO ix n sig = none := by
  have hlen : ¬ 2 + (sigWords sig).length ≤ BUFWORDS := by
    simpa [FitsBuffer, allWords] using h
  have hstatus : ∀ e, elemBytes e ≠ FULLNODE ∧ elemBytes e ≠ NOTFULLNODE := by
    intro e
    have he := length_elemBytes e
    constructor <;> intro heq <;> simp [heq, FULLNODE, NOTFULLNODE] at he <;> omega
  rw [retrieveO, makeSigDataOne]
  split
  · simp only [Option.bind_eq_bind, Option.bind_some, sentElements, if_true]
    cases n.entries with
    | nil => rfl
    | cons e entries => simp [hstatus e]
  · simp [writeWords, hlen]

/-- The signature `x ^ (32 * words + 2)`. -/
def powSig (words : Nat) : Sig := 4 :: List.replicate words 0

theorem poly_powSig (k : Nat) : poly (powSig k) = Polynomial.X ^ (32 * k) * poly [4] :=
  poly_cons_replicate 4 k

theorem powSig_normalized (k : Nat) : Normalized (powSig k) := by
  simp [Normalized, powSig]

theorem fullDegree_powSig (k : Nat) : fullDegree (powSig k) = 32 * k + 2 := by
  have h4 : getDegreeWord 4 = 2 := by decide
  simp only [fullDegree, powSig, List.length_cons, List.length_replicate, List.headD_cons, h4]
  omega

theorem powSig_divides (k m : Nat) : Divides (powSig k) (powSig (k + m)) :=
  poly_cons_replicate_dvd 4 k m

theorem two_divides_powSig (k : Nat) : Divides [2] (powSig k) := by
  have h24 : Divides [2] [4] := (dividesSig_iff (by decide) (by decide)).1 (by decide)
  rw [Divides, poly_powSig]
  exact Dvd.dvd.mul_left h24 _

def scoreOf (sig : Sig) (metric : Bool) (s : Sig) : Int := pSim s sig (gcdSpecial s sig) metric

theorem pickChild_two (h : -1 < scoreOf sig metric e₁.2) :
    (scoreOf sig metric e₂.2 < scoreOf sig metric e₁.2 →
      pickChild NULL [e₁, e₂] sig metric = e₁.1) ∧
    (scoreOf sig metric e₁.2 < scoreOf sig metric e₂.2 →
      pickChild NULL [e₁, e₂] sig metric = e₂.1) := by
  have hfirst : pickStep sig metric ⟨-1, NULL, -1⟩ e₁ =
      ⟨scoreOf sig metric e₁.2, e₁.1, fullDegree e₁.2⟩ := if_pos h
  simp only [pickChild, List.foldl_cons, List.foldl_nil, hfirst]
  constructor
  · intro hlt
    have h₁ : ¬ scoreOf sig metric e₂.2 > scoreOf sig metric e₁.2 := by omega
    have h₂ : ¬ scoreOf sig metric e₂.2 = scoreOf sig metric e₁.2 := by omega
    simp only [scoreOf] at h₁ h₂
    simp only [pickStep, scoreOf, h₁, h₂, if_false, false_and]
  · intro hlt
    exact congrArg Best.bestChild (if_pos hlt)

theorem scoreOf_false_of_divides (hs : Normalized sig) (ht : Normalized t) (h : Divides sig t) :
    scoreOf sig false t = fullDegree sig := by
  rw [scoreOf, pSim, (gcdSpecial_of_divides hs ht h).2]
  rfl

theorem scoreOf_false_of_divided (hs : Normalized sig) (ht : Normalized t) (h : Divides t sig) :
    scoreOf sig false t = fullDegree t := by
  rw [scoreOf, pSim, (gcdSpecial_of_divides ht hs h).1]
  rfl

theorem scoreOf_true_of_divides (hs : Normalized sig) (ht : Normalized t) (h : Divides sig t) :
    scoreOf sig true t = simScore (fullDegree sig) (fullDegree t) := by
  rw [scoreOf, pSim, (gcdSpecial_of_divides hs ht h).2, lcm_one ht, (lcm_of_divides hs ht h).2]
  rfl

theorem scoreOf_true_of_divided (hs : Normalized sig) (ht : Normalized t) (h : Divides t sig) :
    scoreOf sig true t = simScore (fullDegree t) (fullDegree sig) := by
  rw [scoreOf, pSim, (gcdSpecial_of_divides ht hs h).1, lcm_one ht, (lcm_of_divides ht hs h).1]
  rfl

theorem simScore_natCast {a b : Nat} (h : b ≠ 0) :
    simScore a b = ((2147483646 * a / b : Nat) : Int) := by
  rw [simScore, if_neg (by exact_mod_cast h)]
  have hmul : (INT_MAX - 1) * (a : Int) = ((2147483646 * a : Nat) : Int) := by
    push_cast
    rfl
  rw [hmul, Int.ofNat_tdiv]

theorem score_lt {d : Nat} (hd : 0 < d) (hle : d ≤ 2147483646) :
    2147483646 * d / (d + 128 * d ^ 2) < 2147483646 * 1 / d := by
  have hcancel : 2147483646 * d / (d + 128 * d ^ 2) = 2147483646 / (1 + 128 * d) := by
    rw [show d + 128 * d ^ 2 = (1 + 128 * d) * d by ring, Nat.mul_div_mul_right _ _ hd]
  have hsmall : 2147483646 / (1 + 128 * d) ≤ 2147483646 / (d * 2) :=
    Nat.div_le_div_left (by omega) (by omega)
  have hhalf : 2147483646 / (d * 2) = 2147483646 / d / 2 := (Nat.div_div_eq_div_mul ..).symm
  have hpos : 0 < 2147483646 / d := Nat.div_pos hle hd
  rw [hcancel, Nat.mul_one]
  omega

/-- Two children for `powSig words`: a large multiple of it, and a factor of degree 1. -/
def twoChildren (words : Nat) : Node :=
  ⟨.NONLEAF, ⟨0, 1, 1, 1, 1, 1⟩,
    [([97], powSig (words + 4 * (32 * words + 2) ^ 2)), ([98], [2])]⟩

theorem pickChild_twoChildren_false (words : Nat) :
    pickChild NULL (twoChildren words).entries (powSig words) false = [97] := by
  have h₁ := scoreOf_false_of_divides (powSig_normalized words) (powSig_normalized _)
    (powSig_divides words (4 * (32 * words + 2) ^ 2))
  have h₂ := scoreOf_false_of_divided (t := [2]) (powSig_normalized words) (by decide)
    (two_divides_powSig words)
  have hdeg : fullDegree [2] = 1 := by decide
  rw [fullDegree_powSig] at h₁
  rw [hdeg] at h₂
  refine (pickChild_two ?_).1 ?_
  · simp only [h₁]
    omega
  · simp only [h₁, h₂]
    omega

theorem pickChild_twoChildren_true (h : words ≤ BUFWORDS) :
    pickChild NULL (twoChildren words).entries (powSig words) true = [98] := by
  have h₁ := scoreOf_true_of_divides (powSig_normalized words) (powSig_normalized _)
    (powSig_divides words (4 * (32 * words + 2) ^ 2))
  have h₂ := scoreOf_true_of_divided (t := [2]) (powSig_normalized words) (by decide)
    (two_divides_powSig words)
  have hdeg : fullDegree [2] = 1 := by decide
  have hA : (32 * ((words + 4 * (32 * words + 2) ^ 2 : Nat) : Int) + 2) =
      (((32 * words + 2) + 128 * (32 * words + 2) ^ 2 : Nat) : Int) := by
    push_cast
    ring
  have hD : (32 * (words : Int) + 2) = ((32 * words + 2 : Nat) : Int) := by push_cast; rfl
  rw [fullDegree_powSig, fullDegree_powSig, hA, hD, simScore_natCast (by omega)] at h₁
  rw [hdeg, fullDegree_powSig, hD, ← Nat.cast_one, simScore_natCast (by omega)] at h₂
  have hlt := score_lt (d := 32 * words + 2) (by omega) (by rw [BUFWORDS] at h; omega)
  refine (pickChild_two ?_).2 ?_
  · simp only [h₁]
    exact lt_of_lt_of_le (by decide) (Int.natCast_nonneg _)
  · simp only [h₁, h₂]
    exact_mod_cast hlt

/-- Both variants of the insertion choose the same child of every node above the leaves, so that
they are one program. -/
def SameChoice (ix : Index) (sig : Sig) : Prop :=
  (∀ n : Node, n.isLeaf = false → n.entries ≠ [] → (∀ e ∈ n.entries, Normalized e.2) →
    (retrieveO ix n sig).bind Prod.snd = some (pickChild NULL n.entries sig ix.metric)) ∧
  ∀ docid fuel ID, insertDocumentO ix sig docid fuel ID = insertDocument ix sig docid fuel ID

theorem sameChoice_of_fits (hm : ix.metric = true) (h : FitsBuffer [sig]) : SameChoice ix sig := by
  refine ⟨fun n hl _ _ => ?_, insertDocumentO_eq hm h⟩
  rw [retrieveO_of_fits h, hl, hm]
  rfl

theorem twoChildren_normalized (words : Nat) :
    ∀ e ∈ (twoChildren words).entries, Normalized e.2 := by
  simp only [twoChildren, List.forall_mem_cons, List.not_mem_nil, false_implies, implies_true,
    and_true]
  exact ⟨powSig_normalized _, by decide⟩

theorem not_sameChoice_of_metric (hm : ix.metric = false) (words : Nat)
    (h : FitsBuffer [powSig words]) :
    ¬ SameChoice ix (powSig words) := by
  intro hs
  have hle : words ≤ BUFWORDS := by
    rw [fits_iff, powSig, List.length_cons, List.length_replicate] at h
    omega
  have hsame := hs.1 (twoChildren words) rfl (by simp [twoChildren]) (twoChildren_normalized words)
  rw [retrieveO_of_fits h, hm, pickChild_twoChildren_false, pickChild_twoChildren_true hle] at hsame
  simp [twoChildren, Node.isLeaf] at hsame

theorem not_sameChoice_of_not_fits (h : ¬ FitsBuffer [sig]) : ¬ SameChoice ix sig := by
  intro hs
  have hsame := hs.1 (twoChildren 0) rfl (by simp [twoChildren]) (twoChildren_normalized 0)
  rw [retrieveO_of_not_fits h] at hsame
  simp at hsame

/-- The variants agree on all signatures of some number of words just where the client goes by the
metric and the signatures fit the buffer of the filter. -/
theorem insertDocumentO_agrees_iff (ix : Index) (hw : 0 < words) :
    (∀ sig, Normalized sig → 1 ≤ fullDegree sig → sig.length = words → SameChoice ix sig) ↔
      ix.metric = true ∧ 3 + words ≤ BUFWORDS := by
  constructor
  · intro h
    have hlen : (powSig (words - 1)).length = words := by
      rw [powSig, List.length_cons, List.length_replicate]
      omega
    have hs := h (powSig (words - 1)) (powSig_normalized _) (by rw [fullDegree_powSig]; omega) hlen
    have hfits : FitsBuffer [powSig (words - 1)] := by
      by_contra hn
      exact not_sameChoice_of_not_fits hn hs
    refine ⟨?_, by rwa [fits_iff, hlen] at hfits⟩
    by_contra hm
    exact not_sameChoice_of_metric (by simpa using hm) _ hfits hs
  · rintro ⟨hm, hfits⟩ sig _ _ rfl
    exact sameChoice_of_fits hm (fits_iff.2 hfits)

theorem insertDocumentO_agrees_six :
    Normalized [6] ∧ 1 ≤ fullDegree [6] ∧ SameChoice smallIndex [6] :=
  ⟨by decide, by decide,
    (insertDocumentO_agrees_iff smallIndex Nat.one_pos).2 ⟨rfl, by decide⟩ [6] (by decide)
      (by decide) rfl⟩

def degreeIndex : Index := { smallIndex with metric := false }

theorem insertDocumentO_disagrees : Normalized [4] ∧ 1 ≤ fullDegree [4] ∧
    (retrieveO degreeIndex (twoChildren 0) [4]).bind Prod.snd = some [98] ∧
    pickChild NULL (twoChildren 0).entries [4] degreeIndex.metric = [97] ∧
    ¬ SameChoice degreeIndex [4] := by
  have hfits : FitsBuffer [powSig 0] := by decide
  refine ⟨by decide, by decide, ?_, pickChild_twoChildren_false 0,
    not_sameChoice_of_metric rfl 0 hfits⟩
  rw [show ([4] : Sig) = powSig 0 from rfl, retrieveO_of_fits hfits,
    pickChild_twoChildren_true (Nat.zero_le _)]
  rfl

end SameChoice

end XGossip
