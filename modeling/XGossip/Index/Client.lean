import XGossip.Index.Node
import XGossip.Index.Similarity

namespace XGossip
set_option autoImplicit true

open Codec

inductive DHTStatus where
  | SUCC | FULL | FAIL | NODESPLIT | REINSERT | FIRST | NOTFIRST | CORRUPTHDR | RETRY
deriving DecidableEq

def store_cb : DhashStat → DHTStatus
  | .DHASH_NOTFIRST => .NOTFIRST
  | .DHASH_FULL => .FULL
  | .DHASH_RETRYINSERT => .RETRY
  | .DHASH_CORRUPTHDR => .CORRUPTHDR
  | .DHASH_ERR => .FAIL
  | .DHASH_OK => .SUCC

/-- `stat == FAIL || stat == FULL || stat == CORRUPTHDR || stat == RETRY` -/
def DHTStatus.failed (stat : DHTStatus) : Bool :=
  stat = .FAIL ∨ stat = .FULL ∨ stat = .CORRUPTHDR ∨ stat = .RETRY

def RAND_MAX : Nat := 2147483647

abbrev Client := Prog Key Node Msg DhashStat (Fin RAND_MAX)

def retrieveDHT (ID : Key) : Client (Option Node) := .read ID .ret

def insertDHT (ID : Key) (value : Msg) : Client DHTStatus :=
  .send ID value fun stat => .ret (store_cb stat)

/-- `randomNumGen(RAND_MAX)` -/
def randomNumGen : Client (BitVec 32) := .draw fun r => .ret (BitVec.ofNat 32 (r + 1))

def insertThen (ID : Key) (value : Msg) (next : Client DHTStatus) : Client DHTStatus := do
  let stat ← insertDHT ID value
  if stat.failed then return .FAIL else next

/-- Update the header of a node and verify that it has actually changed; as long as the node cannot
be read, again. -/
def updateHeader (ID : Key) (nodeType : NodeType) (myInt : Interval) (done : DHTStatus) :
    Nat → Client DHTStatus
  | 0 => .stop
  | fuel + 1 => insertThen ID (.updateHdr nodeType myInt) do
    match ← retrieveDHT ID with
    | none => updateHeader ID nodeType myInt done fuel
    | some n => if n.int.eqv myInt then return done else return .REINSERT

def awaitHeader (ID : Key) (nodeInt : Interval) (done : DHTStatus) : Nat → Client DHTStatus
  | 0 => return .FAIL
  | attempts + 1 => do
    match ← retrieveDHT ID with
    | none => return .FAIL
    | some n => if nodeInt.eqv n.int then awaitHeader ID nodeInt done attempts else return done

/-- The full node that a client splits, as it has read it, and its groups. -/
structure SplitJob where
  ID : Key
  node : Node
  groups : Groups

def SplitJob.select (j : SplitJob) (group : List Nat) : List (Key × Sig) :=
  group.filterMap fun p => j.node.entries[p - 1]?

def SplitJob.items1 (j : SplitJob) : List (Key × Sig) := j.select j.groups.group1

def SplitJob.items2 (j : SplitJob) : List (Key × Sig) := j.select j.groups.group2

/-- Read the node, make sure that it is full and still has the old header, and group its entries. -/
def readFull (ix : Index) (ID : Key) (oldInt : Interval) (next : SplitJob → Client DHTStatus) :
    Client DHTStatus := do
  match ← retrieveDHT ID with
  | none => return .FAIL
  | some n =>
    -- Already split!!! so don't do anything more...
    if !ix.full n then return .FAIL
    else if !oldInt.eqv n.int then return .FAIL
    else
      match splitNode ix.MAXENTRIES ix.metric (n.entries.map Prod.snd) with
      | none => .stop
      | some g => next ⟨ID, n, g⟩

section PerformSplit

/-- The interval of the new sibling, which begins at the mediant. -/
def SplitJob.mySiblingInt (j : SplitJob) (random : BitVec 32) : Interval :=
  let nodeInt := j.node.int
  ⟨nodeInt.ln + nodeInt.rn, nodeInt.ld + nodeInt.rd, nodeInt.rn, nodeInt.rd, nodeInt.level, random⟩

def SplitJob.siblingID (ix : Index) (j : SplitJob) : Key :=
  let int := j.mySiblingInt 0
  ix.nodeID int.level int.ln int.ld

def SplitJob.myInt (j : SplitJob) : Interval :=
  let int := j.mySiblingInt 0
  { j.node.int with rn := int.ln, rd := int.ld }

def SplitJob.header (j : SplitJob) (fuel : Nat) : Client DHTStatus :=
  updateHeader j.ID j.node.nodeType j.myInt .SUCC fuel

/-- step 4: Next delete the moved contents from the original node -/
def SplitJob.delete (j : SplitJob) (fuel : Nat) : Client DHTStatus :=
  insertThen j.ID (.splitSpecial (j.items2.map Prod.fst)) (j.header fuel)

def SplitJob.replace (j : SplitJob) (pID : Key) (fuel : Nat) : Client DHTStatus :=
  insertThen pID (.update .REPLACESIG j.ID j.groups.lcm1) (j.delete fuel)

def SplitJob.link (ix : Index) (j : SplitJob) (pID : Key) (fuel : Nat) : Client DHTStatus :=
  insertThen pID (.update .UPDATE (j.siblingID ix) j.groups.lcm2) (j.replace pID fuel)

def SplitJob.fill (ix : Index) (j : SplitJob) (pID : Key) (fuel : Nat) : Client DHTStatus :=
  insertThen (j.siblingID ix) (.split j.items2) (j.link ix pID fuel)

def SplitJob.create (ix : Index) (j : SplitJob) (pID : Key) (fuel : Nat) (random : BitVec 32) :
    Client DHTStatus := do
  let stat ← insertDHT (j.siblingID ix) (.updateHdrLock j.node.nodeType (j.mySiblingInt random))
  if stat.failed then return .FAIL
  -- This peer has authority to finish the split
  else if stat ≠ .NOTFIRST then j.fill ix pID fuel
  else awaitHeader j.ID j.node.int .SUCC 6

def performSplit (ix : Index) (fuel : Nat) (ID : Key) (oldInt : Interval) (pID : Key) :
    Client DHTStatus :=
  readFull ix ID oldInt fun j => do
    let random ← randomNumGen
    j.create ix pID fuel random

end PerformSplit

section PerformSplitRoot

def SplitJob.firstNodeInt (j : SplitJob) (random : BitVec 32) : Interval :=
  ⟨0, 1, 1, 2, j.node.int.level, random⟩

def SplitJob.secondNodeInt (j : SplitJob) (random : BitVec 32) : Interval :=
  ⟨1, 2, 1, 1, j.node.int.level, random⟩

def SplitJob.firstNodeID (ix : Index) (j : SplitJob) : Key := ix.nodeID j.node.int.level 0 1

def SplitJob.secondNodeID (ix : Index) (j : SplitJob) : Key := ix.nodeID j.node.int.level 1 2

/-- If root was leaf before, then its children should be leaf too -/
def SplitJob.newNodeType (j : SplitJob) : NodeType :=
  if j.node.int.level = 0 then .LEAF else .NONLEAF

def SplitJob.rootInt (j : SplitJob) : Interval :=
  { j.node.int with level := j.node.int.level + 1 }

def SplitJob.rootHeader (j : SplitJob) (fuel : Nat) : Client DHTStatus :=
  updateHeader j.ID j.node.nodeType j.rootInt .NODESPLIT fuel

def SplitJob.rootLinks (ix : Index) (j : SplitJob) (fuel : Nat) : Client DHTStatus :=
  insertThen j.ID (.update .UPDATE (j.firstNodeID ix) j.groups.lcm1) <|
  insertThen j.ID (.update .UPDATE (j.secondNodeID ix) j.groups.lcm2) (j.rootHeader fuel)

/-- step 5: Next delete all the contents from the original node -/
def SplitJob.rootDelete (ix : Index) (j : SplitJob) (fuel : Nat) : Client DHTStatus :=
  insertThen j.ID (.splitSpecial ((j.items1 ++ j.items2).map Prod.fst)) (j.rootLinks ix fuel)

/-- If splitting a ROOT at level = 0, this is required to avoid docids being inserted into the
node. -/
def SplitJob.rootClose (ix : Index) (j : SplitJob) (fuel : Nat) : Client DHTStatus :=
  if j.node.int.level = 0 then
    insertThen j.ID (.updateHdr j.node.nodeType { j.node.int with random := -1 })
      (j.rootDelete ix fuel)
  else j.rootDelete ix fuel

/-- step 3: Create the second node, and step 4: Insert contents to the newly created node... -/
def SplitJob.second (ix : Index) (j : SplitJob) (fuel : Nat) (random : BitVec 32) :
    Client DHTStatus := do
  let stat ← insertDHT (j.secondNodeID ix) (.updateHdrLock j.newNodeType (j.secondNodeInt random))
  if stat.failed then return .FAIL
  else if stat = .NOTFIRST then return .REINSERT
  else insertThen (j.secondNodeID ix) (.split j.items2) (j.rootClose ix fuel)

/-- step 1: Create sibling node, and step 2: Insert contents to the newly created node... -/
def SplitJob.first (ix : Index) (j : SplitJob) (fuel : Nat) (random1 random2 : BitVec 32) :
    Client DHTStatus := do
  let stat ← insertDHT (j.firstNodeID ix) (.updateHdrLock j.newNodeType (j.firstNodeInt random1))
  if stat.failed then return .FAIL
  -- This peer has authority to finish the split
  else if stat ≠ .NOTFIRST then
    insertThen (j.firstNodeID ix) (.split j.items1) (j.second ix fuel random2)
  else awaitHeader j.ID j.node.int .NODESPLIT 6

/-- split the root node with only one peer authorized to do it -/
def performSplitRoot (ix : Index) (fuel : Nat) (ID : Key) (oldInt : Interval) : Client DHTStatus :=
  readFull ix ID oldInt fun j => do
    let random1 ← randomNumGen
    let random2 ← randomNumGen
    j.first ix fuel random1 random2

end PerformSplitRoot

section InsertDocument

/-- The full nodes on the way to a leaf and their headers, the leaf first. -/
abbrev FullNodes := List (Key × Interval)

def splitFullNodes (ix : Index) (fuel : Nat) : Key → FullNodes → Client DHTStatus
  | _, [] => return .REINSERT
  | pID, (ID, int) :: rest => do
    if (← performSplit ix fuel ID int pID) = .FAIL then return .FAIL
    else splitFullNodes ix fuel ID rest

def NULL : Key := [78, 85, 76, 76]

/-- What is left to do in a node after the insertion into its child. -/
def afterChild (ix : Index) (fuel : Nat) (ID : Key) (n : Node) (childID : Key) (sig : Sig) :
    DHTStatus × FullNodes → Client (DHTStatus × FullNodes)
  | (.NODESPLIT, fullNodes) => do
    if n.nodeType ≠ .ROOT ∧ ix.full n then return (.NODESPLIT, fullNodes ++ [(ID, n.int)])
    else if n.nodeType = .ROOT ∧ ix.full n then
      if (← performSplitRoot ix fuel ID n.int) = .FAIL then return (.FAIL, fullNodes)
      else return (← splitFullNodes ix fuel ID fullNodes, fullNodes)
    else return (← splitFullNodes ix fuel ID fullNodes, fullNodes)
  | (.SUCC, fullNodes) => do
    let stat ← insertDHT ID (.update .UPDATEIFPRESENT childID sig)
    if stat.failed then return (.FAIL, fullNodes) else return (.SUCC, fullNodes)
  | result => return result

/-- Inserts a document signature into a dynamic signature index. -/
def insertDocument (ix : Index) (sig : Sig) (docid : Key) :
    Nat → Key → Client (DHTStatus × FullNodes)
  | 0, _ => .stop
  | fuel + 1, ID => do
    match ← retrieveDHT ID with
    | none => return (.FAIL, [])
    | some n =>
      if n.isLeaf then
        if ix.full n then
          if n.nodeType = .LEAF then return (.NODESPLIT, [(ID, n.int)])
          else if (← performSplitRoot ix fuel ID n.int) = .FAIL then return (.FAIL, [])
          else return (.REINSERT, [])
        else
          let stat ← insertDHT ID (.update .UPDATE docid sig)
          if stat ≠ .SUCC then return (.FAIL, []) else return (.SUCC, [])
      else
        let childID := pickChild NULL n.entries sig ix.metric
        if childID = NULL then return (.FAIL, [])
        else
          let result ← insertDocument ix sig docid fuel childID
          afterChild ix fuel ID n childID sig result

def createEmptyIndexO (ix : Index) : Client DHTStatus := do
  let random ← randomNumGen
  let stat ← insertDHT ix.rootID (.updateHdrLock .ROOT ⟨0, 1, 1, 1, 0, random⟩)
  if stat.failed then return .FAIL
  else if stat ≠ .NOTFIRST then return .SUCC
  else
    match ← retrieveDHT ix.rootID with
    | none => return .FAIL
    | some _ => return .SUCC

end InsertDocument

section QueryProcess

def MAXSIGSPERQUERY : Nat := 50

/-- The loop over the signatures of a query: those from the first one on that divides the entry. -/
def divideSigs (entrySig : Sig) : Nat → List Sig → Option (List Sig)
  | n + 1, sig :: listOfSigs =>
    if fullDegree entrySig ≥ fullDegree sig ∧ remainder entrySig sig = [0] then
      some (sig :: listOfSigs)
    else divideSigs entrySig n listOfSigs
  | _, _ => none

structure Visit where
  listOfVisitedNodes : List Key
  docs : List Key

def queryProcess (σ : Store) : Nat → List Sig → Visit → Key → Option Visit
  | 0, _, _, _ => none
  | fuel + 1, listOfSigs, v, nodeID =>
    if nodeID ∈ v.listOfVisitedNodes then some v
    else
      match σ nodeID with
      | none => some v
      | some n =>
        n.entries.foldlM (fun v e =>
          match divideSigs e.2 MAXSIGSPERQUERY listOfSigs with
          | none => some v
          | some newListOfSigs =>
            if n.isLeaf then some { v with docs := v.docs ++ [e.1] }
            else queryProcess σ fuel newListOfSigs v e.1)
          { v with listOfVisitedNodes := nodeID :: v.listOfVisitedNodes }

def query (ix : Index) (σ : Store) (fuel : Nat) (sig : Sig) : Option (List Key) :=
  (queryProcess σ fuel [sig] ⟨[], []⟩ ix.rootID).map Visit.docs

end QueryProcess

end XGossip
