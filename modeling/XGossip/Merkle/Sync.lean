import XGossip.Chord.IdUtils
import XGossip.Merkle.Canon

namespace XGossip
set_option autoImplicit true

section Lookup

/-- `lookup`: the node under a key at `max_depth`, or the leaf above it, and how deep it is. -/
def lookupAt (max_depth : Nat) (key : MerkleHash) : Nat → MerkleNode → Nat × MerkleNode
  | depth, .leaf count hash => (depth, .leaf count hash)
  | depth, .inner count hash entry =>
    if depth = max_depth then (depth, .inner count hash entry)
    else lookupAt max_depth key (depth + 1) (entry (branch key depth))

def MerkleTree.lookup (t : MerkleTree) (max_depth : Nat) (key : MerkleHash) : Nat × MerkleNode :=
  lookupAt max_depth key 0 t.root

def MerkleTree.lookupExact (t : MerkleTree) (depth : Nat) (key : MerkleHash) : Option MerkleNode :=
  let (realdepth, n) := t.lookup depth key
  if realdepth = depth then some n else none

end Lookup

section Server

/-- A node as the messages have it: the hashes of its children, or the keys of a leaf. -/
structure RpcNode where
  depth : Nat
  pre : MerkleHash
  isleaf : Bool
  count : Nat
  hash : MerkleHash
  child_hash : List MerkleHash

def formatRpcnode (t : MerkleTree) (depth : Nat) (pre : MerkleHash) :
    MerkleNode → Option RpcNode
  | .inner count hash entry =>
    some ⟨depth, pre, false, count, hash, List.ofFn fun i => (entry i).hash⟩
  | .leaf count hash =>
    let keys := databaseGetKeys t.keylist depth pre
    if keys.length = count then some ⟨depth, pre, true, count, hash, keys⟩ else none

def handleSendNode (t : MerkleTree) (depth : Nat) (pre : MerkleHash) : Option RpcNode := do
  let (lnode_depth, lnode) := t.lookup depth pre
  if lnode_depth = depth then
    formatRpcnode t lnode_depth (← clearSuffix pre lnode_depth) lnode
  else none

def getKeyrange (s : Keylist) (min max : Nat) (n : Nat) : List MerkleHash :=
  ((fromClosestsucc s.sorted min).take n).takeWhile fun k => betweenbothincl min max k.toNat

/-- Of the first 65 keys in the range 64 are returned, the last one says that there are more. -/
def handleGetKeys (t : MerkleTree) (rngmin rngmax : Nat) : List MerkleHash × Bool :=
  let keys := getKeyrange t.keylist rngmin rngmax 65
  (keys.take 64, keys.length = 65)

end Server

section Compare

/-- A call of `missingfnc`: the key, and whether it is missing here. -/
abbrev Missing := MerkleHash × Bool

/-- The loop over the local keys; `rkeys` is the table of remote keys in the range. -/
def compareLoop (rngmin rngmax : Nat) : List MerkleHash → List MerkleHash → List Missing
  | [], rkeys => rkeys.map (·, true)
  | k :: lkeys, rkeys =>
    if k ∉ rkeys ∧ betweenbothincl rngmin rngmax k.toNat then
      (k, false) :: compareLoop rngmin rngmax lkeys rkeys
    else compareLoop rngmin rngmax lkeys (rkeys.erase k)

def compareKeylists (lkeys vrkeys : List MerkleHash) (rngmin rngmax : Nat) : List Missing :=
  compareLoop rngmin rngmax lkeys (vrkeys.filter fun k => betweenbothincl rngmin rngmax k.toNat)

def overlap (l1 r1 l2 r2 : Nat) : Bool :=
  betweenbothincl l1 r1 l2 || betweenbothincl l1 r1 r2 ||
    betweenbothincl l2 r2 l1 || betweenbothincl l2 r2 r1

/-- `merkle_getkeyrange` -/
structure KeyRange where
  rngmin : Nat
  rngmax : Nat
  current : Nat
  lkeys : List MerkleHash

/-- Ask for the keys from `current` on, unless the range is done. -/
def KeyRange.go (r : KeyRange) : Option KeyRange :=
  if betweenbothincl r.rngmin r.rngmax r.current then some r else none

def KeyRange.sentmax (r : KeyRange) (keys : List MerkleHash) : Nat :=
  match keys.getLast? with
  | some k => k.toNat
  | none => r.rngmax

def KeyRange.getkeysCb (r : KeyRange) (keys : List MerkleHash) (morekeys : Bool) :
    List Missing × Option KeyRange :=
  let sentmax := r.sentmax keys
  let current := if morekeys then incID sentmax else incID r.rngmax
  (compareKeylists r.lkeys keys r.current sentmax, { r with current }.go)

def compareNodes (t : MerkleTree) (rngmin rngmax : Nat) (lnode : MerkleNode) (rnode : RpcNode) :
    List Missing × Option KeyRange :=
  let lkeys := databaseGetKeys t.keylist rnode.depth rnode.pre
  if rnode.isleaf then (compareKeylists lkeys rnode.child_hash rngmin rngmax, none)
  else if lnode.isleaf then
    let tmpmin := rnode.pre.toNat
    -- a slot has six bits, which the width of the node leaves out of account
    let node_width := 2 ^ (160 - rnode.depth)
    let tmpmax := tmpmin + node_width - 1
    let tmpmin := if between tmpmin tmpmax rngmin then rngmin else tmpmin
    let tmpmax := if between tmpmin tmpmax rngmax then rngmax else tmpmax
    ([], KeyRange.go ⟨tmpmin, tmpmax, tmpmin, lkeys⟩)
  else ([], none)

end Compare

section Syncer

structure SyncNet where
  ltree : MerkleTree
  rtree : MerkleTree
  rngmin : Nat
  rngmax : Nat

/-- The pending index nodes with the slot each of them has come to, the request for a node and the
requests for keys that are under way, and what has been reported. -/
structure Syncer where
  st : List (RpcNode × Nat)
  sending : Option (Nat × MerkleHash)
  ranges : List KeyRange
  missing : List Missing
  fatal_err : Bool
  sync_done : Bool

variable (net : SyncNet)

def sendnode (x : Syncer) (depth : Nat) (pre : MerkleHash) : Option Syncer := do
  let (lnode_depth, lnode) := net.ltree.lookup depth pre
  if lnode_depth = depth then
    let _ ← formatRpcnode net.ltree depth pre lnode
    return { x with sending := some (depth, pre) }
  else none

/-- The first of the `n` slots from `i` on that differs and is of interest, with its prefix. -/
def nextSlot (rnode : RpcNode) (entry : Fin 64 → MerkleNode) :
    Nat → Nat → Option (Option (Nat × MerkleHash))
  | 0, _ => some none
  | n + 1, i => do
    let remote ← rnode.child_hash[i]?
    let depth := rnode.depth + 1
    let pre ← writeSlot rnode.pre rnode.depth i
    let slot_rngmin := pre.toNat
    let slot_rngmax := slot_rngmin + 2 ^ (160 - 6 * depth) - 1
    if remote ≠ (entry (Fin.ofNat 64 i)).hash ∧
        overlap net.rngmin net.rngmax slot_rngmin slot_rngmax then
      return some (i, pre)
    else nextSlot rnode entry n (i + 1)

def Syncer.next (x : Syncer) : List (RpcNode × Nat) → Option Syncer
  | [] => some { x with st := [], sync_done := true }
  | (rnode, second) :: st => do
    match ← net.ltree.lookupExact rnode.depth rnode.pre with
    | .leaf .. => none
    | .inner _ _ entry =>
      match ← nextSlot net rnode entry (64 - second) second with
      | some (i, pre) => sendnode net { x with st := (rnode, i + 1) :: st } (rnode.depth + 1) pre
      | none => Syncer.next x st

def sendnodeCb (x : Syncer) (rnode : RpcNode) : Option Syncer := do
  let lnode ← net.ltree.lookupExact rnode.depth rnode.pre
  let (missing, range) := compareNodes net.ltree net.rngmin net.rngmax lnode rnode
  let x := { x with missing := x.missing ++ missing, ranges := x.ranges ++ range.toList }
  if x.sync_done ∨ x.fatal_err then none
  else if !lnode.isleaf ∧ !rnode.isleaf then Syncer.next net x ((rnode, 0) :: x.st)
  else Syncer.next net x x.st

inductive SyncEvent where
  | node
  | nodeErr
  | keys (i : Nat)
  | keysErr (i : Nat)
deriving DecidableEq

def Syncer.handle (x : Syncer) : SyncEvent → Option Syncer
  | .node =>
    match x.sending with
    | none => some x
    | some (depth, pre) => do
      sendnodeCb net { x with sending := none } (← handleSendNode net.rtree depth pre)
  | .nodeErr =>
    match x.sending with
    | none => some x
    | some _ => some { x with sending := none, fatal_err := true, sync_done := true }
  | .keys i =>
    match x.ranges[i]? with
    | none => some x
    | some r =>
      let (keys, morekeys) := handleGetKeys net.rtree r.current r.rngmax
      let (missing, r') := r.getkeysCb keys morekeys
      some { x with
        missing := x.missing ++ missing
        ranges := x.ranges.eraseIdx i ++ r'.toList }
  | .keysErr i => some { x with ranges := x.ranges.eraseIdx i }

/-- `sync`: start at the root of the merkle tree. -/
def startSync : Option Syncer := sendnode net ⟨[], none, [], [], false, false⟩ 0 0

def runSync (events : List SyncEvent) : Option Syncer := do
  events.foldlM (Syncer.handle net) (← startSync net)

end Syncer

end XGossip
