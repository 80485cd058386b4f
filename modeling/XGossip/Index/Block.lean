import XGossip.Index.Poly
import XGossip.Wire.RoundTrip

namespace XGossip
set_option autoImplicit true

open Codec

/-- The part of the unit interval that a node stands for, its level and its random number. -/
structure Interval where
  ln : BitVec 32
  ld : BitVec 32
  rn : BitVec 32
  rd : BitVec 32
  level : BitVec 32
  random : BitVec 32
deriving DecidableEq

/-- `Interval::operator==`, which does not look at the random number. -/
def Interval.eqv (a b : Interval) : Bool :=
  a.ln = b.ln ∧ a.ld = b.ld ∧ a.rn = b.rn ∧ a.rd = b.rd ∧ a.level = b.level

theorem eqv_refl (int : Interval) : int.eqv int := by simp [Interval.eqv]

inductive DhashStat where
  | DHASH_OK | DHASH_NOTFIRST | DHASH_FULL | DHASH_RETRYINSERT | DHASH_CORRUPTHDR | DHASH_ERR
deriving DecidableEq

abbrev Block := List (List Byte)

structure Server where
  MAXENTRIES : Nat
  pos : 0 < MAXENTRIES
  /-- Whether a header's key is the hash that marks a root. -/
  isROOT : List Byte → Bool
  gdiscard : Bool
  /-- Whether the socket of the gossip process accepts the connection. -/
  connects : Bool

/-- The memory a string or a message is built in has an `int` for its length. -/
def alloc (bs : List Byte) : Option (List Byte) := if bs.length < 2 ^ 31 then some bs else none

/-- `makeKeyValue` of a key and a signature. -/
def makeKeyValue (key : List Byte) (sig : Sig) (type : InsertType) : Option (List Byte) :=
  if type = .NONE then alloc (strBytes key ++ sigBytes sig)
  else alloc (intBytes type.code ++ (strBytes key ++ sigBytes sig))

def intervalBytes (val : Interval) : List Byte :=
  [val.ln, val.ld, val.rn, val.rd, val.level, val.random].flatMap intBytes

/-- `makeKeyValue` of a header. -/
def makeHeader (key : List Byte) (val : Interval) : Option (List Byte) :=
  alloc (strBytes key ++ strBytes (intervalBytes val))

/-- `makeKeyValue` of a header with the type of the message in front. -/
def makeHeaderMsg (key : List Byte) (val : Interval) (type : InsertType) : Option (List Byte) :=
  alloc (intBytes type.code ++ (strBytes key ++ strBytes (intervalBytes val)))

/-- `getKeyValue` of an entry. -/
def getKeyValue (ptr : List Byte) : Option (List Byte × Sig) :=
  (runReader (do return (← getStr, ← getSig)) ptr).map Prod.fst

/-- `getKeyValue` of an element with the value left as it is. -/
def getKeyValueStr (ptr : List Byte) : Option (List Byte × List Byte) :=
  (runReader (do return (← getStr, ← getStr)) ptr).map Prod.fst

/-- Read from a pointer into a body; in front of the body this is an error. -/
def readAt (r : Reader α) (body : List Byte) (pos : Int) : Option α :=
  if 0 ≤ pos then (runReader r (body.drop pos.toNat)).map Prod.fst else none

/-- `getKeyValueSpecial`: only the key. -/
def getKeyValueSpecial (body : List Byte) (pos : Int) : Option (List Byte) := readAt getStr body pos

def getInterval (s : List Byte) : Option Interval := do
  match (runReader (repeatM getInt 6) s).map Prod.fst with
  | some [ln, ld, rn, rd, level, random] => some ⟨ln, ld, rn, rd, level, random⟩
  | _ => none

def getHeaderElem (elem : List Byte) : Option (List Byte × Interval) := do
  let (key, value) ← getKeyValueStr elem
  return (key, ← getInterval value)

/-- The entries that `ids` selects; negative ids are skipped. -/
def selectIds (entries : Block) (ids : List Int) : Option Block :=
  (ids.filter (0 ≤ ·)).mapM fun id => entries[id.toNat]?

/-- `makeKeyValue` of a list of entries of a node. -/
def makeSplit (entries : Block) (ids : List Int) (type : InsertType) : Option (List Byte) := do
  let items ← selectIds entries ids
  alloc (intBytes type.code ++ items.flatMap strBytes)

/-- The keys of the entries instead of the entries, with one more size in front of each. -/
def makeKeyValueSpecial (entries : Block) (ids : List Int) (type : InsertType) :
    Option (List Byte) := do
  let items ← selectIds entries ids
  let keys ← items.mapM fun e => (getKeyValueStr e).map Prod.fst
  alloc (intBytes type.code ++ (keys.map strBytes).flatMap strBytes)

/-- `strstr(key.cstr(), "#")` -/
def containsHash (key : List Byte) : Bool := (key.takeWhile (· ≠ 0)).contains 35

/-- Widen the interval `src` by the interval `e`; both have two words. -/
def updateMBR : Sig → Sig → Sig
  | s₀ :: s₁ :: s, e₀ :: e₁ :: _ =>
    (if e₀ < s₀ then e₀ else s₀) :: (if e₁ > s₁ then e₁ else s₁) :: s
  | s, _ => s

/-- The signature of an entry after an update of one of the five types. -/
def updatedSig (type : InsertType) (childSig newSig : Sig) : Sig :=
  if type = .UPDATE ∨ type = .UPDATEIFPRESENT then lcm childSig newSig
  else if type = .UPDATEVAL ∨ type = .UPDATEVALIFPRESENT then updateMBR childSig newSig
  else newSig

/-- One round of the loop over the entries, and whether it has found the key. -/
def updateElem (type : InsertType) (newKey : List Byte) (newSig : Sig) (elem : List Byte) :
    Option (List Byte × Bool) := do
  let (childKey, childSig) ← getKeyValue elem
  if childKey = newKey then
    return (← makeKeyValue childKey (updatedSig type childSig newSig) .NONE, true)
  else return (elem, false)

def adjustUpdate (srv : Server) (type : InsertType) (newElem : List Byte) :
    Block → Option (Block × DhashStat)
  | [] => some ([], .DHASH_CORRUPTHDR)
  | hdr :: elems => do
    let (newKey, newSig) ← getKeyValue newElem
    let (_, currInt) ← getHeaderElem hdr
    if currInt.level.toInt > 0 ∧ containsHash newKey then
      return (hdr :: elems, .DHASH_RETRYINSERT)
    else if currInt.level = 0 ∧ containsHash newKey ∧ currInt.random = -1 then
      return (hdr :: elems, .DHASH_RETRYINSERT)
    else
      let updated ← elems.mapM (updateElem type newKey newSig)
      let elems := updated.map Prod.fst
      if updated.any Prod.snd then return (hdr :: elems, .DHASH_OK)
      else if type = .UPDATEIFPRESENT then return (hdr :: elems, .DHASH_OK)
      else if elems.length + 1 > srv.MAXENTRIES then return (hdr :: elems, .DHASH_FULL)
      else return (hdr :: elems ++ [newElem], .DHASH_OK)

def narrowInt (currInt newInt : Interval) : Interval :=
  if (newInt.rn * currInt.rd).toInt < (newInt.rd * currInt.rn).toInt then
    { currInt with rn := newInt.rn, rd := newInt.rd }
  else currInt

def raiseInt (currInt newInt : Interval) : Interval :=
  let random :=
    if currInt.level = 0 ∧ newInt.level = 1 ∧ currInt.random = -1 then newInt.random
    else currInt.random
  let level := if currInt.level.toInt < newInt.level.toInt then newInt.level else currInt.level
  -- a root at level 0 that is being split takes no more docids
  let random := if newInt.level = level ∧ level = 0 ∧ newInt.random = -1 then newInt.random else random
  { currInt with level, random }

/-- The interval of a header that receives `newInt`. -/
def updateInt (isROOT : Bool) (currInt newInt : Interval) : Interval :=
  let currInt := narrowInt currInt newInt
  if isROOT then raiseInt currInt newInt else currInt

def adjustHeader (srv : Server) (type : InsertType) (newElem : List Byte) :
    Block → Option (Block × DhashStat)
  | [] =>
    if type = .UPDATEHDRLOCK then some ([newElem], .DHASH_OK) else some ([], .DHASH_RETRYINSERT)
  | hdr :: elems => do
    let (currKey, currInt) ← getHeaderElem hdr
    let (_, newInt) ← getHeaderElem newElem
    if type = .UPDATEHDRLOCK then return (hdr :: elems, .DHASH_NOTFIRST)
    else if newInt.ld = currInt.ld ∧ newInt.ln = currInt.ln then
      let hdr ← makeHeader currKey (updateInt (srv.isROOT currKey) currInt newInt)
      return (hdr :: elems, .DHASH_OK)
    else return (hdr :: elems, .DHASH_CORRUPTHDR)

/-- The loop that looks for a key among the items of a body. It visits no offset twice unless it
runs forever, so that it is given one round more than the body has bytes. -/
def isPresentLoop (childKey body : List Byte) : Nat → Int → Option Bool
  | 0, _ => none
  | n + 1, pos =>
    if pos < body.length then do
      let entryLen ← readAt getInt body pos
      let keyToDelete ← getKeyValueSpecial body (pos + 4)
      if childKey = keyToDelete then return true
      isPresentLoop childKey body n (pos + 4 + entryLen.toInt)
    else some false

def addItemsLoop (body : List Byte) : Nat → Int → Option Block
  | 0, _ => none
  | n + 1, pos =>
    if pos < body.length then do
      let entryLen ← readAt getInt body pos
      let entryToAdd ← readAt getStr body pos
      return entryToAdd :: (← addItemsLoop body n (pos + 4 + entryLen.toInt))
    else some []

def deleteItems (body : List Byte) (elems : Block) : Option Block := do
  let isPresent ← elems.mapM fun elem => do
    let (childKey, _) ← getKeyValueStr elem
    return (elem, ← isPresentLoop childKey body (body.length + 1) 0)
  return (isPresent.filter (!·.2)).map Prod.fst

/-- Splitting a node: a full node loses the entries in the message, an empty one receives them. -/
def adjustSplit (srv : Server) (newElem : List Byte) (old : Block) : Option (Block × DhashStat) :=
  if old.length > srv.MAXENTRIES then do
    return (old.take 1 ++ (← deleteItems newElem old.tail), .DHASH_OK)
  else if old.length = 1 then do
    return (old ++ (← addItemsLoop newElem (newElem.length + 1) 0), .DHASH_OK)
  else some (old, .DHASH_OK)

/-- Merge an entry of a replica into the entries: the first one with its key takes it in. -/
def mergeEntry (newKey : List Byte) (newSig : Sig) : Block → Option (Block × Bool)
  | [] => some ([], false)
  | elem :: elems => do
    let (oldKey, oldSig) ← getKeyValue elem
    if newKey = oldKey then
      return ((← makeKeyValue oldKey (lcm oldSig newSig) .NONE) :: elems, true)
    else
      let (elems, found) ← mergeEntry newKey newSig elems
      return (elem :: elems, found)

def mergeEntries (srv : Server) : Block → Block → Option Block
  | [], elems => some elems
  | new :: news, elems => do
    let (newKey, newSig) ← getKeyValue new
    let (elems, found) ← mergeEntry newKey newSig elems
    mergeEntries srv news <|
      if found ∨ elems.length + 1 > srv.MAXENTRIES then elems else elems ++ [new]

/-- Whole blocks: the same version of a node is merged, an older version is replaced. -/
def adjustReplica (srv : Server) (new : Block) : Block → Option (Block × DhashStat)
  | [] => some (new, .DHASH_OK)
  | hdr :: elems => do
    let newHdr ← new.head?
    let (_, currInt) ← getHeaderElem hdr
    let (_, newInt) ← getHeaderElem newHdr
    if newInt.eqv currInt then
      return (hdr :: (← mergeEntries srv new.tail elems), .DHASH_OK)
    else if (newInt.rn * currInt.rd).toInt < (newInt.rd * currInt.rn).toInt ∧
        newInt.level = currInt.level then
      return (new, .DHASH_OK)
    else if newInt.level.toInt > currInt.level.toInt then return (new, .DHASH_OK)
    else none

/-- The messages that the server hands on to the gossip process. -/
def gossipTypes : List InsertType :=
  [.VXGOSSIP, .VXGOSSIPC, .XGOSSIP, .XGOSSIPC, .BCAST, .BCASTC, .INITGOSSIP, .INFORMTEAM,
    .QUERYS, .QUERYX, .QUERYXP]

/-- A message of one element: the type field decides how the node is updated. -/
def adjustNode (srv : Server) (type : BitVec 32) (elem : List Byte) (old : Block) :
    Option (Block × DhashStat) :=
  let newElem := elem.drop 4
  if type = InsertType.UPDATE.code then adjustUpdate srv .UPDATE newElem old
  else if type = InsertType.UPDATEIFPRESENT.code then adjustUpdate srv .UPDATEIFPRESENT newElem old
  else if type = InsertType.UPDATEVAL.code then adjustUpdate srv .UPDATEVAL newElem old
  else if type = InsertType.UPDATEVALIFPRESENT.code then
    adjustUpdate srv .UPDATEVALIFPRESENT newElem old
  else if type = InsertType.REPLACESIG.code then adjustUpdate srv .REPLACESIG newElem old
  else if type = InsertType.UPDATEHDRLOCK.code then adjustHeader srv .UPDATEHDRLOCK newElem old
  else if type = InsertType.UPDATEHDR.code then adjustHeader srv .UPDATEHDR newElem old
  else if type = InsertType.SPLIT.code then adjustSplit srv newElem old
  else if type = InsertType.JUSTAPPEND.code then
    if old = [] then some ([], .DHASH_CORRUPTHDR) else some (old ++ [newElem], .DHASH_OK)
  else if type.toInt > 0 then
    if old.length > srv.MAXENTRIES then some (old, .DHASH_FULL)
    else some (old ++ [elem], .DHASH_OK)
  else some (old, .DHASH_OK)

/-- `dhblock_noauth_srv::adjust_data`: the block after a message, and the answer. An assertion
that fails, memory that cannot be allocated and reads outside of an element give `none`. -/
def adjustData (srv : Server) (new old : Block) : Option (Block × DhashStat) := do
  let elem ← new.head?
  let (type, _) ← runReader getInt elem
  if type ∈ gossipTypes.map InsertType.code then
    return ([], if srv.gdiscard ∨ !srv.connects then .DHASH_ERR else .DHASH_OK)
  else if new.length > 1 then adjustReplica srv new old
  else adjustNode srv type elem old

end XGossip
