import XGossip.Lib.Codec
import XGossip.NodeParams
import XGossip.Sig

namespace XGossip
set_option autoImplicit true

open Codec

/-- The bit pattern of a `double`. -/
abbrev Double := BitVec 64

def intBytes (n : BitVec 32) : List Byte := toLE 4 n.toNat

def doubleBytes (d : Double) : List Byte := toLE 8 d.toNat

/-- A size as the `int` it is assigned to. -/
def sizeInt (n : Nat) : BitVec 32 := BitVec.ofNat 32 n

def putStr (s : List Byte) : Writer Unit := do
  let len := sizeInt s.length
  put (intBytes len)
  if len.toInt < 0 then failure
  put (s.take len.toNat)

/-- The length of a signature in bytes and its POLYs, which are stored ahead of the pointer. -/
def putSig (sig : Sig) : Writer Unit := do
  let sigLen := sizeInt (sig.length * 4)
  put (intBytes sigLen)
  copy ((sig.take (sizeInt sig.length).toInt.toNat).flatMap intBytes)
  move sigLen.toInt

def putHeader (type : InsertType) (len : BitVec 32) (key teamid : List Byte) : Writer Unit := do
  put (intBytes type.code)
  put (intBytes len)
  putStr key
  putStr teamid

/-- Allocate `len` bytes and fill them. -/
def build (len : BitVec 32) (w : Writer Unit) : Option (BitVec 32 × List (Option Byte)) :=
  if len.toInt < 0 then none else (runWriter len.toNat w).map (len, ·)

/-- `(int) ceil(n/8.0)` -/
def ceil8 (n : BitVec 32) : Int := -(-n.toInt / 8)

/-- `makeKeyValue` of the exec phase; the map is given by its entries in order. -/
def makeKeyValueExec (key teamid : List Byte) (sigList : List (Sig × Double × Double))
    (seq : BitVec 32) (type : InsertType) : Option (BitVec 32 × List (Option Byte)) :=
  let len := 4 + 4 + 4 + sizeInt key.length + 4 + sizeInt teamid.length + 4 + 4
  let len := sigList.foldl (fun len e => len + (4 + sizeInt (e.1.length * 4) + 8 + 8)) len
  build len do
    putHeader type len key teamid
    put (intBytes seq)
    put (intBytes (sizeInt sigList.length))
    sigList.forM fun e => do
      putSig e.1
      put (doubleBytes e.2.1)
      put (doubleBytes e.2.2)

/-- The loop over the compressed list; a missing row is read out of bounds. -/
def putRows : List POLY → List (List Byte) → Writer Unit
  | [], _ => pure ()
  | _ :: _, [] => failure
  | p :: ps, row :: rows => do
    put (intBytes p)
    (row.take (sizeInt row.length).toInt.toNat).forM fun b => put [b]
    putRows ps rows

/-- `makeKeyValue` of the exec phase with compressed signatures. -/
def makeKeyValueCompressed (key teamid : List Byte) (compressedList : List POLY)
    (outBitmap : List (List Byte)) (freqList weightList : List Double) (seq : BitVec 32)
    (type : InsertType) : Option (BitVec 32 × List (Option Byte)) :=
  if freqList.length ≠ weightList.length then none
  else
    let sigListLen := sizeInt freqList.length
    let compressedListLen := sizeInt compressedList.length
    let len := 4 + 4 + 4 + sizeInt key.length + 4 + sizeInt teamid.length + 4
    let len := len + (4 + 4 + compressedListLen * (4 + BitVec.ofInt 32 (ceil8 sigListLen)))
    let len := len + 2 * sigListLen * 8
    build len do
      putHeader type len key teamid
      put (intBytes seq)
      put (intBytes sigListLen)
      put (intBytes compressedListLen)
      putRows (compressedList.take compressedListLen.toInt.toNat) outBitmap
      ((freqList.zip weightList).take sigListLen.toInt.toNat).forM fun e => do
        put (doubleBytes e.1)
        put (doubleBytes e.2)

/-- `makeKeyValue` of the initialisation phase. -/
def makeKeyValueInit (key teamid : List Byte) (sig : Sig) (freq weight : Double)
    (type : InsertType) : Option (BitVec 32 × List (Option Byte)) :=
  let len := 4 + 4 + 4 + sizeInt key.length + 4 + sizeInt teamid.length + 4 +
    sizeInt (sig.length * 4) + 8 + 8
  build len do
    putHeader type len key teamid
    putSig sig
    put (doubleBytes freq)
    put (doubleBytes weight)

/-- `makeKeyValue` of a query. -/
def makeKeyValueQuery (key teamid dtd : List Byte) (sig : Sig) (qid : BitVec 32)
    (type : InsertType) : Option (BitVec 32 × List (Option Byte)) :=
  let len := 4 + 4 + 4 + sizeInt key.length + 4 + sizeInt teamid.length + 4 +
    sizeInt dtd.length + 4 + sizeInt (sig.length * 4) + 4
  build len do
    putHeader type len key teamid
    putStr dtd
    putSig sig
    put (intBytes qid)

def getInt : Reader (BitVec 32) := do
  return BitVec.ofNat 32 (ofLE (← get 4))

def getDouble : Reader Double := do
  return BitVec.ofNat 64 (ofLE (← get 8))

def getStr : Reader (List Byte) := do
  let len ← getInt
  if len.toInt < 0 then failure
  get len.toNat

/-- The POLYs are read ahead of the pointer, which then moves by the length as it was read. -/
def getSig : Reader Sig := do
  let sigLen ← getInt
  let base ← tell
  let sig ← repeatM getInt (sigLen.toInt.tdiv 4).toNat
  seek (base + sigLen.toInt)
  return sig

def getKeyValueType : Reader (BitVec 32) := getInt

def getKeyValueLen : Reader (BitVec 32) := do
  seek 4
  getInt

/-- The part all formats begin with; `none` is the return value -1. -/
def getHeader (recvlen : BitVec 32) (body : List Byte → List Byte → Reader α) :
    Reader (Option α) := do
  let _msgType ← getInt
  let len ← getInt
  if recvlen ≠ len then return none
  let key ← getStr
  let teamid ← getStr
  return some (← body key teamid)

structure ExecFields where
  key : List Byte
  teamid : List Byte
  sigList : List Sig
  freqList : List Double
  weightList : List Double
  seq : BitVec 32

def getKeyValueExec (recvlen : BitVec 32) : Reader (Option ExecFields) :=
  getHeader recvlen fun key teamid => do
    let seq ← getInt
    let sigListLen ← getInt
    let entries ← repeatM (do
      let sig ← getSig
      let freq ← getDouble
      let weight ← getDouble
      return (sig, freq, weight)) sigListLen.toInt.toNat
    return ⟨key, teamid, entries.map (·.1), entries.map (·.2.1), entries.map (·.2.2), seq⟩

/-- The fields of an exec message with compressed signatures. -/
structure CompressedFields where
  key : List Byte
  teamid : List Byte
  compressedList : List POLY
  outBitmap : List (List Byte)
  numSigs : BitVec 32
  freqList : List Double
  weightList : List Double
  seq : BitVec 32

def getKeyValueCompressed (recvlen : BitVec 32) : Reader (Option CompressedFields) :=
  getHeader recvlen fun key teamid => do
    let seq ← getInt
    let numSigs ← getInt
    let compressedListLen ← getInt
    let rows ← repeatM (do
      let p ← getInt
      let row ← repeatM (do return (← get 1).headD 0) (ceil8 numSigs).toNat
      return (p, row)) compressedListLen.toInt.toNat
    let entries ← repeatM (do
      let freq ← getDouble
      let weight ← getDouble
      return (freq, weight)) numSigs.toInt.toNat
    return ⟨key, teamid, rows.map (·.1), rows.map (·.2), numSigs, entries.map (·.1),
      entries.map (·.2), seq⟩

/-- The fields of an `INITGOSSIP` or `INFORMTEAM` message. -/
structure InitFields where
  key : List Byte
  teamid : List Byte
  sig : Sig
  freq : Double
  weight : Double

def getKeyValueInit (recvlen : BitVec 32) : Reader (Option InitFields) :=
  getHeader recvlen fun key teamid => do
    let sig ← getSig
    let freq ← getDouble
    let weight ← getDouble
    return ⟨key, teamid, sig, freq, weight⟩

structure QueryFields where
  key : List Byte
  teamid : List Byte
  dtd : List Byte
  sig : Sig
  qid : BitVec 32

def getKeyValueQuery (recvlen : BitVec 32) : Reader (Option QueryFields) :=
  getHeader recvlen fun key teamid => do
    let dtd ← getStr
    let sig ← getSig
    let qid ← getInt
    return ⟨key, teamid, dtd, sig, qid⟩

end XGossip
