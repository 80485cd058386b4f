import XGossip.Index.Database

namespace XGossip
set_option autoImplicit true

open Codec

section Code

/-- `makeKeyValue` of a push-sum message: the type, the key and the two values, each behind its
size. -/
def makeKeyValueSum (key : List Byte) (val1 val2 : Double) (type : InsertType) :
    Option (BitVec 32 × List (Option Byte)) :=
  let len := 4 + 4 + sizeInt key.length + 4 + 8 + 4 + 8
  build len do
    put (intBytes type.code)
    putStr key
    put (intBytes 8)
    put (doubleBytes val1)
    put (intBytes 8)
    put (doubleBytes val2)

/-- `getKeyValue` of a push-sum message, which begins with the size of the key; the sizes of the
values are read but not used. -/
def getKeyValueSum : Reader (List Byte × Double × Double) := do
  let a ← getStr
  let _ ← getInt
  let b ← getDouble
  let _ ← getInt
  let c ← getDouble
  return (a, b, c)

/-- What `adjust_data` writes to the socket of the gossip process: the first element of the new
data as it is, if its type is one of a gossip message. -/
def gossipElem (srv : Server) (newData : List Byte) : Option (List Byte) := do
  let elem ← (getPayload newData).head?
  let (msgtype, _) ← runReader getInt elem
  if msgtype ∈ gossipTypes.map InsertType.code then
    if srv.gdiscard ∨ !srv.connects then none else return elem
  else none

/-- The message for a key and a pair of values is built, forwarded by the server and decoded by
`read_gossip`, which reads only inside of the bytes it is given. -/
def Survives (srv : Server) (key : List Byte) (s w : Double) : Prop :=
  ∃ len value gElem reads, makeKeyValueSum key s w .XGOSSIP = some (len, value.map some) ∧
    gossipElem srv (marshalBlock [value]) = some gElem ∧
    runReader getKeyValueSum gElem = some ((key, s, w), reads) ∧
    ∀ o ∈ reads, 0 ≤ o ∧ o < gElem.length

end Code

section Trip

def sumBytes (key : List Byte) (s w : Double) : List Byte :=
  strBytes key ++ (intBytes 8 ++ (doubleBytes s ++ (intBytes 8 ++ doubleBytes w)))

/-- The part of a string whose length is an `int`. -/
def intPart (s : List Byte) : List Byte := s.take (sizeInt s.length).toNat

theorem length_intPart (s : List Byte) : (intPart s).length = (sizeInt s.length).toNat := by
  rw [intPart, List.length_take, sizeInt, BitVec.toNat_ofNat]
  exact Nat.min_eq_left (Nat.mod_le _ _)

theorem sizeInt_intPart (s : List Byte) : sizeInt (intPart s).length = sizeInt s.length := by
  rw [length_intPart]
  exact BitVec.ofNat_toNat 32 (sizeInt s.length) |>.trans (BitVec.setWidth_eq _)

theorem putStr_intPart (h : ¬ (sizeInt s.length).toInt < 0) :
    Writes (putStr s) (strBytes (intPart s)) := by
  rw [strBytes, sizeInt_intPart]
  simp only [putStr, if_neg h]
  exact (Writes.put _).seq (Writes.put _)

theorem length_sumBytes (key : List Byte) (s w : Double) :
    (sumBytes key s w).length = 28 + key.length := by
  simp only [sumBytes, strBytes, List.length_append, length_intBytes, length_doubleBytes]
  omega

theorem makeKeyValueSum_writes (h : ¬ (sizeInt key.length).toInt < 0) (s w : Double)
    (type : InsertType) :
    Writes (do
      put (intBytes type.code)
      putStr key
      put (intBytes 8)
      put (doubleBytes s)
      put (intBytes 8)
      put (doubleBytes w)) (intBytes type.code ++ sumBytes (intPart key) s w) :=
  (Writes.put _).seq ((putStr_intPart h).seq
    ((Writes.put _).seq ((Writes.put _).seq ((Writes.put _).seq (Writes.put _)))))

theorem putStr_fails (h : (sizeInt s.length).toInt < 0) (b : OutBuf) : putStr s b = none := by
  simp only [putStr, if_pos h, bind, StateT.bind]
  cases put (intBytes (sizeInt s.length)) b with
  | none => rfl
  | some r => rfl

/-- A message that is built is not longer than an `int` can tell, and begins with its type. -/
theorem makeKeyValueSum_eq (h : makeKeyValueSum key s w type = some (len, value.map some)) :
    value = intBytes type.code ++ sumBytes (intPart key) s w ∧ value.length < 2 ^ 31 := by
  rw [makeKeyValueSum, build] at h
  split at h
  · cases h
  · next hlen =>
    obtain ⟨data, hrun, hdata⟩ := Option.map_eq_some_iff.1 h
    obtain ⟨rfl, rfl⟩ := Prod.mk.inj hdata
    by_cases hkey : (sizeInt key.length).toInt < 0
    · simp only [runWriter, bind, StateT.bind, putStr_fails hkey] at hrun
      obtain ⟨r, hr, -⟩ := Option.map_eq_some_iff.1 hrun
      obtain ⟨r', -, hr⟩ := Option.bind_eq_some_iff.1 hr
      cases hr
    · have hwrites := makeKeyValueSum_writes hkey s w type
      have hsum := length_sumBytes (intPart key) s w
      have hpart := length_intPart key
      have hnat : (sizeInt key.length).toNat < 2 ^ 31 := by
        rw [BitVec.toInt_eq_toNat_cond] at hkey
        split at hkey <;> omega
      have htotal : (4 + 4 + sizeInt key.length + 4 + 8 + 4 + 8 : BitVec 32).toNat =
          (intBytes type.code ++ sumBytes (intPart key) s w).length := by
        rw [List.length_append, length_intBytes, hsum, hpart]
        bv_omega
      rw [htotal, hwrites.run, Option.some_inj] at hrun
      have hvalue := List.map_injective_iff.2 (Option.some_injective _) hrun
      refine ⟨hvalue.symm, ?_⟩
      rw [← hvalue, ← htotal]
      rw [BitVec.toInt_eq_toNat_cond] at hlen
      split at hlen <;> omega

theorem getKeyValueSum_type (body : List Byte) :
    runReader getKeyValueSum (intBytes InsertType.XGOSSIP.code ++ body) = none := by
  have hint := getInt_parses InsertType.XGOSSIP.code [] body
  have h0 : InBuf.at ([] ++ (intBytes InsertType.XGOSSIP.code ++ body)) ([] : List Byte).length =
      ⟨intBytes InsertType.XGOSSIP.code ++ body, 0, []⟩ := rfl
  rw [h0] at hint
  have hneg : InsertType.XGOSSIP.code.toInt < 0 := by decide
  simp only [runReader, getKeyValueSum, getStr, bind, StateT.bind, hint, Option.bind_some,
    if_pos hneg]
  rfl

theorem gossipElem_message (ht : type ∈ gossipTypes)
    (hlen : (intBytes type.code ++ body).length < 2 ^ 32) (srv : Server) :
    gossipElem srv (marshalBlock [intBytes type.code ++ body]) =
      if srv.gdiscard ∨ !srv.connects then none else some (intBytes type.code ++ body) := by
  have hpayload : getPayload (marshalBlock [intBytes type.code ++ body]) =
      [intBytes type.code ++ body] := by
    apply getPayload_marshalBlock (by simp)
    intro elem helem
    rwa [List.mem_singleton.1 helem]
  obtain ⟨r, hr, hr₁⟩ := Option.map_eq_some_iff.1 (run_append (getInt_parses type.code) body)
  have hcode : type.code ∈ gossipTypes.map InsertType.code := List.mem_map_of_mem ht
  simp only [gossipElem, hpayload, List.head?_cons, hr, hr₁, if_pos hcode, Option.bind_eq_bind,
    Option.bind_some]
  rfl

theorem getKeyValueSum_sumBytes (h : key.length < 2 ^ 31) (s w : Double) :
    runReader getKeyValueSum (sumBytes key s w) =
      some ((key, s, w), offsets 0 (sumBytes key s w).length) := by
  have hparses : Parses getKeyValueSum (sumBytes key s w) (key, s, w) :=
    (getStr_parses h).bind ((getInt_parses 8).bind ((getDouble_parses s).bind
      ((getInt_parses 8).bind ((getDouble_parses w).bind_pure (key, s, ·)))))
  exact hparses.run

theorem read_forwarded (hmake : makeKeyValueSum key s w .XGOSSIP = some (len, value.map some))
    (hforward : gossipElem srv (marshalBlock [value]) = some gElem) :
    runReader getKeyValueSum gElem = none := by
  obtain ⟨rfl, hlen⟩ := makeKeyValueSum_eq hmake
  rw [gossipElem_message (by decide) (by omega)] at hforward
  split at hforward
  · cases hforward
  · obtain rfl := Option.some.inj hforward
    exact getKeyValueSum_type _

/-- No push-sum message survives the trip. -/
theorem push_sum_lost (srv : Server) (key : List Byte) (s w : Double) : ¬ Survives srv key s w := by
  rintro ⟨len, value, gElem, reads, hmake, hforward, hread, -⟩
  rw [read_forwarded hmake hforward] at hread
  cases hread

/-- The key "1" with the values 1 and 0.5. -/
theorem push_sum_lost_one : ∃ value,
    makeKeyValueSum [49] 0x3ff0000000000000 0x3fe0000000000000 .XGOSSIP =
      some (33, value.map some) ∧
    gossipElem twoServer (marshalBlock [value]) = some value ∧
    runReader getKeyValueSum value = none ∧
    ¬ Survives twoServer [49] 0x3ff0000000000000 0x3fe0000000000000 := by
  have hmake : makeKeyValueSum [49] 0x3ff0000000000000 0x3fe0000000000000 .XGOSSIP =
      some (33, (intBytes InsertType.XGOSSIP.code ++
        sumBytes [49] 0x3ff0000000000000 0x3fe0000000000000).map some) := by decide +kernel
  have hforward : gossipElem twoServer (marshalBlock [intBytes InsertType.XGOSSIP.code ++
      sumBytes [49] 0x3ff0000000000000 0x3fe0000000000000]) = some _ :=
    (gossipElem_message (by decide) (by decide) twoServer).trans (if_neg (by decide))
  refine ⟨_, hmake, hforward, read_forwarded hmake hforward, ?_⟩
  rintro ⟨len, value, gElem, reads, hmake', hforward', hread, -⟩
  rw [read_forwarded hmake' hforward'] at hread
  cases hread

end Trip

end XGossip
