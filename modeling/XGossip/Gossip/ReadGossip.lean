import XGossip.Wire.Bounds
import XGossip.Wire.Compress

namespace XGossip
set_option autoImplicit true

open Codec

/-- What a call of `input` gives: an error or the bytes that are there. At the end of the file there
are none. -/
inductive Input where
  | error
  | bytes (bs : List Byte)

/-- How the read loop of `readgossip` ends. -/
inductive ReadEnd where
  | failed
  | eof
  | done (gmsg : List Byte) (recvlen : BitVec 32)

/-- What is read of a `str`, which has a zero byte behind its bytes. -/
def readStr (r : Reader α) (s : List Byte) : Option α := (runReader r (s ++ [0])).map Prod.fst

/-- The length of a message, which is read the first time only. -/
def seenLen (msglen : BitVec 32) (bs : List Byte) : Option (BitVec 32) :=
  if msglen = 0 then readStr getKeyValueLen bs else some msglen

/-- The read loop over what the calls of `input` give, with the inputs it leaves. It does not end
when a call waits for bytes that do not come. -/
def readLoop : List Input → BitVec 32 → BitVec 32 → List Byte → Option (ReadEnd × List Input)
  | [], _, _, _ => none
  | .error :: rest, _, _, _ => some (.failed, rest)
  | .bytes [] :: rest, _, _, _ => some (.eof, rest)
  | .bytes (b :: bs) :: rest, msglen, recvlen, totalbuf => do
    let msglen ← seenLen msglen (b :: bs)
    let recvlen := recvlen + sizeInt (b :: bs).length
    let totalbuf := totalbuf ++ b :: bs
    if recvlen.toInt < msglen.toInt then readLoop rest msglen recvlen totalbuf
    else some (.done totalbuf recvlen, rest)

section Fragments

variable {m c : List Byte} {chunks : List (List Byte)} {rest : List Input}

theorem getKeyValueLen_decides (buf : List Byte) :
    Decides getKeyValueLen buf 0 (True ∧ Inside buf 4 4) (intAt buf 4) (4 + 4) :=
  (Decides.seek 4).bind fun _ => getInt_decides buf 4

theorem readStr_len_of_le (h : 7 ≤ c.length) : readStr getKeyValueLen c = some (intAt (c ++ [0]) 4) := by
  have hin : Inside (c ++ [0]) 4 4 := by
    simp only [Inside, List.length_append, List.length_singleton]
    omega
  obtain ⟨new, -, hr⟩ := (getKeyValueLen_decides (c ++ [0])).reads ⟨trivial, hin⟩ []
  rw [readStr, runReader, hr]
  rfl

theorem readStr_len_of_lt (h : c.length < 7) : readStr getKeyValueLen c = none := by
  have hout : ¬ (True ∧ Inside (c ++ [0]) 4 4) := by
    simp only [Inside, List.length_append, List.length_singleton]
    omega
  rw [readStr, runReader, (getKeyValueLen_decides (c ++ [0])).fails hout []]
  rfl

theorem readLoop_chunk (hc : c ≠ []) {msglen : BitVec 32} (hl : msglen ≠ 0) {r : Nat} :
    readLoop (.bytes c :: rest) msglen (sizeInt r) buf =
      if (sizeInt (r + c.length)).toInt < msglen.toInt then
        readLoop rest msglen (sizeInt (r + c.length)) (buf ++ c)
      else some (.done (buf ++ c) (sizeInt (r + c.length)), rest) := by
  have hadd : sizeInt r + sizeInt c.length = sizeInt (r + c.length) :=
    (BitVec.ofNat_add r c.length).symm
  cases c with
  | nil => exact absurd rfl hc
  | cons b bs => simp only [readLoop, seenLen, if_neg hl, Option.bind_eq_bind, Option.bind_some, hadd]

theorem readLoop_first (hc : c ≠ []) {msglen : BitVec 32} (hl : readStr getKeyValueLen c = some msglen) :
    readLoop (.bytes c :: rest) 0 0 [] =
      if (sizeInt c.length).toInt < msglen.toInt then
        readLoop rest msglen (sizeInt c.length) c
      else some (.done c (sizeInt c.length), rest) := by
  cases c with
  | nil => exact absurd rfl hc
  | cons b bs =>
    have hzero : 0 + sizeInt (b :: bs).length = sizeInt (b :: bs).length := BitVec.zero_add _
    simp only [readLoop, seenLen, if_true, hl, Option.bind_eq_bind, Option.bind_some, hzero,
      List.nil_append]

theorem rest_ne_cons (i : Input) (l : List Input) : i :: (l ++ rest) ≠ rest := by
  intro h
  have hlen := congrArg List.length h
  simp only [List.length_cons, List.length_append] at hlen
  omega

theorem length_dropLast_flatten (c d : List Byte) (ds : List (List Byte)) :
    (c :: d :: ds).dropLast.flatten.length = c.length + (d :: ds).dropLast.flatten.length := by
  rw [List.dropLast_cons_of_ne_nil (List.cons_ne_nil d ds), List.flatten_cons, List.length_append]

/-- With a length that is reached, the loop stops behind the last chunk exactly if the chunks in
front of it do not reach the length. -/
theorem readLoop_chunks {msglen : BitVec 32} {r : Nat} (hne : ∀ c ∈ chunks, c ≠ [])
    (hchunks : chunks ≠ []) (hr : (r : Int) < msglen.toInt)
    (hl : msglen.toInt ≤ r + chunks.flatten.length) (hfit : r + chunks.flatten.length < 2 ^ 31) :
    readLoop (chunks.map .bytes ++ rest) msglen (sizeInt r) buf =
        some (.done (buf ++ chunks.flatten) (sizeInt (r + chunks.flatten.length)), rest) ↔
      (r + chunks.dropLast.flatten.length : Int) < msglen.toInt := by
  have hl0 : msglen ≠ 0 := by
    rintro rfl
    have hzero : BitVec.toInt (0 : BitVec 32) = 0 := rfl
    omega
  induction chunks generalizing r buf with
  | nil => exact absurd rfl hchunks
  | cons c chunks ih =>
    simp only [List.flatten_cons, List.length_append] at hl hfit ⊢
    have hcast : (sizeInt (r + c.length)).toInt = r + c.length := by
      rw [sizeInt_toInt (by omega)]
      push_cast
      rfl
    rw [List.map_cons, List.cons_append, readLoop_chunk (hne c List.mem_cons_self) hl0, hcast]
    cases chunks with
    | nil =>
      simp only [List.flatten_nil, List.length_nil] at hl ⊢
      rw [if_neg (by omega)]
      simpa using hr
    | cons d ds =>
      rw [length_dropLast_flatten]
      push_cast
      by_cases hlt : (r + c.length : Int) < msglen.toInt
      · rw [if_pos hlt, ← List.append_assoc, ← Nat.add_assoc]
        refine (ih (fun c hc => hne c (List.mem_cons_of_mem _ hc)) (List.cons_ne_nil d ds) (by omega)
          (by push_cast; omega) (by omega)).trans ?_
        push_cast
        rw [Int.add_assoc]
      · rw [if_neg hlt]
        constructor
        · intro h
          injection h with h
          exact absurd (congrArg Prod.snd h) (rest_ne_cons _ _)
        · intro h
          omega

theorem intAt_first (h : 8 ≤ c.length) (t t' : List Byte) :
    intAt (c ++ t) 4 = intAt (c ++ t') 4 := by
  have hslice : ∀ t : List Byte, slice (c ++ t) 4 4 = (c.drop 4).take 4 := by
    intro t
    change ((c ++ t).drop 4).take 4 = _
    rw [List.drop_append_of_le_length (by omega),
      List.take_append_of_le_length (by rw [List.length_drop]; omega)]
  rw [intAt, intAt, hslice, hslice]

theorem intAt_first_seven (h : c.length = 7) {t : List Byte} (ht : t ≠ []) {n : Nat}
    (hn : (intAt (c ++ t) 4).toInt = n) : (intAt (c ++ [0]) 4).toInt = (n % 2 ^ 24 : Nat) := by
  obtain ⟨x, y, z, hc⟩ : ∃ x y z, c.drop 4 = [x, y, z] := by
    apply List.length_eq_three.1
    rw [List.length_drop, h]
  have hint : ∀ (b : Byte) (l : List Byte), intAt (c ++ b :: l) 4 =
      BitVec.ofNat 32 (x.toNat + 256 * (y.toNat + 256 * (z.toNat + 256 * b.toNat))) := by
    intro b l
    change BitVec.ofNat 32 (ofLE (((c ++ b :: l).drop 4).take 4)) = _
    rw [List.drop_append_of_le_length (by omega), hc]
    rfl
  obtain ⟨b, l, rfl⟩ := List.exists_cons_of_ne_nil ht
  have hzero : BitVec.toNat (0 : Byte) = 0 := rfl
  have hx := x.isLt
  have hy := y.isLt
  have hz := z.isLt
  have hb := b.isLt
  rw [hint, BitVec.toInt_ofNat'] at hn ⊢
  rw [hzero]
  simp only [Int.bmod] at hn ⊢
  omega

theorem dropLast_flatten_lt (hne : ∀ c ∈ chunks, c ≠ []) (hchunks : chunks ≠ []) :
    chunks.dropLast.flatten.length < chunks.flatten.length := by
  have hlast := List.length_pos_iff.2 (hne _ (List.getLast_mem hchunks))
  conv_rhs => rw [← List.dropLast_concat_getLast hchunks]
  rw [List.flatten_append, List.length_append, List.flatten_singleton]
  omega

/-- What the loop does with the length that it has seen in the first chunk. -/
theorem readLoop_seen (rest : List Input) (hne : ∀ d ∈ c :: chunks, d ≠ []) {msglen : BitVec 32}
    (hl : readStr getKeyValueLen c = some msglen) {n : Nat} (hn : msglen.toInt = n)
    (hle : n ≤ (c :: chunks).flatten.length) (hfit : (c :: chunks).flatten.length < 2 ^ 31) :
    readLoop ((c :: chunks).map .bytes ++ rest) 0 0 [] =
        some (.done (c :: chunks).flatten (sizeInt (c :: chunks).flatten.length), rest) ↔
      chunks = [] ∨ (c :: chunks).dropLast.flatten.length < n := by
  simp only [List.flatten_cons, List.length_append] at hle hfit ⊢
  rw [List.map_cons, List.cons_append, readLoop_first (hne c List.mem_cons_self) hl, hn,
    sizeInt_toInt (by omega)]
  cases chunks with
  | nil =>
    rw [if_neg (by simpa using hle)]
    simp
  | cons d ds =>
    rw [length_dropLast_flatten, or_iff_right (List.cons_ne_nil d ds)]
    by_cases hlt : (c.length : Int) < n
    · rw [if_pos hlt]
      refine (readLoop_chunks (fun d hd => hne d (List.mem_cons_of_mem _ hd)) (List.cons_ne_nil d ds)
        (by omega) (by omega) hfit).trans ?_
      omega
    · rw [if_neg hlt]
      constructor
      · intro h
        injection h with h
        exact absurd (congrArg Prod.snd h) (rest_ne_cons _ _)
      · intro h
        omega

/-- The read loop puts a message together exactly if the length is in the first chunk, or all of it
but the highest byte and the chunks in front of the last one do not reach the rest of it. -/
theorem readLoop_fragments (m : List Byte) (h8 : 8 ≤ m.length)
    (hlen : (intAt m 4).toInt = m.length) (chunks : List (List Byte)) (hne : ∀ c ∈ chunks, c ≠ [])
    (hm : chunks.flatten = m) (rest : List Input) :
    readLoop (chunks.map .bytes ++ rest) 0 0 [] = some (.done m (sizeInt m.length), rest) ↔
      8 ≤ (chunks.headD []).length ∨
        (chunks.headD []).length = 7 ∧ chunks.dropLast.flatten.length < m.length % 2 ^ 24 := by
  have hfit : m.length < 2 ^ 31 := by
    have := BitVec.toInt_lt (x := intAt m 4)
    omega
  cases chunks with
  | nil =>
    rw [List.flatten_nil] at hm
    subst m
    exact absurd h8 (by decide)
  | cons c chunks =>
    have hc := hne c List.mem_cons_self
    rw [List.headD_cons]
    subst m
    rcases Nat.lt_trichotomy c.length 7 with hlt | heq | hgt
    · have hnone : readLoop ((c :: chunks).map .bytes ++ rest) 0 0 [] = none := by
        obtain ⟨b, bs, rfl⟩ := List.exists_cons_of_ne_nil hc
        simp only [List.map_cons, List.cons_append, readLoop, seenLen, if_true, readStr_len_of_lt hlt]
        rfl
      rw [hnone]
      refine iff_of_false (by simp) ?_
      omega
    · have hrest : chunks.flatten ≠ [] := by
        intro hnil
        rw [List.flatten_cons, hnil, List.append_nil] at h8
        omega
      have hseen := readLoop_seen rest hne (readStr_len_of_le (by omega))
        (intAt_first_seven heq hrest hlen) (Nat.mod_le _ _) hfit
      have hchunks : chunks ≠ [] := by
        rintro rfl
        exact hrest rfl
      rw [hseen, or_iff_right hchunks, or_iff_right (by omega), and_iff_right heq]
    · have hint : (intAt (c ++ [0]) 4).toInt = (c :: chunks).flatten.length := by
        rw [← hlen, List.flatten_cons, intAt_first hgt [0] chunks.flatten]
      have hseen := readLoop_seen rest hne (readStr_len_of_le (by omega)) hint (Nat.le_refl _) hfit
      refine iff_of_true (hseen.2 (.inr ?_)) (.inl hgt)
      exact dropLast_flatten_lt hne (List.cons_ne_nil c chunks)

/-- An init message with an empty key, an empty team ID and a signature without POLYs. -/
def emptyInit : List Byte :=
  intBytes InsertType.INITGOSSIP.code ++ intBytes 36 ++ List.replicate 28 0

theorem readLoop_fragments_header :
    readLoop ([emptyInit.take 8, emptyInit.drop 8].map .bytes ++ [.bytes []]) 0 0 [] =
      some (.done emptyInit (sizeInt emptyInit.length), [.bytes []]) :=
  (readLoop_fragments emptyInit (by decide) (by decide) [emptyInit.take 8, emptyInit.drop 8]
    (by decide) (by decide) [.bytes []]).2 (.inl (by decide))

/-- The length is not yet there when the first chunk is only the type. -/
theorem readLoop_type_alone : ¬ ∀ m : List Byte, 8 ≤ m.length → (intAt m 4).toInt = m.length →
    ∀ chunks : List (List Byte), (∀ c ∈ chunks, c ≠ []) → chunks.flatten = m →
    ∀ rest, readLoop (chunks.map .bytes ++ rest) 0 0 [] =
      some (.done m (sizeInt m.length), rest) := by
  intro h
  have hloop := h emptyInit (by decide) (by decide) [emptyInit.take 4, emptyInit.drop 4] (by decide)
    (by decide) []
  have hnone : readLoop ([emptyInit.take 4, emptyInit.drop 4].map .bytes ++ []) 0 0 [] = none := rfl
  cases hnone.symm.trans hloop

end Fragments

structure RoundState where
  initphase : Bool
  accept_anyround : Bool
  txseq : BitVec 32

/-- A message that is handled, with the type where the handlers tell types apart. -/
inductive Received where
  | exec (type : BitVec 32) (fields : ExecFields)
  | init (fields : InitFields)
  | query (type : BitVec 32) (fields : QueryFields)

/-- What a callback does with its descriptor: remove itself, close it and count it. -/
inductive FdOp where
  | disable
  | close
  | count

def released : List FdOp := [.disable, .close, .count]

def isExec (msgtype : BitVec 32) : Bool :=
  [InsertType.VXGOSSIP, .VXGOSSIPC, .XGOSSIP, .XGOSSIPC, .BCAST, .BCASTC].any (·.code = msgtype)

def isInit (msgtype : BitVec 32) : Bool :=
  [InsertType.INITGOSSIP, .INFORMTEAM].any (·.code = msgtype)

def CompressedFields.uncompress (f : CompressedFields) : ExecFields :=
  ⟨f.key, f.teamid, uncompressSignatures f.compressedList f.outBitmap f.numSigs, f.freqList,
    f.weightList, f.seq⟩

def readExec (msgtype : BitVec 32) (gmsg : List Byte) (recvlen : BitVec 32) :
    Option (Option ExecFields) :=
  if [InsertType.BCAST, .VXGOSSIP, .XGOSSIP].any (·.code = msgtype) then
    readStr (getKeyValueExec recvlen) gmsg
  else
    (readStr (getKeyValueCompressed recvlen) gmsg).map (·.map CompressedFields.uncompress)

def offRound (round : RoundState) (seq : BitVec 32) : Bool :=
  let n := (seq - round.txseq).toInt
  if n < 0 then !round.accept_anyround && decide (n.natAbs ≠ 1)
  else if 0 < n then !round.accept_anyround && decide (n ≠ 1)
  else false

/-- A message is handled unless `getKeyValue` failed, and the descriptor is given back. -/
def handled (g : β → Received) : Option β → Option Received × List FdOp
  | none => (none, released)
  | some fields => (some (g fields), released)

/-- `readgossip` behind the read loop: the message that is handled, if it is, and what is done with
the descriptor at the return. -/
def readMessage (round : RoundState) (gmsg : List Byte) (recvlen : BitVec 32) :
    Option (Option Received × List FdOp) := do
  let msgtype ← readStr getKeyValueType gmsg
  if isExec msgtype then
    if round.initphase then return (none, [])
    let some fields ← readExec msgtype gmsg recvlen | return (none, released)
    if offRound round fields.seq then return (none, [])
    return (some (.exec msgtype fields), released)
  else if isInit msgtype then
    if !round.initphase then return (none, [])
    return handled .init (← readStr (getKeyValueInit recvlen) gmsg)
  else if msgtype = InsertType.QUERYS.code then
    return handled (fun fields => .query msgtype ⟨fields.key, fields.teamid, [], fields.sig, -1⟩)
      (← readStr (getKeyValueInit recvlen) gmsg)
  else if msgtype = InsertType.QUERYX.code ∨ msgtype = InsertType.QUERYXP.code then
    return handled (.query msgtype) (← readStr (getKeyValueQuery recvlen) gmsg)
  else return (none, released)

def readgossip (round : RoundState) (inputs : List Input) :
    Option ((Option Received × List FdOp) × List Input) := do
  let (stop, rest) ← readLoop inputs 0 0 []
  match stop with
  | .failed => return ((none, released), rest)
  | .eof => return ((none, [.disable]), rest)
  | .done gmsg recvlen => return (← readMessage round gmsg recvlen, rest)

end XGossip
