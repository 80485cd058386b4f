import Mathlib.Algebra.BigOperators.Group.List.Basic
import Mathlib.Algebra.Order.BigOperators.Group.List
import Mathlib.Algebra.Order.Monoid.Canonical.Defs
import Mathlib.Data.BitVec
import Mathlib.Tactic.Ring
import XGossip.Wire.Format

namespace XGossip
set_option autoImplicit true

open Codec

theorem sizeInt_toNat (h : n < 2 ^ 31) : (sizeInt n).toNat = n := by
  rw [sizeInt, BitVec.toNat_ofNat, Nat.mod_eq_of_lt (by omega)]

theorem sizeInt_toInt (h : n < 2 ^ 31) : (sizeInt n).toInt = n := by
  rw [BitVec.toInt_eq_toNat_of_lt (by rw [sizeInt_toNat h]; omega), sizeInt_toNat h]

@[simp] theorem length_intBytes (n : BitVec 32) : (intBytes n).length = 4 := length_toLE _ _

@[simp] theorem length_doubleBytes (d : Double) : (doubleBytes d).length = 8 := length_toLE _ _

@[simp] theorem length_flatMap_intBytes (l : List (BitVec 32)) :
    (l.flatMap intBytes).length = l.length * 4 := by
  induction l with
  | nil => rfl
  | cons a l ih =>
    simp only [List.flatMap_cons, List.length_append, length_intBytes, ih, List.length_cons]
    omega

theorem ofLE_intBytes (n : BitVec 32) : BitVec.ofNat 32 (ofLE (intBytes n)) = n := by
  rw [intBytes, ofLE_toLE n.isLt, BitVec.ofNat_toNat, BitVec.setWidth_eq]

theorem getInt_parses (n : BitVec 32) : Parses getInt (intBytes n) n := by
  have hn := (Parses.get (length_intBytes n)).bind_pure fun bs => BitVec.ofNat 32 (ofLE bs)
  rwa [ofLE_intBytes] at hn

theorem getDouble_parses (d : Double) : Parses getDouble (doubleBytes d) d := by
  have hd := (Parses.get (length_doubleBytes d)).bind_pure fun bs => BitVec.ofNat 64 (ofLE bs)
  rwa [doubleBytes, ofLE_toLE d.isLt, BitVec.ofNat_toNat, BitVec.setWidth_eq] at hd

def strBytes (s : List Byte) : List Byte := intBytes (sizeInt s.length) ++ s

def sigBytes (sig : Sig) : List Byte := intBytes (sizeInt (sig.length * 4)) ++ sig.flatMap intBytes

theorem putStr_writes (h : s.length < 2 ^ 31) : Writes (putStr s) (strBytes s) := by
  have hpos : ¬ (sizeInt s.length).toInt < 0 := by
    rw [sizeInt_toInt h]
    omega
  have hput : Writes (put (s.take (sizeInt s.length).toNat)) s := by
    rw [sizeInt_toNat h, List.take_length]
    exact Writes.put s
  simp only [putStr, if_neg hpos]
  exact (Writes.put _).seq hput

theorem getStr_parses (h : s.length < 2 ^ 31) : Parses getStr (strBytes s) s := by
  have hpos : ¬ (sizeInt s.length).toInt < 0 := by
    rw [sizeInt_toInt h]
    omega
  apply (getInt_parses _).bind
  rw [if_neg hpos]
  exact (Parses.pure ()).bind (f := fun _ => get _) (Parses.get (sizeInt_toNat h).symm)

theorem putSig_writes {sig : Sig} (h : sig.length * 4 < 2 ^ 31) :
    Writes (putSig sig) (sigBytes sig) := by
  have hlen : (sizeInt sig.length).toInt.toNat = sig.length := by
    rw [sizeInt_toInt (by omega)]
    omega
  have hmove : (sizeInt (sig.length * 4)).toInt = (sig.flatMap intBytes).length := by
    rw [sizeInt_toInt h, length_flatMap_intBytes]
  apply (Writes.put _).seq
  rw [hlen, List.take_length, hmove]
  exact Writes.put _

theorem getSig_parses {sig : Sig} (h : sig.length * 4 < 2 ^ 31) :
    Parses getSig (sigBytes sig) sig := by
  have hcount : ((sizeInt (sig.length * 4)).toInt.tdiv 4).toNat = sig.length := by
    rw [sizeInt_toInt h, Int.tdiv_eq_ediv_of_nonneg (by omega)]
    omega
  have hpolys := Parses.repeatM (l := sig) fun a _ => getInt_parses a
  apply (getInt_parses _).bind
  rw [hcount]
  apply hpolys.seek
  rw [sizeInt_toInt h, length_flatMap_intBytes]

def frame (type : InsertType) (body : List Byte) : List Byte :=
  intBytes type.code ++ (intBytes (sizeInt (8 + body.length)) ++ body)

theorem length_frame (type : InsertType) (body : List Byte) :
    (frame type body).length = 8 + body.length := by
  simp only [frame, List.length_append, length_intBytes]
  omega

/-- The encoder fills the bytes it allocates, the type and the length can be read back from
them, and the decoder returns every field and reads every byte once. -/
def RoundTrips (type : InsertType) (enc : Option (BitVec 32 × List (Option Byte)))
    (dec : BitVec 32 → Reader (Option α)) (fields : α) : Prop :=
  ∃ (len : BitVec 32) (bytes : List Byte), enc = some (len, bytes.map some) ∧
    len.toInt = bytes.length ∧
    (runReader getKeyValueType bytes).map Prod.fst = some type.code ∧
    (runReader getKeyValueLen bytes).map Prod.fst = some len ∧
    runReader (dec len) bytes = some (some fields, offsets 0 bytes.length)

theorem getKeyValueType_frame (type : InsertType) (body : List Byte) :
    (runReader getKeyValueType (frame type body)).map Prod.fst = some type.code := by
  have hr := getInt_parses type.code [] (intBytes (sizeInt (8 + body.length)) ++ body)
  have h0 : InBuf.at (frame type body) ([] : List Byte).length = ⟨frame type body, 0, []⟩ := rfl
  rw [List.nil_append, ← frame, h0] at hr
  rw [runReader, getKeyValueType, hr]
  rfl

theorem getKeyValueLen_frame (type : InsertType) (body : List Byte) :
    (runReader getKeyValueLen (frame type body)).map Prod.fst =
      some (sizeInt (8 + body.length)) := by
  have hroom : (0 : Int) ≤ 4 ∧ (4 : Int) + (4 : Nat) ≤ (frame type body).length := by
    rw [length_frame]
    omega
  have hdata : ((frame type body).drop 4).take 4 = intBytes (sizeInt (8 + body.length)) := by
    rw [frame, List.drop_left' (length_intBytes _), List.take_left' (length_intBytes _)]
  have hget : get 4 ⟨frame type body, 4, []⟩ =
      some (intBytes (sizeInt (8 + body.length)), ⟨frame type body, 4 + (4 : Nat), offsets 4 4⟩) := by
    refine (if_pos hroom).trans ?_
    rw [show ((4 : Int).toNat) = 4 from rfl, hdata, List.nil_append]
  simp only [runReader, getKeyValueLen, getInt, seek, bind, StateT.bind, Option.bind_some, hget]
  change some (BitVec.ofNat 32 (ofLE _)) = _
  rw [ofLE_intBytes]

theorem putHeader_writes (type : InsertType) (len : BitVec 32) (hkey : key.length < 2 ^ 31)
    (hteamid : teamid.length < 2 ^ 31) : Writes (putHeader type len key teamid)
      (intBytes type.code ++ (intBytes len ++ (strBytes key ++ strBytes teamid))) := by
  apply (Writes.put _).seq
  apply (Writes.put _).seq
  exact (putStr_writes hkey).seq (putStr_writes hteamid)

theorem getHeader_parses {body : List Byte → List Byte → Reader α}
    (hkey : key.length < 2 ^ 31) (hteamid : teamid.length < 2 ^ 31)
    (h : Parses (body key teamid) bs a) :
    Parses (getHeader (sizeInt (8 + (strBytes key ++ (strBytes teamid ++ bs)).length)) body)
      (frame type (strBytes key ++ (strBytes teamid ++ bs))) (some a) := by
  apply (getInt_parses _).bind
  apply (getInt_parses _).bind
  rw [if_neg (by simp)]
  apply (getStr_parses hkey).bind
  apply (getStr_parses hteamid).bind
  exact h.bind_pure some

/-- A format round trips if its writer and its reader agree on the body. -/
theorem roundTrips_of_body {w : Writer Unit} {body : List Byte → List Byte → Reader α}
    (hlt : 8 + (strBytes key ++ (strBytes teamid ++ bs)).length < 2 ^ 31)
    (hlen : len = sizeInt (8 + (strBytes key ++ (strBytes teamid ++ bs)).length))
    (hw : Writes w bs) (hr : Parses (body key teamid) bs a) :
    RoundTrips type (build len (putHeader type len key teamid >>= fun _ => w))
      (fun recvlen => getHeader recvlen body) a := by
  have hkey : key.length < 2 ^ 31 := by
    simp only [strBytes, List.length_append] at hlt
    omega
  have hteamid : teamid.length < 2 ^ 31 := by
    simp only [strBytes, List.length_append] at hlt
    omega
  have hframe := length_frame type (strBytes key ++ (strBytes teamid ++ bs))
  have hwrites : Writes (putHeader type len key teamid >>= fun _ => w)
      (frame type (strBytes key ++ (strBytes teamid ++ bs))) := by
    have hall : Writes (putHeader type len key teamid >>= fun _ => w) _ :=
      (putHeader_writes type len hkey hteamid).seq hw
    simpa only [frame, hlen, List.append_assoc] using hall
  have hrun := hwrites.run
  rw [hframe] at hrun
  refine ⟨len, frame type (strBytes key ++ (strBytes teamid ++ bs)), ?_, ?_, ?_, ?_, ?_⟩
  · rw [build, if_neg, hlen, sizeInt_toNat hlt, ← hlen, hrun, Option.map_some]
    rw [hlen, sizeInt_toInt hlt]
    omega
  · rw [hlen, sizeInt_toInt hlt, hframe]
  · exact getKeyValueType_frame _ _
  · rw [hlen]
    exact getKeyValueLen_frame _ _
  · rw [hlen]
    exact (getHeader_parses hkey hteamid hr).run

theorem sizeInt_add (m n : Nat) : sizeInt (m + n) = sizeInt m + sizeInt n := BitVec.ofNat_add m n

theorem sizeInt_mul (m n : Nat) : sizeInt (m * n) = sizeInt m * sizeInt n := BitVec.ofNat_mul m n

theorem sizeInt_four : sizeInt 4 = 4 := rfl

theorem sizeInt_eight : sizeInt 8 = 8 := rfl

@[simp] theorem length_strBytes (s : List Byte) : (strBytes s).length = 4 + s.length := by
  simp only [strBytes, List.length_append, length_intBytes]

@[simp] theorem length_sigBytes (sig : Sig) : (sigBytes sig).length = 4 + sig.length * 4 := by
  simp only [sigBytes, List.length_append, length_intBytes, length_flatMap_intBytes]

theorem init_roundTrips
    (h : 36 + key.length + teamid.length + sig.length * 4 < 2 ^ 31) :
    RoundTrips type (makeKeyValueInit key teamid sig freq weight type) getKeyValueInit
      ⟨key, teamid, sig, freq, weight⟩ := by
  have hsig : sig.length * 4 < 2 ^ 31 := by omega
  apply @roundTrips_of_body _ key teamid (sigBytes sig ++ (doubleBytes freq ++ doubleBytes weight))
  · simp only [List.length_append, length_strBytes, length_sigBytes, length_doubleBytes]
    omega
  · simp only [List.length_append, length_strBytes, length_sigBytes, length_doubleBytes,
      sizeInt_add, sizeInt_four, sizeInt_eight]
    ring
  · exact (putSig_writes hsig).seq ((Writes.put _).seq (Writes.put _))
  · apply (getSig_parses hsig).bind
    apply (getDouble_parses _).bind
    exact (getDouble_parses _).bind_pure _

theorem query_roundTrips
    (h : 28 + key.length + teamid.length + dtd.length + sig.length * 4 < 2 ^ 31) :
    RoundTrips type (makeKeyValueQuery key teamid dtd sig qid type) getKeyValueQuery
      ⟨key, teamid, dtd, sig, qid⟩ := by
  have hdtd : dtd.length < 2 ^ 31 := by omega
  have hsig : sig.length * 4 < 2 ^ 31 := by omega
  apply @roundTrips_of_body _ key teamid (strBytes dtd ++ (sigBytes sig ++ intBytes qid))
  · simp only [List.length_append, length_strBytes, length_sigBytes, length_intBytes]
    omega
  · simp only [List.length_append, length_strBytes, length_sigBytes, length_intBytes,
      sizeInt_add, sizeInt_four, sizeInt_eight]
    ring
  · exact (putStr_writes hdtd).seq ((putSig_writes hsig).seq (Writes.put _))
  · apply (getStr_parses hdtd).bind
    apply (getSig_parses hsig).bind
    exact (getInt_parses _).bind_pure _

def entryBytes (e : Sig × Double × Double) : List Byte :=
  sigBytes e.1 ++ (doubleBytes e.2.1 ++ doubleBytes e.2.2)

theorem length_flatMap_entryBytes (l : List (Sig × Double × Double)) :
    (l.flatMap entryBytes).length = (l.map fun e => 20 + e.1.length * 4).sum := by
  induction l with
  | nil => rfl
  | cons e l ih =>
    simp only [List.flatMap_cons, List.length_append, ih, List.map_cons, List.sum_cons, entryBytes,
      length_sigBytes, length_doubleBytes]
    omega

theorem foldl_entryLength (l : List (Sig × Double × Double)) (len : BitVec 32) :
    l.foldl (fun len e => len + (4 + sizeInt (e.1.length * 4) + 8 + 8)) len =
      len + sizeInt (l.map fun e => 20 + e.1.length * 4).sum := by
  induction l generalizing len with
  | nil => simp [sizeInt]
  | cons e l ih =>
    have h20 : sizeInt 20 = 4 + 8 + 8 := rfl
    simp only [List.foldl_cons, ih, List.map_cons, List.sum_cons, sizeInt_add, h20]
    ring

theorem exec_roundTrips (type : InsertType) (key teamid : List Byte)
    (sigList : List (Sig × Double × Double)) (seq : BitVec 32)
    (h : 24 + key.length + teamid.length + (sigList.map fun e => 20 + e.1.length * 4).sum <
      2 ^ 31) :
    RoundTrips type (makeKeyValueExec key teamid sigList seq type) getKeyValueExec
      ⟨key, teamid, sigList.map (·.1), sigList.map (·.2.1), sigList.map (·.2.2), seq⟩ := by
  have hsig : ∀ e ∈ sigList, e.1.length * 4 < 2 ^ 31 := by
    intro e he
    have hle := List.le_sum_of_mem (List.mem_map.2 ⟨e, he, rfl⟩ :
      20 + e.1.length * 4 ∈ sigList.map fun e => 20 + e.1.length * 4)
    omega
  have hlen : sigList.length < 2 ^ 31 := by
    have hle := List.length_le_sum_of_one_le (sigList.map fun e => 20 + e.1.length * 4) (by
      intro n hn
      obtain ⟨e, -, rfl⟩ := List.mem_map.1 hn
      omega)
    rw [List.length_map] at hle
    omega
  have hcount : (sizeInt sigList.length).toInt.toNat = sigList.length := by
    rw [sizeInt_toInt hlen]
    omega
  apply @roundTrips_of_body _ key teamid (intBytes seq ++
    (intBytes (sizeInt sigList.length) ++ sigList.flatMap entryBytes))
  · simp only [List.length_append, length_strBytes, length_intBytes, length_flatMap_entryBytes]
    omega
  · simp only [foldl_entryLength, List.length_append, length_strBytes, length_intBytes,
      length_flatMap_entryBytes, sizeInt_add, sizeInt_four, sizeInt_eight]
    ring
  · apply (Writes.put _).seq
    apply (Writes.put _).seq
    apply Writes.forM
    intro e he
    exact (putSig_writes (hsig e he)).seq ((Writes.put _).seq (Writes.put _))
  · apply (getInt_parses _).bind
    apply (getInt_parses _).bind
    rw [hcount]
    apply (Parses.repeatM _).bind_pure
    intro e he
    apply (getSig_parses (hsig e he)).bind
    apply (getDouble_parses _).bind
    exact (getDouble_parses _).bind_pure _

def rowBytes (r : POLY × List Byte) : List Byte := intBytes r.1 ++ r.2

def pairBytes (e : Double × Double) : List Byte := doubleBytes e.1 ++ doubleBytes e.2

theorem length_flatMap_rowBytes {rows : List (POLY × List Byte)}
    (h : ∀ r ∈ rows, r.2.length = n) : (rows.flatMap rowBytes).length = rows.length * (4 + n) := by
  induction rows with
  | nil => simp
  | cons r rows ih =>
    simp only [List.flatMap_cons, List.length_append, rowBytes, length_intBytes,
      ih fun r hr => h r (List.mem_cons_of_mem _ hr), h r List.mem_cons_self, List.length_cons]
    ring

theorem length_flatMap_pairBytes (l : List (Double × Double)) :
    (l.flatMap pairBytes).length = l.length * 16 := by
  induction l with
  | nil => rfl
  | cons e l ih =>
    simp only [List.flatMap_cons, List.length_append, pairBytes, length_doubleBytes, ih,
      List.length_cons]
    omega

theorem putRows_writes {rows : List (POLY × List Byte)} (h : ∀ r ∈ rows, r.2.length < 2 ^ 31) :
    Writes (putRows (rows.map (·.1)) (rows.map (·.2))) (rows.flatMap rowBytes) := by
  induction rows with
  | nil => exact Writes.nil
  | cons r rows ih =>
    have hlen : (sizeInt r.2.length).toInt.toNat = r.2.length := by
      rw [sizeInt_toInt (h r List.mem_cons_self)]
      omega
    have hrow : Writes ((r.2.take (sizeInt r.2.length).toInt.toNat).forM fun b => put [b]) r.2 := by
      rw [hlen, List.take_length]
      have hforM := Writes.forM (l := r.2) fun b _ => Writes.put [b]
      rwa [List.flatMap_singleton'] at hforM
    rw [List.flatMap_cons, rowBytes, List.append_assoc]
    exact (Writes.put _).seq (hrow.seq (ih fun r hr => h r (List.mem_cons_of_mem _ hr)))

theorem ceil8_sizeInt (h : n < 2 ^ 31) : ceil8 (sizeInt n) = ((n + 7) / 8 : Nat) := by
  rw [ceil8, sizeInt_toInt h]
  omega

theorem getRow_parses (row : List Byte) :
    Parses (repeatM (do return (← get 1).headD 0) row.length) row row := by
  have hbyte : ∀ b ∈ row, Parses (do return (← get 1).headD 0) [b] b :=
    fun b _ => (Parses.get rfl).bind_pure (List.headD · 0)
  have hrow := Parses.repeatM hbyte
  rwa [List.flatMap_singleton'] at hrow

theorem compressedRows_roundTrips (type : InsertType) (key teamid : List Byte) (seq : BitVec 32)
    (rows : List (POLY × List Byte)) (entries : List (Double × Double))
    (hrows : ∀ r ∈ rows, r.2.length = (entries.length + 7) / 8)
    (h : 28 + key.length + teamid.length + rows.length * (4 + (entries.length + 7) / 8) +
      entries.length * 16 < 2 ^ 31) :
    RoundTrips type (makeKeyValueCompressed key teamid (rows.map (·.1)) (rows.map (·.2))
        (entries.map (·.1)) (entries.map (·.2)) seq type) getKeyValueCompressed
      ⟨key, teamid, rows.map (·.1), rows.map (·.2), sizeInt entries.length, entries.map (·.1),
        entries.map (·.2), seq⟩ := by
  have hentries : entries.length < 2 ^ 31 := by omega
  have hrowslen : rows.length < 2 ^ 31 := by
    have hpos : 0 < 4 + (entries.length + 7) / 8 := by omega
    have hle := Nat.le_mul_of_pos_right rows.length hpos
    omega
  have hn : (sizeInt entries.length).toInt.toNat = entries.length := by
    rw [sizeInt_toInt hentries]
    omega
  have hm : (sizeInt rows.length).toInt.toNat = rows.length := by
    rw [sizeInt_toInt hrowslen]
    omega
  have hceil := ceil8_sizeInt hentries
  have hzip : (entries.map (·.1)).zip (entries.map (·.2)) = entries := by
    rw [List.zip_map']
    exact List.map_id _
  simp only [makeKeyValueCompressed, List.length_map, ne_eq, not_true_eq_false, if_false, hn, hm,
    hzip, List.take_length, ← List.map_take, hceil]
  apply @roundTrips_of_body _ key teamid (intBytes seq ++
    (intBytes (sizeInt entries.length) ++ (intBytes (sizeInt rows.length) ++
      (rows.flatMap rowBytes ++ entries.flatMap pairBytes))))
  · simp only [List.length_append, length_strBytes, length_intBytes,
      length_flatMap_rowBytes hrows, length_flatMap_pairBytes]
    omega
  · have hdiv : BitVec.ofInt 32 ((entries.length + 7) / 8 : Nat) =
        sizeInt ((entries.length + 7) / 8) := BitVec.ofInt_natCast _ _
    have h16 : sizeInt 16 = 2 * 8 := rfl
    simp only [List.length_append, length_strBytes, length_intBytes,
      length_flatMap_rowBytes hrows, length_flatMap_pairBytes, sizeInt_add, sizeInt_mul,
      sizeInt_four, sizeInt_eight, h16, hdiv]
    ring
  · apply (Writes.put _).seq
    apply (Writes.put _).seq
    apply (Writes.put _).seq
    apply (putRows_writes _).seq
    · apply Writes.forM
      intro e _
      exact (Writes.put _).seq (Writes.put _)
    · intro r hr
      rw [hrows r hr]
      omega
  · apply (getInt_parses _).bind
    apply (getInt_parses _).bind
    apply (getInt_parses _).bind
    rw [hn, hm]
    apply (Parses.repeatM _).bind
    · apply (Parses.repeatM _).bind_pure
      intro e _
      apply (getDouble_parses _).bind
      exact (getDouble_parses _).bind_pure _
    · intro r hr
      apply (getInt_parses _).bind
      have hrow := getRow_parses r.2
      rw [hrows r hr] at hrow
      rw [hceil, Int.toNat_natCast]
      exact hrow.bind_pure _

theorem compressed_roundTrips (type : InsertType) (key teamid : List Byte)
    {compressedList : List POLY} {outBitmap : List (List Byte)} {freqList weightList : List Double}
    (seq : BitVec 32) (hbitmap : outBitmap.length = compressedList.length)
    (hweight : weightList.length = freqList.length)
    (hrow : ∀ row ∈ outBitmap, row.length = (freqList.length + 7) / 8)
    (h : 28 + key.length + teamid.length +
      compressedList.length * (4 + (freqList.length + 7) / 8) + freqList.length * 16 < 2 ^ 31) :
    RoundTrips type
      (makeKeyValueCompressed key teamid compressedList outBitmap freqList weightList seq type)
      getKeyValueCompressed ⟨key, teamid, compressedList, outBitmap, sizeInt freqList.length,
        freqList, weightList, seq⟩ := by
  have hrows : ((compressedList.zip outBitmap).map (·.1)) = compressedList ∧
      ((compressedList.zip outBitmap).map (·.2)) = outBitmap :=
    ⟨List.map_fst_zip (by omega), List.map_snd_zip (by omega)⟩
  have hentries : ((freqList.zip weightList).map (·.1)) = freqList ∧
      ((freqList.zip weightList).map (·.2)) = weightList :=
    ⟨List.map_fst_zip (by omega), List.map_snd_zip (by omega)⟩
  have hn : (freqList.zip weightList).length = freqList.length := by
    rw [List.length_zip]
    omega
  have hm : (compressedList.zip outBitmap).length = compressedList.length := by
    rw [List.length_zip]
    omega
  have hround := compressedRows_roundTrips type key teamid seq (compressedList.zip outBitmap)
    (freqList.zip weightList)
  rw [hn, hm, hrows.1, hrows.2, hentries.1, hentries.2] at hround
  apply hround _ h
  intro r hr
  exact hrow r.2 (List.of_mem_zip hr).2

/-- Every format with an encoder and a decoder round trips. -/
theorem wire_roundTrips (type : InsertType) (key teamid : List Byte) :
    (∀ (sigList : List (Sig × Double × Double)) (seq : BitVec 32),
      24 + key.length + teamid.length + (sigList.map fun e => 20 + e.1.length * 4).sum < 2 ^ 31 →
      RoundTrips type (makeKeyValueExec key teamid sigList seq type) getKeyValueExec
        ⟨key, teamid, sigList.map (·.1), sigList.map (·.2.1), sigList.map (·.2.2), seq⟩) ∧
    (∀ (compressedList : List POLY) (outBitmap : List (List Byte))
      (freqList weightList : List Double) (seq : BitVec 32),
      outBitmap.length = compressedList.length → weightList.length = freqList.length →
      (∀ row ∈ outBitmap, row.length = (freqList.length + 7) / 8) →
      28 + key.length + teamid.length + compressedList.length * (4 + (freqList.length + 7) / 8) +
        freqList.length * 16 < 2 ^ 31 →
      RoundTrips type
        (makeKeyValueCompressed key teamid compressedList outBitmap freqList weightList seq type)
        getKeyValueCompressed ⟨key, teamid, compressedList, outBitmap, sizeInt freqList.length,
          freqList, weightList, seq⟩) ∧
    (∀ (sig : Sig) (freq weight : Double),
      36 + key.length + teamid.length + sig.length * 4 < 2 ^ 31 →
      RoundTrips type (makeKeyValueInit key teamid sig freq weight type) getKeyValueInit
        ⟨key, teamid, sig, freq, weight⟩) ∧
    (∀ (dtd : List Byte) (sig : Sig) (qid : BitVec 32),
      28 + key.length + teamid.length + dtd.length + sig.length * 4 < 2 ^ 31 →
      RoundTrips type (makeKeyValueQuery key teamid dtd sig qid type) getKeyValueQuery
        ⟨key, teamid, dtd, sig, qid⟩) := by
  refine ⟨exec_roundTrips type key teamid, ?_, fun _ _ _ => init_roundTrips,
    fun _ _ _ => query_roundTrips⟩
  intro _ _ _ _ seq hbitmap hweight hrow h
  exact compressed_roundTrips type key teamid seq hbitmap hweight hrow h

theorem wire_roundTrips_small :
    RoundTrips .XGOSSIP (makeKeyValueExec [0x31] [] [([], 0, 1), ([5, 7], 2, 3)] 1 .XGOSSIP)
      getKeyValueExec ⟨[0x31], [], [[], [5, 7]], [0, 2], [1, 3], 1⟩ ∧
    RoundTrips .XGOSSIPC (makeKeyValueCompressed [0x31] [] [5] [[0x80]] [2] [3] 1 .XGOSSIPC)
      getKeyValueCompressed ⟨[0x31], [], [5], [[0x80]], sizeInt 1, [2], [3], 1⟩ ∧
    RoundTrips .INFORMTEAM (makeKeyValueInit [0x31] [0x32] [1] 0 1 .INFORMTEAM) getKeyValueInit
      ⟨[0x31], [0x32], [1], 0, 1⟩ ∧
    RoundTrips .QUERYX (makeKeyValueQuery [0x31] [0x32] [] [] 7 .QUERYX) getKeyValueQuery
      ⟨[0x31], [0x32], [], [], 7⟩ :=
  ⟨(wire_roundTrips .XGOSSIP [0x31] []).1 [([], 0, 1), ([5, 7], 2, 3)] 1 (by decide),
    (wire_roundTrips .XGOSSIPC [0x31] []).2.1 [5] [[0x80]] [2] [3] 1 rfl rfl (by simp) (by decide),
    (wire_roundTrips .INFORMTEAM [0x31] [0x32]).2.2.1 [1] 0 1 (by decide),
    (wire_roundTrips .QUERYX [0x31] [0x32]).2.2.2 [] [] 7 (by decide)⟩

end XGossip
