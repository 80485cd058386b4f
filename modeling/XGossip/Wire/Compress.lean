import XGossip.Gossip.Lists
import XGossip.Wire.RoundTrip

namespace XGossip
set_option autoImplicit true

open Codec

/-- The bit of signature `i` in its byte of a bitmap row. -/
def mask (i : Nat) : Byte := 0x80#8 >>> (i % 8)

/-- The least POLY at the head of the unread parts of all signatures. -/
def findMinPoly (heads : List Sig) : POLY :=
  heads.foldl (fun minPoly s => match s with
    | [] => minPoly
    | p :: _ => if p < minPoly then p else minPoly) 0xffffffff

/-- One turn of the loop that marks the signatures beginning with `minPoly`. -/
def markStep (minPoly : POLY) (row : List Byte) (e : Sig × Nat) : List Byte :=
  if e.1.head? = some minPoly then row.modify (e.2 / 8) (· ||| mask e.2) else row

/-- The row of bits for `minPoly` and the signatures with the marked heads taken off. -/
def compressRow (minPoly : POLY) (heads : List Sig) : List Byte × List Sig :=
  (heads.zipIdx.foldl (markStep minPoly) (List.replicate ((heads.length + 7) / 8) 0),
    heads.map fun s => if s.head? = some minPoly then s.tail else s)

/-- The loop of `compressSignatures`; `heads` holds what the indexes have not passed. -/
def compressLoop : Nat → List Sig → Option (List (POLY × List Byte))
  | 0, _ => none
  | fuel + 1, heads =>
    if heads.all List.isEmpty then some []
    else do
      let minPoly := findMinPoly heads
      let (row, heads) := compressRow minPoly heads
      return (minPoly, row) :: (← compressLoop fuel heads)

/-- `none` where the source returns false. Every turn passes a POLY, which bounds the loop. -/
def compressSignatures (inputSig : List Sig) : Option (List POLY × List (List Byte)) :=
  if inputSig = [] ∨ [] ∈ inputSig then none
  else do
    let rows ← compressLoop ((inputSig.map List.length).sum + 1) inputSig
    return (rows.map (·.1), rows.map (·.2))

/-- The bit of signature `j` in a row. -/
def rowBit (row : List Byte) (j : Nat) : Bool := row.getD (j / 8) 0 &&& mask j ≠ 0

/-- The turn of the loop of `uncompressSignatures` for one POLY. -/
def uncompressStep (outputSig : List Sig) (r : POLY × List Byte) : List Sig :=
  outputSig.mapIdx fun j s => if rowBit r.2 j then s ++ [r.1] else s

def uncompressSignatures (inputSig : List POLY) (inputBitmap : List (List Byte))
    (numSigs : BitVec 32) : List Sig :=
  (inputSig.zip inputBitmap).foldl uncompressStep (List.replicate numSigs.toInt.toNat [])

theorem mask_and_mask (i j : Nat) : mask i &&& mask j ≠ 0 ↔ i % 8 = j % 8 := by
  have hall : ∀ a b : Fin 8, (0x80#8 >>> a.val &&& 0x80#8 >>> b.val ≠ 0) ↔ a = b := by decide
  have hij := hall ⟨i % 8, Nat.mod_lt i (by decide)⟩ ⟨j % 8, Nat.mod_lt j (by decide)⟩
  simpa only [mask, Fin.mk.injEq] using hij

theorem and_ne_zero_or (a b c : Byte) : (a ||| b) &&& c ≠ 0 ↔ a &&& c ≠ 0 ∨ b &&& c ≠ 0 := by
  rw [BitVec.and_or_distrib_right]
  exact (not_congr BitVec.or_eq_zero_iff).trans not_and_or

theorem rowBit_modify {row : List Byte} (h : i / 8 < row.length) :
    rowBit (row.modify (i / 8) (· ||| mask i)) j = (rowBit row j || decide (i = j)) := by
  have hmask := mask_and_mask i j
  simp only [rowBit, List.getD_eq_getElem?_getD, List.getElem?_modify]
  by_cases hij : i / 8 = j / 8
  · obtain ⟨b, hb⟩ : ∃ b, row[j / 8]? = some b := ⟨_, List.getElem?_eq_getElem (hij ▸ h)⟩
    have heq : i % 8 = j % 8 ↔ i = j := by omega
    simp only [hb, hij, if_true, Option.map_eq_map, Option.map_some, Option.getD_some,
      and_ne_zero_or, hmask, heq, Bool.decide_or]
  · have hne : i ≠ j := fun he => hij (congrArg (· / 8) he)
    simp [hij, hne]

theorem markStep_length (row : List Byte) (e : Sig × Nat) :
    (markStep p row e).length = row.length := by
  rw [markStep]
  split
  · exact List.length_modify _ _ _
  · rfl

/-- The bits of a row say which signatures begin with the POLY. -/
theorem foldl_markStep (p : POLY) (heads : List Sig) (k : Nat) (row : List Byte)
    (h : k + heads.length ≤ row.length * 8) :
    ((heads.zipIdx k).foldl (markStep p) row).length = row.length ∧
      ∀ j, rowBit ((heads.zipIdx k).foldl (markStep p) row) j =
        (rowBit row j || decide (k ≤ j ∧ (heads[j - k]?).bind List.head? = some p)) := by
  induction heads generalizing k row with
  | nil => simp
  | cons s heads ih =>
    rw [List.length_cons] at h
    have hrow := markStep_length (p := p) row (s, k)
    obtain ⟨hlen, hbit⟩ := ih (k + 1) (markStep p row (s, k)) (by omega)
    rw [List.zipIdx_cons, List.foldl_cons]
    refine ⟨hlen.trans hrow, ?_⟩
    intro j
    rw [hbit]
    have hstep : rowBit (markStep p row (s, k)) j =
        (rowBit row j || decide (s.head? = some p ∧ k = j)) := by
      rw [markStep]
      split
      · next hs => simp [rowBit_modify (show k / 8 < row.length by omega), hs]
      · next hs => simp [hs]
    rw [hstep, Bool.or_assoc, ← Bool.decide_or]
    congr 2
    rcases Nat.lt_trichotomy j k with hjk | rfl | hjk
    · have h1 : ¬ k ≤ j := by omega
      have h2 : ¬ k + 1 ≤ j := by omega
      have h3 : ¬ k = j := by omega
      simp [h1, h2, h3]
    · simp
    · have h1 : k ≤ j := by omega
      have h2 : k + 1 ≤ j := by omega
      have h3 : ¬ k = j := by omega
      have h4 : j - k = (j - (k + 1)) + 1 := by omega
      simp [h1, h2, h3, h4]

theorem rowBit_replicate (n j : Nat) : rowBit (List.replicate n 0) j = false := by
  have hzero : (List.replicate n (0 : Byte)).getD (j / 8) 0 = 0 := by
    rw [List.getD_eq_getElem?_getD, List.getElem?_replicate]
    split
    · rfl
    · rfl
  simp only [rowBit, hzero, decide_eq_false_iff_not, ne_eq, not_not]
  exact BitVec.zero_and

theorem compressRow_spec (p : POLY) (heads : List Sig) :
    (compressRow p heads).1.length = (heads.length + 7) / 8 ∧
      ∀ j, rowBit (compressRow p heads).1 j =
        decide ((heads[j]?).bind List.head? = some p) := by
  obtain ⟨hlen, hbit⟩ := foldl_markStep p heads 0
    (List.replicate ((heads.length + 7) / 8) 0) (by rw [List.length_replicate]; omega)
  constructor
  · exact hlen.trans List.length_replicate
  · intro j
    rw [compressRow, hbit, rowBit_replicate]
    simp

/-- The accumulated minimum is below every head and, if it has moved, is one of them. -/
theorem findMinPoly_foldl (heads : List Sig) (acc : POLY) :
    let m := heads.foldl (fun minPoly s => match s with
      | [] => minPoly
      | p :: _ => if p < minPoly then p else minPoly) acc
    (m = acc ∨ ∃ s ∈ heads, s.head? = some m) ∧ ¬ acc < m ∧
      ∀ s ∈ heads, ∀ p, s.head? = some p → ¬ p < m := by
  induction heads generalizing acc with
  | nil => simp [BitVec.lt_irrefl]
  | cons s heads ih =>
    rw [List.foldl_cons]
    match s with
    | [] =>
      obtain ⟨hm, hacc, hle⟩ := ih acc
      refine ⟨hm.imp_right fun ⟨s, hs, h⟩ => ⟨s, List.mem_cons_of_mem _ hs, h⟩, hacc, ?_⟩
      intro s hs p hp
      rcases List.mem_cons.1 hs with rfl | hs
      · cases hp
      · exact hle s hs p hp
    | q :: t =>
      by_cases hq : q < acc
      · simp only [if_pos hq]
        obtain ⟨hm, hacc, hle⟩ := ih q
        refine ⟨.inr ?_, fun hlt => hacc (BitVec.lt_trans hq hlt), ?_⟩
        · rcases hm with hm | ⟨s, hs, h⟩
          · exact ⟨q :: t, List.mem_cons_self, congrArg some hm.symm⟩
          · exact ⟨s, List.mem_cons_of_mem _ hs, h⟩
        · intro s hs p hp
          rcases List.mem_cons.1 hs with rfl | hs
          · cases hp
            exact hacc
          · exact hle s hs p hp
      · simp only [if_neg hq]
        obtain ⟨hm, hacc, hle⟩ := ih acc
        refine ⟨hm.imp_right fun ⟨s, hs, h⟩ => ⟨s, List.mem_cons_of_mem _ hs, h⟩, hacc, ?_⟩
        intro s hs p hp
        rcases List.mem_cons.1 hs with rfl | hs
        · cases hp
          bv_omega
        · exact hle s hs p hp

theorem findMinPoly_mem (hs : s ∈ heads) (hne : s ≠ []) :
    ∃ s ∈ heads, List.head? s = some (findMinPoly heads) := by
  obtain ⟨hm, -, hle⟩ := findMinPoly_foldl heads 0xffffffff
  rcases hm with hm | hm
  · match s with
    | [] => exact (hne rfl).elim
    | p :: t =>
      have hp := hle (p :: t) hs p rfl
      rw [hm] at hp
      have hmax : p = 0xffffffff := by bv_omega
      exact ⟨p :: t, hs, congrArg some (hmax.trans hm.symm)⟩
  · exact hm

/-- A turn passes at least one POLY. -/
theorem compressRow_lt (hs : s ∈ heads) (hp : List.head? s = some p) :
    ((compressRow p heads).2.map List.length).sum < (heads.map List.length).sum := by
  have hle : ∀ s : Sig, (if s.head? = some p then s.tail else s).length ≤ s.length := by
    intro s
    split
    · rw [List.length_tail]
      omega
    · exact Nat.le_refl _
  rw [compressRow, List.map_map]
  induction heads with
  | nil => cases hs
  | cons t heads ih =>
    simp only [List.map_cons, List.sum_cons, Function.comp_def]
    have hsum : (heads.map fun s => (if s.head? = some p then s.tail else s).length).sum ≤
        (heads.map List.length).sum := List.sum_le_sum fun s _ => hle s
    rcases List.mem_cons.1 hs with rfl | hs
    · rw [if_pos hp]
      match s with
      | [] => cases hp
      | _ :: t =>
        rw [List.tail_cons, List.length_cons]
        omega
    · have hlt := ih hs
      simp only [Function.comp_def] at hlt
      have ht := hle t
      omega

/-- Reading a row puts the POLY back in front of what the turn has left. -/
theorem uncompressStep_eq {out : List Sig} (h : out.length = heads.length) :
    List.zipWith (· ++ ·) (uncompressStep out (p, (compressRow p heads).1))
      (compressRow p heads).2 = List.zipWith (· ++ ·) out heads := by
  apply List.ext_getElem?
  intro j
  have hbit := (compressRow_spec p heads).2
  have hrest : (compressRow p heads).2 =
      heads.map fun s => if s.head? = some p then s.tail else s := rfl
  simp only [uncompressStep, hbit, hrest, List.getElem?_zipWith, List.getElem?_mapIdx,
    List.getElem?_map]
  cases hout : out[j]? with
  | none => rfl
  | some o =>
    have hlt : j < heads.length := h ▸ (List.getElem?_eq_some_iff.1 hout).1
    obtain ⟨s, hs⟩ : ∃ s, heads[j]? = some s := ⟨_, List.getElem?_eq_getElem hlt⟩
    simp only [hs, Option.map_some, Option.bind_some, decide_eq_true_eq]
    split
    · next hp =>
      match s with
      | [] => cases hp
      | q :: t =>
        cases hp
        simp
    · rfl

theorem exists_unread {heads : List Sig} (h : ¬ heads.all List.isEmpty = true) :
    ∃ s ∈ heads, s ≠ [] := by
  by_contra hno
  apply h
  rw [List.all_eq_true]
  intro s hs
  rw [List.isEmpty_iff]
  by_contra hne
  exact hno ⟨s, hs, hne⟩

theorem compressLoop_spec (heads : List Sig) (h : (heads.map List.length).sum < fuel) :
    ∃ rows, compressLoop fuel heads = some rows ∧
      (∀ r ∈ rows, r.2.length = (heads.length + 7) / 8) ∧
      ∀ out : List Sig, out.length = heads.length →
        rows.foldl uncompressStep out = List.zipWith (· ++ ·) out heads := by
  induction fuel generalizing heads with
  | zero => omega
  | succ fuel ih =>
    rw [compressLoop]
    split
    · next hall =>
      refine ⟨[], rfl, nofun, ?_⟩
      intro out hout
      apply List.ext_getElem?
      intro j
      simp only [List.foldl_nil, List.getElem?_zipWith]
      cases ho : out[j]? with
      | none => rfl
      | some o =>
        have hlt : j < heads.length := hout ▸ (List.getElem?_eq_some_iff.1 ho).1
        have hnil := List.all_eq_true.1 hall heads[j] (List.getElem_mem hlt)
        rw [List.isEmpty_iff] at hnil
        simp [List.getElem?_eq_getElem hlt, hnil]
    · next hall =>
      obtain ⟨s, hs, hne⟩ := exists_unread hall
      obtain ⟨s', hs', hp⟩ := findMinPoly_mem hs hne
      have hlt := compressRow_lt hs' hp
      obtain ⟨rows, hloop, hlen, hout⟩ :=
        ih (compressRow (findMinPoly heads) heads).2 (by omega)
      have hheads : (compressRow (findMinPoly heads) heads).2.length = heads.length :=
        List.length_map _
      refine ⟨(findMinPoly heads, (compressRow (findMinPoly heads) heads).1) :: rows, ?_, ?_, ?_⟩
      · simp only [hloop, Option.bind_eq_bind, Option.bind_some, Option.pure_def]
      · intro r hr
        rcases List.mem_cons.1 hr with rfl | hr
        · exact (compressRow_spec _ heads).1
        · rw [hlen r hr, hheads]
      · intro out hlen'
        have hstep : (uncompressStep out (findMinPoly heads,
            (compressRow (findMinPoly heads) heads).1)).length = out.length :=
          List.length_mapIdx
        rw [List.foldl_cons, hout _ (by omega), uncompressStep_eq hlen']

/-- The loop terminates, and its rows decompress to the signatures in their order. -/
theorem compressSignatures_spec {inputSig : List Sig} (hne : inputSig ≠ []) (hnil : [] ∉ inputSig) :
    ∃ outputSig outputBitmap, compressSignatures inputSig = some (outputSig, outputBitmap) ∧
      outputBitmap.length = outputSig.length ∧
      (∀ row ∈ outputBitmap, row.length = (inputSig.length + 7) / 8) ∧
      ∀ numSigs, numSigs.toInt.toNat = inputSig.length →
        uncompressSignatures outputSig outputBitmap numSigs = inputSig := by
  obtain ⟨rows, hloop, hlen, hout⟩ := compressLoop_spec inputSig (Nat.lt_succ_self _)
  refine ⟨rows.map (·.1), rows.map (·.2), ?_, by simp, ?_, ?_⟩
  · rw [compressSignatures, if_neg (by simp [hne, hnil]), hloop]
    rfl
  · intro row hrow
    obtain ⟨r, hr, rfl⟩ := List.mem_map.1 hrow
    exact hlen r hr
  · intro numSigs hn
    have hzip : (rows.map (·.1)).zip (rows.map (·.2)) = rows := by
      rw [List.zip_map']
      exact List.map_id _
    have hlen' : (List.replicate inputSig.length ([] : Sig)).length = inputSig.length :=
      List.length_replicate
    rw [uncompressSignatures, hn, hzip, hout _ hlen']
    apply List.ext_getElem?
    intro j
    rw [List.getElem?_zipWith, List.getElem?_replicate]
    by_cases hj : j < inputSig.length
    · simp [hj]
    · simp [hj]

/-- What the receiver decodes of the bytes that were sent; all of them have to be written. -/
def received (enc : Option (BitVec 32 × List (Option Byte)))
    (dec : BitVec 32 → Reader (Option α)) : Option α := do
  let (len, data) ← enc
  let bytes ← data.mapM id
  let (fields, _) ← runReader (dec len) bytes
  fields

theorem RoundTrips.received (h : RoundTrips type enc dec a) : received enc dec = some a := by
  obtain ⟨len, bytes, rfl, -, -, -, hdec⟩ := h
  have hbytes : (bytes.map some).mapM id = some bytes := by
    rw [List.mapM_map]
    simpa using List.mapM_pure (m := Option) (l := bytes) (f := id)
  simp only [XGossip.received, Option.bind_eq_bind, Option.bind_some, hbytes, hdec]

def sendPlain (key teamid : List Byte) (m : MapType Double) (seq : BitVec 32)
    (type : InsertType) : Option ExecFields :=
  received (makeKeyValueExec key teamid m.entries seq type) getKeyValueExec

def sendCompressed (key teamid : List Byte) (m : MapType Double) (seq : BitVec 32)
    (type : InsertType) : Option ExecFields := do
  let (sigList, freqList, weightList) := vecomap2vec m
  let (compressedList, outBitmap) ← compressSignatures sigList
  let f ← received (makeKeyValueCompressed key teamid compressedList outBitmap freqList
    weightList seq type) getKeyValueCompressed
  return ⟨f.key, f.teamid, uncompressSignatures f.compressedList f.outBitmap f.numSigs,
    f.freqList, f.weightList, f.seq⟩

/-- Both paths deliver the list as it is. -/
theorem sendCompressed_eq_sendPlain (key teamid : List Byte) (m : MapType Double)
    (seq : BitVec 32) (type typeC : InsertType) (hne : m.entries ≠ [])
    (hsig : ∀ s ∈ m.keys, s ≠ [])
    (hplain : 24 + key.length + teamid.length +
      (m.entries.map fun e => 20 + e.1.length * 4).sum < 2 ^ 31)
    (hcompressed : ∀ compressedList outBitmap,
      compressSignatures m.keys = some (compressedList, outBitmap) →
      28 + key.length + teamid.length + compressedList.length * (4 + (m.size + 7) / 8) +
        m.size * 16 < 2 ^ 31) :
    sendCompressed key teamid m seq typeC = sendPlain key teamid m seq type ∧
      sendPlain key teamid m seq type = some ⟨key, teamid, m.keys, m.entries.map (·.2.1),
        m.entries.map (·.2.2), seq⟩ := by
  have hkeys : m.keys ≠ [] := fun hnil => hne (List.map_eq_nil_iff.1 hnil)
  have hsize : m.keys.length = m.size := List.length_map _
  have hfreq : (m.entries.map (·.2.1)).length = m.size := List.length_map _
  have hweight : (m.entries.map (·.2.2)).length = m.size := List.length_map _
  obtain ⟨cl, bm, hc, hlen, hrow, huncompress⟩ :=
    compressSignatures_spec hkeys fun hnil => hsig [] hnil rfl
  have hfit := hcompressed cl bm hc
  have hplain' := (exec_roundTrips type key teamid m.entries seq hplain).received
  rw [hsize] at hrow huncompress
  rw [← hfreq] at hfit hrow
  have hcomp := (compressed_roundTrips typeC key teamid seq hlen (hweight.trans hfreq.symm)
    hrow hfit).received
  have hnum : (sizeInt (m.entries.map (·.2.1)).length).toInt.toNat = m.size := by
    rw [sizeInt_toInt (by omega)]
    omega
  have hsend : sendPlain key teamid m seq type = some ⟨key, teamid, m.keys,
      m.entries.map (·.2.1), m.entries.map (·.2.2), seq⟩ := hplain'
  refine ⟨?_, hsend⟩
  rw [hsend]
  simp only [sendCompressed, vecomap2vec, Option.bind_eq_bind]
  rw [← SortedMap.keys, hc, Option.bind_some, hcomp, Option.bind_some, huncompress _ hnum]
  rfl

theorem sendCompressed_eq_sendPlain_two :
    sendCompressed [0x31] [0x32] ⟨[([0xffffffff], (0, 1)), ([5, 3, 5], (1, 2))], by decide⟩ 7
        .XGOSSIPC =
      some ⟨[0x31], [0x32], [[0xffffffff], [5, 3, 5]], [0, 1], [1, 2], 7⟩ := by
  have hc : compressSignatures [[0xffffffff], [5, 3, 5]] =
      some ([5, 3, 5, 0xffffffff], [[0x40], [0x40], [0x40], [0x80]]) := by decide
  have hsend := sendCompressed_eq_sendPlain [0x31] [0x32]
    ⟨[([0xffffffff], (0, 1)), ([5, 3, 5], (1, 2))], by decide⟩ 7 .XGOSSIP .XGOSSIPC
    (by simp) (by decide) (by decide) (by
      intro cl bm h
      cases hc.symm.trans h
      decide)
  exact hsend.1.trans hsend.2

end XGossip
