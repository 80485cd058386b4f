import XGossip.Index.Filter
import XGossip.Wire.Bounds

namespace XGossip
set_option autoImplicit true

open Codec

namespace Buf

section Code

/-- The elements of a vector that a loop up to its size, an `int`, visits. -/
def loopOver (l : List α) : List α := l.take (sizeInt l.length).toInt.toNat

/-- `buf[index] = word; index++`, where the buffer has `index` words so far; an index outside of
`0..2047` gives `none`. -/
def pushWord (buf : List POLY) (word : POLY) : Option (List POLY) :=
  if buf.length < BUFWORDS then some (buf ++ [word]) else none

def pushSig (buf : List POLY) (sig : Sig) : Option (List POLY) := do
  let buf ← pushWord buf (sizeInt sig.length)
  (loopOver sig).foldlM pushWord buf

/-- `index + 1 + (int) size > (int) sizeof(buf)`, with the sum of an `int`. -/
def overLimit (index size : Nat) : Bool :=
  (sizeInt index + 1 + sizeInt size).toInt > (BUFWORDS * 4 : Nat)

/-- The loop over the signatures, and how many of them are in the buffer then. -/
def sigLoop : List Sig → List POLY → Option (Nat × List POLY)
  | [], buf => some (0, buf)
  | sig :: sigs, buf =>
    if overLimit buf.length sig.length then some (0, buf)
    else do
      let (i, buf) ← sigLoop sigs (← pushSig buf sig)
      return (i + 1, buf)

/-- The header and the signatures, as both overloads for lists write them. -/
def fill (listOfSigs : List Sig) (type : RetrieveType) : Option (List POLY) := do
  let buf ← pushWord [] type.code
  let buf ← pushWord buf 0
  let (i, buf) ← sigLoop (loopOver listOfSigs) buf
  return buf.set 1 (sizeInt i)

/-- `makeSigData` of a list of signatures. -/
def makeSigData (listOfSigs : List Sig) (type : RetrieveType) : Option (List Byte) := do
  return (← fill listOfSigs type).flatMap intBytes

/-- `makeSigData` of a list of signatures, a value and an operator. -/
def makeSigDataValue (listOfSigs : List Sig) (valSig : Sig) (OP : OPTYPE) (type : RetrieveType) :
    Option (List Byte) := do
  let buf ← fill listOfSigs type
  let buf ← pushSig buf valSig
  -- `buf[index] = OP`, but `index` stays in front of it
  let _ ← pushWord buf OP.code
  return buf.flatMap intBytes

/-- `makeSigData` of one signature; one that is over the limit leaves `sigdata` alone. -/
def makeSigDataOne (sigdata : List Byte) (mySig : Sig) (type : RetrieveType) :
    Option (List Byte) := do
  let buf ← pushWord [] type.code
  let buf ← pushWord buf 0
  if overLimit buf.length mySig.length then return sigdata
  let buf ← pushSig buf mySig
  return (buf.set 1 1).flatMap intBytes

def getFilterV : Reader ((BitVec 32 × List Sig) × Sig × BitVec 32) := do
  return (← getFilter, ← getValue)

end Code

section Words

variable {buf buf' words : List POLY}

def castWords (sig : Sig) : List POLY := sizeInt sig.length :: loopOver sig

theorem length_loopOver_le (l : List α) : (loopOver l).length ≤ l.length := by
  rw [loopOver, List.length_take]
  exact Nat.min_le_right _ _

theorem loopOver_eq {l : List α} (h : l.length < 2 ^ 31) : loopOver l = l := by
  rw [loopOver, sizeInt_toInt h, Int.toNat_natCast, List.take_length]

theorem castWords_eq {sig : Sig} (h : sig.length < 2 ^ 31) : castWords sig = sigWords sig := by
  rw [castWords, loopOver_eq h]
  rfl

theorem length_castWords_le (sig : Sig) : (castWords sig).length ≤ (sigWords sig).length := by
  have h := length_loopOver_le sig
  simp only [castWords, sigWords, List.length_cons]
  omega

theorem pushWord_eq_some : pushWord buf word = some buf' ↔
    buf.length < BUFWORDS ∧ buf' = buf ++ [word] := by
  rw [pushWord, Option.ite_none_right_eq_some, Option.some_inj, eq_comm (a := buf')]

theorem foldlM_pushWord (h : buf.length ≤ BUFWORDS) : words.foldlM pushWord buf = some buf' ↔
    buf' = buf ++ words ∧ buf'.length ≤ BUFWORDS := by
  induction words generalizing buf with
  | nil =>
    rw [List.foldlM_nil, List.append_nil]
    constructor
    · rintro ⟨⟩
      exact ⟨rfl, h⟩
    · rintro ⟨rfl, -⟩
      rfl
  | cons word words ih =>
    rw [List.foldlM_cons]
    constructor
    · intro hw
      obtain ⟨buf₁, h₁, hw⟩ := Option.bind_eq_some_iff.1 hw
      obtain ⟨hlt, rfl⟩ := pushWord_eq_some.1 h₁
      obtain ⟨rfl, hle⟩ := (ih (by simpa using hlt)).1 hw
      exact ⟨by simp, hle⟩
    · rintro ⟨rfl, hle⟩
      have hlt : buf.length < BUFWORDS := by
        rw [List.length_append, List.length_cons] at hle
        omega
      refine Option.bind_eq_some_iff.2 ⟨_, pushWord_eq_some.2 ⟨hlt, rfl⟩, ?_⟩
      exact (ih (by simpa using hlt)).2 ⟨by simp, hle⟩

theorem pushSig_eq_some (h : buf.length ≤ BUFWORDS) : pushSig buf sig = some buf' ↔
    buf' = buf ++ castWords sig ∧ buf'.length ≤ BUFWORDS := by
  rw [← foldlM_pushWord h, castWords, List.foldlM_cons]
  rfl

theorem overLimit_eq_false (h : index + (1 + size) ≤ BUFWORDS) : overLimit index size = false := by
  rw [BUFWORDS] at h
  have hsum : sizeInt index + 1 + sizeInt size = sizeInt (index + 1 + size) := by
    rw [sizeInt_add, sizeInt_add]
    rfl
  rw [overLimit, hsum, sizeInt_toInt (by omega), BUFWORDS, decide_eq_false_iff_not]
  omega

end Words

section Loop

variable {buf buf' : List POLY} {kept sigs : List Sig}

/-- The signatures that the loop takes: all of them, or those in front of one over the limit. -/
def Stops (sigs kept : List Sig) (index : Nat) : Prop :=
  kept = sigs ∨ ∃ sig rest, sigs = kept ++ sig :: rest ∧ overLimit index sig.length

theorem stops_of_sigLoop (hbuf : buf.length ≤ BUFWORDS)
    (h : sigLoop sigs buf = some (i, buf')) :
    ∃ kept, kept.length = i ∧ buf' = buf ++ kept.flatMap castWords ∧ buf'.length ≤ BUFWORDS ∧
      kept <+: sigs ∧ Stops sigs kept buf'.length := by
  induction sigs generalizing buf i with
  | nil =>
    obtain ⟨rfl, rfl⟩ := Prod.mk.inj (Option.some.inj h)
    exact ⟨[], rfl, by simp, hbuf, List.nil_prefix, .inl rfl⟩
  | cons sig sigs ih =>
    rw [sigLoop] at h
    split at h
    · next hover =>
      obtain ⟨rfl, rfl⟩ := Prod.mk.inj (Option.some.inj h)
      exact ⟨[], rfl, by simp, hbuf, List.nil_prefix, .inr ⟨sig, sigs, rfl, hover⟩⟩
    · obtain ⟨buf₁, hpush, h⟩ := Option.bind_eq_some_iff.1 h
      obtain ⟨⟨i', buf₂⟩, hloop, h⟩ := Option.bind_eq_some_iff.1 h
      obtain ⟨rfl, rfl⟩ := Prod.mk.inj (Option.some.inj h)
      obtain ⟨rfl, hle⟩ := (pushSig_eq_some hbuf).1 hpush
      obtain ⟨kept, hlen, hbuf', hfits, hpre, hstop⟩ := ih hle hloop
      refine ⟨sig :: kept, by simp [hlen], by simp [hbuf'], hfits, ?_, ?_⟩
      · exact List.cons_prefix_cons.2 ⟨rfl, hpre⟩
      · rcases hstop with rfl | ⟨s, rest, rfl, hover⟩
        · exact .inl rfl
        · exact .inr ⟨s, rest, rfl, hover⟩

/-- Signatures that fit into the buffer are taken. -/
theorem sigLoop_of_stops (h : buf.length + (allWords kept).length ≤ BUFWORDS)
    (hstop : Stops sigs kept (buf.length + (allWords kept).length)) :
    sigLoop sigs buf = some (kept.length, buf ++ allWords kept) := by
  induction kept generalizing buf sigs with
  | nil =>
    rcases hstop with rfl | ⟨sig, rest, rfl, hover⟩
    · simp [sigLoop, allWords]
    · have hover' : overLimit buf.length sig.length = true := hover
      rw [List.nil_append, sigLoop, if_pos hover']
      simp [allWords]
  | cons sig kept ih =>
    have hwords : allWords (sig :: kept) = sigWords sig ++ allWords kept := List.flatMap_cons
    have hlen : (sigWords sig).length = 1 + sig.length := Nat.add_comm _ _
    obtain ⟨sigs', rfl, hstop'⟩ : ∃ sigs', sigs = sig :: sigs' ∧
        Stops sigs' kept (buf.length + (allWords (sig :: kept)).length) := by
      rcases hstop with rfl | ⟨s, rest, rfl, hover⟩
      · exact ⟨kept, rfl, .inl rfl⟩
      · exact ⟨_, rfl, .inr ⟨s, rest, rfl, hover⟩⟩
    rw [hwords, List.length_append, ← Nat.add_assoc, ← List.length_append] at h hstop'
    have hle : (buf ++ sigWords sig).length ≤ BUFWORDS := by omega
    have hcast : castWords sig = sigWords sig := by
      apply castWords_eq
      rw [List.length_append, BUFWORDS] at hle
      omega
    have hover : overLimit buf.length sig.length = false := by
      apply overLimit_eq_false
      rw [List.length_append] at hle
      omega
    have hpush : pushSig buf sig = some (buf ++ sigWords sig) :=
      (pushSig_eq_some (by rw [List.length_append] at hle; omega)).2 ⟨by rw [hcast], hle⟩
    rw [sigLoop, hover, hpush]
    simp only [Bool.false_eq_true, if_false, Option.bind_eq_bind, Option.bind_some, ih h hstop']
    simp [hwords]

theorem fill_eq_some (h : fill listOfSigs type = some buf) :
    ∃ kept, buf = type.code :: sizeInt kept.length :: kept.flatMap castWords ∧
      buf.length ≤ BUFWORDS ∧ kept <+: loopOver listOfSigs ∧
      Stops (loopOver listOfSigs) kept buf.length := by
  obtain ⟨⟨i, buf₁⟩, hloop, h⟩ := Option.bind_eq_some_iff.1 h
  obtain rfl := Option.some.inj h
  obtain ⟨kept, rfl, rfl, hfits, hpre, hstop⟩ := stops_of_sigLoop (by simp [BUFWORDS]) hloop
  rw [List.length_set]
  exact ⟨kept, rfl, hfits, hpre, hstop⟩

theorem fill_of_stops (h : 2 + (allWords kept).length ≤ BUFWORDS)
    (hstop : Stops (loopOver listOfSigs) kept (2 + (allWords kept).length)) :
    fill listOfSigs type = some (type.code :: sizeInt kept.length :: allWords kept) := by
  have hloop : sigLoop (loopOver listOfSigs) [type.code, 0] =
      some (kept.length, [type.code, 0] ++ allWords kept) := sigLoop_of_stops h hstop
  change ((sigLoop (loopOver listOfSigs) [type.code, 0]).bind fun r =>
    some (r.2.set 1 (sizeInt r.1))) = _
  rw [hloop]
  rfl

end Loop

section Safe

variable {kept listOfSigs : List Sig} {tail : List POLY}

theorem flatMap_intBytes_inj {l l' : List POLY} (h : l.flatMap intBytes = l'.flatMap intBytes) :
    l = l' := by
  have hlen : l.length = l'.length := by
    have := congrArg List.length h
    simp only [length_flatMap_intBytes] at this
    omega
  have hparse := Parses.repeatM (l := l) fun a _ => getInt_parses a
  have hparse' := Parses.repeatM (l := l') fun a _ => getInt_parses a
  have hrun := run_exact hparse
  have hrun' := run_exact hparse'
  rw [h, hlen, hrun', Option.some_inj] at hrun
  exact hrun.symm

/-- A filter with some of the signatures from the first one on, as many as the count word says, and
with all of them if they fit. -/
def Emits (listOfSigs : List Sig) (type : RetrieveType) (tail : List POLY) (data : List Byte) :
    Prop :=
  ∃ kept count, kept <+: listOfSigs ∧ BitVec.toNat count = kept.length ∧
    data = (type.code :: count :: (allWords kept ++ tail)).flatMap intBytes ∧
    (2 + (allWords listOfSigs).length + tail.length ≤ BUFWORDS → kept = listOfSigs)

/-- The signatures that the loop takes leave room for `words` more words in the buffer. -/
def LeavesRoom (listOfSigs : List Sig) (words : Nat) : Prop :=
  ∃ kept, Stops (loopOver listOfSigs) kept (2 + (allWords kept).length) ∧
    2 + (allWords kept).length + words ≤ BUFWORDS

theorem length_castWords_flatMap_le (kept : List Sig) :
    (kept.flatMap castWords).length ≤ (allWords kept).length := by
  induction kept with
  | nil => exact Nat.le_refl _
  | cons sig kept ih =>
    have hsig := length_castWords_le sig
    rw [allWords] at ih ⊢
    simp only [List.flatMap_cons, List.length_append]
    omega

theorem kept_of_emits (hbuf : kept.length < 2 ^ 32) (hpre : kept <+: listOfSigs)
    (h : Emits listOfSigs type tail
      ((type.code :: sizeInt kept.length :: words).flatMap intBytes)) :
    words = allWords kept ++ tail := by
  obtain ⟨kept', count, hpre', hcount, hdata, -⟩ := h
  have hwords := flatMap_intBytes_inj hdata
  simp only [List.cons.injEq, true_and] at hwords
  obtain ⟨rfl, rfl⟩ := hwords
  rw [sizeInt, BitVec.toNat_ofNat, Nat.mod_eq_of_lt hbuf] at hcount
  rw [(List.prefix_of_prefix_length_le hpre hpre' hcount.le).eq_of_length hcount]

/-- Signatures that fit into the buffer with the rest are emitted. -/
theorem emits_of_stops (h : 2 + (allWords kept).length ≤ BUFWORDS)
    (hstop : Stops (loopOver listOfSigs) kept (2 + (allWords kept).length)) :
    Emits listOfSigs type tail
      ((type.code :: sizeInt kept.length :: (allWords kept ++ tail)).flatMap intBytes) := by
  have hlen := length_list_le_allWords kept
  refine ⟨kept, sizeInt kept.length, ?_, sizeInt_toNat (by rw [BUFWORDS] at h; omega), rfl, ?_⟩
  · have hpre : kept <+: loopOver listOfSigs := by
      rcases hstop with rfl | ⟨sig, rest, heq, -⟩
      · exact List.prefix_rfl
      · rw [heq]
        exact List.prefix_append _ _
    exact hpre.trans (List.take_prefix _ _)
  · intro hfits
    have hall : loopOver listOfSigs = listOfSigs := by
      have := length_list_le_allWords listOfSigs
      rw [BUFWORDS] at hfits
      exact loopOver_eq (by omega)
    rw [hall] at hstop
    rcases hstop with rfl | ⟨sig, rest, rfl, hover⟩
    · rfl
    · have hno : overLimit (2 + (allWords kept).length) sig.length = false := by
        apply overLimit_eq_false
        simp only [allWords, List.flatMap_append, List.flatMap_cons, List.length_append,
          sigWords, List.length_cons] at hfits ⊢
        omega
      rw [hno] at hover
      cases hover

theorem length_lt_of_words (h : (type :: count :: kept.flatMap castWords).length ≤ BUFWORDS) :
    kept.length < 2 ^ 32 := by
  have hlen : kept.length ≤ (kept.flatMap castWords).length := by
    clear h
    induction kept with
    | nil => exact Nat.le_refl _
    | cons sig kept ih =>
      simp only [List.flatMap_cons, castWords, List.length_append, List.length_cons]
      omega
  simp only [List.length_cons, BUFWORDS] at h
  omega

theorem makeSigData_emits_iff :
    (∃ data, makeSigData listOfSigs type = some data ∧ Emits listOfSigs type [] data) ↔
      LeavesRoom listOfSigs 0 := by
  constructor
  · rintro ⟨data, hdata, hemits⟩
    obtain ⟨buf, hfill, hdata⟩ := Option.bind_eq_some_iff.1 hdata
    obtain rfl := Option.some.inj hdata
    obtain ⟨kept, rfl, hfits, hpre, hstop⟩ := fill_eq_some hfill
    have hwords := kept_of_emits (length_lt_of_words hfits) (hpre.trans (List.take_prefix _ _))
      hemits
    rw [List.append_nil] at hwords
    rw [hwords, List.length_cons, List.length_cons, Nat.add_assoc, Nat.add_comm] at hfits hstop
    exact ⟨kept, hstop, hfits⟩
  · rintro ⟨kept, hstop, hfits⟩
    refine ⟨_, ?_, emits_of_stops hfits hstop⟩
    rw [makeSigData, fill_of_stops hfits hstop, List.append_nil]
    rfl

theorem makeSigDataValue_emits_iff :
    (∃ data, makeSigDataValue listOfSigs valSig OP type = some data ∧
      Emits listOfSigs type (sigWords valSig) data) ↔ LeavesRoom listOfSigs (valSig.length + 2) := by
  constructor
  · rintro ⟨data, hdata, hemits⟩
    obtain ⟨buf, hfill, hdata⟩ := Option.bind_eq_some_iff.1 hdata
    obtain ⟨buf₁, hpush, hdata⟩ := Option.bind_eq_some_iff.1 hdata
    obtain ⟨buf₂, hop, hdata⟩ := Option.bind_eq_some_iff.1 hdata
    obtain rfl := Option.some.inj hdata
    obtain ⟨kept, rfl, hfits, hpre, hstop⟩ := fill_eq_some hfill
    obtain ⟨rfl, -⟩ := (pushSig_eq_some hfits).1 hpush
    obtain ⟨hroom, -⟩ := pushWord_eq_some.1 hop
    have hwords : kept.flatMap castWords ++ castWords valSig = allWords kept ++ sigWords valSig :=
      kept_of_emits (length_lt_of_words hfits) (hpre.trans (List.take_prefix _ _)) hemits
    have hkept := length_castWords_flatMap_le kept
    have hval := length_castWords_le valSig
    have hlen := congrArg List.length hwords
    have hsize : (sigWords valSig).length = valSig.length + 1 := rfl
    simp only [List.length_append, List.length_cons] at hlen hroom hstop
    have heq : (kept.flatMap castWords).length = (allWords kept).length := by omega
    rw [heq, Nat.add_assoc, Nat.add_comm] at hstop
    exact ⟨kept, hstop, by omega⟩
  · rintro ⟨kept, hstop, hfits⟩
    have hle : 2 + (allWords kept).length ≤ BUFWORDS := by omega
    have hcast : castWords valSig = sigWords valSig := by
      rw [BUFWORDS] at hfits
      exact castWords_eq (by omega)
    have hpush : pushSig (type.code :: sizeInt kept.length :: allWords kept) valSig =
        some (type.code :: sizeInt kept.length :: (allWords kept ++ sigWords valSig)) := by
      refine (pushSig_eq_some ?_).2 ⟨by rw [hcast]; rfl, ?_⟩
      · simp only [List.length_cons]
        omega
      · simp only [List.length_cons, List.length_append, sigWords]
        omega
    have hop : pushWord (type.code :: sizeInt kept.length :: (allWords kept ++ sigWords valSig))
        OP.code = some _ := pushWord_eq_some.2 ⟨by
          simp only [List.length_cons, List.length_append, sigWords]
          omega, rfl⟩
    refine ⟨_, ?_, emits_of_stops hle hstop⟩
    rw [makeSigDataValue, fill_of_stops hle hstop]
    simp only [Option.bind_eq_bind, Option.bind_some, hpush, hop]
    rfl

theorem makeSigDataOne_emits_iff :
    (∀ sigdata, ∃ data, makeSigDataOne sigdata mySig type = some data ∧
      Emits [mySig] type [] data) ↔ 3 + mySig.length ≤ BUFWORDS := by
  have hpush₀ : pushWord [] type.code = some [type.code] := rfl
  have hpush₁ : pushWord [type.code] 0 = some [type.code, 0] := rfl
  simp only [makeSigDataOne, hpush₀, hpush₁, Option.bind_eq_bind, Option.bind_some]
  constructor
  · intro h
    obtain ⟨data, hdata, hemits⟩ := h []
    split at hdata
    · obtain rfl := Option.some.inj hdata
      obtain ⟨kept, count, -, -, hdata, -⟩ := hemits
      have hlen := congrArg List.length hdata
      rw [length_flatMap_intBytes, List.length_cons, List.length_nil] at hlen
      omega
    · obtain ⟨buf, hpush, hdata⟩ := Option.bind_eq_some_iff.1 hdata
      obtain rfl := Option.some.inj hdata
      obtain ⟨rfl, hfits⟩ := (pushSig_eq_some (by simp [BUFWORDS])).1 hpush
      have hwords : castWords mySig = allWords [mySig] ++ [] :=
        kept_of_emits (show [mySig].length < 2 ^ 32 by simp) List.prefix_rfl hemits
      rw [hwords, List.append_nil, allWords, List.flatMap_singleton, List.length_append, sigWords,
        List.length_cons, List.length_cons, List.length_cons, List.length_nil] at hfits
      omega
  · intro hfits sigdata
    have hover : overLimit 2 mySig.length = false := overLimit_eq_false (by omega)
    have hcast : castWords mySig = sigWords mySig := by
      rw [BUFWORDS] at hfits
      exact castWords_eq (by omega)
    have hpush : pushSig [type.code, 0] mySig = some ([type.code, 0] ++ sigWords mySig) := by
      refine (pushSig_eq_some (by simp [BUFWORDS])).2 ⟨by rw [hcast], ?_⟩
      simp only [List.length_append, List.length_cons, List.length_nil, sigWords]
      omega
    have hlen : (allWords [mySig]).length = mySig.length + 1 := by
      rw [allWords, List.flatMap_singleton]
      rfl
    have hloop : loopOver [mySig] = [mySig] := loopOver_eq (by simp)
    have hroom : 2 + (allWords [mySig]).length ≤ BUFWORDS := by omega
    refine ⟨_, ?_, emits_of_stops hroom (.inl hloop.symm)⟩
    rw [if_neg (by simpa using hover), hpush]
    simp [allWords, sizeInt]

/-- The three overloads write only into the buffer and emit as many signatures as they count exactly
where the signatures that the limit lets through fit: it is compared with bytes instead of words,
and one signature over the limit is not emitted at all. -/
theorem makeSigData_safe_iff (listOfSigs : List Sig) (valSig mySig : Sig) (OP : OPTYPE)
    (type : RetrieveType) :
    ((∃ data, makeSigDataValue listOfSigs valSig OP type = some data ∧
      Emits listOfSigs type (sigWords valSig) data) ↔ LeavesRoom listOfSigs (valSig.length + 2)) ∧
    ((∃ data, makeSigData listOfSigs type = some data ∧ Emits listOfSigs type [] data) ↔
      LeavesRoom listOfSigs 0) ∧
    ((∀ sigdata, ∃ data, makeSigDataOne sigdata mySig type = some data ∧
      Emits [mySig] type [] data) ↔ 3 + mySig.length ≤ BUFWORDS) :=
  ⟨makeSigDataValue_emits_iff, makeSigData_emits_iff, makeSigDataOne_emits_iff⟩

/-- A signature of 2046 words, for which the buffer has one word too few. -/
theorem makeSigData_outside : ¬ ∀ (listOfSigs : List Sig) (valSig mySig : Sig) (OP : OPTYPE)
    (type : RetrieveType),
    (∃ data, makeSigDataValue listOfSigs valSig OP type = some data ∧
      Emits listOfSigs type (sigWords valSig) data) ∧
    (∃ data, makeSigData listOfSigs type = some data ∧ Emits listOfSigs type [] data) ∧
    ∀ sigdata, ∃ data, makeSigDataOne sigdata mySig type = some data ∧
      Emits [mySig] type [] data := by
  intro h
  have hsafe := (h [] [] (List.replicate 2046 1) .EQUAL .PICKCHILD).2.2
  rw [makeSigDataOne_emits_iff, List.length_replicate] at hsafe
  exact absurd hsafe (by decide)

end Safe

section Lists

/-- Signatures whose size is far from the largest `int`. -/
def Short (sigs : List Sig) : Prop := ∀ sig ∈ sigs, sig.length < 2 ^ 30

theorem overLimit_short (hindex : index ≤ BUFWORDS) (h : sig.length < 2 ^ 30) :
    overLimit index sig.length = XGossip.overLimit index (sigWords sig).length := by
  rw [BUFWORDS] at hindex
  have hsum : sizeInt index + 1 + sizeInt sig.length = sizeInt (index + (sigWords sig).length) := by
    rw [sigWords, List.length_cons, Nat.add_comm sig.length 1, sizeInt_add, sizeInt_add, ← add_assoc]
    rfl
  rw [overLimit, XGossip.overLimit, hsum, sizeInt_toInt]
  · exact decide_eq_decide.2 Int.ofNat_lt
  · rw [sigWords, List.length_cons]
    omega

theorem pushSig_short (hbuf : buf.length ≤ BUFWORDS) (h : sig.length < 2 ^ 30) :
    pushSig buf sig = (writeWords buf.length (sigWords sig)).map (buf ++ ·) := by
  have hcast : castWords sig = sigWords sig := castWords_eq (by omega)
  rw [Option.ext_iff]
  intro buf'
  rw [pushSig_eq_some hbuf, hcast, writeWords, Option.map_eq_some_iff]
  constructor
  · rintro ⟨rfl, hle⟩
    rw [List.length_append] at hle
    exact ⟨_, if_pos hle, rfl⟩
  · rintro ⟨words, hwords, rfl⟩
    simp only [Option.ite_none_right_eq_some, Option.some.injEq] at hwords
    obtain ⟨hle, rfl⟩ := hwords
    exact ⟨rfl, by rwa [List.length_append]⟩

theorem sigLoop_short (hbuf : buf.length ≤ BUFWORDS) (h : Short sigs) :
    sigLoop sigs buf = (sigDataLoop sigs buf.length).map fun r => (r.1, buf ++ r.2) := by
  induction sigs generalizing buf with
  | nil => simp [sigLoop, sigDataLoop]
  | cons sig sigs ih =>
    have hsig := h sig List.mem_cons_self
    rw [sigLoop, sigDataLoop, overLimit_short hbuf hsig, pushSig_short hbuf hsig]
    split
    · simp
    · cases hw : writeWords buf.length (sigWords sig) with
      | none => rfl
      | some words =>
        simp only [writeWords, Option.ite_none_right_eq_some, Option.some.injEq] at hw
        obtain ⟨hle, rfl⟩ := hw
        rw [← List.length_append] at hle
        have hnext := ih hle fun s hs => h s (List.mem_cons_of_mem _ hs)
        simp only [Option.map_some, Option.bind_eq_bind, Option.bind_some, hnext,
          ← List.length_append]
        cases sigDataLoop sigs (buf ++ sigWords sig).length with
        | none => rfl
        | some r => simp

theorem makeSigData_short (hlen : listOfSigs.length < 2 ^ 31) (h : Short listOfSigs)
    (type : RetrieveType) : makeSigData listOfSigs type = XGossip.makeSigData listOfSigs type := by
  have hloop : sigLoop listOfSigs [type.code, 0] = _ := sigLoop_short (by simp [BUFWORDS]) h
  change ((sigLoop (loopOver listOfSigs) [type.code, 0]).bind fun r =>
    some (r.2.set 1 (sizeInt r.1))).bind _ = _
  rw [loopOver_eq hlen, hloop, XGossip.makeSigData]
  cases sigDataLoop listOfSigs [type.code, 0].length with
  | none => rfl
  | some r => rfl

end Lists

section Value

variable {listOfSigs : List Sig} {valSig : Sig} {OP : OPTYPE}

/-- The filter of a value query comes back as it was, from bytes inside of the string. -/
def FilterSurvives (listOfSigs : List Sig) (valSig : Sig) (OP : OPTYPE) : Prop :=
  ∃ data reads, makeSigDataValue listOfSigs valSig OP .DIVISIBLEV = some data ∧
    runReader getFilterV data =
      some (((RetrieveType.DIVISIBLEV.code, listOfSigs), valSig, OP.code), reads) ∧
    ∀ offset ∈ reads, 0 ≤ offset ∧ offset < data.length

theorem makeSigDataValue_eq (h : 2 + (allWords listOfSigs).length + (valSig.length + 2) ≤ BUFWORDS)
    (type : RetrieveType) : makeSigDataValue listOfSigs valSig OP type =
      some ((type.code :: sizeInt listOfSigs.length :: allWords listOfSigs).flatMap intBytes ++
        (sigWords valSig).flatMap intBytes) := by
  have hlen := length_list_le_allWords listOfSigs
  have hloop : loopOver listOfSigs = listOfSigs := by
    rw [BUFWORDS] at h
    exact loopOver_eq (by omega)
  have hroom : LeavesRoom listOfSigs (valSig.length + 2) := ⟨listOfSigs, .inl hloop.symm, h⟩
  have hemits : ∃ data, makeSigDataValue listOfSigs valSig OP type = some data ∧
      Emits listOfSigs type (sigWords valSig) data := makeSigDataValue_emits_iff.2 hroom
  obtain ⟨data, hdata, kept, count, -, hcount, rfl, hall⟩ := hemits
  have hfits : 2 + (allWords listOfSigs).length + (sigWords valSig).length ≤ BUFWORDS := by
    simp only [sigWords, List.length_cons]
    omega
  obtain rfl := hall hfits
  have hword : count = sizeInt kept.length := by
    rw [← hcount, sizeInt, BitVec.ofNat_toNat, BitVec.setWidth_eq]
  rw [hdata, hword, ← List.flatMap_append]
  rfl

/-- The parser finds the type, the signatures and the value, and the next byte it wants is behind
the end of the string. -/
theorem getFilterV_end (h : 2 + (allWords listOfSigs).length + (valSig.length + 2) ≤ BUFWORDS)
    (type : BitVec 32) : runReader getFilterV
      ((type :: sizeInt listOfSigs.length :: allWords listOfSigs).flatMap intBytes ++
        (sigWords valSig).flatMap intBytes) = none := by
  have hcount : (sizeInt valSig.length).toInt.toNat = valSig.length := by
    rw [BUFWORDS] at h
    rw [sizeInt_toInt (by omega), Int.toNat_natCast]
  have hbuffer : FitsBuffer listOfSigs := by
    rw [FitsBuffer]
    omega
  have hfilter := getFilter_parses hbuffer type
  have hwords : Parses (repeatM getInt valSig.length) (valSig.flatMap intBytes) valSig :=
    Parses.repeatM fun a _ => getInt_parses a
  have hvalue : Parses (do
      let filter ← getFilter
      let valSize ← getInt
      return (filter, ← repeatM getInt valSize.toInt.toNat)) _ ((type, listOfSigs), valSig) :=
    hfilter.bind ((getInt_parses (sizeInt valSig.length)).bind
      (by rw [hcount]; exact hwords.bind_pure ((type, listOfSigs), ·)))
  have hop : getFilterV = (do
      let r ← (do
        let filter ← getFilter
        let valSize ← getInt
        return (filter, ← repeatM getInt valSize.toInt.toNat))
      return (r.1, r.2, ← getInt)) := by
    simp only [getFilterV, getValue, bind_assoc, pure_bind]
  rw [hop]
  refine hvalue.run_fails (((getInt_decides _ _).map fun OP => (_, _, OP)).fails ?_)
  rintro ⟨-, hout⟩
  omega

/-- The operator is never in the string of a value query. -/
theorem value_filter_lost (h : 2 + (allWords listOfSigs).length + (valSig.length + 2) ≤ BUFWORDS) :
    ¬ FilterSurvives listOfSigs valSig OP := by
  rintro ⟨data, reads, hdata, hread, -⟩
  rw [makeSigDataValue_eq h, Option.some_inj] at hdata
  rw [← hdata, getFilterV_end h] at hread
  cases hread

theorem value_filter_lost_one :
    2 + (allWords [[19]]).length + (2 + 2) ≤ BUFWORDS ∧ ¬ FilterSurvives [[19]] [5, 9] .LESS :=
  ⟨by decide, value_filter_lost (by decide)⟩

/-- A query for values below a bound. -/
theorem value_filter_counterexample : ¬ ∀ (listOfSigs : List Sig) (valSig : Sig) (OP : OPTYPE),
    2 + (allWords listOfSigs).length + (valSig.length + 2) ≤ BUFWORDS →
      FilterSurvives listOfSigs valSig OP := by
  intro h
  obtain ⟨data, reads, hdata, hread, -⟩ := h [[19]] [5, 9] .LESS (by decide)
  have hbytes : makeSigDataValue [[19]] [5, 9] .LESS .DIVISIBLEV =
      some ([2, 1, 1, 19, 2, 5, 9].flatMap intBytes) := by decide
  rw [hbytes, Option.some_inj] at hdata
  have hnone : runReader getFilterV ([2, 1, 1, 19, 2, 5, 9].flatMap intBytes) = none := by rfl
  rw [← hdata, hnone] at hread
  cases hread

end Value

end Buf

end XGossip
