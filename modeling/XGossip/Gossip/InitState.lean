import XGossip.Gossip.Peer
import XGossip.Lib.Text

namespace XGossip
set_option autoImplicit true

open Text

def hexVal? (c : Char) : Option Nat :=
  if '0' ≤ c ∧ c ≤ '9' then some (c.toNat - '0'.toNat)
  else if 'a' ≤ c ∧ c ≤ 'f' then some (c.toNat - 'a'.toNat + 10)
  else if 'A' ≤ c ∧ c ≤ 'F' then some (c.toNat - 'A'.toNat + 10)
  else none

def str2chordIDLoop : List Char → ChordID → ChordID
  | [], newID => newID
  | c :: cs, newID =>
    match hexVal? c with
    | some x => str2chordIDLoop cs ((newID <<< 4) ||| x)
    | none => newID <<< 4

/-- The new value of `newID`, which a text of more than 40 digits leaves alone. -/
def str2chordID (c : List Char) (newID : ChordID) : ChordID :=
  if 40 < c.length then newID else str2chordIDLoop c 0

/-- The new value of `buf`, which an empty signature leaves alone. -/
def sig2str (sig : Sig) (buf : List Char) : List Char :=
  if sig = [] then buf else sig.flatMap fun p => showNat p.toNat ++ ['-']

def string2sig (buf : List Char) : Sig :=
  if buf = [] then [] else (tokenize '-' buf).map fun t => BitVec.ofInt 32 (strtol t)

def entryText (sigbuf : List Char) (v : ℚ × ℚ) : List Char :=
  sigbuf ++ ':' :: (showF v.1 ++ ':' :: (showF v.2 ++ ['\n']))

/-- The text written so far and `sigbuf`. -/
def logEntry (st : List Char × List Char) (e : Sig × ℚ × ℚ) : List Char × List Char :=
  let sigbuf := sig2str e.1 st.2
  (st.1 ++ entryText sigbuf e.2, sigbuf)

def indexText (i size : Nat) (teamID : List Char) : List Char :=
  "index".toList ++ ':' :: (showNat i ++ ':' :: ("listsize".toList ++ ':' :: (showNat size ++
    ':' :: ("teamID".toList ++ ':' :: (teamID ++ ['\n'])))))

/-- The list of an index that is recorded; the merged list is first. -/
def Peer.listAt (p : Peer ℚ) (i : Nat) : MapType ℚ := (p.totalT.getD i []).headD .empty

section
variable (showID : ChordID → List Char)

def logList (p : Peer ℚ) (st : List Char × List Char) (i : Nat) : List Char × List Char :=
  let ID := findteamid p.teamindex i
  if ID = 0 then st
  else
    (p.listAt i).entries.foldl logEntry
      (st.1 ++ indexText i (p.listAt i).size (showID ID), st.2)

/-- The file `loginitstate` writes; `showID` is how a stream writes a `bigint`. -/
def loginitstate (p : Peer ℚ) : List Char :=
  ((List.range p.totalT.length).foldl (logList showID p) ([], [])).1

end

/-- The variables of `loadinitstate` and the state it adds to. -/
structure LoadState where
  peer : Peer ℚ
  teamID : ChordID
  uniqueSigList : MapType ℚ
  n : Nat

/-- One line of the file; a missing token is read out of bounds. -/
def loadLine (tsize : Nat) (st : LoadState) (line : List Char) : Option LoadState := do
  let tokens := tokenize ':' line
  let token ← tokens[0]?
  if token = "index".toList then
    let tind := strtol (← tokens[1]?)
    let t := (← tokens.getLast?).dropLast
    let teamID := str2chordID t st.teamID
    let ixs := (st.peer.teamindex.find? teamID).getD []
    let teamindex := st.peer.teamindex.insert teamID (ixs ++ [(tsize + tind).toNat])
    if st.n ≠ 0 then
      return ⟨⟨st.peer.totalT ++ [[st.uniqueSigList]], teamindex⟩, teamID, .empty, st.n + 1⟩
    else return ⟨⟨st.peer.totalT, teamindex⟩, teamID, st.uniqueSigList, st.n + 1⟩
  else
    let freq := strtod (← tokens[1]?)
    let weight := strtod (← tokens[2]?)
    return { st with uniqueSigList := st.uniqueSigList.push (string2sig token) (freq, weight) }

def loadinitstate (p : Peer ℚ) (file : List Char) : Option (Peer ℚ) := do
  let st ← (getlines file).foldlM (loadLine p.totalT.length) ⟨p, 0, .empty, 0⟩
  if st.n ≠ 0 then return { st.peer with totalT := st.peer.totalT ++ [[st.uniqueSigList]] }
  else return st.peer

/-- A state that the file format can record. Indexes are of type `int`. -/
structure Recordable (p : Peer ℚ) : Prop where
  index : p.teamindex.Bijective p.totalT.length
  ids : ∀ t ixs, p.teamindex.find? t = some ixs → t ≠ 0 ∧ t < 2 ^ 160
  count : p.totalT.length < 2 ^ 31
  lists : ∀ T ∈ p.totalT, ∃ m rest, T = m :: rest ∧ m.entries ≠ [] ∧
    ∀ e ∈ m.entries, e.1 ≠ [] ∧ SixDecimals e.2.1 ∧ SixDecimals e.2.2

theorem hexVal?_digitChar (h : d < 16) : hexVal? d.digitChar = some d := by
  have hall : ∀ d : Fin 16, hexVal? (Nat.digitChar d.val) = some d.val := by decide
  exact hall ⟨d, h⟩

theorem str2chordIDLoop_toDigits (n : Nat) (s : List Char) :
    str2chordIDLoop (Nat.toDigits 16 n ++ s) 0 = str2chordIDLoop s n := by
  induction n using Nat.strongRecOn generalizing s with
  | ind n ih =>
    have hor : ∀ a x : Nat, x < 16 → (a <<< 4) ||| x = a * 16 + x := by
      intro a x hx
      rw [← Nat.shiftLeft_add_eq_or_of_lt (i := 4) hx, Nat.shiftLeft_eq]
    rw [Nat.toDigits_eq_if (by decide)]
    split
    · next hn =>
      simp only [List.cons_append, List.nil_append, str2chordIDLoop, hexVal?_digitChar hn,
        hor 0 n hn, Nat.zero_mul, Nat.zero_add]
    · next hn =>
      have hd : n % 16 < 16 := Nat.mod_lt n (by decide)
      rw [List.append_assoc, ih (n / 16) (by omega), List.cons_append, List.nil_append,
        str2chordIDLoop, hexVal?_digitChar hd]
      simp only [hor _ _ hd]
      rw [Nat.div_add_mod']

theorem str2chordID_toDigits (h : n < 2 ^ 160) (newID : ChordID) :
    str2chordID (Nat.toDigits 16 n) newID = n := by
  have hlen : (Nat.toDigits 16 n).length ≤ 40 :=
    (Nat.length_toDigits_le_iff (by decide) (by decide)).2 (by omega)
  have hloop := str2chordIDLoop_toDigits n []
  rw [List.append_nil] at hloop
  rw [str2chordID, if_neg (by omega), hloop]
  rfl

theorem mem_toDigits_sixteen (h : c ∈ Nat.toDigits 16 n) : (hexVal? c).isSome := by
  induction n using Nat.strongRecOn with
  | ind n ih =>
    rw [Nat.toDigits_eq_if (by decide)] at h
    split at h
    · next hn => simp [List.mem_singleton.1 h, hexVal?_digitChar hn]
    · next hn =>
      rcases List.mem_append.1 h with h | h
      · exact ih (n / 16) (by omega) h
      · simp [List.mem_singleton.1 h, hexVal?_digitChar (Nat.mod_lt n (by decide : 0 < 16))]

theorem sig2str_eq (h : sig ≠ []) :
    sig2str sig buf = sig.flatMap fun p => showNat p.toNat ++ ['-'] := if_neg h

theorem not_mem_showNat (h : ¬ c.isDigit) : c ∉ showNat n :=
  fun hc => h (isDigit_of_mem_showNat hc)

theorem tokenize_sig (sig : Sig) :
    tokenize '-' (sig.flatMap fun p => showNat p.toNat ++ ['-']) =
      sig.map fun p => showNat p.toNat := by
  induction sig with
  | nil => rfl
  | cons p sig ih =>
    rw [List.flatMap_cons, List.append_assoc, List.cons_append, List.nil_append,
      tokenize_cons (showNat_ne_nil _) (not_mem_showNat (by decide)), ih, List.map_cons]

theorem string2sig_sig2str (h : sig ≠ []) : string2sig (sig2str sig buf) = sig := by
  have hne : sig2str sig buf ≠ [] := by
    cases sig with
    | nil => exact (h rfl).elim
    | cons p sig => simp [sig2str]
  have hpoly : ∀ p : POLY, BitVec.ofInt 32 (strtol (showNat p.toNat)) = p := by
    intro p
    have hp := strtol_showNat (s := []) (n := p.toNat) (by omega) nofun
    rw [List.append_nil] at hp
    rw [hp, BitVec.ofInt_natCast, BitVec.ofNat_toNat, BitVec.setWidth_eq]
  rw [string2sig, if_neg hne, sig2str_eq h, tokenize_sig, List.map_map]
  simp only [Function.comp_def, hpoly, List.map_id']

theorem mem_showF (h : c ∈ showF x) : c.isDigit ∨ c = '.' ∨ c = '-' := by
  rw [showF] at h
  rcases List.mem_append.1 h with h | h
  · split at h
    · exact .inr (.inr (List.mem_singleton.1 h))
    · cases h
  · rcases List.mem_append.1 h with h | h
    · exact .inl (isDigit_of_mem_showNat h)
    · rcases List.mem_cons.1 h with h | h
      · exact .inr (.inl h)
      · exact .inl (isDigit_of_mem_showSix h)

theorem showF_ne_nil (x : ℚ) : showF x ≠ [] := by
  rw [showF]
  simp

theorem mem_sig2str (hsig : sig ≠ []) (h : c ∈ sig2str sig buf) : c.isDigit ∨ c = '-' := by
  rw [sig2str_eq hsig] at h
  obtain ⟨p, -, hp⟩ := List.mem_flatMap.1 h
  rcases List.mem_append.1 hp with hp | hp
  · exact .inl (isDigit_of_mem_showNat hp)
  · exact .inr (List.mem_singleton.1 hp)

theorem not_mem_texts (buf : List Char) (hd : ¬ d.isDigit) (hdot : d ≠ '.') (hminus : d ≠ '-')
    (hsig : sig ≠ []) :
    d ∉ sig2str sig buf ∧ ∀ x, d ∉ showF x := by
  constructor
  · intro h
    rcases mem_sig2str hsig h with h | h
    · exact hd h
    · exact hminus h
  · intro x h
    rcases mem_showF h with h | h | h
    · exact hd h
    · exact hdot h
    · exact hminus h

theorem sig2str_ne_nil (h : sig ≠ []) : sig2str sig buf ≠ [] := by
  cases sig with
  | nil => exact (h rfl).elim
  | cons p sig => simp [sig2str]

theorem tokenize_entryText (h : sig ≠ []) (v : ℚ × ℚ) :
    tokenize ':' (entryText (sig2str sig buf) v) =
      [sig2str sig buf, showF v.1, showF v.2 ++ ['\n']] := by
  obtain ⟨hsig, hF⟩ := not_mem_texts (d := ':') buf (by decide) (by decide) (by decide) h
  rw [entryText, tokenize_cons (sig2str_ne_nil h) hsig, tokenize_cons (showF_ne_nil _) (hF _),
    tokenize_last (by simp)]
  simp [hF]

theorem entryText_isLine (h : sig ≠ []) (v : ℚ × ℚ) : IsLine (entryText (sig2str sig buf) v) := by
  obtain ⟨hsig, hF⟩ := not_mem_texts (d := '\n') buf (by decide) (by decide) (by decide) h
  refine ⟨sig2str sig buf ++ ':' :: (showF v.1 ++ ':' :: showF v.2), by simp [entryText], ?_⟩
  simp [hsig, hF]

theorem loadLine_entryText (h : sig ≠ []) (hf : SixDecimals v.1) (hw : SixDecimals v.2) :
    loadLine tsize st (entryText (sig2str sig buf) v) =
      some { st with uniqueSigList := st.uniqueSigList.push sig v } := by
  have hne : sig2str sig buf ≠ "index".toList := by
    intro he
    have hi : 'i' ∈ sig2str sig buf := by
      rw [he]
      decide
    rcases mem_sig2str h hi with hi | hi
    · exact absurd hi (by decide)
    · exact absurd hi (by decide)
  have hfreq := strtod_showF (s := []) hf nofun
  have hweight := strtod_showF (s := ['\n']) hw (by intro c hc; cases hc; decide)
  rw [List.append_nil] at hfreq
  simp only [loadLine, tokenize_entryText h, List.getElem?_cons_zero, List.getElem?_cons_succ,
    Option.bind_eq_bind, Option.bind_some, if_neg hne, hfreq, hweight, string2sig_sig2str h]
  rfl

theorem not_mem_toDigits_sixteen (h : hexVal? c = none) : c ∉ Nat.toDigits 16 n := by
  intro hc
  have hs := mem_toDigits_sixteen hc
  rw [h] at hs
  cases hs

theorem tokenize_indexText (i size n : Nat) :
    tokenize ':' (indexText i size (Nat.toDigits 16 n)) =
      ["index".toList, showNat i, "listsize".toList, showNat size, "teamID".toList,
        Nat.toDigits 16 n ++ ['\n']] := by
  have hnum : ∀ n, ':' ∉ showNat n := fun n => not_mem_showNat (by decide)
  have hid : ':' ∉ Nat.toDigits 16 n := not_mem_toDigits_sixteen (by decide)
  rw [indexText, tokenize_cons (by decide) (by decide), tokenize_cons (showNat_ne_nil _) (hnum _),
    tokenize_cons (by decide) (by decide), tokenize_cons (showNat_ne_nil _) (hnum _),
    tokenize_cons (by decide) (by decide), tokenize_last (by simp)]
  simp [hid]

theorem indexText_isLine (i size n : Nat) : IsLine (indexText i size (Nat.toDigits 16 n)) := by
  have hnum : ∀ n, '\n' ∉ showNat n := fun n => not_mem_showNat (by decide)
  have hid : '\n' ∉ Nat.toDigits 16 n := not_mem_toDigits_sixteen (by decide)
  refine ⟨"index".toList ++ ':' :: (showNat i ++ ':' :: ("listsize".toList ++ ':' ::
    (showNat size ++ ':' :: ("teamID".toList ++ ':' :: Nat.toDigits 16 n)))),
    by simp [indexText], ?_⟩
  simp [hnum, hid]

theorem loadLine_indexText (hi : i < 2 ^ 63) (ht : t < 2 ^ 160) :
    loadLine tsize st (indexText i size (Nat.toDigits 16 t)) =
      some ⟨⟨if st.n = 0 then st.peer.totalT else st.peer.totalT ++ [[st.uniqueSigList]],
        st.peer.teamindex.insert t ((st.peer.teamindex.find? t).getD [] ++ [tsize + i])⟩, t,
        if st.n = 0 then st.uniqueSigList else .empty, st.n + 1⟩ := by
  have hind := strtol_showNat (s := []) hi nofun
  rw [List.append_nil] at hind
  have hlast : (["index".toList, showNat i, "listsize".toList, showNat size, "teamID".toList,
      Nat.toDigits 16 t ++ ['\n']]).getLast? = some (Nat.toDigits 16 t ++ ['\n']) := rfl
  have hcast : ((tsize : Int) + (i : Int)).toNat = tsize + i := by omega
  simp only [loadLine, tokenize_indexText, hlast, List.getElem?_cons_zero, List.getElem?_cons_succ,
    Option.bind_eq_bind, Option.bind_some, if_true, hind, List.dropLast_concat,
    str2chordID_toDigits ht, hcast]
  split
  · simp
  · next hn =>
    have hn : st.n = 0 := by simpa using hn
    simp [hn]

end XGossip
