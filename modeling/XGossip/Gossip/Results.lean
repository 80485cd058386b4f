import XGossip.Gossip.InitState
import XGossip.NodeParams

namespace XGossip
set_option autoImplicit true

open Text

-- the doubles of a results file are only stored and added, so that these and `strtod` are
-- parameters
variable {δ : Type}

section Load

abbrev QidMap (ν : Type*) := SortedMap (fun a b : Int => a < b) ν

/-- What is known of the queries whose results have been read. -/
structure Results (δ : Type) where
  msgtype : InsertType
  qid2querysig : QidMap (List Sig)
  qid2teamIDs : QidMap (List ChordID)
  qid2dtd : QidMap (List (List Char))
  qid2sigs : QidMap (List Sig)
  qid2id : QidMap Nat
  allsig2avg : List (SortedMap SigLt (List δ))
  allT : Vecomap δ

/-- The variables of `loadresults` that a line leaves to the next ones. -/
structure LoadResults (δ : Type) extends Results δ where
  qid : Int
  teamID : ChordID
  sig2avg : SortedMap SigLt (List δ)

/-- `addteamID`, and the map from queries to signatures: what is already there is not added. -/
def addNew [DecidableEq α] (qid : Int) (a : α) (m : QidMap (List α)) : QidMap (List α) :=
  match m.find? qid with
  | some as => if a ∈ as then m else m.insert qid (as ++ [a])
  | none => m.insert qid [a]

def addqid (qid : Int) (querysig : Sig) (m : QidMap (List Sig)) : QidMap (List Sig) :=
  m.push qid [querysig]

def addteamID (qid : Int) (teamID : ChordID) (m : QidMap (List ChordID)) : QidMap (List ChordID) :=
  addNew qid teamID m

def addAvg (m : SortedMap SigLt (List δ)) (sig : Sig) (avg : δ) : SortedMap SigLt (List δ) :=
  m.insert sig ((m.find? sig).getD [] ++ [avg])

/-- Add an avg to the map of the current query; a query that has none gets `sig2avg`. -/
def addSuperset (st : LoadResults δ) (sig : Sig) (avg : δ) : Option (LoadResults δ) :=
  match st.qid2id.find? st.qid with
  | some avgid => do
    let m ← st.allsig2avg[avgid]?
    return { st with allsig2avg := st.allsig2avg.set avgid (addAvg m sig avg) }
  | none =>
    let sig2avg := addAvg st.sig2avg sig avg
    some { st with
      sig2avg := sig2avg
      qid2id := st.qid2id.insert st.qid st.allsig2avg.length
      allsig2avg := st.allsig2avg ++ [sig2avg] }

/-- `tokenize(linestr, tokens, ": ")` -/
def lineTokens (line : List Char) : List (List Char) :=
  (line.splitOnP fun c => c = ':' ∨ c = ' ').filter fun t => !t.isEmpty

def typeOfToken (token : List Char) : Option InsertType :=
  if token = "QUERYS".toList then some .QUERYS
  else if token = "QUERYX".toList then some .QUERYX
  else if token = "QUERYXP".toList then some .QUERYXP
  else none

/-- An `int` that a long is assigned to. -/
def intOfLong (n : Int) : Int := (BitVec.ofInt 32 n).toInt

def queryresultLine (st : LoadResults δ) (tokens : List (List Char)) : Option (LoadResults δ) := do
  let qid := intOfLong (strtol (← tokens[3]?))
  let querysig := string2sig (← tokens[5]?)
  let dtd ← tokens[7]?
  let teamID := str2chordID (← tokens.getLast?).dropLast st.teamID
  let st := { st with qid, teamID }
  if st.msgtype = .QUERYX ∨ st.msgtype = .QUERYXP then
    return { st with
      qid2querysig := addqid qid querysig st.qid2querysig
      qid2teamIDs := addteamID qid teamID st.qid2teamIDs
      qid2dtd := st.qid2dtd.push qid [dtd] }
  else return st

variable (strtod : List Char → δ)

def supersetsigLine (st : LoadResults δ) (tokens : List (List Char)) : Option (LoadResults δ) := do
  let sig := string2sig (← tokens[1]?)
  let _freq := strtod (← tokens[3]?)
  let _weight := strtod (← tokens[5]?)
  let avg := strtod (← tokens[7]?)
  let st ← addSuperset st sig avg
  return { st with qid2sigs := addNew st.qid sig st.qid2sigs }

variable [Add δ]

def exactsigLine (st : LoadResults δ) (tokens : List (List Char)) : Option (LoadResults δ) := do
  let sig := string2sig (← tokens[1]?).dropLast
  let freq := strtod (← tokens[3]?).dropLast
  let weight := strtod (← tokens[5]?).dropLast
  let _avg := strtod (← tokens[7]?)
  let list ← st.allT[0]?
  let v := match list.find? sig with
    | some v => (v.1 + freq, v.2 + weight)
    | none => (freq, weight)
  return { st with allT := st.allT.set 0 (list.insert sig v) }

/-- One line of the file: `none` inside is an error in parsing, outside a token that is not
there. -/
def resultsLine (st : LoadResults δ) (line : List Char) : Option (Option (LoadResults δ)) := do
  let tokens := lineTokens line
  let token ← tokens[0]?
  if token = "rxmsglen".toList then
    return (typeOfToken (← tokens[3]?)).map fun msgtype => { st with msgtype }
  else if token = "queryresult".toList then return some (← queryresultLine st tokens)
  else if token = "supersetsig".toList then return some (← supersetsigLine strtod st tokens)
  else if token = "exactsig".toList then return some (← exactsigLine strtod st tokens)
  else if token = "queryresultend".toList then
    let _sigmatches := strtol (← tokens[4]?)
    let _totalavg := strtod (← tokens[6]?)
    return some st
  else return none

/-- The loop over the lines and what it returns, the number of the lines or -1. -/
def loadLoop : List (List Char) → Int → LoadResults δ → Option (Int × LoadResults δ)
  | [], n, st => some (n, st)
  | line :: lines, n, st => do
    match ← resultsLine strtod st line with
    | none => return (-1, st)
    | some st => loadLoop lines (n + 1) st

def loadresults (file : List Char) (r : Results δ) : Option (Int × Results δ) := do
  let (n, st) ← loadLoop strtod (getlines file) 0 ⟨r, 0, 0, .empty⟩
  return (n, st.toResults)

end Load

section Log

/-- The results of one query: its ID and the signatures and avgs of its lines. -/
structure ResultBlock (δ : Type) where
  qid : Int
  sigs : List (Sig × δ)

def IsMessage (line : List Char) : Prop :=
  ∃ msglen type msgtype rest,
    lineTokens line = "rxmsglen".toList :: msglen :: type :: msgtype :: rest ∧
    (msgtype = "QUERYX".toList ∨ msgtype = "QUERYXP".toList)

def IsQueryresult (line : List Char) (qid : Int) : Prop :=
  ∃ found q id k querysig d dtd rest,
    lineTokens line =
      "queryresult".toList :: found :: q :: id :: k :: querysig :: d :: dtd :: rest ∧
    qid = intOfLong (strtol id)

def IsSupersetsig (strtod : List Char → δ) (line : List Char) (r : Sig × δ) : Prop :=
  ∃ sigbuf f freq w weight a avg rest,
    lineTokens line =
      "supersetsig".toList :: sigbuf :: f :: freq :: w :: weight :: a :: avg :: rest ∧
    r = (string2sig sigbuf, strtod avg)

def IsQueryresultend (line : List Char) : Prop :=
  ∃ q rxqseq s sigmatches t totalavg rest,
    lineTokens line =
      "queryresultend".toList :: q :: rxqseq :: s :: sigmatches :: t :: totalavg :: rest

/-- The lines of a well-formed log of `QUERYX` and `QUERYXP` messages, and the results in it. -/
inductive ResultsLog (strtod : List Char → δ) :
    List (List Char) → List (ResultBlock δ) → Prop where
  | nil : ResultsLog strtod [] []
  | message (h : IsMessage line) (hl : ResultsLog strtod lines log) :
      ResultsLog strtod (line :: lines) log
  | result (hq : IsQueryresult line b.qid)
      (hs : List.Forall₂ (IsSupersetsig strtod) sigLines b.sigs)
      (hl : ResultsLog strtod lines log) :
      ResultsLog strtod (line :: (sigLines ++ lines)) (b :: log)
  | resultend (h : IsQueryresultend line) (hl : ResultsLog strtod lines log) :
      ResultsLog strtod (line :: lines) log

/-- The `supersetsig` lines of a log, each with the ID of the query that it is under. -/
def supersetsigs (log : List (ResultBlock δ)) : List (Int × Sig × δ) :=
  log.flatMap fun b => b.sigs.map fun r => (b.qid, r)

/-- The avgs of the lines for a query and a signature, in order. -/
def avgsOf (lines : List (Int × Sig × δ)) (qid : Int) (sig : Sig) : List δ :=
  (lines.filter fun t => t.1 = qid ∧ t.2.1 = sig).map fun t => t.2.2

def present : List δ → Option (List δ)
  | [] => none
  | avgs => some avgs

@[simp] theorem getD_present (l : List δ) : (present l).getD [] = l := by
  cases l <;> rfl

theorem present_append_singleton (l : List δ) (a : δ) : present (l ++ [a]) = some (l ++ [a]) := by
  cases l <;> rfl

theorem avgsOf_append (ts : List (Int × Sig × δ)) (q : Int) (s : Sig) (a : δ) (q' : Int)
    (s' : Sig) : avgsOf (ts ++ [(q, s, a)]) q' s' =
      avgsOf ts q' s' ++ if q = q' ∧ s = s' then [a] else [] := by
  rw [avgsOf, avgsOf, List.filter_append, List.map_append]
  congr 1
  by_cases h : q = q' ∧ s = s' <;> simp [h]

theorem avgsOf_append_of_ne (ts : List (Int × Sig × δ)) (r : Sig × δ) (s : Sig) (h : q' ≠ q) :
    avgsOf (ts ++ [(q, r)]) q' s = avgsOf ts q' s := by
  rw [avgsOf_append, if_neg fun he => h he.1.symm, List.append_nil]

theorem avgsOf_eq_nil {ts : List (Int × Sig × δ)} (h : ∀ t ∈ ts, t.1 ≠ q) (s : Sig) :
    avgsOf ts q s = [] := by
  rw [avgsOf, List.map_eq_nil_iff, List.filter_eq_nil_iff]
  intro t ht
  simp [h t ht]

theorem find?_addAvg {m : SortedMap SigLt (List δ)} {c : Sig → List δ}
    (h : ∀ s, m.find? s = present (c s)) (sig : Sig) (avg : δ) (s : Sig) :
    (addAvg m sig avg).find? s = present (c s ++ if sig = s then [avg] else []) := by
  rw [addAvg, SortedMap.find?_insert]
  by_cases hs : s = sig
  · subst hs
    simp [h, present_append_singleton]
  · simp [hs, Ne.symm hs, h]

end Log

section Collected

/-- What has been collected from the lines `ts`: the map of a query has its avgs behind those in
`sig2avg` when the query came up, and that is nothing for the first query only. -/
structure Collected (ts : List (Int × Sig × δ)) (st : LoadResults δ) : Prop where
  carried : ∃ c : Sig → List δ, (∀ s, st.sig2avg.find? s = present (c s)) ∧
    (ts = [] ↔ ∀ s, c s = [])
  inj : ∀ q q' id, st.qid2id.find? q = some id → st.qid2id.find? q' = some id → q = q'
  new : ∀ q, st.qid2id.find? q = none ↔ ∀ t ∈ ts, t.1 ≠ q
  group : ∀ q id, st.qid2id.find? q = some id → ∃ m, ∃ c : Sig → List δ,
    st.allsig2avg[id]? = some m ∧ (∀ s, m.find? s = present (c s ++ avgsOf ts q s)) ∧
    ((∀ s, c s = []) ↔ ∃ t, ts.head? = some t ∧ t.1 = q)

theorem Collected.congr {st st' : LoadResults δ} (h : Collected ts st)
    (h₁ : st'.sig2avg = st.sig2avg) (h₂ : st'.qid2id = st.qid2id)
    (h₃ : st'.allsig2avg = st.allsig2avg) : Collected ts st' := by
  obtain ⟨hcarried, hinj, hnew, hgroup⟩ := h
  rw [← h₁] at hcarried
  rw [← h₂] at hinj hnew hgroup
  rw [← h₃] at hgroup
  exact ⟨hcarried, hinj, hnew, hgroup⟩

theorem Collected.start {st : LoadResults δ} (h₂ : st.qid2id = .empty) (h₁ : st.sig2avg = .empty) :
    Collected ([] : List (Int × Sig × δ)) st := by
  refine ⟨⟨fun _ => [], fun s => ?_, by simp⟩, fun q q' id h => ?_, fun q => ?_, fun q id h => ?_⟩
  · rw [h₁]
    rfl
  · simp [h₂] at h
  · simp [h₂]
  · simp [h₂] at h

theorem Collected.lt_length (h : Collected ts st) (hid : st.qid2id.find? q = some avgid) :
    avgid < st.allsig2avg.length := by
  obtain ⟨m, -, hm, -⟩ := h.group q avgid hid
  exact (List.getElem?_eq_some_iff.1 hm).1

/-- A line of a query that has a map. -/
theorem Collected.old (h : Collected ts st) (hid : st.qid2id.find? st.qid = some avgid)
    (sig : Sig) (avg : δ) :
    ∃ st', addSuperset st sig avg = some st' ∧ st'.qid = st.qid ∧
      Collected (ts ++ [(st.qid, sig, avg)]) st' := by
  obtain ⟨m, c, hm, hfind, hfirst⟩ := h.group _ _ hid
  have hne : ts ≠ [] := by
    rintro rfl
    have := (h.new st.qid).2 (by simp)
    simp [this] at hid
  have hhead : (ts ++ [(st.qid, sig, avg)]).head? = ts.head? := by
    cases ts with
    | nil => exact (hne rfl).elim
    | cons t ts => rfl
  have hstep : addSuperset st sig avg =
      some { st with allsig2avg := st.allsig2avg.set avgid (addAvg m sig avg) } := by
    simp only [addSuperset, hid, hm]
    rfl
  refine ⟨_, hstep, rfl, ?_, h.inj, fun q => ?_, fun q id hq => ?_⟩
  · obtain ⟨c, hc, hnil⟩ := h.carried
    exact ⟨c, hc, by simp [← hnil, hne]⟩
  · refine (h.new q).trans ?_
    rw [List.forall_mem_append, List.forall_mem_singleton, iff_self_and]
    rintro hq rfl
    rw [(h.new st.qid).2 hq] at hid
    cases hid
  · rw [hhead]
    by_cases he : q = st.qid
    · subst he
      obtain rfl : avgid = id := Option.some.inj (hid.symm.trans hq)
      have hlt := h.lt_length hid
      refine ⟨addAvg m sig avg, c, by simp [hlt], fun s => ?_, hfirst⟩
      rw [find?_addAvg hfind, avgsOf_append]
      simp
    · obtain ⟨m', c', hm', hfind', hfirst'⟩ := h.group q id hq
      have hne : avgid ≠ id := by
        rintro rfl
        exact he (h.inj _ _ _ hq hid)
      refine ⟨m', c', ?_, fun s => ?_, hfirst'⟩
      · rw [List.getElem?_set_ne hne]
        exact hm'
      · rw [hfind', avgsOf_append_of_ne ts (sig, avg) s he]

/-- The first line of a query. -/
theorem Collected.fresh (h : Collected ts st) (hid : st.qid2id.find? st.qid = none)
    (sig : Sig) (avg : δ) :
    ∃ st', addSuperset st sig avg = some st' ∧ st'.qid = st.qid ∧
      Collected (ts ++ [(st.qid, sig, avg)]) st' := by
  obtain ⟨c, hc, hnil⟩ := h.carried
  have hnew := (h.new st.qid).1 hid
  have hstep : addSuperset st sig avg = some { st with
      sig2avg := addAvg st.sig2avg sig avg
      qid2id := st.qid2id.insert st.qid st.allsig2avg.length
      allsig2avg := st.allsig2avg ++ [addAvg st.sig2avg sig avg] } := by
    rw [addSuperset, hid]
  refine ⟨_, hstep, rfl, ?_, fun q q' id hq hq' => ?_, fun q => ?_, fun q id hq => ?_⟩
  · refine ⟨_, find?_addAvg hc sig avg, ?_⟩
    simp only [List.append_eq_nil_iff, List.cons_ne_self, and_false, false_iff, not_forall]
    exact ⟨sig, by simp⟩
  · rw [SortedMap.find?_insert] at hq hq'
    split at hq <;> split at hq'
    · next h₁ h₂ => rw [h₁, h₂]
    · have := h.lt_length hq'
      simp only [Option.some.injEq] at hq
      omega
    · have := h.lt_length hq
      simp only [Option.some.injEq] at hq'
      omega
    · exact h.inj q q' id hq hq'
  · rw [SortedMap.find?_insert, List.forall_mem_append, List.forall_mem_singleton]
    split
    · next he => simp [he]
    · next he => simp [h.new q, Ne.symm he]
  · rw [SortedMap.find?_insert] at hq
    split at hq
    · next he =>
      subst he
      obtain rfl := Option.some.inj hq
      refine ⟨addAvg st.sig2avg sig avg, c, by simp, fun s => ?_, ?_⟩
      · rw [find?_addAvg hc, avgsOf_append, avgsOf_eq_nil hnew]
        simp
      · rw [← hnil]
        cases ts with
        | nil => simp
        | cons t ts => simp [hnew t List.mem_cons_self]
    · next he =>
      obtain ⟨m', c', hm', hfind', hfirst'⟩ := h.group q id hq
      refine ⟨m', c', ?_, fun s => ?_, ?_⟩
      · rw [List.getElem?_append_left (h.lt_length hq)]
        exact hm'
      · rw [hfind', avgsOf_append_of_ne ts (sig, avg) s he]
      · rw [hfirst']
        cases ts with
        | nil => simp [Ne.symm he]
        | cons t ts => rfl

theorem Collected.addSuperset (h : Collected ts st) (sig : Sig) (avg : δ) :
    ∃ st', addSuperset st sig avg = some st' ∧ st'.qid = st.qid ∧
      Collected (ts ++ [(st.qid, sig, avg)]) st' := by
  cases hid : st.qid2id.find? st.qid with
  | none => exact h.fresh hid sig avg
  | some avgid => exact h.old hid sig avg

end Collected

section Lines

variable {strtod : List Char → δ} [Add δ] {st : LoadResults δ}

theorem resultsLine_message (h : IsMessage line) :
    ∃ msgtype, resultsLine strtod st line = some (some { st with msgtype }) := by
  obtain ⟨msglen, type, msgtype, rest, htok, ht⟩ := h
  rcases ht with rfl | rfl
  · exact ⟨.QUERYX, by rw [resultsLine, htok]; rfl⟩
  · exact ⟨.QUERYXP, by rw [resultsLine, htok]; rfl⟩

theorem resultsLine_queryresult (h : IsQueryresult line qid) :
    ∃ st', resultsLine strtod st line = some (some st') ∧ st'.qid = qid ∧
      st'.sig2avg = st.sig2avg ∧ st'.qid2id = st.qid2id ∧ st'.allsig2avg = st.allsig2avg := by
  obtain ⟨found, q, id, k, querysig, d, dtd, rest, htok, rfl⟩ := h
  obtain ⟨t, ht⟩ : ∃ t, (lineTokens line).getLast? = some t :=
    ⟨_, List.getLast?_eq_some_getLast (by simp [htok])⟩
  have hne : "queryresult".toList ≠ "rxmsglen".toList := by decide
  rw [htok] at ht
  simp only [resultsLine, htok, List.getElem?_cons_zero, Option.bind_eq_bind, Option.bind_some,
    if_neg hne, if_true, queryresultLine, List.getElem?_cons_succ, ht]
  split
  · exact ⟨_, rfl, rfl, rfl, rfl, rfl⟩
  · exact ⟨_, rfl, rfl, rfl, rfl, rfl⟩

theorem resultsLine_supersetsig (h : IsSupersetsig strtod line r)
    (hst : addSuperset st r.1 r.2 = some st₁) : resultsLine strtod st line =
      some (some { st₁ with qid2sigs := addNew st₁.qid r.1 st₁.qid2sigs }) := by
  obtain ⟨sigbuf, f, freq, w, weight, a, avg, rest, htok, rfl⟩ := h
  have hne : "supersetsig".toList ≠ "rxmsglen".toList := by decide
  have hne' : "supersetsig".toList ≠ "queryresult".toList := by decide
  simp only [resultsLine, htok, List.getElem?_cons_zero, Option.bind_eq_bind, Option.bind_some,
    if_neg hne, if_neg hne', if_true, supersetsigLine, List.getElem?_cons_succ, hst]
  rfl

theorem resultsLine_resultend (h : IsQueryresultend line) :
    resultsLine strtod st line = some (some st) := by
  obtain ⟨q, rxqseq, s, sigmatches, t, totalavg, rest, htok⟩ := h
  rw [resultsLine, htok]
  rfl

theorem loadLoop_cons (h : resultsLine strtod st line = some (some st')) (n : Int) :
    loadLoop strtod (line :: lines) n st = loadLoop strtod lines (n + 1) st' := by
  rw [loadLoop, h]
  rfl

theorem count_cons (n : Int) (line : List Char) (lines : List (List Char)) :
    n + 1 + (lines.length : Int) = n + ((line :: lines).length : Int) := by
  rw [List.length_cons, Int.natCast_succ]
  omega

theorem loadLoop_sigLines {ts : List (Int × Sig × δ)}
    (hs : List.Forall₂ (IsSupersetsig strtod) sigLines sigs) (hg : Collected ts st) (n : Int)
    (lines : List (List Char)) :
    ∃ st', loadLoop strtod (sigLines ++ lines) n st =
        loadLoop strtod lines (n + sigLines.length) st' ∧
      Collected (ts ++ sigs.map fun r => (st.qid, r)) st' := by
  induction hs generalizing ts st n with
  | nil => exact ⟨st, by simp, by simpa using hg⟩
  | @cons line r sigLines sigs hr hs ih =>
    obtain ⟨st₁, hst₁, hqid, hg₁⟩ := hg.addSuperset r.1 r.2
    have hg₂ : Collected _ { st₁ with qid2sigs := addNew st₁.qid r.1 st₁.qid2sigs } :=
      hg₁.congr rfl rfl rfl
    obtain ⟨st', hst', hg'⟩ := ih hg₂ (n + 1)
    refine ⟨st', ?_, ?_⟩
    · rw [List.cons_append, loadLoop_cons (resultsLine_supersetsig hr hst₁), hst', count_cons]
    · rw [hqid, List.append_assoc] at hg'
      exact hg'

/-- A well-formed log is read to its end. -/
theorem loadLoop_collected {ts : List (Int × Sig × δ)} (h : ResultsLog strtod lines log)
    (hg : Collected ts st) (n : Int) :
    ∃ st', loadLoop strtod lines n st = some (n + lines.length, st') ∧
      Collected (ts ++ supersetsigs log) st' := by
  induction h generalizing ts st n with
  | nil => exact ⟨st, by simp [loadLoop], by simpa [supersetsigs] using hg⟩
  | message h hl ih =>
    obtain ⟨msgtype, hline⟩ : ∃ msgtype, resultsLine strtod st _ = some (some { st with msgtype }) :=
      resultsLine_message h
    have hg₁ : Collected ts { st with msgtype } := hg.congr rfl rfl rfl
    obtain ⟨st', hst', hg'⟩ := ih hg₁ (n + 1)
    refine ⟨st', ?_, hg'⟩
    rw [loadLoop_cons hline, hst', count_cons]
  | result hq hs hl ih =>
    obtain ⟨st₁, hline, hqid, h₁, h₂, h₃⟩ :
        ∃ st', resultsLine strtod st _ = some (some st') ∧ _ := resultsLine_queryresult hq
    obtain ⟨st₂, hst₂, hg₂⟩ := loadLoop_sigLines hs (hg.congr h₁ h₂ h₃) (n + 1) _
    obtain ⟨st', hst', hg'⟩ := ih hg₂ _
    refine ⟨st', ?_, ?_⟩
    · rw [loadLoop_cons hline, hst₂, hst', ← count_cons, List.length_append, Int.natCast_add,
        Int.add_assoc]
    · rw [hqid, List.append_assoc] at hg'
      exact hg'
  | resultend h hl ih =>
    obtain ⟨st', hst', hg'⟩ := ih hg (n + 1)
    refine ⟨st', ?_, hg'⟩
    rw [loadLoop_cons (resultsLine_resultend h), hst', count_cons]

end Lines

section Attribution

/-- Each query that the log has signatures for has a map with exactly its avgs. -/
def Attributed (r : Results δ) (log : List (ResultBlock δ)) : Prop :=
  ∀ b ∈ log, b.sigs ≠ [] → ∃ id m, r.qid2id.find? b.qid = some id ∧
    r.allsig2avg[id]? = some m ∧
    ∀ sig, m.find? sig = present (avgsOf (supersetsigs log) b.qid sig)

def OneQuery (log : List (ResultBlock δ)) : Prop :=
  ∀ b ∈ log, ∀ b' ∈ log, b.sigs ≠ [] → b'.sigs ≠ [] → b.qid = b'.qid

theorem present_injective {l l' : List δ} (h : present l = present l') : l = l' := by
  rw [← getD_present l, h, getD_present]

theorem exists_supersetsigs {log : List (ResultBlock δ)} (hb : b ∈ log) (hs : b.sigs ≠ []) :
    ∃ t ∈ supersetsigs log, t.1 = b.qid := by
  obtain ⟨r, hr⟩ := List.exists_mem_of_ne_nil _ hs
  exact ⟨(b.qid, r), List.mem_flatMap.2 ⟨b, hb, List.mem_map_of_mem hr⟩, rfl⟩

theorem exists_of_mem_supersetsigs {log : List (ResultBlock δ)} (ht : t ∈ supersetsigs log) :
    ∃ b ∈ log, b.sigs ≠ [] ∧ b.qid = t.1 := by
  obtain ⟨b, hb, ht⟩ := List.mem_flatMap.1 ht
  obtain ⟨r, hr, rfl⟩ := List.mem_map.1 ht
  exact ⟨b, hb, List.ne_nil_of_mem hr, rfl⟩

theorem Collected.attributed_iff {st : LoadResults δ} (h : Collected (supersetsigs log) st) :
    Attributed st.toResults log ↔ OneQuery log := by
  have hgroup : ∀ b ∈ log, b.sigs ≠ [] → ∃ id m, ∃ c : Sig → List δ,
      st.qid2id.find? b.qid = some id ∧ st.allsig2avg[id]? = some m ∧
      (∀ s, m.find? s = present (c s ++ avgsOf (supersetsigs log) b.qid s)) ∧
      ((∀ s, c s = []) ↔ ∃ t, (supersetsigs log).head? = some t ∧ t.1 = b.qid) := by
    intro b hb hs
    obtain ⟨t, ht, htq⟩ := exists_supersetsigs hb hs
    cases hid : st.qid2id.find? b.qid with
    | none => exact ((h.new b.qid).1 hid t ht htq).elim
    | some id =>
      obtain ⟨m, c, hm, hfind, hfirst⟩ := h.group b.qid id hid
      exact ⟨id, m, c, rfl, hm, hfind, hfirst⟩
  constructor
  · intro ha
    have hhead : ∀ b ∈ log, b.sigs ≠ [] →
        ∃ t, (supersetsigs log).head? = some t ∧ t.1 = b.qid := by
      intro b hb hs
      obtain ⟨id, m, c, hid, hm, hfind, hfirst⟩ := hgroup b hb hs
      obtain ⟨id', m', hid', hm', hfind'⟩ := ha b hb hs
      obtain rfl : id = id' := Option.some.inj (hid.symm.trans hid')
      obtain rfl : m = m' := Option.some.inj (hm.symm.trans hm')
      refine hfirst.1 fun s => ?_
      have hs := present_injective ((hfind s).symm.trans (hfind' s))
      exact List.append_left_eq_self.1 hs
    intro b hb b' hb' hs hs'
    obtain ⟨t, ht, htq⟩ := hhead b hb hs
    obtain ⟨t', ht', htq'⟩ := hhead b' hb' hs'
    obtain rfl : t = t' := Option.some.inj (ht.symm.trans ht')
    exact htq.symm.trans htq'
  · intro hone b hb hs
    obtain ⟨id, m, c, hid, hm, hfind, hfirst⟩ := hgroup b hb hs
    obtain ⟨t, ht, htq⟩ := exists_supersetsigs hb hs
    obtain ⟨t₀, ht₀⟩ : ∃ t₀, (supersetsigs log).head? = some t₀ :=
      ⟨_, List.head?_eq_some_head (List.ne_nil_of_mem ht)⟩
    obtain ⟨b₀, hb₀, hs₀, hq₀⟩ := exists_of_mem_supersetsigs (List.mem_of_mem_head? ht₀)
    have hnil := hfirst.2 ⟨t₀, ht₀, hq₀.symm.trans (hone b₀ hb₀ b hb hs₀ hs)⟩
    refine ⟨id, m, hid, hm, fun s => ?_⟩
    rw [hfind, hnil, List.nil_append]

variable [Add δ]

theorem exists_loadresults {strtod : List Char → δ} (h : ResultsLog strtod (getlines file) log)
    (hr : r.qid2id = .empty) :
    ∃ r', loadresults strtod file r = some (((getlines file).length : Int), r') ∧
      (Attributed r' log ↔ OneQuery log) := by
  have hstart : Collected [] (⟨r, 0, 0, .empty⟩ : LoadResults δ) := .start hr rfl
  obtain ⟨st, hst, hg⟩ := loadLoop_collected h hstart 0
  refine ⟨st.toResults, ?_, hg.attributed_iff⟩
  rw [loadresults, hst, Int.zero_add]
  rfl

/-- Averages are attributed to the right query as long as only one has any: the map of the next
one begins with what the ones before have left in `sig2avg`. -/
theorem loadresults_iff {strtod : List Char → δ} (h : ResultsLog strtod (getlines file) log)
    (hr : r.qid2id = .empty) :
    (∃ n r', loadresults strtod file r = some (n, r') ∧ Attributed r' log) ↔ OneQuery log := by
  obtain ⟨r', hr', hiff⟩ := exists_loadresults h hr
  rw [← hiff]
  constructor
  · rintro ⟨n, r'', hr'', ha⟩
    obtain ⟨-, rfl⟩ := Prod.mk.inj (Option.some.inj (hr'.symm.trans hr''))
    exact ha
  · exact fun ha => ⟨_, r', hr', ha⟩

/-- The `queryresult` line of a query. -/
def queryLine (qid : String) : List Char :=
  ("queryresult: teamID-found qid: " ++ qid ++ " querysig: 2- DTD: d teamID: 2\n").toList

def resultLines (qid : String) : List (List Char) :=
  ["rxmsglen: 40 type: QUERYX rxID: 1 teamID: 2\n".toList, queryLine qid,
    "supersetsig: 2- f: 3 w: 2 avg: 1.5\n".toList,
    "queryresultend: rxqseq: 1 sigmatches: 1 totalavg: 1.5\n".toList]

theorem resultLines_log {id : String} (hq : IsQueryresult (queryLine id) qid)
    (hl : ResultsLog Text.strtod lines log) :
    ResultsLog Text.strtod (resultLines id ++ lines) (⟨qid, [([2], 3 / 2)]⟩ :: log) := by
  have hs : List.Forall₂ (IsSupersetsig Text.strtod)
      ["supersetsig: 2- f: 3 w: 2 avg: 1.5\n".toList] [([2], 3 / 2)] :=
    .cons ⟨_, _, _, _, _, _, _, _, rfl, by decide +kernel⟩ .nil
  have he : IsQueryresultend "queryresultend: rxqseq: 1 sigmatches: 1 totalavg: 1.5\n".toList :=
    ⟨_, _, _, _, _, _, _, rfl⟩
  have hr := ResultsLog.result (b := ⟨qid, [([2], 3 / 2)]⟩) hq hs (.resultend he hl)
  exact .message ⟨_, _, _, _, rfl, .inl rfl⟩ hr

theorem resultLines_isLine {id : String} (hq : IsLine (queryLine id)) :
    ∀ l ∈ resultLines id, IsLine l := by
  have hend : ∀ l : List Char, l.getLast? = some '\n' → '\n' ∉ l.dropLast → IsLine l := by
    intro l hl hno
    exact ⟨l.dropLast, (List.dropLast_append_getLast? _ hl).symm, hno⟩
  refine List.forall_mem_cons.2 ⟨hend _ rfl (by decide), List.forall_mem_cons.2 ⟨hq,
    List.forall_mem_cons.2 ⟨hend _ rfl (by decide), List.forall_mem_singleton.2 ?_⟩⟩⟩
  exact hend _ rfl (by decide)

theorem queryLine_isLine : IsLine (queryLine "7") ∧ IsLine (queryLine "8") :=
  ⟨⟨(queryLine "7").dropLast, rfl, by decide⟩, ⟨(queryLine "8").dropLast, rfl, by decide⟩⟩

theorem queryLine_isQueryresult :
    IsQueryresult (queryLine "7") 7 ∧ IsQueryresult (queryLine "8") 8 :=
  ⟨⟨_, _, _, _, _, _, _, _, rfl, by decide⟩, ⟨_, _, _, _, _, _, _, _, rfl, by decide⟩⟩

def noResults : Results ℚ := ⟨.INVALID, .empty, .empty, .empty, .empty, .empty, [], []⟩

theorem loadresults_iff_repeated :
    ∃ n r, loadresults Text.strtod (resultLines "7" ++ resultLines "7").flatten noResults =
      some (n, r) ∧ Attributed r [⟨7, [([2], 3 / 2)]⟩, ⟨7, [([2], 3 / 2)]⟩] := by
  have hq := queryLine_isQueryresult.1
  have hlines := getlines_flatten (List.forall_mem_append.2
    ⟨resultLines_isLine queryLine_isLine.1, resultLines_isLine queryLine_isLine.1⟩)
  have hlog : ResultsLog Text.strtod (resultLines "7" ++ resultLines "7")
      [⟨7, [([2], 3 / 2)]⟩, ⟨7, [([2], 3 / 2)]⟩] :=
    resultLines_log hq (List.append_nil (resultLines "7") ▸ resultLines_log hq .nil)
  rw [← hlines] at hlog
  refine (loadresults_iff hlog rfl).2 fun b hb b' hb' _ _ => ?_
  simp only [List.mem_cons, List.not_mem_nil, or_false, or_self] at hb hb'
  rw [hb, hb']

theorem avg_of_other_query :
    ResultsLog Text.strtod (getlines (resultLines "7" ++ resultLines "8").flatten)
        [⟨7, [([2], 3 / 2)]⟩, ⟨8, [([2], 3 / 2)]⟩] ∧
      noResults.qid2id = .empty ∧ noResults.allsig2avg = [] ∧
      ¬ ∃ n r, loadresults Text.strtod (resultLines "7" ++ resultLines "8").flatten noResults =
        some (n, r) ∧ Attributed r [⟨7, [([2], 3 / 2)]⟩, ⟨8, [([2], 3 / 2)]⟩] := by
  obtain ⟨hq₇, hq₈⟩ := queryLine_isQueryresult
  have hlines := getlines_flatten (List.forall_mem_append.2
    ⟨resultLines_isLine queryLine_isLine.1, resultLines_isLine queryLine_isLine.2⟩)
  have hlog : ResultsLog Text.strtod (resultLines "7" ++ resultLines "8")
      [⟨7, [([2], 3 / 2)]⟩, ⟨8, [([2], 3 / 2)]⟩] :=
    resultLines_log hq₇ (List.append_nil (resultLines "8") ▸ resultLines_log hq₈ .nil)
  rw [← hlines] at hlog
  refine ⟨hlog, rfl, rfl, ?_⟩
  rintro ⟨n, r, hr, ha⟩
  obtain ⟨r', hr', hiff⟩ := exists_loadresults hlog (r := noResults) rfl
  obtain ⟨-, rfl⟩ := Prod.mk.inj (Option.some.inj (hr'.symm.trans hr))
  have hone := hiff.1 ha ⟨7, [([2], 3 / 2)]⟩ (by simp) ⟨8, [([2], 3 / 2)]⟩ (by simp)
  exact absurd (hone (by simp) (by simp)) (by decide)

end Attribution

end XGossip
