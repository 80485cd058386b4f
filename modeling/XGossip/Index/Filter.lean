import XGossip.Index.Encode
import XGossip.Index.Tree

namespace XGossip
set_option autoImplicit true

open Codec Gf2

section Encoding

inductive RetrieveType where
  | DIVISIBLE | DIVISIBLEV | PICKCHILD | PICKCHILDV
deriving DecidableEq

def RetrieveType.code (type : RetrieveType) : BitVec 32 := BitVec.ofNat 32 (type.ctorIdx + 1)

inductive OPTYPE where
  | EQUAL | GREATER | LESS | GREATEREQUAL | LESSEQUAL
deriving DecidableEq

def OPTYPE.code (OP : OPTYPE) : BitVec 32 := BitVec.ofNat 32 OP.ctorIdx

/-- The words of `unsigned int buf[2048]`. -/
def BUFWORDS : Nat := 2048

/-- Whether the limit that is meant to keep `words` more words from `index` on out of the buffer
applies: it is compared with `sizeof(buf)`, the bytes of the buffer. -/
def overLimit (index words : Nat) : Bool := index + words > BUFWORDS * 4

/-- Write words from `index` on; behind the end of the buffer this is an error. -/
def writeWords (index : Nat) (words : List POLY) : Option (List POLY) :=
  if index + words.length ≤ BUFWORDS then some words else none

def sigWords (sig : Sig) : List POLY := BitVec.ofNat 32 sig.length :: sig

/-- The loop over the signatures: how many there are in the buffer, and their words. -/
def sigDataLoop : List Sig → Nat → Option (Nat × List POLY)
  | [], _ => some (0, [])
  | sig :: listOfSigs, index =>
    if overLimit index (sigWords sig).length then some (0, [])
    else do
      let words ← writeWords index (sigWords sig)
      let (i, rest) ← sigDataLoop listOfSigs (index + words.length)
      return (i + 1, words ++ rest)

/-- `makeSigData` of a list of signatures. -/
def makeSigData (listOfSigs : List Sig) (type : RetrieveType) : Option (List Byte) := do
  let (i, words) ← sigDataLoop listOfSigs 2
  return (type.code :: BitVec.ofNat 32 i :: words).flatMap intBytes

/-- `makeSigData` of one signature; one that is over the limit leaves `sigdata` alone. -/
def makeSigDataOne (sigdata : List Byte) (mySig : Sig) (type : RetrieveType) :
    Option (List Byte) :=
  if overLimit 2 (sigWords mySig).length then some sigdata
  else do
    let words ← writeWords 2 (sigWords mySig)
    return (type.code :: 1 :: words).flatMap intBytes

def getFilterSig : Reader Sig := do repeatM getInt (← getInt).toNat

/-- The type of a filter, its signatures and what is behind them. -/
def getFilter : Reader (BitVec 32 × List Sig) := do
  let type ← getInt
  let numSigs ← getInt
  return (type, ← repeatM getFilterSig numSigs.toInt.toNat)

/-- The value and the operator that `DIVISIBLEV` has behind the signatures. -/
def getValue : Reader (Sig × BitVec 32) := do
  let valSize ← getInt
  return (← repeatM getInt valSize.toInt.toNat, ← getInt)

theorem getFilterSig_parses (h : sig.length < 2 ^ 32) :
    Parses getFilterSig ((sigWords sig).flatMap intBytes) sig := by
  have hwords : Parses (repeatM getInt sig.length) (sig.flatMap intBytes) sig :=
    Parses.repeatM fun w _ => getInt_parses w
  rw [sigWords, List.flatMap_cons]
  refine (getInt_parses _).bind ?_
  rwa [BitVec.toNat_ofNat, Nat.mod_eq_of_lt h]

def allWords (listOfSigs : List Sig) : List POLY := listOfSigs.flatMap sigWords

def FitsBuffer (listOfSigs : List Sig) : Prop := 2 + (allWords listOfSigs).length ≤ BUFWORDS

instance : Decidable (FitsBuffer listOfSigs) := inferInstanceAs (Decidable (_ ≤ _))

theorem sigDataLoop_of_fits (h : index + (allWords listOfSigs).length ≤ BUFWORDS) :
    sigDataLoop listOfSigs index = some (listOfSigs.length, allWords listOfSigs) := by
  induction listOfSigs generalizing index with
  | nil => rfl
  | cons sig listOfSigs ih =>
    have hlen : (allWords (sig :: listOfSigs)).length =
        (sigWords sig).length + (allWords listOfSigs).length := by
      rw [allWords, List.flatMap_cons, List.length_append]
      rfl
    have hlimit : overLimit index (sigWords sig).length = false := by
      simp only [overLimit, decide_eq_false_iff_not]
      omega
    have hwrite : writeWords index (sigWords sig) = some (sigWords sig) := if_pos (by omega)
    have hrest : index + (sigWords sig).length + (allWords listOfSigs).length ≤ BUFWORDS := by
      omega
    rw [sigDataLoop, hlimit, hwrite]
    simp only [Bool.false_eq_true, if_false, Option.bind_eq_bind, Option.bind_some, ih hrest]
    rfl

theorem length_le_allWords (h : sig ∈ listOfSigs) :
    sig.length < (allWords listOfSigs).length := by
  obtain ⟨l₁, l₂, rfl⟩ := List.append_of_mem h
  simp only [allWords, sigWords, List.flatMap_append, List.flatMap_cons, List.length_append,
    List.length_cons]
  omega

theorem length_list_le_allWords (listOfSigs : List Sig) :
    listOfSigs.length ≤ (allWords listOfSigs).length := by
  induction listOfSigs with
  | nil => rfl
  | cons sig listOfSigs ih =>
    rw [allWords] at ih ⊢
    simp only [List.flatMap_cons, sigWords, List.length_append, List.length_cons]
    omega

theorem flatMap_allWords (listOfSigs : List Sig) :
    (allWords listOfSigs).flatMap intBytes =
      listOfSigs.flatMap fun sig => (sigWords sig).flatMap intBytes :=
  List.flatMap_assoc

theorem getFilter_parses (h : FitsBuffer listOfSigs) (type : BitVec 32) :
    Parses getFilter ((type :: BitVec.ofNat 32 listOfSigs.length ::
      allWords listOfSigs).flatMap intBytes) (type, listOfSigs) := by
  have hnum := length_list_le_allWords listOfSigs
  have hcount : (BitVec.ofNat 32 listOfSigs.length).toInt.toNat = listOfSigs.length := by
    rw [FitsBuffer, BUFWORDS] at h
    rw [BitVec.toInt_ofNat', Int.bmod_eq_of_le (by omega) (by omega), Int.toNat_natCast]
  have hsigs : Parses (repeatM getFilterSig listOfSigs.length)
      (listOfSigs.flatMap fun sig => (sigWords sig).flatMap intBytes) listOfSigs := by
    apply Parses.repeatM
    intro sig hsig
    have := length_le_allWords hsig
    rw [FitsBuffer, BUFWORDS] at h
    exact getFilterSig_parses (by omega)
  rw [List.flatMap_cons, List.flatMap_cons, flatMap_allWords]
  refine (getInt_parses type).bind ((getInt_parses _).bind ?_)
  rw [hcount]
  exact hsigs.bind_pure (type, ·)

theorem makeSigData_of_fits (h : FitsBuffer listOfSigs) (type : RetrieveType) :
    makeSigData listOfSigs type = some ((type.code :: BitVec.ofNat 32 listOfSigs.length ::
      allWords listOfSigs).flatMap intBytes) := by
  rw [makeSigData, sigDataLoop_of_fits h]
  rfl

end Encoding

section Server

def FULLNODE : Key := [70, 85, 76, 76]

def NOTFULLNODE : Key := [78, 79, 84, 70, 85, 76, 76]

def HDRONLY : Key := [72, 68, 82, 79, 78, 76, 89]

/-- The test for divisibility of the query clients and of the filters. -/
def dividesSig (entrySig sig : Sig) : Bool :=
  fullDegree entrySig ≥ fullDegree sig ∧ remainder entrySig sig = [0]

def enlargement (entrySig sig : Sig) : Option (BitVec 32) := do
  let myMBR := updateMBR entrySig sig
  return ((← myMBR[1]?) - (← myMBR[0]?)) - ((← entrySig[1]?) - (← entrySig[0]?))

structure BestV where
  max : Int
  bestChild : Key
  bestChildSize : POLY

def pickChildV (entries : List (Key × Sig)) (sig : Sig) : Option Key := do
  let best ← entries.foldlM (fun (b : BestV) e => do
    let enlarged := (← enlargement e.2 sig).toInt
    let size := (← e.2[1]?) - (← e.2[0]?)
    if enlarged > b.max then return ⟨enlarged, e.1, size⟩
    else if enlarged = b.max ∧ size < b.bestChildSize then
      return { b with bestChild := e.1, bestChildSize := size }
    else return b) ⟨-1, NULL, 0⟩
  return best.bestChild

/-- Whether the interval of an entry can meet a condition on values. -/
def matchesInterval (entrySig valSig : Sig) (OP : BitVec 32) : Option Bool := do
  let e₀ ← entrySig[0]?
  let e₁ ← entrySig[1]?
  let v₀ ← valSig[0]?
  let v₁ ← valSig[1]?
  if OP = OPTYPE.EQUAL.code then return e₀ ≤ v₀ ∧ e₁ ≥ v₁
  else if OP = OPTYPE.GREATER.code then return ¬ e₁ ≤ v₀
  else if OP = OPTYPE.GREATEREQUAL.code then return ¬ e₁ < v₀
  else if OP = OPTYPE.LESS.code then return ¬ e₀ ≥ v₁
  else if OP = OPTYPE.LESSEQUAL.code then return ¬ e₀ > v₁
  else return false

def matchesValue (entrySig valSig : Sig) (OP : BitVec 32) : Option Bool :=
  if valSig.length = 1 then some (dividesSig entrySig valSig)
  else if valSig.length = 2 then matchesInterval entrySig valSig OP
  else some false

/-- The signature and the docid in the key of an entry of a value leaf. -/
def getDocid : Reader (Sig × Key) := do
  let sig ← repeatM getInt (← getInt).toInt.toNat
  return (sig, ← getStr)

/-- What a filter passes of one entry of a node of a value index. -/
def filterValue (leaf : Bool) (listOfSigs : List Sig) (valSig : Sig) (OP : BitVec 32)
    (e : Key × Sig) : Option (List Key) := do
  if ← matchesValue e.2 valSig OP then
    if leaf then
      let ((mySig, myDocid), _) ← runReader getDocid e.1
      if (listOfSigs.take MAXSIGSPERQUERY).any (dividesSig mySig) then return [myDocid]
      else return []
    else return [e.1]
  else return []

/-- The elements that a filter passes of a node, behind its header. -/
def executeFilter (MAXENTRIES : Nat) (n : Node) (filter : List Byte) : Option (List Key) := do
  if filter.takeWhile (· ≠ 0) = HDRONLY then return []
  else
    let ((type, listOfSigs), _) ← runReader getFilter filter
    let status := if n.entries.length + 1 > MAXENTRIES then FULLNODE else NOTFULLNODE
    if type = RetrieveType.DIVISIBLE.code then
      return (n.entries.filter fun e => listOfSigs.any (dividesSig e.2)).map Prod.fst
    else if type = RetrieveType.DIVISIBLEV.code then
      let ((_, valSig, OP), _) ← runReader (do return (← getFilter, ← getValue)) filter
      if valSig.length = 1 ∧ OP ≠ OPTYPE.EQUAL.code then return []
      else return (← n.entries.mapM (filterValue n.isLeaf listOfSigs valSig OP)).flatten
    else if type = RetrieveType.PICKCHILD.code then
      if n.isLeaf then return [status]
      else return [status, pickChild NULL n.entries (← listOfSigs[0]?) true]
    else if type = RetrieveType.PICKCHILDV.code then
      if n.isLeaf then return [status]
      else return [status, ← pickChildV n.entries (← listOfSigs[0]?)]
    else return []

def queryProcessO (ix : Index) (σ : Store) (sigdata : List Byte) : Nat → Key → Option (List Key)
  | 0, _ => none
  | fuel + 1, nodeID =>
    match σ nodeID with
    | none => some []
    | some n => do
      let entriesToProcess ← executeFilter ix.MAXENTRIES n sigdata
      if n.isLeaf then return entriesToProcess
      else return (← entriesToProcess.mapM (queryProcessO ix σ sigdata fuel)).flatten

end Server

section Agree

variable {ix : Index} {σ : Store} {L : List Sig}

/-- The trees that are searched: below a node there are only nodes of a lower level, and the
signature of an entry is a multiple of the signatures of the documents below it. -/
structure CoveredTree (σ : Store) : Prop where
  level : σ x = some n → n.isLeaf = false → c ∈ n.keys → σ c = some m →
    m.int.level.toInt.toNat < n.int.level.toInt.toNat
  normalized : σ.Normalized
  finite : σ.Finite
  covered : σ.forest.Covered Divides

theorem WellFormed.coveredTree (h : WellFormed ix σ) : CoveredTree σ := by
  refine ⟨fun {x n c m} hx hl hc hm => ?_, h.normalized, h.finite, h.covered⟩
  have hpos := (h.not_leaf_iff hx).1 hl
  obtain ⟨m', hm', hlevel⟩ := h.child hx hpos hc
  obtain rfl : m = m' := Option.some.inj (hm.symm.trans hm')
  have := h.level hm
  omega

theorem dividesSig_iff (hs : Normalized s) (hq : Normalized q) :
    dividesSig s q = true ↔ Divides q s := by
  rw [dividesSig, decide_eq_true_iff, remainder_eq_zero_iff hs hq, Divides, and_iff_right_iff_imp]
  intro hd
  exact (fullDegree_le_iff hq hs).2 (Polynomial.degree_le_of_dvd hd hs.poly_ne_zero)

/-- What a query asks for: one of its signatures divides `s`. -/
def Asks (L : List Sig) (s : Sig) : Prop := ∃ q ∈ L, Divides q s

theorem any_dividesSig (hs : Normalized s) (hL : ∀ q ∈ L, Normalized q) :
    L.any (dividesSig s) = true ↔ Asks L s := by
  rw [List.any_eq_true]
  constructor
  · rintro ⟨q, hq, hd⟩
    exact ⟨q, hq, (dividesSig_iff hs (hL q hq)).1 hd⟩
  · rintro ⟨q, hq, hd⟩
    exact ⟨q, hq, (dividesSig_iff hs (hL q hq)).2 hd⟩

theorem executeFilter_divisible (hL : FitsBuffer L) (MAXENTRIES : Nat) (n : Node)
    (h : makeSigData L .DIVISIBLE = some filter) :
    executeFilter MAXENTRIES n filter =
      some ((n.entries.filter fun e => L.any (dividesSig e.2)).map Prod.fst) := by
  rw [makeSigData_of_fits hL, Option.some_inj] at h
  have hhdr : filter.takeWhile (· ≠ 0) ≠ HDRONLY := by
    have hcode : intBytes RetrieveType.DIVISIBLE.code = [1, 0, 0, 0] := by decide
    rw [← h, List.flatMap_cons, hcode]
    simp [HDRONLY]
  have hread : runReader getFilter filter = some ((RetrieveType.DIVISIBLE.code, L),
      offsets 0 filter.length) := by
    rw [← h]
    exact (getFilter_parses hL _).run
  rw [executeFilter, if_neg hhdr, hread]
  rfl

theorem mem_passed (hσ : CoveredTree σ) (hL : ∀ q ∈ L, Normalized q) (hx : σ x = some n) :
    c ∈ (n.entries.filter fun e => L.any (dividesSig e.2)).map Prod.fst ↔
      ∃ s, (c, s) ∈ n.entries ∧ Asks L s := by
  simp only [List.mem_map, List.mem_filter]
  constructor
  · rintro ⟨⟨c', s⟩, ⟨he, hd⟩, rfl⟩
    exact ⟨s, he, (any_dividesSig (hσ.normalized hx _ he) hL).1 hd⟩
  · rintro ⟨s, he, hq⟩
    exact ⟨(c, s), ⟨he, (any_dividesSig (hσ.normalized hx _ he) hL).2 hq⟩, rfl⟩

theorem mapM_flatten {f : α → Option (List β)} {P : α → β → Prop} {l : List α}
    (h : ∀ a ∈ l, ∃ bs, f a = some bs ∧ ∀ b, b ∈ bs ↔ P a b) :
    ∃ bss, l.mapM f = some bss ∧ ∀ b, b ∈ bss.flatten ↔ ∃ a ∈ l, P a b := by
  induction l with
  | nil => exact ⟨[], rfl, by simp⟩
  | cons a l ih =>
    obtain ⟨bs, hbs, hb⟩ := h a List.mem_cons_self
    obtain ⟨bss, hbss, hbb⟩ := ih fun a ha => h a (List.mem_cons_of_mem _ ha)
    refine ⟨bs :: bss, ?_, fun b => ?_⟩
    · rw [List.mapM_cons, hbs, hbss]
      rfl
    · rw [List.flatten_cons, List.mem_append, hb, hbb]
      simp

def Store.depth (σ : Store) (x : Key) : Nat :=
  match σ x with
  | none => 0
  | some n => n.int.level.toInt.toNat + 1

theorem CoveredTree.depth_lt (hσ : CoveredTree σ) (hx : σ x = some n) (hl : n.isLeaf = false)
    (hc : c ∈ n.keys) : σ.depth c < σ.depth x := by
  rw [Store.depth, Store.depth, hx]
  cases hm : σ c with
  | none => simp
  | some m =>
    have := hσ.level hx hl hc hm
    simp only
    omega

theorem foundFrom_leaf (hx : σ x = some n) (hl : n.isLeaf = true) :
    FoundFrom σ R x d ↔ ∃ s, (d, s) ∈ n.entries ∧ R s := by
  have hleaf := (forest_leaf hx).2 hl
  constructor
  · intro h
    cases h with
    | doc _ he hR => exact ⟨_, (forest_entry hx).1 he, hR⟩
    | child hn => exact (hn hleaf).elim
  · rintro ⟨s, he, hR⟩
    exact .doc hleaf ((forest_entry hx).2 he) hR

theorem foundFrom_node (hx : σ x = some n) (hl : n.isLeaf = false) :
    FoundFrom σ R x d ↔ ∃ c, (∃ s, (c, s) ∈ n.entries ∧ R s) ∧ FoundFrom σ R c d := by
  have hleaf : ¬ σ.forest.leaf x := by simp [forest_leaf hx, hl]
  constructor
  · intro h
    cases h with
    | doc hy => exact (hleaf hy).elim
    | child _ he hR hd => exact ⟨_, ⟨_, (forest_entry hx).1 he, hR⟩, hd⟩
  · rintro ⟨c, ⟨s, he, hR⟩, hd⟩
    exact .child hleaf ((forest_entry hx).2 he) hR hd

theorem not_foundFrom_none (hx : σ x = none) : ¬ FoundFrom σ R x d := by
  intro h
  cases h with
  | doc _ he => simp [Store.forest, hx] at he
  | child _ he => simp [Store.forest, hx] at he

/-- The query at the server comes to its end and reports what a search for all signatures finds. -/
theorem queryProcessO_iff (ix : Index) (hσ : CoveredTree σ) (hL : ∀ q ∈ L, Normalized q)
    (hfit : FitsBuffer L) (hf : makeSigData L .DIVISIBLE = some filter) (hfuel : σ.depth x < fuel) :
    ∃ docs, queryProcessO ix σ filter fuel x = some docs ∧
      ∀ d, d ∈ docs ↔ FoundFrom σ (Asks L) x d := by
  induction fuel generalizing x with
  | zero => omega
  | succ fuel ih =>
    rw [queryProcessO]
    cases hx : σ x with
    | none => exact ⟨[], rfl, fun d => by simp [not_foundFrom_none hx]⟩
    | some n =>
      simp only [executeFilter_divisible hfit _ n hf, Option.bind_eq_bind, Option.bind_some]
      cases hl : n.isLeaf with
      | true =>
        refine ⟨_, rfl, fun d => ?_⟩
        rw [mem_passed hσ hL hx, foundFrom_leaf hx hl]
      | false =>
        obtain ⟨dss, hdss, hd⟩ := mapM_flatten
          (f := queryProcessO ix σ filter fuel) (P := FoundFrom σ (Asks L)) fun c hc => by
            obtain ⟨s, he, -⟩ := (mem_passed hσ hL hx).1 hc
            have := hσ.depth_lt hx hl (mem_keys.2 ⟨s, he⟩)
            exact ih (by omega)
        refine ⟨dss.flatten, by simp [hdss], fun d => ?_⟩
        simp only [hd, mem_passed hσ hL hx, foundFrom_node hx hl]

theorem divideSigs_eq (n : Nat) (s q : Sig) (l : List Sig) :
    divideSigs s (n + 1) (q :: l) = if dividesSig s q then some (q :: l) else divideSigs s n l := by
  simp only [divideSigs, dividesSig, decide_eq_true_eq]

/-- The loop of the client stops at the first signature that divides the entry. -/
theorem divideSigs_some (hs : Normalized s) (hl : ∀ q ∈ l, Normalized q)
    (h : divideSigs s n l = some l') :
    ∃ pre q rest, l = pre ++ q :: rest ∧ l' = q :: rest ∧ Divides q s ∧
      ∀ p ∈ pre, ¬ Divides p s := by
  induction l generalizing n with
  | nil => cases n <;> simp [divideSigs] at h
  | cons q l ih =>
    cases n with
    | zero => simp [divideSigs] at h
    | succ n =>
      have hq := dividesSig_iff hs (hl q List.mem_cons_self)
      rw [divideSigs_eq] at h
      split at h
      · next hd =>
        exact ⟨[], q, l, rfl, (Option.some.inj h).symm, hq.1 hd, by simp⟩
      · next hd =>
        obtain ⟨pre, p, rest, rfl, hl', hp, hpre⟩ :=
          ih (fun p hp => hl p (List.mem_cons_of_mem _ hp)) h
        refine ⟨q :: pre, p, rest, rfl, hl', hp, ?_⟩
        intro r hr
        rcases List.mem_cons.1 hr with rfl | hr
        · exact mt hq.2 hd
        · exact hpre r hr

theorem divideSigs_none (hs : Normalized s) (hl : ∀ q ∈ l, Normalized q) :
    divideSigs s n l = none ↔ ∀ q ∈ l.take n, ¬ Divides q s := by
  induction l generalizing n with
  | nil => cases n <;> simp [divideSigs]
  | cons q l ih =>
    cases n with
    | zero => simp [divideSigs]
    | succ n =>
      have hq := dividesSig_iff hs (hl q List.mem_cons_self)
      rw [divideSigs_eq, List.take_succ_cons, List.forall_mem_cons, ← hq,
        ← ih fun p hp => hl p (List.mem_cons_of_mem _ hp)]
      split <;> simp_all

def KeepsSig (l : List Sig) (s : Sig) : Prop := Asks (l.take MAXSIGSPERQUERY) s

theorem KeepsSig.next (hs : Normalized s) (hl : ∀ q ∈ l, Normalized q) (hk : KeepsSig l t)
    (hts : Divides t s) (h : divideSigs s MAXSIGSPERQUERY l = some l') : KeepsSig l' t := by
  obtain ⟨pre, q, rest, rfl, rfl, -, hpre⟩ := divideSigs_some hs hl h
  obtain ⟨p, hp, hpt⟩ := hk
  rw [List.take_append, List.mem_append] at hp
  rcases hp with hp | hp
  · exact (hpre p (List.mem_of_mem_take hp) (trans_of Divides hpt hts)).elim
  · exact ⟨p, List.take_subset_take_left _ (Nat.sub_le ..) hp, hpt⟩

theorem divideSigs_subset (hs : Normalized s) (hl : ∀ q ∈ l, Normalized q)
    (h : divideSigs s n l = some l') : l' ⊆ l := by
  obtain ⟨pre, q, rest, rfl, rfl, -, -⟩ := divideSigs_some hs hl h
  exact List.subset_append_right ..

theorem Asks.of_divides (h : Asks L s) (hd : Divides s t) : Asks L t := by
  obtain ⟨q, hq, hqs⟩ := h
  exact ⟨q, hq, trans_of Divides hqs hd⟩

theorem search_sound (hσ : σ.Normalized) (hL : ∀ q ∈ L, Normalized q) :
    Search σ (fun _ l => l ⊆ L) (fun _ _ => False) (Asks L) := by
  refine ⟨fun _ _ _ hD => hD.elim, ?_, ?_⟩
  · intro x n e l l' hx he hl h _
    have := divideSigs_subset (hσ hx e he) (fun q hq => hL q (hl hq)) h
    exact List.Subset.trans this hl
  · intro x n e l l' hx he hl h
    obtain ⟨pre, q, rest, rfl, -, hd, -⟩ :=
      divideSigs_some (hσ hx e he) (fun q hq => hL q (hl hq)) h
    exact ⟨q, hl (by simp), hd⟩

/-- The entries on the way to the document `d` with the signature `s`. -/
def OnWay (σ : Store) (d : Key) (s : Sig) (x : Key) (e : Key × Sig) : Prop :=
  (σ.forest.leaf x ∧ e = (d, s)) ∨ (¬ σ.forest.leaf x ∧ σ.forest.Stored e.1 d s)

theorem search_onWay (hσ : CoveredTree σ) (hL : ∀ q ∈ L, Normalized q) (d : Key) (s : Sig) :
    Search σ (fun x l => l ⊆ L ∧ (σ.forest.Stored x d s → KeepsSig l s)) (OnWay σ d s)
      (fun _ => True) := by
  refine ⟨?_, ?_, fun _ _ _ _ => trivial⟩
  · intro x n e l hx he hG hw hnone
    have hentry : σ.forest.entry x e.1 e.2 := (forest_entry hx).2 he
    rw [divideSigs_none (hσ.normalized hx e he) fun q hq => hL q (hG.1 hq)] at hnone
    have hask : KeepsSig l e.2 := by
      rcases hw with ⟨hleaf, rfl⟩ | ⟨hleaf, hst⟩
      · exact hG.2 (.doc hleaf hentry)
      · exact (hG.2 (.child hleaf hentry hst)).of_divides (hσ.covered hleaf hentry hst)
    obtain ⟨q, hq, hd⟩ := hask
    exact hnone q hq hd
  · intro x n e l l' hx he hG h hl
    have hentry : σ.forest.entry x e.1 e.2 := (forest_entry hx).2 he
    have hleaf : ¬ σ.forest.leaf x := by simp [forest_leaf hx, hl]
    have hs := hσ.normalized hx e he
    have hln : ∀ q ∈ l, Normalized q := fun q hq => hL q (hG.1 hq)
    refine ⟨List.Subset.trans (divideSigs_subset hs hln h) hG.1, fun hst => ?_⟩
    exact (hG.2 (.child hleaf hentry hst)).next hs hln (hσ.covered hleaf hentry hst) h

theorem mem_docs_of_stored (hσ : CoveredTree σ) (hL : ∀ q ∈ L, Normalized q)
    (h : queryProcess σ fuel L ⟨[], []⟩ x = some v) (hk : KeepsSig L s)
    (hst : σ.forest.Stored x d s) : d ∈ v.docs := by
  have hS := search_onWay hσ hL d s
  have hG : L ⊆ L ∧ (σ.forest.Stored x d s → KeepsSig L s) := ⟨List.Subset.refl _, fun _ => hk⟩
  have hfollow : ∀ {y}, σ.forest.Stored y d s → (y ∈ v.listOfVisitedNodes ∨ σ y = none) →
      d ∈ v.docs := by
    intro y hr
    induction hr with
    | @doc y d s hl he =>
      intro hy
      obtain ⟨n, hn, hmem⟩ := exists_of_entry he
      have hf := followed_of_reached hS hG h hy hn
      simpa [(forest_leaf hn).1 hl] using hf _ hmem (.inl ⟨hl, rfl⟩)
    | @child y c t d s hl he hc ih =>
      intro hy
      obtain ⟨n, hn, hmem⟩ := exists_of_entry he
      have hf := followed_of_reached hS hG h hy hn
      apply ih hk hst hS hG
      simpa [mt (forest_leaf hn).2 hl] using hf _ hmem (.inr ⟨hl, hc⟩)
  exact hfollow hst (queryProcess_explores hS hG h).2

theorem queryProcess_iff (hσ : CoveredTree σ) (hL : ∀ q ∈ L, Normalized q)
    (hlimit : ∀ q ∈ L.drop MAXSIGSPERQUERY, Asks (L.take MAXSIGSPERQUERY) q)
    (h : queryProcess σ fuel L ⟨[], []⟩ x = some v) :
    d ∈ v.docs ↔ FoundFrom σ (Asks L) x d := by
  constructor
  · exact fun hd => foundFrom_of_mem (search_sound hσ.normalized hL) (List.Subset.refl _) h hd
  · intro hr
    obtain ⟨s, hst, q, hq, hd⟩ := hr.stored
    apply mem_docs_of_stored hσ hL h _ hst
    rw [← List.take_append_drop MAXSIGSPERQUERY L, List.mem_append] at hq
    rcases hq with hq | hq
    · exact ⟨q, hq, hd⟩
    · exact (hlimit q hq).of_divides hd

/-- The query of the client and the query at the servers come to their ends and report the same
documents. -/
def QueriesAgree (ix : Index) (σ : Store) (L : List Sig) : Prop :=
  ∃ sigdata bound, makeSigData L .DIVISIBLE = some sigdata ∧ ∀ fuel ≥ bound, ∃ v docs,
    queryProcess σ fuel L ⟨[], []⟩ ix.rootID = some v ∧
    queryProcessO ix σ sigdata fuel ix.rootID = some docs ∧ ∀ d, d ∈ v.docs ↔ d ∈ docs

theorem exists_queries (ix : Index) (hσ : CoveredTree σ) (hL : ∀ q ∈ L, Normalized q)
    (hfit : FitsBuffer L) :
    ∃ sigdata bound, makeSigData L .DIVISIBLE = some sigdata ∧ ∀ fuel ≥ bound, ∃ v docs,
      queryProcess σ fuel L ⟨[], []⟩ ix.rootID = some v ∧
      queryProcessO ix σ sigdata fuel ix.rootID = some docs ∧
      ∀ d, d ∈ docs ↔ FoundFrom σ (Asks L) ix.rootID d := by
  obtain ⟨keys, hkeys⟩ := hσ.finite
  have hf := makeSigData_of_fits hfit .DIVISIBLE
  refine ⟨_, (unvisited keys ⟨[], []⟩).length + σ.depth ix.rootID + 1, hf, fun fuel hfuel => ?_⟩
  have hunvisited : (unvisited keys ⟨[], []⟩).length < fuel := by omega
  have hdepth : σ.depth ix.rootID < fuel := by omega
  obtain ⟨v, hv, -⟩ := queryProcess_terminates hkeys hunvisited L ix.rootID
  obtain ⟨docs, hdocs, hd⟩ := queryProcessO_iff ix hσ hL hfit hf hdepth
  exact ⟨v, docs, hv, hdocs, hd⟩

theorem foundFrom_single : FoundFrom (rootStore ix [(d, s)]) R ix.rootID d ↔ R s := by
  rw [foundFrom_leaf (rootStore_root ..) rfl]
  simp [rootLeaf]

theorem single_coveredTree (ix : Index) (hs : Normalized s) :
    CoveredTree (rootStore ix [(d, s)]) := by
  have hwf : WellFormed ix (rootStore ix [(d, s)]) := by
    refine rootStore_wellFormed (by simp) ?_ (by simpa using hs)
    have := ix.two_le
    simp only [List.length_singleton]
    omega
  exact hwf.coveredTree

theorem not_queriesAgree_single (hL : ∀ q ∈ L, Normalized q) (hfit : FitsBuffer L) (hq : q ∈ L)
    (hnot : ¬ Asks (L.take MAXSIGSPERQUERY) q) :
    ¬ QueriesAgree ix (rootStore ix [(d, q)]) L := by
  rintro ⟨sigdata, bound, hf, hagree⟩
  obtain ⟨sigdata', bound', hf', hdocs⟩ :=
    exists_queries ix (single_coveredTree (d := d) ix (hL q hq)) hL hfit
  obtain rfl : sigdata = sigdata' := Option.some.inj (hf.symm.trans hf')
  obtain ⟨v, docs, hv, hdocs₁, hiff⟩ := hagree (max bound bound' + 1) (by omega)
  obtain ⟨-, docs', -, hdocs₂, hfound⟩ := hdocs (max bound bound' + 1) (by omega)
  obtain rfl : docs = docs' := Option.some.inj (hdocs₁.symm.trans hdocs₂)
  have hd : d ∈ v.docs :=
    (hiff d).2 ((hfound d).2 (foundFrom_single.2 ⟨q, hq, refl_of Divides q⟩))
  have hnone : divideSigs q MAXSIGSPERQUERY L = none :=
    (divideSigs_none (hL q hq) hL).2 fun p hp hpq => hnot ⟨p, hp, hpq⟩
  rw [queryProcess_succ, if_neg (by simp), rootStore_root] at hv
  simp only [rootLeaf, List.foldlM_cons, List.foldlM_nil, queryEntry, hnone] at hv
  obtain rfl := Option.some.inj hv
  simp at hd

/-- The client looks at the first signatures only, the filter at all of them. -/
theorem queries_agree_iff (ix : Index) (hL : ∀ q ∈ L, Normalized q) (hfit : FitsBuffer L) :
    (∀ σ, CoveredTree σ → QueriesAgree ix σ L) ↔
      ∀ q ∈ L.drop MAXSIGSPERQUERY, Asks (L.take MAXSIGSPERQUERY) q := by
  constructor
  · intro h q hq
    have hqL := List.mem_of_mem_drop hq
    by_contra hnot
    exact not_queriesAgree_single (d := []) hL hfit hqL hnot
      (h _ (single_coveredTree ix (hL q hqL)))
  · intro hlimit σ hσ
    obtain ⟨sigdata, bound, hf, hdocs⟩ := exists_queries ix hσ hL hfit
    refine ⟨sigdata, bound, hf, fun fuel hfuel => ?_⟩
    obtain ⟨v, docs, hv, hdocs, hd⟩ := hdocs fuel hfuel
    exact ⟨v, docs, hv, hdocs, fun d => by rw [hd, queryProcess_iff hσ hL hlimit hv]⟩

theorem queries_agree_two :
    (∀ q ∈ [[2#32], [3#32]], Normalized q) ∧ FitsBuffer [[2#32], [3#32]] ∧
      QueriesAgree smallIndex (rootStore smallIndex [([97], [6])]) [[2#32], [3#32]] := by
  have hL : ∀ q ∈ [[2#32], [3#32]], Normalized q := by decide
  have hfit : FitsBuffer [[2#32], [3#32]] := by decide
  refine ⟨hL, hfit, (queries_agree_iff smallIndex hL hfit).2 (by simp [MAXSIGSPERQUERY]) _ ?_⟩
  exact single_coveredTree smallIndex (by decide)

def manySigs : List Sig := List.replicate 50 [2] ++ [[3]]

theorem queries_disagree :
    (∀ q ∈ manySigs, Normalized q) ∧ FitsBuffer manySigs ∧
      CoveredTree (rootStore smallIndex [([97], [3])]) ∧
      ¬ QueriesAgree smallIndex (rootStore smallIndex [([97], [3])]) manySigs := by
  have hL : ∀ q ∈ manySigs, Normalized q := by decide
  have hfit : FitsBuffer manySigs := by decide
  refine ⟨hL, hfit, single_coveredTree smallIndex (hL _ (by simp [manySigs])),
    not_queriesAgree_single hL hfit (by simp [manySigs]) ?_⟩
  rintro ⟨q, hq, hd⟩
  have hq2 : q = [2] := by
    rw [manySigs, MAXSIGSPERQUERY, List.take_left' (by simp)] at hq
    exact List.eq_of_mem_replicate hq
  subst hq2
  have hdiv := (dividesSig_iff (s := [3]) (by decide) (by decide)).2 hd
  exact absurd hdiv (by decide)

end Agree

end XGossip
