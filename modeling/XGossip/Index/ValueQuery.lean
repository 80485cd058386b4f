import XGossip.Index.SigData
import XGossip.Index.SplitNodeV

namespace XGossip
set_option autoImplicit true

open Codec Gf2 Buf

section QueryProcessV

def queryProcessV (σ : Store) (listOfSigs : List Sig) (valSig : Sig) (OP : OPTYPE) :
    Nat → Visit → Key → Option Visit
  | 0, _, _ => none
  | fuel + 1, v, nodeID =>
    if nodeID ∈ v.listOfVisitedNodes then some v
    else
      match σ nodeID with
      | none => some v
      | some n =>
        let v := { v with listOfVisitedNodes := nodeID :: v.listOfVisitedNodes }
        -- the first entry ends it: there is support only for "=" operator
        if valSig.length = 1 ∧ OP ≠ .EQUAL then some v
        else n.entries.foldlM (fun v e => do
          if ← matchesValue e.2 valSig OP.code then
            if n.isLeaf then
              let ((mySig, myDocid), _) ← runReader getDocid e.1
              if (listOfSigs.take MAXSIGSPERQUERY).any (dividesSig mySig) then
                return { v with docs := v.docs ++ [myDocid] }
              else return v
            else queryProcessV σ listOfSigs valSig OP fuel v e.1
          else return v) v

/-- The loop of `queryProcessV` over one entry. -/
def queryEntryV (σ : Store) (listOfSigs : List Sig) (valSig : Sig) (OP : OPTYPE) (fuel : Nat)
    (leaf : Bool) (v : Visit) (e : Key × Sig) : Option Visit := do
  if ← matchesValue e.2 valSig OP.code then
    if leaf then
      let ((mySig, myDocid), _) ← runReader getDocid e.1
      if (listOfSigs.take MAXSIGSPERQUERY).any (dividesSig mySig) then
        return { v with docs := v.docs ++ [myDocid] }
      else return v
    else queryProcessV σ listOfSigs valSig OP fuel v e.1
  else return v

theorem queryProcessV_succ (σ : Store) (listOfSigs : List Sig) (valSig : Sig) (OP : OPTYPE)
    (fuel : Nat) (v : Visit) (x : Key) :
    queryProcessV σ listOfSigs valSig OP (fuel + 1) v x =
      if x ∈ v.listOfVisitedNodes then some v
      else match σ x with
        | none => some v
        | some n =>
          if valSig.length = 1 ∧ OP ≠ .EQUAL then some ⟨x :: v.listOfVisitedNodes, v.docs⟩
          else n.entries.foldlM (queryEntryV σ listOfSigs valSig OP fuel n.isLeaf)
            ⟨x :: v.listOfVisitedNodes, v.docs⟩ := rfl

def queryProcessVO (ix : Index) (σ : Store) (sigdata : List Byte) : Nat → Key → Option (List Key) :=
  queryProcessO ix σ sigdata

/-- A filter with a value, as `executeFilter` reads it: the operator is behind the value, where
`makeSigData` does not leave it. -/
def valueFilter (listOfSigs : List Sig) (valSig : Sig) (OP : OPTYPE) : List Byte :=
  (RetrieveType.DIVISIBLEV.code :: BitVec.ofNat 32 listOfSigs.length ::
    allWords listOfSigs).flatMap intBytes ++ ((sigWords valSig).flatMap intBytes ++
    intBytes OP.code)

theorem valueFilter_parses (h : FitsBuffer L) (hv : v.length < 2 ^ 31) :
    Parses getFilterV (valueFilter L v OP) ((RetrieveType.DIVISIBLEV.code, L), v, OP.code) := by
  have hcount : (BitVec.ofNat 32 v.length).toInt.toNat = v.length := by
    rw [BitVec.toInt_ofNat', Int.bmod_eq_of_le (by omega) (by omega), Int.toNat_natCast]
  have hwords : Parses (repeatM getInt v.length) (v.flatMap intBytes) v :=
    Parses.repeatM fun w _ => getInt_parses w
  have hvalue : Parses getValue ((sigWords v).flatMap intBytes ++ intBytes OP.code) (v, OP.code) := by
    rw [sigWords, List.flatMap_cons, List.append_assoc]
    refine (getInt_parses _).bind ?_
    rw [hcount]
    exact hwords.bind ((getInt_parses _).bind_pure (v, ·))
  exact (getFilter_parses h _).bind (hvalue.bind_pure (_, ·))

end QueryProcessV

section Meaning

/-- What a comparison asks of an interval: that it has a value like that. An interval is equal to
the one asked for where it has all of it. -/
def Meets (OP : OPTYPE) (valSig s : Sig) : Prop :=
  match OP with
  | .EQUAL => Within valSig s
  | .GREATER => ∃ a, lowOf s ≤ a ∧ a ≤ highOf s ∧ lowOf valSig < a
  | .GREATEREQUAL => ∃ a, lowOf s ≤ a ∧ a ≤ highOf s ∧ lowOf valSig ≤ a
  | .LESS => ∃ a, lowOf s ≤ a ∧ a ≤ highOf s ∧ a < highOf valSig
  | .LESSEQUAL => ∃ a, lowOf s ≤ a ∧ a ≤ highOf s ∧ a ≤ highOf valSig

theorem Meets.mono (h : Meets OP v s) (hst : Within s t) : Meets OP v t := by
  obtain ⟨hlow, hhigh⟩ := hst
  cases OP with
  | EQUAL => exact h.trans ⟨hlow, hhigh⟩
  | GREATER => exact h.imp fun a ha => ⟨hlow.trans ha.1, ha.2.1.trans hhigh, ha.2.2⟩
  | LESS => exact h.imp fun a ha => ⟨hlow.trans ha.1, ha.2.1.trans hhigh, ha.2.2⟩
  | GREATEREQUAL => exact h.imp fun a ha => ⟨hlow.trans ha.1, ha.2.1.trans hhigh, ha.2.2⟩
  | LESSEQUAL => exact h.imp fun a ha => ⟨hlow.trans ha.1, ha.2.1.trans hhigh, ha.2.2⟩

/-- The comparisons of the bounds decide it. -/
theorem matchesInterval_iff (hv : IsInterval v) (hs : IsInterval s) :
    ∃ b, matchesInterval s v OP.code = some b ∧ (b = true ↔ Meets OP v s) := by
  obtain ⟨lo, hi, rfl, hle, hlt⟩ := hs.cases
  obtain ⟨vlo, vhi, rfl, hvle, hvlt⟩ := hv.cases
  cases OP with
  | EQUAL =>
    refine ⟨_, rfl, ?_⟩
    rw [decide_eq_true_iff]
    rfl
  | GREATER =>
    refine ⟨_, rfl, ?_⟩
    rw [decide_eq_true_iff, BitVec.not_le, BitVec.lt_def]
    exact ⟨fun h => ⟨hi.toNat, hle, Nat.le_refl _, h⟩, fun ⟨a, _, h₂, h₃⟩ => h₃.trans_le h₂⟩
  | LESS =>
    refine ⟨_, rfl, ?_⟩
    rw [decide_eq_true_iff, ge_iff_le, BitVec.not_le, BitVec.lt_def]
    exact ⟨fun h => ⟨lo.toNat, Nat.le_refl _, hle, h⟩, fun ⟨a, h₁, _, h₃⟩ => h₁.trans_lt h₃⟩
  | GREATEREQUAL =>
    refine ⟨_, rfl, ?_⟩
    rw [decide_eq_true_iff, BitVec.not_lt, BitVec.le_def]
    exact ⟨fun h => ⟨hi.toNat, hle, Nat.le_refl _, h⟩, fun ⟨a, _, h₂, h₃⟩ => h₃.trans h₂⟩
  | LESSEQUAL =>
    refine ⟨_, rfl, ?_⟩
    rw [decide_eq_true_iff, gt_iff_lt, BitVec.not_lt, BitVec.le_def]
    exact ⟨fun h => ⟨lo.toNat, Nat.le_refl _, hle, h⟩, fun ⟨a, h₁, _, h₃⟩ => h₁.trans h₃⟩

end Meaning

section Search

variable {σ : Store} {L : List Sig} {valSig : Sig} {OP : OPTYPE} {M : Sig → Prop}

/-- The trees of values: intervals, with those of the entries inside of the ones above, or texts,
which are searched like any signatures. `M` is what the query asks of a value. -/
inductive ValueEntries (σ : Store) (valSig : Sig) : OPTYPE → (Sig → Prop) → Prop where
  | interval {op : OPTYPE} (hv : IsInterval valSig)
    (hs : ∀ ⦃x n⦄, σ x = some n → ∀ e ∈ n.entries, IsInterval e.2)
    (hcovered : σ.forest.Covered Within) : ValueEntries σ valSig op (Meets op valSig)
  | text (hlen : valSig.length = 1) (hv : Normalized valSig) (hs : σ.Normalized)
    (hcovered : σ.forest.Covered Divides) : ValueEntries σ valSig .EQUAL (Divides valSig)

/-- A tree for values, with the signatures of the documents in the keys of its leaves. -/
structure ValueTree (σ : Store) (valSig : Sig) (OP : OPTYPE) (M : Sig → Prop) : Prop where
  level : σ x = some n → n.isLeaf = false → c ∈ n.keys → σ c = some m →
    m.int.level.toInt.toNat < n.int.level.toInt.toNat
  entries : ValueEntries σ valSig OP M
  docid : σ x = some n → n.isLeaf → e ∈ n.entries → ∃ mySig myDocid reads,
    runReader getDocid e.1 = some ((mySig, myDocid), reads) ∧ Normalized mySig

/-- The key of an entry of a leaf is that of a document which the query asks for. -/
def Lists (L : List Sig) (key d : Key) : Prop :=
  ∃ mySig reads, runReader getDocid key = some ((mySig, d), reads) ∧
    Asks (L.take MAXSIGSPERQUERY) mySig

def ValueFound (σ : Store) (M : Sig → Prop) (L : List Sig) (x d : Key) : Prop :=
  ∃ key, FoundFrom σ M x key ∧ Lists L key d

def EntryFound (σ : Store) (M : Sig → Prop) (L : List Sig) (leaf : Bool) (e : Key × Sig) (d : Key) :
    Prop :=
  M e.2 ∧ if leaf then Lists L e.1 d else ValueFound σ M L e.1 d

theorem ValueEntries.matchesValue (h : ValueEntries σ valSig OP M) (hx : σ x = some n)
    (he : e ∈ n.entries) :
    ∃ b, matchesValue e.2 valSig OP.code = some b ∧ (b = true ↔ M e.2) := by
  cases h with
  | interval hv hs =>
    rw [XGossip.matchesValue, if_neg (by simp [hv.length]), if_pos hv.length]
    exact matchesInterval_iff hv (hs hx e he)
  | text hlen hv hs =>
    exact ⟨_, if_pos hlen, dividesSig_iff (hs hx e he) hv⟩

theorem ValueEntries.supported (h : ValueEntries σ valSig OP M) :
    ¬ (valSig.length = 1 ∧ OP ≠ .EQUAL) := by
  cases h with
  | interval hv => simp [hv.length]
  | text => simp

theorem ValueEntries.foundFrom_iff (h : ValueEntries σ valSig OP M) :
    FoundFrom σ M x key ↔ ∃ s, σ.forest.Stored x key s ∧ M s := by
  refine ⟨Forest.Reach.stored, ?_⟩
  rintro ⟨s, hst, hs⟩
  cases h with
  | interval hv _ hcovered =>
    exact hst.reach_of_closed hcovered (fun hst hs => hs.mono hst) hs
  | text _ hv _ hcovered =>
    exact hst.reach_of_closed hcovered (fun hst hs => trans_of Divides hs hst) hs

theorem ValueTree.depth_lt (hσ : ValueTree σ valSig OP M) (hx : σ x = some n)
    (hl : n.isLeaf = false) (hc : c ∈ n.keys) : σ.depth c < σ.depth x := by
  rw [Store.depth, Store.depth, hx]
  cases hm : σ c with
  | none => simp
  | some m =>
    have := hσ.level hx hl hc hm
    simp only
    omega

theorem valueFound_iff (hx : σ x = some n) :
    ValueFound σ M L x d ↔ ∃ e ∈ n.entries, EntryFound σ M L n.isLeaf e d := by
  cases hl : n.isLeaf with
  | true =>
    simp only [ValueFound, EntryFound, foundFrom_leaf hx hl, if_pos]
    constructor
    · rintro ⟨key, ⟨s, he, hs⟩, hlists⟩
      exact ⟨_, he, hs, hlists⟩
    · rintro ⟨e, he, hs, hlists⟩
      exact ⟨e.1, ⟨e.2, he, hs⟩, hlists⟩
  | false =>
    simp only [ValueFound, EntryFound, foundFrom_node hx hl, Bool.false_eq_true, if_false]
    constructor
    · rintro ⟨key, ⟨c, ⟨s, he, hs⟩, hfound⟩, hlists⟩
      exact ⟨_, he, hs, key, hfound, hlists⟩
    · rintro ⟨e, he, hs, key, hfound, hlists⟩
      exact ⟨key, ⟨e.1, ⟨e.2, he, hs⟩, hfound⟩, hlists⟩

theorem not_valueFound_none (hx : σ x = none) : ¬ ValueFound σ M L x d := fun ⟨_, h, _⟩ =>
  not_foundFrom_none hx h

theorem ValueTree.lists (hσ : ValueTree σ valSig OP M) (hL : ∀ q ∈ L, Normalized q)
    (hx : σ x = some n) (hl : n.isLeaf = true) (he : e ∈ n.entries) :
    ∃ mySig myDocid reads, runReader getDocid e.1 = some ((mySig, myDocid), reads) ∧
      ∀ d, Lists L e.1 d ↔
        d = myDocid ∧ (L.take MAXSIGSPERQUERY).any (dividesSig mySig) = true := by
  obtain ⟨mySig, myDocid, reads, hread, hnorm⟩ := hσ.docid hx hl he
  have htake : ∀ q ∈ L.take MAXSIGSPERQUERY, Normalized q := fun q hq => hL q (List.mem_of_mem_take hq)
  refine ⟨mySig, myDocid, reads, hread, fun d => ?_⟩
  rw [any_dividesSig hnorm htake, Lists, hread]
  constructor
  · rintro ⟨mySig', reads', heq, hasks⟩
    obtain ⟨⟨rfl, rfl⟩, -⟩ : (mySig = mySig' ∧ myDocid = d) ∧ reads = reads' := by simpa using heq
    exact ⟨rfl, hasks⟩
  · rintro ⟨rfl, hasks⟩
    exact ⟨mySig, reads, rfl, hasks⟩

/-- What a call of `queryProcessV` for a node does: it reports what is found from there, and no node
is visited without that. -/
structure FindsV (σ : Store) (L : List Sig) (M : Sig → Prop) (P : Key → Prop) (v v' : Visit) :
    Prop where
  docs : v.docs ⊆ v'.docs
  sound : ∀ d ∈ v'.docs, d ∈ v.docs ∨ P d
  complete : ∀ d, P d → d ∈ v'.docs
  visited : ∀ y ∈ v'.listOfVisitedNodes, y ∈ v.listOfVisitedNodes ∨
    ∀ d, ValueFound σ M L y d → d ∈ v'.docs

/-- The nodes down to a depth that have been visited have been searched. -/
def Searched (σ : Store) (L : List Sig) (M : Sig → Prop) (k : Nat) (v : Visit) : Prop :=
  ∀ y ∈ v.listOfVisitedNodes, σ.depth y < k → ∀ d, ValueFound σ M L y d → d ∈ v.docs

theorem FindsV.searched (h : FindsV σ L M P v v') (hv : Searched σ L M k v) :
    Searched σ L M k v' := fun y hy hk d hd =>
  (h.visited y hy).elim (fun hy => h.docs (hv y hy hk d hd)) fun hy => hy d hd

theorem FindsV.trans {P P' : Key → Prop} (h : FindsV σ L M P v v₁) (h' : FindsV σ L M P' v₁ v') :
    FindsV σ L M (fun d => P d ∨ P' d) v v' where
  docs := List.Subset.trans h.docs h'.docs
  sound d hd := (h'.sound d hd).elim (fun hd => (h.sound d hd).imp_right .inl) fun hd => .inr (.inr hd)
  complete d hd := hd.elim (fun hd => h'.docs (h.complete d hd)) (h'.complete d)
  visited y hy := (h'.visited y hy).elim
    (fun hy => (h.visited y hy).imp_right fun hy d hd => h'.docs (hy d hd)) .inr

theorem FindsV.congr {P P' : Key → Prop} (h : FindsV σ L M P v v') (hP : ∀ d, P d ↔ P' d) :
    FindsV σ L M P' v v' :=
  ⟨h.docs, fun d hd => (h.sound d hd).imp_right (hP d).1, fun d hd => h.complete d ((hP d).2 hd),
    h.visited⟩

theorem FindsV.refl {P : Key → Prop} (v : Visit) (hP : ∀ d, ¬ P d) : FindsV σ L M P v v :=
  ⟨List.Subset.refl _, fun _ hd => .inl hd, fun d hd => (hP d hd).elim, fun _ hy => .inl hy⟩

theorem FindsV.foldlM {f : Visit → Key × Sig → Option Visit} {E : Key × Sig → Key → Prop}
    {l : List (Key × Sig)} (hf : ∀ e ∈ l, ∀ v, Searched σ L M k v →
      ∃ v', f v e = some v' ∧ FindsV σ L M (E e) v v') (hv : Searched σ L M k v) :
    ∃ v', l.foldlM f v = some v' ∧ FindsV σ L M (fun d => ∃ e ∈ l, E e d) v v' := by
  induction l generalizing v with
  | nil => exact ⟨v, rfl, .refl v (by simp)⟩
  | cons e l ih =>
    obtain ⟨v₁, hv₁, h₁⟩ := hf e List.mem_cons_self v hv
    obtain ⟨v₂, hv₂, h₂⟩ := ih (fun e he => hf e (List.mem_cons_of_mem _ he)) (h₁.searched hv)
    refine ⟨v₂, ?_, (h₁.trans h₂).congr (by simp)⟩
    rw [List.foldlM_cons, hv₁]
    exact hv₂

/-- Query processing at the client: a node is reported on once, whichever way it is come to. -/
theorem queryProcessV_finds (hσ : ValueTree σ valSig OP M) (hL : ∀ q ∈ L, Normalized q)
    (hfuel : σ.depth x < fuel) (hv : Searched σ L M (σ.depth x + 1) v) :
    ∃ v', queryProcessV σ L valSig OP fuel v x = some v' ∧
      FindsV σ L M (ValueFound σ M L x) v v' := by
  induction fuel generalizing x v with
  | zero => omega
  | succ fuel ih =>
    rw [queryProcessV_succ]
    split
    · next hmem =>
      have hfound := hv x hmem (Nat.lt_succ_self _)
      exact ⟨v, rfl, List.Subset.refl _, fun _ hd => .inl hd, hfound, fun _ hy => .inl hy⟩
    · cases hx : σ x with
      | none => exact ⟨v, rfl, .refl v fun d => not_valueFound_none hx⟩
      | some n =>
        simp only [if_neg hσ.entries.supported]
        have hstart : Searched σ L M (σ.depth x) ⟨x :: v.listOfVisitedNodes, v.docs⟩ := by
          intro y hy hlt
          rcases List.mem_cons.1 hy with rfl | hy
          · exact (Nat.lt_irrefl _ hlt).elim
          · exact hv y hy (by omega)
        have hentry : ∀ e ∈ n.entries, ∀ v, Searched σ L M (σ.depth x) v →
            ∃ v', queryEntryV σ L valSig OP fuel n.isLeaf v e = some v' ∧
              FindsV σ L M (EntryFound σ M L n.isLeaf e) v v' := by
          intro e he v hv
          obtain ⟨b, hb, hM⟩ := hσ.entries.matchesValue hx he
          rw [queryEntryV]
          simp only [hb, Option.bind_eq_bind, Option.bind_some]
          split
          · next hyes =>
            cases hl : n.isLeaf with
            | true =>
              obtain ⟨mySig, myDocid, reads, hread, hlists⟩ := hσ.lists hL hx hl he
              simp only [hread, Option.bind_some, if_pos]
              have hE : ∀ d, EntryFound σ M L true e d ↔ Lists L e.1 d := fun d => by
                rw [EntryFound, if_pos rfl, and_iff_right (hM.1 hyes)]
              split
              · next hany =>
                refine ⟨_, rfl, List.subset_append_left .., fun d hd => ?_, fun d hd => ?_,
                  fun _ hy => .inl hy⟩
                · rcases List.mem_append.1 hd with hd | hd
                  · exact .inl hd
                  · exact .inr ((hE d).2 ((hlists d).2 ⟨List.mem_singleton.1 hd, hany⟩))
                · rw [((hlists d).1 ((hE d).1 hd)).1]
                  exact List.mem_append_right _ List.mem_cons_self
              · next hany =>
                exact ⟨v, rfl, .refl v fun d hd => hany ((hlists d).1 ((hE d).1 hd)).2⟩
            | false =>
              have hlt := hσ.depth_lt hx hl (mem_keys.2 ⟨e.2, he⟩)
              obtain ⟨v', hv', hfinds⟩ := ih (x := e.1) (by omega) fun y hy hk => hv y hy (by omega)
              refine ⟨v', by simpa using hv', hfinds.congr fun d => ?_⟩
              rw [EntryFound, if_neg (by simp), and_iff_right (hM.1 hyes)]
          · next hno => exact ⟨v, rfl, .refl v fun d hd => hno (hM.2 hd.1)⟩
        obtain ⟨v', hv', hfinds⟩ := FindsV.foldlM hentry hstart
        refine ⟨v', hv', hfinds.docs, fun d hd => ?_, fun d hd => ?_, fun y hy => ?_⟩
        · exact (hfinds.sound d hd).imp_right (valueFound_iff hx).2
        · exact hfinds.complete d ((valueFound_iff hx).1 hd)
        · rcases hfinds.visited y hy with hy | hy
          · rcases List.mem_cons.1 hy with rfl | hy
            · exact .inr fun d hd => hfinds.complete d ((valueFound_iff hx).1 hd)
            · exact .inl hy
          · exact .inr hy

/-- The filter passes what can be found through the entries of a node. -/
theorem executeFilter_value (hσ : ValueTree σ valSig OP M) (hL : ∀ q ∈ L, Normalized q)
    (hfit : FitsBuffer L) (hlen : valSig.length < 2 ^ 31) (MAXENTRIES : Nat) (hx : σ x = some n) :
    ∃ keys, executeFilter MAXENTRIES n (valueFilter L valSig OP) = some keys ∧
      ∀ key, key ∈ keys ↔ ∃ e ∈ n.entries, M e.2 ∧ if n.isLeaf then Lists L e.1 key else key = e.1 := by
  have hhdr : (valueFilter L valSig OP).takeWhile (· ≠ 0) ≠ HDRONLY := by
    have hcode : intBytes RetrieveType.DIVISIBLEV.code = [2, 0, 0, 0] := by decide
    rw [valueFilter, List.flatMap_cons, hcode]
    simp [HDRONLY]
  have hfilter := (getFilter_parses hfit RetrieveType.DIVISIBLEV.code).run_append
    ((sigWords valSig).flatMap intBytes ++ intBytes OP.code)
  have hparses : Parses getFilterV (valueFilter L valSig OP) _ := valueFilter_parses hfit hlen
  have hvalue := hparses.run
  have hsupported : ¬ (valSig.length = 1 ∧ OP.code ≠ OPTYPE.EQUAL.code) := fun h =>
    hσ.entries.supported ⟨h.1, fun hOP => h.2 (congrArg OPTYPE.code hOP)⟩
  have hentry : ∀ e ∈ n.entries, ∃ ks, filterValue n.isLeaf L valSig OP.code e = some ks ∧
      ∀ key, key ∈ ks ↔ M e.2 ∧ if n.isLeaf then Lists L e.1 key else key = e.1 := by
    intro e he
    obtain ⟨b, hb, hM⟩ := hσ.entries.matchesValue hx he
    rw [filterValue]
    simp only [hb, Option.bind_eq_bind, Option.bind_some]
    split
    · next hyes =>
      simp only [and_iff_right (hM.1 hyes)]
      cases hl : n.isLeaf with
      | true =>
        obtain ⟨mySig, myDocid, reads, hread, hlists⟩ := hσ.lists hL hx hl he
        simp only [hread, Option.bind_some, if_pos, hlists]
        split
        · next hany => exact ⟨_, rfl, fun key => by simp [hany]⟩
        · next hany => exact ⟨_, rfl, fun key => by simp [hany]⟩
      | false => exact ⟨_, rfl, fun key => by simp⟩
    · next hno => exact ⟨_, rfl, fun key => by simp [mt hM.2 hno]⟩
  obtain ⟨kss, hkss, hmem⟩ := mapM_flatten hentry
  refine ⟨kss.flatten, ?_, hmem⟩
  rw [executeFilter, if_neg hhdr, valueFilter, hfilter, ← valueFilter]
  have h₁ : RetrieveType.DIVISIBLEV.code ≠ RetrieveType.DIVISIBLE.code := by decide
  simp only [Option.bind_eq_bind, Option.bind_some, if_neg h₁, if_pos]
  rw [← getFilterV, hvalue]
  simp only [Option.bind_some, if_neg hsupported, hkss]
  rfl

/-- Query processing at the server. -/
theorem queryProcessVO_finds (ix : Index) (hσ : ValueTree σ valSig OP M)
    (hL : ∀ q ∈ L, Normalized q) (hfit : FitsBuffer L) (hlen : valSig.length < 2 ^ 31)
    (hfuel : σ.depth x < fuel) :
    ∃ docs, queryProcessVO ix σ (valueFilter L valSig OP) fuel x = some docs ∧
      ∀ d, d ∈ docs ↔ ValueFound σ M L x d := by
  induction fuel generalizing x with
  | zero => omega
  | succ fuel ih =>
    rw [queryProcessVO, queryProcessO]
    cases hx : σ x with
    | none => exact ⟨[], rfl, fun d => by simp [not_valueFound_none hx]⟩
    | some n =>
      obtain ⟨keys, hkeys, hmem⟩ := executeFilter_value hσ hL hfit hlen ix.MAXENTRIES hx
      simp only [hkeys, Option.bind_eq_bind, Option.bind_some, valueFound_iff hx]
      cases hl : n.isLeaf with
      | true =>
        refine ⟨keys, rfl, fun d => ?_⟩
        simp only [hmem, hl, EntryFound, if_true]
      | false =>
        simp only [hl, Bool.false_eq_true, if_false] at hmem
        obtain ⟨dss, hdss, hd⟩ := mapM_flatten (l := keys)
          (f := queryProcessO ix σ (valueFilter L valSig OP) fuel) (P := ValueFound σ M L)
          fun c hc => by
            obtain ⟨e, he, -, rfl⟩ := (hmem c).1 hc
            have := hσ.depth_lt hx hl (mem_keys.2 ⟨e.2, he⟩)
            exact ih (by omega)
        refine ⟨dss.flatten, by simp [hdss], fun d => ?_⟩
        simp only [hd, hmem, EntryFound, Bool.false_eq_true, if_false]
        constructor
        · rintro ⟨_, ⟨e, he, hM, rfl⟩, hfound⟩
          exact ⟨e, he, hM, hfound⟩
        · rintro ⟨e, he, hM, hfound⟩
          exact ⟨_, ⟨e, he, hM, rfl⟩, hfound⟩

theorem value_query_iff (ix : Index) (hσ : ValueTree σ valSig OP M) (hL : ∀ q ∈ L, Normalized q)
    (hfit : FitsBuffer L) (hlen : valSig.length < 2 ^ 31) (hfuel : σ.depth x < fuel) :
    ∃ v docs, queryProcessV σ L valSig OP fuel ⟨[], []⟩ x = some v ∧
      queryProcessVO ix σ (valueFilter L valSig OP) fuel x = some docs ∧
      (∀ d, d ∈ v.docs ↔ d ∈ docs) ∧
      ∀ d, d ∈ docs ↔ ∃ key s, σ.forest.Stored x key s ∧ M s ∧ Lists L key d := by
  obtain ⟨v, hv, hfinds⟩ := queryProcessV_finds (v := ⟨[], []⟩) hσ hL hfuel fun _ hy => by simp at hy
  obtain ⟨docs, hdocs, hmem⟩ := queryProcessVO_finds ix hσ hL hfit hlen hfuel
  refine ⟨v, docs, hv, hdocs, fun d => ?_, fun d => ?_⟩
  · rw [hmem]
    exact ⟨fun hd => (hfinds.sound d hd).resolve_left (by simp), hfinds.complete d⟩
  · rw [hmem, ValueFound]
    simp only [hσ.entries.foundFrom_iff]
    constructor
    · rintro ⟨key, ⟨s, hst, hs⟩, hlists⟩
      exact ⟨key, s, hst, hs, hlists⟩
    · rintro ⟨key, s, hst, hs, hlists⟩
      exact ⟨key, ⟨s, hst, hs⟩, hlists⟩

def docKey (mySig : POLY) (myDocid : Byte) : Key :=
  intBytes 1 ++ intBytes mySig ++ intBytes 1 ++ [myDocid]

/-- A root above two leaves with values below 10 and from 10 on. -/
def twoRanges : Store := fun x =>
  if x = [1] then some ⟨.ROOT, ⟨0, 1, 1, 1, 1, 1⟩, [([2], [0, 9]), ([3], [10, 19])]⟩
  else if x = [2] then
    some ⟨.LEAF, ⟨0, 1, 1, 2, 0, 1⟩, [(docKey 6 65, [3, 3]), (docKey 7 66, [9, 9])]⟩
  else if x = [3] then some ⟨.LEAF, ⟨1, 2, 1, 1, 0, 1⟩, [(docKey 6 67, [12, 12])]⟩
  else none

theorem twoRanges_cases (h : twoRanges x = some n) :
    (x = [1] ∧ n = ⟨.ROOT, ⟨0, 1, 1, 1, 1, 1⟩, [([2], [0, 9]), ([3], [10, 19])]⟩) ∨
    (x = [2] ∧
      n = ⟨.LEAF, ⟨0, 1, 1, 2, 0, 1⟩, [(docKey 6 65, [3, 3]), (docKey 7 66, [9, 9])]⟩) ∨
    (x = [3] ∧ n = ⟨.LEAF, ⟨1, 2, 1, 1, 0, 1⟩, [(docKey 6 67, [12, 12])]⟩) := by
  rw [twoRanges] at h
  split at h
  · next hx => exact .inl ⟨hx, (Option.some.inj h).symm⟩
  · split at h
    · next hx => exact .inr (.inl ⟨hx, (Option.some.inj h).symm⟩)
    · split at h
      · next hx => exact .inr (.inr ⟨hx, (Option.some.inj h).symm⟩)
      · cases h

theorem twoRanges_tree : ValueTree twoRanges [9, 9] .LESSEQUAL (Meets .LESSEQUAL [9, 9]) := by
  have hstored : ∀ {x d s}, twoRanges.forest.Stored x d s → x ≠ [1] →
      ∃ n, twoRanges x = some n ∧ (d, s) ∈ n.entries := by
    intro x d s hst hx
    cases hst with
    | doc _ he => exact exists_of_entry he
    | child hl he =>
      obtain ⟨n, hn, -⟩ := exists_of_entry he
      rw [forest_leaf hn] at hl
      rcases twoRanges_cases hn with ⟨rfl, -⟩ | ⟨-, rfl⟩ | ⟨-, rfl⟩
      · exact (hx rfl).elim
      · exact (hl (by decide)).elim
      · exact (hl (by decide)).elim
  refine ⟨fun {x n c m} hx hl hc hm => ?_, .interval (by decide) (fun x n hx => ?_) ?_,
    fun {x n e} hx hl he => ?_⟩
  · rcases twoRanges_cases hx with ⟨-, rfl⟩ | ⟨-, rfl⟩ | ⟨-, rfl⟩
    · rcases twoRanges_cases hm with ⟨rfl, -⟩ | ⟨-, rfl⟩ | ⟨-, rfl⟩
      · exact absurd hc (by decide)
      · decide
      · decide
    · exact absurd hl (by decide)
    · exact absurd hl (by decide)
  · rcases twoRanges_cases hx with ⟨-, rfl⟩ | ⟨-, rfl⟩ | ⟨-, rfl⟩ <;> decide
  · intro x c t d s hl he hst
    obtain ⟨n, hn, hmem⟩ := exists_of_entry he
    rw [forest_leaf hn] at hl
    rcases twoRanges_cases hn with ⟨-, rfl⟩ | ⟨-, rfl⟩ | ⟨-, rfl⟩
    · rcases List.mem_pair.1 hmem with h | h
      all_goals
        obtain ⟨rfl, rfl⟩ := Prod.mk.inj h
        obtain ⟨m, hm, hd⟩ := hstored hst (by decide)
        rcases twoRanges_cases hm with ⟨h', -⟩ | ⟨h', rfl⟩ | ⟨h', rfl⟩
      · exact absurd h' (by decide)
      · rcases List.mem_pair.1 hd with h | h <;> obtain ⟨-, rfl⟩ := Prod.mk.inj h <;> decide
      · exact absurd h' (by decide)
      · exact absurd h' (by decide)
      · exact absurd h' (by decide)
      · obtain ⟨-, rfl⟩ := Prod.mk.inj (List.mem_singleton.1 hd)
        decide
    · exact (hl (by decide)).elim
    · exact (hl (by decide)).elim
  · rcases twoRanges_cases hx with ⟨-, rfl⟩ | ⟨-, rfl⟩ | ⟨-, rfl⟩
    · exact absurd hl (by decide)
    · rcases List.mem_pair.1 he with rfl | rfl
      · exact ⟨[6], [65], _, rfl, by decide⟩
      · exact ⟨[7], [66], _, rfl, by decide⟩
    · obtain rfl := List.mem_singleton.1 he
      exact ⟨[6], [67], _, rfl, by decide⟩

theorem value_query_iff_ranges : ∃ v docs,
    queryProcessV twoRanges [[3]] [9, 9] .LESSEQUAL 3 ⟨[], []⟩ [1] = some v ∧
      queryProcessVO smallIndex twoRanges (valueFilter [[3]] [9, 9] .LESSEQUAL) 3 [1] = some docs ∧
      (∀ d, d ∈ v.docs ↔ d ∈ docs) ∧ [65] ∈ docs := by
  have hL : ∀ q ∈ [[3#32]], Normalized q := by decide
  have hfuel : twoRanges.depth [1] < 3 := by decide
  obtain ⟨v, docs, hv, hdocs, hboth, hmem⟩ := value_query_iff smallIndex twoRanges_tree hL (by decide)
    (by decide) hfuel
  refine ⟨v, docs, hv, hdocs, hboth, (hmem _).2 ⟨docKey 6 65, [3, 3], ?_, ⟨3, ?_⟩, [6], _, rfl, ?_⟩⟩
  · refine .child (c := [2]) (t := [0, 9]) ?_ ((forest_entry rfl).2 (by decide)) (.doc ?_ ?_)
    · rw [forest_leaf rfl]
      decide
    · exact (forest_leaf rfl).2 rfl
    · exact (forest_entry rfl).2 (by decide)
  · decide
  · exact (any_dividesSig (by decide) (by decide)).1 (by decide)

end Search

end XGossip
