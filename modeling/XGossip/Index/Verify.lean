import XGossip.Index.Filter

namespace XGossip
set_option autoImplicit true

open Codec Gf2

section Scan

/-- The queries that match each document, by its position in the file. -/
abbrev DocMatchList := SortedMap (fun i j : Nat => i < j) (List Int)

/-- The size of a signature, its words and the id of its document. -/
def getDoc : Reader (Sig × BitVec 32) := do
  let size ← getInt
  let sig ← repeatM getInt size.toInt.toNat
  return (sig, ← getInt)

/-- One more query that matches a document; if any document is not matched, just add an empty
entry. -/
def DocMatchList.add (docMatchList : DocMatchList) (loopCount : Nat) (queryid : Int)
    (matched : Bool) : DocMatchList :=
  match docMatchList.find? loopCount with
  | some e => if matched then docMatchList.insert loopCount (e ++ [queryid]) else docMatchList
  | none => docMatchList.insert loopCount (if matched then [queryid] else [])

/-- The loop of `verifyProcess` over the documents of the file, to its end. -/
def verifyLoop (listOfSigs : List Sig) (queryid : Int) :
    Nat → Nat → InBuf → DocMatchList → Option DocMatchList
  | 0, _, _, _ => none
  | fuel + 1, loopCount, sigfp, docMatchList =>
    match getInt sigfp with
    | none => some docMatchList
    | some (numSigs, sigfp) =>
      if numSigs ≠ 1 then none
      else do
        let ((sig, _), sigfp) ← getDoc sigfp
        verifyLoop listOfSigs queryid fuel (loopCount + 1) sigfp
          (docMatchList.add loopCount queryid (listOfSigs.any (dividesSig sig)))

def verifyProcess (file : List Byte) (listOfSigs : List Sig) (queryid : Int)
    (docMatchList : DocMatchList) : Option DocMatchList :=
  verifyLoop listOfSigs queryid (file.length + 1) 0 ⟨file, 0, []⟩ docMatchList

def docBytes (r : Sig × BitVec 32) : List Byte :=
  intBytes 1 ++ (intBytes (BitVec.ofNat 32 r.1.length) ++ (r.1.flatMap intBytes ++ intBytes r.2))

/-- What `verifyProcess` makes of the documents from `loopCount` on. -/
def scanDocs (listOfSigs : List Sig) (queryid : Int) :
    Nat → List Sig → DocMatchList → DocMatchList
  | _, [], docMatchList => docMatchList
  | loopCount, sig :: sigs, docMatchList =>
    scanDocs listOfSigs queryid (loopCount + 1) sigs
      (docMatchList.add loopCount queryid (listOfSigs.any (dividesSig sig)))

theorem getDoc_parses (r : Sig × BitVec 32) (h : r.1.length < 2 ^ 31) :
    Parses getDoc (intBytes (BitVec.ofNat 32 r.1.length) ++ (r.1.flatMap intBytes ++ intBytes r.2))
      r := by
  have hsize : (BitVec.ofNat 32 r.1.length).toInt.toNat = r.1.length := by
    rw [BitVec.toInt_ofNat', Int.bmod_eq_of_le (by omega) (by omega), Int.toNat_natCast]
  have hwords : Parses (repeatM getInt r.1.length) (r.1.flatMap intBytes) r.1 :=
    Parses.repeatM fun w _ => getInt_parses w
  refine (getInt_parses _).bind ?_
  rw [hsize]
  exact hwords.bind ((getInt_parses r.2).bind_pure (r.1, ·))

theorem getInt_at_end (data : List Byte) : getInt (.at data data.length) = none := by
  have hget : get 4 (.at data data.length) = none := if_neg (by simp [InBuf.at])
  simp only [getInt, bind, StateT.bind, hget]
  rfl

/-- The loop behind the documents that have been read: those that are left are scanned. -/
theorem verifyLoop_eq {recs : List (Sig × BitVec 32)} (h : ∀ r ∈ recs, r.1.length < 2 ^ 31)
    (hfuel : recs.length < fuel) (pre : List Byte) (M : DocMatchList) :
    verifyLoop L queryid fuel loopCount (.at (pre ++ recs.flatMap docBytes) pre.length) M =
      some (scanDocs L queryid loopCount (recs.map Prod.fst) M) := by
  induction recs generalizing fuel loopCount pre M with
  | nil =>
    obtain ⟨fuel, rfl⟩ := Nat.exists_eq_add_one.2 hfuel
    rw [List.flatMap_nil, List.append_nil, verifyLoop, getInt_at_end]
    rfl
  | cons r recs ih =>
    obtain ⟨fuel, rfl⟩ : ∃ k, fuel = k + 1 := Nat.exists_eq_add_one.2 (by omega)
    obtain ⟨hr, hrecs⟩ := List.forall_mem_cons.1 h
    have hnum := getInt_parses 1 pre (intBytes (BitVec.ofNat 32 r.1.length) ++
      (r.1.flatMap intBytes ++ intBytes r.2) ++ recs.flatMap docBytes)
    have hdoc := getDoc_parses r hr (pre ++ intBytes 1) (recs.flatMap docBytes)
    have hrest : verifyLoop L queryid fuel (loopCount + 1) _ _ = _ :=
      ih hrecs (Nat.lt_of_succ_lt_succ hfuel) (pre ++ docBytes r)
        (M.add loopCount queryid (L.any (dividesSig r.1)))
    simp only [docBytes, List.append_assoc] at hnum hdoc hrest
    rw [verifyLoop, List.flatMap_cons]
    simp only [docBytes, List.append_assoc, hnum, ne_eq, not_true_eq_false, if_false, hdoc,
      Option.bind_eq_bind, Option.bind_some, hrest]
    rfl

theorem length_le_docs (recs : List (Sig × BitVec 32)) :
    recs.length ≤ (recs.flatMap docBytes).length := by
  induction recs with
  | nil => rfl
  | cons r recs ih =>
    have hnum : (intBytes 1).length = 4 := rfl
    rw [List.flatMap_cons, docBytes, List.length_append, List.length_append, List.length_cons]
    omega

theorem verifyProcess_eq {recs : List (Sig × BitVec 32)} (h : ∀ r ∈ recs, r.1.length < 2 ^ 31)
    (L : List Sig) (queryid : Int) (M : DocMatchList) :
    verifyProcess (recs.flatMap docBytes) L queryid M =
      some (scanDocs L queryid 0 (recs.map Prod.fst) M) := by
  have hlen := length_le_docs recs
  exact verifyLoop_eq h (by omega) [] M

theorem find?_add (M : DocMatchList) (k : Nat) (queryid : Int) (matched : Bool) (i : Nat) :
    (M.add k queryid matched).find? i =
      if i = k then some ((M.find? k).getD [] ++ if matched then [queryid] else [])
      else M.find? i := by
  rw [DocMatchList.add]
  split
  · next e he =>
    cases matched with
    | true =>
      rw [if_pos rfl, SortedMap.find?_insert, he]
      rfl
    | false =>
      rw [if_neg Bool.false_ne_true]
      split
      · next hi => simp [hi, he]
      · rfl
  · next he =>
    rw [SortedMap.find?_insert, he]
    rfl

theorem find?_scanDocs_lt (h : i < k) :
    (scanDocs L queryid k sigs M).find? i = M.find? i := by
  induction sigs generalizing k M with
  | nil => rfl
  | cons sig sigs ih =>
    rw [scanDocs, ih (Nat.lt_succ_of_lt h), find?_add, if_neg (Nat.ne_of_lt h)]

theorem find?_scanDocs (L : List Sig) (queryid : Int) (sigs : List Sig) (M : DocMatchList)
    (k i : Nat) :
    (scanDocs L queryid k sigs M).find? (k + i) =
      match sigs[i]? with
      | some sig => some ((M.find? (k + i)).getD [] ++
          if L.any (dividesSig sig) then [queryid] else [])
      | none => M.find? (k + i) := by
  induction sigs generalizing k i M with
  | nil => rfl
  | cons sig sigs ih =>
    rw [scanDocs]
    cases i with
    | zero =>
      refine (find?_scanDocs_lt (Nat.lt_add_one k)).trans ?_
      exact (find?_add ..).trans (if_pos rfl)
    | succ i =>
      have hi : k + (i + 1) = k + 1 + i := by omega
      rw [hi, ih, find?_add, if_neg (by omega)]
      rfl

end Scan

section Search

mutual

/-- The finite index trees, with their nodes and their documents in the order of a walk: the
signature of an entry is a multiple of the signatures of the documents below it. -/
inductive IndexTree (σ : Store) : Key → List Key → List (Key × Sig) → Prop where
  | leaf (hx : σ x = some n) (hl : n.isLeaf = true) (hs : ∀ e ∈ n.entries, Normalized e.2) :
      IndexTree σ x [x] n.entries
  | node (hx : σ x = some n) (hl : n.isLeaf = false) (hf : IndexForest σ n.entries nodes docs) :
      IndexTree σ x (x :: nodes) docs

inductive IndexForest (σ : Store) : List (Key × Sig) → List Key → List (Key × Sig) → Prop where
  | nil : IndexForest σ [] [] []
  | cons (hs : Normalized s) (ht : IndexTree σ c nodes docs) (hd : ∀ d ∈ docs, Divides d.2 s)
      (hf : IndexForest σ entries nodes' docs') :
      IndexForest σ ((c, s) :: entries) (nodes ++ nodes') (docs ++ docs')

end

mutual

theorem IndexTree.normalized (ht : IndexTree σ x nodes docs) : ∀ d ∈ docs, Normalized d.2 := by
  match ht with
  | .leaf _ _ hs => exact hs
  | .node _ _ hf => exact hf.normalized

theorem IndexForest.normalized (hf : IndexForest σ entries nodes docs) :
    ∀ d ∈ docs, Normalized d.2 := by
  match hf with
  | .nil => simp
  | .cons _ ht _ hf => exact List.forall_mem_append.2 ⟨ht.normalized, hf.normalized⟩

end

/-- The documents that a signature of `L` divides. -/
def matching (L : List Sig) (docs : List (Key × Sig)) : List Key :=
  (docs.filter fun d => L.any (dividesSig d.2)).map Prod.fst

theorem matching_append : matching L (docs ++ docs') = matching L docs ++ matching L docs' := by
  simp only [matching, List.filter_append, List.map_append]

theorem divideSigs_isSome (s : Sig) (n : Nat) (l : List Sig) :
    (divideSigs s n l).isSome = (l.take n).any (dividesSig s) := by
  induction l generalizing n with
  | nil => cases n <;> rfl
  | cons q l ih =>
    cases n with
    | zero => rfl
    | succ n =>
      rw [divideSigs_eq, List.take_succ_cons, List.any_cons, ← ih]
      cases dividesSig s q <;> rfl

theorem matching_of_none (hs : Normalized s) (hL : ∀ q ∈ L, Normalized q)
    (hlen : L.length ≤ MAXSIGSPERQUERY) (hdocs : ∀ d ∈ docs, Normalized d.2)
    (hd : ∀ d ∈ docs, Divides d.2 s) (h : divideSigs s MAXSIGSPERQUERY L = none) :
    matching L docs = [] := by
  rw [divideSigs_none hs hL, List.take_of_length_le hlen] at h
  rw [matching, List.map_eq_nil_iff, List.filter_eq_nil_iff]
  intro d hmem hany
  obtain ⟨q, hq, hqd⟩ := (any_dividesSig (hdocs d hmem) hL).1 hany
  exact h q hq (trans_of Divides hqd (hd d hmem))

theorem matching_of_some (hs : Normalized s) (hL : ∀ q ∈ L, Normalized q)
    (hdocs : ∀ d ∈ docs, Normalized d.2) (hd : ∀ d ∈ docs, Divides d.2 s)
    (h : divideSigs s MAXSIGSPERQUERY L = some l) : matching l docs = matching L docs := by
  obtain ⟨pre, q, rest, rfl, rfl, -, hpre⟩ := divideSigs_some hs hL h
  rw [matching, matching]
  congr 1
  refine List.filter_congr fun d hmem => ?_
  have hdrop : pre.any (dividesSig d.2) = false := by
    rw [List.any_eq_false]
    intro p hp hany
    have hpd := (dividesSig_iff (hdocs d hmem) (hL p (List.mem_append_left _ hp))).1 hany
    exact hpre p hp (trans_of Divides hpd (hd d hmem))
  rw [List.any_append, hdrop, Bool.false_or]

theorem foldlM_leaf (σ : Store) (fuel : Nat) (hlen : L.length ≤ MAXSIGSPERQUERY)
    (entries : List (Key × Sig)) (v : Visit) :
    entries.foldlM (queryEntry σ fuel true L) v =
      some { v with docs := v.docs ++ matching L entries } := by
  induction entries generalizing v with
  | nil => simp [matching]
  | cons e entries ih =>
    have hsome := divideSigs_isSome e.2 MAXSIGSPERQUERY L
    rw [List.take_of_length_le hlen] at hsome
    rw [List.foldlM_cons, queryEntry]
    cases hd : divideSigs e.2 MAXSIGSPERQUERY L with
    | none =>
      rw [hd] at hsome
      refine (ih v).trans ?_
      rw [matching, matching, List.filter_cons_of_neg (by simp [← hsome])]
    | some l =>
      rw [hd] at hsome
      refine (ih _).trans ?_
      rw [matching, matching, List.filter_cons_of_pos (by simp [← hsome]), List.map_cons,
        List.append_assoc]
      rfl

/-- A part of a query that visits only `nodes` and reports the documents of `docs` that match. -/
structure Finds (L : List Sig) (nodes : List Key) (docs : List (Key × Sig)) (v v' : Visit) :
    Prop where
  visited : ∀ y ∈ v'.listOfVisitedNodes, y ∈ v.listOfVisitedNodes ∨ y ∈ nodes
  docs : v'.docs = v.docs ++ matching L docs

theorem Finds.append (h₁ : Finds L nodes ds v v₁) (h₂ : Finds L nodes' ds' v₁ v₂) :
    Finds L (nodes ++ nodes') (ds ++ ds') v v₂ := by
  refine ⟨fun y hy => ?_, ?_⟩
  · rw [List.mem_append, ← or_assoc]
    exact (h₂.visited y hy).imp_left (h₁.visited y)
  · rw [h₂.docs, h₁.docs, matching_append, List.append_assoc]

mutual

/-- The query follows a tree whose nodes it has not visited. -/
theorem IndexTree.finds (ht : IndexTree σ x nodes docs) (hn : nodes.Nodup)
    (hv : ∀ y ∈ nodes, y ∉ v.listOfVisitedNodes) (hfuel : nodes.length ≤ fuel)
    (hL : ∀ q ∈ L, Normalized q) (hlen : L.length ≤ MAXSIGSPERQUERY) :
    ∃ v', queryProcess σ fuel L v x = some v' ∧ Finds L nodes docs v v' := by
  match ht with
  | .leaf hx hl hs =>
    obtain ⟨fuel, rfl⟩ := Nat.exists_eq_add_one.2 hfuel
    rw [queryProcess_succ, if_neg (hv x (by simp)), hx]
    simp only [hl, foldlM_leaf σ fuel hlen]
    exact ⟨_, rfl, by simp [or_comm], rfl⟩
  | @IndexTree.node _ _ _ nodes docs hx hl hf =>
    obtain ⟨fuel, rfl⟩ := Nat.exists_eq_add_one.2 (Nat.zero_lt_of_lt hfuel)
    rw [List.nodup_cons] at hn
    have hfresh : ∀ y ∈ nodes, y ∉ x :: v.listOfVisitedNodes := by
      intro y hy hmem
      rcases List.mem_cons.1 hmem with rfl | hmem
      · exact hn.1 hy
      · exact hv y (List.mem_cons_of_mem _ hy) hmem
    obtain ⟨v', hv', hfinds⟩ := hf.finds (v := { v with listOfVisitedNodes := _ }) hn.2 hfresh
      (Nat.le_of_succ_le_succ hfuel) hL hlen
    rw [queryProcess_succ, if_neg (hv x List.mem_cons_self), hx]
    simp only [hl]
    refine ⟨v', hv', fun y hy => ?_, hfinds.docs⟩
    rcases hfinds.visited y hy with hy | hy
    · exact (List.mem_cons.1 hy).symm.imp_right fun h => List.mem_cons.2 (.inl h)
    · exact .inr (List.mem_cons_of_mem _ hy)

/-- The loop over the entries of a node. -/
theorem IndexForest.finds (hf : IndexForest σ entries nodes docs) (hn : nodes.Nodup)
    (hv : ∀ y ∈ nodes, y ∉ v.listOfVisitedNodes) (hfuel : nodes.length ≤ fuel)
    (hL : ∀ q ∈ L, Normalized q) (hlen : L.length ≤ MAXSIGSPERQUERY) :
    ∃ v', entries.foldlM (queryEntry σ fuel false L) v = some v' ∧ Finds L nodes docs v v' := by
  match hf with
  | .nil => exact ⟨v, rfl, fun y hy => .inl hy, by simp [matching]⟩
  | @IndexForest.cons _ s c nodes docs entries nodes' docs' hs ht hd hf =>
    obtain ⟨hn₁, hn₂, hdisj⟩ := List.nodup_append'.1 hn
    obtain ⟨hv₁, hv₂⟩ := List.forall_mem_append.1 hv
    rw [List.length_append] at hfuel
    obtain ⟨v₁, hv₁', hfinds₁⟩ : ∃ v₁, queryEntry σ fuel false L v (c, s) = some v₁ ∧
        Finds L nodes docs v v₁ := by
      rw [queryEntry]
      cases h : divideSigs s MAXSIGSPERQUERY L with
      | none =>
        have hnil := matching_of_none hs hL hlen ht.normalized hd h
        exact ⟨v, rfl, fun y hy => .inl hy, by rw [hnil, List.append_nil]⟩
      | some l =>
        obtain ⟨pre, q, rest, hpre, hq, -, -⟩ := divideSigs_some hs hL h
        have hl : l.length ≤ MAXSIGSPERQUERY := by
          rw [hpre, List.length_append, ← hq] at hlen
          omega
        obtain ⟨v₁, hv₁', hfinds₁⟩ := ht.finds hn₁ hv₁ (by omega : nodes.length ≤ fuel)
          (fun q hq => hL q (divideSigs_subset hs hL h hq)) hl
        have hdocs := matching_of_some hs hL ht.normalized hd h
        exact ⟨v₁, hv₁', hfinds₁.visited, by rw [hfinds₁.docs, hdocs]⟩
    have hfresh : ∀ y ∈ nodes', y ∉ v₁.listOfVisitedNodes := by
      intro y hy hmem
      rcases hfinds₁.visited y hmem with hmem | hmem
      · exact hv₂ y hy hmem
      · exact hdisj hmem hy
    obtain ⟨v₂, hv₂', hfinds₂⟩ := hf.finds hn₂ hfresh (by omega : nodes'.length ≤ fuel) hL hlen
    refine ⟨v₂, ?_, hfinds₁.append hfinds₂⟩
    rw [List.foldlM_cons, hv₁']
    exact hv₂'

end

/-- A file with the documents of an index in any order, each with a number. -/
def docFile (recs : List ((Key × Sig) × BitVec 32)) : List Byte :=
  (recs.map fun r => (r.1.2, r.2)).flatMap docBytes

theorem verifyProcess_docFile {recs : List ((Key × Sig) × BitVec 32)}
    (hsize : ∀ r ∈ recs, r.1.2.length < 2 ^ 31) (L : List Sig) (queryid : Int) (M : DocMatchList) :
    ∃ M', verifyProcess (docFile recs) L queryid M = some M' ∧
      ∀ i, M'.find? i = match recs[i]? with
        | some r => some ((M.find? i).getD [] ++
            if L.any (dividesSig r.1.2) then [queryid] else [])
        | none => M.find? i := by
  have hrecs : ∀ r ∈ recs.map fun r => (r.1.2, r.2), r.1.length < 2 ^ 31 :=
    List.forall_mem_map.2 hsize
  refine ⟨_, verifyProcess_eq hrecs L queryid M, fun i => ?_⟩
  have h := find?_scanDocs L queryid ((recs.map fun r => (r.1.2, r.2)).map Prod.fst) M 0 i
  rw [Nat.zero_add] at h
  rw [h, List.map_map, List.getElem?_map]
  cases recs[i]? <;> rfl

theorem map_filter_zipIdx {l : List α} {p : α × Nat → Bool} {q : α → Bool}
    (h : ∀ (i : Nat) (a : α), l[i]? = some a → p (a, i) = q a) :
    (l.zipIdx.filter p).map Prod.fst = l.filter q := by
  have hpq : l.zipIdx.filter p = l.zipIdx.filter (q ∘ Prod.fst) := by
    refine List.filter_congr fun e he => ?_
    exact h e.2 e.1 (List.mk_mem_zipIdx_iff_getElem?.1 he)
  rw [hpq, ← List.filter_map, List.zipIdx_map_fst]

open Classical in
/-- The search through an index reports the documents that a signature of the query divides, each
once, and these are the ones that the scan of a file with the same documents matches. -/
theorem search_eq_scan {recs : List ((Key × Sig) × BitVec 32)} (ht : IndexTree σ root nodes docs)
    (hn : nodes.Nodup) (hfuel : nodes.length ≤ fuel) (hL : ∀ q ∈ L, Normalized q)
    (hlen : L.length ≤ MAXSIGSPERQUERY) (hfile : (recs.map Prod.fst).Perm docs)
    (hsize : ∀ d ∈ docs, d.2.length < 2 ^ 31) (queryid : Int) (M : DocMatchList) :
    ∃ v M', queryProcess σ fuel L ⟨[], []⟩ root = some v ∧
      v.docs = (docs.filter fun d => Asks L d.2).map Prod.fst ∧
      verifyProcess (docFile recs) L queryid M = some M' ∧
      (∀ i, M'.find? i = match recs[i]? with
        | some r => some ((M.find? i).getD [] ++ if Asks L r.1.2 then [queryid] else [])
        | none => M.find? i) ∧
      v.docs.Perm ((recs.zipIdx.filter fun e =>
        M'.find? e.2 = some ((M.find? e.2).getD [] ++ [queryid])).map fun e => e.1.1.1) := by
  have hdocs := ht.normalized
  have hasks : ∀ d ∈ docs, L.any (dividesSig d.2) = decide (Asks L d.2) := by
    intro d hd
    rw [Bool.eq_iff_iff, decide_eq_true_iff, any_dividesSig (hdocs d hd) hL]
  have hmem : ∀ r ∈ recs, r.1 ∈ docs := fun r hr => hfile.subset (List.mem_map_of_mem hr)
  obtain ⟨v, hv, hfinds⟩ := ht.finds (v := ⟨[], []⟩) hn (by simp) hfuel hL hlen
  obtain ⟨M', hM', hfind⟩ :=
    verifyProcess_docFile (fun r hr => hsize r.1 (hmem r hr)) L queryid M
  have hvdocs : v.docs = (docs.filter fun d => Asks L d.2).map Prod.fst := by
    rw [hfinds.docs, List.nil_append, matching, List.filter_congr hasks]
  have hentry : ∀ i r, recs[i]? = some r →
      M'.find? i = some ((M.find? i).getD [] ++ if Asks L r.1.2 then [queryid] else []) := by
    intro i r hr
    rw [hfind, hr]
    simp only [hasks r.1 (hmem r (List.mem_of_getElem? hr)), decide_eq_true_eq]
  refine ⟨v, M', hv, hvdocs, hM', fun i => ?_, ?_⟩
  · cases hr : recs[i]? with
    | none => rw [hfind, hr]
    | some r => exact hentry i r hr
  · have hmatch := map_filter_zipIdx (l := recs) (q := fun r => decide (Asks L r.1.2))
      (p := fun e => decide (M'.find? e.2 = some ((M.find? e.2).getD [] ++ [queryid])))
      fun i r hr => by
        rw [hentry i r hr]
        by_cases ha : Asks L r.1.2 <;> simp [ha]
    have hrecs : ((recs.filter fun r => Asks L r.1.2).map Prod.fst).Perm
        (docs.filter fun d => Asks L d.2) := by
      have hfilter := hfile.filter fun d => Asks L d.2
      rwa [List.filter_map] at hfilter
    rw [hvdocs]
    refine (hrecs.map Prod.fst).symm.trans (.of_eq ?_)
    rw [← hmatch, List.map_map, List.map_map]
    rfl

/-- A root above two leaves; the signature of each entry is the lcm of those in its leaf. -/
def twoLeaves : Store := fun x =>
  if x = [1] then some ⟨.ROOT, ⟨0, 1, 1, 1, 1, 1⟩, [([2], [6]), ([3], [7])]⟩
  else if x = [2] then some ⟨.LEAF, ⟨0, 1, 1, 2, 0, 1⟩, [([97], [2]), ([98], [3])]⟩
  else if x = [3] then some ⟨.LEAF, ⟨1, 2, 1, 1, 0, 1⟩, [([99], [7])]⟩
  else none

theorem twoLeaves_tree :
    IndexTree twoLeaves [1] [[1], [2], [3]] [([97], [2]), ([98], [3]), ([99], [7])] := by
  have hd : ∀ s t : Sig, dividesSig t s = true → Normalized s → Normalized t → Divides s t :=
    fun s t h hs ht => (dividesSig_iff ht hs).1 h
  have h₂ : IndexTree twoLeaves [2] [[2]] [([97], [2]), ([98], [3])] :=
    .leaf (n := ⟨.LEAF, ⟨0, 1, 1, 2, 0, 1⟩, [([97], [2]), ([98], [3])]⟩) rfl rfl (by decide)
  have h₃ : IndexTree twoLeaves [3] [[3]] [([99], [7])] :=
    .leaf (n := ⟨.LEAF, ⟨1, 2, 1, 1, 0, 1⟩, [([99], [7])]⟩) rfl rfl (by decide)
  have hd₂ : ∀ d ∈ [(([97], [2]) : Key × Sig), ([98], [3])], Divides d.2 [6] := by
    intro d hmem
    rcases List.mem_pair.1 hmem with rfl | rfl
    · exact hd _ _ (by decide) (by decide) (by decide)
    · exact hd _ _ (by decide) (by decide) (by decide)
  have hd₃ : ∀ d ∈ [(([99], [7]) : Key × Sig)], Divides d.2 [7] := by
    intro d hmem
    rw [List.mem_singleton.1 hmem]
    exact hd _ _ (by decide) (by decide) (by decide)
  have hf₃ := IndexForest.cons (by decide) h₃ hd₃ .nil
  have hf₂ := IndexForest.cons (by decide) h₂ hd₂ hf₃
  exact .node rfl rfl hf₂

theorem search_eq_scan_twoLeaves :
    ∃ v M, queryProcess twoLeaves 3 [[3], [2]] ⟨[], []⟩ [1] = some v ∧
      verifyProcess (docFile [(([99], [7]), 0), (([97], [2]), 1), (([98], [3]), 2)]) [[3], [2]] 5
        .empty = some M ∧
      v.docs = [[97], [98]] ∧ M.find? 0 = some [] ∧ M.find? 1 = some [5] := by
  have hfuel : [([1] : Key), [2], [3]].length ≤ 3 := by decide
  have hL : ∀ q ∈ [[3#32], [2#32]], Normalized q := by decide
  have hfile : ([((([99], [7]) : Key × Sig), 0#32), (([97], [2]), 1), (([98], [3]), 2)].map
      Prod.fst).Perm [([97], [2]), ([98], [3]), ([99], [7])] := by decide
  obtain ⟨v, M, hv, hdocs, hM, hfind, -⟩ := search_eq_scan twoLeaves_tree (by decide) hfuel hL
    (by decide) hfile (by decide) 5 .empty
  have h₂ : Asks [[3#32], [2#32]] [2#32] := (any_dividesSig (by decide) (by decide)).1 (by decide)
  have h₃ : Asks [[3#32], [2#32]] [3#32] := (any_dividesSig (by decide) (by decide)).1 (by decide)
  have h₇ : ¬ Asks [[3#32], [2#32]] [7#32] := by
    rw [← any_dividesSig (by decide) (by decide)]
    decide
  refine ⟨v, M, hv, hM, ?_, ?_, ?_⟩
  · simp [hdocs, h₂, h₃, h₇]
  · simp [hfind, h₇]
  · simp [hfind, h₂]

end Search

end XGossip
