import XGossip.Index.Client

namespace XGossip
set_option autoImplicit true

open Gf2

section Sound

variable {σ : Store} {q : Sig}

theorem divideSigs_singleton (hs : Gf2.Normalized s) (hq : Gf2.Normalized q) :
    divideSigs s MAXSIGSPERQUERY [q] = none ∧ ¬ Divides q s ∨
      divideSigs s MAXSIGSPERQUERY [q] = some [q] ∧ Divides q s := by
  have h : fullDegree s ≥ fullDegree q ∧ remainder s q = [0] ↔ Divides q s := by
    rw [remainder_eq_zero_iff hs hq, Divides, and_iff_right_iff_imp]
    intro hd
    exact (fullDegree_le_iff hq hs).2 (Polynomial.degree_le_of_dvd hd hs.poly_ne_zero)
  simp only [MAXSIGSPERQUERY, divideSigs]
  split
  · next hd => exact .inr ⟨rfl, h.1 hd⟩
  · next hd => exact .inl ⟨rfl, mt h.2 hd⟩

/-- What a query has followed of the entries of a node that `D` holds of. -/
def Followed (σ : Store) (D : Key × Sig → Prop) (leaf : Bool) (v : Visit)
    (entries : List (Key × Sig)) : Prop :=
  ∀ e ∈ entries, D e → if leaf then e.1 ∈ v.docs else e.1 ∈ v.listOfVisitedNodes ∨ σ e.1 = none

/-- A part of a query that follows the entries that `D` holds of and reports documents of which `P`
is true. -/
structure Explores (σ : Store) (D : Key → Key × Sig → Prop) (P : Key → Prop) (v v' : Visit) :
    Prop where
  visited : v.listOfVisitedNodes ⊆ v'.listOfVisitedNodes
  docs : v.docs ⊆ v'.docs
  followed : ∀ y ∈ v'.listOfVisitedNodes, y ∉ v.listOfVisitedNodes →
    ∃ n, σ y = some n ∧ Followed σ (D y) n.isLeaf v' n.entries
  sound : ∀ d ∈ v'.docs, d ∈ v.docs ∨ P d

theorem Followed.mono (h : Followed σ D leaf v entries)
    (hv : v.listOfVisitedNodes ⊆ v'.listOfVisitedNodes) (hd : v.docs ⊆ v'.docs) :
    Followed σ D leaf v' entries := by
  intro e he hq
  have hf := h e he hq
  cases leaf with
  | true => exact hd hf
  | false => exact hf.imp_left (hv ·)

theorem Explores.refl (P : Key → Prop) (v : Visit) : Explores σ D P v v :=
  ⟨List.Subset.refl _, List.Subset.refl _, fun _ hy hn => (hn hy).elim, fun _ hd => .inl hd⟩

theorem Explores.trans (h₁ : Explores σ D P v v₁) (h₂ : Explores σ D P v₁ v₂) :
    Explores σ D P v v₂ := by
  refine ⟨List.Subset.trans h₁.visited h₂.visited, List.Subset.trans h₁.docs h₂.docs, ?_, ?_⟩
  · intro y hy hn
    by_cases hy₁ : y ∈ v₁.listOfVisitedNodes
    · obtain ⟨n, hn, hf⟩ := h₁.followed y hy₁ hn
      exact ⟨n, hn, hf.mono h₂.visited h₂.docs⟩
    · exact h₂.followed y hy hy₁
  · intro d hd
    rcases h₂.sound d hd with hd | hd
    · exact h₁.sound d hd
    · exact .inr hd

theorem Explores.weaken (h : Explores σ D P v v') (hP : ∀ d, P d → P' d) : Explores σ D P' v v' :=
  ⟨h.visited, h.docs, h.followed, fun d hd => (h.sound d hd).imp_right (hP d)⟩

def queryEntry (σ : Store) (fuel : Nat) (leaf : Bool) (listOfSigs : List Sig) (v : Visit)
    (e : Key × Sig) : Option Visit :=
  match divideSigs e.2 MAXSIGSPERQUERY listOfSigs with
  | none => some v
  | some newListOfSigs =>
    if leaf then some { v with docs := v.docs ++ [e.1] }
    else queryProcess σ fuel newListOfSigs v e.1

theorem queryProcess_succ (σ : Store) (fuel : Nat) (listOfSigs : List Sig) (v : Visit) (x : Key) :
    queryProcess σ (fuel + 1) listOfSigs v x =
      if x ∈ v.listOfVisitedNodes then some v
      else
        match σ x with
        | none => some v
        | some n => n.entries.foldlM (queryEntry σ fuel n.isLeaf listOfSigs)
            { v with listOfVisitedNodes := x :: v.listOfVisitedNodes } := rfl

/-- More fuel does not change what a query reports. -/
theorem queryProcess_mono (h : queryProcess σ fuel listOfSigs v x = some v') (k : Nat) :
    queryProcess σ (fuel + k) listOfSigs v x = some v' := by
  induction fuel generalizing listOfSigs v v' x with
  | zero => simp [queryProcess] at h
  | succ fuel ih =>
    rw [Nat.succ_add, queryProcess_succ]
    rw [queryProcess_succ] at h
    split at h
    · next hx => rwa [if_pos hx]
    · next hx =>
      rw [if_neg hx]
      split at h
      · exact h
      · next n _ =>
        have hentry : ∀ {v v' e}, queryEntry σ fuel n.isLeaf listOfSigs v e = some v' →
            queryEntry σ (fuel + k) n.isLeaf listOfSigs v e = some v' := by
          intro v v' e he
          rw [queryEntry] at he ⊢
          split at he
          · exact he
          · split at he
            · next hl => simpa [hl] using he
            · next hl => simpa [hl] using ih he
        have hfold : ∀ {l : List (Key × Sig)} {v},
            l.foldlM (queryEntry σ fuel n.isLeaf listOfSigs) v = some v' →
              l.foldlM (queryEntry σ (fuel + k) n.isLeaf listOfSigs) v = some v' := by
          intro l
          induction l with
          | nil => exact fun h => h
          | cons e l ihl =>
            intro v h
            obtain ⟨v₁, h₁, h⟩ := Option.bind_eq_some_iff.1 h
            exact Option.bind_eq_some_iff.2 ⟨v₁, hentry h₁, ihl h⟩
        exact hfold h

/-- What the calls of a query have in common: `G` holds of a node and the signatures that it is
searched for; the query passes at least the entries that `D` holds of, and only those whose
signatures `R` holds of. -/
structure Search (σ : Store) (G : Key → List Sig → Prop) (D : Key → Key × Sig → Prop)
    (R : Sig → Prop) : Prop where
  pass : σ x = some n → e ∈ n.entries → G x l → D x e → divideSigs e.2 MAXSIGSPERQUERY l ≠ none
  next : σ x = some n → e ∈ n.entries → G x l → divideSigs e.2 MAXSIGSPERQUERY l = some l' →
    n.isLeaf = false → G e.1 l'
  sound : σ x = some n → e ∈ n.entries → G x l → divideSigs e.2 MAXSIGSPERQUERY l = some l' → R e.2

/-- The documents that a search through signatures of which `R` holds finds from a node on. -/
abbrev FoundFrom (σ : Store) (R : Sig → Prop) (x d : Key) : Prop :=
  Forest.Reach (fun _ s => R s) σ.forest [] x d

variable {G : Key → List Sig → Prop} {D : Key → Key × Sig → Prop} {R : Sig → Prop}

/-- The loop over the entries of a node, given what the calls for its children do. -/
theorem foldlM_queryEntry {n : Node} (hS : Search σ G D R) (hx : σ x = some n) (hG : G x sigs)
    (ih : ∀ {c sigs v v'}, G c sigs → queryProcess σ fuel sigs v c = some v' →
      Explores σ D (FoundFrom σ R c) v v' ∧ (c ∈ v'.listOfVisitedNodes ∨ σ c = none))
    (hl : l ⊆ n.entries) (h : l.foldlM (queryEntry σ fuel n.isLeaf sigs) v = some v') :
    Explores σ D (FoundFrom σ R x) v v' ∧ Followed σ (D x) n.isLeaf v' l := by
  induction l generalizing v with
  | nil =>
    obtain rfl : v = v' := by simpa using h
    exact ⟨.refl _ _, by simp [Followed]⟩
  | cons e l ihl =>
    obtain ⟨v₁, h₁, h⟩ := Option.bind_eq_some_iff.1 h
    obtain ⟨hel, hl⟩ := List.cons_subset.1 hl
    obtain ⟨hrest, hfrest⟩ := ihl hl h
    have hone : Explores σ D (FoundFrom σ R x) v v₁ ∧ Followed σ (D x) n.isLeaf v₁ [e] := by
      rw [queryEntry] at h₁
      cases hs : divideSigs e.2 MAXSIGSPERQUERY sigs with
      | none =>
        rw [hs] at h₁
        obtain rfl := Option.some.inj h₁
        refine ⟨.refl _ _, fun e' he' hD => ?_⟩
        obtain rfl := List.mem_singleton.1 he'
        exact (hS.pass hx hel hG hD hs).elim
      | some sigs' =>
        have hR := hS.sound hx hel hG hs
        rw [hs] at h₁
        dsimp only at h₁
        split at h₁
        · next hleaf =>
          obtain rfl := Option.some.inj h₁
          have hrep : FoundFrom σ R x e.1 := .doc ((forest_leaf hx).2 hleaf)
            ((forest_entry hx).2 hel) hR
          refine ⟨⟨List.Subset.refl _, List.subset_append_left .., fun _ hy hn => (hn hy).elim, ?_⟩,
            by simp [Followed, hleaf]⟩
          intro d hd
          rcases List.mem_append.1 hd with hd | hd
          · exact .inl hd
          · obtain rfl := List.mem_singleton.1 hd
            exact .inr hrep
        · next hleaf =>
          obtain ⟨hex, hvis⟩ := ih (hS.next hx hel hG hs (by simpa using hleaf)) h₁
          refine ⟨hex.weaken fun d hd' => .child (mt (forest_leaf hx).1 hleaf)
            ((forest_entry hx).2 hel) hR hd', ?_⟩
          simpa [Followed, hleaf] using fun _ => hvis
    refine ⟨hone.1.trans hrest, ?_⟩
    intro e' he'
    rcases List.mem_cons.1 he' with rfl | he'
    · exact hone.2.mono hrest.visited hrest.docs e' List.mem_cons_self
    · exact hfrest e' he'

theorem queryProcess_explores (hS : Search σ G D R) (hG : G x sigs)
    (h : queryProcess σ fuel sigs v x = some v') :
    Explores σ D (FoundFrom σ R x) v v' ∧ (x ∈ v'.listOfVisitedNodes ∨ σ x = none) := by
  induction fuel generalizing v v' x sigs with
  | zero => simp [queryProcess] at h
  | succ fuel ih =>
    rw [queryProcess_succ] at h
    split at h
    · next hx =>
      obtain rfl := Option.some.inj h
      exact ⟨.refl _ _, .inl hx⟩
    · next hnew =>
      split at h
      · next hx =>
        obtain rfl := Option.some.inj h
        exact ⟨.refl _ _, .inr hx⟩
      · next n hx =>
        obtain ⟨hex, hf⟩ := foldlM_queryEntry hS hx hG ih (List.Subset.refl _) h
        have hxv := hex.visited List.mem_cons_self
        refine ⟨⟨List.Subset.trans (List.subset_cons_self ..) hex.visited, hex.docs, ?_,
          hex.sound⟩, .inl hxv⟩
        intro y hy hyn
        by_cases hyx : y = x
        · subst hyx
          exact ⟨n, hx, hf⟩
        · exact hex.followed y hy fun hm => (List.mem_cons.1 hm).elim hyx hyn

theorem foundFrom_of_mem (hS : Search σ G D R) (hG : G x sigs)
    (h : queryProcess σ fuel sigs ⟨[], []⟩ x = some v) (hd : d ∈ v.docs) : FoundFrom σ R x d :=
  ((queryProcess_explores hS hG h).1.sound d hd).resolve_left (by simp)

theorem followed_of_reached (hS : Search σ G D R) (hG : G x sigs)
    (h : queryProcess σ fuel sigs ⟨[], []⟩ x = some v)
    (hy : y ∈ v.listOfVisitedNodes ∨ σ y = none) (hn : σ y = some n) :
    Followed σ (D y) n.isLeaf v n.entries := by
  obtain ⟨n', hn', hf⟩ := (queryProcess_explores hS hG h).1.followed y
    (hy.resolve_right (by simp [hn])) (by simp)
  obtain rfl : n = n' := Option.some.inj (hn.symm.trans hn')
  exact hf

theorem search_singleton (hσ : σ.Normalized) (hq : Gf2.Normalized q) :
    Search σ (fun _ l => l = [q]) (fun _ e => Divides q e.2) (Divides q) := by
  refine ⟨?_, ?_, ?_⟩
  · intro x n e l hx he hl hd hnone
    subst hl
    rcases divideSigs_singleton (hσ hx e he) hq with ⟨-, hnot⟩ | ⟨hs, -⟩
    · exact hnot hd
    · simp [hs] at hnone
  · intro x n e l l' hx he hl hs _
    subst hl
    rcases divideSigs_singleton (hσ hx e he) hq with ⟨hnone, -⟩ | ⟨hs', -⟩
    · simp [hs] at hnone
    · exact Option.some.inj (hs.symm.trans hs')
  · intro x n e l l' hx he hl hs
    subst hl
    rcases divideSigs_singleton (hσ hx e he) hq with ⟨hnone, -⟩ | ⟨-, hd⟩
    · simp [hs] at hnone
    · exact hd

theorem foundFrom_divides : FoundFrom σ (Divides q) x d ↔ Reported σ q x d := by
  constructor
  · intro h
    induction h with
    | doc hl he hq => exact .doc hl he hq
    | child hl he hq _ ih => exact .child hl he hq ih
  · intro h
    induction h with
    | doc hl he hq => exact .doc hl he hq
    | child hl he hq _ ih => exact .child hl he hq ih

/-- A query that comes to its end reports exactly what a search finds. -/
theorem query_iff {ix : Index} (hσ : σ.Normalized) (hq : Gf2.Normalized q)
    (h : query ix σ fuel q = some docs) : d ∈ docs ↔ Reported σ q ix.rootID d := by
  obtain ⟨v, hv, rfl⟩ := Option.map_eq_some_iff.1 h
  have hS := search_singleton hσ hq
  constructor
  · exact fun hd => foundFrom_divides.1 (foundFrom_of_mem hS rfl hv hd)
  · have hfollow : ∀ {y}, Reported σ q y d → (y ∈ v.listOfVisitedNodes ∨ σ y = none) →
        d ∈ v.docs := by
      intro y hr
      induction hr with
      | @doc y d s hl he hqs =>
        intro hy
        obtain ⟨n, hn, hmem⟩ := exists_of_entry he
        have hf := followed_of_reached hS rfl hv hy hn
        simpa [(forest_leaf hn).1 hl] using hf _ hmem hqs
      | @child y c s d hl he hqs _ ih =>
        intro hy
        obtain ⟨n, hn, hmem⟩ := exists_of_entry he
        have hf := followed_of_reached hS rfl hv hy hn
        apply ih
        simpa [mt (forest_leaf hn).2 hl] using hf _ hmem hqs
    intro hr
    exact hfollow hr (queryProcess_explores hS rfl hv).2

def Store.Finite (σ : Store) : Prop := ∃ keys : List Key, ∀ x, σ x ≠ none → x ∈ keys

def unvisited (keys : List Key) (v : Visit) : List Key := keys.filter (· ∉ v.listOfVisitedNodes)

theorem length_unvisited_le (keys : List Key)
    (h : v.listOfVisitedNodes ⊆ v'.listOfVisitedNodes) :
    (unvisited keys v').length ≤ (unvisited keys v).length := by
  apply List.Sublist.length_le
  apply List.monotone_filter_right
  intro x hx
  simp only [decide_eq_true_eq] at hx ⊢
  exact fun hv => hx (h hv)

theorem length_unvisited_lt {keys : List Key} (hx : x ∈ keys) (hv : x ∉ v.listOfVisitedNodes)
    (docs : List Key) : (unvisited keys ⟨x :: v.listOfVisitedNodes, docs⟩).length <
      (unvisited keys v).length := by
  have hsub : unvisited keys ⟨x :: v.listOfVisitedNodes, docs⟩ =
      (unvisited keys v).filter (· ≠ x) := by
    rw [unvisited, unvisited, List.filter_filter]
    apply List.filter_congr
    intro y _
    simp [List.mem_cons]
  rw [hsub]
  apply List.length_filter_lt_length_iff_exists.2
  exact ⟨x, List.mem_filter.2 ⟨hx, by simpa using hv⟩, by simp⟩

/-- No node is visited twice, so that a query of a finite store comes to its end. -/
theorem queryProcess_terminates {keys : List Key} (hkeys : ∀ x, σ x ≠ none → x ∈ keys)
    (h : (unvisited keys v).length < fuel) (listOfSigs : List Sig) (x : Key) :
    ∃ v', queryProcess σ fuel listOfSigs v x = some v' ∧
      v.listOfVisitedNodes ⊆ v'.listOfVisitedNodes := by
  induction fuel generalizing v x listOfSigs with
  | zero => omega
  | succ fuel ih =>
    rw [queryProcess_succ]
    split
    · exact ⟨v, rfl, List.Subset.refl _⟩
    · next hv =>
      split
      · exact ⟨v, rfl, List.Subset.refl _⟩
      · next n hx =>
        have hlt := length_unvisited_lt (hkeys x (by simp [hx])) hv v.docs
        have hfold : ∀ (l : List (Key × Sig)) (w : Visit), (unvisited keys w).length < fuel →
            ∃ v', l.foldlM (queryEntry σ fuel n.isLeaf listOfSigs) w = some v' ∧
              w.listOfVisitedNodes ⊆ v'.listOfVisitedNodes := by
          intro l
          induction l with
          | nil => exact fun w _ => ⟨w, rfl, List.Subset.refl _⟩
          | cons e l ihl =>
            intro w hw
            obtain ⟨w₁, h₁, hsub₁⟩ : ∃ w₁, queryEntry σ fuel n.isLeaf listOfSigs w e = some w₁ ∧
                w.listOfVisitedNodes ⊆ w₁.listOfVisitedNodes := by
              rw [queryEntry]
              split
              · exact ⟨w, rfl, List.Subset.refl _⟩
              · split
                · exact ⟨_, rfl, List.Subset.refl _⟩
                · exact ih hw _ _
            have hw₁ := length_unvisited_le keys hsub₁
            obtain ⟨w₂, h₂, hsub₂⟩ := ihl w₁ (by omega)
            refine ⟨w₂, ?_, List.Subset.trans hsub₁ hsub₂⟩
            simpa [h₁] using h₂
        obtain ⟨v', hv', hsub⟩ :=
          hfold n.entries ⟨x :: v.listOfVisitedNodes, v.docs⟩ (by omega)
        exact ⟨v', hv', List.Subset.trans (List.subset_cons_self ..) hsub⟩

/-- A query for `q` comes to its end and reports `d`. -/
def Found (ix : Index) (σ : Store) (q : Sig) (d : Key) : Prop :=
  ∃ fuel docs, query ix σ fuel q = some docs ∧ d ∈ docs

theorem not_found {ix : Index} (h : query ix σ fuel q = some docs) (hd : d ∉ docs) :
    ¬ Found ix σ q d := by
  rintro ⟨fuel', docs', h', hd'⟩
  obtain ⟨v, hv, rfl⟩ := Option.map_eq_some_iff.1 h
  obtain ⟨v', hv', rfl⟩ := Option.map_eq_some_iff.1 h'
  have h₁ := queryProcess_mono hv fuel'
  have h₂ := queryProcess_mono hv' fuel
  rw [Nat.add_comm, h₁] at h₂
  obtain rfl := Option.some.inj h₂
  exact hd hd'

theorem found_iff {ix : Index} (hσ : σ.Normalized) (hfin : σ.Finite) (hq : Gf2.Normalized q) :
    Found ix σ q d ↔ Reported σ q ix.rootID d := by
  constructor
  · rintro ⟨fuel, docs, h, hd⟩
    exact (query_iff hσ hq h).1 hd
  · intro hr
    obtain ⟨keys, hkeys⟩ := hfin
    obtain ⟨v, hv, -⟩ :=
      queryProcess_terminates hkeys (Nat.lt_succ_self (unvisited keys ⟨[], []⟩).length) [q] ix.rootID
    have h := congrArg (Option.map Visit.docs) hv
    exact ⟨_, _, h, (query_iff hσ hq h).2 hr⟩

end Sound

end XGossip
