import XGossip.Index.Stored
import XGossip.Lib.Exchange

namespace XGossip
set_option autoImplicit true

open Codec Gf2

section Lattice

/-- The signatures that `lcm` is for. -/
@[ext] structure PolySig where
  sig : Sig
  normalized : Normalized sig

instance : PartialOrder PolySig where
  le a b := Divides a.sig b.sig
  le_refl _ := dvd_rfl
  le_trans _ _ _ := dvd_trans
  le_antisymm a b h h' := PolySig.ext (a.normalized.eq_of_poly b.normalized (eq_of_dvd_of_dvd h h'))

/-- Ordered by divisibility, signatures have joins. -/
instance : SemilatticeSup PolySig where
  sup a b := ⟨lcm a.sig b.sig, (lcm_spec a.normalized b.normalized).1⟩
  le_sup_left a b := (lcm_spec a.normalized b.normalized).2.1
  le_sup_right a b := (lcm_spec a.normalized b.normalized).2.2.1
  sup_le a b c := (lcm_spec a.normalized b.normalized).2.2.2 (poly c.sig)

theorem length_le_of_divides (hs : Normalized s) (ht : Normalized t) (h : Divides s t) :
    s.length ≤ t.length := by
  obtain ⟨m, hm, hm₁, -⟩ := length_le_degree hs
  obtain ⟨n, hn, -, hn₂⟩ := length_le_degree ht
  have hle := Polynomial.degree_le_of_dvd h ht.poly_ne_zero
  rw [hm, hn] at hle
  have hle' : m ≤ n := by exact_mod_cast hle
  omega

end Lattice

section Lookup

variable {srv : Server} {entries news : List (Key × Sig)}

theorem lookup_eq_some (h : (entries.map Prod.fst).Nodup) :
    entries.lookup k = some s ↔ (k, s) ∈ entries := by
  induction entries with
  | nil => simp
  | cons e entries ih =>
    obtain ⟨hnot, hnodup⟩ := List.nodup_cons.1 h
    obtain ⟨k', s'⟩ := e
    by_cases hk : k = k'
    · subst hk
      rw [List.lookup_cons_self, Option.some.injEq, List.mem_cons, Prod.mk.injEq]
      refine ⟨fun hs => .inl ⟨rfl, hs.symm⟩, ?_⟩
      rintro (⟨-, rfl⟩ | hmem)
      · rfl
      · exact (hnot (List.mem_map.2 ⟨_, hmem, rfl⟩)).elim
    · rw [List.lookup_cons, beq_false_of_ne hk, List.mem_cons, Prod.mk.injEq]
      simp only [hk, false_and, false_or]
      exact ih hnodup

theorem lookup_eq_none : entries.lookup k = none ↔ k ∉ entries.map Prod.fst := by
  simp only [List.lookup_eq_none_iff, bne_iff_ne, List.mem_map, not_exists, not_and]
  exact forall₂_congr fun e _ => ne_comm

theorem lookup_map_updateEntry (type : InsertType) (key : Key) (sig : Sig) (k : Key) :
    (entries.map (updateEntry type key sig)).lookup k =
      (entries.lookup k).map fun s => if k = key then updatedSig type s sig else s := by
  induction entries with
  | nil => rfl
  | cons e entries ih =>
    obtain ⟨k', s'⟩ := e
    rw [List.map_cons, updateEntry]
    by_cases hk : k = k'
    · subst hk
      split
      · simp
      · simp
    · have hcons : ∀ t, ((k', t) :: entries.map (updateEntry type key sig)).lookup k =
          (entries.map (updateEntry type key sig)).lookup k := by
        intro t
        rw [List.lookup_cons, beq_false_of_ne hk]
      have hcons' : ((k', s') :: entries).lookup k = entries.lookup k := by
        rw [List.lookup_cons, beq_false_of_ne hk]
      split <;> rw [hcons, hcons', ih]

/-- An entry that finds room is joined to the signature under its key. -/
theorem lookup_takeIn (h : e.1 ∈ entries.map Prod.fst ∨ entries.length + 1 ≤ srv.MAXENTRIES)
    (k : Key) :
    (takeIn srv entries e).lookup k =
      Option.merge lcm (entries.lookup k) (if k = e.1 then some e.2 else none) := by
  rw [takeIn]
  split
  · next hmem =>
    rw [lookup_map_updateEntry]
    by_cases hk : k = e.1
    · subst hk
      have hsome : entries.lookup e.1 ≠ none := mt lookup_eq_none.1 (not_not.2 hmem)
      obtain ⟨s, hs⟩ := Option.ne_none_iff_exists'.1 hsome
      rw [hs, if_pos rfl]
      simp [updatedSig_UPDATE, Option.merge]
    · simp only [if_neg hk]
      cases entries.lookup k <;> rfl
  · next hnot =>
    have hlen := h.resolve_left hnot
    rw [if_neg (by omega), List.lookup_append]
    by_cases hk : k = e.1
    · subst hk
      rw [lookup_eq_none.2 hnot, if_pos rfl]
      obtain ⟨k, s⟩ := e
      simp [Option.merge]
    · rw [if_neg hk, List.lookup_cons, beq_false_of_ne hk]
      cases entries.lookup k <;> rfl

def bothKeys (entries news : List (Key × Sig)) : Finset Key :=
  (entries.map Prod.fst).toFinset ∪ (news.map Prod.fst).toFinset

theorem room_of_bothKeys (hentries : (entries.map Prod.fst).Nodup)
    (h : (bothKeys entries (e :: news)).card ≤ srv.MAXENTRIES) :
    e.1 ∈ entries.map Prod.fst ∨ entries.length + 1 ≤ srv.MAXENTRIES := by
  by_cases hmem : e.1 ∈ entries.map Prod.fst
  · exact .inl hmem
  · right
    have hnodup : (e.1 :: entries.map Prod.fst).Nodup := List.nodup_cons.2 ⟨hmem, hentries⟩
    have hsub : (e.1 :: entries.map Prod.fst).toFinset ⊆ bothKeys entries (e :: news) := by
      intro k hk
      simp only [bothKeys, List.map_cons, Finset.mem_union, List.mem_toFinset, List.mem_cons] at hk ⊢
      exact hk.elim (fun h => .inr (.inl h)) .inl
    have hcard := Finset.card_le_card hsub
    rw [List.toFinset_card_of_nodup hnodup, List.length_cons, List.length_map] at hcard
    omega

theorem mem_keys_takeIn (h : e.1 ∈ entries.map Prod.fst ∨ entries.length + 1 ≤ srv.MAXENTRIES) :
    k ∈ (takeIn srv entries e).map Prod.fst ↔ k ∈ entries.map Prod.fst ∨ k = e.1 := by
  rw [takeIn]
  split
  · next hmem =>
    rw [keys_map_updateEntry]
    refine ⟨.inl, ?_⟩
    rintro (hk | rfl)
    · exact hk
    · exact hmem
  · next hnot =>
    have hlen := h.resolve_left hnot
    rw [if_neg (by omega), List.map_append, List.mem_append, List.map_singleton,
      List.mem_singleton]

theorem bothKeys_takeIn (h : e.1 ∈ entries.map Prod.fst ∨ entries.length + 1 ≤ srv.MAXENTRIES) :
    bothKeys (takeIn srv entries e) news = bothKeys entries (e :: news) := by
  ext k
  simp only [bothKeys, Finset.mem_union, List.mem_toFinset, mem_keys_takeIn h, List.map_cons,
    List.mem_cons]
  tauto

theorem lookup_foldl_takeIn (hentries : (entries.map Prod.fst).Nodup)
    (hnews : (news.map Prod.fst).Nodup)
    (hroom : (bothKeys entries news).card ≤ srv.MAXENTRIES) (k : Key) :
    (news.foldl (takeIn srv) entries).lookup k =
      Option.merge lcm (entries.lookup k) (news.lookup k) := by
  induction news generalizing entries with
  | nil =>
    rw [List.foldl_nil, List.lookup_nil]
    cases entries.lookup k <;> rfl
  | cons e news ih =>
    obtain ⟨hnot, hnews'⟩ := List.nodup_cons.1 hnews
    have hspace := room_of_bothKeys hentries hroom
    rw [List.foldl_cons, ih (takeIn_nodup hentries e) hnews' (bothKeys_takeIn hspace ▸ hroom),
      lookup_takeIn hspace]
    obtain ⟨k', s'⟩ := e
    by_cases hk : k = k'
    · subst hk
      rw [if_pos rfl, lookup_eq_none.2 hnot, List.lookup_cons_self]
      cases entries.lookup k <;> rfl
    · rw [if_neg hk, List.lookup_cons, beq_false_of_ne hk]
      cases entries.lookup k <;> rfl

end Lookup

section Join

variable {srv : Server}

/-- The map from entry key to signature that a list of entries makes up. -/
def sigMap (entries : List (Key × Sig)) (k : Key) : WithBot PolySig :=
  (entries.lookup k).elim ⊥ fun s => if h : Normalized s then ((⟨s, h⟩ : PolySig) : WithBot PolySig) else ⊥

def AllNormalized (entries : List (Key × Sig)) : Prop := ∀ e ∈ entries, Normalized e.2

instance : Decidable (AllNormalized entries) := inferInstanceAs (Decidable (∀ e ∈ entries, _))

theorem sigMap_of_mem (h : (entries.map Prod.fst).Nodup) (hmem : (k, s) ∈ entries)
    (hs : Normalized s) : sigMap entries k = ((⟨s, hs⟩ : PolySig) : WithBot PolySig) := by
  rw [sigMap, (lookup_eq_some h).2 hmem, Option.elim_some, dif_pos hs]

theorem sigMap_eq_bot (hs : AllNormalized entries) (h : (entries.map Prod.fst).Nodup) :
    sigMap entries k = ⊥ ↔ k ∉ entries.map Prod.fst := by
  rw [← lookup_eq_none]
  cases hl : entries.lookup k with
  | none => simp [sigMap, hl]
  | some s =>
    have hmem := (lookup_eq_some h).1 hl
    simp [sigMap_of_mem h hmem (hs _ hmem)]

theorem sigMap_inj (hs : AllNormalized entries) (hs' : AllNormalized news)
    (h : (entries.map Prod.fst).Nodup) (h' : (news.map Prod.fst).Nodup)
    (heq : sigMap entries = sigMap news) (k : Key) : entries.lookup k = news.lookup k := by
  have hk := congrFun heq k
  cases hl : entries.lookup k with
  | none =>
    have hbot := (sigMap_eq_bot hs h).2 (lookup_eq_none.1 hl)
    rw [hk, sigMap_eq_bot hs' h'] at hbot
    exact (lookup_eq_none.2 hbot).symm
  | some s =>
    have hmem := (lookup_eq_some h).1 hl
    rw [sigMap_of_mem h hmem (hs _ hmem)] at hk
    cases hl' : news.lookup k with
    | none =>
      rw [(sigMap_eq_bot hs' h').2 (lookup_eq_none.1 hl')] at hk
      exact absurd hk (WithBot.coe_ne_bot)
    | some t =>
      have hmem' := (lookup_eq_some h').1 hl'
      rw [sigMap_of_mem h' hmem' (hs' _ hmem'), WithBot.coe_inj, PolySig.mk.injEq] at hk
      rw [hk]

/-- The merge of a replica is a join of maps. -/
theorem sigMap_foldl_takeIn (hs : AllNormalized entries) (hs' : AllNormalized news)
    (h : (entries.map Prod.fst).Nodup) (h' : (news.map Prod.fst).Nodup)
    (hroom : (bothKeys entries news).card ≤ srv.MAXENTRIES) :
    sigMap (news.foldl (takeIn srv) entries) = sigMap entries ⊔ sigMap news := by
  funext k
  rw [Pi.sup_apply, sigMap, lookup_foldl_takeIn h h' hroom]
  cases hl : entries.lookup k with
  | none =>
    rw [(sigMap_eq_bot hs h).2 (lookup_eq_none.1 hl), bot_sup_eq, sigMap]
    cases news.lookup k <;> rfl
  | some s =>
    have hmem := (lookup_eq_some h).1 hl
    rw [sigMap_of_mem h hmem (hs _ hmem)]
    cases hl' : news.lookup k with
    | none =>
      rw [(sigMap_eq_bot hs' h').2 (lookup_eq_none.1 hl'), sup_bot_eq]
      simp [Option.merge, dif_pos (hs _ hmem)]
    | some t =>
      have hmem' := (lookup_eq_some h').1 hl'
      rw [sigMap_of_mem h' hmem' (hs' _ hmem'), ← WithBot.coe_sup]
      have hn := (lcm_spec (hs _ hmem) (hs' _ hmem')).1
      simp only [Option.merge, Option.elim_some, dif_pos hn]
      rfl

/-- The replicas of one version of a node whose keys are among `keys` and whose signatures divide
those of `top`. -/
structure Below (int : Interval) (keys : Finset Key) (top : Key → WithBot PolySig)
    (n : StoredNode srv) : Prop where
  eqv : n.int.eqv int
  normalized : AllNormalized n.entries
  ne_nil : n.entries ≠ []
  keys : (n.entries.map Prod.fst).toFinset ⊆ keys
  le : sigMap n.entries ≤ top

theorem eqv_trans_symm (h : a.eqv c) (h' : Interval.eqv b c) : Interval.eqv a b := by
  simp only [Interval.eqv, decide_eq_true_eq] at h h' ⊢
  obtain ⟨h₁, h₂, h₃, h₄, h₅⟩ := h
  obtain ⟨h₁', h₂', h₃', h₄', h₅'⟩ := h'
  exact ⟨h₁.trans h₁'.symm, h₂.trans h₂'.symm, h₃.trans h₃'.symm, h₄.trans h₄'.symm,
    h₅.trans h₅'.symm⟩

variable {int : Interval} {keys : Finset Key} {top : Key → WithBot PolySig}

theorem Below.fitTogether {m n : StoredNode srv}
    (hfits : ∀ k (s : PolySig), top k = s → Fits (k, s.sig)) (hm : Below int keys top m)
    (hn : Below int keys top n) : FitTogether m.entries n.entries := by
  rintro ⟨k, s⟩ hs ⟨k', t⟩ ht (rfl : k = k')
  have hs' := hn.normalized _ hs
  have ht' := hm.normalized _ ht
  have hjoin : (((⟨s, hs'⟩ ⊔ ⟨t, ht'⟩ : PolySig)) : WithBot PolySig) ≤ top k := by
    rw [WithBot.coe_sup, ← sigMap_of_mem n.nodup hs hs', ← sigMap_of_mem m.nodup ht ht']
    exact sup_le (hn.le k) (hm.le k)
  obtain ⟨u, hu, hle⟩ := WithBot.coe_le_iff.1 hjoin
  have hlen : (lcm s t).length ≤ u.sig.length :=
    length_le_of_divides (lcm_spec hs' ht').1 u.normalized hle
  have hfit := hfits k u hu
  rw [Fits, length_elemBytes] at hfit ⊢
  dsimp only at hfit ⊢
  omega

theorem room_of_subset {m n : StoredNode srv} (hroom : keys.card ≤ srv.MAXENTRIES)
    (hm : (m.entries.map Prod.fst).toFinset ⊆ keys)
    (hn : (n.entries.map Prod.fst).toFinset ⊆ keys) :
    (bothKeys n.entries m.entries).card ≤ srv.MAXENTRIES :=
  (Finset.card_le_card (Finset.union_subset hn hm)).trans hroom

theorem takeIn_normalized (hes : AllNormalized entries) (he : Normalized e.2) :
    AllNormalized (takeIn srv entries e) := by
  intro x hx
  rcases mem_takeIn hx with ⟨hx, -⟩ | ⟨y, hy, -, rfl⟩ | rfl
  · exact hes x hx
  · exact (lcm_spec (hes y hy) he).1
  · exact he

theorem foldl_takeIn_normalized (hes : AllNormalized entries) (hns : AllNormalized news) :
    AllNormalized (news.foldl (takeIn srv) entries) := by
  induction news generalizing entries with
  | nil => exact hes
  | cons e news ih =>
    exact ih (takeIn_normalized hes (hns e List.mem_cons_self))
      fun x hx => hns x (List.mem_cons_of_mem _ hx)

/-- A node that stores a replica of its version holds the join of the two. -/
theorem Below.store {m n : StoredNode srv} (hroom : keys.card ≤ srv.MAXENTRIES)
    (hfits : ∀ k (s : PolySig), top k = s → Fits (k, s.sig)) (hm : Below int keys top m)
    (hn : Below int keys top n) :
    ∃ r : StoredNode srv, adjustData srv m.block n.block = some (r.block, .DHASH_OK) ∧
      Below int keys top r ∧ sigMap r.entries = sigMap n.entries ⊔ sigMap m.entries ∧
      ∀ k, r.entries.lookup k = Option.merge lcm (n.entries.lookup k) (m.entries.lookup k) := by
  have hfit := hm.fitTogether hfits hn
  have hroom' := room_of_subset hroom hm.keys hn.keys
  have hlookup := lookup_foldl_takeIn n.nodup m.nodup hroom'
  have hmap := sigMap_foldl_takeIn hn.normalized hm.normalized n.nodup m.nodup hroom'
  have hnorm : AllNormalized (n.merge m hfit).entries :=
    foldl_takeIn_normalized hn.normalized hm.normalized
  refine ⟨n.merge m hfit, ?_, ⟨hn.eqv, hnorm, ?_, ?_, ?_⟩, hmap, hlookup⟩
  · rw [adjustData_replica hm.ne_nil]
    exact adjustReplica_merge (eqv_trans_symm hm.eqv hn.eqv) hfit
  · obtain ⟨e, he⟩ := List.exists_mem_of_ne_nil _ hn.ne_nil
    intro hnil
    have hnone : (n.merge m hfit).entries.lookup e.1 = none := by
      rw [hnil]
      rfl
    have hsome := (lookup_eq_some n.nodup).2 (show (e.1, e.2) ∈ n.entries from he)
    rw [StoredNode.merge, hlookup, hsome] at hnone
    cases hm' : m.entries.lookup e.1 <;> simp [hm', Option.merge] at hnone
  · intro k hk
    by_contra hnot
    rw [List.mem_toFinset] at hk
    apply lookup_eq_none.1 _ hk
    have h₁ : n.entries.lookup k = none :=
      lookup_eq_none.2 fun h => hnot (hn.keys (List.mem_toFinset.2 h))
    have h₂ : m.entries.lookup k = none :=
      lookup_eq_none.2 fun h => hnot (hm.keys (List.mem_toFinset.2 h))
    rw [StoredNode.merge, hlookup, h₁, h₂]
    rfl
  · rw [StoredNode.merge, hmap]
    exact sup_le hn.le hm.le

end Join

section Exchange

variable {srv : Server} {ι : Type} {int : Interval} {keys : Finset Key}
  {top : Key → WithBot PolySig}

/-- Replicas of the same version of a node, which together fit into one node. -/
structure SameVersion [Fintype ι] (v : ι → StoredNode srv) : Prop where
  eqv : ∀ i j, (v i).int.eqv (v j).int
  normalized : ∀ i, AllNormalized (v i).entries
  ne_nil : ∀ i, (v i).entries ≠ []
  room : (Finset.univ.biUnion fun i => ((v i).entries.map Prod.fst).toFinset).card ≤ srv.MAXENTRIES
  fits : ∀ k (s : PolySig), (Finset.univ.sup fun i => sigMap (v i).entries) k = s → Fits (k, s.sig)

theorem SameVersion.below [Fintype ι] {v : ι → StoredNode srv} (h : SameVersion v) (i j : ι) :
    Below (v i).int (Finset.univ.biUnion fun i => ((v i).entries.map Prod.fst).toFinset)
      (Finset.univ.sup fun i => sigMap (v i).entries) (v j) :=
  ⟨h.eqv j i, h.normalized j, h.ne_nil j,
    Finset.subset_biUnion_of_mem (fun i => ((v i).entries.map Prod.fst).toFinset)
      (Finset.mem_univ j),
    Finset.le_sup (f := fun i => sigMap (v i).entries) (Finset.mem_univ j)⟩

/-- The holder of the node `old` that stores the block of `new` comes to hold `n`. -/
def Stores (new old n : StoredNode srv) : Prop :=
  adjustData srv new.block old.block = some (n.block, .DHASH_OK)

def SameMap (n n' : StoredNode srv) : Prop :=
  ∀ k, n.entries.lookup k = n'.entries.lookup k

theorem Below.sameMap {n n' : StoredNode srv} (hn : Below int keys top n)
    (hn' : Below int keys top n') (h : sigMap n.entries = sigMap n'.entries) : SameMap n n' :=
  sigMap_inj hn.normalized hn'.normalized n.nodup n'.nodup h

theorem mem_keys_of_merge {n m r : StoredNode srv}
    (h : ∀ k, r.entries.lookup k = Option.merge lcm (n.entries.lookup k) (m.entries.lookup k))
    (k : Key) : k ∈ r.entries.map Prod.fst ↔
      k ∈ n.entries.map Prod.fst ∨ k ∈ m.entries.map Prod.fst := by
  rw [← not_iff_not, not_or, ← lookup_eq_none, ← lookup_eq_none, ← lookup_eq_none, h]
  cases n.entries.lookup k <;> cases m.entries.lookup k <;> simp [Option.merge]

variable [DecidableEq ι]

/-- The second holder of a node stores the block of the first one. -/
def storeReplica (srv : Server) (w : ι → Block) (e : ι × ι) : Option (ι → Block) := do
  let result ← adjustData srv (w e.1) (w e.2)
  return Function.update w e.2 (storedAfter (w e.2) result)

/-- Holders that store each other's blocks join their maps. -/
theorem storeReplica_run {v : ι → StoredNode srv} (hroom : keys.card ≤ srv.MAXENTRIES)
    (hfits : ∀ k (s : PolySig), top k = s → Fits (k, s.sig)) (hv : ∀ i, Below int keys top (v i))
    (es : List (ι × ι)) :
    ∃ x : ι → StoredNode srv,
      es.foldlM (storeReplica srv) (fun i => (v i).block) = some (fun i => (x i).block) ∧
      (∀ i, Below int keys top (x i)) ∧
      ∀ i, sigMap (x i).entries = Exchange.run (fun i => sigMap (v i).entries) es i := by
  induction es generalizing v with
  | nil => exact ⟨v, rfl, hv, fun _ => rfl⟩
  | cons e es ih =>
    obtain ⟨r, hr, hbelow, hmap, -⟩ := (hv e.1).store hroom hfits (hv e.2)
    have hstep : storeReplica srv (fun i => (v i).block) e =
        some fun i => (Function.update v e.2 r i).block := by
      simp only [storeReplica, hr, Option.bind_eq_bind, Option.bind_some, storedAfter,
        Option.pure_def, Option.some.injEq]
      funext i
      by_cases hi : i = e.2
      · subst hi
        rw [Function.update_self, Function.update_self]
      · rw [Function.update_of_ne hi, Function.update_of_ne hi]
    have hstepMap : (fun i => sigMap (Function.update v e.2 r i).entries) =
        Exchange.step (fun i => sigMap (v i).entries) e := by
      funext i
      by_cases hi : i = e.2
      · subst hi
        rw [Exchange.step, Function.update_self, Function.update_self, hmap]
      · rw [Exchange.step, Function.update_of_ne hi, Function.update_of_ne hi]
    have hv' : ∀ i, Below int keys top (Function.update v e.2 r i) := by
      intro i
      by_cases hi : i = e.2
      · subst hi
        rwa [Function.update_self]
      · rw [Function.update_of_ne hi]
        exact hv i
    obtain ⟨x, hx, hxbelow, hxmap⟩ := ih hv'
    refine ⟨x, ?_, hxbelow, fun i => ?_⟩
    · rw [List.foldlM_cons, hstep]
      exact hx
    · rw [hxmap i, hstepMap]
      rfl

/-- The merge of replicas is a join: it unites the keys and takes the `lcm` of two signatures of a
key; it is commutative, associative and idempotent; and replicas that have heard of the same
replicas hold the same map, whatever the order and the number of the exchanges. -/
theorem replica_merge_join [Fintype ι] {v : ι → StoredNode srv} (h : SameVersion v) :
    (∀ i j, ∃ n, Stores (v i) (v j) n ∧
      (∀ k, k ∈ n.entries.map Prod.fst ↔
        k ∈ (v j).entries.map Prod.fst ∨ k ∈ (v i).entries.map Prod.fst) ∧
      ∀ k, n.entries.lookup k =
        Option.merge lcm ((v j).entries.lookup k) ((v i).entries.lookup k)) ∧
    (∀ i j, ∃ n n', Stores (v i) (v j) n ∧ Stores (v j) (v i) n' ∧ SameMap n n') ∧
    (∀ i j l, ∃ ij ijl jl n, Stores (v j) (v i) ij ∧ Stores (v l) ij ijl ∧ Stores (v l) (v j) jl ∧
      Stores jl (v i) n ∧ SameMap ijl n) ∧
    (∀ i, ∃ n, Stores (v i) (v i) n ∧ SameMap n (v i)) ∧
    ∀ es : List (ι × ι), ∃ x : ι → StoredNode srv,
      es.foldlM (storeReplica srv) (fun i => (v i).block) = some (fun i => (x i).block) ∧
      ∀ i j, Exchange.heard es i = Exchange.heard es j → SameMap (x i) (x j) := by
  refine ⟨?_, ?_, ?_, ?_, ?_⟩
  · intro i j
    obtain ⟨n, hn, -, -, hl⟩ := (h.below i i).store h.room h.fits (h.below i j)
    exact ⟨n, hn, mem_keys_of_merge hl, hl⟩
  · intro i j
    obtain ⟨n, hn, hb, hmap, -⟩ := (h.below i i).store h.room h.fits (h.below i j)
    obtain ⟨n', hn', hb', hmap', -⟩ := (h.below i j).store h.room h.fits (h.below i i)
    exact ⟨n, n', hn, hn', hb.sameMap hb' (by rw [hmap, hmap', sup_comm])⟩
  · intro i j l
    obtain ⟨ij, h₁, b₁, m₁, -⟩ := (h.below i j).store h.room h.fits (h.below i i)
    obtain ⟨ijl, h₂, b₂, m₂, -⟩ := (h.below i l).store h.room h.fits b₁
    obtain ⟨jl, h₃, b₃, m₃, -⟩ := (h.below i l).store h.room h.fits (h.below i j)
    obtain ⟨n, h₄, b₄, m₄, -⟩ := b₃.store h.room h.fits (h.below i i)
    exact ⟨ij, ijl, jl, n, h₁, h₂, h₃, h₄, b₂.sameMap b₄ (by rw [m₂, m₁, m₄, m₃, sup_assoc])⟩
  · intro i
    obtain ⟨n, hn, hb, hmap, -⟩ := (h.below i i).store h.room h.fits (h.below i i)
    exact ⟨n, hn, hb.sameMap (h.below i i) (by rw [hmap, sup_idem])⟩
  · intro es
    by_cases hne : Nonempty ι
    · obtain ⟨i₀⟩ := hne
      obtain ⟨x, hx, hb, hmap⟩ := storeReplica_run h.room h.fits (h.below i₀) es
      refine ⟨x, hx, fun i j hij => (hb i).sameMap (hb j) ?_⟩
      rw [hmap i, hmap j, Exchange.run_eq_sup_heard, Exchange.run_eq_sup_heard, hij]
    · cases es with
      | nil => exact ⟨v, rfl, fun i => (hne ⟨i⟩).elim⟩
      | cons e _ => exact (hne ⟨e.1⟩).elim

/-- A replica of `fullRoot` with one of its keys. -/
def otherRoot : StoredNode twoServer where
  key := [82]
  int := ⟨0, 1, 1, 1, 0, 8⟩
  entries := [([97, 35], [6])]
  nodup := by decide
  length_le := by decide
  header_fits := by decide
  entry_fits := by decide

def twoRoots : Bool → StoredNode twoServer := fun b => if b then fullRoot else otherRoot

theorem twoRoots_sameVersion : SameVersion twoRoots := by
  refine ⟨by decide, by decide, by decide, by decide, ?_⟩
  intro k s hs
  have hsup : (Finset.univ.sup fun i => sigMap (twoRoots i).entries) k =
      sigMap fullRoot.entries k ⊔ sigMap otherRoot.entries k := by
    simp [twoRoots]
  rw [hsup] at hs
  by_cases ha : k = [97, 35]
  · subst ha
    have hjoin : sigMap fullRoot.entries [97, 35] ⊔ sigMap otherRoot.entries [97, 35] =
        ((⟨lcm [2] [6], by decide +kernel⟩ : PolySig) : WithBot PolySig) := rfl
    rw [hjoin, WithBot.coe_inj] at hs
    rw [← hs]
    decide +kernel
  · have hother : sigMap otherRoot.entries k = ⊥ :=
      (sigMap_eq_bot (by decide) (by decide)).2 (by simpa [otherRoot] using ha)
    rw [hother, sup_bot_eq] at hs
    by_cases hb : k = [98, 35]
    · subst hb
      have hfull : sigMap fullRoot.entries [98, 35] =
          ((⟨[3], by decide⟩ : PolySig) : WithBot PolySig) := rfl
      rw [hfull, WithBot.coe_inj] at hs
      rw [← hs]
      decide
    · have hnone : sigMap fullRoot.entries k = ⊥ :=
        (sigMap_eq_bot (by decide) (by decide)).2 (by simpa [fullRoot] using ⟨ha, hb⟩)
      rw [hnone] at hs
      exact absurd hs (WithBot.bot_ne_coe)

theorem twoRoots_merge : ∃ n, Stores fullRoot otherRoot n ∧
    n.entries.lookup [97, 35] = some [6] ∧ n.entries.lookup [98, 35] = some [3] := by
  obtain ⟨n, hn, -, hl⟩ := (replica_merge_join twoRoots_sameVersion).1 true false
  exact ⟨n, hn, (hl _).trans (by decide +kernel), (hl _).trans (by decide +kernel)⟩

end Exchange

section Repair

variable {srv : Server} {A B n m : StoredNode srv}

/-- A block has the header of `B`, and all its keys with its signatures or multiples of them. -/
structure Holds (B : StoredNode srv) (b : Block) : Prop where
  header : b.head? = some (headerBytes B.key B.int)
  entries : ∀ e ∈ B.entries, ∃ elem ∈ b.tail, ∃ s, getKeyValue elem = some (e.1, s) ∧ Divides e.2 s

/-- The holder of `old` that is sent the whole block of `new` does not stop at an assertion, and
then holds `B`. -/
def StoredSafely (B new old : StoredNode srv) : Prop :=
  ∃ result, adjustData srv new.block old.block = some result ∧
    Holds B (storedAfter old.block result)

/-- The two stores that a repair schedules for two versions of a node. -/
def SafeExchange (A B : StoredNode srv) : Prop := StoredSafely B A B ∧ StoredSafely B B A

theorem headerBytes_inj (h : headerBytes n.key n.int = headerBytes m.key m.int) :
    n.key = m.key ∧ n.int = m.int := by
  have hn := getHeaderElem_headerBytes n.header_fits
  rw [h, getHeaderElem_headerBytes m.header_fits, Option.some.injEq, Prod.mk.injEq] at hn
  exact ⟨hn.1.symm, hn.2.symm⟩

theorem holds_block_iff : Holds B n.block ↔ n.key = B.key ∧ n.int = B.int ∧
    ∀ e ∈ B.entries, ∃ s, (e.1, s) ∈ n.entries ∧ Divides e.2 s := by
  constructor
  · rintro ⟨hhead, hall⟩
    obtain ⟨hkey, hint⟩ := headerBytes_inj (Option.some.inj hhead)
    refine ⟨hkey, hint, fun e he => ?_⟩
    obtain ⟨elem, helem, s, hs, hd⟩ := hall e he
    obtain ⟨x, hx, rfl⟩ := List.mem_map.1 helem
    rw [getKeyValue_elemBytes (n.entry_fits x hx)] at hs
    exact ⟨s, Option.some.inj hs ▸ hx, hd⟩
  · rintro ⟨hkey, hint, hall⟩
    refine ⟨by rw [StoredNode.block, hkey, hint]; rfl, fun e he => ?_⟩
    obtain ⟨s, hs, hd⟩ := hall e he
    exact ⟨elemBytes (e.1, s), List.mem_map_of_mem hs, s, getKeyValue_elemBytes (n.entry_fits _ hs),
      hd⟩

theorem holds_self (B : StoredNode srv) : Holds B B.block :=
  holds_block_iff.2 ⟨rfl, rfl, fun e he => ⟨e.2, he, dvd_rfl⟩⟩

theorem Holds.append (h : Holds B n.block) (b : Block) : Holds B (n.block ++ b) := by
  refine ⟨h.header, fun e he => ?_⟩
  obtain ⟨elem, helem, hs⟩ := h.entries e he
  exact ⟨elem, List.mem_append_left _ helem, hs⟩

theorem storedSafely_header_only (hm : m.entries = []) (h : Holds B n.block) :
    StoredSafely B m n := by
  rw [StoredSafely, adjustData_header_only hm]
  split
  · exact ⟨_, rfl, h⟩
  · split
    · exact ⟨_, rfl, h⟩
    · exact ⟨_, rfl, h.append _⟩

theorem header_of_storedSafely (hm : m.entries = []) (h : StoredSafely B m n) :
    n.key = B.key ∧ n.int = B.int := by
  obtain ⟨r, hr, hhead, -⟩ := h
  apply headerBytes_inj
  rw [adjustData_header_only hm] at hr
  split at hr
  · rw [← Option.some.inj hr] at hhead
    exact Option.some.inj hhead
  · split at hr
    · rw [← Option.some.inj hr] at hhead
      exact Option.some.inj hhead
    · rw [← Option.some.inj hr] at hhead
      exact Option.some.inj hhead

theorem foldl_takeIn_keeps (hes : AllNormalized entries) (hns : AllNormalized news)
    (hx : (k, s) ∈ entries) :
    ∃ t, (k, t) ∈ news.foldl (takeIn srv) entries ∧ Divides s t := by
  induction news generalizing entries s with
  | nil => exact ⟨s, hx, dvd_rfl⟩
  | cons e news ih =>
    have he := hns e List.mem_cons_self
    have hnext : ∀ {t}, (k, t) ∈ takeIn srv entries e →
        ∃ u, (k, u) ∈ news.foldl (takeIn srv) (takeIn srv entries e) ∧ Divides t u :=
      ih (takeIn_normalized hes he) fun x hx => hns x (List.mem_cons_of_mem _ hx)
    by_cases hk : k = e.1
    · have hmem : (k, lcm s e.2) ∈ takeIn srv entries e := by
        rw [takeIn, if_pos (hk ▸ List.mem_map_of_mem hx)]
        exact mem_map_updateEntry.2 ⟨s, hx, by rw [if_pos hk, updatedSig_UPDATE]⟩
      obtain ⟨t, ht, hd⟩ := hnext hmem
      exact ⟨t, ht, dvd_trans (lcm_spec (hes _ hx) he).2.1 hd⟩
    · exact hnext (mem_takeIn_of_ne hx hk)

theorem lcm_comm (hs : Normalized s) (ht : Normalized t) : lcm s t = lcm t s :=
  congrArg PolySig.sig (sup_comm (⟨s, hs⟩ : PolySig) ⟨t, ht⟩)

theorem FitTogether.symm (h : FitTogether news entries) (hes : AllNormalized entries)
    (hns : AllNormalized news) : FitTogether entries news := by
  intro e he e' he' hk
  rw [lcm_comm (hns e he) (hes e' he'), hk]
  exact h e' he' e he hk.symm

theorem storedSafely_of_not_eqv (hm : m.entries ≠ []) (heqv : ¬ m.int.eqv n.int) :
    StoredSafely B m n ↔ m.int.newer n.int ∧ Holds B m.block := by
  rw [StoredSafely, adjustData_replica hm, adjustReplica_stored, if_neg heqv]
  split
  · next hnew =>
    simp only [Option.some.injEq, exists_eq_left', storedAfter]
    exact ⟨fun h => ⟨hnew, h⟩, fun h => h.2⟩
  · next hnew =>
    simp only [reduceCtorEq, false_and, exists_false, false_iff]
    exact fun h => hnew h.1

theorem storedSafely_of_eqv (hm : m.entries ≠ []) (heqv : m.int.eqv n.int)
    (hfit : FitTogether m.entries n.entries) :
    StoredSafely B m n ↔ Holds B (n.merge m hfit).block := by
  rw [StoredSafely, adjustData_replica hm, adjustReplica_merge heqv hfit]
  simp only [Option.some.injEq, exists_eq_left', storedAfter]

theorem storedSafely_old_iff (hA : AllNormalized A.entries) (hB : AllNormalized B.entries)
    (hfit : FitTogether A.entries B.entries) :
    StoredSafely B A B ↔ A.entries = [] ∨ A.int.eqv B.int := by
  by_cases hnil : A.entries = []
  · exact iff_of_true (storedSafely_header_only hnil (holds_self B)) (.inl hnil)
  · by_cases heqv : A.int.eqv B.int
    · refine iff_of_true ?_ (.inr heqv)
      rw [storedSafely_of_eqv hnil heqv hfit, holds_block_iff]
      exact ⟨rfl, rfl, fun e he => foldl_takeIn_keeps hB hA he⟩
    · rw [storedSafely_of_not_eqv hnil heqv]
      refine iff_of_false ?_ (not_or.2 ⟨hnil, heqv⟩)
      rintro ⟨-, hholds⟩
      apply heqv
      rw [(holds_block_iff.1 hholds).2.1]
      exact eqv_refl _

/-- All keys of a replica are in the merge just if there is room for them. -/
theorem merge_holds_iff (hA : AllNormalized A.entries) (hB : AllNormalized B.entries)
    (hfit : FitTogether B.entries A.entries) :
    (∀ e ∈ B.entries, ∃ s, (e.1, s) ∈ (A.merge B hfit).entries ∧ Divides e.2 s) ↔
      (bothKeys A.entries B.entries).card ≤ srv.MAXENTRIES := by
  constructor
  · intro h
    have hsub : bothKeys A.entries B.entries ⊆
        ((A.merge B hfit).entries.map Prod.fst).toFinset := by
      intro k hk
      rw [List.mem_toFinset]
      rcases Finset.mem_union.1 hk with hk | hk
      · obtain ⟨e, he, rfl⟩ := List.mem_map.1 (List.mem_toFinset.1 hk)
        obtain ⟨t, ht, -⟩ := foldl_takeIn_keeps hA hB he
        exact List.mem_map.2 ⟨_, ht, rfl⟩
      · obtain ⟨e, he, rfl⟩ := List.mem_map.1 (List.mem_toFinset.1 hk)
        obtain ⟨t, ht, -⟩ := h e he
        exact List.mem_map.2 ⟨_, ht, rfl⟩
    have hcard := Finset.card_le_card hsub
    rw [List.toFinset_card_of_nodup (A.merge B hfit).nodup, List.length_map] at hcard
    exact hcard.trans (A.merge B hfit).length_le
  · intro hroom e he
    have hl := lookup_foldl_takeIn A.nodup B.nodup hroom e.1
    rw [(lookup_eq_some B.nodup).2 he] at hl
    cases hA' : A.entries.lookup e.1 with
    | none =>
      rw [hA'] at hl
      exact ⟨e.2, (lookup_eq_some (A.merge B hfit).nodup).1 hl, dvd_rfl⟩
    | some s =>
      rw [hA'] at hl
      exact ⟨lcm s e.2, (lookup_eq_some (A.merge B hfit).nodup).1 hl,
        (lcm_spec (hA _ ((lookup_eq_some A.nodup).1 hA')) (hB e he)).2.2.1⟩

/-- The newer version is stored safely at the older one if the headers are the same and the keys
find room, or if it replaces it. -/
theorem storedSafely_new_iff (hkey : A.key = B.key) (hA : AllNormalized A.entries)
    (hB : AllNormalized B.entries) (hfit : FitTogether B.entries A.entries) :
    StoredSafely B B A ↔
      (A.int = B.int ∧ (bothKeys A.entries B.entries).card ≤ srv.MAXENTRIES) ∨
        (¬ A.int.eqv B.int ∧ B.entries ≠ [] ∧ B.int.newer A.int) := by
  by_cases hnil : B.entries = []
  · have hcard : (bothKeys A.entries B.entries).card ≤ srv.MAXENTRIES := by
      rw [bothKeys, hnil, List.map_nil, List.toFinset_nil, Finset.union_empty,
        List.toFinset_card_of_nodup A.nodup, List.length_map]
      exact A.length_le
    refine ⟨fun h => .inl ⟨(header_of_storedSafely hnil h).2, hcard⟩, ?_⟩
    rintro (⟨hint, -⟩ | ⟨-, hne, -⟩)
    · exact storedSafely_header_only hnil
        (holds_block_iff.2 ⟨hkey, hint, fun e he => by simp [hnil] at he⟩)
    · exact (hne hnil).elim
  · by_cases heqv : A.int.eqv B.int
    · have heqv' : B.int.eqv A.int := eqv_trans_symm (eqv_refl _) heqv
      rw [storedSafely_of_eqv hnil heqv' hfit, holds_block_iff, merge_holds_iff hA hB]
      constructor
      · rintro ⟨-, hint, hroom⟩
        exact .inl ⟨hint, hroom⟩
      · rintro (⟨hint, hroom⟩ | ⟨hne, -⟩)
        · exact ⟨hkey, hint, hroom⟩
        · exact (hne heqv).elim
    · have heqv' : ¬ B.int.eqv A.int := fun h => heqv (eqv_trans_symm (eqv_refl _) h)
      rw [storedSafely_of_not_eqv hnil heqv']
      constructor
      · rintro ⟨hnew, -⟩
        exact .inr ⟨heqv, hnil, hnew⟩
      · rintro (⟨hint, -⟩ | ⟨-, -, hnew⟩)
        · rw [hint] at heqv
          exact (heqv (eqv_refl _)).elim
        · exact ⟨hnew, holds_self B⟩

/-- The versions of a node that can be exchanged: the headers are the same and the keys of both
find room in one node; or the older one is only a header and the newer one, which has entries,
replaces it. -/
def Exchangeable (A B : StoredNode srv) : Prop :=
  (A.int = B.int ∧ (bothKeys A.entries B.entries).card ≤ srv.MAXENTRIES) ∨
    (¬ A.int.eqv B.int ∧ A.entries = [] ∧ B.entries ≠ [] ∧ B.int.newer A.int)

theorem key_of_messages {msgs : List (StoreMsg srv)} (hidx : ∀ m ∈ msgs, m.IsIndex)
    (h : msgs.foldlM applyMsg A.block = some B.block) : A.key = B.key := by
  obtain ⟨o', ho', hkey⟩ := applyMsgs_stored (o := some A) h
  obtain ⟨n', rfl, hn'⟩ := hkey hidx A rfl
  have hhead : headerBytes B.key B.int = headerBytes n'.key n'.int := (List.cons.inj ho').1
  rw [(headerBytes_inj hhead).1, hn']

/-- Storing a version of a node at a later one, and the later one at it, is safe just if they can
be exchanged. -/
theorem safeExchange_iff {msgs : List (StoreMsg srv)} (hidx : ∀ m ∈ msgs, m.IsIndex)
    (hlater : msgs.foldlM applyMsg A.block = some B.block) (hA : AllNormalized A.entries)
    (hB : AllNormalized B.entries) (hfit : FitTogether A.entries B.entries) :
    SafeExchange A B ↔ Exchangeable A B := by
  have hkey := key_of_messages hidx hlater
  rw [SafeExchange, storedSafely_old_iff hA hB hfit,
    storedSafely_new_iff hkey hA hB (hfit.symm hB hA), Exchangeable]
  constructor
  · rintro ⟨hold, hsame | ⟨hne, hB', hnew⟩⟩
    · exact .inl hsame
    · exact .inr ⟨hne, hold.resolve_right hne, hB', hnew⟩
  · rintro (⟨hint, hroom⟩ | ⟨hne, hA', hB', hnew⟩)
    · exact ⟨.inr (hint ▸ eqv_refl _), .inl ⟨hint, hroom⟩⟩
    · exact ⟨.inl hA', .inr ⟨hne, hB', hnew⟩⟩

/-- A leaf with one document, and the same leaf after its interval has been cut in half. -/
def wideLeaf : StoredNode twoServer where
  key := [76]
  int := ⟨0, 1, 1, 1, 0, 7⟩
  entries := [([97, 35], [2])]
  nodup := by decide
  length_le := by decide
  header_fits := by decide
  entry_fits := by decide

def halfLeaf : StoredNode twoServer := { wideLeaf with int := ⟨0, 1, 1, 2, 0, 7⟩, header_fits := by decide }

def wideMsgs : List (StoreMsg twoServer) :=
  [.header .UPDATEHDRLOCK [76] ⟨0, 1, 1, 1, 0, 7⟩ UPDATEHDRLOCK_mem,
    .update .UPDATE [97, 35] [2] UPDATE_mem]

def halfMsgs : List (StoreMsg twoServer) :=
  [.header .UPDATEHDR [76] ⟨0, 1, 1, 2, 0, 7⟩ (by decide)]

theorem wideMsgs_index : ∀ m ∈ wideMsgs ++ halfMsgs, m.IsIndex := by
  simp [wideMsgs, halfMsgs, StoreMsg.IsIndex]

def fullLeaf : StoredNode twoServer :=
  { fullRoot with key := [76], int := wideLeaf.int, header_fits := wideLeaf.header_fits }

def fullMsgs : List (StoreMsg twoServer) := [.update .UPDATE [98, 35] [3] UPDATE_mem]

theorem wideLeaf_safeExchange : wideLeaf.block ≠ fullLeaf.block ∧ SafeExchange wideLeaf fullLeaf := by
  have hidx : ∀ m ∈ fullMsgs, m.IsIndex := by simp [fullMsgs, StoreMsg.IsIndex]
  refine ⟨by decide, (safeExchange_iff hidx (by decide +kernel) (by decide) (by decide) ?_).2 ?_⟩
  · unfold FitTogether
    decide +kernel
  · exact .inl ⟨rfl, by decide⟩

/-- A replica from before a split does not get past the assertion at a holder that has seen the
split. -/
theorem exchange_asserts : ¬ ∀ (srv : Server) (A B : StoredNode srv) (msgs msgs' : List (StoreMsg srv)),
    (∀ m ∈ msgs ++ msgs', m.IsIndex) → applyMsgs msgs = some A.block →
    msgs'.foldlM applyMsg A.block = some B.block → AllNormalized A.entries →
    AllNormalized B.entries → FitTogether A.entries B.entries → SafeExchange A B := by
  intro h
  obtain ⟨⟨r, hr, -⟩, -⟩ := h twoServer wideLeaf halfLeaf wideMsgs halfMsgs wideMsgs_index
    (by decide +kernel) (by decide +kernel) (by decide) (by decide)
    (by unfold FitTogether; decide +kernel)
  have hnone : adjustData twoServer wideLeaf.block halfLeaf.block = none := by decide +kernel
  simp [hnone] at hr

end Repair

end XGossip
