import XGossip.Index.RangeLcm
import XGossip.Index.Replica

namespace XGossip
set_option autoImplicit true

open Codec Gf2

section Entries

/-- `mergeEntry`, with a relation for what `lcm` returns. -/
inductive MergeEntry (L : Sig → Sig → Sig → Prop) (newKey : Key) (newSig : Sig) :
    Block → Block → Bool → Prop where
  | nil : MergeEntry L newKey newSig [] [] false
  | same (hold : getKeyValue elem = some (newKey, oldSig)) (hL : L oldSig newSig sig)
      (hmake : makeKeyValue newKey sig .NONE = some elem') :
      MergeEntry L newKey newSig (elem :: elems) (elem' :: elems) true
  | other (hold : getKeyValue elem = some (oldKey, oldSig)) (hne : newKey ≠ oldKey)
      (hrest : MergeEntry L newKey newSig elems elems' found) :
      MergeEntry L newKey newSig (elem :: elems) (elem :: elems') found

/-- `mergeEntries`, with a relation for what `lcm` returns. -/
inductive MergeEntries (L : Sig → Sig → Sig → Prop) (srv : Server) : Block → Block → Block → Prop where
  | nil : MergeEntries L srv [] elems elems
  | cons (hnew : getKeyValue new = some (newKey, newSig))
      (hentry : MergeEntry L newKey newSig elems elems' found)
      (hrest : MergeEntries L srv news
        (if found ∨ elems'.length + 1 > srv.MAXENTRIES then elems' else elems' ++ [new]) res) :
      MergeEntries L srv (new :: news) elems res

/-- The branch of `adjustReplica` for equal headers. -/
def MergeReplica (L : Sig → Sig → Sig → Prop) (srv : Server) (new old res : Block) : Prop :=
  ∃ hdr elems newHdr news currKey currInt newKey newInt merged,
    old = hdr :: elems ∧ new = newHdr :: news ∧ getHeaderElem hdr = some (currKey, currInt) ∧
    getHeaderElem newHdr = some (newKey, newInt) ∧ newInt.eqv currInt ∧
    MergeEntries L srv news elems merged ∧ res = hdr :: merged

variable {L L' : Sig → Sig → Sig → Prop} {srv : Server} {news elems elems' res : Block}
  {newKey key : Key} {newSig t s : Sig}

theorem mergeEntry_eq_some : mergeEntry newKey newSig elems = some (elems', found) ↔
    MergeEntry (fun t s r => r = lcm t s) newKey newSig elems elems' found := by
  constructor
  · intro h
    induction elems generalizing elems' found with
    | nil =>
      cases h
      exact .nil
    | cons elem elems ih =>
      simp only [mergeEntry, Option.bind_eq_bind, Option.bind_eq_some_iff] at h
      obtain ⟨⟨oldKey, oldSig⟩, hold, h⟩ := h
      split at h
      · next heq =>
        subst heq
        obtain ⟨elem', hmake, h⟩ := Option.bind_eq_some_iff.1 h
        cases h
        exact .same hold rfl hmake
      · next hne =>
        obtain ⟨⟨elems₁, found₁⟩, hrest, h⟩ := Option.bind_eq_some_iff.1 h
        cases h
        exact .other hold hne (ih hrest)
  · intro h
    induction h with
    | nil => rfl
    | same hold hL hmake =>
      subst hL
      simp [mergeEntry, hold, hmake]
    | other hold hne hrest ih => simp [mergeEntry, hold, hne, ih]

theorem mergeEntries_eq_some : mergeEntries srv news elems = some res ↔
    MergeEntries (fun t s r => r = lcm t s) srv news elems res := by
  constructor
  · intro h
    induction news generalizing elems with
    | nil =>
      cases h
      exact .nil
    | cons new news ih =>
      simp only [mergeEntries, Option.bind_eq_bind, Option.bind_eq_some_iff] at h
      obtain ⟨⟨newKey, newSig⟩, hnew, ⟨elems', found⟩, hentry, h⟩ := h
      exact .cons hnew (mergeEntry_eq_some.1 hentry) (ih h)
  · intro h
    induction h with
    | nil => rfl
    | cons hnew hentry hrest ih =>
      simp only [mergeEntries, hnew, mergeEntry_eq_some.2 hentry, Option.bind_eq_bind, Option.bind_some]
      exact ih

theorem mergeReplica_block {m n : StoredNode srv} (heqv : m.int.eqv n.int) :
    MergeReplica L srv m.block n.block res ↔ ∃ merged,
      MergeEntries L srv (m.entries.map elemBytes) (n.entries.map elemBytes) merged ∧
      res = headerBytes n.key n.int :: merged := by
  have hm := getHeaderElem_headerBytes m.header_fits
  have hn := getHeaderElem_headerBytes n.header_fits
  constructor
  · rintro ⟨hdr, elems, newHdr, news, -, -, -, -, merged, hold, hnew, -, -, -, hmerged, rfl⟩
    cases hold
    cases hnew
    exact ⟨merged, hmerged, rfl⟩
  · rintro ⟨merged, hmerged, rfl⟩
    exact ⟨_, _, _, _, _, _, _, _, _, rfl, rfl, hn, hm, heqv, hmerged, rfl⟩

theorem adjustReplica_eq_some {m n : StoredNode srv} (heqv : m.int.eqv n.int) :
    adjustReplica srv m.block n.block = some (res, .DHASH_OK) ↔
      MergeReplica (fun t s r => r = lcm t s) srv m.block n.block res := by
  rw [adjustReplica_stored, if_pos heqv, mergeReplica_block heqv, Option.map_eq_some_iff]
  simp only [mergeEntries_eq_some, Prod.mk.injEq, and_true, eq_comm (a := res)]

/-- The signature that the entries of a block have under a key. -/
def sigAt (elems : Block) (key : Key) : Option Sig := (elems.filterMap getKeyValue).lookup key

theorem sigAt_cons (h : getKeyValue elem = some (k, sig)) :
    sigAt (elem :: elems) key = if key = k then some sig else sigAt elems key := by
  rw [sigAt, List.filterMap_cons_some h, List.lookup_cons]
  by_cases hk : key = k
  · simp [hk]
  · rw [beq_false_of_ne hk, if_neg hk]
    rfl

theorem sigAt_concat (h : getKeyValue elem = some (k, sig)) :
    sigAt (elems ++ [elem]) key = (sigAt elems key).or (if key = k then some sig else none) := by
  have hlast : ([elem].filterMap getKeyValue).lookup key = if key = k then some sig else none :=
    sigAt_cons h
  rw [sigAt, List.filterMap_append, List.lookup_append, hlast]
  rfl

theorem filterMap_elemBytes {entries : List (Key × Sig)} (hes : ∀ e ∈ entries, Fits e) :
    (entries.map elemBytes).filterMap getKeyValue = entries := by
  rw [List.filterMap_map]
  refine (List.filterMap_congr fun e he => ?_).trans (List.filterMap_some (l := entries))
  exact getKeyValue_elemBytes (hes e he)

theorem getKeyValue_makeKeyValue (h : makeKeyValue key sig .NONE = some elem) :
    getKeyValue elem = some (key, sig) := by
  rw [makeKeyValue_NONE] at h
  obtain ⟨rfl, hlen⟩ := alloc_eq_some h
  exact getKeyValue_elemBytes hlen

theorem MergeEntry.sigAt_self (h : MergeEntry L newKey newSig elems elems' found)
    (hold : sigAt elems newKey = some t) :
    found = true ∧ ∃ r, L t newSig r ∧ sigAt elems' newKey = some r := by
  induction h with
  | nil => cases hold
  | same hget hL hmake =>
    rw [sigAt_cons hget, if_pos rfl] at hold
    cases hold
    exact ⟨rfl, _, hL, by rw [sigAt_cons (getKeyValue_makeKeyValue hmake), if_pos rfl]⟩
  | other hget hne hrest ih =>
    rw [sigAt_cons hget, if_neg hne] at hold
    rw [sigAt_cons hget, if_neg hne]
    exact ih hold

theorem MergeEntry.sigAt_of_ne (h : MergeEntry L newKey newSig elems elems' found)
    (hne : key ≠ newKey) : sigAt elems' key = sigAt elems key := by
  induction h with
  | nil => rfl
  | same hget hL hmake =>
    rw [sigAt_cons hget, sigAt_cons (getKeyValue_makeKeyValue hmake), if_neg hne, if_neg hne]
  | other hget hnext hrest ih => rw [sigAt_cons hget, sigAt_cons hget, ih]

theorem MergeEntries.sigAt_of_not_mem (h : MergeEntries L srv news elems res)
    (hnot : sigAt news key = none) (hold : sigAt elems key = some t) : sigAt res key = some t := by
  induction h with
  | nil => exact hold
  | cons hnew hentry hrest ih =>
    rw [sigAt_cons hnew] at hnot
    split at hnot
    · cases hnot
    · next hne =>
      have hkept := (hentry.sigAt_of_ne hne).trans hold
      apply ih hnot
      split
      · exact hkept
      · rw [sigAt_concat hnew, hkept]
        rfl

/-- What `MergeEntries` does under a key that the replica has once. -/
theorem MergeEntries.sigAt_of_mem (h : MergeEntries L srv news elems res)
    (hnodup : ((news.filterMap getKeyValue).map Prod.fst).Nodup)
    (hmem : sigAt news key = some s) (hold : sigAt elems key = some t) :
    ∃ r, L t s r ∧ sigAt res key = some r := by
  induction h with
  | nil => cases hmem
  | cons hnew hentry hrest ih =>
    rw [sigAt_cons hnew] at hmem
    rw [List.filterMap_cons_some hnew, List.map_cons, List.nodup_cons] at hnodup
    split at hmem
    · next heq =>
      subst heq
      cases hmem
      obtain ⟨hfound, r, hL, hr⟩ := hentry.sigAt_self hold
      rw [if_pos (.inl hfound)] at hrest
      exact ⟨r, hL, hrest.sigAt_of_not_mem (lookup_eq_none.2 hnodup.1) hr⟩
    · next hne =>
      have hkept := (hentry.sigAt_of_ne hne).trans hold
      apply ih hnodup.2 hmem
      split
      · exact hkept
      · rw [sigAt_concat hnew, hkept]
        rfl

theorem MergeEntry.imp (h : MergeEntry L newKey newSig elems elems' found)
    (hL : ∀ t r, sigAt elems newKey = some t → L t newSig r → L' t newSig r) :
    MergeEntry L' newKey newSig elems elems' found := by
  induction h with
  | nil => exact .nil
  | same hget hlcm hmake =>
    refine .same hget (hL _ _ ?_ hlcm) hmake
    rw [sigAt_cons hget, if_pos rfl]
  | other hget hne hrest ih =>
    refine .other hget hne (ih fun t r ht => hL t r ?_)
    rwa [sigAt_cons hget, if_neg hne]

theorem MergeEntries.imp (h : MergeEntries L srv news elems res)
    (hnodup : ((news.filterMap getKeyValue).map Prod.fst).Nodup)
    (hL : ∀ key t s r, sigAt elems key = some t → sigAt news key = some s → L t s r → L' t s r) :
    MergeEntries L' srv news elems res := by
  induction h with
  | nil => exact .nil
  | @cons new newKey newSig elems elems' found news res hnew hentry hrest ih =>
    rw [List.filterMap_cons_some hnew, List.map_cons, List.nodup_cons] at hnodup
    refine .cons hnew (hentry.imp fun t r ht => hL newKey t newSig r ht ?_) (ih hnodup.2 ?_)
    · rw [sigAt_cons hnew, if_pos rfl]
    · intro key t s r ht hs
      have hne : key ≠ newKey := by
        rintro rfl
        rw [sigAt, lookup_eq_none.2 hnodup.1] at hs
        cases hs
      apply hL key t s r
      · rw [← hentry.sigAt_of_ne hne]
        split at ht
        · exact ht
        · rwa [sigAt_concat hnew, if_neg hne, Option.or_none] at ht
      · rwa [sigAt_cons hnew, if_neg hne]

end Entries

section Replicas

variable {L L' : Sig → Sig → Sig → Prop} {srv : Server}

/-- The replica `m` of a node is merged into the replica `n`, and the merged node has an interval
around both replicas' intervals under every key that both have. -/
def MergeCovers (n m : StoredNode srv) : Prop :=
  ∃ r : StoredNode srv, MergeReplica Words.Lcm srv m.block n.block r.block ∧
    ∀ key t s, (key, t) ∈ n.entries → (key, s) ∈ m.entries →
      ∃ sig, (key, sig) ∈ r.entries ∧ Covers sig t s

def StoredNode.IsValue (n : StoredNode srv) : Prop := ∀ e ∈ n.entries, IsRange e.2

instance (n : StoredNode srv) : Decidable n.IsValue :=
  inferInstanceAs (Decidable (∀ e ∈ n.entries, IsRange e.2))

theorem StoredNode.sigAt_block (n : StoredNode srv) {key : Key} :
    sigAt (n.entries.map elemBytes) key = some sig ↔ (key, sig) ∈ n.entries := by
  rw [sigAt, filterMap_elemBytes n.entry_fits]
  exact lookup_eq_some n.nodup

theorem StoredNode.nodup_block (n : StoredNode srv) :
    (((n.entries.map elemBytes).filterMap getKeyValue).map Prod.fst).Nodup := by
  rw [filterMap_elemBytes n.entry_fits]
  exact n.nodup

theorem MergeReplica.imp {n m : StoredNode srv} (heqv : m.int.eqv n.int)
    (hmerge : MergeReplica L srv m.block n.block res)
    (hL : ∀ key t s r, (key, t) ∈ n.entries → (key, s) ∈ m.entries → L t s r → L' t s r) :
    MergeReplica L' srv m.block n.block res := by
  obtain ⟨merged, hentries, hres⟩ := (mergeReplica_block heqv).1 hmerge
  refine (mergeReplica_block heqv).2 ⟨merged, hentries.imp m.nodup_block ?_, hres⟩
  intro key t s r ht hs
  exact hL key t s r (n.sigAt_block.1 ht) (m.sigAt_block.1 hs)

theorem lcm_of_mergeReplica {n m r : StoredNode srv} (heqv : m.int.eqv n.int)
    (hmerge : MergeReplica L srv m.block n.block r.block) (ht : (key, t) ∈ n.entries)
    (hs : (key, s) ∈ m.entries) : ∃ sig, L t s sig ∧ (key, sig) ∈ r.entries := by
  obtain ⟨merged, hentries, hres⟩ := (mergeReplica_block heqv).1 hmerge
  obtain ⟨-, rfl⟩ := List.cons.inj hres
  obtain ⟨sig, hL, hsig⟩ := hentries.sigAt_of_mem m.nodup_block (m.sigAt_block.2 hs) (n.sigAt_block.2 ht)
  exact ⟨sig, hL, r.sigAt_block.1 hsig⟩

theorem same_of_mergeCovers {n m : StoredNode srv} (hn : n.IsValue) (hm : m.IsValue)
    (heqv : m.int.eqv n.int) (h : MergeCovers n m) (ht : (key, t) ∈ n.entries)
    (hs : (key, s) ∈ m.entries) : t = s ∧ (lowOf t ≠ 0 ∨ highOf t = 0) := by
  obtain ⟨r, hmerge, hcov⟩ := h
  obtain ⟨sig, hlcm, hsig⟩ := lcm_of_mergeReplica heqv hmerge ht hs
  obtain ⟨sig', hsig', hcov⟩ := hcov key t s ht hs
  have heq : sig' = sig := by
    have hlookup := (lookup_eq_some r.nodup).2 hsig
    rw [(lookup_eq_some r.nodup).2 hsig'] at hlookup
    exact Option.some.inj hlookup
  subst heq
  exact eq_of_lcm_covers (hn _ ht) (hm _ hs) hlcm hcov

/-- Merging two replicas of a value node keeps the intervals covered exactly if they agree under
the keys that both have, and do not begin at 0 there, or are 0. -/
theorem mergeCovers_iff {n m : StoredNode srv} (hn : n.IsValue) (hm : m.IsValue)
    (heqv : m.int.eqv n.int) : MergeCovers n m ↔
      ∀ key t s, (key, t) ∈ n.entries → (key, s) ∈ m.entries →
        t = s ∧ (lowOf t ≠ 0 ∨ highOf t = 0) := by
  constructor
  · intro h key t s ht hs
    exact same_of_mergeCovers hn hm heqv h ht hs
  · intro h
    have hlcm : ∀ key t s, (key, t) ∈ n.entries → (key, s) ∈ m.entries →
        lcm t s = t ∧ Words.Lcm t s t := by
      intro key t s ht hs
      obtain ⟨rfl, hlow⟩ := h key t s ht hs
      exact lcm_same (hn _ ht) hlow
    have hfit : FitTogether m.entries n.entries := by
      rintro ⟨key, t⟩ ht ⟨_, s⟩ hs rfl
      rw [(hlcm key t s ht hs).1]
      exact n.entry_fits _ ht
    have hmerge := (adjustReplica_eq_some heqv).1 (adjustReplica_merge heqv hfit)
    refine ⟨n.merge m hfit, hmerge.imp heqv ?_, ?_⟩
    · rintro key t s r ht hs rfl
      rw [(hlcm key t s ht hs).1]
      exact (hlcm key t s ht hs).2
    · intro key t s ht hs
      obtain ⟨sig, rfl, hsig⟩ := lcm_of_mergeReplica heqv hmerge ht hs
      obtain ⟨rfl, -⟩ := h key t s ht hs
      rw [(hlcm key t t ht hs).1] at hsig
      exact ⟨t, hsig, hn _ ht, .refl t, .refl t⟩

def valueLeaf (sig : Sig) (hfit : Fits ([97, 35], sig)) : StoredNode twoServer where
  key := [75]
  int := ⟨0, 1, 1, 2, 0, 7⟩
  entries := [([97, 35], sig)]
  nodup := List.nodup_singleton _
  length_le := Nat.le_succ 1
  header_fits := by decide
  entry_fits := by simpa using hfit

def twoValues : StoredNode twoServer where
  key := [75]
  int := ⟨0, 1, 1, 2, 0, 8⟩
  entries := [([98, 35], [5, 7]), ([97, 35], [3, 9])]
  nodup := by decide
  length_le := by decide
  header_fits := by decide
  entry_fits := by decide

theorem valueLeaf_isValue (hfit : Fits ([97, 35], sig)) (h : IsRange sig) :
    (valueLeaf sig hfit).IsValue := by
  intro e he
  obtain rfl := List.mem_singleton.1 he
  exact h

theorem mergeCovers_twoValues : MergeCovers (valueLeaf [3, 9] (by decide)) twoValues := by
  refine (mergeCovers_iff (valueLeaf_isValue _ (by decide)) (by decide) (by decide)).2 ?_
  intro key t s ht hs
  obtain ⟨rfl, rfl⟩ := Prod.mk.inj (List.mem_singleton.1 ht)
  rcases List.mem_cons.1 hs with heq | hs
  · cases heq
  · cases List.mem_singleton.1 hs
    exact ⟨rfl, by decide⟩

/-- Of `[3, 9]` and `[5, 7]` the merge makes `[15, 36, 63]`, where a message with the value would
leave `[3, 9]`. -/
theorem merge_loses_interval :
    MergeReplica Words.Lcm twoServer (valueLeaf [5, 7] (by decide)).block
      (valueLeaf [3, 9] (by decide)).block (valueLeaf [15, 36, 63] (by decide)).block ∧
    Covers (updatedSig .UPDATEVAL [3, 9] [5, 7]) [3, 9] [5, 7] ∧
    ¬ ∀ (srv : Server) (n m : StoredNode srv), n.IsValue → m.IsValue → m.int.eqv n.int →
      MergeCovers n m := by
  refine ⟨?_, by decide, ?_⟩
  · have hmerge : adjustReplica twoServer (valueLeaf [5, 7] (by decide)).block
        (valueLeaf [3, 9] (by decide)).block =
          some ((valueLeaf [15, 36, 63] (by decide)).block, .DHASH_OK) := by decide +kernel
    refine ((adjustReplica_eq_some (by decide)).1 hmerge).imp (by decide) ?_
    intro key t s r ht hs hr
    cases List.mem_singleton.1 ht
    cases List.mem_singleton.1 hs
    rw [hr]
    exact Words.lcm_returns (by decide) (by decide) (by decide) (by decide)
  · intro h
    have hcov := h twoServer (valueLeaf [3, 9] (by decide)) (valueLeaf [5, 7] (by decide))
      (valueLeaf_isValue _ (by decide)) (valueLeaf_isValue _ (by decide)) (by decide)
    have hsame := same_of_mergeCovers (valueLeaf_isValue _ (by decide))
      (valueLeaf_isValue _ (by decide)) (by decide) hcov List.mem_cons_self List.mem_cons_self
    exact absurd hsame.1 (by decide)

end Replicas

end XGossip
