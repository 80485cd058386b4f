import XGossip.Index.Node
import XGossip.Index.Retry

namespace XGossip
set_option autoImplicit true

open Codec Gf2

abbrev Fits (e : Key × Sig) : Prop := (elemBytes e).length < 2 ^ 31

section Merge

variable {srv : Server}

/-- The entries after one entry of a replica has been merged into them. -/
def takeIn (srv : Server) (entries : List (Key × Sig)) (e : Key × Sig) : List (Key × Sig) :=
  if e.1 ∈ entries.map Prod.fst then entries.map (updateEntry .UPDATE e.1 e.2)
  else if entries.length + 1 > srv.MAXENTRIES then entries
  else entries ++ [e]

/-- Two lists of entries whose common keys have a common multiple that fits into a string. -/
def FitTogether (news entries : List (Key × Sig)) : Prop :=
  ∀ e ∈ entries, ∀ e' ∈ news, e.1 = e'.1 → Fits (e.1, lcm e.2 e'.2)

theorem updatedSig_UPDATE (s t : Sig) : updatedSig .UPDATE s t = lcm s t := rfl

theorem updateEntry_of_ne (h : e.1 ≠ key) : updateEntry type key sig e = e := if_neg h

theorem map_updateEntry_of_not_mem {entries : List (Key × Sig)}
    (h : key ∉ entries.map Prod.fst) : entries.map (updateEntry type key sig) = entries := by
  refine Eq.trans (List.map_congr_left ?_) (List.map_id entries)
  intro e he
  apply updateEntry_of_ne
  rintro rfl
  exact h (List.mem_map_of_mem he)

theorem mergeEntry_elemBytes {entries : List (Key × Sig)} (hes : ∀ e ∈ entries, Fits e)
    (hnodup : (entries.map Prod.fst).Nodup)
    (hfit : ∀ e ∈ entries, e.1 = key → Fits (e.1, lcm e.2 sig)) :
    mergeEntry key sig (entries.map elemBytes) =
      some ((entries.map (updateEntry .UPDATE key sig)).map elemBytes,
        decide (key ∈ entries.map Prod.fst)) := by
  induction entries with
  | nil => rfl
  | cons e entries ih =>
    obtain ⟨hnot, hnodup'⟩ := List.nodup_cons.1 hnodup
    have ih' := ih (fun e he => hes e (List.mem_cons_of_mem _ he)) hnodup'
      fun e he => hfit e (List.mem_cons_of_mem _ he)
    simp only [List.map_cons, mergeEntry, getKeyValue_elemBytes (hes e List.mem_cons_self),
      Option.bind_eq_bind, Option.bind_some]
    split
    · next hk =>
      subst hk
      rw [makeKeyValue_NONE, alloc, if_pos (hfit e List.mem_cons_self rfl),
        map_updateEntry_of_not_mem hnot]
      simp [updateEntry, updatedSig_UPDATE]
    · next hk =>
      rw [ih', updateEntry_of_ne (Ne.symm hk)]
      simp [hk]

theorem takeIn_keys (srv : Server) (entries : List (Key × Sig)) (e : Key × Sig) :
    (takeIn srv entries e).map Prod.fst = entries.map Prod.fst ∨
      (e.1 ∉ entries.map Prod.fst ∧ entries.length + 1 ≤ srv.MAXENTRIES ∧
        takeIn srv entries e = entries ++ [e]) := by
  rw [takeIn]
  split
  · exact .inl (keys_map_updateEntry entries)
  · next hnot =>
    split
    · exact .inl rfl
    · next hlen => exact .inr ⟨hnot, by omega, rfl⟩

theorem takeIn_nodup (h : (entries.map Prod.fst).Nodup) (e : Key × Sig) :
    ((takeIn srv entries e).map Prod.fst).Nodup := by
  rcases takeIn_keys srv entries e with hk | ⟨hnot, -, ht⟩
  · rwa [hk]
  · rw [ht, List.map_append]
    exact List.nodup_append.2 ⟨h, List.nodup_singleton _, by
      intro a ha b hb hab
      rw [List.map_singleton, List.mem_singleton] at hb
      exact hnot (hb ▸ hab ▸ ha)⟩

theorem takeIn_length_le (h : entries.length ≤ srv.MAXENTRIES) (e : Key × Sig) :
    (takeIn srv entries e).length ≤ srv.MAXENTRIES := by
  rcases takeIn_keys srv entries e with hk | ⟨-, hlen, ht⟩
  · have hl := congrArg List.length hk
    simp only [List.length_map] at hl
    omega
  · rw [ht, List.length_append]
    exact hlen

theorem mem_takeIn (h : x ∈ takeIn srv entries e) :
    (x ∈ entries ∧ x.1 ≠ e.1) ∨ (∃ y ∈ entries, y.1 = e.1 ∧ x = (y.1, lcm y.2 e.2)) ∨ x = e := by
  have hkept : ∀ {y : Key × Sig}, e.1 ∉ entries.map Prod.fst → y ∈ entries → y.1 ≠ e.1 :=
    fun hnot hy hk => hnot (hk ▸ List.mem_map_of_mem hy)
  rw [takeIn] at h
  split at h
  · obtain ⟨y, hy, rfl⟩ := List.mem_map.1 h
    by_cases hk : y.1 = e.1
    · exact .inr (.inl ⟨y, hy, hk, by rw [updateEntry, if_pos hk, updatedSig_UPDATE]⟩)
    · rw [updateEntry_of_ne hk]
      exact .inl ⟨hy, hk⟩
  · next hnot =>
    split at h
    · exact .inl ⟨h, hkept hnot h⟩
    · rcases List.mem_append.1 h with hx | hx
      · exact .inl ⟨hx, hkept hnot hx⟩
      · exact .inr (.inr (List.mem_singleton.1 hx))

theorem FitTogether.tail (h : FitTogether (e :: news) entries) (he : e.1 ∉ news.map Prod.fst) :
    FitTogether news (takeIn srv entries e) := by
  have hne : ∀ e' ∈ news, e.1 ≠ e'.1 := fun e' he' hk => he (hk ▸ List.mem_map_of_mem he')
  intro x hx e' he' hk
  rcases mem_takeIn hx with ⟨hx, -⟩ | ⟨y, -, hy, rfl⟩ | rfl
  · exact h x hx e' (List.mem_cons_of_mem _ he') hk
  · exact (hne e' he' (hy.symm.trans hk)).elim
  · exact (hne e' he' hk).elim

theorem takeIn_fits (h : FitTogether (e :: news) entries) (hes : ∀ x ∈ entries, Fits x)
    (he : Fits e) : ∀ x ∈ takeIn srv entries e, Fits x := by
  intro x hx
  rcases mem_takeIn hx with ⟨hx, -⟩ | ⟨y, hy, hk, rfl⟩ | rfl
  · exact hes x hx
  · exact h y hy e List.mem_cons_self hk
  · exact he

theorem mergeEntries_cons (he : Fits e) (hes : ∀ e ∈ entries, Fits e)
    (hentries : (entries.map Prod.fst).Nodup)
    (hfit : ∀ x ∈ entries, x.1 = e.1 → Fits (x.1, lcm x.2 e.2)) (news : List (Key × Sig)) :
    mergeEntries srv ((e :: news).map elemBytes) (entries.map elemBytes) =
      mergeEntries srv (news.map elemBytes) ((takeIn srv entries e).map elemBytes) := by
  have hmerge : mergeEntry e.1 e.2 (entries.map elemBytes) =
      some ((entries.map (updateEntry .UPDATE e.1 e.2)).map elemBytes,
        decide (e.1 ∈ entries.map Prod.fst)) := mergeEntry_elemBytes hes hentries hfit
  rw [List.map_cons, mergeEntries]
  simp only [getKeyValue_elemBytes he, hmerge, Option.bind_eq_bind, Option.bind_some]
  congr 1
  rw [takeIn]
  by_cases hk : e.1 ∈ entries.map Prod.fst
  · simp [hk]
  · rw [map_updateEntry_of_not_mem hk]
    simp only [hk, decide_false, Bool.false_eq_true, false_or, List.length_map, if_false]
    split
    · rfl
    · rw [List.map_append, List.map_singleton]

theorem mergeEntries_elemBytes (hns : ∀ e ∈ news, Fits e) (hnews : (news.map Prod.fst).Nodup)
    (hes : ∀ e ∈ entries, Fits e) (hentries : (entries.map Prod.fst).Nodup)
    (hfit : FitTogether news entries) :
    mergeEntries srv (news.map elemBytes) (entries.map elemBytes) =
      some ((news.foldl (takeIn srv) entries).map elemBytes) := by
  induction news generalizing entries with
  | nil => rfl
  | cons e news ih =>
    obtain ⟨hnot, hnews'⟩ := List.nodup_cons.1 hnews
    have he := hns e List.mem_cons_self
    rw [mergeEntries_cons he hes hentries fun x hx => hfit x hx e List.mem_cons_self,
      List.foldl_cons]
    exact ih (fun x hx => hns x (List.mem_cons_of_mem _ hx)) hnews' (takeIn_fits hfit hes he)
      (takeIn_nodup hentries e) (hfit.tail hnot)

theorem fits_of_mergeEntry {entries : List (Key × Sig)} (hes : ∀ e ∈ entries, Fits e)
    (hnodup : (entries.map Prod.fst).Nodup)
    (h : mergeEntry key sig (entries.map elemBytes) = some r) :
    ∀ e ∈ entries, e.1 = key → Fits (e.1, lcm e.2 sig) := by
  induction entries generalizing r with
  | nil => simp
  | cons e entries ih =>
    obtain ⟨hnot, hnodup'⟩ := List.nodup_cons.1 hnodup
    simp only [List.map_cons, mergeEntry, getKeyValue_elemBytes (hes e List.mem_cons_self),
      Option.bind_eq_bind, Option.bind_some] at h
    intro x hx hk
    split at h
    · next heq =>
      obtain ⟨elem, helem, -⟩ := Option.bind_eq_some_iff.1 h
      rcases List.mem_cons.1 hx with rfl | hx
      · exact (alloc_eq_some helem).2
      · exact (hnot (heq ▸ hk ▸ List.mem_map_of_mem hx)).elim
    · next hne =>
      obtain ⟨r', hr', -⟩ := Option.bind_eq_some_iff.1 h
      rcases List.mem_cons.1 hx with rfl | hx
      · exact (hne hk.symm).elim
      · exact ih (fun e he => hes e (List.mem_cons_of_mem _ he)) hnodup' hr' x hx hk

theorem mem_takeIn_of_ne (hx : x ∈ entries) (hk : x.1 ≠ e.1) : x ∈ takeIn srv entries e := by
  rw [takeIn]
  split
  · rw [← updateEntry_of_ne hk]
    exact List.mem_map_of_mem hx
  · split
    · exact hx
    · exact List.mem_append_left _ hx

/-- The loop only comes to its end if all common multiples fit. -/
theorem fitTogether_of_mergeEntries (hns : ∀ e ∈ news, Fits e) (hnews : (news.map Prod.fst).Nodup)
    (hes : ∀ e ∈ entries, Fits e) (hentries : (entries.map Prod.fst).Nodup)
    (h : mergeEntries srv (news.map elemBytes) (entries.map elemBytes) = some r) :
    FitTogether news entries := by
  induction news generalizing entries with
  | nil => exact fun _ _ _ he' => absurd he' (List.not_mem_nil)
  | cons e news ih =>
    obtain ⟨hnot, hnews'⟩ := List.nodup_cons.1 hnews
    have he := hns e List.mem_cons_self
    have hhead : ∀ x ∈ entries, x.1 = e.1 → Fits (x.1, lcm x.2 e.2) := by
      rw [List.map_cons, mergeEntries] at h
      simp only [getKeyValue_elemBytes he, Option.bind_eq_bind, Option.bind_some] at h
      obtain ⟨r', hr', -⟩ := Option.bind_eq_some_iff.1 h
      exact fits_of_mergeEntry hes hentries hr'
    have hsingle : FitTogether [e] entries := by
      intro x hx e' he' hk
      obtain rfl := List.mem_singleton.1 he'
      exact hhead x hx hk
    rw [mergeEntries_cons he hes hentries hhead] at h
    have htail := ih (fun x hx => hns x (List.mem_cons_of_mem _ hx)) hnews'
      (takeIn_fits hsingle hes he) (takeIn_nodup hentries e) h
    intro x hx e' he' hk
    rcases List.mem_cons.1 he' with rfl | he'
    · exact hhead x hx hk
    · apply htail x _ e' he' hk
      exact mem_takeIn_of_ne hx fun hne => hnot (hne ▸ hk ▸ List.mem_map_of_mem he')

theorem foldl_takeIn_nodup (h : (entries.map Prod.fst).Nodup) (news : List (Key × Sig)) :
    ((news.foldl (takeIn srv) entries).map Prod.fst).Nodup := by
  induction news generalizing entries with
  | nil => exact h
  | cons e news ih => exact ih (takeIn_nodup h e)

theorem foldl_takeIn_length_le (h : entries.length ≤ srv.MAXENTRIES) (news : List (Key × Sig)) :
    (news.foldl (takeIn srv) entries).length ≤ srv.MAXENTRIES := by
  induction news generalizing entries with
  | nil => exact h
  | cons e news ih => exact ih (takeIn_length_le h e)

theorem foldl_takeIn_fits (hns : ∀ e ∈ news, Fits e) (hnews : (news.map Prod.fst).Nodup)
    (hes : ∀ e ∈ entries, Fits e) (hfit : FitTogether news entries) :
    ∀ e ∈ news.foldl (takeIn srv) entries, Fits e := by
  induction news generalizing entries with
  | nil => exact hes
  | cons e news ih =>
    obtain ⟨hnot, hnews'⟩ := List.nodup_cons.1 hnews
    exact ih (fun x hx => hns x (List.mem_cons_of_mem _ hx)) hnews'
      (takeIn_fits hfit hes (hns e List.mem_cons_self)) (hfit.tail hnot)

end Merge

section Replica

variable {srv : Server}

/-- A node after the entries of a replica have been merged into it. -/
def StoredNode.merge (n m : StoredNode srv) (hfit : FitTogether m.entries n.entries) :
    StoredNode srv where
  key := n.key
  int := n.int
  entries := m.entries.foldl (takeIn srv) n.entries
  nodup := foldl_takeIn_nodup n.nodup m.entries
  length_le := foldl_takeIn_length_le n.length_le m.entries
  header_fits := n.header_fits
  entry_fits := foldl_takeIn_fits m.entry_fits m.nodup n.entry_fits hfit

/-- The right end of an interval is to the left of the other one's. -/
def Interval.narrower (new curr : Interval) : Bool :=
  (new.rn * curr.rd).toInt < (new.rd * curr.rn).toInt

def Interval.newer (new curr : Interval) : Bool :=
  (new.narrower curr ∧ new.level = curr.level) ∨ new.level.toInt > curr.level.toInt

theorem adjustReplica_stored (m n : StoredNode srv) :
    adjustReplica srv m.block n.block =
      if m.int.eqv n.int then
        (mergeEntries srv (m.entries.map elemBytes) (n.entries.map elemBytes)).map
          fun elems => (headerBytes n.key n.int :: elems, .DHASH_OK)
      else if m.int.newer n.int then some (m.block, .DHASH_OK) else none := by
  simp only [StoredNode.block, adjustReplica, List.head?_cons, List.tail_cons,
    getHeaderElem_headerBytes n.header_fits, getHeaderElem_headerBytes m.header_fits,
    Option.bind_eq_bind, Option.bind_some]
  split
  · rw [Option.map_eq_bind]
    rfl
  · simp only [Interval.newer, Interval.narrower, decide_eq_true_eq, Option.pure_def]
    split
    · next h => rw [if_pos (.inl h)]
    · next h =>
      split
      · next h' => rw [if_pos (.inr h')]
      · next h' => rw [if_neg (not_or.2 ⟨h, h'⟩)]

theorem adjustReplica_merge {m n : StoredNode srv} (h : m.int.eqv n.int)
    (hfit : FitTogether m.entries n.entries) :
    adjustReplica srv m.block n.block = some ((n.merge m hfit).block, .DHASH_OK) := by
  rw [adjustReplica_stored, if_pos h,
    mergeEntries_elemBytes m.entry_fits m.nodup n.entry_fits n.nodup hfit]
  rfl

theorem adjustReplica_outgrown {m n : StoredNode srv} (h : m.int.eqv n.int)
    (hfit : ¬ FitTogether m.entries n.entries) : adjustReplica srv m.block n.block = none := by
  rw [adjustReplica_stored, if_pos h, Option.map_eq_none_iff]
  cases hr : mergeEntries srv (m.entries.map elemBytes) (n.entries.map elemBytes) with
  | none => rfl
  | some elems =>
    exact (hfit (fitTogether_of_mergeEntries m.entry_fits m.nodup n.entry_fits n.nodup hr)).elim

theorem sizeInt_ne_code (h : n < 2 ^ 31) (type : InsertType) : sizeInt n ≠ type.code := by
  have hneg : type.code.toInt < 0 := by
    cases type <;> decide
  intro heq
  rw [← heq, sizeInt_toInt h] at hneg
  omega

theorem runReader_headerBytes (n : StoredNode srv) :
    ∃ reads, runReader getInt (headerBytes n.key n.int) = some (sizeInt n.key.length, reads) ∧
      n.key.length < 2 ^ 31 := by
  have hlen := n.header_fits
  rw [length_headerBytes] at hlen
  have hread := run_append (getInt_parses (sizeInt n.key.length))
    (n.key ++ strBytes (intervalBytes n.int))
  obtain ⟨r, hr, hr₁⟩ := Option.map_eq_some_iff.1 hread
  refine ⟨r.2, ?_, by omega⟩
  rw [headerBytes, strBytes, List.append_assoc, hr, ← hr₁]

theorem sizeInt_not_gossip (h : n < 2 ^ 31) : sizeInt n ∉ gossipTypes.map InsertType.code := by
  intro hmem
  obtain ⟨type, -, heq⟩ := List.mem_map.1 hmem
  exact sizeInt_ne_code h type heq.symm

theorem adjustData_replica {m : StoredNode srv} (hm : m.entries ≠ []) (old : Block) :
    adjustData srv m.block old = adjustReplica srv m.block old := by
  obtain ⟨reads, hread, hlen⟩ := runReader_headerBytes m
  have hlong : m.block.length > 1 := by
    have := List.length_pos_iff.2 hm
    simp only [StoredNode.block, List.length_cons, List.length_map]
    omega
  have hhead : m.block.head? = some (headerBytes m.key m.int) := rfl
  simp only [adjustData, hhead, hread, Option.bind_eq_bind, Option.bind_some,
    if_neg (sizeInt_not_gossip hlen), if_pos hlong]

theorem adjustData_header_only {m : StoredNode srv} (hm : m.entries = []) (old : Block) :
    adjustData srv m.block old =
      if m.key = [] then some (old, .DHASH_OK)
      else if old.length > srv.MAXENTRIES then some (old, .DHASH_FULL)
      else some (old ++ m.block, .DHASH_OK) := by
  obtain ⟨reads, hread, hlen⟩ := runReader_headerBytes m
  have hblock : m.block = [headerBytes m.key m.int] := by
    rw [StoredNode.block, hm, List.map_nil]
  have hpos : (sizeInt m.key.length).toInt > 0 ↔ m.key ≠ [] := by
    rw [sizeInt_toInt hlen, ← List.length_pos_iff]
    omega
  simp only [hblock, adjustData, List.head?_cons, hread, Option.bind_eq_bind, Option.bind_some,
    if_neg (sizeInt_not_gossip hlen), adjustNode, sizeInt_ne_code hlen, if_false, hpos,
    List.length_singleton, gt_iff_lt, Nat.lt_irrefl]
  by_cases hk : m.key = []
  · simp [hk]
  · simp [hk]

end Replica

section Messages

variable {srv : Server}

/-- The messages and the replicas that a server receives for an index node. -/
inductive StoreMsg (srv : Server) where
  | update (type : InsertType) (key : Key) (sig : Sig) (ht : type ∈ updateTypes)
  | header (type : InsertType) (key : Key) (int : Interval)
      (ht : type ∈ [InsertType.UPDATEHDRLOCK, .UPDATEHDR])
  | split (items : List (Key × Sig)) (nodup : (items.map Prod.fst).Nodup)
      (length_le : items.length ≤ srv.MAXENTRIES)
  | replica (n : StoredNode srv) (ne_nil : n.entries ≠ [])

/-- The payload of a split message that is made from a list of entries. -/
def makeItems (items : List (Key × Sig)) (type : InsertType) : Option (List Byte) := do
  let elems ← items.mapM fun e => makeKeyValue e.1 e.2 .NONE
  alloc (intBytes type.code ++ elems.flatMap strBytes)

def StoreMsg.elems : StoreMsg srv → Option Block
  | update type key sig _ => do return [← makeKeyValue key sig type]
  | header type key int _ => do return [← makeHeaderMsg key int type]
  | split items _ _ => do return [← makeItems items .SPLIT]
  | replica n _ => some n.block

def StoreMsg.Asserts : StoreMsg srv → Option (StoredNode srv) → Prop
  | replica m _, some n => ¬ m.int.eqv n.int ∧ ¬ m.int.newer n.int
  | _, _ => False

def StoreMsg.Outgrows : StoreMsg srv → Option (StoredNode srv) → Prop
  | update type key sig _, some n =>
    ∃ e ∈ n.entries, e.1 = key ∧ ¬ Fits (e.1, updatedSig type e.2 sig)
  | replica m _, some n => m.int.eqv n.int ∧ ¬ FitTogether m.entries n.entries
  | _, _ => False

theorem mapM_updateElem {entries : List (Key × Sig)} (hes : ∀ e ∈ entries, Fits e)
    (hfit : ∀ e ∈ entries, e.1 = key → Fits (e.1, updatedSig type e.2 sig)) :
    (entries.map elemBytes).mapM (updateElem type key sig) =
      some (entries.map fun e => (elemBytes (updateEntry type key sig e), decide (e.1 = key))) := by
  induction entries with
  | nil => rfl
  | cons e entries ih =>
    have ih' := ih (fun e he => hes e (List.mem_cons_of_mem _ he))
      fun e he => hfit e (List.mem_cons_of_mem _ he)
    rw [List.map_cons, List.mapM_cons, ih', updateElem_elemBytes (hes e List.mem_cons_self)]
    split
    · next hk =>
      rw [alloc, if_pos (hfit e List.mem_cons_self hk)]
      simp [updateEntry, hk]
    · next hk => simp [updateEntry, hk]

theorem fits_of_mapM_updateElem {entries : List (Key × Sig)} (hes : ∀ e ∈ entries, Fits e)
    (h : (entries.map elemBytes).mapM (updateElem type key sig) = some rs) :
    ∀ e ∈ entries, e.1 = key → Fits (e.1, updatedSig type e.2 sig) := by
  induction entries generalizing rs with
  | nil => simp
  | cons e entries ih =>
    simp only [List.map_cons, List.mapM_cons, Option.bind_eq_bind, Option.bind_eq_some_iff,
      updateElem_elemBytes (hes e List.mem_cons_self)] at h
    obtain ⟨r, hr, rs', hrs', -⟩ := h
    intro x hx hk
    rcases List.mem_cons.1 hx with rfl | hx
    · rw [if_pos hk, Option.map_eq_some_iff] at hr
      obtain ⟨elem, helem, -⟩ := hr
      exact (alloc_eq_some helem).2
    · exact ih (fun e he => hes e (List.mem_cons_of_mem _ he)) hrs' x hx hk

/-- What an update does to a node if the new signature fits. -/
theorem adjustUpdate_eq {n : StoredNode srv} (hk : Fits (key, sig))
    (hfit : ∀ e ∈ n.entries, e.1 = key → Fits (e.1, updatedSig type e.2 sig)) :
    adjustUpdate srv type (elemBytes (key, sig)) n.block = some (
      if n.int.level.toInt > 0 ∧ containsHash key then (n.block, .DHASH_RETRYINSERT)
      else if n.int.level = 0 ∧ containsHash key ∧ n.int.random = -1 then
        (n.block, .DHASH_RETRYINSERT)
      else if key ∈ n.entries.map Prod.fst then
        (headerBytes n.key n.int :: (n.entries.map (updateEntry type key sig)).map elemBytes,
          .DHASH_OK)
      else if type = .UPDATEIFPRESENT then (n.block, .DHASH_OK)
      else if n.entries.length + 1 > srv.MAXENTRIES then (n.block, .DHASH_FULL)
      else (headerBytes n.key n.int :: (n.entries ++ [(key, sig)]).map elemBytes, .DHASH_OK)) := by
  have hfst : (n.entries.map fun e => (elemBytes (updateEntry type key sig e),
      decide (e.1 = key))).map Prod.fst =
        (n.entries.map (updateEntry type key sig)).map elemBytes := by
    simp
  have hany : (n.entries.map fun e => (elemBytes (updateEntry type key sig e),
      decide (e.1 = key))).any Prod.snd = decide (key ∈ n.entries.map Prod.fst) := by
    rw [Bool.eq_iff_iff]
    simp only [List.any_map, List.any_eq_true, Function.comp_apply, decide_eq_true_eq,
      List.mem_map]
  simp only [StoredNode.block, adjustUpdate, getKeyValue_elemBytes hk,
    getHeaderElem_headerBytes n.header_fits, Option.bind_eq_bind, Option.bind_some,
    mapM_updateElem n.entry_fits hfit, hfst, hany, decide_eq_true_eq, Option.pure_def,
    List.length_map]
  split
  · rfl
  · split
    · rfl
    · split
      · rfl
      · next hnot =>
        rw [map_updateEntry_of_not_mem hnot]
        split
        · rfl
        · split
          · rfl
          · rw [List.map_append, List.cons_append]
            rfl

theorem updateEntry_fits {entries : List (Key × Sig)} (hes : ∀ e ∈ entries, Fits e)
    (hfit : ∀ e ∈ entries, e.1 = key → Fits (e.1, updatedSig type e.2 sig)) :
    ∀ e ∈ entries.map (updateEntry type key sig), Fits e := by
  intro e he
  obtain ⟨e, hmem, rfl⟩ := List.mem_map.1 he
  rw [updateEntry]
  split
  · next heq => exact hfit e hmem heq
  · exact hes e hmem

theorem adjustUpdate_stored {n : StoredNode srv} (hk : Fits (key, sig))
    (hfit : ∀ e ∈ n.entries, e.1 = key → Fits (e.1, updatedSig type e.2 sig)) :
    ∃ (n' : StoredNode srv) (stat : DhashStat),
      adjustUpdate srv type (elemBytes (key, sig)) n.block = some (n'.block, stat) ∧
        n'.key = n.key := by
  rw [adjustUpdate_eq hk hfit]
  split
  · exact ⟨n, _, rfl, rfl⟩
  · split
    · exact ⟨n, _, rfl, rfl⟩
    · split
      · refine ⟨⟨n.key, n.int, n.entries.map (updateEntry type key sig), ?_, ?_, n.header_fits, ?_⟩,
          .DHASH_OK, rfl, rfl⟩
        · rw [keys_map_updateEntry]
          exact n.nodup
        · rw [List.length_map]
          exact n.length_le
        · exact updateEntry_fits n.entry_fits hfit
      · next hnot =>
        split
        · exact ⟨n, _, rfl, rfl⟩
        · split
          · exact ⟨n, _, rfl, rfl⟩
          · next hlen =>
            have happend : takeIn srv n.entries (key, sig) = n.entries ++ [(key, sig)] := by
              rw [takeIn, if_neg hnot, if_neg hlen]
            refine ⟨⟨n.key, n.int, n.entries ++ [(key, sig)], ?_, ?_, n.header_fits, ?_⟩,
              .DHASH_OK, rfl, rfl⟩
            · rw [← happend]
              exact takeIn_nodup n.nodup _
            · rw [← happend]
              exact takeIn_length_le n.length_le _
            · intro e he
              rcases List.mem_append.1 he with he | he
              · exact n.entry_fits e he
              · rw [List.mem_singleton.1 he]
                exact hk

theorem adjustUpdate_outgrown {n : StoredNode srv} (hk : Fits (key, sig))
    (hbig : ¬ ∀ e ∈ n.entries, e.1 = key → Fits (e.1, updatedSig type e.2 sig)) :
    adjustUpdate srv type (elemBytes (key, sig)) n.block = none ∨
      adjustUpdate srv type (elemBytes (key, sig)) n.block =
        some (n.block, .DHASH_RETRYINSERT) := by
  have hnone : (n.entries.map elemBytes).mapM (updateElem type key sig) = none := by
    cases hr : (n.entries.map elemBytes).mapM (updateElem type key sig) with
    | none => rfl
    | some rs => exact (hbig (fits_of_mapM_updateElem n.entry_fits hr)).elim
  simp only [StoredNode.block, adjustUpdate, getKeyValue_elemBytes hk,
    getHeaderElem_headerBytes n.header_fits, Option.bind_eq_bind, Option.bind_some, hnone,
    Option.bind_none]
  split
  · exact .inr rfl
  · split
    · exact .inr rfl
    · exact .inl rfl

theorem makeHeader_eq (n : StoredNode srv) (int : Interval) :
    makeHeader n.key int = some (headerBytes n.key int) := by
  have hlen := n.header_fits
  rw [length_headerBytes] at hlen
  rw [makeHeader, alloc, ← headerBytes, if_pos (by rwa [length_headerBytes])]

theorem adjustHeader_stored (n : StoredNode srv) (hk : (headerBytes key int).length < 2 ^ 31)
    (type : InsertType) : ∃ (n' : StoredNode srv) (stat : DhashStat),
      adjustHeader srv type (headerBytes key int) n.block = some (n'.block, stat) ∧
        n'.key = n.key := by
  simp only [StoredNode.block, adjustHeader, getHeaderElem_headerBytes n.header_fits,
    getHeaderElem_headerBytes hk, Option.bind_eq_bind, Option.bind_some, makeHeader_eq]
  split
  · exact ⟨n, _, rfl, rfl⟩
  · split
    · refine ⟨⟨n.key, updateInt (srv.isROOT n.key) n.int int, n.entries, n.nodup, n.length_le, ?_,
        n.entry_fits⟩, .DHASH_OK, rfl, rfl⟩
      rw [length_headerBytes, ← length_headerBytes n.key n.int]
      exact n.header_fits
    · exact ⟨n, _, rfl, rfl⟩

theorem adjustSplit_stored (n : StoredNode srv) {items : List (Key × Sig)}
    (hitems : ∀ e ∈ items, Fits e)
    (hnodup : (items.map Prod.fst).Nodup) (hlen : items.length ≤ srv.MAXENTRIES) :
    ∃ (n' : StoredNode srv) (stat : DhashStat),
      adjustSplit srv ((items.map elemBytes).flatMap strBytes) n.block = some (n'.block, stat) ∧
        n'.key = n.key := by
  by_cases hfull : n.entries.length = srv.MAXENTRIES
  · refine ⟨⟨n.key, n.int, n.kept (items.map Prod.fst), ?_, ?_, n.header_fits, ?_⟩, .DHASH_OK,
      adjustSplit_full (forall₂_elemBytes hitems) hfull, rfl⟩
    · exact n.nodup.sublist ((List.filter_sublist).map _)
    · exact (List.length_filter_le _ _).trans n.length_le
    · exact fun e he => n.entry_fits e (List.mem_of_mem_filter he)
  · by_cases hnil : n.entries = []
    · refine ⟨⟨n.key, n.int, items, hnodup, hlen, n.header_fits, hitems⟩, .DHASH_OK, ?_, rfl⟩
      have hblock : n.block = [headerBytes n.key n.int] := by
        rw [StoredNode.block, hnil, List.map_nil]
      rw [hblock, adjustSplit_header (items_fit (forall₂_elemBytes hitems))]
      rfl
    · refine ⟨n, .DHASH_OK, adjustSplit_middle ?_ ?_, rfl⟩
      · have := List.length_pos_iff.2 hnil
        simp only [StoredNode.block, List.length_cons, List.length_map]
        omega
      · have := n.length_le
        simp only [StoredNode.block, List.length_cons, List.length_map]
        omega

theorem makeItems_eq_some (h : makeItems items type = some elem) :
    elem = intBytes type.code ++ (items.map elemBytes).flatMap strBytes ∧
      ∀ e ∈ items, Fits e := by
  have helems : ∀ {l : List (Key × Sig)} {elems : Block},
      l.mapM (fun e => makeKeyValue e.1 e.2 .NONE) = some elems →
        elems = l.map elemBytes ∧ ∀ e ∈ l, Fits e := by
    intro l
    induction l with
    | nil =>
      intro elems hl
      simp only [List.mapM_nil, Option.pure_def, Option.some.injEq] at hl
      exact ⟨hl.symm, by simp⟩
    | cons e l ih =>
      intro elems hl
      simp only [List.mapM_cons, Option.bind_eq_bind, Option.bind_eq_some_iff, Option.pure_def,
        Option.some.injEq] at hl
      obtain ⟨b, hb, bs, hbs, rfl⟩ := hl
      obtain ⟨rfl, hfit⟩ := alloc_eq_some hb
      obtain ⟨rfl, hl⟩ := ih hbs
      exact ⟨rfl, List.forall_mem_cons.2 ⟨hfit, hl⟩⟩
  simp only [makeItems, Option.bind_eq_bind, Option.bind_eq_some_iff] at h
  obtain ⟨elems, hl, helem⟩ := h
  obtain ⟨rfl, hfits⟩ := helems hl
  exact ⟨(alloc_eq_some helem).1, hfits⟩

def StoreMsg.IsIndex : StoreMsg srv → Prop
  | replica _ _ => False
  | _ => True

/-- What is stored after a message is again a node, or nothing yet; the server only stops where a
replica is older than its node, or a signature outgrows a string. -/
theorem adjustData_stored {m : StoreMsg srv} {new : Block} (hm : m.elems = some new)
    (o : Option (StoredNode srv)) :
    (∃ (o' : Option (StoredNode srv)) (stat : DhashStat),
      adjustData srv new (storedBlock o) = some (storedBlock o', stat) ∧
        (m.IsIndex → ∀ n, o = some n → ∃ n', o' = some n' ∧ n'.key = n.key)) ∨
    (adjustData srv new (storedBlock o) = none ∧ (m.Asserts o ∨ m.Outgrows o)) := by
  cases m with
  | update type key sig ht =>
    simp only [StoreMsg.elems, Option.bind_eq_bind, Option.bind_eq_some_iff, Option.pure_def,
      Option.some.injEq] at hm
    obtain ⟨elem, helem, rfl⟩ := hm
    obtain ⟨rfl, hk⟩ := makeKeyValue_eq_some ht helem
    rw [adjustData_update ht]
    cases o with
    | none => exact .inl ⟨none, _, rfl, by simp⟩
    | some n =>
      by_cases hfit : ∀ e ∈ n.entries, e.1 = key → Fits (e.1, updatedSig type e.2 sig)
      · obtain ⟨n', stat, h, hkey⟩ := adjustUpdate_stored hk hfit
        exact .inl ⟨some n', stat, h, fun _ => by simpa using hkey⟩
      · rcases adjustUpdate_outgrown hk hfit with h | h
        · obtain ⟨e, he⟩ := not_forall.1 hfit
          obtain ⟨hmem, he⟩ := not_forall.1 he
          obtain ⟨hkey, hbig⟩ := not_forall.1 he
          exact .inr ⟨h, .inr ⟨e, hmem, hkey, hbig⟩⟩
        · exact .inl ⟨some n, _, h, by simp⟩
  | header type key int ht =>
    simp only [StoreMsg.elems, Option.bind_eq_bind, Option.bind_eq_some_iff, Option.pure_def,
      Option.some.injEq] at hm
    obtain ⟨elem, helem, rfl⟩ := hm
    obtain ⟨rfl, hk⟩ := makeHeaderMsg_eq_some helem
    rw [adjustData_header ht]
    cases o with
    | none =>
      left
      simp only [storedBlock, adjustHeader]
      split
      · exact ⟨some ⟨key, int, [], List.nodup_nil, Nat.zero_le _, hk, by simp⟩, _, rfl, by simp⟩
      · exact ⟨none, _, rfl, by simp⟩
    | some n =>
      obtain ⟨n', stat, h, hkey⟩ := adjustHeader_stored n hk type
      exact .inl ⟨some n', stat, h, fun _ => by simpa using hkey⟩
  | split items nodup length_le =>
    simp only [StoreMsg.elems, Option.bind_eq_bind, Option.bind_eq_some_iff, Option.pure_def,
      Option.some.injEq] at hm
    obtain ⟨elem, helem, rfl⟩ := hm
    obtain ⟨rfl, hitems⟩ := makeItems_eq_some helem
    rw [adjustData_split]
    cases o with
    | none =>
      exact .inl ⟨none, _, adjustSplit_middle (by simp [storedBlock]) (by simp [storedBlock]),
        by simp⟩
    | some n =>
      obtain ⟨n', stat, h, hkey⟩ := adjustSplit_stored n hitems nodup length_le
      exact .inl ⟨some n', stat, h, fun _ => by simpa using hkey⟩
  | replica r hr =>
    obtain rfl := Option.some.inj hm
    rw [adjustData_replica hr]
    cases o with
    | none => exact .inl ⟨some r, _, rfl, False.elim⟩
    | some n =>
      by_cases heqv : r.int.eqv n.int
      · by_cases hfit : FitTogether r.entries n.entries
        · exact .inl ⟨some (n.merge r hfit), _, adjustReplica_merge heqv hfit, False.elim⟩
        · exact .inr ⟨adjustReplica_outgrown heqv hfit, .inr ⟨heqv, hfit⟩⟩
      · by_cases hnew : r.int.newer n.int
        · refine .inl ⟨some r, .DHASH_OK, ?_, False.elim⟩
          rw [storedBlock, storedBlock, adjustReplica_stored, if_neg heqv, if_pos hnew]
        · refine .inr ⟨?_, .inl ⟨heqv, hnew⟩⟩
          rw [storedBlock, adjustReplica_stored, if_neg heqv, if_neg hnew]

/-- What is stored after an answer: only what has been accepted is written. -/
def storedAfter (old : Block) : Block × DhashStat → Block
  | (b, .DHASH_OK) => b
  | _ => old

def applyMsg (b : Block) (m : StoreMsg srv) : Option Block := do
  let new ← m.elems
  return storedAfter b (← adjustData srv new b)

/-- The block under a key after messages to it, in their order. -/
def applyMsgs (msgs : List (StoreMsg srv)) : Option Block := msgs.foldlM applyMsg []

theorem applyMsg_stored {m : StoreMsg srv} (hm : m.elems ≠ none) (o : Option (StoredNode srv)) :
    (∃ o' : Option (StoredNode srv), applyMsg (storedBlock o) m = some (storedBlock o') ∧
      (m.IsIndex → ∀ n, o = some n → ∃ n', o' = some n' ∧ n'.key = n.key)) ∨
      (applyMsg (storedBlock o) m = none ∧ (m.Asserts o ∨ m.Outgrows o)) := by
  obtain ⟨new, hnew⟩ := Option.ne_none_iff_exists'.1 hm
  simp only [applyMsg, hnew, Option.bind_eq_bind, Option.bind_some]
  rcases adjustData_stored hnew o with ⟨o', stat, h, hkey⟩ | ⟨h, hstop⟩
  · rw [h]
    left
    cases stat with
    | DHASH_OK => exact ⟨o', rfl, hkey⟩
    | _ => exact ⟨o, rfl, fun _ n hn => ⟨n, hn, rfl⟩⟩
  · rw [h]
    exact .inr ⟨rfl, hstop⟩

theorem applyMsg_eq_some {m : StoreMsg srv} {o : Option (StoredNode srv)}
    (h : applyMsg (storedBlock o) m = some b) :
    ∃ o' : Option (StoredNode srv), b = storedBlock o' ∧
      (m.IsIndex → ∀ n, o = some n → ∃ n', o' = some n' ∧ n'.key = n.key) := by
  have hm : m.elems ≠ none := by
    intro hnone
    simp [applyMsg, hnone] at h
  rcases applyMsg_stored hm o with ⟨o', ho', hkey⟩ | ⟨hnone, -⟩
  · exact ⟨o', Option.some.inj (h.symm.trans ho'), hkey⟩
  · simp [hnone] at h

theorem applyMsgs_stored {msgs : List (StoreMsg srv)} {o : Option (StoredNode srv)}
    (h : msgs.foldlM applyMsg (storedBlock o) = some b) :
    ∃ o' : Option (StoredNode srv), b = storedBlock o' ∧
      ((∀ m ∈ msgs, m.IsIndex) → ∀ n, o = some n → ∃ n', o' = some n' ∧ n'.key = n.key) := by
  induction msgs generalizing o with
  | nil => exact ⟨o, (Option.some.inj h).symm, fun _ n hn => ⟨n, hn, rfl⟩⟩
  | cons m msgs ih =>
    simp only [List.foldlM_cons, Option.bind_eq_bind, Option.bind_eq_some_iff] at h
    obtain ⟨b₁, h₁, h⟩ := h
    obtain ⟨o₁, rfl, hkey₁⟩ := applyMsg_eq_some h₁
    obtain ⟨o', ho', hkey⟩ := ih h
    refine ⟨o', ho', fun hidx n hn => ?_⟩
    obtain ⟨n₁, hn₁, hk₁⟩ := hkey₁ (hidx m List.mem_cons_self) n hn
    obtain ⟨n', hn', hk'⟩ := hkey (fun m hm => hidx m (List.mem_cons_of_mem _ hm)) n₁ hn₁
    exact ⟨n', hn', hk'.trans hk₁⟩

/-- The representation invariant of a block: it is empty, or a header with entries behind it whose
keys are distinct. -/
def RepInvariant (srv : Server) (b : Block) : Prop :=
  b = [] ∨ ∃ (key : Key) (int : Interval) (entries : List (Key × Sig)),
    b = headerBytes key int :: entries.map elemBytes ∧ (entries.map Prod.fst).Nodup ∧
      b.length ≤ srv.MAXENTRIES + 1

theorem storedBlock_repInvariant (o : Option (StoredNode srv)) :
    RepInvariant srv (storedBlock o) := by
  cases o with
  | none => exact .inl rfl
  | some n =>
    refine .inr ⟨n.key, n.int, n.entries, rfl, n.nodup, ?_⟩
    have := n.length_le
    simp only [storedBlock, StoredNode.block, List.length_cons, List.length_map]
    omega

/-- After any messages, the block under a key meets its invariant, and the server takes the next
message as well, unless it is a replica older than the block or makes a signature too long for a
string. -/
theorem applyMsgs_repInvariant {msgs : List (StoreMsg srv)} (h : applyMsgs msgs = some b) :
    RepInvariant srv b ∧ ∃ o : Option (StoredNode srv), b = storedBlock o ∧
      ∀ m : StoreMsg srv, m.elems ≠ none → applyMsg b m = none → m.Asserts o ∨ m.Outgrows o := by
  obtain ⟨o, rfl, -⟩ := applyMsgs_stored (o := none) h
  refine ⟨storedBlock_repInvariant o, o, rfl, ?_⟩
  intro m hm hnone
  rcases applyMsg_stored hm o with ⟨o', ho', -⟩ | ⟨-, hstop⟩
  · simp [ho'] at hnone
  · exact hstop

theorem UPDATE_mem : InsertType.UPDATE ∈ updateTypes := by decide

theorem UPDATEHDRLOCK_mem :
    InsertType.UPDATEHDRLOCK ∈ [InsertType.UPDATEHDRLOCK, .UPDATEHDR] := by decide

/-- A node that is created, filled, split and then merged with a replica. -/
def mergedMsgs : List (StoreMsg twoServer) :=
  [.header .UPDATEHDRLOCK [82] ⟨0, 1, 1, 1, 0, 7⟩ UPDATEHDRLOCK_mem,
    .update .UPDATE [97, 35] [2] UPDATE_mem, .update .UPDATEVAL [98, 35] [3] (by decide),
    .split [([97, 35], [2])] (by decide) (by decide), .replica fullRoot (by decide)]

theorem mergedMsgs_repInvariant : RepInvariant twoServer
    [headerBytes [82] ⟨0, 1, 1, 1, 0, 7⟩, elemBytes ([98, 35], [3]), elemBytes ([97, 35], [2])] :=
  (applyMsgs_repInvariant (show applyMsgs mergedMsgs = _ by decide +kernel)).1

end Messages

section IfPresent

variable {srv : Server}

def keySet (b : Block) : Set Key := {key | ∃ elem ∈ b.tail, ∃ sig, getKeyValue elem = some (key, sig)}

/-- A docid that a node does not take: it has no documents, or it is a root about to be split. -/
def StoredNode.Refuses (n : StoredNode srv) (key : Key) : Prop :=
  containsHash key ∧ (n.int.level.toInt > 0 ∨ (n.int.level = 0 ∧ n.int.random = -1))

theorem keySet_of_fits (hdr : List Byte) {entries : List (Key × Sig)}
    (hes : ∀ e ∈ entries, Fits e) :
    keySet (hdr :: entries.map elemBytes) = {key | key ∈ entries.map Prod.fst} := by
  ext key
  simp only [keySet, List.tail_cons, Set.mem_ofPred_eq]
  constructor
  · rintro ⟨elem, helem, sig, hget⟩
    obtain ⟨e, he, rfl⟩ := List.mem_map.1 helem
    rw [getKeyValue_elemBytes (hes e he), Option.some_inj] at hget
    exact List.mem_map.2 ⟨e, he, by rw [hget]⟩
  · intro hkey
    obtain ⟨e, he, rfl⟩ := List.mem_map.1 hkey
    exact ⟨elemBytes e, List.mem_map_of_mem he, e.2, getKeyValue_elemBytes (hes e he)⟩

theorem keySet_append_ne (hdr : List Byte) {entries : List (Key × Sig)}
    (hes : ∀ e ∈ entries, Fits e) (hk : Fits (key, sig)) (hnot : key ∉ entries.map Prod.fst) :
    keySet (hdr :: (entries ++ [(key, sig)]).map elemBytes) ≠
      keySet (hdr :: entries.map elemBytes) := by
  have hes' : ∀ e ∈ entries ++ [(key, sig)], Fits e :=
    List.forall_mem_append.2 ⟨hes, List.forall_mem_singleton.2 hk⟩
  rw [keySet_of_fits hdr hes, keySet_of_fits hdr hes']
  intro heq
  have hmem : key ∈ {k | k ∈ (entries ++ [(key, sig)]).map Prod.fst} := by simp
  rw [heq] at hmem
  exact hnot hmem

/-- An update keeps the keys of a node unless it adds an entry. -/
theorem adjustUpdate_keySet_iff {n : StoredNode srv} (hk : Fits (key, sig))
    (hfit : ∀ e ∈ n.entries, e.1 = key → Fits (e.1, updatedSig type e.2 sig)) :
    ∃ b stat, adjustUpdate srv type (elemBytes (key, sig)) n.block = some (b, stat) ∧
      (keySet b = keySet n.block ↔ type = .UPDATEIFPRESENT ∨ n.Refuses key ∨
        key ∈ n.entries.map Prod.fst ∨ n.entries.length = srv.MAXENTRIES) := by
  rw [adjustUpdate_eq hk hfit]
  split
  · next h => exact ⟨_, _, rfl, iff_of_true rfl (.inr (.inl ⟨h.2, .inl h.1⟩))⟩
  · next hlevel =>
    split
    · next h => exact ⟨_, _, rfl, iff_of_true rfl (.inr (.inl ⟨h.2.1, .inr ⟨h.1, h.2.2⟩⟩))⟩
    · next hroot =>
      have hrefuses : ¬ n.Refuses key := by
        rintro ⟨hhash, h | h⟩
        · exact hlevel ⟨h, hhash⟩
        · exact hroot ⟨h.1, hhash, h.2⟩
      split
      · next hmem =>
        refine ⟨_, _, rfl, iff_of_true ?_ (.inr (.inr (.inl hmem)))⟩
        rw [keySet_of_fits _ (updateEntry_fits n.entry_fits hfit), keys_map_updateEntry, StoredNode.block,
          keySet_of_fits _ n.entry_fits]
      · next hnot =>
        split
        · next ht => exact ⟨_, _, rfl, iff_of_true rfl (.inl ht)⟩
        · next ht =>
          split
          · next hfull =>
            have hlen := n.length_le
            exact ⟨_, _, rfl, iff_of_true rfl (.inr (.inr (.inr (by omega))))⟩
          · next hfull =>
            refine ⟨_, _, rfl, iff_of_false (keySet_append_ne _ n.entry_fits hk hnot) ?_⟩
            rintro (h | h | h | h)
            · exact ht h
            · exact hrefuses h
            · exact hnot h
            · omega

/-- A message for an entry that is present keeps the keys of a node, except that the one for
intervals adds its entry where the one for signatures does not. -/
theorem ifPresent_keySet_iff (ht : type = .UPDATEIFPRESENT ∨ type = .UPDATEVALIFPRESENT)
    (helem : makeKeyValue key sig type = some elem) (o : Option (StoredNode srv)) :
    (adjustData srv [elem] (storedBlock o) = none → ∃ n, o = some n ∧
      ∃ e ∈ n.entries, e.1 = key ∧ ¬ Fits (e.1, updatedSig type e.2 sig)) ∧
    ((∀ b stat, adjustData srv [elem] (storedBlock o) = some (b, stat) →
        keySet b = keySet (storedBlock o)) ↔
      type = .UPDATEIFPRESENT ∨ ∀ n, o = some n → n.Refuses key ∨
        key ∈ n.entries.map Prod.fst ∨ n.entries.length = srv.MAXENTRIES) := by
  have hupdate : type ∈ updateTypes := by
    rcases ht with rfl | rfl <;> decide
  obtain ⟨rfl, hk⟩ := makeKeyValue_eq_some hupdate helem
  rw [adjustData_update hupdate]
  cases o with
  | none => simp [storedBlock, adjustUpdate]
  | some n =>
    simp only [storedBlock, Option.some.injEq, exists_eq_left', forall_eq']
    by_cases hfit : ∀ e ∈ n.entries, e.1 = key → Fits (e.1, updatedSig type e.2 sig)
    · obtain ⟨b, stat, hb, hkeys⟩ := adjustUpdate_keySet_iff hk hfit
      rw [hb, ← hkeys]
      simp
    · have hmem : ∃ e ∈ n.entries, e.1 = key ∧ ¬ Fits (e.1, updatedSig type e.2 sig) := by
        simpa using hfit
      obtain ⟨e, he, hkey, hbig⟩ := hmem
      have hpresent : key ∈ n.entries.map Prod.fst := hkey ▸ List.mem_map_of_mem he
      refine ⟨fun _ => ⟨e, he, hkey, hbig⟩, iff_of_true ?_ (.inr (.inr (.inl hpresent)))⟩
      rintro b stat hb
      rcases adjustUpdate_outgrown hk hfit with h | h
      · simp [h] at hb
      · rw [h, Option.some_inj, Prod.mk.injEq] at hb
        rw [← hb.1]

def parentNode : StoredNode twoServer where
  key := [78]
  int := ⟨0, 1, 1, 1, 1, 7⟩
  entries := [([97], [2, 3])]
  nodup := by decide
  length_le := by decide
  header_fits := by decide
  entry_fits := by decide

theorem ifPresent_keySet_present : ∃ b stat,
    adjustData twoServer [intBytes InsertType.UPDATEVALIFPRESENT.code ++ elemBytes ([97], [1, 9])]
      parentNode.block = some (b, stat) ∧ keySet b = keySet parentNode.block := by
  have helem : makeKeyValue [97] [1, 9] .UPDATEVALIFPRESENT =
      some (intBytes InsertType.UPDATEVALIFPRESENT.code ++ elemBytes ([97], [1, 9])) := by
    decide +kernel
  have hadjust : adjustData twoServer
      [intBytes InsertType.UPDATEVALIFPRESENT.code ++ elemBytes ([97], [1, 9])] parentNode.block =
        some ([headerBytes parentNode.key parentNode.int, elemBytes ([97], [1, 9])], .DHASH_OK) := by
    decide +kernel
  obtain ⟨-, hkeys⟩ := ifPresent_keySet_iff (.inr rfl) helem (some parentNode)
  refine ⟨_, _, hadjust, hkeys.2 (.inr ?_) _ _ hadjust⟩
  rintro n hn
  obtain rfl := Option.some.inj hn
  exact .inr (.inl (by decide))

/-- A late update for a child that has moved to another node links it a second time. -/
theorem ifPresent_adds_child : ∃ b stat,
    adjustData twoServer [intBytes InsertType.UPDATEVALIFPRESENT.code ++ elemBytes ([98], [4, 5])]
      parentNode.block = some (b, stat) ∧ keySet b ≠ keySet parentNode.block := by
  have hadjust : adjustData twoServer
      [intBytes InsertType.UPDATEVALIFPRESENT.code ++ elemBytes ([98], [4, 5])] parentNode.block =
        some (headerBytes parentNode.key parentNode.int ::
          (parentNode.entries ++ [([98], [4, 5])]).map elemBytes, .DHASH_OK) := by
    decide +kernel
  exact ⟨_, _, hadjust, keySet_append_ne _ parentNode.entry_fits (by decide) (by decide)⟩

end IfPresent

end XGossip
