import XGossip.Index.NodeCache

namespace XGossip
set_option autoImplicit true

section Eviction

variable {c c' : NodeCache} {cacheSize entrySize : Int} {stored : Key → Option (List Key)}

/-- One round of the loop that collects: an entry that is pinned frees nothing. -/
theorem CacheInv.collect_succ (h : CacheInv cacheSize stored c) (hx : c.lruCache[i]? = some x)
    (spaceFreed : Int) (toDelete : List Nat) :
    c.collect entrySize (i + 1) spaceFreed toDelete =
      if entrySize ≤ spaceFreed + c.unpinnedSpace [x] then
        some (spaceFreed + c.unpinnedSpace [x], toDelete ++ unpinnedAt i [x])
      else c.collect entrySize i (spaceFreed + c.unpinnedSpace [x])
        (toDelete ++ unpinnedAt i [x]) := by
  obtain ⟨r, b⟩ := x
  rw [NodeCache.collect, hx]
  cases b with
  | true =>
    have hspace : c.unpinnedSpace [(r, true)] = 0 := NodeCache.unpinnedSpace_pinned rfl
    have hat : unpinnedAt i [(r, true)] = [] := rfl
    rw [hspace, hat, Int.natCast_zero, Int.add_zero, List.append_nil]
    rfl
  | false =>
    obtain ⟨n, hn⟩ := h.node_of_mem (List.mem_of_getElem? hx)
    obtain ⟨hslot, hne⟩ := NodeCache.node_eq_some.1 hn
    have hspace : c.unpinnedSpace [(r, false)] = getSize n.2 := by
      rw [NodeCache.unpinnedSpace_unpinned rfl, NodeCache.slotSize_eq hslot, nodeSize_of_ne hne]
      rfl
    have hat : unpinnedAt i [(r, false)] = [i] := rfl
    have hread : c.nodeCache[r]? = some n := hslot
    rw [hspace, hat]
    simp only [bind, Option.bind_some, Bool.false_eq_true, if_false, hread, Option.map_some, pure]

/-- The loop passes the entries whose space does not suffice. -/
theorem CacheInv.collect_back (h : CacheInv cacheSize stored c)
    (hl : c.lruCache = front ++ back)
    (hfew : c.freeSpace + c.unpinnedSpace back < entrySize) :
    c.collect entrySize c.lruCache.length c.freeSpace [] =
      c.collect entrySize front.length (c.freeSpace + c.unpinnedSpace back)
        (unpinnedAt front.length back) := by
  induction back generalizing front with
  | nil =>
    rw [hl, List.append_nil]
    exact congrArg (c.collect entrySize front.length · []) (Int.add_zero _).symm
  | cons x back ih =>
    have hsum : c.unpinnedSpace (x :: back) = c.unpinnedSpace [x] + c.unpinnedSpace back :=
      c.unpinnedSpace_append [x] back
    have hx : c.lruCache[front.length]? = some x := hl ▸ getElem?_behind front back x
    have hat : unpinnedAt front.length (x :: back) =
        unpinnedAt (front.length + 1) back ++ unpinnedAt front.length [x] :=
      unpinnedAt_append front.length [x] back
    have hsplit : c.lruCache = (front ++ [x]) ++ back := by rw [hl, List.append_assoc]; rfl
    have hlast := ih hsplit (by omega)
    rw [List.length_append, List.length_singleton] at hlast
    rw [hlast, h.collect_succ hx, if_neg (by omega), hat]
    refine congrArg (c.collect entrySize front.length · _) ?_
    omega

theorem NodeCache.victim_unpinned (hfew : c.freeSpace + c.unpinnedSpace tail < entrySize)
    (henough : entrySize ≤ c.freeSpace + c.unpinnedSpace (victim :: tail)) :
    victim.2 = false := by
  by_contra hpinned
  rw [Bool.not_eq_false] at hpinned
  rw [NodeCache.unpinnedSpace_pinned hpinned] at henough
  omega

theorem CacheInv.collect_eq (h : CacheInv cacheSize stored c)
    (hl : c.lruCache = front ++ victim :: back)
    (hfew : c.freeSpace + c.unpinnedSpace back < entrySize)
    (henough : entrySize ≤ c.freeSpace + c.unpinnedSpace (victim :: back)) :
    c.collect entrySize c.lruCache.length c.freeSpace [] =
      some (c.freeSpace + c.unpinnedSpace (victim :: back),
        unpinnedAt (front.length + 1) back ++ [front.length]) := by
  have hsum : c.unpinnedSpace (victim :: back) = c.unpinnedSpace [victim] + c.unpinnedSpace back :=
    c.unpinnedSpace_append [victim] back
  have hx : c.lruCache[front.length]? = some victim := hl ▸ getElem?_behind front back victim
  have hunpinned := NodeCache.victim_unpinned hfew henough
  have hat : unpinnedAt front.length [victim] = [front.length] := unpinnedAt_single hunpinned _
  have hsplit : c.lruCache = (front ++ [victim]) ++ back := by rw [hl, List.append_assoc]; rfl
  have hlast := h.collect_back hsplit hfew
  rw [List.length_append, List.length_singleton] at hlast
  have hspace : c.freeSpace + c.unpinnedSpace back + c.unpinnedSpace [victim] =
      c.freeSpace + c.unpinnedSpace (victim :: back) := by omega
  rw [hlast, h.collect_succ hx, hspace, if_pos henough, hat]

/-- One round of the loop over the victims, for the last entry of `lruCache`. -/
theorem CacheInv.delete_last (h : CacheInv cacheSize stored c) (hl : c.lruCache = l ++ [x]) :
    ∃ c₁ : NodeCache,
      (∀ toDelete, c.deleteEntries (l.length :: toDelete) = c₁.deleteEntries toDelete) ∧
      CacheInv (cacheSize - c.slotSize x.1) stored c₁ ∧ c₁.lruCache = l ∧
      c₁.freeSpace = c.freeSpace ∧ ∀ y ∈ l, c₁.nodeCache[y.1]? = c.nodeCache[y.1]? := by
  have hread : c.lruCache[l.length]? = some x := hl ▸ getElem?_behind l [] x
  have hlt := h.lt_of_mem (List.mem_of_getElem? hread)
  let c₁ : NodeCache := { c with
    nodeCache := c.nodeCache.set x.1 ([], [])
    lruCache := c.lruCache.dropLast }
  have hlru : c₁.lruCache = l := by
    change c.lruCache.dropLast = l
    rw [hl, List.dropLast_concat]
  have hp : Puts c c₁ x.1 ([], []) := .set rfl hlt
  have hother : ∀ y ∈ l, y.1 ≠ x.1 := by
    have hdistinct := h.distinct
    rw [hl, List.map_append, List.map_singleton, List.nodup_append_comm, List.singleton_append,
      List.nodup_cons] at hdistinct
    intro y hy hyx
    exact hdistinct.1 (hyx ▸ List.mem_map_of_mem hy)
  refine ⟨c₁, ?_, h.release hp (hlru.symm ▸ hl) rfl, hlru, rfl, ?_⟩
  · intro toDelete
    rw [NodeCache.deleteEntries, hread]
    exact if_pos hlt
  · intro y hy
    exact hp.same _ (hother y hy)

/-- Victims that are the last of `lruCache` are erased, each with its own slot. -/
theorem CacheInv.deleteEntries (h : CacheInv cacheSize stored c) (hl : c.lruCache = l ++ tail)
    (ht : ∀ x ∈ tail, x.2 = false) :
    ∃ c', c.deleteEntries (unpinnedAt l.length tail) = some c' ∧
      CacheInv (cacheSize - c.unpinnedSpace tail) stored c' ∧ c'.lruCache = l ∧
      c'.freeSpace = c.freeSpace ∧ ∀ x ∈ l, c'.nodeCache[x.1]? = c.nodeCache[x.1]? := by
  induction tail using List.reverseRecOn generalizing c cacheSize with
  | nil =>
    rw [List.append_nil] at hl
    refine ⟨c, rfl, ?_, hl, rfl, fun _ _ => rfl⟩
    exact (Int.sub_zero cacheSize).symm ▸ h
  | append_singleton tail x ih =>
    have hunpinned : x.2 = false := ht x (List.mem_append_right _ List.mem_cons_self)
    rw [← List.append_assoc] at hl
    obtain ⟨c₁, hdelete, h₁, hlru₁, hfree₁, hsame₁⟩ := h.delete_last hl
    obtain ⟨c', hc', hinv, hlru, hfree, hsame⟩ :=
      ih h₁ hlru₁ fun y hy => ht y (List.mem_append_left _ hy)
    have htail : c₁.unpinnedSpace tail = c.unpinnedSpace tail :=
      NodeCache.unpinnedSpace_congr fun y hy =>
        NodeCache.node_congr (hsame₁ y (List.mem_append_right _ hy))
    have hspace : c.unpinnedSpace (tail ++ [x]) = c₁.unpinnedSpace tail + c.slotSize x.1 := by
      rw [NodeCache.unpinnedSpace_append, NodeCache.unpinnedSpace_unpinned hunpinned, htail]
      rfl
    refine ⟨c', ?_, ?_, hlru, hfree.trans hfree₁, ?_⟩
    · rw [unpinnedAt_append, unpinnedAt_single hunpinned, List.singleton_append,
        ← List.length_append, hdelete]
      exact hc'
    · have hsize : cacheSize - c.slotSize x.1 - c₁.unpinnedSpace tail =
          cacheSize - c.unpinnedSpace (tail ++ [x]) := by
        rw [hspace]
        omega
      exact hsize ▸ hinv
    · intro y hy
      rw [hsame y hy, hsame₁ y (List.mem_append_left _ hy)]

end Eviction

section Calls

variable {c c' : NodeCache} {cacheSize : Int} {stored stored' : Key → Option (List Key)}

/-- The slot `r` is pinned and keeps its node. -/
def NodeCache.Keeps (c c' : NodeCache) (r : Nat) : Prop :=
  (r, true) ∈ c'.lruCache ∧ c'.nodeCache[r]? = c.nodeCache[r]?

theorem CacheInv.fill (h : CacheInv cacheSize stored c) (hID : nodeID ≠ [])
    (hnew : ∀ n ∈ c.nodeCache, n.1 ≠ nodeID)
    (hstored : ∀ n, stored' n = if n = nodeID then some e else stored n) :
    ∃ c' r, c.fill nodeID e = some (c', r) ∧ CacheInv cacheSize stored' c' ∧
      ∀ i, (i, true) ∈ c.lruCache → c.Keeps c' i := by
  let r := c.nodeCache.findIdx (·.1 == [])
  let nodes := if r < c.nodeCache.length then c.nodeCache.set r (nodeID, e)
    else c.nodeCache ++ [(nodeID, e)]
  let c₁ : NodeCache := { c with nodeCache := nodes, lruCache := c.lruCache ++ [(r, true)] }
  have hnode : c.node r = none := c.node_free
  have hp : ∀ f l, Puts c ⟨nodes, l, f⟩ r (nodeID, e) := by
    intro f l
    by_cases hlt : r < c.nodeCache.length
    · exact .set (if_pos hlt) hlt
    · have hlast : r = c.nodeCache.length := Nat.le_antisymm List.findIdx_le_length (not_lt.1 hlt)
      exact hlast ▸ .push (if_neg hlt)
  have hunlisted : r ∉ c.lruCache.map Prod.fst := by
    rw [h.listed, hnode]
    exact Bool.false_ne_true
  have hslots : c₁.lruCache.map Prod.fst = c.lruCache.map Prod.fst ++ [r] := List.map_append
  have hnodup : (c₁.lruCache.map Prod.fst).Nodup := by
    rw [hslots, List.nodup_append_comm, List.singleton_append, List.nodup_cons]
    exact ⟨hunlisted, h.distinct⟩
  obtain ⟨l, hfront, hperm⟩ := c₁.moveToFront_eq hnodup
    (List.mem_append_right _ List.mem_cons_self : (r, true) ∈ c₁.lruCache)
  have hslots' := hperm.map Prod.fst
  rw [hslots] at hslots'
  refine ⟨⟨nodes, (r, true) :: l, c.freeSpace - getSize e⟩, r, ?_, ?_, ?_⟩
  · have hfill : c.fill nodeID e =
        (c₁.moveToFront r).bind fun c' =>
          some ({ c' with freeSpace := c'.freeSpace - getSize e }, r) := rfl
    rw [hfill, hfront]
    rfl
  · refine h.put (hp _ _) hID (fun s n hn => hnew n (NodeCache.node_mem hn))
      (hslots'.nodup_iff.2 (hslots ▸ hnodup)) ?_ ?_ hstored
    · intro s
      rw [hslots'.mem_iff, List.mem_append, List.mem_singleton, or_comm]
    · rw [NodeCache.slotSize, hnode]
      exact (Int.sub_add_cancel _ _).trans (Int.add_zero _).symm
  · intro i hi
    refine ⟨hperm.mem_iff.2 (List.mem_append_left _ hi), (hp 0 []).same i ?_⟩
    rintro rfl
    exact hunlisted (List.mem_map_of_mem hi)

theorem CacheInv.ne_of_pinned (h : CacheInv cacheSize stored c) (hi : (i, true) ∈ c.lruCache)
    (hx : x ∈ c.lruCache) (hunpinned : x.2 = false) : i ≠ x.1 := by
  intro hix
  have heq := List.inj_on_of_nodup_map h.distinct hi hx hix
  rw [← heq] at hunpinned
  exact Bool.false_ne_true hunpinned.symm

/-- What `findReplacement` leaves behind where the victims but the last are the tail of
`lruCache`: `c₁` is the cache after they are deleted. -/
theorem CacheInv.replace_eq (h : CacheInv cacheSize stored c) (nodeID : Key)
    (hl : c.lruCache = front ++ victim :: (mid ++ tail)) (hmid : ∀ x ∈ mid, x.2 = true)
    (htail : ∀ x ∈ tail, x.2 = false) (hfew : c.freeSpace + c.unpinnedSpace tail < getSize e)
    (henough : (getSize e : Int) ≤ c.freeSpace + c.unpinnedSpace (victim :: tail)) :
    ∃ c₁ c', c.replace nodeID e = some (c', victim.1) ∧
      (CacheInv cacheSize stored c₁ ∧ c₁.lruCache = front ++ victim :: mid ∧
        c₁.freeSpace = c.freeSpace + c.unpinnedSpace tail ∧
        ∀ x ∈ c₁.lruCache, c₁.nodeCache[x.1]? = c.nodeCache[x.1]?) ∧
      c'.nodeCache = c₁.nodeCache.set victim.1 (nodeID, e) ∧
      c'.lruCache.Perm (front ++ (victim.1, true) :: mid) ∧
      c'.freeSpace = c.freeSpace + c.unpinnedSpace (victim :: tail) - getSize e := by
  have hunpinned := NodeCache.victim_unpinned hfew henough
  have hback : c.unpinnedSpace (mid ++ tail) = c.unpinnedSpace tail :=
    NodeCache.unpinnedSpace_tail hmid
  have hvictim : c.unpinnedSpace (victim :: (mid ++ tail)) = c.unpinnedSpace (victim :: tail) := by
    rw [NodeCache.unpinnedSpace_unpinned hunpinned, NodeCache.unpinnedSpace_unpinned hunpinned,
      hback]
  have hcollect := h.collect_eq hl (hback ▸ hfew) (hvictim ▸ henough)
  rw [hvictim] at hcollect
  have hat : unpinnedAt (front.length + 1) (mid ++ tail) =
      unpinnedAt (front ++ victim :: mid).length tail := by
    rw [unpinnedAt_append, unpinnedAt_pinned hmid, List.append_nil, List.length_append,
      List.length_cons, Nat.add_assoc, Nat.add_comm 1]
  have hsplit : c.lruCache = (front ++ victim :: mid) ++ tail := by
    rw [hl, List.append_assoc, List.cons_append]
  obtain ⟨c₁, hdelete, h₁, hlru, hfree, hsame⟩ := h.deleteEntries hsplit htail
  have h₁ := h₁.refund (c.unpinnedSpace tail)
  rw [Int.sub_add_cancel, hfree] at h₁
  have hread : c₁.lruCache[front.length]? = some victim := hlru ▸ getElem?_behind front mid victim
  have hlt : victim.1 < c₁.nodeCache.length := h₁.lt_of_mem (List.mem_of_getElem? hread)
  let c₂ : NodeCache := { c₁ with
    nodeCache := c₁.nodeCache.set victim.1 (nodeID, e)
    lruCache := c₁.lruCache.set front.length (victim.1, true) }
  have hset : c₂.lruCache = front ++ (victim.1, true) :: mid := by
    change c₁.lruCache.set front.length (victim.1, true) = _
    rw [hlru, set_behind]
  have hslots : c₂.lruCache.map Prod.fst = c₁.lruCache.map Prod.fst := by
    rw [hset, hlru, List.map_append, List.map_append, List.map_cons, List.map_cons]
  obtain ⟨l, hfront, hperm⟩ := c₂.moveToFront_eq (hslots ▸ h₁.distinct)
    (hset ▸ List.mem_append_right _ List.mem_cons_self : (victim.1, true) ∈ c₂.lruCache)
  refine ⟨_, ⟨c₂.nodeCache, (victim.1, true) :: l,
    c.freeSpace + c.unpinnedSpace (victim :: tail) - getSize e⟩, ?_,
    ⟨h₁, hlru, rfl, hlru ▸ hsame⟩, rfl, hset ▸ hperm, rfl⟩
  rw [NodeCache.replace, hcollect, hat]
  simp only [bind, Option.bind_some, List.dropLast_concat, hdelete, List.getLast?_concat, hread,
    if_pos hlt]
  exact congrArg (Option.bind · _) hfront

theorem pinned_mem {front mid tail : List (Nat × Bool)} (hunpinned : victim.2 = false)
    (htail : ∀ x ∈ tail, x.2 = false) (hi : (i, true) ∈ front ++ victim :: (mid ++ tail)) :
    (i, true) ∈ front ∨ (i, true) ∈ mid := by
  rcases List.mem_append.1 hi with hi | hi
  · exact Or.inl hi
  · rcases List.mem_cons.1 hi with rfl | hi
    · exact absurd hunpinned.symm Bool.false_ne_true
    · rcases List.mem_append.1 hi with hi | hi
      · exact Or.inr hi
      · exact absurd (htail _ hi).symm Bool.false_ne_true

theorem CacheInv.replace (h : CacheInv cacheSize stored c) (hID : nodeID ≠ [])
    (hnew : ∀ n ∈ c.nodeCache, n.1 ≠ nodeID)
    (hstored : ∀ n, stored' n = if n = nodeID then some e else stored n)
    (hl : c.lruCache = front ++ victim :: (mid ++ tail)) (hmid : ∀ x ∈ mid, x.2 = true)
    (htail : ∀ x ∈ tail, x.2 = false) (hfew : c.freeSpace + c.unpinnedSpace tail < getSize e)
    (henough : (getSize e : Int) ≤ c.freeSpace + c.unpinnedSpace (victim :: tail)) :
    ∃ c' r, c.replace nodeID e = some (c', r) ∧ CacheInv cacheSize stored' c' ∧
      ∀ i, (i, true) ∈ c.lruCache → c.Keeps c' i := by
  have hunpinned := NodeCache.victim_unpinned hfew henough
  obtain ⟨c₁, c', hreplace, ⟨h₁, hlru, hfree, hsame⟩, hnodes, hperm, hfree'⟩ :=
    h.replace_eq nodeID hl hmid htail hfew henough
  have hvictim : victim ∈ c₁.lruCache := hlru ▸ List.mem_append_right _ List.mem_cons_self
  have hp : Puts c₁ c' victim.1 (nodeID, e) := .set hnodes (h₁.lt_of_mem hvictim)
  have hslots : (c'.lruCache.map Prod.fst).Perm (c₁.lruCache.map Prod.fst) := by
    rw [hlru, List.map_append, List.map_cons]
    have hmap := hperm.map Prod.fst
    rwa [List.map_append, List.map_cons] at hmap
  refine ⟨c', victim.1, hreplace, ?_, ?_⟩
  · have hnew₁ : ∀ s n, c₁.node s = some n → n.1 ≠ nodeID := by
      intro s n hn
      obtain ⟨b, hs⟩ := h₁.mem_of_node hn
      exact hnew n (NodeCache.node_mem (NodeCache.node_congr (hsame _ hs) ▸ hn))
    refine h₁.put hp hID hnew₁ (hslots.nodup_iff.2 h₁.distinct) ?_ ?_ hstored
    · intro s
      rw [hslots.mem_iff]
      refine (or_iff_right_of_imp ?_).symm
      rintro rfl
      exact List.mem_map_of_mem hvictim
    · have hsize : c₁.slotSize victim.1 = c.slotSize victim.1 := by
        rw [NodeCache.slotSize, NodeCache.node_congr (hsame _ hvictim)]
        rfl
      have hsum : c.unpinnedSpace (victim :: tail) = c.slotSize victim.1 + c.unpinnedSpace tail :=
        NodeCache.unpinnedSpace_unpinned hunpinned
      omega
  · intro i hi
    have hvictim' : victim ∈ c.lruCache := hl ▸ List.mem_append_right _ List.mem_cons_self
    have hne : i ≠ victim.1 := h.ne_of_pinned hi hvictim' hunpinned
    rw [hl] at hi
    refine ⟨hperm.mem_iff.2 ?_, (hp.same i hne).trans (hsame (i, true) ?_)⟩
    · rcases pinned_mem hunpinned htail hi with hi | hi
      · exact List.mem_append_left _ hi
      · exact List.mem_append_right _ (List.mem_cons_of_mem _ hi)
    · rw [hlru]
      rcases pinned_mem hunpinned htail hi with hi | hi
      · exact List.mem_append_left _ hi
      · exact List.mem_append_right _ (List.mem_cons_of_mem _ hi)

theorem NodeCache.findInCache_hit (h : c.nodeCache.findIdx (·.1 == nodeID) < c.nodeCache.length) :
    c.findInCache nodeID =
      ((c.pinNode (c.nodeCache.findIdx (·.1 == nodeID))).moveToFront
        (c.nodeCache.findIdx (·.1 == nodeID))).bind fun c' =>
          some (c', some (c.nodeCache.findIdx (·.1 == nodeID))) := if_pos h

/-- A call for a node that is cached hits: the slot is pinned and its node is the one asked
for. -/
theorem CacheInv.findInCache (h : CacheInv cacheSize stored c)
    (hID : nodeID = [] → ∀ n ∈ c.nodeCache, n.1 ≠ []) :
    (∃ c' r e, c.findInCache nodeID = some (c', some r) ∧ c'.nodeCache[r]? = some (nodeID, e) ∧
        stored nodeID = some e ∧ CacheInv cacheSize stored c' ∧
        ∀ i, (i, true) ∈ c.lruCache → c.Keeps c' i) ∨
      c.findInCache nodeID = some (c, none) ∧ ∀ n ∈ c.nodeCache, n.1 ≠ nodeID := by
  rcases lt_or_ge (c.nodeCache.findIdx (·.1 == nodeID)) c.nodeCache.length with hlt | hge
  · left
    let r := c.nodeCache.findIdx (·.1 == nodeID)
    obtain ⟨e, hslot⟩ : ∃ e, c.nodeCache[r]? = some (nodeID, e) := by
      have hhit := List.findIdx_getElem (w := hlt)
      rw [beq_iff_eq] at hhit
      exact ⟨_, (List.getElem?_eq_getElem hlt).trans (congrArg some (Prod.ext hhit rfl))⟩
    have hne : nodeID ≠ [] := fun hnil => hID hnil _ (List.mem_of_getElem? hslot) hnil
    have hnode : c.node r = some (nodeID, e) := NodeCache.node_eq_some.2 ⟨hslot, hne⟩
    obtain ⟨b, hr⟩ := h.mem_of_node hnode
    have hslots := map_fst_setPinned true r c.lruCache
    obtain ⟨l, hfront, hperm⟩ := (c.pinNode r).moveToFront_eq (hslots ▸ h.distinct)
      (mem_setPinned hr : (r, true) ∈ (c.pinNode r).lruCache)
    refine ⟨⟨c.nodeCache, (r, true) :: l, c.freeSpace⟩, r, e, ?_, hslot, h.contents r _ hnode,
      h.reorder rfl rfl ((hperm.map Prod.fst).trans (hslots ▸ .refl _)), ?_⟩
    · rw [NodeCache.findInCache_hit hlt, hfront]
      rfl
    · intro i hi
      refine ⟨hperm.mem_iff.2 ?_, rfl⟩
      by_cases hir : i = r
      · rw [hir] at hi ⊢
        exact mem_setPinned hi
      · exact mem_setPinned_of_ne hi fun heq => hir (Int.ofNat_inj.1 heq)
  · right
    refine ⟨if_neg (not_lt.2 hge), ?_⟩
    intro n hn hhit
    have hlt := List.findIdx_lt_length_of_exists (p := (·.1 == nodeID)) ⟨n, hn, beq_iff_eq.2 hhit⟩
    exact absurd hlt (not_lt.2 hge)

theorem CacheInv.unpinNode (h : CacheInv cacheSize stored c) (r : Int) :
    CacheInv cacheSize stored (c.unpinNode r) ∧
      ∀ i : Nat, (i, true) ∈ c.lruCache → (i : Int) ≠ r → c.Keeps (c.unpinNode r) i := by
  have hslots := map_fst_setPinned false r c.lruCache
  refine ⟨h.reorder rfl rfl (hslots ▸ .refl _), ?_⟩
  intro i hi hir
  exact ⟨mem_setPinned_of_ne hi hir, rfl⟩

end Calls

section Disorder

variable {c c' c₁ : NodeCache} {cacheSize cacheSize' : Int}
  {stored stored' : Key → Option (List Key)}

theorem NodeCache.deleteEntries_cons (h : c.deleteEntries (i :: toDelete) = some c₁) :
    ∃ x, c.lruCache[i]? = some x ∧ x.1 < c.nodeCache.length ∧
      NodeCache.deleteEntries ⟨c.nodeCache.set x.1 ([], []), c.lruCache.dropLast, c.freeSpace⟩
        toDelete = some c₁ := by
  obtain ⟨x, hx, h⟩ := Option.bind_eq_some_iff.1 h
  refine ⟨x, hx, ?_⟩
  dsimp only at h
  split at h
  · next hlt => exact ⟨hlt, h⟩
  · cases h

theorem NodeCache.deleteEntries_lruCache (h : c.deleteEntries toDelete = some c₁) :
    c₁.lruCache = c.lruCache.take (c.lruCache.length - toDelete.length) := by
  induction toDelete generalizing c with
  | nil =>
    cases h
    rw [List.length_nil, Nat.sub_zero, List.take_length]
  | cons i toDelete ih =>
    obtain ⟨x, -, -, h⟩ := NodeCache.deleteEntries_cons h
    rw [ih h, List.length_dropLast, List.dropLast_eq_take, List.take_take, List.length_cons,
      Nat.sub_sub, Nat.add_comm 1]
    congr 1
    omega

theorem NodeCache.deleteEntries_free (h : c.deleteEntries toDelete = some c₁)
    (hr : c.node r = none) : c₁.node r = none := by
  induction toDelete generalizing c with
  | nil =>
    cases h
    exact hr
  | cons i toDelete ih =>
    obtain ⟨x, -, hlt, h⟩ := NodeCache.deleteEntries_cons h
    have hp : Puts c ⟨c.nodeCache.set x.1 ([], []), c.lruCache.dropLast, c.freeSpace⟩ x.1
        ([], []) := .set rfl hlt
    refine ih h ?_
    by_cases hrx : r = x.1
    · rw [hrx]
      exact hp.node_free rfl
    · rw [hp.node_ne hrx]
      exact hr

/-- The slots of all victims are cleared. -/
theorem NodeCache.deleteEntries_clears (hl : c.lruCache = front ++ (back ++ rest))
    (h : c.deleteEntries (unpinnedAt front.length back) = some c₁) (hx : x ∈ back)
    (hunpinned : x.2 = false) : c₁.node x.1 = none := by
  induction back using List.reverseRecOn generalizing c rest with
  | nil => exact absurd hx List.not_mem_nil
  | append_singleton back y ih =>
    rw [unpinnedAt_append] at h
    cases hy : y.2 with
    | true =>
      have hat : unpinnedAt (front.length + back.length) [y] = [] :=
        unpinnedAt_pinned (by simpa using hy) _
      rw [hat, List.nil_append] at h
      have hback : x ∈ back := by
        refine (List.mem_append.1 hx).resolve_right fun hx => ?_
        rw [List.mem_singleton.1 hx, hy] at hunpinned
        exact Bool.false_ne_true hunpinned.symm
      rw [List.append_assoc] at hl
      exact ih hl h hback
    | false =>
      rw [unpinnedAt_single hy, List.singleton_append] at h
      obtain ⟨z, hz, hlt, h⟩ := NodeCache.deleteEntries_cons h
      have hread : c.lruCache[front.length + back.length]? = some y := by
        rw [hl, List.append_assoc, ← List.append_assoc, ← List.length_append,
          List.getElem?_append_right le_rfl, Nat.sub_self]
        rfl
      obtain rfl : y = z := Option.some.inj (hread.symm.trans hz)
      rcases List.mem_append.1 hx with hx | hx
      · have hdrop : c.lruCache.dropLast = front ++ (back ++ (y :: rest).dropLast) := by
          rw [hl, List.append_assoc, List.singleton_append, ← List.append_assoc,
            List.dropLast_append_of_ne_nil (List.cons_ne_nil _ _), List.append_assoc]
        exact ih hdrop h hx
      · obtain rfl := List.mem_singleton.1 hx
        refine NodeCache.deleteEntries_free h ?_
        exact (Puts.set (c := c) rfl hlt).node_free rfl

theorem length_unpinnedAt (i : Nat) (l : List (Nat × Bool)) :
    (unpinnedAt i l).length = l.countP (!·.2) := by
  induction l generalizing i with
  | nil => rfl
  | cons x l ih =>
    rw [unpinnedAt, List.length_append, ih, List.countP_cons]
    cases x.2 with
    | true => rfl
    | false => rfl

theorem NodeCache.moveToFront_slots (h : c.moveToFront r = some c') :
    c'.nodeCache = c.nodeCache ∧ r ∈ c'.lruCache.map Prod.fst ∧
      ∀ s ∈ c.lruCache.map Prod.fst, s ∈ c'.lruCache.map Prod.fst := by
  obtain ⟨x, hx, h⟩ := Option.bind_eq_some_iff.1 h
  cases h
  have hxr : x.1 = r := beq_iff_eq.1 (List.find?_some (p := fun y : Nat × Bool => y.1 == r) hx)
  refine ⟨rfl, List.mem_map.2 ⟨x, List.mem_cons_self, hxr⟩, ?_⟩
  intro s hs
  obtain ⟨y, hy, rfl⟩ := List.mem_map.1 hs
  by_cases hyr : y.1 = r
  · exact List.mem_map.2 ⟨x, List.mem_cons_self, hxr.trans hyr.symm⟩
  · refine List.mem_map_of_mem (List.mem_cons_of_mem _ ?_)
    exact (List.mem_eraseP_of_neg (by simpa using hyr)).2 hy

theorem NodeCache.exists_victim (hfew : c.freeSpace < entrySize)
    (hfit : entrySize ≤ c.freeSpace + c.unpinnedSpace l) :
    ∃ front victim back, l = front ++ victim :: back ∧
      c.freeSpace + c.unpinnedSpace back < entrySize ∧
      entrySize ≤ c.freeSpace + c.unpinnedSpace (victim :: back) := by
  induction l with
  | nil =>
    have hzero : c.unpinnedSpace [] = 0 := rfl
    omega
  | cons x l ih =>
    by_cases hl : entrySize ≤ c.freeSpace + c.unpinnedSpace l
    · obtain ⟨front, victim, back, rfl, hback⟩ := ih hl
      exact ⟨x :: front, victim, back, rfl, hback⟩
    · exact ⟨[], x, l, rfl, not_le.1 hl, hfit⟩

theorem NodeCache.replace_eq_some (h : c.replace nodeID e = some (c', r)) :
    ∃ spaceFreed toDelete c₁ i b c₂,
      c.collect (getSize e) c.lruCache.length c.freeSpace [] = some (spaceFreed, toDelete) ∧
      c.deleteEntries toDelete.dropLast = some c₁ ∧ toDelete.getLast? = some i ∧
      c₁.lruCache[i]? = some (r, b) ∧ r < c₁.nodeCache.length ∧
      NodeCache.moveToFront ⟨c₁.nodeCache.set r (nodeID, e), c₁.lruCache.set i (r, true),
        c₁.freeSpace⟩ r = some c₂ ∧ c'.nodeCache = c₂.nodeCache ∧ c'.lruCache = c₂.lruCache := by
  obtain ⟨⟨spaceFreed, toDelete⟩, hcollect, h⟩ := Option.bind_eq_some_iff.1 h
  obtain ⟨c₁, hdelete, h⟩ := Option.bind_eq_some_iff.1 h
  obtain ⟨i, hlast, h⟩ := Option.bind_eq_some_iff.1 h
  obtain ⟨⟨r', b⟩, hread, h⟩ := Option.bind_eq_some_iff.1 h
  dsimp only at h
  split at h
  · next hlt =>
    obtain ⟨c₂, hfront, h⟩ := Option.bind_eq_some_iff.1 h
    cases h
    exact ⟨spaceFreed, toDelete, c₁, i, b, c₂, hcollect, hdelete, hlast, hread, hlt, hfront, rfl,
      rfl⟩
  · cases h

theorem NodeCache.findReplacement_slot (h : c.findReplacement nodeID e = some (c', r)) :
    c'.nodeCache[r]? = some (nodeID, e) ∧ r ∈ c'.lruCache.map Prod.fst := by
  rw [NodeCache.findReplacement] at h
  split at h
  · obtain ⟨c₂, hfront, h⟩ := Option.bind_eq_some_iff.1 h
    cases h
    obtain ⟨hnodes, hr, -⟩ := NodeCache.moveToFront_slots hfront
    refine ⟨?_, hr⟩
    change c₂.nodeCache[_]? = _
    rw [hnodes]
    dsimp only
    split
    · next hlt => rw [List.getElem?_set_self hlt]
    · next hge =>
      rw [Nat.le_antisymm List.findIdx_le_length (not_lt.1 hge), List.getElem?_concat_length]
  · obtain ⟨-, -, c₁, i, b, c₂, -, -, -, -, hlt, hfront, hnodes, hlru⟩ :=
      NodeCache.replace_eq_some h
    obtain ⟨hnodes₂, hr, -⟩ := NodeCache.moveToFront_slots hfront
    refine ⟨?_, hlru ▸ hr⟩
    rw [hnodes, hnodes₂, List.getElem?_set_self hlt]

/-- The last entries are erased, as many as are unpinned behind the last victim. One of these that
stands in front of them stays listed while its slot is cleared. -/
theorem CacheInv.cleared (h : CacheInv cacheSize stored c) (hs : c.replace nodeID e = some (c', r))
    (hl : c.lruCache = front ++ victim :: (mid ++ tail))
    (hlen : (mid ++ tail).countP (!·.2) = tail.length)
    (hfew : c.freeSpace + c.unpinnedSpace (mid ++ tail) < getSize e)
    (henough : (getSize e : Int) ≤ c.freeSpace + c.unpinnedSpace (victim :: (mid ++ tail)))
    (hx : x ∈ mid) (hunpinned : x.2 = false) :
    x.1 ∈ c'.lruCache.map Prod.fst ∧ c'.node x.1 = none := by
  obtain ⟨spaceFreed, toDelete, c₁, i, b, c₂, hcollect, hdelete, hlast, hread, hlt, hfront, hnodes,
    hlru⟩ := NodeCache.replace_eq_some hs
  rw [h.collect_eq hl hfew henough] at hcollect
  obtain ⟨-, rfl⟩ := Prod.mk.inj (Option.some.inj hcollect)
  rw [List.dropLast_concat] at hdelete
  rw [List.getLast?_concat, Option.some_inj] at hlast
  subst hlast
  have hback : x ∈ mid ++ tail := List.mem_append_left _ hx
  have hsplit : c.lruCache = (front ++ [victim]) ++ ((mid ++ tail) ++ []) := by
    rw [hl, List.append_nil, List.append_assoc]
    rfl
  have hfree : c₁.node x.1 = none := by
    refine NodeCache.deleteEntries_clears hsplit ?_ hback hunpinned
    rw [List.length_append, List.length_singleton]
    exact hdelete
  have hlru₁ : c₁.lruCache = front ++ victim :: mid := by
    have hsplit : c.lruCache = (front ++ victim :: mid) ++ tail := by
      rw [hl, List.append_assoc, List.cons_append]
    rw [NodeCache.deleteEntries_lruCache hdelete, length_unpinnedAt, hlen, hsplit,
      List.length_append, Nat.add_sub_cancel, List.take_left]
  obtain rfl : victim = (r, b) := by
    rw [hlru₁, getElem?_behind] at hread
    exact Option.some.inj hread
  have hne : x.1 ≠ r := by
    have hdistinct := h.distinct
    rw [hl, List.map_append, List.map_cons, List.nodup_append, List.nodup_cons] at hdistinct
    intro hxr
    exact hdistinct.2.1.1 (List.mem_map.2 ⟨x, hback, hxr⟩)
  obtain ⟨hnodes₂, -, hslots⟩ := NodeCache.moveToFront_slots hfront
  constructor
  · rw [hlru]
    refine hslots _ (List.mem_map_of_mem ?_)
    rw [hlru₁, set_behind]
    exact List.mem_append_right _ (List.mem_cons_of_mem _ hx)
  · have hp : Puts c₁ c' r (nodeID, e) := .set (hnodes.trans hnodes₂) hlt
    rw [hp.node_ne hne, hfree]

theorem CacheInv.findInCache_free (h : CacheInv cacheSize stored c) (hn : n ∈ c.nodeCache)
    (hfree : n.1 = []) : c.findInCache [] = none := by
  let r := c.nodeCache.findIdx (·.1 == [])
  have hlt : r < c.nodeCache.length :=
    List.findIdx_lt_length_of_exists ⟨n, hn, beq_iff_eq.2 hfree⟩
  have hnode : c.node r = none := c.node_free
  have hunlisted : (c.pinNode r).moveToFront r = none := by
    rw [Option.eq_none_iff_forall_ne_some]
    intro c' hc'
    obtain ⟨x, hx, -⟩ := Option.bind_eq_some_iff.1 hc'
    have hxr : x.1 = r := beq_iff_eq.1 (List.find?_some (p := fun y : Nat × Bool => y.1 == r) hx)
    have hr : r ∈ (c.pinNode r).lruCache.map Prod.fst :=
      List.mem_map.2 ⟨x, List.mem_of_find?_eq_some hx, hxr⟩
    rw [NodeCache.pinNode, map_fst_setPinned, h.listed, hnode] at hr
    exact Bool.false_ne_true hr
  rw [NodeCache.findInCache_hit hlt, hunlisted]
  rfl

theorem exists_tail (back : List (Nat × Bool)) :
    ∃ mid tail, back = mid ++ tail ∧ back.countP (!·.2) = tail.length := by
  refine ⟨_, _, (List.take_append_drop (back.length - back.countP (!·.2)) back).symm, ?_⟩
  have hle : back.countP (!·.2) ≤ back.length := List.countP_le_length
  rw [List.length_drop]
  omega

theorem tail_unpinned {mid tail : List (Nat × Bool)}
    (hlen : (mid ++ tail).countP (!·.2) = tail.length)
    (hmid : ∀ x ∈ mid, x.2 = true) : ∀ x ∈ tail, x.2 = false := by
  have hzero : mid.countP (!·.2) = 0 := List.countP_eq_zero.2 fun x hx => by simp [hmid x hx]
  rw [List.countP_append, hzero, Nat.zero_add, List.countP_eq_length] at hlen
  intro x hx
  exact Bool.not_eq_true' _ ▸ hlen x hx

theorem CacheInv.id_ne_nil (h : CacheInv cacheSize stored c')
    (hs : c.findReplacement nodeID e = some (c', r)) : nodeID ≠ [] := by
  obtain ⟨hslot, hr⟩ := NodeCache.findReplacement_slot hs
  obtain ⟨n, hn⟩ := Option.isSome_iff_exists.1 ((h.listed r).1 hr)
  obtain ⟨hslot', hne⟩ := NodeCache.node_eq_some.1 hn
  obtain rfl := Option.some.inj (hslot.symm.trans hslot')
  exact hne

/-- A call that keeps the invariant has found the victims in order. -/
theorem CacheInv.orderly (h : CacheInv cacheSize stored c) (ha : c.Allowed op)
    (hs : c.step op = some c') (h' : CacheInv cacheSize' stored' c') : c.Orderly op := by
  cases op with
  | unpin r => exact True.intro
  | find nodeID =>
    rintro rfl n hn hfree
    rw [NodeCache.step, h.findInCache_free hn hfree] at hs
    cases hs
  | store nodeID e =>
    obtain ⟨⟨c₁, r⟩, hreplace, hc₁⟩ := Option.map_eq_some_iff.1 hs
    obtain rfl : c₁ = c' := hc₁
    refine ⟨h'.id_ne_nil hreplace, or_iff_not_imp_left.2 fun hsize => ?_⟩
    rw [NodeCache.findReplacement, if_neg hsize] at hreplace
    obtain ⟨front, victim, back, hl, hfew, henough⟩ :=
      NodeCache.exists_victim (not_le.1 hsize) ha.2
    obtain ⟨mid, tail, rfl, hlen⟩ := exists_tail back
    have hmid : ∀ x ∈ mid, x.2 = true := by
      intro x hx
      by_contra hunpinned
      rw [Bool.not_eq_true] at hunpinned
      obtain ⟨hlisted, hfree⟩ := h.cleared hreplace hl hlen hfew henough hx hunpinned
      have hsome := (h'.listed x.1).1 hlisted
      rw [hfree] at hsome
      exact Bool.false_ne_true hsome
    have hback : c.unpinnedSpace (mid ++ tail) = c.unpinnedSpace tail :=
      NodeCache.unpinnedSpace_tail hmid
    have hunpinned := NodeCache.victim_unpinned hfew henough
    rw [NodeCache.unpinnedSpace_unpinned hunpinned, hback,
      ← NodeCache.unpinnedSpace_unpinned hunpinned] at henough
    exact ⟨front, victim, mid, tail, hl, hmid, tail_unpinned hlen hmid, hback ▸ hfew, henough⟩

end Disorder

section Runs

variable {c c' : NodeCache} {cacheSize : Int}

theorem lastStored_concat (nodeID : Key) (ops : List CacheOp) (op : CacheOp) :
    lastStored nodeID (ops ++ [op]) = (lastStored nodeID [op]).or (lastStored nodeID ops) := by
  induction ops with
  | nil => rw [List.nil_append, lastStored, Option.or_none]
  | cons op' ops ih =>
    cases op' with
    | store n e => rw [List.cons_append, lastStored, lastStored, ih, Option.or_assoc]
    | find n => exact ih
    | unpin r => exact ih

theorem lastStored_store (nodeID : Key) (ops : List CacheOp) (n : Key) (e : List Key) :
    lastStored n (ops ++ [.store nodeID e]) = if n = nodeID then some e else lastStored n ops := by
  rw [lastStored_concat, lastStored, lastStored, Option.none_or]
  by_cases hn : n = nodeID
  · rw [if_pos hn, if_pos hn.symm, Option.some_or]
  · rw [if_neg hn, if_neg fun h => hn h.symm, Option.none_or]

theorem CacheInv.findReplacement (h : CacheInv cacheSize (lastStored · ops) c)
    (ha : c.Allowed (.store nodeID e)) (ho : c.Orderly (.store nodeID e)) :
    ∃ c' r, c.findReplacement nodeID e = some (c', r) ∧
      CacheInv cacheSize (lastStored · (ops ++ [.store nodeID e])) c' ∧
      ∀ i, (i, true) ∈ c.lruCache → c.Keeps c' i := by
  have hstored := lastStored_store nodeID ops (e := e)
  obtain ⟨hID, hfit⟩ := ho
  by_cases hsize : (getSize e : Int) ≤ c.freeSpace
  · rw [NodeCache.findReplacement, if_pos hsize]
    exact h.fill hID ha.1 hstored
  · obtain ⟨front, victim, mid, tail, hl, hmid, htail, hfew, henough⟩ := hfit.resolve_left hsize
    rw [NodeCache.findReplacement, if_neg hsize]
    exact h.replace hID ha.1 hstored hl hmid htail hfew henough

theorem CacheInv.step (h : CacheInv cacheSize (lastStored · ops) c) (ha : c.Allowed op)
    (ho : c.Orderly op) :
    ∃ c', c.step op = some c' ∧ CacheInv cacheSize (lastStored · (ops ++ [op])) c' ∧
      ∀ i : Nat, (i, true) ∈ c.lruCache → op ≠ .unpin i → c.Keeps c' i := by
  cases op with
  | find nodeID =>
    have hstored : (lastStored · (ops ++ [.find nodeID])) = (lastStored · ops) :=
      funext fun n => lastStored_concat n ops _
    rcases h.findInCache ho with ⟨c', r, e, hfind, -, -, hinv, hkeep⟩ | ⟨hfind, -⟩
    · exact ⟨c', by rw [NodeCache.step, hfind]; rfl, hstored ▸ hinv, fun i hi _ => hkeep i hi⟩
    · exact ⟨c, by rw [NodeCache.step, hfind]; rfl, hstored ▸ h, fun i hi _ => ⟨hi, rfl⟩⟩
  | store nodeID e =>
    obtain ⟨c', r, hreplace, hinv, hkeep⟩ := h.findReplacement ha ho
    exact ⟨c', by rw [NodeCache.step, hreplace]; rfl, hinv, fun i hi _ => hkeep i hi⟩
  | unpin r =>
    have hstored : (lastStored · (ops ++ [.unpin r])) = (lastStored · ops) :=
      funext fun n => lastStored_concat n ops _
    obtain ⟨hinv, hkeep⟩ := h.unpinNode r
    refine ⟨c.unpinNode r, rfl, hstored ▸ hinv, ?_⟩
    intro i hi hne
    exact hkeep i hi fun hir => hne (hir ▸ rfl)

theorem CacheRun.inv (h : CacheRun cacheSize ops c) :
    CacheInv cacheSize (lastStored · ops) c := by
  induction h with
  | empty => exact .empty cacheSize _
  | step _ op ha ho hs ih =>
    obtain ⟨c', hc', hinv, -⟩ := ih.step ha ho
    rw [hs, Option.some_inj] at hc'
    exact hc' ▸ hinv

/-- The cache over its runs: the invariant holds, the calls that keep it are those that find the
victims in order, pinned nodes stay where they are, and a hit returns what was stored last. -/
theorem nodeCache_safe (h : CacheRun cacheSize ops c) :
    CacheInv cacheSize (lastStored · ops) c ∧
      (∀ op, c.Allowed op → (c.Orderly op ↔
        ∃ c', c.step op = some c' ∧ CacheInv cacheSize (lastStored · (ops ++ [op])) c')) ∧
      (∀ op c', c.Allowed op → c.Orderly op → c.step op = some c' →
        ∀ r : Nat, (r, true) ∈ c.lruCache → c'.nodeCache[r]? = c.nodeCache[r]? ∧
          (op ≠ .unpin r → (r, true) ∈ c'.lruCache)) ∧
      ∀ nodeID, c.Orderly (.find nodeID) →
        (∃ c' r e, c.findInCache nodeID = some (c', some r) ∧
          c'.nodeCache[r]? = some (nodeID, e) ∧ lastStored nodeID ops = some e) ∨
        c.findInCache nodeID = some (c, none) ∧ ∀ n ∈ c.nodeCache, n.1 ≠ nodeID := by
  have hinv := h.inv
  refine ⟨hinv, ?_, ?_, ?_⟩
  · intro op ha
    constructor
    · intro ho
      obtain ⟨c', hs, hinv', -⟩ := hinv.step ha ho
      exact ⟨c', hs, hinv'⟩
    · rintro ⟨c', hs, hinv'⟩
      exact hinv.orderly ha hs hinv'
  · intro op c' ha ho hs r hr
    by_cases hop : op = .unpin r
    · rw [hop] at hs
      cases hs
      exact ⟨rfl, fun hne => absurd hop hne⟩
    · obtain ⟨c₁, hs₁, -, hkeep⟩ := hinv.step ha ho
      obtain rfl : c₁ = c' := Option.some.inj (hs₁.symm.trans hs)
      exact ⟨(hkeep r hr hop).2, fun _ => (hkeep r hr hop).1⟩
  · intro nodeID ho
    rcases hinv.findInCache ho with ⟨c', r, e, hfind, hslot, hlast, -⟩ | hmiss
    · exact Or.inl ⟨c', r, e, hfind, hslot, hlast⟩
    · exact Or.inr hmiss

/-- A query that has its root pinned in the slot 0 and has visited two children. -/
def pinnedRoot : NodeCache :=
  ⟨[([49], [[1]]), ([50], [[2]]), ([51], [[3]])], [(2, false), (1, false), (0, true)], 0⟩

theorem pinnedRoot_run : CacheRun 3 [.store [49] [[1]], .store [50] [[2]], .unpin 1,
    .store [51] [[3]], .unpin 2] pinnedRoot := by
  have h₁ : CacheRun 3 _ ⟨[([49], [[1]])], [(0, true)], 2⟩ :=
    .step .empty (.store [49] [[1]]) ⟨by decide, by decide⟩ ⟨by decide, .inl (by decide)⟩ rfl
  have h₂ : CacheRun 3 _ ⟨[([49], [[1]]), ([50], [[2]])], [(1, true), (0, true)], 1⟩ :=
    .step h₁ (.store [50] [[2]]) ⟨by decide, by decide⟩ ⟨by decide, .inl (by decide)⟩ rfl
  have h₃ := CacheRun.step h₂ (.unpin 1) True.intro True.intro rfl
  have h₄ : CacheRun 3 _ ⟨[([49], [[1]]), ([50], [[2]]), ([51], [[3]])],
      [(2, true), (1, false), (0, true)], 0⟩ :=
    .step h₃ (.store [51] [[3]]) ⟨by decide, by decide⟩ ⟨by decide, .inl (by decide)⟩ rfl
  exact .step h₄ (.unpin 2) True.intro True.intro rfl

theorem nodeCache_safe_evict : ∃ c c', CacheRun 3 [.store [49] [[1]], .store [50] [[2]], .unpin 1,
      .store [51] [[3]], .unpin 2, .find [49]] c ∧ c.step (.store [52] [[4, 5]]) = some c' ∧
    c'.freeSpace + c'.totalSize = 3 ∧ (c'.lruCache.map Prod.fst).Nodup ∧
    c'.nodeCache[0]? = c.nodeCache[0]? ∧ (0, true) ∈ c'.lruCache := by
  let c : NodeCache := { pinnedRoot with lruCache := [(0, true), (2, false), (1, false)] }
  have hrun : CacheRun 3 _ c := .step pinnedRoot_run (.find [49]) True.intro
    (fun h => absurd h (by decide)) rfl
  have ha : c.Allowed (.store [52] [[4, 5]]) := ⟨by decide, by decide⟩
  have ho : c.Orderly (.store [52] [[4, 5]]) := ⟨by decide, .inr ⟨[(0, true)], (2, false), [],
    [(1, false)], rfl, by decide, by decide, by decide, by decide⟩⟩
  obtain ⟨-, hstep, hkeep, -⟩ := nodeCache_safe hrun
  obtain ⟨c', hs, hinv⟩ := (hstep _ ha).1 ho
  obtain ⟨hnode, hpin⟩ := hkeep _ c' ha ho hs 0 List.mem_cons_self
  exact ⟨c, c', hrun, hs, hinv.space, hinv.distinct, hnode, hpin (by decide)⟩

/-- The root is the last of `lruCache` when a node of size 2 is stored: its entry is erased in the
place of the first child's. The root is still cached but no longer listed, the free slot is, and
the next call for the root fails its assertion. -/
theorem not_nodeCache_safe : ∃ c c', CacheRun 3 [.store [49] [[1]], .store [50] [[2]], .unpin 1,
      .store [51] [[3]], .unpin 2] c ∧ c.Allowed (.store [52] [[4, 5]]) ∧
    c.step (.store [52] [[4, 5]]) = some c' ∧
    (0, true) ∈ c.lruCache ∧ c'.nodeCache[0]? = some ([49], [[1]]) ∧
    0 ∉ c'.lruCache.map Prod.fst ∧
    c'.nodeCache[1]? = some ([], []) ∧ 1 ∈ c'.lruCache.map Prod.fst ∧
    c'.step (.find [49]) = none := by
  refine ⟨pinnedRoot, ⟨[([49], [[1]]), ([], []), ([52], [[4, 5]])], [(2, true), (1, false)], 0⟩,
    pinnedRoot_run, ⟨by decide, by decide⟩, rfl, ?_⟩
  decide

end Runs

end XGossip
