import Mathlib.Data.List.Nodup
import XGossip.Index.Node

namespace XGossip
set_option autoImplicit true

section Code

/-- A slot of `nodeCache`: the ID of a node and its entries, the ID "" where the slot is free. -/
abbrev Slot := Key × List Key

/-- The global variables of the cache. `lruCache` lists slots and tells whether they are pinned,
the least recently used slot last. -/
structure NodeCache where
  nodeCache : List Slot
  lruCache : List (Nat × Bool)
  freeSpace : Int
deriving DecidableEq

def NodeCache.empty (cacheSize : Int) : NodeCache := ⟨[], [], cacheSize⟩

def getSize (e : List Key) : Nat := (e.map List.length).sum

/-- The loop of `pinNode` and `unpinNode`: the first entry of the slot `r` gets the flag. -/
def setPinned (b : Bool) (r : Int) : List (Nat × Bool) → List (Nat × Bool)
  | [] => []
  | e :: l => if e.1 = r then (e.1, b) :: l else e :: setPinned b r l

def NodeCache.pinNode (c : NodeCache) (r : Int) : NodeCache :=
  { c with lruCache := setPinned true r c.lruCache }

def NodeCache.unpinNode (c : NodeCache) (r : Int) : NodeCache :=
  { c with lruCache := setPinned false r c.lruCache }

/-- `moveToFront`, which asserts that the slot is listed. -/
def NodeCache.moveToFront (c : NodeCache) (r : Nat) : Option NodeCache := do
  let e ← c.lruCache.find? (·.1 == r)
  return { c with lruCache := e :: c.lruCache.eraseP (·.1 == r) }

/-- `findReplacement` where the entries fit: the first free slot is taken, or a new one. -/
def NodeCache.fill (c : NodeCache) (nodeID : Key) (e : List Key) : Option (NodeCache × Nat) := do
  let i := c.nodeCache.findIdx (·.1 == [])
  let nodeCache := if i < c.nodeCache.length then c.nodeCache.set i (nodeID, e)
    else c.nodeCache ++ [(nodeID, e)]
  let c' := { c with nodeCache, lruCache := c.lruCache ++ [(i, true)] }
  let c' ← c'.moveToFront i
  return ({ c' with freeSpace := c'.freeSpace - getSize e }, i)

/-- The loop of `findReplacement` that collects the victims, the last entry of `lruCache` first;
it asserts that they free enough space. -/
def NodeCache.collect (c : NodeCache) (entrySize : Int) :
    Nat → Int → List Nat → Option (Int × List Nat)
  | 0, _, _ => none
  | i + 1, spaceFreed, toDelete => do
    let (r, isPinned) ← c.lruCache[i]?
    let (spaceFreed, toDelete) ← if isPinned then some (spaceFreed, toDelete)
      else c.nodeCache[r]?.map fun n => (spaceFreed + getSize n.2, toDelete ++ [i])
    if entrySize ≤ spaceFreed then return (spaceFreed, toDelete)
    else c.collect entrySize i spaceFreed toDelete

/-- The loop over the victims: the slot of a victim is cleared, and the last entry of `lruCache`
is erased, whichever it is. -/
def NodeCache.deleteEntries (c : NodeCache) : List Nat → Option NodeCache
  | [] => some c
  | i :: toDelete => do
    let (r, _) ← c.lruCache[i]?
    let c' := { c with
      nodeCache := c.nodeCache.set r ([], [])
      lruCache := c.lruCache.dropLast }
    if r < c.nodeCache.length then c'.deleteEntries toDelete else none

/-- `findReplacement` where the entries do not fit: all victims are deleted but the last one, the
slot of which is taken. -/
def NodeCache.replace (c : NodeCache) (nodeID : Key) (e : List Key) :
    Option (NodeCache × Nat) := do
  let (spaceFreed, toDelete) ← c.collect (getSize e) c.lruCache.length c.freeSpace []
  let c' ← c.deleteEntries toDelete.dropLast
  let i ← toDelete.getLast?
  let (r, _) ← c'.lruCache[i]?
  if r < c'.nodeCache.length then
    let c' := { c' with
      nodeCache := c'.nodeCache.set r (nodeID, e)
      lruCache := c'.lruCache.set i (r, true) }
    let c' ← c'.moveToFront r
    return ({ c' with freeSpace := spaceFreed - getSize e }, r)
  else none

/-- `findReplacement` returns the slot that it pins; `none` is a failed assertion or an access
outside of a vector. -/
def NodeCache.findReplacement (c : NodeCache) (nodeID : Key) (e : List Key) :
    Option (NodeCache × Nat) :=
  if (getSize e : Int) ≤ c.freeSpace then c.fill nodeID e else c.replace nodeID e

/-- `findInCache`: the slot of a hit, which is pinned, or `none` inside of `some` for a miss. -/
def NodeCache.findInCache (c : NodeCache) (nodeID : Key) : Option (NodeCache × Option Nat) := do
  let i := c.nodeCache.findIdx (·.1 == nodeID)
  if i < c.nodeCache.length then
    let c' ← (c.pinNode i).moveToFront i
    return (c', some i)
  else return (c, none)

inductive CacheOp where
  | find (nodeID : Key)
  | store (nodeID : Key) (e : List Key)
  | unpin (r : Int)
deriving DecidableEq

def NodeCache.step (c : NodeCache) : CacheOp → Option NodeCache
  | .find nodeID => (c.findInCache nodeID).map Prod.fst
  | .store nodeID e => (c.findReplacement nodeID e).map Prod.fst
  | .unpin r => some (c.unpinNode r)

end Code

section Purpose

def NodeCache.node (c : NodeCache) (r : Nat) : Option Slot := c.nodeCache[r]?.filter (·.1 ≠ [])

def nodeSize (n : Slot) : Nat := if n.1 = [] then 0 else getSize n.2

def NodeCache.slotSize (c : NodeCache) (r : Nat) : Nat := (c.node r).elim 0 nodeSize

def NodeCache.totalSize (c : NodeCache) : Nat := (c.nodeCache.map nodeSize).sum

/-- The space that the unpinned ones of some entries of `lruCache` take. -/
def NodeCache.unpinnedSpace (c : NodeCache) (l : List (Nat × Bool)) : Nat :=
  ((l.filter (!·.2)).map fun x => c.slotSize x.1).sum

/-- The entries that the last call for `nodeID` stored. -/
def lastStored (nodeID : Key) : List CacheOp → Option (List Key)
  | [] => none
  | .store nodeID' e :: ops =>
    (lastStored nodeID ops).or (if nodeID' = nodeID then some e else none)
  | _ :: ops => lastStored nodeID ops

/-- The calls that are allowed: a node is stored only if it is not cached, and if its entries fit
in the free space and the space of the unpinned nodes. -/
def NodeCache.Allowed (c : NodeCache) : CacheOp → Prop
  | .store nodeID e => (∀ n ∈ c.nodeCache, n.1 ≠ nodeID) ∧
      (getSize e : Int) ≤ c.freeSpace + c.unpinnedSpace c.lruCache
  | _ => True

/-- The order in which `lruCache` must hold the victims: if entries do not fit, then the unpinned
nodes that must go, the last victim apart, are the last of `lruCache`, with no pinned one among or
behind them. The ID "" marks a free slot, so it is never stored, and is asked for only while no slot
is free. -/
def NodeCache.Orderly (c : NodeCache) : CacheOp → Prop
  | .find nodeID => nodeID = [] → ∀ n ∈ c.nodeCache, n.1 ≠ []
  | .store nodeID e => nodeID ≠ [] ∧ ((getSize e : Int) ≤ c.freeSpace ∨
      ∃ front victim mid tail, c.lruCache = front ++ victim :: (mid ++ tail) ∧
        (∀ x ∈ mid, x.2 = true) ∧ (∀ x ∈ tail, x.2 = false) ∧
        c.freeSpace + c.unpinnedSpace tail < getSize e ∧
        (getSize e : Int) ≤ c.freeSpace + c.unpinnedSpace (victim :: tail))
  | .unpin _ => True

/-- A run of the cache from the empty one: calls that are allowed and find the victims in order. -/
inductive CacheRun (cacheSize : Int) : List CacheOp → NodeCache → Prop
  | empty : CacheRun cacheSize [] (.empty cacheSize)
  | step : CacheRun cacheSize ops c → ∀ op, c.Allowed op → c.Orderly op → c.step op = some c' →
      CacheRun cacheSize (ops ++ [op]) c'

structure CacheInv (cacheSize : Int) (stored : Key → Option (List Key)) (c : NodeCache) :
    Prop where
  space : c.freeSpace + c.totalSize = cacheSize
  distinct : (c.lruCache.map Prod.fst).Nodup
  listed : ∀ r, r ∈ c.lruCache.map Prod.fst ↔ (c.node r).isSome
  once : ∀ i j n m, c.node i = some n → c.node j = some m → n.1 = m.1 → i = j
  contents : ∀ r n, c.node r = some n → stored n.1 = some n.2

end Purpose

section Slots

variable {c c' : NodeCache} {cacheSize : Int} {stored : Key → Option (List Key)}

theorem NodeCache.node_eq_some :
    c.node r = some n ↔ c.nodeCache[r]? = some n ∧ n.1 ≠ [] := by
  rw [NodeCache.node, Option.filter_eq_some_iff, decide_eq_true_iff]

theorem NodeCache.node_mem (h : c.node r = some n) : n ∈ c.nodeCache :=
  List.mem_of_getElem? (NodeCache.node_eq_some.1 h).1

theorem NodeCache.node_congr (h : c'.nodeCache[r]? = c.nodeCache[r]?) : c'.node r = c.node r :=
  congrArg (Option.filter _) h

theorem NodeCache.node_free (c : NodeCache) : c.node (c.nodeCache.findIdx (·.1 == [])) = none := by
  rw [Option.eq_none_iff_forall_ne_some]
  intro n hn
  obtain ⟨hslot, hne⟩ := NodeCache.node_eq_some.1 hn
  obtain ⟨hlt, hn⟩ := List.getElem?_eq_some_iff.1 hslot
  have hfree := List.findIdx_getElem (w := hlt)
  rw [hn, beq_iff_eq] at hfree
  exact hne hfree

theorem nodeSize_of_ne (h : n.1 ≠ []) : nodeSize n = getSize n.2 := if_neg h

theorem NodeCache.slotSize_eq (h : c.nodeCache[r]? = some n) : c.slotSize r = nodeSize n := by
  by_cases hn : n.1 = []
  · have hnode : c.node r = none := by
      rw [NodeCache.node, h, Option.filter_some, if_neg (by simpa using hn)]
    rw [NodeCache.slotSize, hnode, nodeSize, if_pos hn]
    rfl
  · rw [NodeCache.slotSize, NodeCache.node_eq_some.2 ⟨h, hn⟩]
    rfl

/-- The step from `c` to `c'` puts the node `n` into the slot `r`, and nothing else. -/
structure Puts (c c' : NodeCache) (r : Nat) (n : Slot) : Prop where
  same : ∀ i, i ≠ r → c'.nodeCache[i]? = c.nodeCache[i]?
  slot : c'.nodeCache[r]? = some n
  size : c'.totalSize + c.slotSize r = c.totalSize + nodeSize n

theorem Puts.set (h : c'.nodeCache = c.nodeCache.set r n) (hr : r < c.nodeCache.length) :
    Puts c c' r n where
  same i hi := by rw [h, List.getElem?_set_ne hi.symm]
  slot := by rw [h, List.getElem?_set_self hr]
  size := by
    have hold := NodeCache.slotSize_eq (List.getElem?_eq_getElem hr)
    have hsplit := List.take_append_drop r c.nodeCache
    rw [List.drop_eq_getElem_cons hr] at hsplit
    have hc : c.totalSize = ((c.nodeCache.take r).map nodeSize).sum +
        (nodeSize c.nodeCache[r] + ((c.nodeCache.drop (r + 1)).map nodeSize).sum) := by
      rw [NodeCache.totalSize, ← List.sum_cons, ← List.map_cons, ← List.sum_append,
        ← List.map_append, hsplit]
    have hc' : c'.totalSize = ((c.nodeCache.take r).map nodeSize).sum +
        (nodeSize n + ((c.nodeCache.drop (r + 1)).map nodeSize).sum) := by
      rw [NodeCache.totalSize, h, List.set_eq_take_append_cons_drop, if_pos hr, List.map_append,
        List.sum_append, List.map_cons, List.sum_cons]
    omega

theorem Puts.push (h : c'.nodeCache = c.nodeCache ++ [n]) : Puts c c' c.nodeCache.length n where
  same i hi := by
    rw [h]
    rcases Nat.lt_or_gt_of_ne hi with hlt | hgt
    · exact List.getElem?_append_left hlt
    · rw [List.getElem?_eq_none hgt.le, List.getElem?_eq_none]
      rw [List.length_append, List.length_singleton]
      exact hgt
  slot := by rw [h, List.getElem?_concat_length]
  size := by
    have hnone : c.slotSize c.nodeCache.length = 0 := by
      rw [NodeCache.slotSize, NodeCache.node, List.getElem?_eq_none le_rfl]
      rfl
    rw [hnone, NodeCache.totalSize, h, List.map_append, List.sum_append, List.map_singleton,
      List.sum_singleton]
    rfl

theorem Puts.node_ne (h : Puts c c' r n) (hi : i ≠ r) : c'.node i = c.node i :=
  NodeCache.node_congr (h.same i hi)

theorem Puts.node_self (h : Puts c c' r n) (hn : n.1 ≠ []) : c'.node r = some n :=
  NodeCache.node_eq_some.2 ⟨h.slot, hn⟩

theorem Puts.node_free (h : Puts c c' r n) (hn : n.1 = []) : c'.node r = none := by
  rw [Option.eq_none_iff_forall_ne_some]
  intro m hm
  obtain ⟨hslot, hne⟩ := NodeCache.node_eq_some.1 hm
  rw [h.slot, Option.some_inj] at hslot
  exact hne (hslot ▸ hn)

end Slots

section Lists

variable {c c' : NodeCache} {cacheSize : Int} {stored : Key → Option (List Key)}

theorem map_fst_setPinned (b : Bool) (r : Int) (l : List (Nat × Bool)) :
    (setPinned b r l).map Prod.fst = l.map Prod.fst := by
  induction l with
  | nil => rfl
  | cons x l ih =>
    rw [setPinned]
    split
    · rfl
    · rw [List.map_cons, List.map_cons, ih]

theorem mem_setPinned_of_ne (hx : x ∈ l) (hr : (x.1 : Int) ≠ r) : x ∈ setPinned b r l := by
  induction l with
  | nil => exact hx
  | cons y l ih =>
    rw [setPinned]
    rcases List.mem_cons.1 hx with rfl | hx
    · rw [if_neg hr]
      exact List.mem_cons_self
    · split
      · exact List.mem_cons_of_mem _ hx
      · exact List.mem_cons_of_mem _ (ih hx)

theorem mem_setPinned {r : Nat} (hx : (r, b') ∈ l) : (r, b) ∈ setPinned b r l := by
  induction l with
  | nil => exact absurd hx List.not_mem_nil
  | cons y l ih =>
    rw [setPinned]
    split
    · next hy =>
      rw [Int.ofNat_inj.1 hy]
      exact List.mem_cons_self
    · next hy =>
      rcases List.mem_cons.1 hx with rfl | hx
      · exact absurd rfl hy
      · exact List.mem_cons_of_mem _ (ih hx)

theorem NodeCache.moveToFront_eq (hnodup : (c.lruCache.map Prod.fst).Nodup)
    (hx : (r, b) ∈ c.lruCache) :
    ∃ l, c.moveToFront r = some { c with lruCache := (r, b) :: l } ∧
      List.Perm ((r, b) :: l) c.lruCache := by
  obtain ⟨front, back, hl⟩ := List.append_of_mem hx
  have hfront : ∀ x ∈ front, (x.1 == r) = false := by
    intro x hx
    rw [hl, List.map_append, List.map_cons, List.nodup_middle, List.nodup_cons] at hnodup
    refine beq_false_of_ne fun hr => hnodup.1 ?_
    exact List.mem_append_left _ (List.mem_map.2 ⟨x, hx, hr⟩)
  have hfind : c.lruCache.find? (·.1 == r) = some (r, b) := by
    rw [hl, List.find?_append, List.find?_eq_none.2 fun x hx => by simp [hfront x hx],
      Option.none_or, List.find?_cons_of_pos (by exact beq_self_eq_true r)]
  have herase : c.lruCache.eraseP (·.1 == r) = front ++ back := by
    rw [hl, List.eraseP_append_right _ fun x hx => by simp [hfront x hx],
      List.eraseP_cons_of_pos (by exact beq_self_eq_true r)]
  refine ⟨front ++ back, ?_, ?_⟩
  · rw [NodeCache.moveToFront, hfind, herase]
    rfl
  · rw [hl]
    exact List.perm_middle.symm

theorem getElem?_behind (front back : List (Nat × Bool)) (x : Nat × Bool) :
    (front ++ x :: back)[front.length]? = some x := by
  rw [List.getElem?_append_right le_rfl, Nat.sub_self, List.getElem?_cons_zero]

theorem set_behind (front back : List (Nat × Bool)) (x y : Nat × Bool) :
    (front ++ x :: back).set front.length y = front ++ y :: back := by
  rw [List.set_append_right _ _ le_rfl, Nat.sub_self, List.set_cons_zero]

/-- The positions of the unpinned entries of a part of `lruCache` that begins at `i`, the last one
first. -/
def unpinnedAt : Nat → List (Nat × Bool) → List Nat
  | _, [] => []
  | i, x :: l => unpinnedAt (i + 1) l ++ if x.2 then [] else [i]

theorem unpinnedAt_single (h : x.2 = false) (i : Nat) : unpinnedAt i [x] = [i] := by
  rw [unpinnedAt, if_neg (by rw [h]; exact Bool.false_ne_true)]
  rfl

theorem unpinnedAt_append (i : Nat) (l₁ l₂ : List (Nat × Bool)) :
    unpinnedAt i (l₁ ++ l₂) = unpinnedAt (i + l₁.length) l₂ ++ unpinnedAt i l₁ := by
  induction l₁ generalizing i with
  | nil => rw [List.nil_append, unpinnedAt, List.append_nil, List.length_nil, Nat.add_zero]
  | cons x l₁ ih =>
    rw [List.cons_append, unpinnedAt, ih, unpinnedAt, List.append_assoc, List.length_cons,
      Nat.add_right_comm, Nat.add_assoc]

theorem unpinnedAt_pinned (h : ∀ x ∈ l, x.2 = true) (i : Nat) : unpinnedAt i l = [] := by
  induction l generalizing i with
  | nil => rfl
  | cons x l ih =>
    rw [unpinnedAt, ih fun y hy => h y (List.mem_cons_of_mem _ hy),
      if_pos (h x List.mem_cons_self), List.append_nil]

theorem NodeCache.unpinnedSpace_append (c : NodeCache) (l₁ l₂ : List (Nat × Bool)) :
    c.unpinnedSpace (l₁ ++ l₂) = c.unpinnedSpace l₁ + c.unpinnedSpace l₂ := by
  rw [unpinnedSpace, List.filter_append, List.map_append, List.sum_append]
  rfl

theorem NodeCache.unpinnedSpace_pinned (h : x.2 = true) :
    c.unpinnedSpace (x :: l) = c.unpinnedSpace l := by
  rw [unpinnedSpace, List.filter_cons_of_neg (by simp [h])]
  rfl

theorem NodeCache.unpinnedSpace_unpinned (h : x.2 = false) :
    c.unpinnedSpace (x :: l) = c.slotSize x.1 + c.unpinnedSpace l := by
  rw [unpinnedSpace, List.filter_cons_of_pos (by simp [h]), List.map_cons, List.sum_cons]
  rfl

theorem NodeCache.unpinnedSpace_eq_zero (h : ∀ x ∈ l, x.2 = true) : c.unpinnedSpace l = 0 := by
  rw [unpinnedSpace, List.filter_eq_nil_iff.2 fun x hx => by simp [h x hx]]
  rfl

theorem NodeCache.unpinnedSpace_tail (hmid : ∀ x ∈ mid, x.2 = true) :
    c.unpinnedSpace (mid ++ tail) = c.unpinnedSpace tail := by
  rw [c.unpinnedSpace_append, NodeCache.unpinnedSpace_eq_zero hmid, Nat.zero_add]

theorem NodeCache.unpinnedSpace_congr (h : ∀ x ∈ l, c'.node x.1 = c.node x.1) :
    c'.unpinnedSpace l = c.unpinnedSpace l := by
  refine congrArg List.sum (List.map_congr_left fun x hx => ?_)
  rw [NodeCache.slotSize, NodeCache.slotSize, h x (List.mem_of_mem_filter hx)]

end Lists

section Invariant

variable {c c' : NodeCache} {cacheSize : Int} {stored stored' : Key → Option (List Key)}

theorem CacheInv.empty (cacheSize : Int) (stored : Key → Option (List Key)) :
    CacheInv cacheSize stored (.empty cacheSize) where
  space := Int.add_zero _
  distinct := List.nodup_nil
  listed _ := ⟨fun h => absurd h List.not_mem_nil, fun h => absurd h Bool.false_ne_true⟩
  once _ _ _ _ hi := absurd hi (Option.some_ne_none _).symm
  contents _ _ hr := absurd hr (Option.some_ne_none _).symm

theorem CacheInv.node_of_mem (h : CacheInv cacheSize stored c) (hx : x ∈ c.lruCache) :
    ∃ n, c.node x.1 = some n :=
  Option.isSome_iff_exists.1 ((h.listed _).1 (List.mem_map_of_mem hx))

theorem CacheInv.lt_of_mem (h : CacheInv cacheSize stored c) (hx : x ∈ c.lruCache) :
    x.1 < c.nodeCache.length := by
  obtain ⟨n, hn⟩ := h.node_of_mem hx
  exact (List.getElem?_eq_some_iff.1 (NodeCache.node_eq_some.1 hn).1).1

theorem CacheInv.mem_of_node (h : CacheInv cacheSize stored c) (hn : c.node r = some n) :
    ∃ b, (r, b) ∈ c.lruCache := by
  obtain ⟨x, hx, rfl⟩ := List.mem_map.1 ((h.listed r).2 (Option.isSome_iff_exists.2 ⟨n, hn⟩))
  exact ⟨x.2, hx⟩

theorem CacheInv.refund (h : CacheInv cacheSize stored c) (d : Int) :
    CacheInv (cacheSize + d) stored { c with freeSpace := c.freeSpace + d } where
  space := by rw [Int.add_right_comm, ← h.space]; rfl
  distinct := h.distinct
  listed := h.listed
  once := h.once
  contents := h.contents

theorem CacheInv.reorder (h : CacheInv cacheSize stored c) (hn : c'.nodeCache = c.nodeCache)
    (hf : c'.freeSpace = c.freeSpace)
    (hl : List.Perm (c'.lruCache.map Prod.fst) (c.lruCache.map Prod.fst)) :
    CacheInv cacheSize stored c' := by
  have hnode : ∀ r, c'.node r = c.node r := fun r => NodeCache.node_congr (by rw [hn])
  constructor
  · rw [hf, NodeCache.totalSize, hn]
    exact h.space
  · exact hl.nodup_iff.2 h.distinct
  · intro r
    rw [hl.mem_iff, hnode]
    exact h.listed r
  · intro i j n m hi hj
    rw [hnode] at hi hj
    exact h.once i j n m hi hj
  · intro r n hr
    rw [hnode] at hr
    exact h.contents r n hr

/-- A node that is not cached goes into a slot, free or not, which is listed afterwards. -/
theorem CacheInv.put (h : CacheInv cacheSize stored c) (hp : Puts c c' r (nodeID, e))
    (hID : nodeID ≠ []) (hnew : ∀ s n, c.node s = some n → n.1 ≠ nodeID)
    (hnodup : (c'.lruCache.map Prod.fst).Nodup)
    (hmem : ∀ s, s ∈ c'.lruCache.map Prod.fst ↔ s = r ∨ s ∈ c.lruCache.map Prod.fst)
    (hspace : c'.freeSpace + getSize e = c.freeSpace + c.slotSize r)
    (hstored : ∀ n, stored' n = if n = nodeID then some e else stored n) :
    CacheInv cacheSize stored' c' := by
  have hself : c'.node r = some (nodeID, e) := hp.node_self hID
  have hother : ∀ s n, s ≠ r → c'.node s = some n → c.node s = some n ∧ n.1 ≠ nodeID := by
    intro s n hs hn
    rw [hp.node_ne hs] at hn
    exact ⟨hn, hnew s n hn⟩
  constructor
  · have hsize := hp.size
    rw [nodeSize_of_ne hID] at hsize
    have hold := h.space
    simp only at hsize
    omega
  · exact hnodup
  · intro s
    rw [hmem]
    by_cases hs : s = r
    · subst hs
      rw [hself]
      exact iff_of_true (Or.inl rfl) rfl
    · rw [hp.node_ne hs, h.listed, or_iff_right hs]
  · intro i j n m hi hj hnm
    by_cases hir : i = r
    · by_cases hjr : j = r
      · rw [hir, hjr]
      · rw [hir, hself, Option.some_inj] at hi
        exact absurd (hnm.symm.trans (congrArg Prod.fst hi.symm)) (hother j m hjr hj).2
    · by_cases hjr : j = r
      · rw [hjr, hself, Option.some_inj] at hj
        exact absurd (hnm.trans (congrArg Prod.fst hj.symm)) (hother i n hir hi).2
      · exact h.once i j n m (hother i n hir hi).1 (hother j m hjr hj).1 hnm
  · intro s n hn
    by_cases hs : s = r
    · rw [hs, hself, Option.some_inj] at hn
      rw [hstored, ← hn, if_pos rfl]
    · obtain ⟨hn, hne⟩ := hother s n hs hn
      rw [hstored, if_neg hne]
      exact h.contents s n hn

/-- The last entry of `lruCache` is erased and its slot cleared, which frees the space of one
node. -/
theorem CacheInv.release (h : CacheInv cacheSize stored c) (hp : Puts c c' x.1 ([], []))
    (hl : c.lruCache = c'.lruCache ++ [x]) (hf : c'.freeSpace = c.freeSpace) :
    CacheInv (cacheSize - c.slotSize x.1) stored c' := by
  have hother : ∀ s n, c'.node s = some n → s ≠ x.1 ∧ c.node s = some n := by
    intro s n hn
    have hs : s ≠ x.1 := by
      rintro rfl
      rw [hp.node_free rfl] at hn
      exact absurd hn (Option.some_ne_none _).symm
    rw [hp.node_ne hs] at hn
    exact ⟨hs, hn⟩
  have hslots : c.lruCache.map Prod.fst = c'.lruCache.map Prod.fst ++ [x.1] := by
    rw [hl, List.map_append, List.map_singleton]
  have hdistinct := h.distinct
  rw [hslots, List.nodup_append_comm, List.singleton_append, List.nodup_cons] at hdistinct
  constructor
  · have hsize := hp.size
    have hzero : nodeSize ([], []) = 0 := rfl
    have hold := h.space
    omega
  · exact hdistinct.2
  · intro s
    by_cases hs : s = x.1
    · rw [hs, hp.node_free rfl]
      exact iff_of_false hdistinct.1 Bool.false_ne_true
    · rw [hp.node_ne hs, ← h.listed, hslots, List.mem_append, List.mem_singleton,
        or_iff_left hs]
  · intro i j n m hi hj
    exact h.once i j n m (hother i n hi).2 (hother j m hj).2
  · intro s n hn
    exact h.contents s n (hother s n hn).2

end Invariant

end XGossip
