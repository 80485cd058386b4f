import XGossip.Chord.Stabilize
import XGossip.Lib.Nearest
import Mathlib.Order.OrderDual

namespace XGossip
set_option autoImplicit true
open Circle Nearest

/-- How many good locations from an ID on, and before it, are to be kept, and whether the one with
the ID itself is. -/
structure PinInfo where
  n : ChordID
  pinself : Bool
  pinsucc : Nat
  pinpred : Nat
  lt : n < 2 ^ NBIT

/-- The loop over the locations, once around at most, until so many good ones are pinned. -/
def pinLoop (step : Location → Location) : Nat → Nat → Location → List ChordID
  | 0, _, _ => []
  | cursz + 1, to_pin, cur =>
    let left := if cur.alive then to_pin - 1 else to_pin
    (if cur.alive then [cur.id] else []) ++
      if left > 0 then pinLoop step cursz left (step cur) else []

def LocationTable.processPin (t : LocationTable) (step : Location → Location)
    (cur : Option Location) (num : Nat) : List ChordID :=
  if num > 0 then cur.elim [] (pinLoop step t.loclist.length num) else []

/-- The IDs that a pin keeps. A location that is to be kept itself has to be there. -/
def PinInfo.pins (p : PinInfo) (t : LocationTable) : Option (List ChordID) :=
  if p.pinself ∧ t.lookup p.n = none then none
  else some ((if p.pinself then [p.n] else []) ++
    (if p.pinpred > 0 then (t.closestpred p.n).toList.map (·.id) else []) ++
    (t.processPin t.next (t.closestsucc p.n) p.pinsucc ++
      t.processPin t.prev (t.closestpred p.n) p.pinpred))

def LocationTable.pinAll (t : LocationTable) : List PinInfo → Option (List ChordID)
  | [] => some []
  | p :: pinlist => do return (← p.pins t) ++ (← t.pinAll pinlist)

def LocationTable.without (t : LocationTable) (out : List ChordID) : LocationTable where
  loclist := t.loclist.filter fun l => l.id ∉ out
  sorted := t.sorted.filter _
  ids l hl := t.ids l (List.mem_of_mem_filter hl)

/-- The locations of a table, the one that has been used last at the end. -/
structure LocationCache where
  table : LocationTable
  cachedlocs : List ChordID
  perm : cachedlocs.Perm (table.loclist.map (·.id))
  pinlist : List PinInfo
  max_cachedlocs : Nat

/-- One iteration of the eviction: how many are still to be evicted, and the ones that are. -/
def evictPass (pinned : List ChordID) (victim : ChordID → Bool) :
    Nat → List ChordID → Nat × List ChordID
  | n, [] => (n, [])
  | n, cur :: rest =>
    if n > 0 ∧ cur ∉ pinned ∧ victim cur then
      let (left, out) := evictPass pinned victim (n - 1) rest
      (left, cur :: out)
    else evictPass pinned victim n rest

namespace LocationCache

def figurePins (c : LocationCache) : Option (List ChordID) :=
  if c.table.loclist = [] then some []
  else c.table.pinAll c.pinlist

def remove (c : LocationCache) (out : List ChordID) : LocationCache where
  table := c.table.without out
  cachedlocs := c.cachedlocs.filter (· ∉ out)
  perm := by
    have h := c.perm.filter (· ∉ out)
    rw [List.filter_map] at h
    exact h
  pinlist := c.pinlist
  max_cachedlocs := c.max_cachedlocs

/-- Evict n locations, the ones that are not good first. If n is 0, evict as many as there are. -/
def evict (c : LocationCache) (n : Nat) : Option LocationCache := do
  let pinned ← c.figurePins
  if n = 0 then
    return c.remove (evictPass pinned (fun _ => true) c.table.loclist.length c.cachedlocs).2
  else
    let (left, out) := evictPass pinned (fun x => x ∉ c.table.good) n c.cachedlocs
    let c' := c.remove out
    return c'.remove (evictPass pinned (fun _ => true) left c'.cachedlocs).2

def lookup (c : LocationCache) (x : ChordID) : LocationCache :=
  if h : x ∈ c.cachedlocs then
    { c with
      cachedlocs := c.cachedlocs.erase x ++ [x]
      perm := ((List.perm_append_singleton x _).trans (List.perm_cons_erase h).symm).trans c.perm }
  else c

def add (c : LocationCache) (n : ChordID) (hn : n < 2 ^ NBIT) (h : c.table.lookup n = none) :
    LocationCache where
  table := c.table.insert n hn h
  cachedlocs := c.cachedlocs ++ [n]
  perm := by
    have hmid : ((c.table.insert n hn h).loclist.map (·.id)).Perm
        (n :: c.table.loclist.map (·.id)) := by
      rw [LocationTable.insert, List.map_append, List.map_cons]
      refine List.perm_middle.trans (List.Perm.cons n ?_)
      rw [← List.map_append, List.takeWhile_append_dropWhile]
    exact ((List.perm_append_singleton n _).trans (c.perm.cons n)).trans hmid.symm
  pinlist := c.pinlist
  max_cachedlocs := c.max_cachedlocs

def insert (c : LocationCache) (n : ChordID) (hn : n < 2 ^ NBIT) : Option LocationCache :=
  if h : c.table.lookup n = none then
    let c' := c.add n hn h
    if c'.table.loclist.length > c'.max_cachedlocs then
      c'.evict (c'.table.loclist.length - c'.max_cachedlocs)
    else some c'
  else some (c.lookup n)

end LocationCache

inductive LocationOp where
  | insert (n : ChordID) (hn : n < 2 ^ NBIT)
  | lookup (x : ChordID)
  | flush

def LocationCache.step (c : LocationCache) : LocationOp → Option LocationCache
  | .insert n hn => c.insert n hn
  | .lookup x => some (c.lookup x)
  | .flush => c.evict 0

def LocationCache.run (c : LocationCache) (ops : List LocationOp) : Option LocationCache :=
  ops.foldlM LocationCache.step c

def LocationOp.seen (s : Finset ChordID) : LocationOp → Finset ChordID
  | .insert n _ => Insert.insert n s
  | .lookup _ => s
  | .flush => s

section Pins

variable {t : LocationTable} {x : Nat} {k : Nat}

theorem pinLoop_eq {step : Location → Location} : ∀ {sz k : Nat} {l : Location}, 0 < k →
    pinLoop step sz k l = (((List.iterate step l sz).filter (·.alive)).take k).map (·.id)
  | 0, _, _, _ => by simp [pinLoop]
  | sz + 1, k, l, hk => by
    obtain ⟨k, rfl⟩ := Nat.exists_eq_succ_of_ne_zero (Nat.ne_of_gt hk)
    rw [pinLoop, List.iterate]
    cases hl : l.alive with
    | false =>
      rw [List.filter_cons_of_neg (by simp [hl])]
      simpa using pinLoop_eq hk
    | true =>
      rw [List.filter_cons_of_pos hl, List.take_succ_cons, List.map_cons]
      rcases Nat.eq_zero_or_pos k with rfl | hpos
      · simp
      · simpa [hpos] using pinLoop_eq hpos

theorem processPin_next :
    t.processPin t.next (t.closestsucc x) k =
      (((t.walk x).filter (·.alive)).take k).map (·.id) := by
  rw [LocationTable.processPin]
  split
  · next hk =>
    rw [LocationTable.closestsucc_eq]
    cases h : (t.walk x).head? with
    | none =>
      simp [List.head?_eq_none_iff.1 h]
    | some l => rw [Option.elim_some, pinLoop_eq hk, LocationTable.iterate_next h]
  · next hk => simp [Nat.eq_zero_of_not_pos hk]

theorem processPin_prev : t.processPin t.prev (t.closestpred x) k =
    (((t.walk x).reverse.filter (·.alive)).take k).map (·.id) := by
  rw [LocationTable.processPin]
  split
  · next hk =>
    rw [LocationTable.closestpred_eq]
    cases h : (t.walk x).reverse.head? with
    | none =>
      simp [List.head?_eq_none_iff.1 h]
    | some l => rw [Option.elim_some, pinLoop_eq hk, LocationTable.iterate_prev h]
  · next hk => simp [Nat.eq_zero_of_not_pos hk]

theorem good_walk_pairwise (hx : x < 2 ^ NBIT) :
    (((t.walk x).filter (·.alive)).map (·.id)).Pairwise
      fun a b => gap (2 ^ NBIT) x a < gap (2 ^ NBIT) x b :=
  List.pairwise_map.2 ((walk_pairwise t.sorted t.ids hx).filter _)

theorem good_eq_walk : t.good = (((t.walk x).filter (·.alive)).map (·.id)).toFinset :=
  (List.toFinset_eq_of_perm _ _ ((LocationTable.walk_perm.filter _).map _)).symm

theorem processPin_next_toFinset (hx : x < 2 ^ NBIT) :
    (t.processPin t.next (t.closestsucc x) k).toFinset = nearest (gap (2 ^ NBIT) x) k t.good := by
  rw [processPin_next, List.map_take, good_eq_walk, nearest_toFinset (good_walk_pairwise hx)]

def wayBack (x n : Nat) : Natᵒᵈ := OrderDual.toDual (gap (2 ^ NBIT) x n)

theorem processPin_prev_toFinset (hx : x < 2 ^ NBIT) :
    (t.processPin t.prev (t.closestpred x) k).toFinset = nearest (wayBack x) k t.good := by
  have hrev : ((((t.walk x).filter (·.alive)).map (·.id)).reverse).Pairwise
      fun a b => wayBack x a < wayBack x b := List.pairwise_reverse.2 (good_walk_pairwise hx)
  rw [processPin_prev, List.filter_reverse, List.map_take, List.map_reverse,
    ← nearest_toFinset hrev, List.toFinset_reverse, ← good_eq_walk]

end Pins

section Evict

variable {c c' : LocationCache} {n : Nat} {pinned out : List ChordID} {p : PinInfo}
  {victim : ChordID → Bool}

theorem evictPass_not_pinned : ∀ {n : Nat} {l : List ChordID},
    ∀ x ∈ (evictPass pinned victim n l).2, x ∉ pinned
  | _, [], _, hx => absurd hx List.not_mem_nil
  | n, cur :: rest, x, hx => by
    rw [evictPass] at hx
    split at hx
    · next h =>
      rcases List.mem_cons.1 hx with rfl | hx
      · exact h.2.1
      · exact evictPass_not_pinned x hx
    · exact evictPass_not_pinned x hx

theorem LocationTable.good_without (t : LocationTable) :
    (t.without out).good = t.good.filter (· ∉ out) := by
  ext n
  rw [Finset.mem_filter, mem_good, mem_good, without, List.mem_filter, decide_eq_true_iff]

theorem PinInfo.pins_spec {t : LocationTable} (h : p.pins t = some pinned) :
    (∀ x ∈ nearest (gap (2 ^ NBIT) p.n) p.pinsucc t.good, x ∈ pinned) ∧
      (∀ x ∈ nearest (wayBack p.n) p.pinpred t.good, x ∈ pinned) ∧ (p.pinself → p.n ∈ pinned) := by
  rw [pins, Option.ite_none_left_eq_some] at h
  obtain ⟨-, h⟩ := h
  cases h
  refine ⟨fun x hx => ?_, fun x hx => ?_, fun hself => ?_⟩
  · rw [← processPin_next_toFinset p.lt, List.mem_toFinset] at hx
    exact List.mem_append_right _ (List.mem_append_left _ hx)
  · rw [← processPin_prev_toFinset p.lt, List.mem_toFinset] at hx
    exact List.mem_append_right _ (List.mem_append_right _ hx)
  · simp [hself]

theorem LocationTable.pins_of_pinAll {t : LocationTable} : ∀ {pinlist : List PinInfo}
    {pinned : List ChordID}, t.pinAll pinlist = some pinned → p ∈ pinlist →
      ∃ ids, p.pins t = some ids ∧ ids ⊆ pinned
  | q :: pinlist, pinned, h, hp => by
    rw [pinAll, Option.bind_eq_bind, Option.bind_eq_some_iff] at h
    obtain ⟨ids, hids, h⟩ := h
    rw [Option.bind_eq_some_iff] at h
    obtain ⟨rest, hrest, h⟩ := h
    cases h
    rcases List.mem_cons.1 hp with rfl | hp
    · exact ⟨ids, hids, List.subset_append_left _ _⟩
    · obtain ⟨ids', hids', hsub⟩ := pins_of_pinAll hrest hp
      exact ⟨ids', hids', List.subset_append_of_subset_right _ hsub⟩

theorem LocationCache.figurePins_spec (h : c.figurePins = some pinned) (hp : p ∈ c.pinlist) :
    (∀ x ∈ nearest (gap (2 ^ NBIT) p.n) p.pinsucc c.table.good, x ∈ pinned) ∧
      (∀ x ∈ nearest (wayBack p.n) p.pinpred c.table.good, x ∈ pinned) ∧
      (p.pinself → p.n ∈ c.table.good → p.n ∈ pinned) := by
  rw [figurePins] at h
  split at h
  · next hnil =>
    have hgood : c.table.good = ∅ := by rw [LocationTable.good, hnil]; rfl
    have hnone {x : ChordID} : x ∉ c.table.good := hgood ▸ Finset.notMem_empty x
    exact ⟨fun x hx => absurd (nearest_subset hx) hnone,
      fun x hx => absurd (nearest_subset hx) hnone, fun _ hx => absurd hx hnone⟩
  · obtain ⟨ids, hids, hsub⟩ := LocationTable.pins_of_pinAll h hp
    obtain ⟨hsucc, hpred, hself⟩ := PinInfo.pins_spec hids
    exact ⟨fun x hx => hsub (hsucc x hx), fun x hx => hsub (hpred x hx),
      fun h _ => hsub (hself h)⟩

theorem LocationTable.without_without (t : LocationTable) (a b : List ChordID) :
    (t.without a).without b = t.without (a ++ b) := by
  unfold without
  congr 1
  rw [List.filter_filter]
  refine List.filter_congr fun l _ => ?_
  simp [Bool.and_comm]

theorem LocationCache.evict_eq (h : c.evict n = some c') :
    ∃ pinned out, c.figurePins = some pinned ∧ (∀ x ∈ out, x ∉ pinned) ∧
      c'.pinlist = c.pinlist ∧ c'.max_cachedlocs = c.max_cachedlocs ∧
      c'.table = c.table.without out := by
  rw [evict, Option.bind_eq_bind, Option.bind_eq_some_iff] at h
  obtain ⟨pinned, hpinned, h⟩ := h
  split at h
  · cases h
    exact ⟨pinned, _, hpinned, evictPass_not_pinned, rfl, rfl, rfl⟩
  · cases h
    refine ⟨pinned, _ ++ _, hpinned, fun x hx => ?_, rfl, rfl, LocationTable.without_without ..⟩
    rcases List.mem_append.1 hx with hx | hx
    · exact evictPass_not_pinned x hx
    · exact evictPass_not_pinned x hx

theorem LocationCache.evict_spec (h : c.evict n = some c') :
    c'.pinlist = c.pinlist ∧ (∀ l ∈ c'.table.loclist, l ∈ c.table.loclist) ∧
      ∀ p ∈ c.pinlist,
        nearest (gap (2 ^ NBIT) p.n) p.pinsucc c'.table.good =
          nearest (gap (2 ^ NBIT) p.n) p.pinsucc c.table.good ∧
        nearest (wayBack p.n) p.pinpred c'.table.good =
          nearest (wayBack p.n) p.pinpred c.table.good ∧
        (p.pinself → p.n ∈ c.table.good → p.n ∈ c'.table.good) := by
  obtain ⟨pinned, out, hpinned, hout, hpins, -, htable⟩ := evict_eq h
  refine ⟨hpins, fun l hl => ?_, fun p hp => ?_⟩
  · rw [htable] at hl
    exact List.mem_of_mem_filter hl
  · obtain ⟨hsucc, hpred, hself⟩ := figurePins_spec hpinned hp
    have hgood : c'.table.good = c.table.good.filter (· ∉ out) :=
      htable ▸ LocationTable.good_without _
    have hsub : c'.table.good ⊆ c.table.good := hgood ▸ Finset.filter_subset _ _
    have hkept {x : ChordID} (hx : x ∈ c.table.good) (hpin : x ∈ pinned) : x ∈ c'.table.good :=
      hgood ▸ Finset.mem_filter.2 ⟨hx, fun hx => hout x hx hpin⟩
    exact ⟨nearest_eq (fun x hx => hkept (nearest_subset hx) (hsucc x hx)) hsub,
      nearest_eq (fun x hx => hkept (nearest_subset hx) (hpred x hx)) hsub,
      fun h hx => hkept hx (hself h hx)⟩

end Evict

/-- What a table knows is enough for its pins: the good locations next to an ID are the ones that
are next to it among all that have been seen. -/
structure Serves (c : LocationCache) (seen : Finset ChordID) : Prop where
  alive : ∀ l ∈ c.table.loclist, l.alive = true
  sub : c.table.good ⊆ seen
  succs : ∀ p ∈ c.pinlist, nearest (gap (2 ^ NBIT) p.n) p.pinsucc c.table.good =
    nearest (gap (2 ^ NBIT) p.n) p.pinsucc seen
  preds : ∀ p ∈ c.pinlist, nearest (wayBack p.n) p.pinpred c.table.good =
    nearest (wayBack p.n) p.pinpred seen

section Runs

variable {c c' : LocationCache} {seen : Finset ChordID} {op : LocationOp} {ops : List LocationOp}
  {n : Nat}

theorem Serves.evict (h : Serves c seen) (hc : c.evict n = some c') :
    Serves c' seen ∧ c'.pinlist = c.pinlist := by
  obtain ⟨hpins, hsub, hkept⟩ := LocationCache.evict_spec hc
  refine ⟨⟨fun l hl => h.alive l (hsub l hl), fun m hm => h.sub ?_, fun p hp => ?_,
    fun p hp => ?_⟩, hpins⟩
  · exact LocationTable.mem_good.2 (hsub _ (LocationTable.mem_good.1 hm))
  · rw [hpins] at hp
    exact (hkept p hp).1.trans (h.succs p hp)
  · rw [hpins] at hp
    exact (hkept p hp).2.1.trans (h.preds p hp)

theorem LocationCache.lookup_eq (c : LocationCache) (x : ChordID) :
    (c.lookup x).table = c.table ∧ (c.lookup x).pinlist = c.pinlist ∧
      (c.lookup x).max_cachedlocs = c.max_cachedlocs := by
  rw [lookup]
  split <;> exact ⟨rfl, rfl, rfl⟩

theorem Serves.lookup (h : Serves c seen) (x : ChordID) :
    Serves (c.lookup x) seen ∧ (c.lookup x).pinlist = c.pinlist := by
  obtain ⟨htable, hpins, -⟩ := c.lookup_eq x
  refine ⟨⟨?_, ?_, ?_, ?_⟩, hpins⟩
  · exact htable ▸ h.alive
  · exact htable ▸ h.sub
  · exact htable.symm ▸ hpins.symm ▸ h.succs
  · exact htable.symm ▸ hpins.symm ▸ h.preds

theorem Serves.mem_seen (h : Serves c seen) (hknown : c.table.lookup n ≠ none) : n ∈ seen := by
  obtain ⟨l, hl⟩ := Option.ne_none_iff_exists'.1 hknown
  have hid : l.id = n := by simpa using List.find?_some hl
  have hmem := List.mem_of_find?_eq_some hl
  refine h.sub (LocationTable.mem_good.2 ?_)
  rw [← hid, ← h.alive l hmem]
  exact hmem

theorem Serves.add (h : Serves c seen) (hn : n < 2 ^ NBIT) (hnew : c.table.lookup n = none) :
    Serves (c.add n hn hnew) (Insert.insert n seen) := by
  have hgood : (c.add n hn hnew).table.good = Insert.insert n c.table.good :=
    LocationTable.good_insert hn hnew
  refine ⟨fun l hl => ?_, ?_, fun p hp => ?_, fun p hp => ?_⟩
  · rcases (LocationTable.mem_insert hn hnew).1 hl with rfl | hl
    · rfl
    · exact h.alive l hl
  · exact hgood ▸ Finset.insert_subset_insert n h.sub
  · exact hgood ▸ nearest_insert (h.succs p hp) h.sub
  · exact hgood ▸ nearest_insert (h.preds p hp) h.sub

theorem Serves.insert (h : Serves c seen) (hn : n < 2 ^ NBIT) (hc : c.insert n hn = some c') :
    Serves c' (Insert.insert n seen) ∧ c'.pinlist = c.pinlist := by
  rw [LocationCache.insert] at hc
  split at hc
  · next hnew =>
    have hadd := h.add hn hnew
    dsimp only at hc
    split at hc
    · exact hadd.evict hc
    · cases hc
      exact ⟨hadd, rfl⟩
  · next hknown =>
    cases hc
    rw [Finset.insert_eq_of_mem (h.mem_seen hknown)]
    exact h.lookup n

theorem Serves.step (h : Serves c seen) (hc : c.step op = some c') :
    Serves c' (op.seen seen) ∧ c'.pinlist = c.pinlist := by
  cases op with
  | insert n hn => exact h.insert hn hc
  | lookup x =>
    cases hc
    exact h.lookup x
  | flush => exact h.evict hc

theorem Serves.run (h : Serves c seen) (hc : c.run ops = some c') :
    Serves c' (ops.foldl LocationOp.seen seen) ∧ c'.pinlist = c.pinlist := by
  induction ops generalizing c seen with
  | nil =>
    cases hc
    exact ⟨h, rfl⟩
  | cons op ops ih =>
    rw [LocationCache.run, List.foldlM_cons, Option.bind_eq_bind, Option.bind_eq_some_iff] at hc
    obtain ⟨mid, hmid, hrest⟩ := hc
    obtain ⟨hserves, hpins⟩ := h.step hmid
    obtain ⟨hlast, hpins'⟩ := ih hserves hrest
    exact ⟨hlast, hpins'.trans hpins⟩

end Runs

def PinInfo.room (p : PinInfo) : Nat := p.pinsucc + p.pinpred + 2

section Bound

variable {c c' : LocationCache} {n : Nat} {pinned out : List ChordID} {p : PinInfo}
  {victim : ChordID → Bool}

theorem processPin_length {t : LocationTable} {step : Location → Location} {cur : Option Location}
    {num : Nat} : (t.processPin step cur num).length ≤ num := by
  rw [LocationTable.processPin]
  split
  · next hnum =>
    cases cur with
    | none => exact Nat.zero_le _
    | some l =>
      rw [Option.elim_some, pinLoop_eq hnum, List.length_map]
      exact List.length_take_le _ _
  · exact Nat.zero_le _

theorem PinInfo.length_pins {t : LocationTable} (h : p.pins t = some pinned) :
    pinned.length ≤ p.room := by
  rw [pins, Option.ite_none_left_eq_some] at h
  obtain ⟨-, h⟩ := h
  cases h
  have hself : (if p.pinself then [p.n] else []).length ≤ 1 := by split <;> simp
  have hbefore :
      (if p.pinpred > 0 then (t.closestpred p.n).toList.map (·.id) else []).length ≤ 1 := by
    split
    · cases t.closestpred p.n <;> simp
    · simp
  have hsucc : (t.processPin t.next (t.closestsucc p.n) p.pinsucc).length ≤ _ := processPin_length
  have hpred : (t.processPin t.prev (t.closestpred p.n) p.pinpred).length ≤ _ := processPin_length
  rw [List.length_append, List.length_append, List.length_append, room]
  omega

theorem LocationTable.length_pinAll {t : LocationTable} : ∀ {pinlist : List PinInfo}
    {pinned : List ChordID}, t.pinAll pinlist = some pinned →
      pinned.length ≤ (pinlist.map PinInfo.room).sum
  | [], _, h => by
    cases h
    exact Nat.zero_le _
  | p :: pinlist, _, h => by
    rw [pinAll, Option.bind_eq_bind, Option.bind_eq_some_iff] at h
    obtain ⟨ids, hids, h⟩ := h
    rw [Option.bind_eq_some_iff] at h
    obtain ⟨rest, hrest, h⟩ := h
    cases h
    rw [List.length_append, List.map_cons, List.sum_cons]
    exact Nat.add_le_add (PinInfo.length_pins hids) (length_pinAll hrest)

theorem evictPass_sublist : ∀ {n : Nat} {l : List ChordID},
    (evictPass pinned victim n l).2.Sublist l
  | _, [] => List.Sublist.slnil
  | n, cur :: rest => by
    rw [evictPass]
    split
    · exact evictPass_sublist.cons_cons cur
    · exact evictPass_sublist.cons cur

theorem evictPass_length : ∀ {n : Nat} {l : List ChordID},
    (evictPass pinned victim n l).1 + (evictPass pinned victim n l).2.length = n
  | _, [] => rfl
  | n, cur :: rest => by
    rw [evictPass]
    split
    · next h =>
      have hrest := evictPass_length (n := n - 1) (l := rest)
      have hpos := h.1
      dsimp only [List.length_cons]
      omega
    · exact evictPass_length

theorem evictPass_rest : ∀ {n : Nat} {l : List ChordID},
    0 < (evictPass pinned (fun _ => true) n l).1 →
      ∀ x ∈ l, x ∉ (evictPass pinned (fun _ => true) n l).2 → x ∈ pinned
  | n, cur :: rest, hleft, x, hx, hout => by
    rw [evictPass] at hleft hout
    split at hout
    · next h =>
      rw [if_pos h] at hleft
      rcases List.mem_cons.1 hx with rfl | hx
      · exact absurd List.mem_cons_self hout
      · exact evictPass_rest hleft x hx fun hmem => hout (List.mem_cons_of_mem _ hmem)
    · next h =>
      rw [if_neg h] at hleft
      rcases List.mem_cons.1 hx with rfl | hx
      · have hle : (evictPass pinned (fun _ => true) n rest).1 + _ = n := evictPass_length
        by_contra hpin
        exact h ⟨by omega, hpin, rfl⟩
      · exact evictPass_rest hleft x hx hout

theorem LocationCache.nodup (c : LocationCache) : c.cachedlocs.Nodup :=
  c.perm.nodup_iff.2 (List.pairwise_map.2 (c.table.sorted.imp fun h => Nat.ne_of_lt h))

theorem LocationCache.length_cachedlocs (c : LocationCache) :
    c.cachedlocs.length = c.table.loclist.length := by
  rw [c.perm.length_eq, List.length_map]

theorem LocationCache.length_remove (h : out.Sublist c.cachedlocs) :
    (c.remove out).cachedlocs.length + out.length = c.cachedlocs.length := by
  have hperm : (c.cachedlocs.filter (· ∈ out)).Perm out := by
    refine (List.perm_ext_iff_of_nodup (c.nodup.filter _) (c.nodup.sublist h)).2 fun x => ?_
    rw [List.mem_filter, decide_eq_true_iff]
    exact ⟨And.right, fun hx => ⟨h.subset hx, hx⟩⟩
  have hsplit := List.length_eq_length_filter_add (l := c.cachedlocs) (· ∈ out)
  rw [hperm.length_eq] at hsplit
  rw [remove]
  simp only [decide_not]
  omega

theorem LocationCache.length_pass (c : LocationCache) (pinned : List ChordID)
    (victim : ChordID → Bool) (n : Nat) :
    (evictPass pinned victim n c.cachedlocs).1 + c.cachedlocs.length =
      (c.remove (evictPass pinned victim n c.cachedlocs).2).cachedlocs.length + n := by
  have hremove : _ + (evictPass pinned victim n c.cachedlocs).2.length = _ :=
    c.length_remove evictPass_sublist
  have hpass : (evictPass pinned victim n c.cachedlocs).1 + _ = n := evictPass_length
  omega

/-- An eviction makes as much room as it is to make, unless only pinned locations are left. -/
theorem LocationCache.evict_length (h : c.evict n = some c') :
    c'.table.loclist.length + n ≤ c.table.loclist.length ∨
      c'.table.loclist.length ≤ (c.pinlist.map PinInfo.room).sum := by
  rw [evict, Option.bind_eq_bind, Option.bind_eq_some_iff] at h
  obtain ⟨pinned, hpinned, h⟩ := h
  rw [← length_cachedlocs, ← length_cachedlocs]
  split at h
  · next hn =>
    cases h
    have hpass := c.length_pass pinned (fun _ => true) c.table.loclist.length
    have hle : (evictPass pinned (fun _ => true) c.table.loclist.length c.cachedlocs).1 + _ = _ :=
      evictPass_length
    exact .inl (by omega)
  · cases h
    have hbad := c.length_pass pinned (fun x => x ∉ c.table.good) n
    generalize evictPass pinned (fun x => x ∉ c.table.good) n c.cachedlocs = r at hbad ⊢
    have hall := (c.remove r.2).length_pass pinned (fun _ => true) r.1
    rcases Nat.eq_zero_or_pos (evictPass pinned (fun _ => true) r.1
        (c.remove r.2).cachedlocs).1 with hzero | hleft
    · exact .inl (by omega)
    · have hrest : ∀ x ∈ (LocationCache.remove (c.remove r.2) (evictPass pinned (fun _ => true) r.1
          (c.remove r.2).cachedlocs).2).cachedlocs, x ∈ pinned := by
        intro x hx
        obtain ⟨hx, hout⟩ := List.mem_filter.1 hx
        exact evictPass_rest hleft x hx (of_decide_eq_true hout)
      have hlen := ((nodup _).subperm hrest).length_le
      rw [figurePins] at hpinned
      split at hpinned
      · cases hpinned
        exact .inr (hlen.trans (Nat.zero_le _))
      · exact .inr (hlen.trans (LocationTable.length_pinAll hpinned))

def LocationCache.limit (c : LocationCache) : Nat :=
  max c.max_cachedlocs (c.pinlist.map PinInfo.room).sum

theorem LocationCache.evict_limit (h : c.evict n = some c') : c'.limit = c.limit := by
  obtain ⟨-, -, -, -, hpins, hmax, -⟩ := evict_eq h
  rw [limit, limit, hpins, hmax]

theorem LocationCache.lookup_limit (c : LocationCache) (x : ChordID) :
    (c.lookup x).limit = c.limit := by
  rw [limit, limit, (c.lookup_eq x).2.1, (c.lookup_eq x).2.2]

theorem LocationCache.insert_length (hn : n < 2 ^ NBIT) (h : c.insert n hn = some c')
    (hc : c.table.loclist.length ≤ c.limit) :
    c'.table.loclist.length ≤ c.limit ∧ c'.limit = c.limit := by
  rw [insert] at h
  split at h
  · next hnew =>
    dsimp only at h
    split at h
    · next hlarge =>
      refine ⟨?_, (evict_limit h).trans rfl⟩
      rcases evict_length h with hle | hle
      · change c.max_cachedlocs < (c.add n hn hnew).table.loclist.length at hlarge
        change _ + (_ - c.max_cachedlocs) ≤ _ at hle
        exact le_max_of_le_left (by omega)
      · exact le_max_of_le_right hle
    · next hsmall =>
      cases h
      exact ⟨le_max_of_le_left (Nat.le_of_not_lt hsmall), rfl⟩
  · cases h
    exact ⟨(c.lookup_eq n).1.symm ▸ hc, c.lookup_limit n⟩

theorem LocationCache.run_length {ops : List LocationOp} (h : c.run ops = some c')
    (hc : c.table.loclist.length ≤ c.limit) : c'.table.loclist.length ≤ c.limit := by
  induction ops generalizing c with
  | nil =>
    cases h
    exact hc
  | cons op ops ih =>
    rw [run, List.foldlM_cons, Option.bind_eq_bind, Option.bind_eq_some_iff] at h
    obtain ⟨mid, hmid, hrest⟩ := h
    have hstep : mid.table.loclist.length ≤ c.limit ∧ mid.limit = c.limit := by
      cases op with
      | insert n hn => exact insert_length hn hmid hc
      | lookup x =>
        cases hmid
        exact ⟨(c.lookup_eq x).1.symm ▸ hc, c.lookup_limit x⟩
      | flush =>
        refine ⟨?_, evict_limit hmid⟩
        rcases evict_length hmid with hle | hle
        · exact hle.trans hc
        · exact le_max_of_le_right hle
    exact hstep.2 ▸ ih hrest (hstep.2.symm ▸ hstep.1)

end Bound

theorem pinned_answers {c c' : LocationCache} {ops : List LocationOp} {p : PinInfo}
    (halive : ∀ l ∈ c.table.loclist, l.alive = true) (hc : c.run ops = some c')
    (hp : p ∈ c.pinlist) :
    (∀ l, 0 < p.pinsucc → c'.table.closestsuccloc p.n = some l →
      IsFirst (2 ^ NBIT) (ops.foldl LocationOp.seen c.table.good) p.n l.id) ∧
    (∀ l, 0 < p.pinpred → c'.table.closestpredloc p.n = some l →
      ∀ m ∈ ops.foldl LocationOp.seen c.table.good,
        gap (2 ^ NBIT) p.n m ≤ gap (2 ^ NBIT) p.n l.id) ∧
    nearest (gap (2 ^ NBIT) p.n) p.pinsucc c'.table.good =
      nearest (gap (2 ^ NBIT) p.n) p.pinsucc (ops.foldl LocationOp.seen c.table.good) ∧
    (c.table.loclist.length ≤ c.limit → c'.table.loclist.length ≤ c.limit) := by
  have hfirst : Serves c c.table.good :=
    ⟨halive, Finset.Subset.refl _, fun _ _ => rfl, fun _ _ => rfl⟩
  obtain ⟨hserves, hpins⟩ := hfirst.run hc
  have hp' : p ∈ c'.pinlist := hpins ▸ hp
  refine ⟨fun l hpos hl => ?_, fun l hpos hl => ?_, hserves.succs p hp', c.run_length hc⟩
  · have hmin := LocationTable.closestsuccloc_isFirst p.lt hl
    exact ⟨hserves.sub hmin.1, le_of_nearest_eq (hserves.succs p hp') hpos hmin.2⟩
  · have hmax := (LocationTable.closestpredloc_isLast p.lt hl).2
    exact le_of_nearest_eq (f := wayBack p.n) (n := l.id) (hserves.preds p hp') hpos hmax

def smallCache : LocationCache where
  table := ⟨[⟨110, true⟩], by decide, by decide⟩
  cachedlocs := [110]
  perm := List.Perm.refl _
  pinlist := [⟨110, true, 0, 1, by decide⟩, ⟨111, false, 1, 0, by decide⟩]
  max_cachedlocs := 2

def smallOps : List LocationOp :=
  [.insert 140 (by decide), .insert 130 (by decide), .lookup 140, .insert 120 (by decide),
    .insert 150 (by decide)]

theorem pinned_answers_small : ∃ c', smallCache.run smallOps = some c' ∧
    c'.table.good = {110, 120, 150} ∧ ∀ l, c'.table.closestsuccloc 111 = some l →
      IsFirst (2 ^ NBIT) {110, 120, 130, 140, 150} 111 l.id := by
  have hsome : (smallCache.run smallOps).isSome := by decide +kernel
  have hgood : (smallCache.run smallOps).map (·.table.good) = some {110, 120, 150} := by
    decide +kernel
  have hseen : smallOps.foldl LocationOp.seen smallCache.table.good =
      {110, 120, 130, 140, 150} := by decide
  obtain ⟨c', hc⟩ := Option.isSome_iff_exists.1 hsome
  have hanswers := pinned_answers (by decide) hc (List.mem_cons_of_mem _ List.mem_cons_self)
  rw [hc] at hgood
  exact ⟨c', hc, Option.some.inj hgood, fun l hl => hseen ▸ hanswers.1 l (by decide) hl⟩

/-- The node's own ID and the start of its first finger are pinned as a node pins them. -/
structure PinsNode (v : VNode) (pinlist : List PinInfo) : Prop where
  own : ∃ p ∈ pinlist, p.n = v.myID ∧ p.pinself = true ∧ 0 < p.pinpred
  finger : ∃ p ∈ pinlist, p.n = successorID v.myID 0 ∧ 0 < p.pinsucc

theorem incID_eq_successorID {n : Nat} (hn : n < 2 ^ NBIT) : incID n = successorID n 0 := by
  dsimp only [incID, successorID, ChordID]
  split
  · have heq : n + 1 = 2 ^ NBIT := by omega
    simp [heq]
  · rw [Nat.pow_zero, Nat.mod_eq_of_lt (by omega)]

/-- An eviction from the locations of a node is a step of the ring that leaves its neighbours. -/
theorem RingStep.of_evict {st : RingState} {x : ChordID} {n : Nat} {v : VNode}
    {c c' : LocationCache} (hx : st.node x = some v) (halive : AllAlive v)
    (hc : c.table = v.locations) (hpins : PinsNode v c.pinlist) (h : c.evict n = some c') :
    ∃ v' : VNode, v'.locations = c'.table ∧
      RingStep st (.forget x) { st with node := Function.update st.node x (some v') } := by
  obtain ⟨-, hsub, hkept⟩ := LocationCache.evict_spec h
  obtain ⟨p, hp, hpn, hself, hpos⟩ := hpins.own
  obtain ⟨q, hq, hqn, hqpos⟩ := hpins.finger
  have hme : v.myID ∈ c'.table.good := hpn ▸ (hkept p hp).2.2 hself (hpn ▸ hc ▸ v.me)
  let v' : VNode := { v with locations := c'.table, me := hme }
  have hgood : v'.locations.good ⊆ v.locations.good := fun m hm =>
    LocationTable.mem_good.2 (hc ▸ hsub _ (LocationTable.mem_good.1 hm))
  have hfirst : IsFirst (2 ^ NBIT) v.locations.good (incID v.myID) v'.mySucc := by
    have hnew := VNode.incID_isFirst v'.me
    refine ⟨hgood hnew.1, ?_⟩
    have heq := (hkept q hq).1
    rw [hqn, ← incID_eq_successorID v.myID_lt, hc] at heq
    exact le_of_nearest_eq heq hqpos hnew.2
  have hlast : ∀ m ∈ v.locations.good,
      gap (2 ^ NBIT) v.myID m ≤ gap (2 ^ NBIT) v.myID v'.myPred := by
    have heq := (hkept p hp).2.1
    rw [hpn, hc] at heq
    exact le_of_nearest_eq (f := wayBack v.myID) (n := v'.myPred) heq hpos
      (VNode.myPred_isLast (v := v')).2
  have hsucc : v'.mySucc = v.mySucc :=
    hfirst.unique VNode.good_lt (incID_lt v.myID_lt) (VNode.incID_isFirst v.me)
  have hpred : v'.myPred = v.myPred := by
    have hold := VNode.myPred_isLast (v := v)
    have hnew := VNode.myPred_isLast (v := v')
    exact gap_inj v.myID_lt (VNode.good_lt _ (hgood hnew.1)) (VNode.good_lt _ hold.1)
      (Nat.le_antisymm (hold.2 _ (hgood hnew.1)) (hlast _ hold.1))
  exact ⟨v', rfl, .forget hx rfl hgood (fun l hl => halive l (hc ▸ hsub l hl)) hsucc hpred⟩

end XGossip
