import XGossip.Chord.IdUtils

namespace XGossip
set_option autoImplicit true
open Circle

structure Location where
  id : ChordID
  alive : Bool
  deriving DecidableEq

/-- The locations that a node knows, in the order of their IDs. -/
structure LocationTable where
  loclist : List Location
  sorted : loclist.Pairwise fun a b => a.id < b.id
  ids : ∀ l ∈ loclist, l.id < 2 ^ NBIT

namespace LocationTable

variable (t : LocationTable)

def lookup (x : ChordID) : Option Location := t.loclist.find? fun l => l.id = x

/-- The first location that is not before x, else the first one at all. -/
def closestsucc (x : ChordID) : Option Location :=
  (t.loclist.find? fun l => x ≤ l.id).or t.loclist.head?

/-- The last location that is before x, else the last one at all. -/
def closestpred (x : ChordID) : Option Location :=
  (t.loclist.reverse.find? fun l => l.id < x).or t.loclist.reverse.head?

def next (l : Location) : Location :=
  ((t.loclist.find? fun m => l.id < m.id).or t.loclist.head?).getD l

def prev (l : Location) : Location :=
  ((t.loclist.reverse.find? fun m => m.id < l.id).or t.loclist.reverse.head?).getD l

/-- From a location to the first one that is good, at most so many steps on. -/
def skipBad (step : Location → Location) : Nat → Location → Option Location
  | 0, _ => none
  | sz + 1, l => if l.alive then some l else skipBad step sz (step l)

/-- The first good location at or behind x. Without a good one the assertion fails. -/
def closestsuccloc (x : ChordID) : Option Location :=
  ((t.lookup x).or (t.closestsucc x)).bind (skipBad t.next t.loclist.length)

def closestpredloc (x : ChordID) : Option Location :=
  (((t.lookup x).map t.prev).or (t.closestpred x)).bind (skipBad t.prev t.loclist.length)

def usablenodes : Nat := t.loclist.countP (·.alive)

def good : Finset ChordID := ((t.loclist.filter (·.alive)).map (·.id)).toFinset

variable {t} {x : ChordID} {l : Location}

theorem mem_good {n : ChordID} : n ∈ t.good ↔ ⟨n, true⟩ ∈ t.loclist := by
  simp only [good, List.mem_toFinset, List.mem_map, List.mem_filter]
  constructor
  · rintro ⟨⟨n, a⟩, ⟨hl, ha⟩, rfl⟩
    exact (show a = true from ha) ▸ hl
  · exact fun hl => ⟨_, ⟨hl, rfl⟩, rfl⟩

theorem lt_of_mem_good {n : ChordID} (h : n ∈ t.good) : n < 2 ^ NBIT := t.ids _ (mem_good.1 h)

theorem card_good : t.good.card = t.usablenodes := by
  rw [good, List.toFinset_card_of_nodup, List.length_map, usablenodes, List.countP_eq_length_filter]
  exact List.pairwise_map.2 ((t.sorted.filter _).imp fun h => Nat.ne_of_lt h)

def walk (t : LocationTable) (x : ChordID) : List Location :=
  t.loclist.dropWhile (fun l => l.id < x) ++ t.loclist.takeWhile fun l => l.id < x

theorem walk_perm : (t.walk x).Perm t.loclist := by
  have h : (t.walk x).Perm _ := List.perm_append_comm
  rwa [List.takeWhile_append_dropWhile] at h

theorem skipBad_eq {step : Location → Location} : ∀ {sz : Nat} {l : Location},
    skipBad step sz l = (List.iterate step l sz).find? (·.alive)
  | 0, _ => rfl
  | sz + 1, l => by
    rw [skipBad, List.iterate, List.find?_cons, skipBad_eq]
    cases l.alive <;> rfl

section Forward

theorem closestsucc_eq : t.closestsucc x = (t.walk x).head? := by
  have h := start_append (P := fun l => x ≤ l.id) (a := t.loclist.takeWhile fun l => l.id < x)
    (b := t.loclist.dropWhile fun l => l.id < x)
    (fun l hl => by simpa using lt_of_mem_takeWhile l hl)
    (fun l hl => by simpa using le_of_mem_dropWhile t.sorted l hl)
  rwa [List.takeWhile_append_dropWhile] at h

theorem iterate_next (h : (t.walk x).head? = some l) :
    List.iterate t.next l t.loclist.length = t.walk x := by
  have hsplit : t.loclist.takeWhile (fun l => l.id < x) ++ t.loclist.dropWhile (fun l => l.id < x) =
      t.loclist := List.takeWhile_append_dropWhile
  have hround := iterate_around t.next (R := fun l m : Location => l.id < m.id)
    (hsplit.symm ▸ t.sorted) (fun _ _ => Nat.lt_asymm) (fun l => by rw [hsplit]; rfl) h
  rwa [hsplit] at hround

theorem closestsucc_of_lookup (h : t.lookup x = some l) : t.closestsucc x = some l := by
  obtain ⟨hx, as, bs, hl, -⟩ := List.find?_eq_some_iff_append.1 h
  have hsorted := List.pairwise_append.1 (hl ▸ t.sorted)
  have hfind : (t.loclist.find? fun l => x ≤ l.id) = some l := by
    refine List.find?_eq_some_iff_append.2 ⟨by simp_all, as, bs, hl, fun a ha => ?_⟩
    have := hsorted.2.2 a ha l List.mem_cons_self
    simp_all
  rw [closestsucc, hfind, Option.some_or]

theorem closestsuccloc_eq : t.closestsuccloc x = (t.walk x).find? (·.alive) := by
  have hlookup : (t.lookup x).or (t.closestsucc x) = (t.walk x).head? := by
    cases h : t.lookup x with
    | none => rw [Option.none_or, closestsucc_eq]
    | some l => rw [Option.some_or, ← closestsucc_eq, closestsucc_of_lookup h]
  rw [closestsuccloc, hlookup]
  cases h : (t.walk x).head? with
  | none => rw [List.head?_eq_none_iff.1 h]; rfl
  | some l => rw [Option.bind_some, skipBad_eq, iterate_next h]

theorem closestsuccloc_isFirst (hx : x < 2 ^ NBIT) (h : t.closestsuccloc x = some l) :
    IsFirst (2 ^ NBIT) t.good x l.id := by
  have hgood : t.good = (((t.walk x).filter (·.alive)).map (·.id)).toFinset :=
    (List.toFinset_eq_of_perm _ _ ((walk_perm.filter _).map _)).symm
  rw [closestsuccloc_eq] at h
  exact hgood ▸ isFirst_of_find? (walk_pairwise t.sorted t.ids hx) h

theorem closestsuccloc_isSome (h : t.good.Nonempty) : (t.closestsuccloc x).isSome := by
  obtain ⟨n, hn⟩ := h
  rw [closestsuccloc_eq, List.find?_isSome]
  exact ⟨_, walk_perm.mem_iff.2 (mem_good.1 hn), rfl⟩

end Forward

section Backward

theorem reverse_split : (t.loclist.dropWhile fun l => l.id < x).reverse ++
    (t.loclist.takeWhile fun l => l.id < x).reverse = t.loclist.reverse := by
  rw [← List.reverse_append, List.takeWhile_append_dropWhile]

theorem closestpred_eq : t.closestpred x = (t.walk x).reverse.head? := by
  have h := start_append (P := fun l => l.id < x)
    (a := (t.loclist.dropWhile fun l => l.id < x).reverse)
    (b := (t.loclist.takeWhile fun l => l.id < x).reverse)
    (fun l hl => by simpa using le_of_mem_dropWhile t.sorted l (List.mem_reverse.1 hl))
    (fun l hl => by simpa using lt_of_mem_takeWhile l (List.mem_reverse.1 hl))
  rwa [reverse_split, ← List.reverse_append] at h

theorem iterate_prev (h : (t.walk x).reverse.head? = some l) :
    List.iterate t.prev l t.loclist.length = (t.walk x).reverse := by
  have hsorted : t.loclist.reverse.Pairwise fun l m => m.id < l.id :=
    List.pairwise_reverse.2 t.sorted
  rw [walk, List.reverse_append] at h ⊢
  have hround := iterate_around t.prev (R := fun l m : Location => m.id < l.id)
    (reverse_split.symm ▸ hsorted) (fun _ _ => Nat.lt_asymm) (fun l => by rw [reverse_split]; rfl) h
  rwa [reverse_split, List.length_reverse] at hround

theorem prev_of_lookup (h : t.lookup x = some l) : some (t.prev l) = t.closestpred x := by
  have hid : l.id = x := by simpa using List.find?_some h
  have hne : t.loclist.reverse ≠ [] := by
    intro hnil
    rw [List.reverse_eq_nil_iff] at hnil
    simp [lookup, hnil] at h
  obtain ⟨m, hm⟩ := Option.ne_none_iff_exists'.1 (mt List.head?_eq_none_iff.1 hne)
  rw [prev, hid, closestpred, hm]
  cases t.loclist.reverse.find? fun m => m.id < x <;> rfl

theorem closestpredloc_eq : t.closestpredloc x = (t.walk x).reverse.find? (·.alive) := by
  have hlookup : ((t.lookup x).map t.prev).or (t.closestpred x) = (t.walk x).reverse.head? := by
    rw [← closestpred_eq]
    cases h : t.lookup x with
    | none => rfl
    | some l => rw [Option.map_some, Option.some_or, prev_of_lookup h]
  rw [closestpredloc, hlookup]
  cases h : (t.walk x).reverse.head? with
  | none => rw [List.head?_eq_none_iff.1 h]; rfl
  | some l => rw [Option.bind_some, skipBad_eq, iterate_prev h]

theorem closestpredloc_isLast (hx : x < 2 ^ NBIT) (h : t.closestpredloc x = some l) :
    l.id ∈ t.good ∧ ∀ m ∈ t.good, gap (2 ^ NBIT) x m ≤ gap (2 ^ NBIT) x l.id := by
  rw [closestpredloc_eq] at h
  obtain ⟨hl, as, bs, hwalk, has⟩ := List.find?_eq_some_iff_append.1 h
  have hmem : l ∈ t.loclist :=
    walk_perm.mem_iff.1 (List.mem_reverse.1 (List.mem_of_find?_eq_some h))
  have hid : (⟨l.id, true⟩ : Location) = l := by
    cases l
    simp_all
  refine ⟨mem_good.2 (hid ▸ hmem), fun m hm => ?_⟩
  have hrev := List.pairwise_reverse.2 (walk_pairwise t.sorted t.ids hx)
  have hm' : (⟨m, true⟩ : Location) ∈ (t.walk x).reverse :=
    List.mem_reverse.2 (walk_perm.mem_iff.2 (mem_good.1 hm))
  rw [hwalk] at hm'
  rcases List.mem_append.1 hm' with hm' | hm'
  · simpa using has _ hm'
  · rcases List.mem_cons.1 hm' with heq | hm'
    · exact Nat.le_of_eq (congrArg (fun l => gap (2 ^ NBIT) x l.id) heq)
    · have hrev' : (as ++ l :: bs).Pairwise _ := hwalk ▸ hrev
      exact Nat.le_of_lt ((List.pairwise_cons.1 (List.pairwise_append.1 hrev').2.1).1 _ hm')

theorem closestpredloc_isSome (h : t.good.Nonempty) : (t.closestpredloc x).isSome := by
  obtain ⟨n, hn⟩ := h
  rw [closestpredloc_eq, List.find?_isSome]
  exact ⟨_, List.mem_reverse.2 (walk_perm.mem_iff.2 (mem_good.1 hn)), rfl⟩

end Backward

section Insert

theorem ne_of_lookup_none {n : ChordID} (h : t.lookup n = none) (l : Location)
    (hl : l ∈ t.loclist) : l.id ≠ n := by
  simpa using List.find?_eq_none.1 h l hl

def insert (t : LocationTable) (n : ChordID) (hn : n < 2 ^ NBIT) (hnew : t.lookup n = none) :
    LocationTable where
  loclist := t.loclist.takeWhile (fun l => l.id < n) ++
    ⟨n, true⟩ :: t.loclist.dropWhile fun l => l.id < n
  sorted := by
    have hsplit := t.sorted
    rw [← List.takeWhile_append_dropWhile (p := fun l => l.id < n) (l := t.loclist)] at hsplit
    obtain ⟨htake, hdrop, hacross⟩ := List.pairwise_append.1 hsplit
    refine List.pairwise_append.2 ⟨htake, List.pairwise_cons.2 ⟨fun l hl => ?_, hdrop⟩,
      fun l hl m hm => ?_⟩
    · exact Nat.lt_of_le_of_ne (le_of_mem_dropWhile t.sorted l hl)
        (ne_of_lookup_none hnew l (List.dropWhile_subset _ hl)).symm
    · rcases List.mem_cons.1 hm with rfl | hm
      · exact lt_of_mem_takeWhile l hl
      · exact hacross l hl m hm
  ids l hl := by
    rcases List.mem_append.1 hl with hl | hl
    · exact t.ids l (List.takeWhile_subset _ hl)
    · rcases List.mem_cons.1 hl with rfl | hl
      · exact hn
      · exact t.ids l (List.dropWhile_subset _ hl)

theorem mem_insert {n : ChordID} (hn : n < 2 ^ NBIT) (hnew : t.lookup n = none) :
    l ∈ (t.insert n hn hnew).loclist ↔ l = ⟨n, true⟩ ∨ l ∈ t.loclist := by
  have hsplit : l ∈ t.loclist ↔ l ∈ t.loclist.takeWhile (fun l => l.id < n) ∨
      l ∈ t.loclist.dropWhile fun l => l.id < n := by
    rw [← List.mem_append, List.takeWhile_append_dropWhile]
  rw [insert, List.mem_append, List.mem_cons, hsplit, or_left_comm]

theorem good_insert {n : ChordID} (hn : n < 2 ^ NBIT) (hnew : t.lookup n = none) :
    (t.insert n hn hnew).good = Insert.insert n t.good := by
  ext m
  rw [Finset.mem_insert, mem_good, mem_good, mem_insert]
  simp

end Insert

end LocationTable

end XGossip
