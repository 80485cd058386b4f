import Mathlib.Data.List.Pairwise
import Mathlib.Order.Defs.Unbundled
import Mathlib.Order.RelClasses

/-- A finite map held as its list of entries in strictly increasing key order. -/
structure SortedMap {κ : Type*} (r : κ → κ → Prop) (ν : Type*) where
  entries : List (κ × ν)
  sorted : entries.Pairwise fun a b => r a.1 b.1

namespace SortedMap
set_option autoImplicit true

variable {κ ν ν' : Type*} {r : κ → κ → Prop}

def empty : SortedMap r ν := ⟨[], .nil⟩

def keys (m : SortedMap r ν) : List κ := m.entries.map Prod.fst

def size (m : SortedMap r ν) : Nat := m.entries.length

/-- The key an iterator at the beginning of the map stands on, `none` being the end. -/
def begin? (m : SortedMap r ν) : Option κ := m.entries.head?.map Prod.fst

/-- The key an iterator standing on `k` moves to. -/
def next? [DecidableRel r] (m : SortedMap r ν) (k : κ) : Option κ :=
  (m.entries.find? fun e => r k e.1).map Prod.fst

def mapVal (f : κ → ν → ν') (m : SortedMap r ν) : SortedMap r ν' where
  entries := m.entries.map fun e => (e.1, f e.1 e.2)
  sorted := List.pairwise_map.2 m.sorted

def find? [DecidableEq κ] (m : SortedMap r ν) (k : κ) : Option ν :=
  (m.entries.find? fun e => e.1 = k).map Prod.snd

@[simp] theorem find?_empty [DecidableEq κ] (k : κ) :
    (empty : SortedMap r ν).find? k = none := rfl

@[simp] theorem find?_mapVal [DecidableEq κ] (f : κ → ν → ν') (m : SortedMap r ν) (k : κ) :
    (m.mapVal f).find? k = (m.find? k).map (f k) := by
  simp only [find?, mapVal, List.find?_map, Option.map_map]
  cases h : m.entries.find? fun e => e.1 = k with
  | none => simp [Function.comp_def, h]
  | some e =>
    have hk : e.1 = k := by simpa using List.find?_some h
    simp [Function.comp_def, h, hk]

def insertEntry [DecidableRel r] (k : κ) (v : ν) : List (κ × ν) → List (κ × ν)
  | [] => [(k, v)]
  | e :: l =>
    if r k e.1 then (k, v) :: e :: l
    else if r e.1 k then e :: insertEntry k v l
    else (k, v) :: l

theorem mem_insertEntry [DecidableRel r] {l : List (κ × ν)} {e : κ × ν}
    (h : e ∈ insertEntry (r := r) k v l) : e = (k, v) ∨ e ∈ l := by
  induction l with
  | nil => exact .inl (List.mem_singleton.1 h)
  | cons a l ih =>
    simp only [insertEntry] at h
    split at h
    · exact List.mem_cons.1 h
    · split at h
      · rcases List.mem_cons.1 h with he | hl
        · exact .inr (he ▸ List.mem_cons_self)
        · exact (ih hl).imp_right (List.mem_cons_of_mem _)
      · exact (List.mem_cons.1 h).imp_right (List.mem_cons_of_mem _)

theorem next?_congr [DecidableRel r] (m : SortedMap r ν) {a b : κ} (h : ∀ k ∈ m.keys, r a k ↔ r b k) :
    m.next? a = m.next? b := by
  simp only [next?]
  congr 1
  have hk : ∀ e ∈ m.entries, r a e.1 ↔ r b e.1 :=
    fun e he => h _ (List.mem_map.2 ⟨e, he, rfl⟩)
  revert hk
  generalize m.entries = l
  intro hk
  induction l with
  | nil => rfl
  | cons e l ih =>
    have he := hk e List.mem_cons_self
    have hl := ih fun e he => hk e (List.mem_cons_of_mem _ he)
    simp only [List.find?_cons, he, hl]

theorem mem_of_next? [DecidableRel r] {m : SortedMap r ν} (h : m.next? a = some k) : k ∈ m.keys ∧ r a k := by
  obtain ⟨e, he, rfl⟩ := Option.map_eq_some_iff.1 h
  refine ⟨List.mem_map.2 ⟨e, List.mem_of_find?_eq_some he, rfl⟩, ?_⟩
  simpa using List.find?_some he

theorem next?_eq_none [DecidableRel r] {m : SortedMap r ν} (h : m.next? a = none) (hj : j ∈ m.keys) :
    ¬ r a j := by
  obtain ⟨d, hd, rfl⟩ := List.mem_map.1 hj
  simpa using List.find?_eq_none.1 (Option.map_eq_none_iff.1 h) d hd

theorem lt_of_begin? {m : SortedMap r ν} (h : m.begin? = some k) (hj : j ∈ m.keys)
    (hne : j ≠ k) : r k j := by
  obtain ⟨l, hl⟩ := m
  cases l with
  | nil => simp [begin?] at h
  | cons e l =>
    obtain rfl : e.1 = k := by simpa [begin?] using h
    obtain ⟨d, hd, rfl⟩ := List.mem_map.1 hj
    rcases List.mem_cons.1 hd with rfl | hd
    · exact (hne rfl).elim
    · exact (List.pairwise_cons.1 hl).1 d hd

theorem mem_of_begin? {m : SortedMap r ν} (h : m.begin? = some k) : k ∈ m.keys := by
  obtain ⟨e, he, rfl⟩ := Option.map_eq_some_iff.1 h
  exact List.mem_map.2 ⟨e, List.mem_of_mem_head? he, rfl⟩

theorem begin?_eq_some {m : SortedMap r ν} (hk : k ∈ m.keys) (hle : ∀ j ∈ m.keys, ¬ r j k) :
    m.begin? = some k := by
  cases hb : m.begin? with
  | none =>
    have hnil : m.entries = [] := List.head?_eq_none_iff.1 (Option.map_eq_none_iff.1 hb)
    simp [keys, hnil] at hk
  | some j =>
    by_contra hne
    exact hle j (mem_of_begin? hb) (lt_of_begin? hb hk fun he => hne (congrArg some he.symm))

section Order

variable [IsStrictTotalOrder κ r]

theorem eq_of_not_lt {a b : κ} (hab : ¬ r a b) (hba : ¬ r b a) : a = b :=
  Std.Trichotomous.trichotomous a b hab hba

theorem nodup_entries (m : SortedMap r ν) : m.entries.Nodup := by
  refine m.sorted.imp ?_
  rintro a b hab rfl
  exact irrefl_of r _ hab

section Find

variable [DecidableEq κ]

theorem mem_entries_iff (m : SortedMap r ν) (k : κ) (v : ν) :
    (k, v) ∈ m.entries ↔ m.find? k = some v := by
  obtain ⟨l, hl⟩ := m
  simp only [find?]
  induction l with
  | nil => simp
  | cons e l ih =>
    obtain ⟨ha, hl'⟩ := List.pairwise_cons.1 hl
    by_cases he : e.1 = k
    · have hk : (k, v) ∉ l := by
        intro hm
        have hlt := ha _ hm
        rw [he] at hlt
        exact irrefl_of r k hlt
      simp only [List.mem_cons, hk, or_false, List.find?_cons, he, decide_true, Option.map_some,
        Option.some.injEq]
      constructor
      · rintro rfl; rfl
      · rintro rfl; exact Prod.ext he.symm rfl
    · have hk : (k, v) ≠ e := fun hm => he (congrArg Prod.fst hm).symm
      simpa only [List.mem_cons, hk, false_or, List.find?_cons, he, decide_false] using ih hl'

theorem mem_keys_iff (m : SortedMap r ν) (k : κ) : k ∈ m.keys ↔ (m.find? k).isSome := by
  simp only [keys, List.mem_map, Option.isSome_iff_exists]
  constructor
  · rintro ⟨⟨_, v⟩, hm, rfl⟩
    exact ⟨v, (m.mem_entries_iff _ _).1 hm⟩
  · rintro ⟨v, hv⟩
    exact ⟨(k, v), (m.mem_entries_iff _ _).2 hv, rfl⟩

theorem find?_eq_none_iff (m : SortedMap r ν) (k : κ) : m.find? k = none ↔ k ∉ m.keys := by
  rw [mem_keys_iff, Option.not_isSome_iff_eq_none]

theorem ext_find? {m m' : SortedMap r ν} (h : ∀ k, m.find? k = m'.find? k) : m = m' := by
  have hmem : ∀ e, e ∈ m.entries ↔ e ∈ m'.entries := by
    rintro ⟨k, v⟩
    rw [mem_entries_iff, mem_entries_iff, h]
  have hperm : m.entries.Perm m'.entries :=
    (List.perm_ext_iff_of_nodup m.nodup_entries m'.nodup_entries).2 hmem
  have heq := @List.Perm.eq_of_pairwise _ (fun a b => r a.1 b.1) _ _
    (fun a b _ _ hab hba => (asymm_of r hab hba).elim) m.sorted m'.sorted hperm
  cases m
  cases m'
  cases heq
  rfl

end Find

variable [DecidableRel r]

theorem insertEntry_sorted (k : κ) (v : ν) {l : List (κ × ν)}
    (h : l.Pairwise fun a b => r a.1 b.1) :
    (insertEntry (r := r) k v l).Pairwise fun a b => r a.1 b.1 := by
  induction l with
  | nil => exact List.pairwise_singleton _ _
  | cons a l ih =>
    obtain ⟨ha, hl⟩ := List.pairwise_cons.1 h
    simp only [insertEntry]
    split
    · next hk =>
      refine List.pairwise_cons.2 ⟨?_, h⟩
      intro e he
      rcases List.mem_cons.1 he with rfl | he
      · exact hk
      · exact trans_of r hk (ha e he)
    · next hk =>
      split
      · next hk' =>
        refine List.pairwise_cons.2 ⟨?_, ih hl⟩
        intro e he
        rcases mem_insertEntry he with rfl | he
        · exact hk'
        · exact ha e he
      · next hk' =>
        have he : k = a.1 := eq_of_not_lt hk hk'
        exact List.pairwise_cons.2 ⟨fun e hm => he ▸ ha e hm, hl⟩

def insert (m : SortedMap r ν) (k : κ) (v : ν) : SortedMap r ν :=
  ⟨insertEntry k v m.entries, insertEntry_sorted k v m.sorted⟩

theorem next?_insert_self (m : SortedMap r ν) (k : κ) (v : ν) :
    (m.insert k v).next? k = m.next? k := by
  obtain ⟨l, hl⟩ := m
  simp only [next?, insert]
  congr 1
  induction l with
  | nil => simp [insertEntry, irrefl_of r k]
  | cons e l ih =>
    obtain ⟨ha, hl'⟩ := List.pairwise_cons.1 hl
    simp only [insertEntry]
    split
    · next hk => simp [irrefl_of r k, hk]
    · next hk =>
      split
      · simpa [hk] using ih hl'
      · simp [irrefl_of r k, hk]

theorem next?_le {m : SortedMap r ν} (h : m.next? a = some k) (hj : j ∈ m.keys)
    (ha : r a j) : ¬ r j k := by
  obtain ⟨e, he, rfl⟩ := Option.map_eq_some_iff.1 h
  obtain ⟨d, hd, rfl⟩ := List.mem_map.1 hj
  obtain ⟨_, l₁, l₂, hl, hlt⟩ := List.find?_eq_some_iff_append.1 he
  have hs := m.sorted
  rw [hl] at hd hs
  rcases List.mem_append.1 hd with hd | hd
  · exact absurd ha (by simpa using hlt d hd)
  · rcases List.mem_cons.1 hd with rfl | hd
    · exact irrefl_of r _
    · exact asymm_of r ((List.pairwise_cons.1 (List.pairwise_append.1 hs).2.1).1 d hd)

theorem next?_eq_some {m : SortedMap r ν} (hk : k ∈ m.keys) (ha : r a k)
    (hle : ∀ j ∈ m.keys, r a j → ¬ r j k) : m.next? a = some k := by
  cases hn : m.next? a with
  | none => exact (next?_eq_none hn hk ha).elim
  | some j =>
    obtain ⟨hj, haj⟩ := mem_of_next? hn
    rw [eq_of_not_lt (hle j hj haj) (next?_le hn hk ha)]

theorem next?_eq_of_keys {m m' : SortedMap r ν}
    (h : ∀ k, r a k → (k ∈ m.keys ↔ k ∈ m'.keys)) : m.next? a = m'.next? a := by
  cases hn : m.next? a with
  | none =>
    cases hn' : m'.next? a with
    | none => rfl
    | some k' =>
      obtain ⟨hk', hr⟩ := mem_of_next? hn'
      exact (next?_eq_none hn ((h k' hr).2 hk') hr).elim
  | some k =>
    obtain ⟨hk, hr⟩ := mem_of_next? hn
    cases hn' : m'.next? a with
    | none => exact (next?_eq_none hn' ((h k hr).1 hk) hr).elim
    | some k' =>
      obtain ⟨hk', hr'⟩ := mem_of_next? hn'
      have hle := next?_le hn ((h k' hr').2 hk') hr'
      have hle' := next?_le hn' ((h k hr).1 hk) hr
      rw [eq_of_not_lt hle' hle]

variable [DecidableEq κ]

theorem find?_insert (m : SortedMap r ν) (k : κ) (v : ν) (j : κ) :
    (m.insert k v).find? j = if j = k then some v else m.find? j := by
  obtain ⟨l, hl⟩ := m
  simp only [find?, insert]
  induction l with
  | nil => by_cases h : j = k <;> simp [insertEntry, h, eq_comm]
  | cons e l ih =>
    obtain ⟨ha, hl'⟩ := List.pairwise_cons.1 hl
    simp only [insertEntry]
    split
    · by_cases h : j = k
      · simp [h]
      · simp [h, Ne.symm h]
    · next hk =>
      split
      · next hk' =>
        by_cases hj : e.1 = j
        · have hne : j ≠ k := by
            rintro rfl
            exact irrefl_of r j (hj ▸ hk' : r j j)
          simp [hj, hne]
        · simpa [hj] using ih hl'
      · next hk' =>
        have he : k = e.1 := eq_of_not_lt hk hk'
        by_cases h : j = k
        · simp [h]
        · have hne : ¬ e.1 = j := fun hj => h (hj.symm.trans he.symm)
          simp [h, Ne.symm h, hne]

@[simp] theorem find?_insert_self (m : SortedMap r ν) (k : κ) (v : ν) :
    (m.insert k v).find? k = some v := by simp [find?_insert]

theorem find?_insert_of_ne (m : SortedMap r ν) {k j : κ} (v : ν) (h : j ≠ k) :
    (m.insert k v).find? j = m.find? j := by simp [find?_insert, h]

/-- Appending to the value stored under a key only shows when the key is new. -/
def push (m : SortedMap r ν) (k : κ) (v : ν) : SortedMap r ν :=
  if (m.find? k).isSome then m else m.insert k v

theorem find?_push (m : SortedMap r ν) (k : κ) (v : ν) (j : κ) :
    (m.push k v).find? j = if j = k then some ((m.find? k).getD v) else m.find? j := by
  simp only [push]
  by_cases h : j = k
  · subst h
    cases hm : m.find? j <;> simp [hm]
  · split <;> simp [find?_insert, h]

theorem find?_foldl_push (l : List (κ × ν)) (m : SortedMap r ν) (k : κ) :
    (l.foldl (fun m e => m.push e.1 e.2) m).find? k =
      (m.find? k).or ((l.find? fun e => e.1 = k).map Prod.snd) := by
  induction l generalizing m with
  | nil => simp
  | cons e l ih =>
    rw [List.foldl_cons, ih, find?_push]
    by_cases he : e.1 = k
    · cases hk : m.find? k <;> simp [he, hk]
    · simp [he, Ne.symm he]

theorem foldl_push_entries (m : SortedMap r ν) :
    m.entries.foldl (fun m e => m.push e.1 e.2) empty = m := by
  apply ext_find?
  intro k
  rw [find?_foldl_push, find?_empty, Option.none_or]
  rfl

end Order

end SortedMap
