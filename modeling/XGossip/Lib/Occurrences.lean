import Mathlib.Data.List.Count
import Mathlib.Data.List.Nodup

namespace Occurrences
set_option autoImplicit true

variable [DecidableEq α]

/-- Every element with the number of its occurrences in front of it, counted from those in `seen`. -/
def numberedFrom : List α → List α → List (α × Nat)
  | _, [] => []
  | seen, p :: l => (p, seen.count p) :: numberedFrom (p :: seen) l

def numbered (l : List α) : List (α × Nat) := numberedFrom [] l

@[simp] theorem map_fst_numberedFrom (seen l : List α) :
    (numberedFrom seen l).map Prod.fst = l := by
  induction l generalizing seen with
  | nil => rfl
  | cons p l ih => rw [numberedFrom, List.map_cons, ih]

@[simp] theorem length_numberedFrom (seen l : List α) : (numberedFrom seen l).length = l.length := by
  rw [← List.length_map Prod.fst, map_fst_numberedFrom]

theorem count_cons_add (p q : α) (seen l : List α) :
    (q :: seen).count p + l.count p = seen.count p + (q :: l).count p := by
  simp only [List.count_cons]
  omega

theorem mem_numberedFrom {p : α} {seen l : List α} : (p, a) ∈ numberedFrom seen l ↔
    seen.count p ≤ a ∧ a < seen.count p + l.count p := by
  induction l generalizing seen with
  | nil =>
    rw [numberedFrom, List.count_nil]
    exact ⟨nofun, fun h => by omega⟩
  | cons q l ih =>
    rw [numberedFrom, List.mem_cons, ih, count_cons_add, Prod.mk.injEq]
    by_cases hq : p = q
    · subst hq
      simp only [List.count_cons_self, true_and]
      omega
    · rw [List.count_cons_of_ne (Ne.symm hq)]
      simp only [hq, false_and, false_or]

theorem mem_numbered {p : α} {l : List α} : (p, a) ∈ numbered l ↔ a < l.count p := by
  rw [numbered, mem_numberedFrom, List.count_nil]
  omega

theorem nodup_numberedFrom (seen l : List α) : (numberedFrom seen l).Nodup := by
  induction l generalizing seen with
  | nil => exact List.nodup_nil
  | cons q l ih =>
    rw [numberedFrom, List.nodup_cons, mem_numberedFrom, List.count_cons_self]
    exact ⟨by omega, ih (q :: seen)⟩

theorem numberedFrom_idxOf {p : α} {l : List α} (seen : List α) (h : p ∈ l) :
    (numberedFrom seen l)[l.idxOf p]? = some (p, seen.count p) := by
  induction l generalizing seen with
  | nil => cases h
  | cons q l ih =>
    by_cases hq : q = p
    · rw [hq, List.idxOf_cons_self]
      rfl
    · have hmem := (List.mem_cons.1 h).resolve_left (Ne.symm hq)
      rw [List.idxOf_cons_ne l hq, numberedFrom, List.getElem?_cons_succ, ih _ hmem,
        List.count_cons_of_ne hq]

end Occurrences
