import Mathlib.Order.Lattice

set_option autoImplicit true

namespace Tiling

variable {α : Type*} [LinearOrder α] {l l' : List (α × α)} {a b x y z : α}

/-- The intervals of a list go, one right after the other, from `a` to `b`. -/
def Tiles : α → List (α × α) → α → Prop
  | a, [], b => a = b
  | a, p :: l, b => p.1 = a ∧ p.1 < p.2 ∧ Tiles p.2 l b

theorem Tiles.mem_bounds (h : Tiles a l b) : a ≤ b ∧ ∀ p ∈ l, a ≤ p.1 ∧ p.1 < p.2 ∧ p.2 ≤ b := by
  induction l generalizing a with
  | nil => exact ⟨le_of_eq h, by simp⟩
  | cons p l ih =>
    obtain ⟨rfl, hlt, hl⟩ := h
    obtain ⟨hle, hmem⟩ := ih hl
    refine ⟨le_trans (le_of_lt hlt) hle, ?_⟩
    intro q hq
    rcases List.mem_cons.1 hq with rfl | hq
    · exact ⟨le_refl _, hlt, hle⟩
    · obtain ⟨h₁, h₂, h₃⟩ := hmem q hq
      exact ⟨le_trans (le_of_lt hlt) h₁, h₂, h₃⟩

theorem Tiles.pairwise (h : Tiles a l b) : l.Pairwise fun p q => p.2 ≤ q.1 := by
  induction l generalizing a with
  | nil => exact .nil
  | cons p l ih =>
    obtain ⟨-, -, hl⟩ := h
    exact .cons (fun q hq => (hl.mem_bounds.2 q hq).1) (ih hl)

theorem Tiles.covers (h : Tiles a l b) (hne : l ≠ []) (ha : a ≤ x) (hb : x ≤ b) :
    ∃ p ∈ l, p.1 ≤ x ∧ x ≤ p.2 := by
  induction l generalizing a with
  | nil => exact (hne rfl).elim
  | cons p l ih =>
    obtain ⟨rfl, hlt, hl⟩ := h
    rcases le_total x p.2 with hx | hx
    · exact ⟨p, List.mem_cons_self, ha, hx⟩
    · cases l with
      | nil =>
        obtain rfl : p.2 = b := hl
        exact ⟨p, List.mem_cons_self, ha, hb⟩
      | cons q l =>
        obtain ⟨r, hr, hrx⟩ := ih hl (by simp) hx
        exact ⟨r, List.mem_cons_of_mem _ hr, hrx⟩

theorem Tiles.split (h : Tiles a (l ++ (x, z) :: l') b) (hxy : x < y) (hyz : y < z) :
    Tiles a (l ++ (x, y) :: (y, z) :: l') b := by
  induction l generalizing a with
  | nil =>
    obtain ⟨hx, -, hl'⟩ := h
    exact ⟨hx, hxy, rfl, hyz, hl'⟩
  | cons p l ih =>
    obtain ⟨hp, hlt, hl⟩ := h
    exact ⟨hp, hlt, ih hl⟩

theorem Tiles.not_inside (h : Tiles a l b) (hp : p ∈ l) (hq : q ∈ l) :
    ¬ (p.1 < q.1 ∧ q.1 < p.2) := by
  induction l generalizing a with
  | nil => cases hp
  | cons r l ih =>
    obtain ⟨-, hr, hl⟩ := h
    have hbounds := hl.mem_bounds.2
    rintro ⟨hpq, hqp⟩
    rcases List.mem_cons.1 hp with rfl | hpl
    · rcases List.mem_cons.1 hq with rfl | hql
      · exact lt_irrefl _ hpq
      · exact not_lt_of_ge (hbounds q hql).1 hqp
    · rcases List.mem_cons.1 hq with rfl | hql
      · exact lt_asymm hpq (lt_of_lt_of_le hr (hbounds p hpl).1)
      · exact ih hl hpl hql ⟨hpq, hqp⟩

end Tiling
