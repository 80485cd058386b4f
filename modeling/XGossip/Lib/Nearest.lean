import Mathlib.Data.Finset.Card
import Mathlib.Data.Finset.Max
import Mathlib.Order.Basic

namespace Nearest
set_option autoImplicit true

variable {α β : Type*} [LinearOrder β] {f : α → β} {k : Nat} {s t : Finset α} {n : α}

/-- The first k elements of a set, in the order of what f makes of them. -/
def nearest (f : α → β) (k : Nat) (s : Finset α) : Finset α :=
  s.filter fun n => (s.filter fun m => f m < f n).card < k

theorem mem_nearest : n ∈ nearest f k s ↔ n ∈ s ∧ (s.filter fun m => f m < f n).card < k :=
  Finset.mem_filter

theorem nearest_subset : nearest f k s ⊆ s := Finset.filter_subset _ _

theorem nearest_of_subset (hts : t ⊆ s) (hn : n ∈ t) (h : n ∈ nearest f k s) :
    n ∈ nearest f k t :=
  mem_nearest.2 ⟨hn, (Finset.card_le_card (Finset.filter_subset_filter _ hts)).trans_lt
    (mem_nearest.1 h).2⟩

theorem nearest_eq (h : nearest f k s ⊆ t) (hts : t ⊆ s) : nearest f k t = nearest f k s := by
  refine Finset.Subset.antisymm (fun n hn => ?_) fun n hn => nearest_of_subset hts (h hn) hn
  by_contra hnot
  obtain ⟨hnt, hcard⟩ := mem_nearest.1 hn
  have hrest : n ∈ s.filter fun n => k ≤ (s.filter fun m => f m < f n).card :=
    Finset.mem_filter.2 ⟨hts hnt, Nat.le_of_not_lt fun hlt =>
      hnot (mem_nearest.2 ⟨hts hnt, hlt⟩)⟩
  obtain ⟨m, hm, hmin⟩ := Finset.exists_min_image _ f ⟨n, hrest⟩
  have hsub : (s.filter fun l => f l < f m) ⊆ t.filter fun l => f l < f n := by
    intro l hl
    obtain ⟨hls, hlm⟩ := Finset.mem_filter.1 hl
    refine Finset.mem_filter.2 ⟨h (mem_nearest.2 ⟨hls, ?_⟩), hlm.trans_le (hmin n hrest)⟩
    by_contra hle
    exact absurd hlm (not_lt.2 (hmin l (Finset.mem_filter.2 ⟨hls, Nat.le_of_not_lt hle⟩)))
  have hle := (Finset.mem_filter.1 hm).2
  have := Finset.card_le_card hsub
  omega

theorem nearest_insert [DecidableEq α] (h : nearest f k t = nearest f k s) (hts : t ⊆ s) :
    nearest f k (insert n t) = nearest f k (insert n s) := by
  refine nearest_eq (fun m hm => ?_) (Finset.insert_subset_insert n hts)
  rcases Finset.mem_insert.1 (nearest_subset hm) with rfl | hms
  · exact Finset.mem_insert_self m t
  · have hms' := nearest_of_subset (Finset.subset_insert n s) hms hm
    exact Finset.mem_insert_of_mem (nearest_subset (h ▸ hms'))

/-- The first elements of a sorted list. -/
theorem nearest_toFinset [DecidableEq α] {l : List α} (hl : l.Pairwise fun a b => f a < f b) :
    nearest f k l.toFinset = (l.take k).toFinset := by
  have hcard : ∀ i (hi : i < l.length),
      (l.toFinset.filter fun m => f m < f l[i]).card = i := by
    intro i hi
    have hset : (l.toFinset.filter fun m => f m < f l[i]) = (l.take i).toFinset := by
      ext m
      rw [Finset.mem_filter, List.mem_toFinset, List.mem_toFinset]
      constructor
      · rintro ⟨hm, hlt⟩
        obtain ⟨j, hj, rfl⟩ := List.mem_iff_getElem.1 hm
        have hji : j < i := by
          by_contra hnot
          rcases Nat.lt_or_eq_of_le (Nat.le_of_not_lt hnot) with hij | rfl
          · exact lt_asymm hlt (List.pairwise_iff_getElem.1 hl i j hi hj hij)
          · exact lt_irrefl _ hlt
        exact List.mem_take_iff_getElem.2 ⟨j, by omega, rfl⟩
      · intro hm
        obtain ⟨j, hj, rfl⟩ := List.mem_take_iff_getElem.1 hm
        exact ⟨List.getElem_mem _, List.pairwise_iff_getElem.1 hl j i (by omega) hi (by omega)⟩
    have hnodup : l.Nodup := hl.imp fun hlt he => (he ▸ hlt).false
    rw [hset, List.toFinset_card_of_nodup (hnodup.sublist (List.take_sublist _ _)),
      List.length_take, Nat.min_eq_left (Nat.le_of_lt hi)]
  ext n
  rw [mem_nearest, List.mem_toFinset, List.mem_toFinset]
  constructor
  · rintro ⟨hn, hlt⟩
    obtain ⟨i, hi, rfl⟩ := List.mem_iff_getElem.1 hn
    rw [hcard i hi] at hlt
    exact List.mem_take_iff_getElem.2 ⟨i, by omega, rfl⟩
  · intro hn
    obtain ⟨i, hi, rfl⟩ := List.mem_take_iff_getElem.1 hn
    exact ⟨List.getElem_mem _, (hcard i (by omega)).trans_lt (by omega)⟩

theorem le_of_nearest_eq (h : nearest f k t = nearest f k s) (hk : 0 < k)
    (hmin : ∀ m ∈ t, f n ≤ f m) : ∀ m ∈ s, f n ≤ f m := by
  intro m hm
  obtain ⟨l, hl, hleast⟩ := s.exists_min_image f ⟨m, hm⟩
  have hnone : (s.filter fun m => f m < f l) = ∅ :=
    Finset.filter_eq_empty_iff.2 fun m hm => not_lt.2 (hleast m hm)
  have hlmem : l ∈ nearest f k s := mem_nearest.2 ⟨hl, by rwa [hnone, Finset.card_empty]⟩
  exact (hmin l (nearest_subset (h ▸ hlmem))).trans (hleast m hm)

end Nearest
