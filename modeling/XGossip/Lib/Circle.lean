import Mathlib.Data.Finset.Max
import Mathlib.Data.List.Iterate
import Mathlib.Data.List.Rotate
import Mathlib.Data.List.TakeWhile
import Mathlib.Tactic.SplitIfs

namespace Circle
set_option autoImplicit true

/-- The way clockwise from a point to another, on a circle of N points. -/
def gap (N x n : Nat) : Nat := if x ≤ n then n - x else N - x + n

section Gap

variable {N x y n m : Nat}

@[simp] theorem gap_self : gap N x x = 0 := by simp [gap]

theorem gap_lt (hx : x < N) (hn : n < N) : gap N x n < N := by
  simp only [gap]
  split <;> omega

theorem gap_inj (hx : x < N) (hn : n < N) (hm : m < N) (h : gap N x n = gap N x m) : n = m := by
  simp only [gap] at h
  split at h <;> split at h <;> omega

theorem gap_pos (hx : x < N) (hn : n < N) (h : n ≠ x) : 0 < gap N x n := by
  rcases Nat.eq_zero_or_pos (gap N x n) with h0 | h0
  · exact absurd (gap_inj hx hn hx (by rw [h0, gap_self])) h
  · exact h0

theorem gap_add (hx : x < N) (hy : y < N) (hn : n < N) (h : gap N x y ≤ gap N x n) :
    gap N x y + gap N y n = gap N x n := by
  simp only [gap] at h ⊢
  split_ifs at h ⊢ <;> omega

theorem gap_add_of_lt (hx : x < N) (hy : y < N) (h : gap N x y + gap N y n < N) :
    gap N x n = gap N x y + gap N y n := by
  simp only [gap] at h ⊢
  split_ifs at h ⊢ <;> omega

theorem gap_back (hx : x < N) (hn : n < N) (h : n ≠ x) : gap N x n + gap N n x = N := by
  simp only [gap]
  split <;> split <;> omega

end Gap

def IsFirst (N : Nat) (s : Finset Nat) (x n : Nat) : Prop :=
  n ∈ s ∧ ∀ m ∈ s, gap N x n ≤ gap N x m

instance : Decidable (IsFirst N s x n) := inferInstanceAs (Decidable (_ ∧ _))

section First

variable {N x y n m : Nat} {s t : Finset Nat}

theorem IsFirst.unique (hs : ∀ n ∈ s, n < N) (hx : x < N) (hn : IsFirst N s x n)
    (hm : IsFirst N s x m) : n = m :=
  gap_inj hx (hs n hn.1) (hs m hm.1) (Nat.le_antisymm (hn.2 m hm.1) (hm.2 n hn.1))

theorem IsFirst.of_le (hs : ∀ n ∈ s, n < N) (hx : x < N) (hy : y < N) (h : IsFirst N s x n)
    (hle : gap N x y ≤ gap N x n) : IsFirst N s y n := by
  refine ⟨h.1, fun m hm => ?_⟩
  have hmin := h.2 m hm
  have hn := gap_add hx hy (hs n h.1) hle
  have hm := gap_add hx hy (hs m hm) (hle.trans hmin)
  omega

theorem IsFirst.subset (h : IsFirst N s x n) (hn : n ∈ t) (hts : t ⊆ s) : IsFirst N t x n :=
  ⟨hn, fun m hm => h.2 m (hts hm)⟩

theorem IsFirst.jump_le (hs : ∀ n ∈ s, n < N) (hx : x < N) (hy : y < N) (h : IsFirst N s y n)
    (hm : m ∈ s) (hle : gap N x y ≤ gap N x m) :
    gap N x n = gap N x y + gap N y n ∧ gap N x n ≤ gap N x m := by
  have hadd := gap_add hx hy (hs m hm) hle
  have hmin := h.2 m hm
  have hlt := gap_lt hx (hs m hm)
  have hn : gap N x n = gap N x y + gap N y n := gap_add_of_lt hx hy (by omega)
  exact ⟨hn, by omega⟩

theorem IsFirst.jump_self (hs : ∀ n ∈ s, n < N) (hx : x < N) (hy : y < N) (hxy : y ≠ x)
    (h : IsFirst N s y n) (hmem : x ∈ s) : n = x ∨ gap N x n = gap N x y + gap N y n := by
  have hback := gap_back hx hy hxy
  have hmin := h.2 x hmem
  rcases Nat.lt_or_eq_of_le hmin with hlt | heq
  · exact .inr (gap_add_of_lt hx hy (by omega))
  · exact .inl (gap_inj hy (hs n h.1) hx heq)

end First

section Walk

variable {N x : Nat} {l : List α} {f : α → Nat} {p : α → Bool}

theorem le_of_mem_dropWhile (hl : l.Pairwise fun a b => f a < f b) :
    ∀ a ∈ l.dropWhile (fun a => f a < x), x ≤ f a := by
  induction l with
  | nil => simp
  | cons a l ih =>
    by_cases ha : f a < x
    · rw [List.dropWhile_cons_of_pos (by simpa using ha)]
      exact ih (List.pairwise_cons.1 hl).2
    · rw [List.dropWhile_cons_of_neg (by simpa using ha)]
      intro b hb
      rcases List.mem_cons.1 hb with rfl | hb
      · omega
      · have := (List.pairwise_cons.1 hl).1 b hb
        omega

theorem lt_of_mem_takeWhile : ∀ a ∈ l.takeWhile (fun a => f a < x), f a < x := fun a ha => by
  simpa using List.mem_takeWhile_imp ha

theorem walk_pairwise (hl : l.Pairwise fun a b => f a < f b) (hN : ∀ a ∈ l, f a < N)
    (hx : x < N) :
    (l.dropWhile (fun a => f a < x) ++ l.takeWhile (fun a => f a < x)).Pairwise
      fun a b => gap N x (f a) < gap N x (f b) := by
  refine List.pairwise_append.2 ⟨?_, ?_, fun a ha b hb => ?_⟩
  · refine (hl.sublist (List.dropWhile_sublist _)).imp_of_mem fun ha hb hab => ?_
    have := le_of_mem_dropWhile hl _ ha
    simp only [gap]
    split <;> split <;> omega
  · refine (hl.sublist (List.takeWhile_sublist _)).imp_of_mem fun ha hb hab => ?_
    have := lt_of_mem_takeWhile _ ha
    have := lt_of_mem_takeWhile _ hb
    simp only [gap]
    split <;> split <;> omega
  · have := le_of_mem_dropWhile hl a ha
    have := lt_of_mem_takeWhile b hb
    have := hN a (List.dropWhile_subset _ ha)
    simp only [gap]
    split <;> split <;> omega

theorem isFirst_of_find? (hl : l.Pairwise fun a b => gap N x (f a) < gap N x (f b))
    (h : l.find? p = some a) : IsFirst N ((l.filter p).map f).toFinset x (f a) := by
  obtain ⟨hpa, as, bs, rfl, has⟩ := List.find?_eq_some_iff_append.1 h
  refine ⟨?_, fun m hm => ?_⟩
  · simp only [List.mem_toFinset, List.mem_map, List.mem_filter]
    exact ⟨a, ⟨by simp, hpa⟩, rfl⟩
  · simp only [List.mem_toFinset, List.mem_map, List.mem_filter] at hm
    obtain ⟨b, ⟨hb, hpb⟩, rfl⟩ := hm
    rcases List.mem_append.1 hb with hb | hb
    · have := has b hb
      simp [hpb] at this
    · rcases List.mem_cons.1 hb with rfl | hb
      · exact Nat.le_refl _
      · exact Nat.le_of_lt ((List.pairwise_cons.1 (List.pairwise_append.1 hl).2.1).1 b hb)

end Walk

section Loop

variable {l a b : List α} {R : α → α → Prop} [DecidableRel R] {P : α → Bool} {y : α}

theorem find?_rel_getElem (hl : l.Pairwise R) (hasymm : ∀ a b, R a b → ¬ R b a)
    {i : Nat} (hi : i < l.length) : (l.find? fun b => R l[i] b) = l[i + 1]? := by
  have hnone : ∀ b ∈ l.take (i + 1), ¬ R l[i] b := by
    intro b hb
    obtain ⟨j, hj, rfl⟩ := List.mem_iff_getElem.1 hb
    rw [List.length_take] at hj
    rw [List.getElem_take]
    rcases Nat.lt_or_eq_of_le (show j ≤ i by omega) with hlt | rfl
    · exact hasymm _ _ (List.pairwise_iff_getElem.1 hl j i (by omega) hi hlt)
    · exact fun h => hasymm _ _ h h
  generalize ha : l[i] = a at hnone ⊢
  conv_lhs => rw [← List.take_append_drop (i + 1) l]
  rw [List.find?_append, List.find?_eq_none.2 (by simpa using hnone), Option.none_or]
  by_cases hlt : i + 1 < l.length
  · rw [List.drop_eq_getElem_cons hlt, List.getElem?_eq_getElem hlt, List.find?_cons_of_pos]
    have := List.pairwise_iff_getElem.1 hl i (i + 1) hi hlt (Nat.lt_succ_self i)
    rw [ha] at this
    simpa using this
  · rw [List.drop_eq_nil_of_le (by omega), List.getElem?_eq_none (by omega), List.find?_nil]

theorem iterate_eq_rotate {next : α → α}
    (hnext : ∀ i (hi : i < l.length) (hj : (i + 1) % l.length < l.length),
      next l[i] = l[(i + 1) % l.length])
    {k : Nat} (hk : k < l.length) : List.iterate next l[k] l.length = l.rotate k := by
  have hmod (i : Nat) : i % l.length < l.length := Nat.mod_lt _ (Nat.zero_lt_of_lt hk)
  have hiter (i : Nat) : next^[i] l[k] = l.get ⟨(i + k) % l.length, hmod _⟩ := by
    induction i with
    | zero => simp [Nat.mod_eq_of_lt hk]
    | succ i ih =>
      rw [Function.iterate_succ_apply', ih, List.get_eq_getElem, hnext _ _ (hmod _),
        List.get_eq_getElem]
      congr 1
      rw [Nat.mod_add_mod, Nat.add_right_comm]
  refine List.ext_getElem (by simp) fun i _ _ => ?_
  rw [List.getElem_iterate, List.getElem_rotate, hiter, List.get_eq_getElem]

theorem start_append (ha : ∀ y ∈ a, ¬ P y) (hb : ∀ y ∈ b, P y) :
    ((a ++ b).find? P).or (a ++ b).head? = (b ++ a).head? := by
  rw [List.find?_append, List.find?_eq_none.2 ha, Option.none_or]
  cases b with
  | nil => simp
  | cons y b => rw [List.find?_cons_of_pos (hb y List.mem_cons_self)]; rfl

/-- From an element of a sorted list to the next, and from the last one to the first: as many steps
as there are elements go around. -/
theorem iterate_around (next : α → α) (hl : (a ++ b).Pairwise R) (hasymm : ∀ a b, R a b → ¬ R b a)
    (hnext : ∀ y, next y = (((a ++ b).find? fun z => R y z).or (a ++ b).head?).getD y)
    (h : (b ++ a).head? = some y) : List.iterate next y (a ++ b).length = b ++ a := by
  have hget : ∀ i (hi : i < (a ++ b).length) (hj : (i + 1) % (a ++ b).length < (a ++ b).length),
      next (a ++ b)[i] = (a ++ b)[(i + 1) % (a ++ b).length] := by
    generalize a ++ b = l at hl hnext
    intro i hi hj
    rw [hnext, find?_rel_getElem hl hasymm hi]
    rcases Nat.lt_or_ge (i + 1) l.length with h | h
    · simp [List.getElem?_eq_getElem h, Nat.mod_eq_of_lt h]
    · have hlen : i + 1 = l.length := by omega
      simp [hlen, List.head?_eq_getElem?, Nat.zero_lt_of_lt hi]
  cases b with
  | nil =>
    cases a with
    | nil => cases h
    | cons z a =>
      cases h
      have hround := iterate_eq_rotate hget (Nat.zero_lt_succ _)
      rw [List.rotate_zero] at hround
      exact hround.trans (List.append_nil _)
  | cons z b =>
    cases h
    have hround := iterate_eq_rotate hget (show a.length < (a ++ y :: b).length by simp)
    simp only [List.getElem_append_right (Nat.le_refl _), Nat.sub_self, List.getElem_cons_zero,
      List.rotate_append_length_eq] at hround
    exact hround

end Loop

section Way

variable {N x y n m : Nat}

/-- The way clockwise to another point; to the point itself it is once around. -/
def way (N x n : Nat) : Nat := if x < n then n - x else N - x + n

theorem way_self (hx : x < N) : way N x x = N := by
  rw [way, if_neg (Nat.lt_irrefl x)]
  omega

theorem way_le (hx : x < N) (hn : n < N) : way N x n ≤ N := by
  rw [way]
  split <;> omega

theorem way_inj (hx : x < N) (hn : n < N) (hm : m < N) (h : way N x n = way N x m) : n = m := by
  simp only [way] at h
  split_ifs at h <;> omega

theorem way_add (hx : x < N) (hy : y < N) (hn : n < N) (h : way N x y < way N x n) :
    way N x y + way N y n = way N x n := by
  simp only [way] at h ⊢
  split_ifs at h ⊢ <;> omega

theorem way_add_of_le (hx : x < N) (hy : y < N) (h : way N x y + way N y n ≤ N) :
    way N x n = way N x y + way N y n := by
  simp only [way] at h ⊢
  split_ifs at h ⊢ <;> omega

end Way

/-- The first other point of a set, clockwise from a point on. -/
def IsNext (N : Nat) (s : Finset Nat) (x n : Nat) : Prop :=
  n ∈ s ∧ ∀ m ∈ s, way N x n ≤ way N x m

section Inverse

variable {N : Nat} {M B : Finset Nat} {succ pred : Nat → Nat}

theorem exists_isNext (N x : Nat) (h : M.Nonempty) : ∃ n, IsNext N M x n := by
  obtain ⟨n, hn, hmin⟩ := M.exists_min_image (way N x) h
  exact ⟨n, hn, hmin⟩

theorem IsNext.unique {x n m : Nat} (hM : ∀ n ∈ M, n < N) (hx : x < N) (hn : IsNext N M x n)
    (hm : IsNext N M x m) : n = m :=
  way_inj hx (hM n hn.1) (hM m hm.1) (Nat.le_antisymm (hn.2 m hm.1) (hm.2 n hn.1))

theorem isNext_of_last {x p : Nat} (hM : ∀ n ∈ M, n < N) (hx : x ∈ M) (hp : p ∈ M)
    (hmax : ∀ m ∈ M, gap N x m ≤ gap N x p) : IsNext N M p x := by
  refine ⟨hx, fun m hm => ?_⟩
  have hle := hmax m hm
  have hxN := hM x hx
  have hpN := hM p hp
  have hmN := hM m hm
  simp only [gap, way] at hle ⊢
  split_ifs at hle ⊢ <;> omega

/-- Successors that have inverses, and pass over none of some of the points, are the next points:
there is one ring, once around. -/
theorem isNext_of_inverse (hM : ∀ n ∈ M, n < N) (hB : B ⊆ M) (hne : B.Nonempty)
    (hsucc : ∀ n ∈ M, succ n ∈ M) (hinv : ∀ n ∈ M, pred (succ n) = n)
    (hskip : ∀ n ∈ M, ∀ b ∈ B, way N n (succ n) ≤ way N n b) :
    ∀ n ∈ M, IsNext N M n (succ n) := by
  have hind : ∀ d x b, x ∈ M → IsNext N B x b → way N x b = d → IsNext N M x (succ x) := by
    intro d
    induction d using Nat.strong_induction_on with
    | _ d ih =>
      intro x b hx hb hd
      refine ⟨hsucc x hx, fun m hm => ?_⟩
      by_contra hlt
      obtain ⟨z, hz, hmax⟩ := (M.filter fun m => way N x m < way N x (succ x)).exists_max_image
        (way N x) ⟨m, Finset.mem_filter.2 ⟨hm, Nat.lt_of_not_le hlt⟩⟩
      obtain ⟨hzM, hzlt⟩ := Finset.mem_filter.1 hz
      have hxN := hM x hx
      have hzN := hM z hzM
      have hyN := hM _ (hsucc x hx)
      have hzy := way_add hxN hzN hyN hzlt
      have hle := way_le hxN hyN
      have hxb := hskip x hx b hb.1
      have hnext : IsNext N M z (succ x) := by
        refine ⟨hsucc x hx, fun c hc => ?_⟩
        by_contra hcy
        have hxc : way N x c = way N x z + way N z c := way_add_of_le hxN hzN (by omega)
        have hpos : 0 < way N z c := by
          have := hM c hc
          rw [way]
          split <;> omega
        have := hmax c (Finset.mem_filter.2 ⟨hc, by omega⟩)
        omega
      have hzb : way N x z + way N z b = way N x b :=
        way_add hxN hzN (hM b (hB hb.1)) (by omega)
      have hbase : IsNext N B z b := by
        refine ⟨hb.1, fun c hc => ?_⟩
        have hbc := hb.2 c hc
        have := way_add hxN hzN (hM c (hB hc)) (by omega)
        omega
      have hpos : 0 < way N x z := by
        rw [way]
        split <;> omega
      have heq := (ih (way N z b) (by omega) z b hzM hbase rfl).unique hM hzN hnext
      have hzx : z = x := by rw [← hinv z hzM, heq, hinv x hx]
      rw [hzx, way_self hxN] at hzlt
      omega
  intro n hn
  obtain ⟨b, hb⟩ := exists_isNext N n hne
  exact hind _ n b hn hb rfl

end Inverse

end Circle
