import XGossip.Index.Intervals

namespace XGossip
set_option autoImplicit true

section Wraps

/-- How often a number goes round the range of an `int`. -/
def wraps (x : ℤ) : ℤ := (x + 2 ^ 31) / 2 ^ 32

theorem bmod_eq_wraps (x : ℤ) : x.bmod (2 ^ 32) = x - 2 ^ 32 * wraps x := by
  simp only [Int.bmod, wraps]
  omega

theorem bmod_lt_iff {x y : ℤ} (h₁ : x - y < 2 ^ 32) (h₂ : y - x < 2 ^ 32) :
    (x.bmod (2 ^ 32) < y.bmod (2 ^ 32) ↔ x < y) ↔ wraps x = wraps y := by
  rw [bmod_eq_wraps, bmod_eq_wraps]
  simp only [wraps]
  omega

theorem toInt_mul_ofInt32 (x y : ℤ) :
    (BitVec.ofInt 32 x * BitVec.ofInt 32 y).toInt = (x * y).bmod (2 ^ 32) := by
  rw [← BitVec.ofInt_mul, BitVec.toInt_ofInt]

end Wraps

section Versions

variable {s s' : Headers} {int a b : Span}

/-- The ends of an interval are `int`s. -/
structure Span.Fits (int : Span) : Prop where
  ln : -2 ^ 31 ≤ int.ln ∧ int.ln < 2 ^ 31
  ld : -2 ^ 31 ≤ int.ld ∧ int.ld < 2 ^ 31
  rn : -2 ^ 31 ≤ int.rn ∧ int.rn < 2 ^ 31
  rd : -2 ^ 31 ≤ int.rd ∧ int.rd < 2 ^ 31

/-- Headers of one node in two states of an index: of the root or of nodes with the same name. -/
def SameNode (s s' : Headers) (a b : Span) : Prop :=
  a = s.root ∧ b = s'.root ∨ a ∈ s.nodes ∧ b ∈ s'.nodes ∧ b.name = a.name

theorem Headers.Inv.split_keeps (h : s.Inv) (hs : s.split op = some s') (hint : int ∈ s.nodes) :
    int ∈ s'.nodes ∨ int.myInt ∈ s'.nodes := by
  cases op with
  | node name random =>
    obtain ⟨other, hread, -⟩ := Option.bind_eq_some_iff.1 hs
    obtain ⟨hname, hother⟩ : other.name = name ∧ other ∈ s.nodes :=
      ⟨by simpa using List.find?_some hread, List.mem_of_find?_eq_some hread⟩
    subst hname
    obtain ⟨l₁, l₂, hnodes⟩ := List.append_of_mem hother
    rw [Headers.split, h.performSplit_eq hnodes, Option.some_inj] at hs
    subst hs
    rw [hnodes, List.mem_append, List.mem_cons] at hint
    rcases hint with hint | rfl | hint
    · exact .inl (List.mem_append_left _ hint)
    · exact .inr (List.mem_append_right _ List.mem_cons_self)
    · exact .inl (List.mem_append_right _ (List.mem_cons_of_mem _ (List.mem_append_left _ hint)))
  | root random1 random2 =>
    obtain ⟨r, heq⟩ := h.performSplitRoot_eq random1 random2
    obtain rfl := Option.some.inj (heq.symm.trans hs)
    exact .inl (List.mem_append_left _ hint)

theorem Headers.Inv.splits_keep {ops : List SplitOp} (h : s.Inv) (hs : s.splits ops = some s')
    (hint : int ∈ s.nodes) : ∃ k, Span.myInt^[k] int ∈ s'.nodes := by
  induction ops generalizing s int with
  | nil =>
    obtain rfl := Option.some.inj hs
    exact ⟨0, hint⟩
  | cons op ops ih =>
    obtain ⟨s₁, h₁, hs⟩ := Option.bind_eq_some_iff.1 hs
    rcases h.split_keeps h₁ hint with hkept | hmine
    · exact ih (h.split h₁) hs hkept
    · obtain ⟨k, hk⟩ := ih (h.split h₁) hs hmine
      exact ⟨k + 1, hk⟩

theorem name_iterate_myInt (int : Span) (k : ℕ) : (Span.myInt^[k] int).name = int.name := by
  induction k generalizing int with
  | zero => rfl
  | succ k ih => exact ih int.myInt

theorem right_iterate_myInt (int : Span) (k : ℕ) :
    (Span.myInt^[k] int).rn = int.rn + k * int.ln ∧
      (Span.myInt^[k] int).rd = int.rd + k * int.ld := by
  induction k generalizing int with
  | zero => simp
  | succ k ih =>
    obtain ⟨hrn, hrd⟩ := ih int.myInt
    rw [Function.iterate_succ_apply, hrn, hrd]
    simp only [Span.myInt]
    push_cast
    exact ⟨by ring, by ring⟩

theorem SameNode.later {ops : List SplitOp} (h : s.Inv) (hs : s.splits ops = some s')
    (hab : SameNode s s' a b) :
    a.Unimodular ∧ ∃ k : ℕ, b.rn = a.rn + k * a.ln ∧ b.rd = a.rd + k * a.ld := by
  rcases hab with ⟨rfl, rfl⟩ | ⟨ha, hb, hname⟩
  · obtain ⟨h₁, h₂, h₃, h₄⟩ := h.root
    obtain ⟨-, -, h₃', h₄'⟩ := (h.splits hs).root
    refine ⟨⟨by omega, by omega, by rw [h₁, h₂, h₃, h₄]; rfl⟩, 0, ?_⟩
    simp [h₃, h₄, h₃', h₄']
  · obtain ⟨k, hk⟩ := h.splits_keep hs ha
    have heq : b = Span.myInt^[k] a := List.inj_on_of_nodup_map (h.splits hs).names hb hk
      (hname.trans (name_iterate_myInt a k).symm)
    subst heq
    exact ⟨h.unimodular a ha, k, right_iterate_myInt a k⟩

end Versions

section Test

variable {s s' : Headers} {int a b : Span}

/-- The test of the server whether the right end of an interval lies to the left of another one. -/
def Interval.rightLt (newInt currInt : Interval) : Prop :=
  (newInt.rn * currInt.rd).toInt < (newInt.rd * currInt.rn).toInt

theorem right_lt_iff (ha : 0 < a.rd) (hb : 0 < b.rd) : b.right < a.right ↔
    b.rn * a.rd < b.rd * a.rn := by
  have hda : (0 : ℚ) < a.rd := by exact_mod_cast ha
  have hdb : (0 : ℚ) < b.rd := by exact_mod_cast hb
  rw [Span.right, Span.right, div_lt_div_iff₀ hdb hda, mul_comm (a.rn : ℚ)]
  exact_mod_cast Iff.rfl

theorem rightLt_iff (ha : 0 < a.rd) (hb : 0 < b.rd) (h₁ : b.rn * a.rd - b.rd * a.rn < 2 ^ 32)
    (h₂ : b.rd * a.rn - b.rn * a.rd < 2 ^ 32) :
    (b.toInterval.rightLt a.toInterval ↔ b.right < a.right) ↔
      wraps (b.rn * a.rd) = wraps (b.rd * a.rn) := by
  rw [right_lt_iff ha hb, ← bmod_lt_iff h₁ h₂, ← toInt_mul_ofInt32, ← toInt_mul_ofInt32]
  rfl

theorem later_products {k : ℕ} (h : a.Unimodular) (hrn : b.rn = a.rn + k * a.ln)
    (hrd : b.rd = a.rd + k * a.ld) : b.rd * a.rn - b.rn * a.rd = k := by
  rw [hrn, hrd]
  linear_combination (k : ℤ) * h.det

theorem later_lt {k : ℕ} (h : a.Unimodular) (hrd : b.rd = a.rd + k * a.ld) (hb : b.Fits) :
    (k : ℤ) < 2 ^ 31 := by
  have hld := h.ld_pos
  have hpos := h.rd_pos
  have hfit := hb.rd.2
  have hk : (k : ℤ) ≤ k * a.ld := le_mul_of_one_le_right (Int.natCast_nonneg k) hld
  omega

/-- A split that is completed narrows the header unless the product lies on the edge of the range of
an `int`. -/
theorem narrowInt_myInt_iff (h : int.Unimodular) (hfit : int.myInt.Fits) :
    narrowInt int.toInterval int.myInt.toInterval = int.myInt.toInterval ↔
      (int.ld + int.rd) * int.rn % 2 ^ 32 ≠ 2 ^ 31 := by
  have hld : BitVec.ofInt 32 int.rd ≠ BitVec.ofInt 32 (int.ld + int.rd) := by
    have hpos := h.ld_pos
    have hrd := h.rd_pos
    have hmax : int.ld + int.rd < 2 ^ 31 := hfit.rd.2
    rw [Ne, ofInt32_inj (by omega) (by omega) (by omega) hmax]
    omega
  have htest : int.myInt.toInterval.rightLt int.toInterval ↔
      (int.ld + int.rd) * int.rn % 2 ^ 32 ≠ 2 ^ 31 := by
    have hprod : (int.ln + int.rn) * int.rd = (int.ld + int.rd) * int.rn - 1 := by
      linear_combination -h.det
    change (BitVec.ofInt 32 (int.ln + int.rn) * BitVec.ofInt 32 int.rd).toInt <
      (BitVec.ofInt 32 (int.ld + int.rd) * BitVec.ofInt 32 int.rn).toInt ↔ _
    rw [toInt_mul_ofInt32, toInt_mul_ofInt32, hprod]
    simp only [Int.bmod]
    omega
  rw [← htest]
  constructor
  · intro heq
    by_contra hnot
    rw [Interval.rightLt] at hnot
    rw [narrowInt, if_neg hnot] at heq
    exact hld (congrArg Interval.rd heq)
  · intro hlt
    rw [Interval.rightLt] at hlt
    rw [narrowInt, if_pos hlt]
    rfl

/-- For two headers of a node the test of the server is exact if and only if the two products go
round equally often, and a split narrows the header if and only if its product is not on the edge of
the range. -/
theorem interval_test_iff {ops ops' : List SplitOp}
    (hs : (emptyHeaders random).splits ops = some s) (hs' : s.splits ops' = some s') :
    (∀ a b, SameNode s s' a b → a.Fits → b.Fits →
      ((b.toInterval.rightLt a.toInterval ↔ b.right < a.right) ↔
        wraps (b.rn * a.rd) = wraps (b.rd * a.rn)) ∧
      ((a.toInterval.rightLt b.toInterval ↔ a.right < b.right) ↔
        wraps (a.rn * b.rd) = wraps (a.rd * b.rn))) ∧
    ∀ int ∈ s.nodes, int.myInt.Fits →
      (narrowInt int.toInterval int.myInt.toInterval = int.myInt.toInterval ↔
        (int.ld + int.rd) * int.rn % 2 ^ 32 ≠ 2 ^ 31) := by
  have hinv : s.Inv := (Headers.Inv.init random).splits hs
  refine ⟨?_, fun int hint hfit => narrowInt_myInt_iff (hinv.unimodular int hint) hfit⟩
  intro a b hab ha hb
  obtain ⟨hu, k, hrn, hrd⟩ := hab.later hinv hs'
  have hprod := later_products hu hrn hrd
  have hk := later_lt hu hrd hb
  have hk0 := Int.natCast_nonneg k
  have hard := hu.rd_pos
  have hbrd : 0 < b.rd := by
    have hmul : 0 ≤ (k : ℤ) * a.ld := mul_nonneg hk0 hu.ld_pos.le
    omega
  constructor
  · exact rightLt_iff hard hbrd (by omega) (by omega)
  · apply rightLt_iff hbrd hard
    · rw [mul_comm a.rn, mul_comm a.rd]
      omega
    · rw [mul_comm a.rn, mul_comm a.rd]
      omega

def rootSplit : Headers :=
  ⟨⟨0, 1, 1, 1, 1, 7⟩, [⟨0, 1, 1, 2, 0, 1⟩, ⟨1, 2, 1, 1, 0, 2⟩]⟩

theorem rootSplit_splits : (emptyHeaders 7).splits [.root 1 2] = some rootSplit := by rfl

theorem interval_test_second :
    (Span.mk 1 2 2 3 0 2).toInterval.rightLt (Span.mk 1 2 1 1 0 2).toInterval ↔
      (Span.mk 1 2 2 3 0 2).right < (Span.mk 1 2 1 1 0 2).right := by
  have hs : rootSplit.splits [.node (0, 1, 2) 3] = some ⟨⟨0, 1, 1, 1, 1, 7⟩,
      [⟨0, 1, 1, 2, 0, 1⟩, ⟨1, 2, 2, 3, 0, 2⟩, ⟨2, 3, 1, 1, 0, 3⟩]⟩ := by rfl
  have hsame : SameNode rootSplit ⟨⟨0, 1, 1, 1, 1, 7⟩,
      [⟨0, 1, 1, 2, 0, 1⟩, ⟨1, 2, 2, 3, 0, 2⟩, ⟨2, 3, 1, 1, 0, 3⟩]⟩ ⟨1, 2, 1, 1, 0, 2⟩
      ⟨1, 2, 2, 3, 0, 2⟩ := .inr ⟨by decide, by decide, by decide⟩
  have hfits : (Span.mk 1 2 1 1 0 2).Fits ∧ (Span.mk 1 2 2 3 0 2).Fits := by
    constructor
    · exact ⟨by decide, by decide, by decide, by decide⟩
    · exact ⟨by decide, by decide, by decide, by decide⟩
  exact ((interval_test_iff rootSplit_splits hs).1 _ _ hsame hfits.1 hfits.2).1.2 (by decide)

end Test

section Edge

variable {s : Headers} {int : Span}

/-- The node that is reached when of each split the sibling is taken, or the node itself. -/
def Span.descend (int : Span) (siblings : List Bool) : Span :=
  siblings.foldl (fun int sibling => if sibling then int.mySiblingInt 0 else int.myInt) int

theorem Headers.Inv.descend (h : s.Inv) (hint : int ∈ s.nodes) (siblings : List Bool) :
    ∃ ops s', s.splits ops = some s' ∧ int.descend siblings ∈ s'.nodes := by
  induction siblings generalizing s int with
  | nil => exact ⟨[], s, rfl, hint⟩
  | cons sibling siblings ih =>
    obtain ⟨l₁, l₂, hnodes⟩ := List.append_of_mem hint
    have hsplit := h.performSplit_eq hnodes 0
    have hmem : (if sibling then int.mySiblingInt 0 else int.myInt) ∈
        l₁ ++ int.myInt :: (l₂ ++ [int.mySiblingInt 0]) := by
      cases sibling with
      | true => simp
      | false => simp
    obtain ⟨ops, s', hops, hs'⟩ := ih (h.performSplit hsplit) hmem
    refine ⟨.node int.name 0 :: ops, s', ?_, hs'⟩
    rw [Headers.splits, List.foldlM_cons]
    exact Option.bind_eq_some_iff.2 ⟨_, hsplit, hops⟩

/-- A node with the right end 131072/180015, whose next right end is 202801/278528. -/
def edgeInt : Span := ⟨71729, 98513, 131072, 180015, 0, 0⟩

/-- Which of the two nodes is taken at each of the splits that lead to it. -/
def edgePath : List Bool :=
  [true, false, true, true, false, false, false, false, false, false, false, false, false, true,
    true, false, false, true, false, false, false, true, false, false, false, true, false, false,
    false, false, true, false]

theorem descend_edgePath : (Span.mk 1 2 1 1 0 2).descend edgePath = edgeInt := by rfl

theorem edgeInt_not_rightLt : ¬ edgeInt.myInt.toInterval.rightLt edgeInt.toInterval := by
  rw [Interval.rightLt]
  decide

theorem edgeInt_right_lt : edgeInt.myInt.right < edgeInt.right := by
  norm_num [edgeInt, Span.right, Span.myInt]

theorem edgeInt_reached : ∃ ops ops' s s', (emptyHeaders 7).splits ops = some s ∧
    s.splits ops' = some s' ∧ SameNode s s' edgeInt edgeInt.myInt := by
  have hroot : rootSplit.Inv := (Headers.Inv.init 7).splits rootSplit_splits
  have hmem : Span.mk 1 2 1 1 0 2 ∈ rootSplit.nodes := by decide
  obtain ⟨ops, s, hops, hint⟩ := hroot.descend hmem edgePath
  rw [descend_edgePath] at hint
  obtain ⟨ops', s', hops', hmine⟩ := (hroot.splits hops).descend hint [false]
  refine ⟨.root 1 2 :: ops, ops', s, s', ?_, hops', .inr ⟨hint, hmine, rfl⟩⟩
  rw [Headers.splits, List.foldlM_cons]
  exact Option.bind_eq_some_iff.2 ⟨rootSplit, rfl, hops⟩

/-- At this node the test fails although the new right end lies to the left. -/
theorem interval_test_fails : ¬ ∀ random ops ops' s s',
    (emptyHeaders random).splits ops = some s → s.splits ops' = some s' →
    ∀ a b, SameNode s s' a b → a.Fits → b.Fits →
      (b.toInterval.rightLt a.toInterval ↔ b.right < a.right) := by
  intro h
  obtain ⟨ops, ops', s, s', hs, hs', hsame⟩ := edgeInt_reached
  have hfits : edgeInt.Fits := ⟨by decide, by decide, by decide, by decide⟩
  have hfits' : edgeInt.myInt.Fits := ⟨by decide, by decide, by decide, by decide⟩
  have htest := h 7 ops ops' s s' hs hs' edgeInt edgeInt.myInt hsame hfits hfits'
  exact edgeInt_not_rightLt (htest.2 edgeInt_right_lt)

end Edge

end XGossip
