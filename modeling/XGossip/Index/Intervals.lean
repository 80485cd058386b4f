import Mathlib.Algebra.Order.Field.Rat
import Mathlib.Tactic.FieldSimp
import Mathlib.Tactic.Linarith
import Mathlib.Tactic.Ring
import XGossip.Index.Client
import XGossip.Lib.Tiling

namespace XGossip
set_option autoImplicit true

open Tiling

/-- An `Interval` whose integers do not overflow. -/
structure Span where
  ln : ℤ
  ld : ℤ
  rn : ℤ
  rd : ℤ
  level : ℤ
  random : ℤ
deriving DecidableEq

/-- `Interval::operator==` -/
def Span.eqv (a b : Span) : Bool :=
  a.ln = b.ln ∧ a.ld = b.ld ∧ a.rn = b.rn ∧ a.rd = b.rd ∧ a.level = b.level

section Server

def Span.narrow (currInt newInt : Span) : Span :=
  if newInt.rn * currInt.rd < newInt.rd * currInt.rn then
    { currInt with rn := newInt.rn, rd := newInt.rd }
  else currInt

def Span.raise (currInt newInt : Span) : Span :=
  let random :=
    if currInt.level = 0 ∧ newInt.level = 1 ∧ currInt.random = -1 then newInt.random
    else currInt.random
  let level := if currInt.level < newInt.level then newInt.level else currInt.level
  let random := if newInt.level = level ∧ level = 0 ∧ newInt.random = -1 then newInt.random
    else random
  { currInt with level, random }

/-- `UPDATEHDR`; a header with another left end is corrupt. -/
def Span.update (isROOT : Bool) (currInt newInt : Span) : Option Span :=
  if newInt.ld = currInt.ld ∧ newInt.ln = currInt.ln then
    let currInt := currInt.narrow newInt
    some (if isROOT then currInt.raise newInt else currInt)
  else none

end Server

section Client

/-- The interval of the new sibling, which begins at the mediant. -/
def Span.mySiblingInt (nodeInt : Span) (random : ℤ) : Span :=
  ⟨nodeInt.ln + nodeInt.rn, nodeInt.ld + nodeInt.rd, nodeInt.rn, nodeInt.rd, nodeInt.level, random⟩

def Span.myInt (nodeInt : Span) : Span :=
  { nodeInt with rn := nodeInt.ln + nodeInt.rn, rd := nodeInt.ld + nodeInt.rd }

def Span.firstNodeInt (nodeInt : Span) (random : ℤ) : Span := ⟨0, 1, 1, 2, nodeInt.level, random⟩

def Span.secondNodeInt (nodeInt : Span) (random : ℤ) : Span := ⟨1, 2, 1, 1, nodeInt.level, random⟩

def Span.rootInt (nodeInt : Span) : Span := { nodeInt with level := nodeInt.level + 1 }

/-- What the name of a node other than the root is printed from. -/
def Span.name (int : Span) : ℤ × ℤ × ℤ := (int.level, int.ln, int.ld)

end Client

section Overflow

def Span.toInterval (int : Span) : Interval :=
  ⟨.ofInt 32 int.ln, .ofInt 32 int.ld, .ofInt 32 int.rn, .ofInt 32 int.rd, .ofInt 32 int.level,
    .ofInt 32 int.random⟩

variable {j : SplitJob} {int : Span}

theorem mySiblingInt_toInterval (h : j.node.int = int.toInterval) (random : ℤ) :
    j.mySiblingInt (.ofInt 32 random) = (int.mySiblingInt random).toInterval := by
  simp [SplitJob.mySiblingInt, h, Span.toInterval, Span.mySiblingInt, BitVec.ofInt_add]

theorem myInt_toInterval (h : j.node.int = int.toInterval) : j.myInt = int.myInt.toInterval := by
  simp [SplitJob.myInt, SplitJob.mySiblingInt, h, Span.toInterval, Span.myInt, BitVec.ofInt_add]

theorem rootInt_toInterval (h : j.node.int = int.toInterval) :
    j.rootInt = int.rootInt.toInterval := by
  simp [SplitJob.rootInt, h, Span.toInterval, Span.rootInt, BitVec.ofInt_add]

/-- The headers whose products are `int`s. -/
structure Span.Small (int : Span) : Prop where
  ln : 0 ≤ int.ln ∧ int.ln < 2 ^ 15
  ld : 0 ≤ int.ld ∧ int.ld < 2 ^ 15
  rn : 0 ≤ int.rn ∧ int.rn < 2 ^ 15
  rd : 0 ≤ int.rd ∧ int.rd < 2 ^ 15
  level : 0 ≤ int.level ∧ int.level < 2 ^ 15
  random : -2 ^ 31 ≤ int.random ∧ int.random < 2 ^ 31

theorem toInt_ofInt32 {x : ℤ} (h₁ : -2 ^ 31 ≤ x) (h₂ : x < 2 ^ 31) :
    (BitVec.ofInt 32 x).toInt = x := by
  rw [BitVec.toInt_ofInt, Int.bmod_eq_of_le (by omega) (by omega)]

theorem ofInt32_inj {x y : ℤ} (hx₁ : -2 ^ 31 ≤ x) (hx₂ : x < 2 ^ 31) (hy₁ : -2 ^ 31 ≤ y)
    (hy₂ : y < 2 ^ 31) : BitVec.ofInt 32 x = BitVec.ofInt 32 y ↔ x = y := by
  rw [← BitVec.toInt_inj, toInt_ofInt32 hx₁ hx₂, toInt_ofInt32 hy₁ hy₂]

theorem toInt_mul_small {x y : ℤ} (hx : 0 ≤ x ∧ x < 2 ^ 15) (hy : 0 ≤ y ∧ y < 2 ^ 15) :
    (BitVec.ofInt 32 x * BitVec.ofInt 32 y).toInt = x * y := by
  have h₀ : 0 ≤ x * y := mul_nonneg hx.1 hy.1
  have h₁ : x * y ≤ 2 ^ 15 * 2 ^ 15 := mul_le_mul hx.2.le hy.2.le hy.1 (by norm_num)
  rw [← BitVec.ofInt_mul, toInt_ofInt32 (by omega) (by omega)]

theorem narrow_toInterval {curr new : Span} (hc : curr.Small) (hn : new.Small) :
    narrowInt curr.toInterval new.toInterval = (curr.narrow new).toInterval := by
  have h₁ := toInt_mul_small hn.rn hc.rd
  have h₂ := toInt_mul_small hn.rd hc.rn
  simp only [narrowInt, Span.narrow, Span.toInterval, h₁, h₂]
  split
  · rfl
  · rfl

theorem raise_toInterval {curr new : Span} (hc : curr.Small) (hn : new.Small) :
    raiseInt curr.toInterval new.toInterval = (curr.raise new).toInterval := by
  obtain ⟨-, -, -, -, hcl, hcr⟩ := hc
  obtain ⟨-, -, -, -, hnl, hnr⟩ := hn
  have hzero : ∀ {x : ℤ}, 0 ≤ x ∧ x < 2 ^ 15 → (BitVec.ofInt 32 x = 0 ↔ x = 0) := fun hx =>
    ofInt32_inj (y := 0) (by omega) (by omega) (by norm_num) (by norm_num)
  have hone : BitVec.ofInt 32 new.level = 1 ↔ new.level = 1 :=
    ofInt32_inj (y := 1) (by omega) (by omega) (by norm_num) (by norm_num)
  have hminus : ∀ {x : ℤ}, -2 ^ 31 ≤ x ∧ x < 2 ^ 31 → (BitVec.ofInt 32 x = -1 ↔ x = -1) := by
    intro x hx
    rw [show (-1 : BitVec 32) = BitVec.ofInt 32 (-1) by decide]
    exact ofInt32_inj hx.1 hx.2 (by norm_num) (by norm_num)
  have hlt : (BitVec.ofInt 32 curr.level).toInt < (BitVec.ofInt 32 new.level).toInt ↔
      curr.level < new.level := by
    rw [toInt_ofInt32 (by omega) (by omega), toInt_ofInt32 (by omega) (by omega)]
  have heq : BitVec.ofInt 32 new.level = BitVec.ofInt 32 curr.level ↔ new.level = curr.level :=
    ofInt32_inj (by omega) (by omega) (by omega) (by omega)
  simp only [raiseInt, Span.raise, Span.toInterval, hlt, hzero hcl, hone, hminus hcr, hminus hnr]
  by_cases h : curr.level < new.level
  · simp only [if_pos h, hzero hnl, apply_ite (BitVec.ofInt 32)]
  · simp only [if_neg h, heq, hzero hcl, apply_ite (BitVec.ofInt 32)]

theorem updateInt_toInterval {curr new : Span} (hc : curr.Small) (hn : new.Small)
    (h : curr.update isROOT new = some int) :
    updateInt isROOT curr.toInterval new.toInterval = int.toInterval := by
  rw [Span.update] at h
  split at h
  · obtain rfl := Option.some.inj h
    have hnarrow : (curr.narrow new).Small := by
      rw [Span.narrow]
      split
      · exact ⟨hc.ln, hc.ld, hn.rn, hn.rd, hc.level, hc.random⟩
      · exact hc
    rw [updateInt, narrow_toInterval hc hn]
    cases isROOT with
    | true => exact raise_toInterval hnarrow hn
    | false => rfl
  · cases h

end Overflow

section Headers

/-- The headers of an index: the one of the root, and those of the other nodes in the order in which
they have been created. -/
structure Headers where
  root : Span
  nodes : List Span

/-- `UPDATEHDRLOCK` creates a node, and goes through only where there is none of the same name. -/
def Headers.lock (s : Headers) (int : Span) : Option Headers :=
  if int.name ∈ s.nodes.map Span.name then none else some { s with nodes := s.nodes ++ [int] }

def Headers.read (s : Headers) (name : ℤ × ℤ × ℤ) : Option Span :=
  s.nodes.find? fun int => int.name = name

def Headers.updateNode (s : Headers) (name : ℤ × ℤ × ℤ) (newInt : Span) : Option Headers := do
  let currInt ← (← s.read name).update false newInt
  return { s with nodes := s.nodes.map fun int => if int.name = name then currInt else int }

def Headers.updateRoot (s : Headers) (newInt : Span) : Option Headers := do
  return { s with root := ← s.root.update true newInt }

/-- What `performSplit` does to the headers if it runs to its end, which it does not where the
sibling is there already or where the header has not actually changed. -/
def Headers.performSplit (s : Headers) (name : ℤ × ℤ × ℤ) (random : ℤ) : Option Headers := do
  let nodeInt ← s.read name
  let s ← s.lock (nodeInt.mySiblingInt random)
  let s ← s.updateNode name nodeInt.myInt
  let mynodeInt ← s.read name
  if mynodeInt.eqv nodeInt.myInt then some s else none

/-- The messages for the header of a root that is split, which at level 0 is closed for documents
before. -/
def Headers.raiseRoot (s : Headers) (nodeInt : Span) : Option Headers := do
  let s ← if nodeInt.level = 0 then s.updateRoot { nodeInt with random := -1 } else some s
  s.updateRoot nodeInt.rootInt

def Headers.performSplitRoot (s : Headers) (random1 random2 : ℤ) : Option Headers := do
  let nodeInt := s.root
  let s ← s.lock (nodeInt.firstNodeInt random1)
  let s ← s.lock (nodeInt.secondNodeInt random2)
  let s ← s.raiseRoot nodeInt
  if s.root.eqv nodeInt.rootInt then some s else none

inductive SplitOp where
  | node (name : ℤ × ℤ × ℤ) (random : ℤ)
  | root (random1 random2 : ℤ)

def Headers.split (s : Headers) : SplitOp → Option Headers
  | .node name random => s.performSplit name random
  | .root random1 random2 => s.performSplitRoot random1 random2

def Headers.splits (s : Headers) (ops : List SplitOp) : Option Headers := ops.foldlM split s

def emptyHeaders (random : ℤ) : Headers := ⟨⟨0, 1, 1, 1, 0, random⟩, []⟩

end Headers

section Mediant

/-- The headers whose ends are neighbours: positive denominators and determinant 1. -/
structure Span.Unimodular (int : Span) : Prop where
  ld_pos : 0 < int.ld
  rd_pos : 0 < int.rd
  det : int.rn * int.ld - int.ln * int.rd = 1

def Span.left (int : Span) : ℚ := int.ln / int.ld

def Span.right (int : Span) : ℚ := int.rn / int.rd

def Span.ends (int : Span) : ℚ × ℚ := (int.left, int.right)

variable {int : Span}

theorem Span.Unimodular.sibling (h : int.Unimodular) (random : ℤ) :
    (int.mySiblingInt random).Unimodular := by
  obtain ⟨h₁, h₂, h₃⟩ := h
  refine ⟨?_, h₂, ?_⟩
  · simp only [mySiblingInt]
    omega
  · simp only [mySiblingInt]
    linear_combination h₃

theorem Span.Unimodular.mine (h : int.Unimodular) : int.myInt.Unimodular := by
  obtain ⟨h₁, h₂, h₃⟩ := h
  refine ⟨h₁, ?_, ?_⟩
  · simp only [myInt]
    omega
  · simp only [myInt]
    linear_combination h₃

theorem Span.Unimodular.left_lt_mediant (h : int.Unimodular) (random : ℤ) :
    int.left < (int.mySiblingInt random).left := by
  obtain ⟨h₁, h₂, h₃⟩ := h
  have hd₁ : (0 : ℚ) < int.ld := by exact_mod_cast h₁
  have hd₂ : (0 : ℚ) < int.rd := by exact_mod_cast h₂
  have hdet : (int.rn * int.ld - int.ln * int.rd : ℚ) = 1 := by exact_mod_cast h₃
  simp only [left, mySiblingInt, Int.cast_add]
  rw [div_lt_div_iff₀ hd₁ (by linarith)]
  linarith

theorem Span.Unimodular.mediant_lt_right (h : int.Unimodular) (random : ℤ) :
    (int.mySiblingInt random).left < int.right := by
  obtain ⟨h₁, h₂, h₃⟩ := h
  have hd₁ : (0 : ℚ) < int.ld := by exact_mod_cast h₁
  have hd₂ : (0 : ℚ) < int.rd := by exact_mod_cast h₂
  have hdet : (int.rn * int.ld - int.ln * int.rd : ℚ) = 1 := by exact_mod_cast h₃
  simp only [left, right, mySiblingInt, Int.cast_add]
  rw [div_lt_div_iff₀ (by linarith) hd₂]
  linarith

theorem Span.Unimodular.update_myInt (h : int.Unimodular) :
    int.update false int.myInt = some int.myInt := by
  obtain ⟨-, -, h₃⟩ := h
  have hlt : int.myInt.rn * int.rd < int.myInt.rd * int.rn := by
    simp only [myInt]
    linarith
  rw [update, if_pos ⟨rfl, rfl⟩, narrow, if_pos hlt]
  rfl

end Mediant

section Partition

/-- The nodes of a level are in order the parts of the unit interval. -/
def Headers.Tiled (s : Headers) (level : ℤ) : Prop :=
  ∃ l : List Span, l.Perm (s.nodes.filter fun int => int.level = level) ∧ Tiles 0 (l.map Span.ends) 1

structure Headers.Inv (s : Headers) : Prop where
  root : s.root.ln = 0 ∧ s.root.ld = 1 ∧ s.root.rn = 1 ∧ s.root.rd = 1
  root_level : 0 ≤ s.root.level
  level : ∀ int ∈ s.nodes, 0 ≤ int.level ∧ int.level < s.root.level
  unimodular : ∀ int ∈ s.nodes, int.Unimodular
  tiled : ∀ level, 0 ≤ level → level < s.root.level → s.Tiled level
  names : (s.nodes.map Span.name).Nodup

variable {s : Headers} {int : Span}

theorem Headers.Inv.init (random : ℤ) : (emptyHeaders random).Inv := by
  refine ⟨⟨rfl, rfl, rfl, rfl⟩, le_refl _, by simp [emptyHeaders], by simp [emptyHeaders], ?_,
    .nil⟩
  intro level h₀ h₁
  exact absurd h₁ (not_lt_of_ge h₀)

theorem Headers.Inv.sibling_new (h : s.Inv) (hint : int ∈ s.nodes) (random : ℤ) :
    (int.mySiblingInt random).name ∉ s.nodes.map Span.name := by
  intro hmem
  obtain ⟨other, hother, hname⟩ := List.mem_map.1 hmem
  simp only [Span.name, Prod.mk.injEq] at hname
  obtain ⟨hlevel, hln, hld⟩ := hname
  have hleft : other.left = (int.mySiblingInt random).left := by rw [Span.left, Span.left, hln, hld]
  obtain ⟨l, hperm, htiles⟩ := h.tiled int.level (h.level int hint).1 (h.level int hint).2
  have hmem₁ : int.ends ∈ l.map Span.ends :=
    List.mem_map_of_mem (hperm.mem_iff.2 (List.mem_filter.2 ⟨hint, by simp⟩))
  have hmem₂ : other.ends ∈ l.map Span.ends :=
    List.mem_map_of_mem (hperm.mem_iff.2 (List.mem_filter.2 ⟨hother, decide_eq_true hlevel⟩))
  have hu := h.unimodular int hint
  refine htiles.not_inside hmem₁ hmem₂ ⟨?_, ?_⟩
  · simpa only [Span.ends, hleft] using hu.left_lt_mediant random
  · simpa only [Span.ends, hleft] using hu.mediant_lt_right random

theorem Headers.Inv.children_new (h : s.Inv) (hlevel : int.level = s.root.level) :
    int.name ∉ s.nodes.map Span.name := by
  intro hmem
  obtain ⟨other, hother, hname⟩ := List.mem_map.1 hmem
  have heq : other.level = int.level := congrArg Prod.fst hname
  have := (h.level other hother).2
  omega

theorem read_middle (root : Span) (h : ∀ x ∈ l₁, x.name ≠ int.name) (l₂ : List Span) :
    (Headers.mk root (l₁ ++ int :: l₂)).read int.name = some int := by
  have hnone : l₁.find? (fun x => x.name = int.name) = none := by
    rw [List.find?_eq_none]
    simpa using h
  simp [Headers.read, List.find?_append, hnone]

theorem map_of_ne {l : List Span} (h : ∀ x ∈ l, x.name ≠ name) (int : Span) :
    l.map (fun x => if x.name = name then int else x) = l := by
  conv_rhs => rw [← List.map_id l]
  apply List.map_congr_left
  intro x hx
  exact if_neg (h x hx)

theorem Headers.Inv.names_ne (h : s.Inv) (hnodes : s.nodes = l₁ ++ int :: l₂) :
    (∀ x ∈ l₁, x.name ≠ int.name) ∧ ∀ x ∈ l₂, x.name ≠ int.name := by
  have hnames := h.names
  rw [hnodes, List.map_append, List.map_cons] at hnames
  constructor
  · intro x hx hname
    exact List.disjoint_of_nodup_append hnames (List.mem_map_of_mem hx) (by simp [hname])
  · intro x hx hname
    have hcons := (List.nodup_append.1 hnames).2.1
    exact (List.nodup_cons.1 hcons).1 (hname ▸ List.mem_map_of_mem hx)

/-- The headers after a split of a node. -/
theorem Headers.Inv.performSplit_eq (h : s.Inv) (hnodes : s.nodes = l₁ ++ int :: l₂) (random : ℤ) :
    s.performSplit int.name random =
      some { s with nodes := l₁ ++ int.myInt :: (l₂ ++ [int.mySiblingInt random]) } := by
  have hint : int ∈ s.nodes := by simp [hnodes]
  have hnew := h.sibling_new hint random
  have hne : (int.mySiblingInt random).name ≠ int.name := by
    intro heq
    exact hnew (heq ▸ List.mem_map_of_mem hint)
  obtain ⟨h₁, h₂⟩ := h.names_ne hnodes
  have hlock : s.lock (int.mySiblingInt random) =
      some ⟨s.root, l₁ ++ int :: (l₂ ++ [int.mySiblingInt random])⟩ := by
    rw [lock, if_neg hnew, hnodes]
    simp
  have hupdate : (Headers.mk s.root (l₁ ++ int :: (l₂ ++ [int.mySiblingInt random]))).updateNode
      int.name int.myInt =
        some ⟨s.root, l₁ ++ int.myInt :: (l₂ ++ [int.mySiblingInt random])⟩ := by
    simp only [updateNode, read_middle s.root h₁, Option.bind_eq_bind, Option.bind_some,
      (h.unimodular int hint).update_myInt, List.map_append, List.map_cons, map_of_ne h₁,
      map_of_ne h₂, if_true, List.map_nil, if_neg hne]
    rfl
  have hread : s.read int.name = some int := by
    rw [← read_middle s.root h₁ l₂, ← hnodes]
  have hread' : (Headers.mk s.root (l₁ ++ int.myInt :: (l₂ ++ [int.mySiblingInt random]))).read
      int.name = some int.myInt := by
    have hmine : ∀ x ∈ l₁, x.name ≠ int.myInt.name := h₁
    exact read_middle s.root hmine _
  rw [performSplit, hread]
  simp only [Option.bind_eq_bind, Option.bind_some, hlock, hupdate, hread']
  simp [Span.eqv]

theorem perm_two_middle {a b f g : List α} (h : (a ++ b).Perm (f ++ g)) :
    (a ++ x :: y :: b).Perm (f ++ x :: (g ++ [y])) := by
  have hleft : (a ++ x :: y :: b).Perm (x :: y :: (a ++ b)) :=
    List.perm_middle.trans (List.perm_middle.cons x)
  have hright : (f ++ x :: (g ++ [y])).Perm (x :: y :: (f ++ g)) := by
    refine List.perm_middle.trans (List.Perm.cons x ?_)
    rw [← List.append_assoc]
    exact List.perm_append_singleton y (f ++ g)
  exact hleft.trans (((h.cons y).cons x).trans hright.symm)

/-- A split of a node cuts its interval into two. -/
theorem Headers.Inv.split_tiled (h : s.Inv) (hnodes : s.nodes = l₁ ++ int :: l₂) (random : ℤ) :
    (Headers.mk s.root (l₁ ++ int.myInt :: (l₂ ++ [int.mySiblingInt random]))).Tiled int.level := by
  have hint : int ∈ s.nodes := by simp [hnodes]
  have hu := h.unimodular int hint
  obtain ⟨l, hperm, htiles⟩ := h.tiled int.level (h.level int hint).1 (h.level int hint).2
  have hmem : int ∈ l := hperm.mem_iff.2 (List.mem_filter.2 ⟨hint, by simp⟩)
  obtain ⟨a, b, rfl⟩ := List.append_of_mem hmem
  refine ⟨a ++ int.myInt :: int.mySiblingInt random :: b, ?_, ?_⟩
  · have hrest : (a ++ b).Perm (l₁.filter (fun x => x.level = int.level) ++
        l₂.filter fun x => x.level = int.level) := by
      have hold : s.nodes.filter (fun x => x.level = int.level) =
          l₁.filter (fun x => x.level = int.level) ++
            int :: l₂.filter fun x => x.level = int.level := by
        simp [hnodes]
      rw [hold] at hperm
      exact (List.perm_cons int).1
        ((List.perm_middle.symm.trans hperm).trans List.perm_middle)
    have hnew : (l₁ ++ int.myInt :: (l₂ ++ [int.mySiblingInt random])).filter
        (fun x => x.level = int.level) = l₁.filter (fun x => x.level = int.level) ++
          int.myInt :: (l₂.filter (fun x => x.level = int.level) ++ [int.mySiblingInt random]) := by
      simp [Span.myInt, Span.mySiblingInt]
    rw [hnew]
    exact perm_two_middle hrest
  · rw [List.map_append, List.map_cons] at htiles
    rw [List.map_append, List.map_cons, List.map_cons]
    exact htiles.split (hu.left_lt_mediant random) (hu.mediant_lt_right random)

theorem Headers.Inv.performSplit (h : s.Inv) (hs : s.performSplit name random = some s') :
    s'.Inv := by
  obtain ⟨int, hread, -⟩ := Option.bind_eq_some_iff.1 hs
  obtain ⟨hname, hint⟩ : int.name = name ∧ int ∈ s.nodes :=
    ⟨by simpa using List.find?_some hread, List.mem_of_find?_eq_some hread⟩
  subst hname
  obtain ⟨l₁, l₂, hnodes⟩ := List.append_of_mem hint
  rw [h.performSplit_eq hnodes, Option.some_inj] at hs
  subst hs
  have hmem : ∀ x ∈ l₁ ++ int.myInt :: (l₂ ++ [int.mySiblingInt random]),
      x ∈ s.nodes ∨ x = int.myInt ∨ x = int.mySiblingInt random := by
    intro x hx
    simp only [List.mem_append, List.mem_cons, List.not_mem_nil, or_false] at hx
    simp only [hnodes, List.mem_append, List.mem_cons]
    tauto
  have hu := h.unimodular int hint
  refine ⟨h.root, h.root_level, ?_, ?_, ?_, ?_⟩
  · intro x hx
    rcases hmem x hx with hx | rfl | rfl
    · exact h.level x hx
    · exact h.level int hint
    · exact h.level int hint
  · intro x hx
    rcases hmem x hx with hx | rfl | rfl
    · exact h.unimodular x hx
    · exact hu.mine
    · exact hu.sibling random
  · intro level h₀ h₁
    by_cases hlevel : int.level = level
    · subst hlevel
      exact h.split_tiled hnodes random
    · obtain ⟨l, hperm, htiles⟩ := h.tiled level h₀ h₁
      refine ⟨l, ?_, htiles⟩
      simpa [hnodes, List.filter_cons, Span.myInt, Span.mySiblingInt, hlevel] using hperm
  · have hnew := h.sibling_new hint random
    have hnames := h.names
    have heq : (l₁ ++ int.myInt :: (l₂ ++ [int.mySiblingInt random])).map Span.name =
        s.nodes.map Span.name ++ [(int.mySiblingInt random).name] := by
      simp [hnodes, show int.myInt.name = int.name from rfl]
    simp only [heq]
    exact hnames.append (by simp) (by simpa using hnew)

theorem updateRoot_eq (root : Span) (nodes : List Span) (random : ℤ)
    (hlevel : root.level ≤ level) : ∃ r,
    (Headers.mk root nodes).updateRoot ⟨root.ln, root.ld, root.rn, root.rd, level, random⟩ =
      some ⟨⟨root.ln, root.ld, root.rn, root.rd, level, r⟩, nodes⟩ := by
  have hnarrow : ¬ root.rn * root.rd < root.rd * root.rn := by
    rw [mul_comm]
    exact lt_irrefl _
  have hmax : (if root.level < level then level else root.level) = level := by
    split
    · rfl
    · omega
  simp only [Headers.updateRoot, Span.update, Span.narrow, Span.raise, and_self, if_true, if_neg hnarrow,
    hmax]
  exact ⟨_, rfl⟩

theorem raiseRoot_eq (root : Span) (nodes : List Span) :
    ∃ r, (Headers.mk root nodes).raiseRoot root = some ⟨{ root.rootInt with random := r }, nodes⟩ := by
  by_cases hlevel : root.level = 0
  · obtain ⟨r₁, h₁⟩ := updateRoot_eq root nodes (-1) (le_refl _)
    obtain ⟨r₂, h₂⟩ := updateRoot_eq ⟨root.ln, root.ld, root.rn, root.rd, root.level, r₁⟩ nodes
      root.random (le_of_lt (lt_add_one root.level))
    refine ⟨r₂, ?_⟩
    rw [Headers.raiseRoot, if_pos hlevel, h₁]
    exact h₂
  · obtain ⟨r, h⟩ := updateRoot_eq root nodes root.random (le_of_lt (lt_add_one root.level))
    refine ⟨r, ?_⟩
    rw [Headers.raiseRoot, if_neg hlevel]
    exact h

theorem Headers.Inv.performSplitRoot_eq (h : s.Inv) (random1 random2 : ℤ) :
    ∃ r, s.performSplitRoot random1 random2 = some ⟨{ s.root.rootInt with random := r },
      s.nodes ++ [s.root.firstNodeInt random1, s.root.secondNodeInt random2]⟩ := by
  have hfirst : (s.root.firstNodeInt random1).name ∉ s.nodes.map Span.name := h.children_new rfl
  have hsecond : (s.root.secondNodeInt random2).name ∉ s.nodes.map Span.name := h.children_new rfl
  have hne : (s.root.secondNodeInt random2).name ≠ (s.root.firstNodeInt random1).name := by
    simp [Span.name, Span.secondNodeInt, Span.firstNodeInt]
  have hlock : (s.root.secondNodeInt random2).name ∉
      (s.nodes ++ [s.root.firstNodeInt random1]).map Span.name := by
    rw [List.map_append, List.mem_append]
    exact not_or.2 ⟨hsecond, by simpa using hne⟩
  obtain ⟨r, hraise⟩ := raiseRoot_eq s.root
    (s.nodes ++ [s.root.firstNodeInt random1] ++ [s.root.secondNodeInt random2])
  refine ⟨r, ?_⟩
  simp only [performSplitRoot, lock, if_neg hfirst, if_neg hlock, Option.bind_eq_bind,
    Option.bind_some, hraise]
  simp [Span.eqv]

theorem firstNodeInt_unimodular (nodeInt : Span) (random : ℤ) :
    (nodeInt.firstNodeInt random).Unimodular := by
  constructor <;> simp [Span.firstNodeInt]

theorem secondNodeInt_unimodular (nodeInt : Span) (random : ℤ) :
    (nodeInt.secondNodeInt random).Unimodular := by
  constructor <;> simp [Span.secondNodeInt]

theorem Headers.Inv.none_at_root (h : s.Inv) :
    s.nodes.filter (fun int => int.level = s.root.level) = [] := by
  rw [List.filter_eq_nil_iff]
  intro int hint
  have := (h.level int hint).2
  simp only [decide_eq_true_eq]
  omega

theorem Headers.Inv.halves_tiled (h : s.Inv) (root : Span) (random1 random2 : ℤ) :
    (Headers.mk root (s.nodes ++ [s.root.firstNodeInt random1,
      s.root.secondNodeInt random2])).Tiled s.root.level := by
  refine ⟨[s.root.firstNodeInt random1, s.root.secondNodeInt random2], ?_, ?_⟩
  · simp [h.none_at_root, Span.firstNodeInt, Span.secondNodeInt]
  · norm_num [Tiles, Span.ends, Span.left, Span.right, Span.firstNodeInt, Span.secondNodeInt]

theorem Headers.Inv.performSplitRoot (h : s.Inv)
    (hs : s.performSplitRoot random1 random2 = some s') : s'.Inv := by
  obtain ⟨r, heq⟩ := h.performSplitRoot_eq random1 random2
  obtain rfl := Option.some.inj (heq.symm.trans hs)
  have hroot := h.root_level
  have hmem : ∀ int ∈ s.nodes ++ [s.root.firstNodeInt random1, s.root.secondNodeInt random2],
      int ∈ s.nodes ∨ int = s.root.firstNodeInt random1 ∨ int = s.root.secondNodeInt random2 := by
    simp
  refine ⟨h.root, ?_, ?_, ?_, ?_, ?_⟩
  · simp only [Span.rootInt]
    omega
  · intro int hint
    have hlevel : 0 ≤ int.level ∧ int.level ≤ s.root.level := by
      rcases hmem int hint with hint | rfl | rfl
      · have := h.level int hint
        omega
      · exact ⟨hroot, le_refl _⟩
      · exact ⟨hroot, le_refl _⟩
    simp only [Span.rootInt]
    omega
  · intro int hint
    rcases hmem int hint with hint | rfl | rfl
    · exact h.unimodular int hint
    · exact firstNodeInt_unimodular ..
    · exact secondNodeInt_unimodular ..
  · intro level h₀ h₁
    by_cases hl : s.root.level = level
    · subst hl
      exact h.halves_tiled ..
    · simp only [Span.rootInt] at h₁
      obtain ⟨l, hperm, htiles⟩ := h.tiled level h₀ (by omega)
      refine ⟨l, ?_, htiles⟩
      simpa [Span.firstNodeInt, Span.secondNodeInt, hl] using hperm
  · have hfirst : (s.root.firstNodeInt random1).name ∉ s.nodes.map Span.name := h.children_new rfl
    have hsecond : (s.root.secondNodeInt random2).name ∉ s.nodes.map Span.name :=
      h.children_new rfl
    rw [List.map_append]
    refine h.names.append (by simp [Span.name, Span.firstNodeInt, Span.secondNodeInt]) ?_
    intro name hname hnew
    rcases List.mem_pair.1 hnew with rfl | rfl
    · exact hfirst hname
    · exact hsecond hname

theorem Headers.Inv.split (h : s.Inv) (hs : s.split op = some s') : s'.Inv := by
  cases op with
  | node name random => exact h.performSplit hs
  | root random1 random2 => exact h.performSplitRoot hs

theorem Headers.Inv.splits {ops : List SplitOp} (h : s.Inv) (hs : s.splits ops = some s') :
    s'.Inv := by
  induction ops generalizing s with
  | nil =>
    obtain rfl := Option.some.inj hs
    exact h
  | cons op ops ih =>
    obtain ⟨s₁, h₁, hs⟩ := Option.bind_eq_some_iff.1 hs
    exact ih (h.split h₁) hs

/-- Intervals that, in the order of their left ends, cover the unit interval without gaps and have
disjoint interiors. -/
structure UnitPartition (l : List Span) : Prop where
  inside : ∀ int ∈ l, 0 ≤ int.left ∧ int.left < int.right ∧ int.right ≤ 1
  ordered : l.Pairwise fun int int' => int.right ≤ int'.left
  covers : ∀ x : ℚ, 0 ≤ x → x ≤ 1 → ∃ int ∈ l, int.left ≤ x ∧ x ≤ int.right

theorem unitPartition_of_tiles {l : List Span} (h : Tiles 0 (l.map Span.ends) 1) :
    UnitPartition l := by
  refine ⟨?_, ?_, ?_⟩
  · intro int hint
    exact h.mem_bounds.2 int.ends (List.mem_map_of_mem hint)
  · exact List.pairwise_map.1 h.pairwise
  · intro x h₀ h₁
    have hne : l.map Span.ends ≠ [] := by
      intro hnil
      rw [hnil] at h
      exact absurd h (by norm_num [Tiles])
    obtain ⟨p, hp, hx⟩ := h.covers hne h₀ h₁
    obtain ⟨int, hint, rfl⟩ := List.mem_map.1 hp
    exact ⟨int, hint, hx⟩

def Headers.headersAt (s : Headers) (level : ℤ) : List Span :=
  (s.root :: s.nodes).filter fun int => int.level = level

theorem Headers.Inv.partition (h : s.Inv) {level : ℤ} (h₀ : 0 ≤ level)
    (h₁ : level ≤ s.root.level) :
    ∃ l, l.Perm (s.headersAt level) ∧ UnitPartition l := by
  by_cases hl : s.root.level = level
  · subst hl
    refine ⟨[s.root], ?_, unitPartition_of_tiles ?_⟩
    · simp [headersAt, h.none_at_root]
    · obtain ⟨h₁, h₂, h₃, h₄⟩ := h.root
      norm_num [Tiles, Span.ends, Span.left, Span.right, h₁, h₂, h₃, h₄]
  · obtain ⟨l, hperm, htiles⟩ := h.tiled level h₀ (by omega)
    refine ⟨l, ?_, unitPartition_of_tiles htiles⟩
    rwa [headersAt, List.filter_cons_of_neg (by simpa using hl)]

/-- After any splits the nodes of every level partition the unit interval, the ends of every
interval are neighbours, the names of the nodes differ, and no node has the name that the next split
creates a node under, so that every split runs to its end. -/
theorem splits_partition {ops : List SplitOp} (h : (emptyHeaders random).splits ops = some s) :
    (∀ level, 0 ≤ level → level ≤ s.root.level →
      ∃ l, l.Perm (s.headersAt level) ∧ UnitPartition l) ∧
    (∀ int ∈ s.root :: s.nodes, 0 ≤ int.level ∧ int.level ≤ s.root.level ∧
      int.rn * int.ld - int.ln * int.rd = 1) ∧
    (s.nodes.map Span.name).Nodup ∧
    (∀ int ∈ s.nodes, ∀ r, (int.mySiblingInt r).name ∉ s.nodes.map Span.name ∧
      (s.performSplit int.name r).isSome) ∧
    ∀ r r', (s.root.firstNodeInt r).name ∉ s.nodes.map Span.name ∧
      (s.root.secondNodeInt r').name ∉ s.nodes.map Span.name ∧
      (s.performSplitRoot r r').isSome := by
  have hinv : s.Inv := (Headers.Inv.init random).splits h
  refine ⟨fun level h₀ h₁ => hinv.partition h₀ h₁, ?_, hinv.names, ?_, ?_⟩
  · intro int hint
    rcases List.mem_cons.1 hint with rfl | hint
    · obtain ⟨h₁, h₂, h₃, h₄⟩ := hinv.root
      refine ⟨hinv.root_level, le_refl _, ?_⟩
      rw [h₁, h₂, h₃, h₄]
      rfl
    · obtain ⟨h₁, h₂⟩ := hinv.level int hint
      exact ⟨h₁, le_of_lt h₂, (hinv.unimodular int hint).det⟩
  · intro int hint r
    obtain ⟨l₁, l₂, hnodes⟩ := List.append_of_mem hint
    exact ⟨hinv.sibling_new hint r, by rw [hinv.performSplit_eq hnodes]; rfl⟩
  · intro r r'
    obtain ⟨random, heq⟩ := hinv.performSplitRoot_eq r r'
    exact ⟨hinv.children_new rfl, hinv.children_new rfl, by rw [heq]; rfl⟩

/-- The root splits, its second child splits, and the root splits again. -/
def threeSplits : List SplitOp := [.root 1 2, .node (0, 1, 2) 3, .root 4 5]

theorem threeSplits_partition : ∃ s, (emptyHeaders 7).splits threeSplits = some s ∧
    s.nodes.map Span.name = [(0, 0, 1), (0, 1, 2), (0, 2, 3), (1, 0, 1), (1, 1, 2)] ∧
    ∃ l, l.Perm (s.headersAt 0) ∧ UnitPartition l := by
  obtain ⟨s, hs⟩ : ∃ s, (emptyHeaders 7).splits threeSplits = some s :=
    Option.isSome_iff_exists.1 (by decide)
  have hnames : ((emptyHeaders 7).splits threeSplits).map (fun s => (s.nodes.map Span.name,
      s.root.level)) = some ([(0, 0, 1), (0, 1, 2), (0, 2, 3), (1, 0, 1), (1, 1, 2)], 2) := by decide
  rw [hs] at hnames
  simp only [Option.map_some, Option.some.injEq, Prod.mk.injEq] at hnames
  refine ⟨s, hs, hnames.1, (splits_partition hs).1 0 (le_refl _) ?_⟩
  rw [hnames.2]
  decide

end Partition

end XGossip
