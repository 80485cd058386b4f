import XGossip.Index.Tree

namespace XGossip
set_option autoImplicit true

open Gf2

/-- The keys of the entries that a split moves to the new sibling. -/
def SplitJob.moved (j : SplitJob) : List Key := j.items2.map Prod.fst

/-- The tree that a split with parent `P` is about to make of the store: `k` counts its steps from
the creation of the sibling on, and what the other steps would write is taken for written. -/
def SplitJob.view (ix : Index) (j : SplitJob) (P : Key) (k : Nat) (σ : Store) : Forest Key Sig where
  leaf x := if x = j.siblingID ix then j.node.isLeaf = true else σ.forest.leaf x
  entry x c s :=
    if x = j.siblingID ix then
      if k < 2 then (c, s) ∈ j.items2 else σ.forest.entry x c s
    else if x = j.ID then σ.forest.entry x c s ∧ c ∉ j.moved
    else if x = P then
      (k < 3 ∧ c = j.siblingID ix ∧ s = j.groups.lcm2) ∨
      (k < 4 ∧ c = j.ID ∧ s = j.groups.lcm1) ∨
      (σ.forest.entry x c s ∧ (k < 4 → c ≠ j.ID))
    else σ.forest.entry x c s

/-- The new sibling after `k` steps of a split. -/
def SplitJob.Sibling (j : SplitJob) (k : Nat) (o : Option Node) : Prop :=
  if k = 0 then o = none
  else ∃ m, o = some m ∧ m.nodeType = j.node.nodeType ∧ m.int.level = j.node.int.level ∧
    if k = 1 then m.entries = []
    else ∀ e ∈ j.items2, ∃ t, (e.1, t) ∈ m.entries ∧ Divides e.2 t

/-- The store after `k` steps of a split, whatever inserts have run besides. -/
structure SplitJob.Mid (ix : Index) (j : SplitJob) (P : Key) (k : Nat) (σ : Store) : Prop where
  node_ne_parent : j.ID ≠ P
  sibling_ne_node : j.siblingID ix ≠ j.ID
  sibling_ne_parent : j.siblingID ix ≠ P
  nonroot : j.node.nodeType ≠ .ROOT
  parts : j.Parts ix
  normalized : σ.Normalized
  fresh : j.node.isLeaf = false → j.siblingID ix ∉ j.moved
  node : ∃ n, σ j.ID = some n ∧ n.nodeType = j.node.nodeType ∧
    n.int.level = j.node.int.level ∧ (k < 5 → ix.full n)
  sibling : j.Sibling k (σ (j.siblingID ix))
  parent : ∃ p, σ P = some p ∧ p.isLeaf = false ∧ j.ID ∈ p.keys
  linked : 3 ≤ k → ∃ t, σ.forest.entry P (j.siblingID ix) t ∧ Divides j.groups.lcm2 t
  deleted : 5 ≤ k → σ.forest.entry j.ID c s → c ∉ j.moved
  unlinked : ¬ σ.forest.leaf x → σ.forest.entry x (j.siblingID ix) s → 3 ≤ k

section View

variable {ix : Index} {j : SplitJob} {P : Key} {σ : Store} {k : Nat}

theorem SplitJob.Mid.sibling_some (h : j.Mid ix P k σ) (hk : 1 ≤ k) :
    ∃ m, σ (j.siblingID ix) = some m ∧ m.nodeType = j.node.nodeType ∧
      m.int.level = j.node.int.level := by
  have hs := h.sibling
  rw [SplitJob.Sibling, if_neg (by omega)] at hs
  obtain ⟨m, hm, ht, hl, -⟩ := hs
  exact ⟨m, hm, ht, hl⟩

theorem SplitJob.Mid.view_leaf (h : j.Mid ix P k σ) (hk : 1 ≤ k) (x : Key) :
    (j.view ix P k σ).leaf x ↔ σ.forest.leaf x := by
  simp only [SplitJob.view]
  split
  · next hx =>
    obtain ⟨m, hm, ht, hl⟩ := h.sibling_some hk
    rw [hx, forest_leaf hm, isLeaf_congr ht hl]
  · exact Iff.rfl

theorem SplitJob.Mid.view_eq (h : j.Mid ix P 5 σ) : j.view ix P 5 σ = σ.forest := by
  ext x c s
  · exact h.view_leaf (by omega) x
  · simp only [SplitJob.view]
    split
    · simp
    · split
      · next hx =>
        subst hx
        exact and_iff_left_of_imp (h.deleted le_rfl)
      · split
        · simp
        · exact Iff.rfl

theorem SplitJob.Mid.view_widens (h : j.Mid ix P 4 σ) :
    Forest.Widens Divides (j.view ix P 4 σ) σ.forest := by
  intro x c s he
  refine ⟨h.view_leaf (by omega) x, s, ?_, refl_of Divides s⟩
  simp only [SplitJob.view] at he
  split at he
  · simpa using he
  · split at he
    · exact he.1
    · split at he
      · simpa using he
      · exact he

end View

section Steps

variable {ix : Index} {j : SplitJob} {P : Key} {σ : Store}

/-- Two views after a message to the cell `y` that agree on it. -/
theorem view_deliver (msg : Msg) (y : Key)
    (hleaf : y ≠ j.siblingID ix → ((ix.deliver σ y msg).forest.leaf y ↔ σ.forest.leaf y))
    (hentry : ∀ c s, (j.view ix P (k + 1) (ix.deliver σ y msg)).entry y c s ↔
      (j.view ix P k σ).entry y c s)
    (hsib : y ≠ j.siblingID ix → k ≠ 1)
    (hpar : y ≠ P → k ≠ 2 ∧ k ≠ 3) :
    j.view ix P (k + 1) (ix.deliver σ y msg) = j.view ix P k σ := by
  ext x c s
  · simp only [SplitJob.view]
    by_cases hx : x = j.siblingID ix
    · simp [hx]
    · rw [if_neg hx, if_neg hx]
      by_cases hy : x = y
      · subst hy
        exact hleaf hx
      · exact forest_leaf_deliver hy msg
  · by_cases hy : x = y
    · subst hy
      exact hentry c s
    · have hf := @forest_entry_deliver ix σ x y c s hy msg
      simp only [SplitJob.view, hf]
      split
      · next hx =>
        have hk := hsib fun h => hy (hx.trans h.symm)
        have h2 : k + 1 < 2 ↔ k < 2 := by omega
        simp only [h2]
      · split
        · exact Iff.rfl
        · split
          · next hx =>
            have hk := hpar fun h => hy (hx.trans h.symm)
            have h3 : k + 1 < 3 ↔ k < 3 := by omega
            have h4 : k + 1 < 4 ↔ k < 4 := by omega
            simp only [h3, h4]
          · exact Iff.rfl

theorem SplitJob.Mid.create (h : j.Mid ix P 0 σ) (random : BitVec 32) :
    (serve ix (σ (j.siblingID ix))
      (.updateHdrLock j.node.nodeType (j.mySiblingInt random))).2 = .DHASH_OK ∧
    j.Mid ix P 1 (ix.deliver σ (j.siblingID ix)
      (.updateHdrLock j.node.nodeType (j.mySiblingInt random))) ∧
    j.view ix P 1 (ix.deliver σ (j.siblingID ix)
      (.updateHdrLock j.node.nodeType (j.mySiblingInt random))) = j.view ix P 0 σ ∧
    Forest.Widens Divides σ.forest (ix.deliver σ (j.siblingID ix)
      (.updateHdrLock j.node.nodeType (j.mySiblingInt random))).forest := by
  have hM : σ (j.siblingID ix) = none := by simpa [SplitJob.Sibling] using h.sibling
  have hserve : serve ix (σ (j.siblingID ix))
      (.updateHdrLock j.node.nodeType (j.mySiblingInt random)) =
      (some ⟨j.node.nodeType, j.mySiblingInt random, []⟩, .DHASH_OK) := by rw [hM]; rfl
  have hM' := deliver_some (congrArg Prod.fst hserve)
  refine ⟨congrArg Prod.snd hserve, ?_, ?_, widens_deliver_none ix hM _⟩
  · refine ⟨h.node_ne_parent, h.sibling_ne_node, h.sibling_ne_parent, h.nonroot, h.parts,
      deliver_normalized h.normalized trivial (by simp), h.fresh, ?_, ?_, ?_, by omega, by omega, ?_⟩
    · rw [deliver_of_ne h.sibling_ne_node.symm]
      obtain ⟨n, hn, ht, hl, hf⟩ := h.node
      exact ⟨n, hn, ht, hl, fun _ => hf (by omega)⟩
    · exact ⟨_, hM', rfl, rfl, rfl⟩
    · rw [deliver_of_ne h.sibling_ne_parent.symm]
      exact h.parent
    · intro x s hx he
      by_cases hxM : x = j.siblingID ix
      · subst hxM
        simp [forest_entry hM'] at he
      · rw [forest_leaf_deliver hxM] at hx
        rw [forest_entry_deliver hxM] at he
        have := h.unlinked hx he
        omega
  · refine view_deliver _ _ (fun hn => (hn rfl).elim) (fun c s => ?_) (fun hn => (hn rfl).elim)
      (fun _ => by omega)
    simp [SplitJob.view]

theorem SplitJob.Mid.fill (h : j.Mid ix P 1 σ) :
    (serve ix (σ (j.siblingID ix)) (.split j.items2)).2 = .DHASH_OK ∧
    j.Mid ix P 2 (ix.deliver σ (j.siblingID ix) (.split j.items2)) ∧
    j.view ix P 2 (ix.deliver σ (j.siblingID ix) (.split j.items2)) = j.view ix P 1 σ ∧
    Forest.Widens Divides σ.forest (ix.deliver σ (j.siblingID ix) (.split j.items2)).forest := by
  obtain ⟨m, hm, ht, hl, hnil⟩ : ∃ m, σ (j.siblingID ix) = some m ∧
      m.nodeType = j.node.nodeType ∧ m.int.level = j.node.int.level ∧ m.entries = [] := by
    simpa [SplitJob.Sibling] using h.sibling
  have hfull : ix.full m = false := by
    have := ix.two_le
    simp only [Index.full, hnil, List.length_nil, decide_eq_false_iff_not]
    omega
  have hserve : serve ix (σ (j.siblingID ix)) (.split j.items2) =
      (some { m with entries := j.items2 }, .DHASH_OK) := by
    rw [hm]
    simp [serve, serveSplit, hfull, hnil]
  have hM' := deliver_some (congrArg Prod.fst hserve)
  refine ⟨congrArg Prod.snd hserve, ?_, ?_, widens_deliver hm hM' rfl (by simp [hnil])⟩
  · refine ⟨h.node_ne_parent, h.sibling_ne_node, h.sibling_ne_parent, h.nonroot, h.parts,
      deliver_normalized h.normalized h.parts.items2_normalized (by simp), h.fresh, ?_, ?_,
      ?_, by omega, by omega, ?_⟩
    · rw [deliver_of_ne h.sibling_ne_node.symm]
      obtain ⟨n, hn, ht, hl, hf⟩ := h.node
      exact ⟨n, hn, ht, hl, fun _ => hf (by omega)⟩
    · exact ⟨_, hM', ht, hl, fun e he => ⟨e.2, he, refl_of Divides e.2⟩⟩
    · rw [deliver_of_ne h.sibling_ne_parent.symm]
      exact h.parent
    · intro x s hx he
      by_cases hxM : x = j.siblingID ix
      · subst hxM
        rw [forest_leaf hM'] at hx
        have hleaf : j.node.isLeaf = false := by
          rw [← isLeaf_congr ht hl]
          exact Bool.eq_false_iff.2 hx
        exact (h.fresh hleaf
          (List.mem_map.2 ⟨_, (forest_entry hM').1 he, rfl⟩)).elim
      · rw [forest_leaf_deliver hxM] at hx
        rw [forest_entry_deliver hxM] at he
        have := h.unlinked hx he
        omega
  · refine view_deliver _ _ (fun hn => (hn rfl).elim) (fun c s => ?_) (fun hn => (hn rfl).elim)
      (fun _ => by omega)
    simp [SplitJob.view, forest_entry hM']

def Refused (ix : Index) (σ : Store) (key : Key) (msg : Msg) : Prop :=
  (store_cb (serve ix (σ key) msg).2).failed = true ∧ ix.deliver σ key msg = σ

theorem refused_of_update {n : Node} (hx : σ x = some n) (h₁ : stat ≠ .DHASH_OK)
    (h₂ : stat ≠ .DHASH_NOTFIRST) (h : serveUpdate ix type key sig n = (n, stat)) :
    Refused ix σ x (.update type key sig) := by
  have hserve : serve ix (σ x) (.update type key sig) = (some n, stat) := by
    rw [hx]
    simp [serve, h]
  refine ⟨?_, deliver_eq_self (by rw [hserve, hx])⟩
  rw [hserve]
  cases stat <;> simp_all [store_cb, DHTStatus.failed]

theorem serve_update {n : Node} (hx : σ x = some n)
    (h : serveUpdate ix type key sig n = (n', stat)) :
    serve ix (σ x) (.update type key sig) = (some n', stat) := by
  rw [hx]
  simp [serve, h]

theorem SplitJob.Mid.link (h : j.Mid ix P 2 σ) :
    Refused ix σ P (.update .UPDATE (j.siblingID ix) j.groups.lcm2) ∨
    (serve ix (σ P) (.update .UPDATE (j.siblingID ix) j.groups.lcm2)).2 = .DHASH_OK ∧
    j.Mid ix P 3 (ix.deliver σ P (.update .UPDATE (j.siblingID ix) j.groups.lcm2)) ∧
    j.view ix P 3 (ix.deliver σ P (.update .UPDATE (j.siblingID ix) j.groups.lcm2)) =
      j.view ix P 2 σ ∧
    Forest.Widens Divides σ.forest
      (ix.deliver σ P (.update .UPDATE (j.siblingID ix) j.groups.lcm2)).forest := by
  obtain ⟨p, hp, hleaf, hN⟩ := h.parent
  have hnew : j.siblingID ix ∉ p.keys := by
    intro hmem
    obtain ⟨s, hs⟩ := mem_keys.1 hmem
    have := h.unlinked (by simp [forest_leaf hp, hleaf]) ((forest_entry hp).2 hs)
    omega
  rcases serveUpdate_cases ix .UPDATE (j.siblingID ix) j.groups.lcm2 p with
    ⟨stat, h₁, h₂, hs⟩ | ⟨hk, -⟩ | ⟨-, ht, -⟩ | ⟨-, -, -, hs⟩
  · exact .inl (refused_of_update hp h₁ h₂ hs)
  · exact (hnew hk).elim
  · simp at ht
  · right
    have hserve := serve_update hp hs
    have hP' := deliver_some (congrArg Prod.fst hserve)
    refine ⟨congrArg Prod.snd hserve, ?_, ?_, widens_deliver hp hP' rfl (by simp)⟩
    · refine ⟨h.node_ne_parent, h.sibling_ne_node, h.sibling_ne_parent, h.nonroot, h.parts,
      deliver_normalized h.normalized ⟨by simp, h.parts.normalized2⟩ (by simp), h.fresh,
        ?_, ?_, ?_, fun _ => ?_, by omega, fun _ _ => le_rfl⟩
      · rw [deliver_of_ne h.node_ne_parent]
        obtain ⟨n, hn, ht, hl, hf⟩ := h.node
        exact ⟨n, hn, ht, hl, fun _ => hf (by omega)⟩
      · rw [deliver_of_ne h.sibling_ne_parent]
        exact h.sibling
      · refine ⟨_, hP', hleaf, ?_⟩
        simp only [Node.keys, List.map_append, List.mem_append]
        exact .inl hN
      · exact ⟨_, (forest_entry hP').2 (by simp), refl_of Divides _⟩
    · refine view_deliver _ _ (fun _ => ?_) (fun c s => ?_) (fun _ => by omega)
        (fun hn => (hn rfl).elim)
      · rw [forest_leaf hP', forest_leaf hp]
        exact Iff.rfl
      · simp only [SplitJob.view, if_neg h.sibling_ne_parent.symm, if_neg h.node_ne_parent.symm,
          if_true, forest_entry hP', forest_entry hp, List.mem_append, List.mem_singleton,
          Prod.mk.injEq]
        constructor
        · rintro (⟨hk, -⟩ | ⟨-, h₂⟩ | ⟨h₃ | h₃, hne⟩)
          · omega
          · exact .inr (.inl ⟨by omega, h₂⟩)
          · exact .inr (.inr ⟨h₃, fun _ => hne (by omega)⟩)
          · exact .inl ⟨by omega, h₃⟩
        · rintro (⟨-, h₁⟩ | ⟨-, h₂⟩ | ⟨h₃, hne⟩)
          · exact .inr (.inr ⟨.inr h₁, fun _ => h₁.1 ▸ h.sibling_ne_node⟩)
          · exact .inr (.inl ⟨by omega, h₂⟩)
          · exact .inr (.inr ⟨.inl h₃, fun _ => hne (by omega)⟩)

theorem SplitJob.Mid.replace (h : j.Mid ix P 3 σ) :
    Refused ix σ P (.update .REPLACESIG j.ID j.groups.lcm1) ∨
    (serve ix (σ P) (.update .REPLACESIG j.ID j.groups.lcm1)).2 = .DHASH_OK ∧
    j.Mid ix P 4 (ix.deliver σ P (.update .REPLACESIG j.ID j.groups.lcm1)) ∧
    j.view ix P 4 (ix.deliver σ P (.update .REPLACESIG j.ID j.groups.lcm1)) =
      j.view ix P 3 σ := by
  obtain ⟨p, hp, hleaf, hN⟩ := h.parent
  rcases serveUpdate_cases ix .REPLACESIG j.ID j.groups.lcm1 p with
    ⟨stat, h₁, h₂, hs⟩ | ⟨-, hs⟩ | ⟨hk, -⟩ | ⟨hk, -⟩
  · exact .inl (refused_of_update hp h₁ h₂ hs)
  · right
    have hserve := serve_update hp hs
    have hP' := deliver_some (congrArg Prod.fst hserve)
    have hsig : ∀ s, updatedSig .REPLACESIG s j.groups.lcm1 = j.groups.lcm1 := by
      simp [updatedSig]
    have hentry : ∀ c s, (ix.deliver σ P (.update .REPLACESIG j.ID j.groups.lcm1)).forest.entry P c s ↔
        (c = j.ID ∧ s = j.groups.lcm1) ∨ (σ.forest.entry P c s ∧ c ≠ j.ID) := by
      intro c s
      simp only [forest_entry hP', forest_entry hp, mem_map_updateEntry, hsig]
      constructor
      · rintro ⟨t, ht, rfl⟩
        by_cases hc : c = j.ID
        · exact .inl ⟨hc, if_pos hc⟩
        · rw [if_neg hc]
          exact .inr ⟨ht, hc⟩
      · rintro (⟨rfl, rfl⟩ | ⟨ht, hc⟩)
        · obtain ⟨t, ht⟩ := mem_keys.1 hN
          exact ⟨t, ht, (if_pos rfl).symm⟩
        · exact ⟨s, ht, (if_neg hc).symm⟩
    refine ⟨congrArg Prod.snd hserve, ?_, ?_⟩
    · refine ⟨h.node_ne_parent, h.sibling_ne_node, h.sibling_ne_parent, h.nonroot, h.parts,
      deliver_normalized h.normalized ⟨by simp, h.parts.normalized1⟩ (by simp), h.fresh,
        ?_, ?_, ?_, fun _ => ?_, by omega, fun _ _ => by omega⟩
      · rw [deliver_of_ne h.node_ne_parent]
        obtain ⟨n, hn, ht, hl, hf⟩ := h.node
        exact ⟨n, hn, ht, hl, fun _ => hf (by omega)⟩
      · rw [deliver_of_ne h.sibling_ne_parent]
        exact h.sibling
      · refine ⟨_, hP', hleaf, ?_⟩
        rw [Node.keys, keys_map_updateEntry]
        exact hN
      · obtain ⟨t, ht, hd⟩ := h.linked le_rfl
        exact ⟨t, (hentry _ _).2 (.inr ⟨ht, h.sibling_ne_node⟩), hd⟩
    · refine view_deliver _ _ (fun _ => ?_) (fun c s => ?_) (fun _ => by omega)
        (fun hn => (hn rfl).elim)
      · rw [forest_leaf hP', forest_leaf hp]
        exact Iff.rfl
      · simp only [SplitJob.view, if_neg h.sibling_ne_parent.symm, if_neg h.node_ne_parent.symm,
          if_true, hentry]
        simp
  · exact (hk hN).elim
  · exact (hk hN).elim

theorem SplitJob.Mid.delete (h : j.Mid ix P 4 σ) :
    (serve ix (σ j.ID) (.splitSpecial j.moved)).2 = .DHASH_OK ∧
    j.Mid ix P 5 (ix.deliver σ j.ID (.splitSpecial j.moved)) ∧
    j.view ix P 5 (ix.deliver σ j.ID (.splitSpecial j.moved)) = j.view ix P 4 σ := by
  obtain ⟨n, hn, ht, hl, hf⟩ := h.node
  have hserve : serve ix (σ j.ID) (.splitSpecial j.moved) =
      (some { n with entries := n.entries.filter fun e => e.1 ∉ j.moved }, .DHASH_OK) := by
    rw [hn]
    simp [serve, serveSplit, hf]
  have hN' := deliver_some (congrArg Prod.fst hserve)
  have hne : ∀ keys, Msg.splitSpecial j.moved = .splitSpecial keys → ∀ n, σ j.ID = some n →
      n.entries ≠ [] := by
    intro _ _ n' hn' hnil
    obtain rfl : n = n' := Option.some.inj (hn.symm.trans hn')
    have h2 := ix.two_le
    have hlen := hf (by omega)
    simp only [Index.full, hnil, List.length_nil, decide_eq_true_eq] at hlen
    omega
  have hentry : ∀ c s, (ix.deliver σ j.ID (.splitSpecial j.moved)).forest.entry j.ID c s ↔
      σ.forest.entry j.ID c s ∧ c ∉ j.moved := by
    intro c s
    simp [forest_entry hN', forest_entry hn]
  refine ⟨congrArg Prod.snd hserve, ?_, ?_⟩
  · refine ⟨h.node_ne_parent, h.sibling_ne_node, h.sibling_ne_parent, h.nonroot, h.parts,
      deliver_normalized h.normalized trivial hne, h.fresh,
      ?_, ?_, ?_, fun _ => ?_, fun _ he => ((hentry _ _).1 he).2, fun _ _ => by omega⟩
    · exact ⟨_, hN', ht, hl, by omega⟩
    · rw [deliver_of_ne h.sibling_ne_node]
      exact h.sibling
    · rw [deliver_of_ne h.node_ne_parent.symm]
      exact h.parent
    · obtain ⟨t, he, hd⟩ := h.linked (by omega)
      exact ⟨t, (forest_entry_deliver h.node_ne_parent.symm _).2 he, hd⟩
  · refine view_deliver _ _ (fun _ => ?_) (fun c s => ?_) (fun _ => by omega) (fun _ => by omega)
    · rw [forest_leaf hN', forest_leaf hn]
      exact Iff.rfl
    · simp only [SplitJob.view, if_neg h.sibling_ne_node.symm, if_true, hentry, and_assoc, and_self]

theorem updateInt_level (c n : Interval) : (updateInt false c n).level = c.level := by
  simp only [updateInt, narrowInt, Bool.false_eq_true, if_false]
  split <;> rfl

theorem SplitJob.Mid.header (h : j.Mid ix P 5 σ) (nodeType : NodeType) (int : Interval) :
    j.Mid ix P 5 (ix.deliver σ j.ID (.updateHdr nodeType int)) ∧
    (ix.deliver σ j.ID (.updateHdr nodeType int)).forest = σ.forest := by
  obtain ⟨n, hn, ht, hl, hf⟩ := h.node
  obtain ⟨n', hn', ht', hl', he'⟩ : ∃ n', ix.deliver σ j.ID (.updateHdr nodeType int) j.ID = some n' ∧
      n'.nodeType = n.nodeType ∧ n'.int.level = n.int.level ∧ n'.entries = n.entries := by
    simp only [Prog.deliver_self, hn, serve]
    split
    · refine ⟨_, rfl, rfl, ?_, rfl⟩
      have hnr : decide (n.nodeType = .ROOT) = false := by simpa [ht] using h.nonroot
      simp only [hnr]
      exact updateInt_level n.int int
    · exact ⟨n, rfl, rfl, rfl, rfl⟩
  have hforest : (ix.deliver σ j.ID (.updateHdr nodeType int)).forest = σ.forest := by
    ext x c s
    · by_cases hx : x = j.ID
      · rw [hx, forest_leaf hn', forest_leaf hn, isLeaf_congr ht' hl']
      · exact forest_leaf_deliver hx _
    · by_cases hx : x = j.ID
      · rw [hx, forest_entry hn', forest_entry hn, he']
      · exact forest_entry_deliver hx _
  refine ⟨⟨h.node_ne_parent, h.sibling_ne_node, h.sibling_ne_parent, h.nonroot, h.parts,
      deliver_normalized h.normalized trivial (by simp), h.fresh,
    ?_, ?_, ?_, ?_, ?_, fun _ _ => by omega⟩, hforest⟩
  · exact ⟨n', hn', ht'.trans ht, hl'.trans hl, by omega⟩
  · rw [deliver_of_ne h.sibling_ne_node]
    exact h.sibling
  · rw [deliver_of_ne h.node_ne_parent.symm]
    exact h.parent
  · rw [hforest]
    exact h.linked
  · rw [hforest]
    exact h.deleted

end Steps

section Switch

variable {ix : Index} {N P : Key} {σ : Store}

/-- A full node besides the root that can be split below its parent `P`. -/
structure Splittable (ix : Index) (N P : Key) (σ : Store) : Prop where
  ne : N ≠ P
  node : ∃ n, σ N = some n ∧ n.nodeType ≠ .ROOT ∧ n.entries.length = ix.MAXENTRIES ∧ n.keys.Nodup
  normalized : σ.Normalized
  parent : ∃ p, σ P = some p ∧ p.isLeaf = false ∧ N ∈ p.keys
  unique : ¬ σ.forest.leaf x → σ.forest.entry x N s → x = P
  children : ¬ σ.forest.leaf x → σ.forest.entry x c s → σ c ≠ none

def SplitJob.Covers (j : SplitJob) : Prop :=
  (∀ e ∈ j.items1, Divides e.2 j.groups.lcm1) ∧ ∀ e ∈ j.items2, Divides e.2 j.groups.lcm2

theorem WellFormed.splittable (h : WellFormed ix σ) (hN : σ N = some n) (hroot : N ≠ ix.rootID)
    (hfull : ix.full n) (hP : Refers σ P N) : Splittable ix N P σ := by
  obtain ⟨p, hp, hpos, hmem⟩ := id hP
  have hlen := h.length_le hN
  have hrefers : ∀ {x c s}, ¬ σ.forest.leaf x → σ.forest.entry x c s → Refers σ x c := by
    intro x c s hx he
    obtain ⟨m, hm, hmem⟩ := exists_of_entry he
    rw [forest_leaf hm, Bool.not_eq_true] at hx
    exact h.refers_of_entry hm hx (mem_keys.2 ⟨s, hmem⟩)
  refine ⟨(hP.ne h).symm, ⟨n, hN, ?_, ?_, h.nodup hN⟩, h.normalized,
    ⟨p, hp, (h.not_leaf_iff hp).2 hpos, hmem⟩, ?_, ?_⟩
  · rw [h.nodeType hN hroot]
    split <;> simp
  · simp only [Index.full, decide_eq_true_eq] at hfull
    omega
  · exact fun hx he => h.unique (hrefers hx he) hP
  · intro x c s hx he
    obtain ⟨m, hm, hmpos, hc⟩ := hrefers hx he
    obtain ⟨m', hm', -⟩ := h.child hm hmpos hc
    simp [hm']

theorem Splittable.parts (h : Splittable ix N P σ) (hn : σ N = some n)
    (hg : splitNode ix.MAXENTRIES ix.metric (n.entries.map Prod.snd) = some g) :
    (SplitJob.mk N n g).Parts ix := by
  obtain ⟨m, hm, -, hlen, -⟩ := h.node
  obtain rfl : m = n := Option.some.inj (hm.symm.trans hn)
  exact splitNode_parts hlen (h.normalized hn) hg

theorem SplitJob.Parts.covers {j : SplitJob} (h : j.Parts ix) (hm : ix.metric = true) : j.Covers :=
  ⟨h.cover1 hm, h.cover2 hm⟩

variable {j : SplitJob}

theorem Splittable.mid (h : Splittable ix j.ID P σ) (hn : σ j.ID = some j.node)
    (hparts : j.Parts ix) (hM : σ (j.siblingID ix) = none) : j.Mid ix P 0 σ := by
  obtain ⟨n, hn', ht, hlen, -⟩ := h.node
  obtain rfl : n = j.node := Option.some.inj (hn'.symm.trans hn)
  obtain ⟨p, hp, -⟩ := id h.parent
  have hnone : ∀ {x s}, ¬ σ.forest.leaf x → ¬ σ.forest.entry x (j.siblingID ix) s :=
    fun hx he => h.children hx he hM
  refine ⟨h.ne, ?_, ?_, ht, hparts, h.normalized, ?_, ⟨j.node, hn, rfl, rfl, fun _ => ?_⟩, ?_,
    h.parent, by omega,
    by omega, fun hx he => (hnone hx he).elim⟩
  · rintro he
    simp [he, hn] at hM
  · rintro he
    simp [he, hp] at hM
  · intro hleaf hmem
    obtain ⟨e, he, hek⟩ := List.mem_map.1 hmem
    have hmem' := hparts.perm.mem_iff.1 (List.mem_append_right _ he)
    refine hnone (x := j.ID) (s := e.2) (by simp [forest_leaf hn, hleaf]) ?_
    rw [forest_entry hn, ← hek]
    exact hmem'
  · simp [Index.full, hlen]
  · simpa [SplitJob.Sibling] using hM

/-- When the job is planned, a search in the store becomes a search in the view. -/
theorem Splittable.split (h : Splittable ix j.ID P σ) (hn : σ j.ID = some j.node)
    (hparts : j.Parts ix) (hcov : j.Covers) (hM : σ (j.siblingID ix) = none) :
    Forest.Split Divides σ.forest (j.view ix P 0 σ) j.ID (j.siblingID ix) j.groups.lcm1
      j.groups.lcm2 := by
  have hmid := h.mid hn hparts hM
  obtain ⟨p, hp, hpleaf, -⟩ := h.parent
  have hne : ∀ {x c s}, σ.forest.entry x c s → x ≠ j.siblingID ix := by
    rintro x c s he rfl
    obtain ⟨m, hm, -⟩ := exists_of_entry he
    simp [hM] at hm
  refine ⟨?_, ?_, ?_, ?_, ?_⟩
  · intro x c s he
    simp [SplitJob.view, hne he]
  · simp [SplitJob.view, forest_leaf hn]
  · intro x c s hx he hc
    refine ⟨s, ?_, refl_of Divides s⟩
    simp only [SplitJob.view, if_neg (hne he), if_neg hx]
    split
    · next hP =>
      subst hP
      exact .inr (.inr ⟨he, fun _ => hc (by simp [forest_leaf hp, hpleaf])⟩)
    · exact he
  · intro x s hx he
    obtain rfl := h.unique hx he
    refine ⟨h.ne.symm, ⟨_, ?_, refl_of Divides _⟩, ⟨_, ?_, refl_of Divides _⟩⟩
    · simp [SplitJob.view, hmid.sibling_ne_parent.symm, h.ne.symm]
    · simp [SplitJob.view, hmid.sibling_ne_parent.symm, h.ne.symm]
  · intro c s he
    have hmem := hparts.perm.mem_iff.2 ((forest_entry hn).1 he)
    rcases List.mem_append.1 hmem with h₁ | h₂
    · left
      refine ⟨hcov.1 (c, s) h₁, s, ?_, refl_of Divides s⟩
      have hmoved : c ∉ j.moved := by
        intro h₂
        obtain ⟨n, hn', -, -, hnodup⟩ := h.node
        obtain rfl : n = j.node := Option.some.inj (hn'.symm.trans hn)
        have hnd := (hparts.perm.map Prod.fst).nodup_iff.2 hnodup
        rw [List.map_append] at hnd
        exact List.disjoint_of_nodup_append hnd (List.mem_map.2 ⟨_, h₁, rfl⟩) h₂
      simp only [SplitJob.view, if_neg hmid.sibling_ne_node.symm, if_true]
      exact ⟨he, hmoved⟩
    · right
      refine ⟨hcov.2 (c, s) h₂, s, ?_, refl_of Divides s⟩
      simpa [SplitJob.view] using h₂

end Switch

end XGossip
