import Mathlib.Order.Defs.Unbundled

set_option autoImplicit true

/-- Nodes with labelled entries. The entries of a leaf are documents, those of another node are its
children. -/
@[ext]
structure Forest (K S : Type*) where
  leaf : K → Prop
  entry : K → K → S → Prop

namespace Forest

variable {K S : Type*} {F G : Forest K S} {r : S → S → Prop}

/-- A search for `q` from `x` finds the document `d`: it follows the entries above `q`. -/
inductive Reach (r : S → S → Prop) (F : Forest K S) (q : S) : K → K → Prop where
  | doc : F.leaf x → F.entry x d s → r q s → Reach r F q x d
  | child : ¬ F.leaf x → F.entry x c s → r q s → Reach r F q c d → Reach r F q x d

/-- The document `d` lies below `x` under the label `s`. -/
inductive Stored (F : Forest K S) : K → K → S → Prop where
  | doc : F.leaf x → F.entry x d s → Stored F x d s
  | child : ¬ F.leaf x → F.entry x c t → Stored F c d s → Stored F x d s

def Covered (r : S → S → Prop) (F : Forest K S) : Prop :=
  ∀ ⦃x c t d s⦄, ¬ F.leaf x → F.entry x c t → F.Stored c d s → r s t

/-- Every entry is still there, with a label that is at least the old one. -/
def Widens (r : S → S → Prop) (F G : Forest K S) : Prop :=
  ∀ ⦃x c s⦄, F.entry x c s → (F.leaf x ↔ G.leaf x) ∧ ∃ t, G.entry x c t ∧ r s t

section Search

variable [IsTrans S r]

theorem Reach.of_le (h : r p q) (hr : Reach r F q x d) : Reach r F p x d := by
  induction hr with
  | doc hl he hs => exact .doc hl he (trans_of r h hs)
  | child hl he hs _ ih => exact .child hl he (trans_of r h hs) ih

theorem Reach.of_widens (h : Widens r F G) (hr : Reach r F q x d) : Reach r G q x d := by
  induction hr with
  | doc hl he hs =>
    obtain ⟨hleaf, t, ht, hst⟩ := h he
    exact .doc (hleaf.1 hl) ht (trans_of r hs hst)
  | child hl he hs _ ih =>
    obtain ⟨hleaf, t, ht, hst⟩ := h he
    exact .child (mt hleaf.2 hl) ht (trans_of r hs hst) ih

theorem Stored.reach (hF : Covered r F) (h : F.Stored x d s) (hq : r q s) : Reach r F q x d := by
  induction h with
  | doc hl he => exact .doc hl he hq
  | child hl he hs ih => exact .child hl he (trans_of r hq (hF hl he hs)) (ih hq)

omit [IsTrans S r] in
theorem Stored.reach_of_closed {R : S → Prop} (hF : Covered r F)
    (hR : ∀ {s t}, r s t → R s → R t) (h : F.Stored x d s) (hs : R s) :
    Reach (fun _ s => R s) F q x d := by
  induction h with
  | doc hl he => exact .doc hl he hs
  | child hl he hst ih => exact .child hl he (hR (hF hl he hst) hs) (ih hs)

omit [IsTrans S r] in
theorem Reach.stored (h : Reach r F q x d) : ∃ s, F.Stored x d s ∧ r q s := by
  induction h with
  | doc hl he hq => exact ⟨_, .doc hl he, hq⟩
  | child hl he _ _ ih =>
    obtain ⟨s, hs, hq⟩ := ih
    exact ⟨s, .child hl he hs, hq⟩

end Search

theorem covered_of_entries [IsTrans S r]
    (h : ∀ {x c t d s}, ¬ F.leaf x → F.entry x c t → F.entry c d s → r s t) : Covered r F := by
  intro x c t d s hx he hs
  induction hs generalizing x t with
  | doc _ hd => exact h hx he hd
  | child hl hc _ ih => exact trans_of r (ih hl hc) (h hx he hc)

theorem Widens.refl [Std.Refl r] : Widens r F F := fun _ _ _ h => ⟨Iff.rfl, _, h, refl_of r _⟩

theorem Widens.trans [IsTrans S r] (h₁ : Widens r F G) (h₂ : Widens r G H) : Widens r F H := by
  intro x c s he
  obtain ⟨hl, t, ht, hst⟩ := h₁ he
  obtain ⟨hl', u, hu, htu⟩ := h₂ ht
  exact ⟨hl.trans hl', u, hu, trans_of r hst htu⟩

/-- `G` comes from `F` by moving entries of `N` to a new node `M`, whose label `s₂` every parent of
`N` gets besides the label `s₁` of what `N` keeps. -/
structure Split (r : S → S → Prop) (F G : Forest K S) (N M : K) (s₁ s₂ : S) : Prop where
  leaf : F.entry x c s → (F.leaf x ↔ G.leaf x)
  leaf_new : F.leaf N ↔ G.leaf M
  other : x ≠ N → F.entry x c s → (¬ F.leaf x → c ≠ N) → ∃ t, G.entry x c t ∧ r s t
  parent : ¬ F.leaf x → F.entry x N s →
    x ≠ N ∧ (∃ t, G.entry x N t ∧ r s₁ t) ∧ ∃ t, G.entry x M t ∧ r s₂ t
  parts : F.entry N c s →
    (r s s₁ ∧ ∃ t, G.entry N c t ∧ r s t) ∨ r s s₂ ∧ ∃ t, G.entry M c t ∧ r s t

/-- A search that has come to `N` goes on in one of the two parts. -/
def Parts (r : S → S → Prop) (G : Forest K S) (N M : K) (s₁ s₂ q : S) (d : K) : Prop :=
  (r q s₁ ∧ Reach r G q N d) ∨ r q s₂ ∧ Reach r G q M d

section Splitting

variable [IsTrans S r] {N M A B R : K} {s₁ s₂ : S}

theorem Split.reach (h : Split r F G N M s₁ s₂) (hr : Reach r F q x d) :
    (x ≠ N → Reach r G q x d) ∧ (x = N → Parts r G N M s₁ s₂ q d) := by
  induction hr with
  | @doc x d s hl he hq =>
    constructor
    · intro hx
      obtain ⟨t, ht, hst⟩ := h.other hx he fun hn => (hn hl).elim
      exact .doc ((h.leaf he).1 hl) ht (trans_of r hq hst)
    · rintro rfl
      rcases h.parts he with ⟨h₁, t, ht, hst⟩ | ⟨h₂, t, ht, hst⟩
      · exact .inl ⟨trans_of r hq h₁, .doc ((h.leaf he).1 hl) ht (trans_of r hq hst)⟩
      · exact .inr ⟨trans_of r hq h₂, .doc (h.leaf_new.1 hl) ht (trans_of r hq hst)⟩
  | @child x c s d hl he hq _ ih =>
    constructor
    · intro hx
      by_cases hc : c = N
      · subst hc
        obtain ⟨-, ⟨t, ht, h₁⟩, u, hu, h₂⟩ := h.parent hl he
        have hl' : ¬ G.leaf x := mt (h.leaf he).2 hl
        rcases ih.2 rfl with ⟨hq₁, hr⟩ | ⟨hq₂, hr⟩
        · exact .child hl' ht (trans_of r hq₁ h₁) hr
        · exact .child hl' hu (trans_of r hq₂ h₂) hr
      · obtain ⟨t, ht, hst⟩ := h.other hx he fun _ => hc
        exact .child (mt (h.leaf he).2 hl) ht (trans_of r hq hst) (ih.1 hc)
    · rintro rfl
      have hc : c ≠ x := by
        rintro rfl
        exact (h.parent hl he).1 rfl
      rcases h.parts he with ⟨h₁, t, ht, hst⟩ | ⟨h₂, t, ht, hst⟩
      · exact .inl ⟨trans_of r hq h₁,
          .child (mt (h.leaf he).2 hl) ht (trans_of r hq hst) (ih.1 hc)⟩
      · exact .inr ⟨trans_of r hq h₂,
          .child (mt h.leaf_new.2 hl) ht (trans_of r hq hst) (ih.1 hc)⟩

/-- `G` comes from `F` by moving the entries of the root to two new nodes below it. -/
structure RootSplit (r : S → S → Prop) (F G : Forest K S) (R A B : K) (s₁ s₂ : S) : Prop where
  leaf : x ≠ R → F.entry x c s → (F.leaf x ↔ G.leaf x)
  other : x ≠ R → F.entry x c s → ∃ t, G.entry x c t ∧ r s t
  inner : ¬ G.leaf R
  leaf_first : F.leaf R ↔ G.leaf A
  leaf_second : F.leaf R ↔ G.leaf B
  first : G.entry R A s₁
  second : G.entry R B s₂
  parts : F.entry R c s →
    (r s s₁ ∧ ∃ t, G.entry A c t ∧ r s t) ∨ r s s₂ ∧ ∃ t, G.entry B c t ∧ r s t

theorem RootSplit.reach (h : RootSplit r F G R A B s₁ s₂) (hr : Reach r F q x d) :
    Reach r G q x d := by
  induction hr with
  | @doc x d s hl he hq =>
    by_cases hx : x = R
    · subst hx
      rcases h.parts he with ⟨h₁, t, ht, hst⟩ | ⟨h₂, t, ht, hst⟩
      · exact .child h.inner h.first (trans_of r hq h₁)
          (.doc (h.leaf_first.1 hl) ht (trans_of r hq hst))
      · exact .child h.inner h.second (trans_of r hq h₂)
          (.doc (h.leaf_second.1 hl) ht (trans_of r hq hst))
    · obtain ⟨t, ht, hst⟩ := h.other hx he
      exact .doc ((h.leaf hx he).1 hl) ht (trans_of r hq hst)
  | @child x c s d hl he hq _ ih =>
    by_cases hx : x = R
    · subst hx
      rcases h.parts he with ⟨h₁, t, ht, hst⟩ | ⟨h₂, t, ht, hst⟩
      · exact .child h.inner h.first (trans_of r hq h₁)
          (.child (mt h.leaf_first.2 hl) ht (trans_of r hq hst) ih)
      · exact .child h.inner h.second (trans_of r hq h₂)
          (.child (mt h.leaf_second.2 hl) ht (trans_of r hq hst) ih)
    · obtain ⟨t, ht, hst⟩ := h.other hx he
      exact .child (mt (h.leaf hx he).2 hl) ht (trans_of r hq hst) ih

end Splitting

end Forest
