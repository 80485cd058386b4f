import Mathlib.Data.List.Shortlex
import XGossip.Lib.SortedMap

namespace XGossip
set_option autoImplicit true

/-- A polynomial over GF(2) of degree at most 31, one bit for each coefficient. -/
abbrev POLY := BitVec 32

abbrev ChordID := Nat

/-- A signature, the multiset of irreducible polynomials of a document. -/
abbrev Sig := List POLY

instance : LawfulBEq POLY := inferInstance

instance : LawfulBEq Sig := inferInstance

/-- The loop of `CompareSig` over two signatures of the same size. -/
def compareSigLoop : Sig → Sig → Bool
  | a :: s, b :: t => if a < b then true else if b < a then false else compareSigLoop s t
  | _, _ => false

/-- `CompareSig::operator()`: shorter signatures first, then word by word. -/
def compareSig (s1 s2 : Sig) : Bool :=
  if s1.length < s2.length then true
  else if s1.length = s2.length then compareSigLoop s1 s2
  else false

/-- The copy of `CompareSig` that `mergelists` uses. -/
def sigcmp (s1 s2 : Sig) : Bool := compareSig s1 s2

/-- The signature a list falls back on for the signatures it has no entry for. -/
def dummysig : Sig := [1]

/-- The placeholder that XGossip puts in front of every list. -/
def hldsig : Sig := [0]

/-- `CompareSig` as the order of a map's keys. -/
def SigLt (s1 s2 : Sig) : Prop := compareSig s1 s2 = true

instance : DecidableRel SigLt := fun _ _ => inferInstanceAs (Decidable (_ = true))

theorem compareSigLoop_iff (h : s.length = t.length) :
    compareSigLoop s t = true ↔ List.Lex (· < ·) s t := by
  induction s generalizing t with
  | nil =>
    cases t with
    | nil => simp [compareSigLoop]
    | cons => simp at h
  | cons a s ih =>
    cases t with
    | nil => simp at h
    | cons b t =>
      have hlen : s.length = t.length := by simpa using h
      rcases BitVec.lt_trichotomy a b with hab | hab | hab
      · simp [compareSigLoop, hab, List.Lex.rel]
      · subst hab
        simpa [compareSigLoop, List.lex_cons_iff] using ih hlen
      · have hne : ¬ a < b := BitVec.lt_asymm hab
        simp only [compareSigLoop, hne, hab, if_true, if_false, Bool.false_eq_true, false_iff]
        intro hl
        cases hl with
        | rel hr => exact hne hr
        | cons => exact BitVec.lt_irrefl _ hab

theorem sigLt_iff : SigLt s t ↔ List.Shortlex (· < ·) s t := by
  rw [SigLt, compareSig, List.shortlex_def]
  split
  · next h => simp [h]
  · next h =>
    split
    · next he => simp [he, compareSigLoop_iff he]
    · next he => simp [h, he]

instance : IsStrictTotalOrder Sig SigLt where
  irrefl s h := asymm_of (List.Shortlex (· < ·)) (sigLt_iff.1 h) (sigLt_iff.1 h)
  trans s t u hst htu := by
    simp only [sigLt_iff, List.shortlex_def] at *
    rcases hst with h | ⟨h, hl⟩ <;> rcases htu with h' | ⟨h', hl'⟩
    · exact .inl (h.trans h')
    · exact .inl (h' ▸ h)
    · exact .inl (h ▸ h')
    · exact .inr ⟨h.trans h', List.lex_trans BitVec.lt_trans hl hl'⟩
  trichotomous s t hst hts := by
    rw [sigLt_iff] at hst hts
    exact Std.Trichotomous.trichotomous (r := List.Shortlex (· < ·)) s t hst hts

theorem hldsig_lt_dummysig : SigLt hldsig dummysig := by decide

theorem hldsig_ne_dummysig : hldsig ≠ dummysig := by decide

/-- The signatures documents have, which the two placeholders are not. -/
structure DocumentSig (s : Sig) : Prop where
  nonempty : s ≠ []
  zeroFree : 0 ∉ s
  ne_dummysig : s ≠ dummysig

theorem DocumentSig.ne_hldsig (h : DocumentSig s) : s ≠ hldsig := by
  rintro rfl
  exact h.zeroFree (by decide)

theorem DocumentSig.dummysig_lt (h : DocumentSig s) : SigLt dummysig s := by
  match s, h with
  | [], h => exact (h.nonempty rfl).elim
  | [a], h =>
    have h0 : a ≠ 0 := fun he => h.zeroFree (by simp [he])
    have h1 : a ≠ 1 := fun he => h.ne_dummysig (by simp [dummysig, he])
    have hlt : 1#32 < a := by bv_omega
    simp [SigLt, compareSig, dummysig, compareSigLoop, hlt]
  | a :: b :: s, h => simp [SigLt, compareSig, dummysig]

end XGossip
