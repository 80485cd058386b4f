import Mathlib.Data.List.GetD
import XGossip.Gossip.Lsh
import XGossip.Index.Lcm
import XGossip.Lib.Occurrences

open Polynomial

namespace XGossip
set_option autoImplicit true

open Gf2 Occurrences

section Words

def keptWord (p g : POLY) : POLY := (multiplyPoly [p] [g]).headD 0

def occurrenceWord (irrnums : List POLY) : POLY × Nat → POLY
  | (p, 0) => p
  | (p, a + 1) => keptWord p (irrnums.getD a 0)

/-- The polynomials that the claim of a set is about: different irreducible ones to multiply with,
and a sorted signature of irreducible ones, each at most once more than there are such factors. -/
structure Repeats (irrnums : List POLY) (sig : Sig) : Prop where
  nodup : irrnums.Nodup
  factor : ∀ g ∈ irrnums, Irreducible (poly [g])
  element : ∀ p ∈ sig, Irreducible (poly [p])
  sorted : sig.Pairwise (· ≤ ·)
  nonempty : sig ≠ []
  count : ∀ p, sig.count p ≤ irrnums.length + 1

/-- The elements of `sig` as a set: a vector of the same length without repetitions, and the first
occurrences are where they were. -/
def BecomesSet (t : Lsh) (sig : Sig) : Prop :=
  ∃ outputPols, t.getUniqueSet sig = some outputPols ∧ outputPols.length = sig.length ∧
    outputPols.Nodup ∧ ∀ p ∈ sig, outputPols[sig.idxOf p]? = some p

theorem normalized_of_irreducible (h : Irreducible (poly [p])) : Normalized [p] := by
  rintro rfl
  exact h.ne_zero poly_zero_word

theorem keptWord_head (hp : Irreducible (poly [p])) (hg : Irreducible (poly [g])) :
    (multiplyPoly [p] [g])[0]? = some (keptWord p g) := by
  obtain ⟨hn, -⟩ := multiplyPoly_spec (normalized_of_irreducible hp) (normalized_of_irreducible hg)
  rw [keptWord]
  cases h : multiplyPoly [p] [g] with
  | nil => exact (hn.ne_nil h).elim
  | cons w ws => rfl

end Words

section Scan

variable {irrnums : List POLY} {sig : Sig}

/-- The value of an occurrence when the elements in `done` have been scanned for. -/
def scanned (irrnums done : List POLY) (x : POLY × Nat) : POLY :=
  if x.1 ∈ done then occurrenceWord irrnums x else x.1

theorem uniqueLoop_occurrence (hirr : ∀ g ∈ irrnums, Irreducible (poly [g]))
    (hq : Irreducible (poly [q])) (ha : a ≤ irrnums.length)
    (hrest : uniqueLoop irrnums q (a + 1) l = some l') :
    uniqueLoop irrnums q a (q :: l) = some (occurrenceWord irrnums (q, a) :: l') := by
  rw [uniqueLoop, if_pos rfl, hrest]
  cases a with
  | zero => rfl
  | succ a =>
    have hget : irrnums[a]? = some irrnums[a] := List.getElem?_eq_getElem ha
    have hhead := keptWord_head hq (hirr _ (List.getElem_mem ha))
    simp only [if_pos (Nat.succ_pos a), Nat.add_sub_cancel, hget, Option.bind_eq_bind,
      Option.bind_some, hhead, occurrenceWord, List.getD_eq_getElem _ _ ha]
    rfl

/-- The scan for `q` when no word of another element is `q`. -/
theorem uniqueLoop_numbered (seen l done : List POLY)
    (hirr : ∀ g ∈ irrnums, Irreducible (poly [g])) (hq : Irreducible (poly [q]))
    (hpos : ∀ a, (q, a) ∈ numberedFrom seen l → a ≤ irrnums.length)
    (hfree : ∀ x ∈ numberedFrom seen l, scanned irrnums done x = q ↔ x.1 = q) :
    uniqueLoop irrnums q (seen.count q) ((numberedFrom seen l).map (scanned irrnums done)) =
      some ((numberedFrom seen l).map (scanned irrnums (q :: done))) := by
  induction l generalizing seen with
  | nil => rfl
  | cons p l ih =>
    rw [numberedFrom] at hpos hfree ⊢
    have hrest := ih (p :: seen) (fun a ha => hpos a (List.mem_cons_of_mem _ ha))
      (fun x hx => hfree x (List.mem_cons_of_mem _ hx))
    have hhead := hfree _ List.mem_cons_self
    rw [List.map_cons, List.map_cons]
    by_cases hp : p = q
    · subst hp
      rw [List.count_cons_self] at hrest
      rw [hhead.2 rfl, scanned, if_pos List.mem_cons_self]
      exact uniqueLoop_occurrence hirr hq (hpos _ List.mem_cons_self) hrest
    · rw [List.count_cons_of_ne hp] at hrest
      have hsame : scanned irrnums (q :: done) (p, seen.count p) =
          scanned irrnums done (p, seen.count p) := by
        simp only [scanned, List.mem_cons, hp, false_or]
      rw [uniqueLoop, if_neg (fun h => hp (hhead.1 h)), hrest, hsame]
      rfl

theorem uniqueLoop_cons {l l' : List POLY} (h : uniqueLoop irrnums q count (p :: l) = some l') :
    ∃ p' rest, l' = p' :: rest ∧
      (p = q ∧ uniqueLoop irrnums q (count + 1) l = some rest ∧ (count = 0 → p' = p) ∨
        p ≠ q ∧ uniqueLoop irrnums q count l = some rest ∧ p' = p) := by
  rw [uniqueLoop] at h
  split at h
  · next hp =>
    simp only at h
    split at h
    · next hpos =>
      obtain ⟨g, -, h⟩ := Option.bind_eq_some_iff.1 h
      obtain ⟨p', -, h⟩ := Option.bind_eq_some_iff.1 h
      obtain ⟨rest, hrest, h⟩ := Option.bind_eq_some_iff.1 h
      exact ⟨p', rest, (Option.some.inj h).symm, .inl ⟨hp, hrest, fun h0 => by omega⟩⟩
    · obtain ⟨p', hp', h⟩ := Option.bind_eq_some_iff.1 h
      obtain ⟨rest, hrest, h⟩ := Option.bind_eq_some_iff.1 h
      exact ⟨p', rest, (Option.some.inj h).symm,
        .inl ⟨hp, hrest, fun _ => (Option.some.inj hp').symm⟩⟩
  · next hp =>
    obtain ⟨rest, hrest, h⟩ := Option.bind_eq_some_iff.1 h
    exact ⟨p, rest, (Option.some.inj h).symm, .inr ⟨hp, hrest, rfl⟩⟩

theorem uniqueLoop_keeps {l l' : List POLY} {i : Nat} {x : POLY}
    (h : uniqueLoop irrnums q count l = some l') (hi : l[i]? = some x) (hx : x ≠ q) :
    l'[i]? = some x := by
  induction l generalizing count i l' with
  | nil => cases hi
  | cons p l ih =>
    obtain ⟨p', rest, rfl, hcases⟩ := uniqueLoop_cons h
    cases i with
    | zero =>
      obtain rfl : p = x := Option.some.inj hi
      rcases hcases with ⟨hp, -, -⟩ | ⟨-, -, rfl⟩
      · exact (hx hp).elim
      · rfl
    | succ i =>
      rw [List.getElem?_cons_succ] at hi ⊢
      rcases hcases with ⟨-, hrest, -⟩ | ⟨-, hrest, -⟩
      · exact ih hrest hi
      · exact ih hrest hi

theorem uniqueLoop_first {l l' : List POLY} (h : uniqueLoop irrnums q 0 l = some l')
    (hmem : q ∈ l) : l'[l.idxOf q]? = some q := by
  induction l generalizing l' with
  | nil => cases hmem
  | cons p l ih =>
    obtain ⟨p', rest, rfl, ⟨rfl, -, hp'⟩ | ⟨hp, hrest, -⟩⟩ := uniqueLoop_cons h
    · rw [List.idxOf_cons_self, hp' rfl]
      rfl
    · rw [List.idxOf_cons_ne l hp]
      exact ih hrest ((List.mem_cons.1 hmem).resolve_left (Ne.symm hp))

/-- The scans for the elements of `qs`, one after the other. -/
def scans (irrnums : List POLY) (qs : List POLY) (l : List POLY) : Option (List POLY) :=
  qs.foldlM (fun outputPols polNum => uniqueLoop irrnums polNum 0 outputPols) l

theorem getUniqueSet_eq (t : Lsh) (hs : sig.Pairwise (· ≤ ·)) :
    t.getUniqueSet sig = scans t.irrnums sig.dedup sig := by
  rw [Lsh.getUniqueSet, hs.destutter_eq_dedup]
  rfl

theorem scans_keeps {l l' : List POLY} {i : Nat} {x : POLY} (h : scans irrnums qs l = some l')
    (hi : l[i]? = some x) (hx : x ∉ qs) : l'[i]? = some x := by
  induction qs generalizing l with
  | nil => rwa [← Option.some.inj h]
  | cons q qs ih =>
    obtain ⟨l₁, hq, hqs⟩ := Option.bind_eq_some_iff.1 h
    exact ih hqs (uniqueLoop_keeps hq hi (List.ne_of_not_mem_cons hx))
      (List.not_mem_of_not_mem_cons hx)

end Scan

section Run

variable {irrnums : List POLY} {sig : Sig}

/-- The vector when the elements in `done` have been scanned for. -/
def scannedSig (irrnums done : List POLY) (sig : Sig) : List POLY :=
  (numbered sig).map (scanned irrnums done)

/-- No word of an element in `done` is `q`. -/
def Free (irrnums done : List POLY) (sig : Sig) (q : POLY) : Prop :=
  ∀ x ∈ numbered sig, x.1 ∈ done → occurrenceWord irrnums x ≠ q

theorem Repeats.scan (h : Repeats irrnums sig) (hq : q ∈ sig) (hdone : q ∉ done)
    (hfree : Free irrnums done sig q) : uniqueLoop irrnums q 0 (scannedSig irrnums done sig) =
      some (scannedSig irrnums (q :: done) sig) := by
  refine uniqueLoop_numbered [] sig done h.factor (h.element q hq) ?_ ?_
  · intro a ha
    have hlt := mem_numbered.1 ha
    have hle := h.count q
    omega
  · intro x hx
    rw [scanned]
    split
    · next hmem =>
      refine ⟨fun heq => (hfree x hx hmem heq).elim, ?_⟩
      rintro rfl
      exact (hdone hmem).elim
    · rfl

theorem scannedSig_nil (irrnums : List POLY) (sig : Sig) : scannedSig irrnums [] sig = sig := by
  have hfst : scanned irrnums [] = Prod.fst := by
    funext x
    rw [scanned, if_neg List.not_mem_nil]
  rw [scannedSig, hfst, numbered, map_fst_numberedFrom]

theorem Repeats.scans_words (qs done : List POLY) (h : Repeats irrnums sig)
    (hinj : ∀ x ∈ numbered sig, ∀ y ∈ numbered sig,
      occurrenceWord irrnums x = occurrenceWord irrnums y → x = y)
    (hqs : ∀ q ∈ qs, q ∈ sig ∧ q ∉ done) (hnd : qs.Nodup) :
    scans irrnums qs (scannedSig irrnums done sig) =
      some (scannedSig irrnums (qs.reverse ++ done) sig) := by
  induction qs generalizing done with
  | nil => rfl
  | cons q qs ih =>
    obtain ⟨hq, hdone⟩ := hqs q List.mem_cons_self
    obtain ⟨hnew, hnd⟩ := List.nodup_cons.1 hnd
    have hfree : Free irrnums done sig q := by
      intro x hx hmem heq
      have hx0 := hinj x hx (q, 0) (mem_numbered.2 (List.count_pos_iff.2 hq)) heq
      rw [hx0] at hmem
      exact hdone hmem
    have hrest := ih (q :: done) (fun r hr =>
      ⟨(hqs r (List.mem_cons_of_mem q hr)).1, fun hmem => (List.mem_cons.1 hmem).elim
        (fun he => hnew (he ▸ hr)) (hqs r (List.mem_cons_of_mem q hr)).2⟩) hnd
    rw [List.reverse_cons, List.append_assoc, List.singleton_append, ← hrest]
    exact congrArg (· >>= _) (h.scan hq hdone hfree)

/-- If a word is an element that is still to be scanned for, this element is found too early: the
result has it in front of its first occurrence. -/
theorem Repeats.early (h : Repeats irrnums sig) (hdone : ∀ p ∈ done, p < q) (hqs : q ∉ qs)
    (hx : x ∈ numbered sig) (hmem : x.1 ∈ done) (heq : occurrenceWord irrnums x = q)
    (hrun : scans irrnums (q :: qs) (scannedSig irrnums done sig) = some out) :
    ∃ i, i < sig.idxOf q ∧ out[i]? = some q := by
  obtain ⟨l₁, hscan, hrest⟩ := Option.bind_eq_some_iff.1 hrun
  obtain ⟨i, hi⟩ := List.mem_iff_getElem?.1 hx
  have hget : (scannedSig irrnums done sig)[i]? = some q := by
    rw [scannedSig, List.getElem?_map, hi, Option.map_some, scanned, if_pos hmem, heq]
  have hfst : sig[i]? = some x.1 := by
    rw [← map_fst_numberedFrom [] sig, List.getElem?_map, ← numbered, hi, Option.map_some]
  have hlt : i < sig.idxOf q := by
    by_contra hle
    have hlen := (List.getElem?_eq_some_iff.1 hfst).1
    have hidx : sig.idxOf q < sig.length := by omega
    have hq : sig[sig.idxOf q] = q := List.getElem_idxOf hidx
    have hle' : sig[sig.idxOf q] ≤ sig[i] := by
      rcases (show sig.idxOf q = i ∨ sig.idxOf q < i by omega) with heq | hlt
      · simp only [heq, BitVec.le_refl]
      · exact List.pairwise_iff_getElem.1 h.sorted _ _ hidx hlen hlt
    rw [hq, (List.getElem?_eq_some_iff.1 hfst).2] at hle'
    exact BitVec.not_lt.2 hle' (hdone _ hmem)
  have hmemq := List.mem_of_getElem? hget
  refine ⟨_, ?_, scans_keeps hrest (uniqueLoop_first hscan hmemq) hqs⟩
  apply lt_of_le_of_lt _ hlt
  by_contra hlt'
  obtain ⟨hlen, hval⟩ := List.getElem?_eq_some_iff.1 hget
  exact beq_eq_false_iff_ne.1 (List.not_of_lt_findIdx (Nat.not_le.1 hlt')) hval

/-- If no element stands in front of its first occurrence in the end, no scan found one too early. -/
theorem Repeats.scans_late (h : Repeats irrnums sig) (hlt : ∀ p ∈ done, ∀ q ∈ qs, p < q)
    (hsorted : qs.Pairwise (· < ·)) (hqs : ∀ q ∈ qs, q ∈ sig)
    (hlate : ∀ q ∈ sig, ∀ i < sig.idxOf q, out[i]? ≠ some q)
    (hrun : scans irrnums qs (scannedSig irrnums done sig) = some out) :
    out = scannedSig irrnums (qs.reverse ++ done) sig := by
  induction qs generalizing done with
  | nil => exact (Option.some.inj hrun).symm
  | cons q qs ih =>
    obtain ⟨hq, hsorted⟩ := List.pairwise_cons.1 hsorted
    have hdone : ∀ p ∈ done, p < q := fun p hp => hlt p hp q List.mem_cons_self
    have hmemq := hqs q List.mem_cons_self
    have hfree : Free irrnums done sig q := by
      intro x hx hmem heq
      obtain ⟨i, hi, hout⟩ :=
        h.early hdone (fun hmem => BitVec.lt_irrefl _ (hq q hmem)) hx hmem heq hrun
      exact hlate q hmemq i hi hout
    have hscan := h.scan hmemq (fun hmem => BitVec.lt_irrefl _ (hdone q hmem)) hfree
    obtain ⟨l₁, hl₁, hrest⟩ := Option.bind_eq_some_iff.1 hrun
    obtain rfl := Option.some.inj (hscan.symm.trans hl₁)
    rw [List.reverse_cons, List.append_assoc, List.singleton_append]
    refine ih ?_ hsorted (fun r hr => hqs r (List.mem_cons_of_mem q hr)) hrest
    intro p hp r hr
    rcases List.mem_cons.1 hp with rfl | hp
    · exact hq r hr
    · exact hlt p hp r (List.mem_cons_of_mem q hr)

theorem Repeats.dedup_sorted (h : Repeats irrnums sig) : sig.dedup.Pairwise (· < ·) := by
  have hle := h.sorted.sublist (List.dedup_sublist sig)
  refine (hle.and (List.nodup_dedup sig)).imp ?_
  rintro a b ⟨hab, hne⟩
  exact BitVec.not_le.1 fun hba => hne (BitVec.le_antisymm hab hba)

theorem scannedSig_dedup (irrnums : List POLY) (sig : Sig) :
    scannedSig irrnums (sig.dedup.reverse ++ []) sig =
      (numbered sig).map (occurrenceWord irrnums) := by
  apply List.map_congr_left
  rintro ⟨p, a⟩ hx
  have hmem : p ∈ sig := List.count_pos_iff.1 (Nat.zero_lt_of_lt (mem_numbered.1 hx))
  rw [scanned, if_pos (by simpa using hmem)]

/-- A signature becomes a set if and only if the words of its occurrences differ. -/
theorem Repeats.becomesSet_words (t : Lsh) (h : Repeats t.irrnums sig) : BecomesSet t sig ↔
    ∀ x ∈ numbered sig, ∀ y ∈ numbered sig,
      occurrenceWord t.irrnums x = occurrenceWord t.irrnums y → x = y := by
  rw [BecomesSet, getUniqueSet_eq t h.sorted]
  have hnil := scannedSig_nil t.irrnums sig
  constructor
  · rintro ⟨out, hout, hlen, hnd, hfirst⟩
    have hrun : scans t.irrnums sig.dedup (scannedSig t.irrnums [] sig) = some out := by
      rw [hnil, hout]
    have hlate : ∀ q ∈ sig, ∀ i < sig.idxOf q, out[i]? ≠ some q := by
      intro q hq i hi hget
      have hilt := (List.getElem?_eq_some_iff.1 hget).1
      have heq := (List.getElem?_inj hilt hnd).1 (hget.trans (hfirst q hq).symm)
      omega
    have heq := h.scans_late (fun p hp => absurd hp List.not_mem_nil) h.dedup_sorted
      (fun q hq => List.mem_dedup.1 hq) hlate hrun
    rw [heq, scannedSig_dedup] at hnd
    intro x hx y hy hxy
    exact List.inj_on_of_nodup_map hnd hx hy hxy
  · intro hinj
    have hrun := h.scans_words sig.dedup [] hinj
      (fun q hq => ⟨List.mem_dedup.1 hq, List.not_mem_nil⟩) (List.nodup_dedup sig)
    rw [hnil, scannedSig_dedup] at hrun
    refine ⟨_, hrun, ?_, (nodup_numberedFrom [] sig).map_on hinj, ?_⟩
    · rw [List.length_map, numbered, length_numberedFrom]
    · intro p hp
      rw [List.getElem?_map, numbered, numberedFrom_idxOf [] hp]
      rfl

end Run

section Clash

/-- The occurrence with the number `a + 1` is multiplied by `g`. -/
def IsRepeat (irrnums : List POLY) (sig : Sig) (p : POLY) (a : Nat) (g : POLY) : Prop :=
  a + 1 < sig.count p ∧ irrnums[a]? = some g

/-- What makes the words differ: two elements are not multiplied by each other, and the first word of
a product of two words is neither an element nor the word of another product. -/
structure NoClash (irrnums : List POLY) (sig : Sig) : Prop where
  crossed : ∀ p q a b, IsRepeat irrnums sig p a q → IsRepeat irrnums sig q b p → p = q
  element : ∀ p a g, IsRepeat irrnums sig p a g → 31 < fullDegree [p] + fullDegree [g] →
    keptWord p g ∉ sig
  product : ∀ p a g q b f, IsRepeat irrnums sig p a g → IsRepeat irrnums sig q b f →
    31 < fullDegree [p] + fullDegree [g] → keptWord p g = keptWord q f → p = q ∧ a = b

theorem poly_keptWord (hp : Irreducible (poly [p])) (hg : Irreducible (poly [g]))
    (hlen : fullDegree [p] + fullDegree [g] ≤ 31) :
    poly [keptWord p g] = poly [p] * poly [g] := by
  have hnp := normalized_of_irreducible hp
  have hng := normalized_of_irreducible hg
  obtain ⟨hn, hpoly⟩ := multiplyPoly_spec hnp hng
  obtain ⟨n, hn', hdegp⟩ := degree_eq_fullDegree hnp
  obtain ⟨m, hm', hdegg⟩ := degree_eq_fullDegree hng
  obtain ⟨k, hk, hlow, -⟩ := length_le_degree hn
  have hsum : k = n + m := by
    rw [hpoly, degree_mul, hdegp, hdegg] at hk
    exact_mod_cast hk.symm
  have hpos := List.length_pos_of_ne_nil hn.ne_nil
  obtain ⟨w, hw⟩ := List.length_eq_one_iff.1
    (show (multiplyPoly [p] [g]).length = 1 by omega)
  rw [← hpoly, keptWord, hw]
  rfl

theorem keptWord_comm (hp : Irreducible (poly [p])) (hg : Irreducible (poly [g])) :
    keptWord p g = keptWord g p := by
  have hnp := normalized_of_irreducible hp
  have hng := normalized_of_irreducible hg
  obtain ⟨hn, hpoly⟩ := multiplyPoly_spec hnp hng
  obtain ⟨hn', hpoly'⟩ := multiplyPoly_spec hng hnp
  rw [keptWord, keptWord, hn.eq_of_poly hn' (by rw [hpoly, hpoly', mul_comm])]

theorem eq_of_dvd_irreducible (hp : Irreducible (poly [p])) (hq : Irreducible (poly [q]))
    (h : poly [p] ∣ poly [q]) : p = q :=
  word_ext (eq_of_dvd_of_dvd h (hp.associated_of_dvd hq h).symm.dvd)

theorem not_irreducible_keptWord (hp : Irreducible (poly [p])) (hg : Irreducible (poly [g]))
    (hlen : fullDegree [p] + fullDegree [g] ≤ 31) : ¬ Irreducible (poly [keptWord p g]) := by
  intro h
  rw [poly_keptWord hp hg hlen] at h
  rcases h.isUnit_or_isUnit rfl with hu | hu
  · exact hp.not_isUnit hu
  · exact hg.not_isUnit hu

theorem factors_of_keptWord (hp : Irreducible (poly [p])) (hg : Irreducible (poly [g]))
    (hq : Irreducible (poly [q])) (hf : Irreducible (poly [f]))
    (hpg : fullDegree [p] + fullDegree [g] ≤ 31) (hqf : fullDegree [q] + fullDegree [f] ≤ 31)
    (h : keptWord p g = keptWord q f) : p = q ∧ g = f ∨ p = f ∧ g = q := by
  have hprod : poly [p] * poly [g] = poly [q] * poly [f] := by
    rw [← poly_keptWord hp hg hpg, ← poly_keptWord hq hf hqf, h]
  rcases hp.prime.dvd_or_dvd (hprod ▸ dvd_mul_right _ _) with hd | hd
  · obtain rfl := eq_of_dvd_irreducible hp hq hd
    exact .inl ⟨rfl, word_ext (mul_left_cancel₀ hp.ne_zero hprod)⟩
  · obtain rfl := eq_of_dvd_irreducible hp hf hd
    rw [mul_comm (poly [q])] at hprod
    exact .inr ⟨rfl, word_ext (mul_left_cancel₀ hp.ne_zero hprod)⟩

theorem Repeats.isRepeat (h : Repeats irrnums sig) (hx : (p, a + 1) ∈ numbered sig) :
    ∃ g, IsRepeat irrnums sig p a g ∧ Irreducible (poly [p]) ∧ Irreducible (poly [g]) ∧
      occurrenceWord irrnums (p, a + 1) = keptWord p g := by
  have hlt := mem_numbered.1 hx
  have hlen : a < irrnums.length := by
    have hcount := h.count p
    omega
  have hmem : p ∈ sig := List.count_pos_iff.1 (Nat.zero_lt_of_lt hlt)
  refine ⟨irrnums[a], ⟨hlt, List.getElem?_eq_getElem hlen⟩, h.element p hmem,
    h.factor _ (List.getElem_mem hlen), ?_⟩
  rw [occurrenceWord, List.getD_eq_getElem _ _ hlen]

theorem IsRepeat.word (h : IsRepeat irrnums sig p a g) :
    (p, a + 1) ∈ numbered sig ∧ occurrenceWord irrnums (p, a + 1) = keptWord p g := by
  refine ⟨mem_numbered.2 h.1, ?_⟩
  rw [occurrenceWord, List.getD_eq_getElem?_getD, h.2]
  rfl

theorem Repeats.noClash (h : Repeats irrnums sig)
    (hinj : ∀ x ∈ numbered sig, ∀ y ∈ numbered sig,
      occurrenceWord irrnums x = occurrenceWord irrnums y → x = y) : NoClash irrnums sig := by
  refine ⟨?_, ?_, ?_⟩
  · intro p q a b hp hq
    obtain ⟨hmem, hword⟩ := hp.word
    obtain ⟨hmem', hword'⟩ := hq.word
    obtain ⟨g, -, hirr, -, -⟩ := h.isRepeat hmem
    obtain ⟨f, -, hirr', -, -⟩ := h.isRepeat hmem'
    have heq := hinj _ hmem _ hmem' (by rw [hword, hword', keptWord_comm hirr hirr'])
    exact congrArg Prod.fst heq
  · intro p a g hp _ hsig
    obtain ⟨hmem, hword⟩ := hp.word
    have hfirst : (keptWord p g, 0) ∈ numbered sig := mem_numbered.2 (List.count_pos_iff.2 hsig)
    exact nomatch congrArg Prod.snd (hinj _ hmem _ hfirst hword)
  · intro p a g q b f hp hq _ heq
    obtain ⟨hmem, hword⟩ := hp.word
    obtain ⟨hmem', hword'⟩ := hq.word
    have hpair := hinj _ hmem _ hmem' (by rw [hword, hword', heq])
    obtain ⟨rfl, hab⟩ := Prod.mk.inj hpair
    exact ⟨rfl, Nat.succ.inj hab⟩

theorem Repeats.repeat_ne (h : Repeats irrnums sig) (hno : NoClash irrnums sig)
    (hx : (p, a + 1) ∈ numbered sig) (hq : (q, 0) ∈ numbered sig) :
    occurrenceWord irrnums (p, a + 1) ≠ q := by
  obtain ⟨g, hrep, hp, hg, hword⟩ := h.isRepeat hx
  have hmem : q ∈ sig := List.count_pos_iff.1 (mem_numbered.1 hq)
  rw [hword]
  rintro rfl
  by_cases hlen : 31 < fullDegree [p] + fullDegree [g]
  · exact hno.element p a g hrep hlen hmem
  · exact not_irreducible_keptWord hp hg (by omega) (h.element _ hmem)

theorem Repeats.repeats_ne (h : Repeats irrnums sig) (hno : NoClash irrnums sig)
    (hx : (p, a + 1) ∈ numbered sig) (hy : (q, b + 1) ∈ numbered sig)
    (heq : occurrenceWord irrnums (p, a + 1) = occurrenceWord irrnums (q, b + 1)) :
    p = q ∧ a = b := by
  obtain ⟨g, hrep, hp, hg, hword⟩ := h.isRepeat hx
  obtain ⟨f, hrep', hq, hf, hword'⟩ := h.isRepeat hy
  rw [hword, hword'] at heq
  by_cases hlen : 31 < fullDegree [p] + fullDegree [g]
  · exact hno.product p a g q b f hrep hrep' hlen heq
  by_cases hlen' : 31 < fullDegree [q] + fullDegree [f]
  · obtain ⟨hqp, hba⟩ := hno.product q b f p a g hrep' hrep hlen' heq.symm
    exact ⟨hqp.symm, hba.symm⟩
  have hindex : ∀ i j : Nat, irrnums[i]? = some g → irrnums[j]? = some g → i = j := by
    intro i j hi hj
    exact (List.getElem?_inj (List.getElem?_eq_some_iff.1 hi).1 h.nodup).1 (hi.trans hj.symm)
  rcases factors_of_keptWord hp hg hq hf (by omega) (by omega) heq with ⟨rfl, rfl⟩ | ⟨rfl, rfl⟩
  · exact ⟨rfl, hindex a b hrep.2 hrep'.2⟩
  · obtain rfl := hno.crossed p g a b hrep hrep'
    exact ⟨rfl, hindex a b hrep.2 hrep'.2⟩

theorem Repeats.words_differ (h : Repeats irrnums sig) (hno : NoClash irrnums sig) :
    ∀ x ∈ numbered sig, ∀ y ∈ numbered sig,
      occurrenceWord irrnums x = occurrenceWord irrnums y → x = y := by
  rintro ⟨p, _ | a⟩ hx ⟨q, _ | b⟩ hy heq
  · exact congrArg (·, 0) heq
  · exact (h.repeat_ne hno hy hx heq.symm).elim
  · exact (h.repeat_ne hno hx hy heq).elim
  · obtain ⟨rfl, rfl⟩ := h.repeats_ne hno hx hy heq
    rfl

/-- A sorted signature becomes a set if and only if no words clash. -/
theorem getUniqueSet_iff (t : Lsh) (h : Repeats t.irrnums sig) :
    BecomesSet t sig ↔ NoClash t.irrnums sig :=
  (h.becomesSet_words t).trans ⟨h.noClash, h.words_differ⟩

theorem irreducible_of_fullDegree (hp : p ≠ 0) (h : fullDegree [p] = 1) : Irreducible (poly [p]) := by
  obtain ⟨n, hn, hdeg⟩ := degree_eq_fullDegree (show Normalized [p] from hp)
  obtain rfl : n = 1 := by omega
  exact irreducible_of_degree_eq_one hdeg

theorem linear_repeats (hn : irrnums.Nodup) (hs : sig.Pairwise (· ≤ ·)) (hne : sig ≠ [])
    (hirr : ∀ g ∈ irrnums, g = 2 ∨ g = 3) (hsig : ∀ p ∈ sig, p = 2 ∨ p = 3)
    (h2 : sig.count 2 ≤ irrnums.length + 1) (h3 : sig.count 3 ≤ irrnums.length + 1) :
    Repeats irrnums sig := by
  have hlinear : ∀ p : POLY, p = 2 ∨ p = 3 → Irreducible (poly [p]) := by
    rintro p (rfl | rfl)
    · exact irreducible_of_fullDegree (by decide) (by decide)
    · exact irreducible_of_fullDegree (by decide) (by decide)
  refine ⟨hn, fun g hg => hlinear g (hirr g hg), fun p hp => hlinear p (hsig p hp), hs, hne, ?_⟩
  intro p
  by_cases hp : p ∈ sig
  · rcases hsig p hp with rfl | rfl
    · exact h2
    · exact h3
  · rw [List.count_eq_zero_of_not_mem hp]
    exact Nat.zero_le _

theorem getUniqueSet_iff_two : BecomesSet ⟨2, 1, 1, 0, [2], [], [], 7⟩ [2, 2] := by
  have hrep : Repeats [2] [2, 2] := linear_repeats (by decide) (by decide) (by decide) (by simp)
    (by simp) (by decide) (by decide)
  have honly : ∀ p a g, IsRepeat [2] [2, 2] p a g → p = 2 ∧ a = 0 ∧ g = 2 := by
    intro p a g ⟨hcount, hget⟩
    have hle := hrep.count p
    rw [List.length_singleton] at hle
    obtain rfl : a = 0 := by omega
    have hmem : p ∈ [2, 2] := List.count_pos_iff.1 (by omega)
    exact ⟨by simpa using hmem, rfl, (Option.some.inj hget).symm⟩
  refine (getUniqueSet_iff _ hrep).2 ⟨?_, ?_, ?_⟩
  · intro p q a b hp hq
    rw [(honly p a q hp).1, (honly q b p hq).1]
  · intro p a g hp hlen
    obtain ⟨rfl, -, rfl⟩ := honly p a g hp
    exact absurd hlen (by decide)
  · intro p a g q b f hp hq _ _
    rw [(honly p a g hp).1, (honly p a g hp).2.1, (honly q b f hq).1, (honly q b f hq).2.1]
    exact ⟨rfl, rfl⟩

/-- The third 2 and the second 3 both become X² + X. -/
theorem getUniqueSet_clash : Repeats [2, 3] [2, 2, 2, 3, 3] ∧
    Lsh.getUniqueSet ⟨5, 1, 1, 0, [2, 3], [], [], 7⟩ [2, 2, 2, 3, 3] = some [2, 4, 6, 3, 6] ∧
      ¬ BecomesSet ⟨5, 1, 1, 0, [2, 3], [], [], 7⟩ [2, 2, 2, 3, 3] := by
  have hout : Lsh.getUniqueSet ⟨5, 1, 1, 0, [2, 3], [], [], 7⟩ [2, 2, 2, 3, 3] =
      some [2, 4, 6, 3, 6] := by decide +kernel
  refine ⟨linear_repeats (by decide) (by decide) (by decide) (by simp) (by simp) (by decide)
    (by decide), hout, ?_⟩
  rintro ⟨out, h, -, hnd, -⟩
  obtain rfl := Option.some.inj (hout.symm.trans h)
  exact absurd hnd (by decide)

end Clash

end XGossip
