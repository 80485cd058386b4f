import Mathlib.Data.List.Perm.Subperm
import XGossip.Lib.Occurrences
import XGossip.Wire.Compress

namespace XGossip
set_option autoImplicit true

open Occurrences

section Union

/-- How often a POLY occurs in the signature that has it most often. -/
def mostOften (sigs : List Sig) (p : POLY) : Nat := (sigs.map (List.count p)).foldr max 0

theorem count_le_mostOften (h : s ∈ sigs) : List.count p s ≤ mostOften sigs p := by
  induction sigs with
  | nil => cases h
  | cons t sigs ih =>
    rw [mostOften, List.map_cons, List.foldr_cons, ← mostOften]
    rcases List.mem_cons.1 h with rfl | h
    · exact Nat.le_max_left _ _
    · exact (ih h).trans (Nat.le_max_right _ _)

theorem mostOften_le (h : ∀ s ∈ sigs, List.count p s ≤ n) : mostOften sigs p ≤ n := by
  induction sigs with
  | nil => exact Nat.zero_le n
  | cons t sigs ih =>
    rw [mostOften, List.map_cons, List.foldr_cons, ← mostOften]
    exact Nat.max_le.2 ⟨h t List.mem_cons_self, ih fun s hs => h s (List.mem_cons_of_mem t hs)⟩

end Union

section Encoding

/-- Columns, each a POLY with the signatures that it is for, from which every signature can be put
together: its elements are the POLYs of its columns. -/
def EncodesSigs (sigs : List Sig) (columns : List (POLY × (Nat → Bool))) : Prop :=
  ∀ j s, sigs[j]? = some s → ((columns.filter fun c => c.2 j).map Prod.fst).Perm s

theorem EncodesSigs.mostOften_le (h : EncodesSigs sigs columns) (p : POLY) :
    mostOften sigs p ≤ (columns.map Prod.fst).count p := by
  apply XGossip.mostOften_le
  intro s hs
  obtain ⟨j, hj⟩ := List.mem_iff_getElem?.1 hs
  rw [← (h j s hj).count_eq p]
  exact ((List.filter_sublist (l := columns)).map Prod.fst).count_le p

end Encoding

section Loop

/-- The unread parts of the signatures when the POLYs in `seen` have been passed. -/
structure Unread (sigs : List Sig) (seen : List POLY) (heads : List Sig) : Prop where
  length : heads.length = sigs.length
  sorted : ∀ s ∈ heads, s.Pairwise (· ≤ ·)
  count : ∀ (j : Nat) (s t : Sig), heads[j]? = some s → sigs[j]? = some t →
    ∀ p, s.count p = t.count p - seen.count p

theorem findMinPoly_le (hs : ∀ s ∈ heads, List.Pairwise (· ≤ ·) s) (hmem : s ∈ heads)
    (hp : p ∈ s) : findMinPoly heads ≤ p := by
  obtain ⟨-, -, hle⟩ := findMinPoly_foldl heads 0xffffffff
  cases s with
  | nil => cases hp
  | cons q s =>
    have hq := BitVec.not_lt.1 (hle _ hmem q rfl)
    rcases List.mem_cons.1 hp with rfl | hp
    · exact hq
    · exact BitVec.le_trans hq ((List.pairwise_cons.1 (hs _ hmem)).1 p hp)

theorem head?_eq_findMinPoly (hs : ∀ s ∈ heads, List.Pairwise (· ≤ ·) s) (hmem : s ∈ heads) :
    s.head? = some (findMinPoly heads) ↔ 0 < s.count (findMinPoly heads) := by
  rw [List.count_pos_iff]
  cases s with
  | nil => exact ⟨nofun, nofun⟩
  | cons q s =>
    rw [List.head?_cons, Option.some.injEq]
    constructor
    · rintro rfl
      exact List.mem_cons_self
    · intro hin
      have hle := findMinPoly_le hs hmem (List.mem_cons_self (a := q))
      rcases List.mem_cons.1 hin with heq | hin
      · exact heq.symm
      · exact BitVec.le_antisymm ((List.pairwise_cons.1 (hs _ hmem)).1 _ hin) hle

/-- Taking the least POLY off passes one of its occurrences in every signature. -/
theorem Unread.step (h : Unread sigs seen heads) : Unread sigs (findMinPoly heads :: seen)
    (compressRow (findMinPoly heads) heads).2 := by
  have hrest : (compressRow (findMinPoly heads) heads).2 =
      heads.map fun s => if s.head? = some (findMinPoly heads) then s.tail else s := rfl
  refine ⟨?_, ?_, ?_⟩
  · rw [hrest, List.length_map, h.length]
  · intro s hs
    rw [hrest] at hs
    obtain ⟨t, ht, rfl⟩ := List.mem_map.1 hs
    split
    · exact (h.sorted t ht).sublist (List.tail_sublist t)
    · exact h.sorted t ht
  · intro j s t hs ht p
    rw [hrest, List.getElem?_map] at hs
    obtain ⟨u, hu, rfl⟩ := Option.map_eq_some_iff.1 hs
    have hmem := List.mem_of_getElem? hu
    have hhead := head?_eq_findMinPoly h.sorted hmem
    have hcount := h.count j u t hu ht p
    by_cases hp : p = findMinPoly heads
    · subst hp
      rw [List.count_cons_self]
      split
      · next heq =>
        rw [List.count_tail, if_pos (by simpa using heq)]
        omega
      · next hne =>
        have hzero := mt hhead.2 hne
        omega
    · rw [List.count_cons_of_ne (Ne.symm hp), ← hcount]
      split
      · next heq =>
        have hne : ¬ (u.head? == some p) = true := by
          rw [heq, beq_iff_eq, Option.some.injEq]
          exact Ne.symm hp
        rw [List.count_tail, if_neg hne]
        rfl
      · rfl

theorem Unread.finished (h : Unread sigs seen heads) (hall : heads.all List.isEmpty = true)
    (p : POLY) : mostOften sigs p ≤ seen.count p := by
  apply mostOften_le
  intro t ht
  obtain ⟨j, hj⟩ := List.mem_iff_getElem?.1 ht
  have hlt : j < heads.length := h.length ▸ (List.getElem?_eq_some_iff.1 hj).1
  have hnil := List.all_eq_true.1 hall _ (List.getElem_mem hlt)
  have hcount := h.count j _ t (List.getElem?_eq_getElem hlt) hj p
  rw [List.isEmpty_iff.1 hnil, List.count_nil] at hcount
  omega

theorem Unread.more (h : Unread sigs seen heads) (hmem : s ∈ heads) (hp : 0 < s.count p) :
    seen.count p < mostOften sigs p := by
  obtain ⟨j, hj⟩ := List.mem_iff_getElem?.1 hmem
  have hlt : j < sigs.length := h.length ▸ (List.getElem?_eq_some_iff.1 hj).1
  have hcount := h.count j s _ hj (List.getElem?_eq_getElem hlt) p
  have hle := count_le_mostOften (p := p) (List.getElem_mem hlt)
  omega

theorem Unread.row (h : Unread sigs seen heads) (j : Nat) :
    rowBit (compressRow (findMinPoly heads) heads).1 j = decide (∃ t, sigs[j]? = some t ∧
      seen.count (findMinPoly heads) < t.count (findMinPoly heads)) := by
  rw [(compressRow_spec _ heads).2, decide_eq_decide]
  constructor
  · intro hhead
    obtain ⟨s, hs, hhead⟩ := Option.bind_eq_some_iff.1 hhead
    have hlt : j < sigs.length := h.length ▸ (List.getElem?_eq_some_iff.1 hs).1
    have ht := List.getElem?_eq_getElem hlt
    have hpos := (head?_eq_findMinPoly h.sorted (List.mem_of_getElem? hs)).1 hhead
    have hcount := h.count j s _ hs ht (findMinPoly heads)
    exact ⟨_, ht, by omega⟩
  · rintro ⟨t, ht, hmore⟩
    have hlt : j < heads.length := h.length ▸ (List.getElem?_eq_some_iff.1 ht).1
    have hs := List.getElem?_eq_getElem hlt
    have hcount := h.count j _ t hs ht (findMinPoly heads)
    rw [hs, Option.bind_some]
    exact (head?_eq_findMinPoly h.sorted (List.getElem_mem hlt)).2 (by omega)

theorem exists_mem_of_step {heads : List Sig}
    (h : ∃ s ∈ (compressRow q heads).2, p ∈ s) : ∃ s ∈ heads, p ∈ s := by
  obtain ⟨s, hs, hp⟩ := h
  obtain ⟨t, ht, rfl⟩ := List.mem_map.1 hs
  refine ⟨t, ht, ?_⟩
  split at hp
  · exact List.mem_of_mem_tail hp
  · exact hp

/-- What the loop makes of the unread parts. -/
theorem Unread.loop {rows : List (POLY × List Byte)} (h : Unread sigs seen heads)
    (hloop : compressLoop fuel heads = some rows) :
    (rows.map Prod.fst).Pairwise (· ≤ ·) ∧ (∀ r ∈ rows, ∃ s ∈ heads, r.1 ∈ s) ∧
      (∀ p, (rows.map Prod.fst).count p = mostOften sigs p - seen.count p) ∧
        ∀ (i : Nat) p a r, (numberedFrom seen (rows.map Prod.fst))[i]? = some (p, a) →
          rows[i]? = some r → ∀ j, rowBit r.2 j =
            decide (∃ t, sigs[j]? = some t ∧ a < t.count p) := by
  induction fuel generalizing seen heads rows with
  | zero => cases hloop
  | succ fuel ih =>
    rw [compressLoop] at hloop
    split at hloop
    · next hall =>
      obtain rfl := Option.some.inj hloop
      refine ⟨List.Pairwise.nil, List.forall_mem_nil _, ?_, ?_⟩
      · intro p
        exact (Nat.sub_eq_zero_of_le (h.finished hall p)).symm
      · intro i p a r _ hr
        simp at hr
    · next hall =>
      simp only [Option.bind_eq_bind] at hloop
      obtain ⟨rest, hrest, hrows⟩ := Option.bind_eq_some_iff.1 hloop
      obtain rfl := Option.some.inj hrows
      obtain ⟨hsorted, hmem, hcount, hbits⟩ := ih h.step hrest
      obtain ⟨s, hs, hne⟩ := exists_unread hall
      obtain ⟨s', hs', hhead⟩ := findMinPoly_mem hs hne
      have hpos := (head?_eq_findMinPoly h.sorted hs').1 hhead
      have hmem' : ∀ r ∈ rest, ∃ s ∈ heads, r.1 ∈ s := fun r hr => exists_mem_of_step (hmem r hr)
      refine ⟨?_, ?_, ?_, ?_⟩
      · rw [List.map_cons, List.pairwise_cons]
        refine ⟨?_, hsorted⟩
        intro p hp
        obtain ⟨r, hr, rfl⟩ := List.mem_map.1 hp
        obtain ⟨t, ht, hin⟩ := hmem' r hr
        exact findMinPoly_le h.sorted ht hin
      · intro r hr
        rcases List.mem_cons.1 hr with rfl | hr
        · exact ⟨s', hs', List.count_pos_iff.1 hpos⟩
        · exact hmem' r hr
      · intro p
        have hmore := h.more hs' hpos
        have hp := hcount p
        rw [List.map_cons]
        by_cases heq : p = findMinPoly heads
        · subst heq
          rw [List.count_cons_self] at hp ⊢
          omega
        · rw [List.count_cons_of_ne (Ne.symm heq)] at hp ⊢
          exact hp
      · intro i p a r hi hr j
        cases i with
        | zero =>
          obtain ⟨rfl, rfl⟩ := Prod.mk.inj (Option.some.inj hi)
          obtain rfl := Option.some.inj hr
          exact h.row j
        | succ i => exact hbits i p a r hi hr j

theorem foldl_uncompressStep (rows : List (POLY × List Byte)) (out : List Sig) (j : Nat) :
    (rows.foldl uncompressStep out)[j]? =
      out[j]?.map (· ++ (rows.filter fun r => rowBit r.2 j).map Prod.fst) := by
  induction rows generalizing out with
  | nil => simp
  | cons r rows ih =>
    rw [List.foldl_cons, ih, uncompressStep, List.getElem?_mapIdx, Option.map_map,
      List.filter_cons]
    congr 1
    funext s
    by_cases hbit : rowBit r.2 j = true
    · simp [hbit]
    · simp [hbit]

end Loop

/-- The bitmap of the union: the POLYs are sorted, each as often as in the signature that has it most
often, and in the column of its occurrence number `a` (counted from 0) the bits are those of the
signatures with more than `a` occurrences; the bits behind the last signature are 0. No encoding by
columns has fewer. -/
theorem compressSignatures_union (hne : inputSig ≠ []) (hnil : [] ∉ inputSig)
    (hs : ∀ s ∈ inputSig, List.Pairwise (· ≤ ·) s) :
    ∃ outputSig outputBitmap, compressSignatures inputSig = some (outputSig, outputBitmap) ∧
      outputSig.Pairwise (· ≤ ·) ∧ (∀ p, outputSig.count p = mostOften inputSig p) ∧
        outputBitmap.length = outputSig.length ∧
          (∀ (i : Nat) p a row, (numbered outputSig)[i]? = some (p, a) →
            outputBitmap[i]? = some row → row.length = (inputSig.length + 7) / 8 ∧
              ∀ j, rowBit row j = decide (∃ s, inputSig[j]? = some s ∧ a < s.count p)) ∧
            EncodesSigs inputSig (outputSig.zip (outputBitmap.map rowBit)) ∧
              ∀ columns, EncodesSigs inputSig columns → outputSig.length ≤ columns.length := by
  obtain ⟨rows, hloop, hlen, hout⟩ := compressLoop_spec inputSig (Nat.lt_succ_self _)
  have hstart : Unread inputSig [] inputSig := by
    refine ⟨rfl, hs, ?_⟩
    intro j s t hj ht p
    rw [Option.some.inj (hj.symm.trans ht), List.count_nil, Nat.sub_zero]
  obtain ⟨hsorted, -, hcount, hbits⟩ := hstart.loop hloop
  simp only [List.count_nil, Nat.sub_zero] at hcount
  refine ⟨rows.map Prod.fst, rows.map Prod.snd, ?_, hsorted, hcount, by simp, ?_, ?_, ?_⟩
  · rw [compressSignatures, if_neg (by simp [hne, hnil]), hloop]
    rfl
  · intro i p a row hi hrow
    rw [List.getElem?_map] at hrow
    obtain ⟨r, hr, rfl⟩ := Option.map_eq_some_iff.1 hrow
    exact ⟨hlen r (List.mem_of_getElem? hr), hbits i p a r hi hr⟩
  · intro j s hj
    have hzip : (rows.map Prod.fst).zip ((rows.map Prod.snd).map rowBit) =
        rows.map fun r => (r.1, rowBit r.2) := by
      rw [List.map_map, List.zip_map']
      rfl
    have hlt := (List.getElem?_eq_some_iff.1 hj).1
    have hget := foldl_uncompressStep rows (List.replicate inputSig.length []) j
    rw [hout _ List.length_replicate, List.getElem?_zipWith, List.getElem?_replicate, if_pos hlt,
      hj] at hget
    have hread : s = (rows.filter fun r => rowBit r.2 j).map Prod.fst := by simpa using hget
    rw [hzip, List.filter_map, List.map_map, hread]
    exact List.Perm.refl _
  · intro columns hcolumns
    have hsub : (rows.map Prod.fst).Subperm (columns.map Prod.fst) := by
      rw [List.subperm_ext_iff]
      intro p _
      rw [hcount]
      exact hcolumns.mostOften_le p
    simpa only [List.length_map] using hsub.length_le

theorem compressSignatures_union_two :
    compressSignatures [[3, 3, 5], [3, 7]] =
        some ([3, 3, 5, 7], [[0xc0], [0x80], [0x80], [0x40]]) ∧
      ∀ columns, EncodesSigs [[3, 3, 5], [3, 7]] columns → 4 ≤ columns.length := by
  have hout : compressSignatures [[3, 3, 5], [3, 7]] =
      some ([3, 3, 5, 7], [[0xc0], [0x80], [0x80], [0x40]]) := by decide
  obtain ⟨outputSig, outputBitmap, h, -, -, -, -, -, hleast⟩ :=
    compressSignatures_union (show [[3, 3, 5], [3, 7]] ≠ [] by decide) (by decide) (by decide)
  cases hout.symm.trans h
  exact ⟨hout, hleast⟩

end XGossip
