import XGossip.Index.Encode
import XGossip.Index.Lcm

namespace XGossip
set_option autoImplicit true

open Codec Gf2

/-- A node with the representation invariant of a stored block. -/
structure StoredNode (srv : Server) where
  key : List Byte
  int : Interval
  entries : List (List Byte × Sig)
  nodup : (entries.map Prod.fst).Nodup
  length_le : entries.length ≤ srv.MAXENTRIES
  header_fits : (headerBytes key int).length < 2 ^ 31
  entry_fits : ∀ e ∈ entries, (elemBytes e).length < 2 ^ 31

def StoredNode.block (n : StoredNode srv) : Block :=
  headerBytes n.key n.int :: n.entries.map elemBytes

/-- The block under a key, which is empty until its header has been written. -/
def storedBlock : Option (StoredNode srv) → Block
  | none => []
  | some n => n.block

def updateTypes : List InsertType :=
  [.UPDATE, .UPDATEIFPRESENT, .UPDATEVAL, .UPDATEVALIFPRESENT, .REPLACESIG]

/-- The types whose messages combine signatures with `lcm`. -/
def lcmTypes : List InsertType := [.UPDATE, .UPDATEIFPRESENT]

inductive IndexMsg (srv : Server) where
  | update (type : InsertType) (key : List Byte) (sig : Sig) (ht : type ∈ updateTypes)
  | header (type : InsertType) (key : List Byte) (int : Interval)
      (ht : type ∈ [InsertType.UPDATEHDRLOCK, .UPDATEHDR])
  | split (n : StoredNode srv) (ids : List Int) (hids : 0 ∉ ids)
  | splitSpecial (n : StoredNode srv) (ids : List Int) (hids : 0 ∉ ids)

def IndexMsg.elem : IndexMsg srv → Option (List Byte)
  | update type key sig _ => makeKeyValue key sig type
  | header type key int _ => makeHeaderMsg key int type
  | split n ids _ => makeSplit n.block ids .SPLIT
  | splitSpecial n ids _ => makeKeyValueSpecial n.block ids .SPLIT

def StoredNode.select (n : StoredNode srv) (ids : List Int) : List (List Byte × Sig) :=
  (ids.filter (0 ≤ ·)).filterMap fun id => n.entries[id.toNat - 1]?

def IndexMsg.keys : IndexMsg srv → List (List Byte)
  | split n ids _ | splitSpecial n ids _ => (n.select ids).map Prod.fst
  | _ => []

/-- Signatures that meet in `lcm` are normalized polynomials other than zero. -/
def IndexMsg.Sigs (b : Option (StoredNode srv)) : IndexMsg srv → Prop
  | update type _ sig _ =>
    type ∈ lcmTypes → Normalized sig ∧ ∀ n ∈ b, ∀ e ∈ n.entries, Normalized e.2
  | _ => True

/-- The two cases in which a split message leaves a node that reads it the other way: all entries
of a full node are deleted, and an empty node is filled up. -/
def IndexMsg.Reverts (m : IndexMsg srv) (b : Option (StoredNode srv)) : Prop :=
  ∃ n ∈ b, (n.entries.length = srv.MAXENTRIES ∧ ∀ e ∈ n.entries, e.1 ∈ m.keys) ∨
    (n.entries = [] ∧ srv.MAXENTRIES ≤ m.keys.length)

section Update

theorem updateMBR_twice (s e : Sig) : updateMBR (updateMBR s e) e = updateMBR s e := by
  fun_cases updateMBR s e with
  | case1 s₀ s₁ s e₀ e₁ e =>
    rw [updateMBR]
    have h₀ : (if e₀ < (if e₀ < s₀ then e₀ else s₀) then e₀ else if e₀ < s₀ then e₀ else s₀) =
        if e₀ < s₀ then e₀ else s₀ := by
      split <;> simp_all
    have h₁ : (if e₁ > (if e₁ > s₁ then e₁ else s₁) then e₁ else if e₁ > s₁ then e₁ else s₁) =
        if e₁ > s₁ then e₁ else s₁ := by
      split <;> simp_all
    rw [h₀, h₁]
  | case2 s e h =>
    rw [updateMBR]
    exact h

theorem updateMBR_self (s : Sig) : updateMBR s s = s := by
  match s with
  | [] => rfl
  | [_] => rfl
  | _ :: _ :: _ => simp [updateMBR]

theorem updatedSig_twice (h : type ∈ lcmTypes → Normalized c ∧ Normalized s) :
    updatedSig type (updatedSig type c s) s = updatedSig type c s := by
  simp only [updatedSig]
  split
  · next ht =>
    obtain ⟨hc, hs⟩ := h (by simpa [lcmTypes] using ht)
    exact lcm_self_right hc hs
  · split
    · exact updateMBR_twice c s
    · rfl

theorem updatedSig_self (h : type ∈ lcmTypes → Normalized s) : updatedSig type s s = s := by
  simp only [updatedSig]
  split
  · next ht => exact lcm_self (h (by simpa [lcmTypes] using ht))
  · split
    · exact updateMBR_self s
    · rfl

theorem makeKeyValue_NONE (key : List Byte) (sig : Sig) :
    makeKeyValue key sig .NONE = alloc (elemBytes (key, sig)) := rfl

theorem updateElem_elemBytes (h : (elemBytes e).length < 2 ^ 31) :
    updateElem type k s (elemBytes e) =
      if e.1 = k then (alloc (elemBytes (e.1, updatedSig type e.2 s))).map (·, true)
      else some (elemBytes e, false) := by
  simp only [updateElem, getKeyValue_elemBytes h, Option.bind_eq_bind, Option.bind_some,
    makeKeyValue_NONE]
  split
  · rw [Option.map_eq_bind]
    rfl
  · rfl

theorem updateElem_twice (he : (elemBytes e).length < 2 ^ 31)
    (hs : type ∈ lcmTypes → Normalized e.2 ∧ Normalized s)
    (h : updateElem type k s (elemBytes e) = some r) : updateElem type k s r.1 = some r := by
  rw [updateElem_elemBytes he] at h
  split at h
  · next hk =>
    simp only [alloc, Option.map_eq_some_iff, Option.ite_none_right_eq_some,
      Option.some.injEq] at h
    obtain ⟨_, ⟨hlen, rfl⟩, rfl⟩ := h
    rw [updateElem_elemBytes hlen, if_pos hk]
    simp only [updatedSig_twice hs, alloc, if_pos hlen, Option.map_some]
  · next hk =>
    obtain rfl := Option.some.inj h
    rw [updateElem_elemBytes he, if_neg hk]

theorem mapM_twice {g : α → Option (α × Bool)} {l : List α} {rs : List (α × Bool)}
    (h : ∀ a ∈ l, ∀ r, g a = some r → g r.1 = some r) (hl : l.mapM g = some rs) :
    (rs.map Prod.fst).mapM g = some rs := by
  induction l generalizing rs with
  | nil =>
    simp only [List.mapM_nil, Option.pure_def, Option.some.injEq] at hl
    subst hl
    rfl
  | cons a l ih =>
    simp only [List.mapM_cons, Option.bind_eq_bind, Option.bind_eq_some_iff, Option.pure_def,
      Option.some.injEq] at hl
    obtain ⟨r, hr, rs, hrs, rfl⟩ := hl
    simp only [List.map_cons, List.mapM_cons, h a List.mem_cons_self r hr,
      ih (fun a ha => h a (List.mem_cons_of_mem _ ha)) hrs]
    rfl

theorem adjustUpdate_twice {n : StoredNode srv} (hk : (elemBytes (k, s)).length < 2 ^ 31)
    (hs : type ∈ lcmTypes → Normalized s ∧ ∀ e ∈ n.entries, Normalized e.2)
    (h : adjustUpdate srv type (elemBytes (k, s)) n.block = some (b, .DHASH_OK)) :
    adjustUpdate srv type (elemBytes (k, s)) b = some (b, .DHASH_OK) := by
  have hmem : ∀ a ∈ n.entries.map elemBytes, ∃ e ∈ n.entries, a = elemBytes e := by
    intro a ha
    obtain ⟨e, he, rfl⟩ := List.mem_map.1 ha
    exact ⟨e, he, rfl⟩
  have htwice : ∀ a ∈ n.entries.map elemBytes, ∀ r, updateElem type k s a = some r →
      updateElem type k s r.1 = some r := by
    intro a ha r hr
    obtain ⟨e, he, rfl⟩ := hmem a ha
    exact updateElem_twice (n.entry_fits e he) (fun ht => ⟨(hs ht).2 e he, (hs ht).1⟩) hr
  have hself : updateElem type k s (elemBytes (k, s)) = some (elemBytes (k, s), true) := by
    rw [updateElem_elemBytes hk, if_pos rfl, updatedSig_self fun ht => (hs ht).1, alloc, if_pos hk]
    rfl
  simp only [StoredNode.block, adjustUpdate, getKeyValue_elemBytes hk,
    getHeaderElem_headerBytes n.header_fits, Option.bind_eq_bind, Option.bind_some] at h
  split at h
  · simp at h
  · next h₁ =>
    split at h
    · simp at h
    · next h₂ =>
      obtain ⟨rs, hrs, h⟩ := Option.bind_eq_some_iff.1 h
      have hrs' := mapM_twice htwice hrs
      split at h
      · next hany =>
        simp only [Option.pure_def, Option.some.injEq, Prod.mk.injEq, and_true] at h
        subst h
        simp only [adjustUpdate, getKeyValue_elemBytes hk, getHeaderElem_headerBytes n.header_fits,
          Option.bind_eq_bind, Option.bind_some, if_neg h₁, if_neg h₂, hrs', if_pos hany]
        rfl
      · next hany =>
        split at h
        · next hif =>
          simp only [Option.pure_def, Option.some.injEq, Prod.mk.injEq, and_true] at h
          subst h
          simp only [adjustUpdate, getKeyValue_elemBytes hk,
            getHeaderElem_headerBytes n.header_fits, Option.bind_eq_bind, Option.bind_some,
            if_neg h₁, if_neg h₂, hrs', if_neg hany, if_pos hif]
          rfl
        · next hif =>
          split at h
          · simp at h
          · simp only [Option.pure_def, Option.some.injEq, Prod.mk.injEq, and_true] at h
            subst h
            have happ : (rs.map Prod.fst ++ [elemBytes (k, s)]).mapM (updateElem type k s) =
                some (rs ++ [(elemBytes (k, s), true)]) := by
              rw [List.mapM_append, hrs', List.mapM_cons, hself]
              rfl
            simp only [List.cons_append, adjustUpdate, getKeyValue_elemBytes hk,
              getHeaderElem_headerBytes n.header_fits, Option.bind_eq_bind, Option.bind_some,
              if_neg h₁, if_neg h₂, happ]
            simp

end Update

section Header

theorem narrowInt_twice (c n : Interval) : narrowInt (narrowInt c n) n = narrowInt c n := by
  by_cases h : (n.rn * c.rd).toInt < (n.rd * c.rn).toInt
  · have hn : narrowInt c n = { c with rn := n.rn, rd := n.rd } := if_pos h
    rw [hn, narrowInt, if_neg]
    simp [BitVec.mul_comm]
  · have hn : narrowInt c n = c := if_neg h
    rw [hn, hn]

theorem narrowInt_raiseInt (h : narrowInt c n = c) : narrowInt (raiseInt c n) n = raiseInt c n := by
  by_cases ht : (n.rn * c.rd).toInt < (n.rd * c.rn).toInt
  · have hn : narrowInt c n = { c with rn := n.rn, rd := n.rd } := if_pos ht
    rw [h] at hn
    have hrn : c.rn = n.rn := by
      rw [hn]
    have hrd : c.rd = n.rd := by
      rw [hn]
    rw [hrn, hrd, BitVec.mul_comm] at ht
    omega
  · exact if_neg ht

theorem raiseInt_level (c n : Interval) : (raiseInt c n).level =
    if c.level.toInt < n.level.toInt then n.level else c.level := rfl

theorem raiseInt_twice (c n : Interval) : raiseInt (raiseInt c n) n = raiseInt c n := by
  have hlevel : ¬ (raiseInt c n).level.toInt < n.level.toInt := by
    rw [raiseInt_level]
    split <;> omega
  have hrandom : n.level = (raiseInt c n).level ∧ (raiseInt c n).level = 0 ∧ n.random = -1 →
      n.random = (raiseInt c n).random := by
    intro h
    exact (if_pos h).symm
  generalize raiseInt c n = y at *
  have hfirst : ¬ (y.level = 0 ∧ n.level = 1 ∧ y.random = -1) := by
    rintro ⟨h₀, h₁, -⟩
    rw [h₀, h₁] at hlevel
    exact hlevel (by decide)
  simp only [raiseInt, if_neg hfirst, if_neg hlevel]
  split
  · next h => rw [hrandom h]
  · rfl

theorem updateInt_twice (r : Bool) (c n : Interval) :
    updateInt r (updateInt r c n) n = updateInt r c n := by
  cases r with
  | false =>
    simp only [updateInt, Bool.false_eq_true, if_false]
    exact narrowInt_twice c n
  | true =>
    have h := narrowInt_raiseInt (narrowInt_twice c n)
    simp only [updateInt, if_true]
    rw [h, raiseInt_twice]

theorem updateInt_left (r : Bool) (c n : Interval) :
    (updateInt r c n).ln = c.ln ∧ (updateInt r c n).ld = c.ld := by
  have h : (narrowInt c n).ln = c.ln ∧ (narrowInt c n).ld = c.ld := by
    rw [narrowInt]
    split <;> exact ⟨rfl, rfl⟩
  cases r <;> exact h

theorem adjustHeader_twice {o : Option (StoredNode srv)}
    (hk : (headerBytes k int).length < 2 ^ 31)
    (h : adjustHeader srv type (headerBytes k int) (storedBlock o) = some (b, .DHASH_OK)) :
    ∃ st, adjustHeader srv type (headerBytes k int) b = some (b, st) := by
  cases o with
  | none =>
    rw [storedBlock, adjustHeader] at h
    split at h
    · next hlock =>
      simp only [Option.some.injEq, Prod.mk.injEq, and_true] at h
      subst h
      rw [adjustHeader, getHeaderElem_headerBytes hk]
      exact ⟨.DHASH_NOTFIRST, by simp [hlock]⟩
    · simp at h
  | some n =>
    simp only [storedBlock, StoredNode.block, adjustHeader, getHeaderElem_headerBytes hk,
      getHeaderElem_headerBytes n.header_fits, Option.bind_eq_bind, Option.bind_some] at h
    split at h
    · simp at h
    · next hlock =>
      split at h
      · next hleft =>
        obtain ⟨hdr, hhdr, h⟩ := Option.bind_eq_some_iff.1 h
        simp only [Option.pure_def, Option.some.injEq, Prod.mk.injEq, and_true] at h
        subst h
        have hh : hdr = headerBytes n.key (updateInt (srv.isROOT n.key) n.int int) ∧
            hdr.length < 2 ^ 31 := by
          simp only [makeHeader, alloc, Option.ite_none_right_eq_some, Option.some.injEq] at hhdr
          obtain ⟨hlen, rfl⟩ := hhdr
          exact ⟨rfl, hlen⟩
        obtain ⟨rfl, hlen⟩ := hh
        obtain ⟨hln, hld⟩ := updateInt_left (srv.isROOT n.key) n.int int
        refine ⟨.DHASH_OK, ?_⟩
        simp only [adjustHeader, getHeaderElem_headerBytes hk, getHeaderElem_headerBytes hlen,
          Option.bind_eq_bind, Option.bind_some, if_neg hlock, hln, hld, if_pos hleft,
          updateInt_twice, hhdr]
        rfl
      · simp at h

end Header

section Split

variable {n : StoredNode srv} {keys : List (List Byte)} {items : Block}

def StoredNode.kept (n : StoredNode srv) (keys : List (List Byte)) : List (List Byte × Sig) :=
  n.entries.filter fun e => e.1 ∉ keys

theorem present_elemBytes (h : List.Forall₂ ItemKey keys items) {l : List (List Byte × Sig)}
    (hl : ∀ e ∈ l, (elemBytes e).length < 2 ^ 31) :
    (l.map elemBytes).mapM (fun elem => do
      let (childKey, _) ← getKeyValueStr elem
      return (elem, ← isPresentLoop childKey (items.flatMap strBytes)
        ((items.flatMap strBytes).length + 1) 0)) =
      some (l.map fun e => (elemBytes e, decide (e.1 ∈ keys))) := by
  induction l with
  | nil => rfl
  | cons e l ih =>
    have hp := isPresentLoop_items h (length_items_lt items) e.1 []
    rw [List.nil_append] at hp
    have hp' : isPresentLoop e.1 (items.flatMap strBytes) ((items.flatMap strBytes).length + 1) 0 =
        some (decide (e.1 ∈ keys)) := hp
    rw [List.map_cons, List.mapM_cons, ih fun e he => hl e (List.mem_cons_of_mem _ he),
      getKeyValueStr_elemBytes (hl e List.mem_cons_self)]
    simp only [Option.bind_eq_bind, Option.bind_some, hp', Option.pure_def, List.map_cons]

theorem deleteItems_elemBytes (h : List.Forall₂ ItemKey keys items) {l : List (List Byte × Sig)}
    (hl : ∀ e ∈ l, (elemBytes e).length < 2 ^ 31) :
    deleteItems (items.flatMap strBytes) (l.map elemBytes) =
      some ((l.filter fun e => e.1 ∉ keys).map elemBytes) := by
  rw [deleteItems, present_elemBytes h hl]
  simp only [Option.bind_eq_bind, Option.bind_some, Option.pure_def, List.filter_map, List.map_map,
    Function.comp_def, decide_not]

theorem adjustSplit_full (h : List.Forall₂ ItemKey keys items)
    (hn : n.entries.length = srv.MAXENTRIES) :
    adjustSplit srv (items.flatMap strBytes) n.block =
      some (headerBytes n.key n.int :: (n.kept keys).map elemBytes, .DHASH_OK) := by
  rw [adjustSplit, if_pos (by simp [StoredNode.block, hn]), StoredNode.block, List.tail_cons,
    deleteItems_elemBytes h n.entry_fits]
  rfl

theorem adjustSplit_header (hfits : ∀ item ∈ items, item.length < 2 ^ 31) (hdr : List Byte) :
    adjustSplit srv (items.flatMap strBytes) [hdr] = some (hdr :: items, .DHASH_OK) := by
  have hadd := addItemsLoop_items hfits (length_items_lt items) []
  rw [List.nil_append] at hadd
  have hadd' : addItemsLoop (items.flatMap strBytes) ((items.flatMap strBytes).length + 1) 0 =
      some items := hadd
  have hpos := srv.pos
  rw [adjustSplit, if_neg (by simp; omega), if_pos (by simp), hadd']
  rfl

theorem adjustSplit_middle (h₁ : b.length ≠ 1) (h₂ : b.length ≤ srv.MAXENTRIES) :
    adjustSplit srv body b = some (b, .DHASH_OK) := by
  rw [adjustSplit, if_neg (by omega), if_neg h₁]

theorem getKeyValueStr_itemKey (h : ItemKey key item) (hr : getKeyValueStr item = some r) :
    r.1 = key := by
  obtain ⟨⟨rest, rfl⟩, hlen⟩ := h
  have hkey : key.length < 2 ^ 31 := by
    rw [List.length_append, length_strBytes] at hlen
    omega
  have hp := getStr_parses hkey [] rest
  have h0 : InBuf.at ([] ++ (strBytes key ++ rest)) ([] : List Byte).length =
      ⟨strBytes key ++ rest, 0, []⟩ := rfl
  rw [h0] at hp
  simp only [getKeyValueStr, runReader, bind, StateT.bind, hp, Option.bind_some,
    Option.map_eq_some_iff, Option.bind_eq_some_iff] at hr
  obtain ⟨_, ⟨_, ⟨_, -, hv⟩, rfl⟩, rfl⟩ := hr
  obtain rfl := Option.some.inj hv
  rfl

/-- Every item that is also an entry is deleted. -/
theorem deleteItems_items (h : List.Forall₂ ItemKey keys items)
    (hsub : List.Forall₂ ItemKey ks es) (hks : ∀ k ∈ ks, k ∈ keys)
    (hr : deleteItems (items.flatMap strBytes) es = some l) : l = [] := by
  induction hsub generalizing l with
  | nil =>
    simp only [deleteItems, List.mapM_nil, Option.pure_def, Option.bind_eq_bind,
      Option.bind_some, Option.some.injEq] at hr
    exact hr.symm
  | @cons k e ks es hitem _ ih =>
    simp only [deleteItems, List.mapM_cons, Option.bind_eq_bind, Option.bind_eq_some_iff,
      Option.pure_def, Option.some.injEq] at hr
    obtain ⟨_, ⟨p, ⟨kv, hkv, found, hfound, rfl⟩, ps, hps, rfl⟩, rfl⟩ := hr
    have hp := isPresentLoop_items h (length_items_lt items) kv.1 []
    rw [List.nil_append] at hp
    have hp' : some found = some (decide (kv.1 ∈ keys)) := hfound.symm.trans hp
    rw [getKeyValueStr_itemKey hitem hkv, decide_eq_true (hks k List.mem_cons_self)] at hp'
    obtain rfl := Option.some.inj hp'
    have htail := ih (fun k hk => hks k (List.mem_cons_of_mem _ hk))
      (l := (ps.filter (!·.2)).map Prod.fst) (by
        simp only [deleteItems, Option.bind_eq_bind, Option.pure_def]
        rw [hps]
        rfl)
    simpa using htail

theorem items_fit (h : List.Forall₂ ItemKey keys items) : ∀ item ∈ items, item.length < 2 ^ 31 := by
  induction h with
  | nil => simp
  | cons hitem _ ih => exact List.forall_mem_cons.2 ⟨hitem.2, ih⟩

theorem adjustSplit_full_twice (h : List.Forall₂ ItemKey keys items)
    (hn : n.entries.length = srv.MAXENTRIES) :
    (∃ st, adjustSplit srv (items.flatMap strBytes)
      (headerBytes n.key n.int :: (n.kept keys).map elemBytes) =
        some (headerBytes n.key n.int :: (n.kept keys).map elemBytes, st)) ↔
      ¬ ∀ e ∈ n.entries, e.1 ∈ keys := by
  have hpos := srv.pos
  by_cases hkept : n.kept keys = []
  · have hall : ∀ e ∈ n.entries, e.1 ∈ keys := by
      intro e he
      simpa using List.filter_eq_nil_iff.1 hkept e he
    have hitems : items ≠ [] := by
      rintro rfl
      obtain ⟨e, he⟩ := List.exists_mem_of_length_pos (hn ▸ hpos)
      have hkeys := h.length_eq
      have := hall e he
      rw [List.length_eq_zero_iff.1 hkeys] at this
      simp at this
    rw [hkept, List.map_nil, adjustSplit_header (items_fit h)]
    refine iff_of_false ?_ (not_not.2 hall)
    rintro ⟨st, hst⟩
    simp [hitems] at hst
  · have hall : ¬ ∀ e ∈ n.entries, e.1 ∈ keys := by
      intro hall
      apply hkept
      rw [StoredNode.kept, List.filter_eq_nil_iff]
      intro e he
      simpa using hall e he
    refine iff_of_true ⟨.DHASH_OK, ?_⟩ hall
    by_cases hsame : (n.kept keys).length = n.entries.length
    · have heq : n.kept keys = n.entries := List.filter_sublist.eq_of_length hsame
      have hfull := adjustSplit_full h hn
      rw [heq] at hfull ⊢
      exact hfull
    · have hle : (n.kept keys).length ≤ n.entries.length := List.length_filter_le _ _
      have hne : (n.kept keys).length ≠ 0 := by
        rwa [ne_eq, List.length_eq_zero_iff]
      apply adjustSplit_middle
      · simpa using hkept
      · rw [List.length_cons, List.length_map]
        omega

theorem adjustSplit_header_twice (h : List.Forall₂ ItemKey keys items) (hdr : List Byte) :
    (∃ st, adjustSplit srv (items.flatMap strBytes) (hdr :: items) = some (hdr :: items, st)) ↔
      ¬ srv.MAXENTRIES ≤ keys.length := by
  have hpos := srv.pos
  have hlen := h.length_eq
  by_cases hfull : srv.MAXENTRIES ≤ keys.length
  · refine iff_of_false ?_ (not_not.2 hfull)
    rintro ⟨st, hst⟩
    rw [adjustSplit, if_pos (by simp; omega)] at hst
    simp only [Option.bind_eq_bind, Option.bind_eq_some_iff, List.tail_cons, Option.pure_def,
      Option.some.injEq, Prod.mk.injEq] at hst
    obtain ⟨l, hl, hst, -⟩ := hst
    rw [deleteItems_items h h (fun k hk => hk) hl] at hst
    have : items = [] := by simpa using hst.symm
    rw [this, List.length_nil] at hlen
    omega
  · refine iff_of_true ⟨.DHASH_OK, ?_⟩ hfull
    by_cases hnil : items = []
    · subst hnil
      exact adjustSplit_header (items_fit h) hdr
    · apply adjustSplit_middle
      · simpa using hnil
      · rw [List.length_cons]
        omega

/-- A split message can be repeated unless it reverts itself. -/
theorem adjustSplit_twice (h : List.Forall₂ ItemKey keys items) {o : Option (StoredNode srv)}
    (hacc : adjustSplit srv (items.flatMap strBytes) (storedBlock o) = some (b, .DHASH_OK)) :
    (∃ st, adjustSplit srv (items.flatMap strBytes) b = some (b, st)) ↔
      ¬ ∃ n ∈ o, (n.entries.length = srv.MAXENTRIES ∧ ∀ e ∈ n.entries, e.1 ∈ keys) ∨
        (n.entries = [] ∧ srv.MAXENTRIES ≤ keys.length) := by
  have hpos := srv.pos
  cases o with
  | none =>
    rw [storedBlock, adjustSplit_middle (by simp) (by simp)] at hacc
    obtain ⟨rfl, -⟩ := Prod.mk.inj (Option.some.inj hacc)
    exact iff_of_true ⟨_, adjustSplit_middle (by simp) (by simp)⟩ (by simp)
  | some n =>
    simp only [Option.mem_def, Option.some.injEq, exists_eq_left']
    rw [storedBlock] at hacc
    have hle := n.length_le
    by_cases hfull : n.entries.length = srv.MAXENTRIES
    · rw [adjustSplit_full h hfull] at hacc
      obtain ⟨rfl, -⟩ := Prod.mk.inj (Option.some.inj hacc)
      have hne : n.entries ≠ [] := by
        intro h0
        rw [h0, List.length_nil] at hfull
        omega
      rw [adjustSplit_full_twice h hfull]
      simp [hfull, hne]
    · by_cases hnil : n.entries = []
      · rw [StoredNode.block, hnil, List.map_nil, adjustSplit_header (items_fit h)] at hacc
        obtain ⟨rfl, -⟩ := Prod.mk.inj (Option.some.inj hacc)
        rw [adjustSplit_header_twice h]
        simp [hnil, hpos.ne]
      · have hone : n.block.length ≠ 1 := by simpa [StoredNode.block] using hnil
        have hlen : n.block.length ≤ srv.MAXENTRIES := by
          simp only [StoredNode.block, List.length_cons, List.length_map]
          omega
        have hmid : adjustSplit srv (items.flatMap strBytes) n.block = some (n.block, .DHASH_OK) :=
          adjustSplit_middle hone hlen
        rw [hmid] at hacc
        obtain ⟨rfl, -⟩ := Prod.mk.inj (Option.some.inj hacc)
        exact iff_of_true ⟨_, hmid⟩ (by simp [hfull, hnil])

end Split

section Messages

theorem adjustData_elem (ht : type ∉ gossipTypes) (body : List Byte) (old : Block) :
    adjustData srv [intBytes type.code ++ body] old =
      adjustNode srv type.code (intBytes type.code ++ body) old := by
  have hread := run_append (getInt_parses type.code) body
  obtain ⟨r, hr, hr₁⟩ := Option.map_eq_some_iff.1 hread
  have hg : type.code ∉ gossipTypes.map InsertType.code := by
    intro hmem
    obtain ⟨t, ht', hcode⟩ := List.mem_map.1 hmem
    exact ht (InsertType.code_injective hcode ▸ ht')
  simp only [adjustData, List.head?_cons, Option.bind_eq_bind, Option.bind_some, hr]
  rw [hr₁, if_neg hg, if_neg (by simp)]

theorem drop_type (type : InsertType) (body : List Byte) :
    (intBytes type.code ++ body).drop 4 = body := List.drop_left' (length_intBytes _)

theorem adjustData_update (ht : type ∈ updateTypes) (body : List Byte) (old : Block) :
    adjustData srv [intBytes type.code ++ body] old = adjustUpdate srv type body old := by
  simp only [updateTypes, List.mem_cons, List.not_mem_nil, or_false] at ht
  rcases ht with rfl | rfl | rfl | rfl | rfl <;>
    rw [adjustData_elem (by decide)] <;>
    simp only [adjustNode, drop_type, InsertType.code_inj, reduceCtorEq, if_true, if_false]

theorem adjustData_header (ht : type ∈ [InsertType.UPDATEHDRLOCK, .UPDATEHDR]) (body : List Byte)
    (old : Block) :
    adjustData srv [intBytes type.code ++ body] old = adjustHeader srv type body old := by
  simp only [List.mem_cons, List.not_mem_nil, or_false] at ht
  rcases ht with rfl | rfl <;>
    rw [adjustData_elem (by decide)] <;>
    simp only [adjustNode, drop_type, InsertType.code_inj, reduceCtorEq, if_true, if_false]

theorem adjustData_split (body : List Byte) (old : Block) :
    adjustData srv [intBytes InsertType.SPLIT.code ++ body] old = adjustSplit srv body old := by
  rw [adjustData_elem (by decide)]
  simp only [adjustNode, drop_type, InsertType.code_inj, reduceCtorEq, if_true, if_false]

theorem alloc_eq_some (h : alloc bs = some elem) : elem = bs ∧ bs.length < 2 ^ 31 := by
  simp only [alloc, Option.ite_none_right_eq_some, Option.some.injEq] at h
  exact ⟨h.2.symm, h.1⟩

theorem makeKeyValue_eq_some (ht : type ∈ updateTypes) (h : makeKeyValue key sig type = some elem) :
    elem = intBytes type.code ++ elemBytes (key, sig) ∧ (elemBytes (key, sig)).length < 2 ^ 31 := by
  have hNONE : type ≠ .NONE := by
    rintro rfl
    exact absurd ht (by decide)
  rw [makeKeyValue, if_neg hNONE] at h
  obtain ⟨rfl, hlen⟩ := alloc_eq_some h
  rw [List.length_append] at hlen
  exact ⟨rfl, lt_of_le_of_lt (Nat.le_add_left _ _) hlen⟩

theorem makeHeaderMsg_eq_some (h : makeHeaderMsg key int type = some elem) :
    elem = intBytes type.code ++ headerBytes key int ∧ (headerBytes key int).length < 2 ^ 31 := by
  obtain ⟨rfl, hlen⟩ := alloc_eq_some h
  rw [List.length_append] at hlen
  exact ⟨rfl, lt_of_le_of_lt (Nat.le_add_left _ _) hlen⟩

/-- The ids of a split message select entries, and never the header. -/
theorem selectIds_block {n : StoredNode srv} (hids : 0 ∉ ids)
    (h : selectIds n.block ids = some items) : items = (n.select ids).map elemBytes := by
  have hpos : ∀ id ∈ ids.filter (0 ≤ ·), 0 < id := by
    intro id hid
    obtain ⟨hmem, hle⟩ := List.mem_filter.1 hid
    have hne : id ≠ 0 := fun h0 => hids (h0 ▸ hmem)
    have hle' : 0 ≤ id := by simpa using hle
    omega
  rw [selectIds] at h
  rw [StoredNode.select]
  generalize ids.filter (0 ≤ ·) = l at h hpos
  induction l generalizing items with
  | nil =>
    simp only [List.mapM_nil, Option.pure_def, Option.some.injEq] at h
    exact h.symm
  | cons id l ih =>
    simp only [List.mapM_cons, Option.bind_eq_bind, Option.bind_eq_some_iff, Option.pure_def,
      Option.some.injEq] at h
    obtain ⟨item, hitem, items, hitems, rfl⟩ := h
    obtain ⟨k, hk⟩ : ∃ k, id.toNat = k + 1 := ⟨id.toNat - 1, by
      have := hpos id List.mem_cons_self
      omega⟩
    rw [hk, StoredNode.block, List.getElem?_cons_succ, List.getElem?_map,
      Option.map_eq_some_iff] at hitem
    obtain ⟨e, he, rfl⟩ := hitem
    have htail := ih hitems fun id hid => hpos id (List.mem_cons_of_mem _ hid)
    rw [List.filterMap_cons_some (by rw [hk, Nat.add_sub_cancel]; exact he), List.map_cons, htail]

theorem StoredNode.select_fits (n : StoredNode srv) (ids : List Int) :
    ∀ e ∈ n.select ids, (elemBytes e).length < 2 ^ 31 := by
  intro e he
  obtain ⟨id, -, hid⟩ := List.mem_filterMap.1 he
  exact n.entry_fits e (List.mem_of_getElem? hid)

theorem forall₂_elemBytes {l : List (List Byte × Sig)} (h : ∀ e ∈ l, (elemBytes e).length < 2 ^ 31) :
    List.Forall₂ ItemKey (l.map Prod.fst) (l.map elemBytes) := by
  induction l with
  | nil => exact .nil
  | cons e l ih =>
    rw [List.forall_mem_cons] at h
    exact .cons (elemBytes_itemKey h.1) (ih h.2)

theorem forall₂_strBytes {l : List (List Byte × Sig)} (h : ∀ e ∈ l, (elemBytes e).length < 2 ^ 31) :
    List.Forall₂ ItemKey (l.map Prod.fst) ((l.map Prod.fst).map strBytes) := by
  induction l with
  | nil => exact .nil
  | cons e l ih =>
    rw [List.forall_mem_cons, length_elemBytes] at h
    refine .cons (strBytes_itemKey ?_) (ih h.2)
    rw [length_strBytes]
    omega

theorem keys_elemBytes {l : List (List Byte × Sig)} (h : ∀ e ∈ l, (elemBytes e).length < 2 ^ 31) :
    (l.map elemBytes).mapM (fun e => (getKeyValueStr e).map Prod.fst) =
      some (l.map Prod.fst) := by
  induction l with
  | nil => rfl
  | cons e l ih =>
    rw [List.forall_mem_cons] at h
    rw [List.map_cons, List.mapM_cons, getKeyValueStr_elemBytes h.1, ih h.2]
    rfl

theorem split_items {m : IndexMsg srv} (hm : m.elem = some elem)
    (hs : ∃ n ids hids, m = .split n ids hids ∨ m = .splitSpecial n ids hids) :
    ∃ items, elem = intBytes InsertType.SPLIT.code ++ items.flatMap strBytes ∧
      List.Forall₂ ItemKey m.keys items := by
  obtain ⟨n, ids, hids, rfl | rfl⟩ := hs
  · simp only [IndexMsg.elem, makeSplit, Option.bind_eq_bind, Option.bind_eq_some_iff] at hm
    obtain ⟨items, hitems, hm⟩ := hm
    obtain rfl := selectIds_block hids hitems
    exact ⟨_, (alloc_eq_some hm).1, forall₂_elemBytes (n.select_fits ids)⟩
  · simp only [IndexMsg.elem, makeKeyValueSpecial, Option.bind_eq_bind,
      Option.bind_eq_some_iff] at hm
    obtain ⟨items, hitems, keys, hkeys, hm⟩ := hm
    obtain rfl := selectIds_block hids hitems
    rw [keys_elemBytes (n.select_fits ids)] at hkeys
    obtain rfl := Option.some.inj hkeys
    exact ⟨_, (alloc_eq_some hm).1, forall₂_strBytes (n.select_fits ids)⟩

theorem not_reverts_of_no_keys {m : IndexMsg srv} (hm : m.keys = []) (o : Option (StoredNode srv)) :
    ¬ m.Reverts o := by
  have hpos := srv.pos
  rintro ⟨n, -, ⟨hlen, hall⟩ | ⟨-, hle⟩⟩
  · obtain ⟨e, he⟩ := List.exists_mem_of_length_pos (hlen ▸ hpos)
    have hmem := hall e he
    rw [hm] at hmem
    simp at hmem
  · rw [hm, List.length_nil] at hle
    omega

/-- A message that has been accepted leaves the block alone when it is sent again, unless it is a
split message that the block, as the message leaves it, reads the other way. -/
theorem adjustData_twice {m : IndexMsg srv} {o : Option (StoredNode srv)} (hs : m.Sigs o)
    (hm : m.elem = some elem)
    (hacc : adjustData srv [elem] (storedBlock o) = some (b, .DHASH_OK)) :
    (∃ st, adjustData srv [elem] b = some (b, st)) ↔ ¬ m.Reverts o := by
  have hsplit : (∃ n ids hids, m = .split n ids hids ∨ m = .splitSpecial n ids hids) →
      ((∃ st, adjustData srv [elem] b = some (b, st)) ↔ ¬ m.Reverts o) := by
    intro hsp
    obtain ⟨items, rfl, hitems⟩ := split_items hm hsp
    rw [adjustData_split] at hacc ⊢
    exact adjustSplit_twice hitems hacc
  cases m with
  | update type key sig ht =>
    refine iff_of_true ?_ (not_reverts_of_no_keys rfl o)
    obtain ⟨rfl, hk⟩ := makeKeyValue_eq_some ht hm
    rw [adjustData_update ht] at hacc
    simp only [adjustData_update ht]
    cases o with
    | none => simp [storedBlock, adjustUpdate] at hacc
    | some n =>
      exact ⟨_, adjustUpdate_twice hk (fun ht => ⟨(hs ht).1, (hs ht).2 n rfl⟩) hacc⟩
  | header type key int ht =>
    refine iff_of_true ?_ (not_reverts_of_no_keys rfl o)
    obtain ⟨rfl, hk⟩ := makeHeaderMsg_eq_some hm
    rw [adjustData_header ht] at hacc
    simp only [adjustData_header ht]
    exact adjustHeader_twice hk hacc
  | split n ids hids => exact hsplit ⟨n, ids, hids, .inl rfl⟩
  | splitSpecial n ids hids => exact hsplit ⟨n, ids, hids, .inr rfl⟩

/-- A server whose nodes have two entries, and a full root at level 0. -/
def twoServer : Server := ⟨2, by decide, fun key => key = [82], false, true⟩

def fullRoot : StoredNode twoServer where
  key := [82]
  int := ⟨0, 1, 1, 1, 0, 7⟩
  entries := [([97, 35], [2]), ([98, 35], [3])]
  nodup := by decide
  length_le := by decide
  header_fits := by decide
  entry_fits := by decide

theorem adjustData_twice_update :
    (∃ st, adjustData twoServer [intBytes InsertType.UPDATE.code ++ elemBytes ([97, 35], [6])]
      [headerBytes [82] ⟨0, 1, 1, 1, 0, 7⟩, elemBytes ([97, 35], [6]), elemBytes ([98, 35], [3])] =
        some ([headerBytes [82] ⟨0, 1, 1, 1, 0, 7⟩, elemBytes ([97, 35], [6]),
          elemBytes ([98, 35], [3])], st)) ↔
      ¬ (IndexMsg.update .UPDATE [97, 35] [6] (by decide)).Reverts (some fullRoot) :=
  adjustData_twice (by
    refine fun _ => ⟨by decide, fun n hn => ?_⟩
    obtain rfl := Option.some.inj hn
    decide) (by decide +kernel) (by decide +kernel)

/-- The message that empties a root before its split is not idempotent: sent again, it puts its
keys into the empty root. -/
theorem rootSplit_not_idempotent : ¬ ∀ (srv : Server) (m : IndexMsg srv)
    (o : Option (StoredNode srv)) (elem : List Byte) (b : Block), m.Sigs o → m.elem = some elem →
      adjustData srv [elem] (storedBlock o) = some (b, .DHASH_OK) →
        ∃ st, adjustData srv [elem] b = some (b, st) := by
  intro h
  have hm : (IndexMsg.splitSpecial fullRoot [1, 2] (by decide)).elem =
      some (intBytes InsertType.SPLIT.code ++ [[97, 35], [98, 35]].flatMap (strBytes ∘ strBytes)) := by
    decide +kernel
  have hfirst : adjustData twoServer [intBytes InsertType.SPLIT.code ++
      [[97, 35], [98, 35]].flatMap (strBytes ∘ strBytes)] fullRoot.block =
        some ([headerBytes fullRoot.key fullRoot.int], .DHASH_OK) := by
    decide +kernel
  obtain ⟨st, hst⟩ := h twoServer (.splitSpecial fullRoot [1, 2] (by decide)) (some fullRoot) _ _
    trivial hm hfirst
  have hsecond : adjustData twoServer [intBytes InsertType.SPLIT.code ++
      [[97, 35], [98, 35]].flatMap (strBytes ∘ strBytes)] [headerBytes fullRoot.key fullRoot.int] =
        some ([headerBytes fullRoot.key fullRoot.int, strBytes [97, 35], strBytes [98, 35]],
          .DHASH_OK) := by
    decide +kernel
  rw [hsecond] at hst
  simp at hst

end Messages

end XGossip
