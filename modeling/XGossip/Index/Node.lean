import XGossip.Index.Block
import XGossip.Index.Lcm
import XGossip.Lib.CoverTree
import XGossip.Lib.Prog

namespace XGossip
set_option autoImplicit true

open Codec Gf2

abbrev Key := List Byte

inductive NodeType where
  | LEAF | NONLEAF | ROOT
deriving DecidableEq

/-- A node of the index: its header and the entries behind it. -/
structure Node where
  nodeType : NodeType
  int : Interval
  entries : List (Key × Sig)
deriving DecidableEq

def Node.isLeaf (n : Node) : Bool :=
  n.nodeType = .LEAF ∨ (n.nodeType = .ROOT ∧ n.int.level = 0)

def Node.keys (n : Node) : List Key := n.entries.map Prod.fst

structure Index where
  MAXENTRIES : Nat
  two_le : 2 ≤ MAXENTRIES
  metric : Bool
  rootID : Key
  /-- The printed hash of the name that a level and the left end of an interval give a node. -/
  nodeID : BitVec 32 → BitVec 32 → BitVec 32 → Key
  noHash : ∀ level ln ld, containsHash (nodeID level ln ld) = false

/-- Counted with its header, the node has more than `MAXENTRIES` elements. -/
def Index.full (ix : Index) (n : Node) : Bool := n.entries.length + 1 > ix.MAXENTRIES

inductive Msg where
  | update (type : InsertType) (key : Key) (sig : Sig)
  | updateHdrLock (nodeType : NodeType) (int : Interval)
  | updateHdr (nodeType : NodeType) (int : Interval)
  | split (items : List (Key × Sig))
  | splitSpecial (keys : List Key)
deriving DecidableEq

def updateEntry (type : InsertType) (key : Key) (sig : Sig) (e : Key × Sig) : Key × Sig :=
  if e.1 = key then (e.1, updatedSig type e.2 sig) else e

def serveUpdate (ix : Index) (type : InsertType) (key : Key) (sig : Sig) (n : Node) :
    Node × DhashStat :=
  if n.int.level.toInt > 0 ∧ containsHash key then (n, .DHASH_RETRYINSERT)
  else if n.int.level = 0 ∧ containsHash key ∧ n.int.random = -1 then (n, .DHASH_RETRYINSERT)
  else if key ∈ n.keys then
    ({ n with entries := n.entries.map (updateEntry type key sig) }, .DHASH_OK)
  else if type = .UPDATEIFPRESENT then (n, .DHASH_OK)
  else if ix.full n then (n, .DHASH_FULL)
  else ({ n with entries := n.entries ++ [(key, sig)] }, .DHASH_OK)

/-- Splitting a node: a full node loses the entries with the keys, an empty one takes the items. -/
def serveSplit (ix : Index) (keys : List Key) (items : List (Key × Sig)) (n : Node) : Node :=
  if ix.full n then { n with entries := n.entries.filter fun e => e.1 ∉ keys }
  else if n.entries = [] then { n with entries := items }
  else n

/-- What the server of a node does with a message. An empty node takes keys for entries, which
then have no signature. -/
def serve (ix : Index) : Option Node → Msg → Option Node × DhashStat
  | none, .updateHdrLock nodeType int => (some ⟨nodeType, int, []⟩, .DHASH_OK)
  | none, .update .. => (none, .DHASH_CORRUPTHDR)
  | none, .updateHdr .. => (none, .DHASH_RETRYINSERT)
  | none, .split _ => (none, .DHASH_OK)
  | none, .splitSpecial _ => (none, .DHASH_OK)
  | some n, .updateHdrLock .. => (some n, .DHASH_NOTFIRST)
  | some n, .update type key sig =>
    let (n, stat) := serveUpdate ix type key sig n
    (some n, stat)
  | some n, .updateHdr _ int =>
    if int.ld = n.int.ld ∧ int.ln = n.int.ln then
      (some { n with int := updateInt (n.nodeType = .ROOT) n.int int }, .DHASH_OK)
    else (some n, .DHASH_CORRUPTHDR)
  | some n, .split items => (some (serveSplit ix (items.map Prod.fst) items n), .DHASH_OK)
  | some n, .splitSpecial keys =>
    (some (serveSplit ix keys (keys.map fun key => (key, [])) n), .DHASH_OK)

abbrev Store := Key → Option Node

abbrev Index.deliver (ix : Index) (σ : Store) (key : Key) (msg : Msg) : Store :=
  Prog.deliver (serve ix) σ key msg

def Divides (s t : Sig) : Prop := poly s ∣ poly t

instance : Std.Refl Divides := ⟨fun _ => dvd_rfl⟩

instance : IsTrans Sig Divides := ⟨fun _ _ _ => dvd_trans⟩

def Store.forest (σ : Store) : Forest Key Sig where
  leaf x := ∃ n ∈ σ x, n.isLeaf
  entry x c s := ∃ n ∈ σ x, (c, s) ∈ n.entries

/-- A query for `q` that starts at `x` reports the document `d`. -/
abbrev Reported (σ : Store) (q : Sig) (x d : Key) : Prop := Forest.Reach Divides σ.forest q x d

def Store.Normalized (σ : Store) : Prop :=
  ∀ ⦃x n⦄, σ x = some n → ∀ e ∈ n.entries, Gf2.Normalized e.2

section Forest

variable {ix : Index} {σ : Store}

theorem forest_leaf (h : σ x = some n) : σ.forest.leaf x ↔ n.isLeaf := by
  simp [Store.forest, h]

theorem forest_entry (h : σ x = some n) : σ.forest.entry x c s ↔ (c, s) ∈ n.entries := by
  simp [Store.forest, h]

theorem exists_of_entry (h : σ.forest.entry x c s) : ∃ n, σ x = some n ∧ (c, s) ∈ n.entries := by
  obtain ⟨n, hn, he⟩ := h
  exact ⟨n, hn, he⟩

theorem mem_keys {n : Node} : c ∈ n.keys ↔ ∃ s, (c, s) ∈ n.entries := by
  simp [Node.keys]

theorem isLeaf_congr {n m : Node} (ht : n.nodeType = m.nodeType)
    (hl : n.int.level = m.int.level) : n.isLeaf = m.isLeaf := by
  simp [Node.isLeaf, ht, hl]

theorem forest_leaf_deliver (h : x ≠ key) (msg : Msg) :
    (ix.deliver σ key msg).forest.leaf x ↔ σ.forest.leaf x := by
  simp [Store.forest, Prog.deliver_of_ne h]

theorem forest_entry_deliver (h : x ≠ key) (msg : Msg) :
    (ix.deliver σ key msg).forest.entry x c s ↔ σ.forest.entry x c s := by
  simp [Store.forest, Prog.deliver_of_ne h]

theorem deliver_eq_self (h : (serve ix (σ key) msg).1 = σ key) : ix.deliver σ key msg = σ := by
  rw [Index.deliver, Prog.deliver, h, Function.update_eq_self]

theorem deliver_of_ne (h : x ≠ key) (msg : Msg) : ix.deliver σ key msg x = σ x :=
  Prog.deliver_of_ne h ..

theorem deliver_some (h : (serve ix (σ key) msg).1 = some n) :
    ix.deliver σ key msg key = some n := by
  rw [Index.deliver, Prog.deliver_self, h]

theorem widens_deliver {n n' : Node} (hy : σ y = some n) (hy' : ix.deliver σ y msg y = some n')
    (hleaf : n.isLeaf = n'.isLeaf) (he : n.entries ⊆ n'.entries) :
    Forest.Widens Divides σ.forest (ix.deliver σ y msg).forest := by
  intro x c s hx
  by_cases hxy : x = y
  · subst hxy
    rw [forest_leaf hy, forest_leaf hy', hleaf]
    exact ⟨Iff.rfl, s, (forest_entry hy').2 (he ((forest_entry hy).1 hx)), refl_of Divides s⟩
  · exact ⟨(forest_leaf_deliver hxy msg).symm, s, (forest_entry_deliver hxy msg).2 hx,
      refl_of Divides s⟩

theorem widens_deliver_none (ix : Index) (hy : σ y = none) (msg : Msg) :
    Forest.Widens Divides σ.forest (ix.deliver σ y msg).forest := by
  intro x c s hx
  have hxy : x ≠ y := by
    rintro rfl
    obtain ⟨n, hn, -⟩ := exists_of_entry hx
    simp [hy] at hn
  exact ⟨(forest_leaf_deliver hxy msg).symm, s, (forest_entry_deliver hxy msg).2 hx,
    refl_of Divides s⟩

theorem lock_taken (h : σ x = some n) (nodeType : NodeType) (int : Interval) :
    (serve ix (σ x) (.updateHdrLock nodeType int)).2 = .DHASH_NOTFIRST ∧
      ix.deliver σ x (.updateHdrLock nodeType int) = σ := by
  refine ⟨by rw [h]; rfl, deliver_eq_self ?_⟩
  rw [h]
  rfl

end Forest

section Update

variable {ix : Index}

theorem mem_map_updateEntry {entries : List (Key × Sig)} :
    (c, t) ∈ entries.map (updateEntry type key sig) ↔
      ∃ s, (c, s) ∈ entries ∧ t = if c = key then updatedSig type s sig else s := by
  simp only [List.mem_map, Prod.exists, updateEntry]
  constructor
  · rintro ⟨c', s, he, h⟩
    split at h
    · next hk =>
      obtain ⟨rfl, rfl⟩ := Prod.mk.inj h
      exact ⟨s, he, (if_pos hk).symm⟩
    · next hk =>
      obtain ⟨rfl, rfl⟩ := Prod.mk.inj h
      exact ⟨s, he, (if_neg hk).symm⟩
  · rintro ⟨s, he, rfl⟩
    refine ⟨c, s, he, ?_⟩
    split <;> rfl

theorem keys_map_updateEntry (entries : List (Key × Sig)) :
    (entries.map (updateEntry type key sig)).map Prod.fst = entries.map Prod.fst := by
  rw [List.map_map]
  apply List.map_congr_left
  intro e _
  rw [Function.comp_apply, updateEntry]
  split <;> rfl

/-- The answers to an update, and the node after it. -/
theorem serveUpdate_cases (ix : Index) (type : InsertType) (key : Key) (sig : Sig) (n : Node) :
    (∃ stat, stat ≠ .DHASH_OK ∧ stat ≠ .DHASH_NOTFIRST ∧
      serveUpdate ix type key sig n = (n, stat)) ∨
    (key ∈ n.keys ∧ serveUpdate ix type key sig n =
      ({ n with entries := n.entries.map (updateEntry type key sig) }, .DHASH_OK)) ∨
    (key ∉ n.keys ∧ type = .UPDATEIFPRESENT ∧ serveUpdate ix type key sig n = (n, .DHASH_OK)) ∨
    (key ∉ n.keys ∧ type ≠ .UPDATEIFPRESENT ∧ ix.full n = false ∧
      serveUpdate ix type key sig n =
        ({ n with entries := n.entries ++ [(key, sig)] }, .DHASH_OK)) := by
  simp only [serveUpdate]
  split
  · exact .inl ⟨_, by simp, by simp, rfl⟩
  · split
    · exact .inl ⟨_, by simp, by simp, rfl⟩
    · split
      · next hk => exact .inr (.inl ⟨hk, rfl⟩)
      · next hk =>
        split
        · next ht => exact .inr (.inr (.inl ⟨hk, ht, rfl⟩))
        · next ht =>
          split
          · exact .inl ⟨_, by simp, by simp, rfl⟩
          · next hf => exact .inr (.inr (.inr ⟨hk, ht, by simpa using hf, rfl⟩))

end Update

section Normalized

variable {ix : Index} {σ : Store}

def Msg.Normalized : Msg → Prop
  | .update type _ sig => type ∈ [InsertType.UPDATE, .UPDATEIFPRESENT, .REPLACESIG] ∧
    Gf2.Normalized sig
  | .split items => ∀ e ∈ items, Gf2.Normalized e.2
  | _ => True

theorem updatedSig_normalized (ht : type ∈ [InsertType.UPDATE, .UPDATEIFPRESENT, .REPLACESIG])
    (hs : Gf2.Normalized s) (hsig : Gf2.Normalized sig) :
    Gf2.Normalized (updatedSig type s sig) := by
  simp only [List.mem_cons, List.not_mem_nil, or_false] at ht
  rcases ht with rfl | rfl | rfl
  · exact (lcm_spec hs hsig).1
  · exact (lcm_spec hs hsig).1
  · exact hsig

theorem serveUpdate_normalized {n : Node} (hn : ∀ e ∈ n.entries, Gf2.Normalized e.2)
    (ht : type ∈ [InsertType.UPDATE, .UPDATEIFPRESENT, .REPLACESIG]) (hsig : Gf2.Normalized sig) :
    ∀ e ∈ (serveUpdate ix type key sig n).1.entries, Gf2.Normalized e.2 := by
  rcases serveUpdate_cases ix type key sig n with
    ⟨_, -, -, h⟩ | ⟨-, h⟩ | ⟨-, -, h⟩ | ⟨-, -, -, h⟩
  · rwa [h]
  · rw [h]
    rintro ⟨c, t⟩ he
    obtain ⟨s, hs, rfl⟩ := mem_map_updateEntry.1 he
    dsimp only
    split
    · exact updatedSig_normalized ht (hn _ hs) hsig
    · exact hn _ hs
  · rwa [h]
  · rw [h]
    intro e he
    rcases List.mem_append.1 he with he | he
    · exact hn e he
    · rw [List.mem_singleton.1 he]
      exact hsig

theorem deliver_normalized (hσ : σ.Normalized) {msg : Msg} (hm : msg.Normalized)
    (hkeys : ∀ keys, msg = .splitSpecial keys → ∀ n, σ y = some n → n.entries ≠ []) :
    (ix.deliver σ y msg).Normalized := by
  intro x n hx
  by_cases hxy : x = y
  · subst hxy
    rw [Index.deliver, Prog.deliver_self] at hx
    cases ho : σ x with
    | none =>
      cases msg with
      | updateHdrLock t int =>
        obtain rfl : Node.mk t int [] = n := by simpa [ho, serve] using hx
        simp
      | _ => simp [ho, serve] at hx
    | some m =>
      have hm' := hσ ho
      cases msg with
      | update type key sig =>
        obtain rfl : (serveUpdate ix type key sig m).1 = n := by simpa [ho, serve] using hx
        exact serveUpdate_normalized hm' hm.1 hm.2
      | updateHdrLock t int =>
        obtain rfl : m = n := by simpa [ho, serve] using hx
        exact hm'
      | updateHdr t int =>
        rw [ho, serve] at hx
        split at hx
        · obtain rfl := Option.some.inj hx
          exact hm'
        · obtain rfl := Option.some.inj hx
          exact hm'
      | split items =>
        obtain rfl : serveSplit ix (items.map Prod.fst) items m = n := by
          simpa [ho, serve] using hx
        rw [serveSplit]
        split
        · exact fun e he => hm' e (List.mem_of_mem_filter he)
        · split
          · exact hm
          · exact hm'
      | splitSpecial keys =>
        obtain rfl : serveSplit ix keys (keys.map fun key => (key, [])) m = n := by
          simpa [ho, serve] using hx
        rw [serveSplit]
        split
        · exact fun e he => hm' e (List.mem_of_mem_filter he)
        · rw [if_neg (hkeys keys rfl m ho)]
          exact hm'
  · rw [deliver_of_ne hxy] at hx
    exact hσ hx

end Normalized

end XGossip
