import Mathlib.Data.Finset.Sort
import Mathlib.Data.List.Find
import Mathlib.Data.List.TakeWhile
import Mathlib.Order.Interval.Finset.Nat
import XGossip.Merkle.Hash

namespace XGossip
set_option autoImplicit true

section Keylist

/-- The keys of a tree. An itree is an ordered set: it is walked through from the smallest key. -/
abbrev Keylist := Finset MerkleHash

def keyLe (a b : MerkleHash) : Prop := a.toNat ≤ b.toNat

instance : DecidableRel keyLe := fun _ _ => inferInstanceAs (Decidable (_ ≤ _))

instance : IsTrans MerkleHash keyLe := ⟨fun _ _ _ => Nat.le_trans⟩

instance : Std.Antisymm keyLe := ⟨fun _ _ h h' => BitVec.eq_of_toNat_eq (Nat.le_antisymm h h')⟩

instance : Std.Total keyLe := ⟨fun _ _ => Nat.le_total _ _⟩

/-- The keys from `first` on, by `next`. -/
def Keylist.sorted (s : Keylist) : List MerkleHash := s.sort keyLe

inductive KeyTree where
  | nil
  | node (left : KeyTree) (id : MerkleHash) (right : KeyTree)

def KeyTree.inorder : KeyTree → List MerkleHash
  | nil => []
  | node left id right => left.inorder ++ id :: right.inorder

/-- The descent of `closestsucc`: the key itself, or the last node `p` on the way to it. -/
def KeyTree.descend (k : Nat) : KeyTree → MerkleHash → MerkleHash
  | nil, p => p
  | node left id right, _ =>
    if k < id.toNat then left.descend k id
    else if k > id.toNat then right.descend k id
    else id

/-- `closestsucc`: the node after the last one on the way wraps around at the end. -/
def KeyTree.closestsucc (t : KeyTree) (k : Nat) : Option MerkleHash :=
  match t with
  | nil => none
  | node _ id _ =>
    let p := t.descend k id
    if k ≤ p.toNat then some p
    else (t.inorder.find? fun n => p.toNat < n.toNat).or t.inorder.head?

/-- The keys from the closest successor of `k` on. -/
def fromClosestsucc (keys : List MerkleHash) (k : Nat) : List MerkleHash :=
  match keys.dropWhile fun n => n.toNat < k with
  | [] => keys
  | cur => cur

def databaseGetKeys (s : Keylist) (depth : Nat) (pre : MerkleHash) : List MerkleHash :=
  (fromClosestsucc s.sorted pre.toNat).takeWhile (prefixMatch depth · pre)

def Keylist.under (s : Keylist) (d : Nat) (p : MerkleHash) : Keylist := s.filter (prefixMatch d · p)

end Keylist

section Operations

inductive MerkleNode where
  | leaf (count : Nat) (hash : MerkleHash)
  | inner (count : Nat) (hash : MerkleHash) (entry : Fin 64 → MerkleNode)

namespace MerkleNode

def count : MerkleNode → Nat
  | leaf count _ => count
  | inner count _ _ => count

def hash : MerkleNode → MerkleHash
  | leaf _ hash => hash
  | inner _ hash _ => hash

def isleaf : MerkleNode → Bool
  | leaf .. => true
  | inner .. => false

def setHash (n : MerkleNode) (hash : MerkleHash) : MerkleNode :=
  match n with
  | leaf count _ => leaf count hash
  | inner count _ entry => inner count hash entry

end MerkleNode

def branch (key : MerkleHash) (depth : Nat) : Fin 64 := ⟨readSlot key depth, readSlot_lt key depth⟩

def allOf (f : Fin 64 → Option α) : Option (Fin 64 → α) :=
  if h : ∀ i, (f i).isSome then some fun i => (f i).get (h i) else none

variable (sha1 : List MerkleHash → MerkleHash)

/-- A failed assertion is `none`. -/
def rehash (do_rehash : Bool) (s : Keylist) (depth : Nat) (key : MerkleHash) (n : MerkleNode) :
    Option MerkleNode :=
  if !do_rehash then some n
  else if n.count = 0 then some (n.setHash 0)
  else
    match n with
    | .leaf count _ =>
      if count ≤ 64 then do
        let pre ← clearSuffix key depth
        return .leaf count (sha1 (databaseGetKeys s depth pre))
      else none
    | .inner count _ entry => some (.inner count (sha1 (List.ofFn fun i => (entry i).hash)) entry)

def countBlocks (s : Keylist) (depth : Nat) (key : MerkleHash) : Option (Fin 64 → Nat) := do
  let pre ← clearSuffix key depth
  return fun i => (databaseGetKeys s depth pre).countP fun k => branch k depth = i

/-- The keys of the leaf are handed on to new leaves, one for each slot. -/
def leaf2internal (do_rehash : Bool) (s : Keylist) (depth : Nat) (key : MerkleHash)
    (n : MerkleNode) : Option MerkleNode := do
  let nblocks ← countBlocks s depth key
  let pre ← clearSuffix key depth
  let entry ← allOf fun i => do
    let pre ← writeSlot pre depth i
    rehash sha1 do_rehash s (depth + 1) pre (.leaf (nblocks i) 0)
  return .inner n.count n.hash entry

/-- `if (n->isleaf () && n->leaf_is_full ()) leaf2internal (depth, key, n);` -/
def makeRoom (do_rehash : Bool) (s : Keylist) (depth : Nat) (key : MerkleHash) (n : MerkleNode) :
    Option MerkleNode :=
  if n.isleaf ∧ n.count = 64 then leaf2internal sha1 do_rehash s depth key n else some n

def addKey (do_rehash : Bool) (s : Keylist) (depth : Nat) (key : MerkleHash) (count : Nat)
    (hash : MerkleHash) : Option (MerkleNode × Keylist) :=
  if key ∈ s then none
  else do
    let s := insert key s
    return (← rehash sha1 do_rehash s depth key (.leaf (count + 1) hash), s)

/-- `insert` of a key below a node that has `left` slots under it. -/
def insertAt (do_rehash : Bool) (key : MerkleHash) : Nat → MerkleNode → Keylist →
    Option (MerkleNode × Keylist)
  | 0, n, s => do
    match ← makeRoom sha1 do_rehash s NUM_SLOTS key n with
    | .leaf count hash => addKey sha1 do_rehash s NUM_SLOTS key count hash
    | .inner .. => none
  | left + 1, n, s => do
    let depth := NUM_SLOTS - (left + 1)
    match ← makeRoom sha1 do_rehash s depth key n with
    | .leaf count hash => addKey sha1 do_rehash s depth key count hash
    | .inner count hash entry =>
      let b := branch key depth
      let (child, s) ← insertAt do_rehash key left (entry b) s
      return (← rehash sha1 do_rehash s depth key
        (.inner (count + 1) hash (Function.update entry b child)), s)

def internal2leaf : MerkleNode → MerkleNode
  | .inner count hash entry => if count ≤ 64 then .leaf count hash else .inner count hash entry
  | n => n

def removeAt (do_rehash : Bool) (key : MerkleHash) : Nat → MerkleNode → Keylist →
    Option (MerkleNode × Keylist)
  | depth, .leaf count hash, s =>
    if key ∈ s ∧ count ≠ 0 then do
      let s := s.erase key
      return (← rehash sha1 do_rehash s depth key (.leaf (count - 1) hash), s)
    else none
  | depth, .inner count hash entry, s => do
    let b := branch key depth
    let (child, s) ← removeAt do_rehash key (depth + 1) (entry b) s
    if count = 0 then none
    else
      let n := internal2leaf (.inner (count - 1) hash (Function.update entry b child))
      return (← rehash sha1 do_rehash s depth key n, s)

/-- `_hash_tree`: hash everything anew, the children first. -/
def hashTreeAt (s : Keylist) : Nat → MerkleHash → MerkleNode → Option MerkleNode
  | depth, pre, .inner count _ entry => do
    let entry ← allOf fun i => do hashTreeAt s (depth + 1) (← writeSlot pre depth i) (entry i)
    return .inner count (if count = 0 then 0 else sha1 (List.ofFn fun i => (entry i).hash)) entry
  | depth, pre, .leaf count _ =>
    if count ≤ 64 then
      some (.leaf count (if count = 0 then 0 else sha1 (databaseGetKeys s depth pre)))
    else none

structure MerkleTree where
  do_rehash : Bool
  keylist : Keylist
  root : MerkleNode

def MerkleTree.empty : MerkleTree := ⟨true, ∅, .leaf 0 0⟩

inductive TreeOp where
  | insert (key : MerkleHash)
  | remove (key : MerkleHash)
  | setRehashOnModification (enable : Bool)
  | hashTree
deriving DecidableEq

def MerkleTree.apply (t : MerkleTree) : TreeOp → Option MerkleTree
  | .insert key =>
    if key ∈ t.keylist then none
    else do
      let (root, keylist) ← insertAt sha1 t.do_rehash key NUM_SLOTS t.root t.keylist
      return { t with root, keylist }
  | .remove key =>
    if key ∉ t.keylist then none
    else do
      let (root, keylist) ← removeAt sha1 t.do_rehash key 0 t.root t.keylist
      return { t with root, keylist }
  | .setRehashOnModification enable => some { t with do_rehash := enable }
  | .hashTree => do return { t with root := ← hashTreeAt sha1 t.keylist 0 0 t.root }

def MerkleTree.run (t : MerkleTree) (ops : List TreeOp) : Option MerkleTree :=
  ops.foldlM (MerkleTree.apply sha1) t

end Operations

section Listing

theorem Keylist.mem_sorted {s : Keylist} : k ∈ s.sorted ↔ k ∈ s := Finset.mem_sort keyLe

theorem Keylist.mem_under {s : Keylist} : k ∈ s.under d p ↔ k ∈ s ∧ prefixMatch d k p :=
  Finset.mem_filter

theorem Keylist.sorted_lt (s : Keylist) : s.sorted.Pairwise fun a b => a.toNat < b.toNat := by
  have h := (s.pairwise_sort keyLe).and (s.sort_nodup keyLe)
  refine h.imp fun {a b} hab => Nat.lt_of_le_of_ne hab.1 fun he => hab.2 ?_
  exact BitVec.eq_of_toNat_eq he

theorem eq_sorted {s : Keylist} {l : List MerkleHash}
    (hl : l.Pairwise fun a b => a.toNat < b.toNat) (hmem : ∀ k, k ∈ l ↔ k ∈ s) : l = s.sorted := by
  have hne : l.Nodup := hl.imp fun {a b} hab he => by simp [he] at hab
  have hperm : l.Perm s.sorted := by
    refine (List.perm_ext_iff_of_nodup hne ?_).2 fun k => (hmem k).trans Keylist.mem_sorted.symm
    exact s.sort_nodup keyLe
  exact List.Perm.eq_of_pairwise (fun a b _ _ h h' => absurd h' (Nat.lt_asymm h)) hl s.sorted_lt hperm

theorem sorted_filter (s : Keylist) (P : MerkleHash → Bool) :
    s.sorted.filter P = Keylist.sorted (s.filter (P ·)) :=
  eq_sorted (s.sorted_lt.filter _) fun k => by
    rw [List.mem_filter, Keylist.mem_sorted, Finset.mem_filter]

theorem length_sorted (s : Keylist) : s.sorted.length = s.card := Finset.length_sort keyLe

theorem takeWhile_of_ge {l : List MerkleHash} (hl : l.Pairwise fun a b => a.toNat < b.toNat)
    (hlo : ∀ k ∈ l, lo ≤ k.toNat) (P : MerkleHash → Bool)
    (hP : ∀ k, P k ↔ lo ≤ k.toNat ∧ k.toNat < hi) : l.takeWhile P = l.filter P := by
  induction l with
  | nil => rfl
  | cons a l ih =>
    obtain ⟨ha, hl⟩ := List.pairwise_cons.1 hl
    cases hPa : P a with
    | true =>
      rw [List.takeWhile_cons_of_pos hPa, List.filter_cons_of_pos hPa,
        ih hl fun k hk => hlo k (List.mem_cons_of_mem _ hk)]
    | false =>
      have hge : hi ≤ a.toNat := by
        by_contra hlt
        have := (hP a).2 ⟨hlo a List.mem_cons_self, by omega⟩
        simp [hPa] at this
      rw [List.takeWhile_cons_of_neg (by simp [hPa]), List.filter_cons_of_neg (by simp [hPa]),
        eq_comm, List.filter_eq_nil_iff]
      intro k hk hPk
      have := ha k hk
      have := (hP k).1 hPk
      omega

theorem takeWhile_fromClosestsucc {l : List MerkleHash}
    (hl : l.Pairwise fun a b => a.toNat < b.toNat) (P : MerkleHash → Bool)
    (hP : ∀ k, P k ↔ lo ≤ k.toNat ∧ k.toNat < hi) :
    (fromClosestsucc l lo).takeWhile P = l.filter P := by
  have hdrop : ∀ l : List MerkleHash, l.Pairwise (fun a b => a.toNat < b.toNat) →
      (l.dropWhile fun n => n.toNat < lo).takeWhile P = l.filter P := by
    intro l hl
    induction l with
    | nil => rfl
    | cons a l ih =>
      by_cases ha : a.toNat < lo
      · have hPa : ¬ P a := fun h => by
          have := (hP a).1 h
          omega
        rw [List.dropWhile_cons_of_pos (by simpa using ha), List.filter_cons_of_neg hPa,
          ih (List.pairwise_cons.1 hl).2]
      · rw [List.dropWhile_cons_of_neg (by simpa using ha)]
        refine takeWhile_of_ge hl (fun k hk => ?_) P hP
        rcases List.mem_cons.1 hk with rfl | hk
        · omega
        · have := (List.pairwise_cons.1 hl).1 k hk
          omega
  have h := hdrop l hl
  rw [fromClosestsucc]
  split
  · next hnil =>
    rw [hnil] at h
    rw [← h, List.takeWhile_nil]
    cases l with
    | nil => rfl
    | cons a l =>
      have ha := of_decide_eq_true (List.dropWhile_eq_nil_iff.1 hnil a List.mem_cons_self)
      exact List.takeWhile_cons_of_neg fun hPa => Nat.not_lt.2 ((hP a).1 hPa).1 ha
  · exact h

theorem databaseGetKeys_eq (s : Keylist) (hp : Clear d p) :
    databaseGetKeys s d p = (s.under d p).sorted :=
  (takeWhile_fromClosestsucc s.sorted_lt _ fun _ => prefixMatch_iff_between hp).trans
    (sorted_filter s _)

theorem card_under_le (s : Keylist) (hp : Clear d p) : (s.under d p).card ≤ 2 ^ width d := by
  have h : Set.MapsTo BitVec.toNat (s.under d p : Set MerkleHash)
      (Finset.Ico p.toNat (p.toNat + 2 ^ width d)) := by
    intro k hk
    have := (prefixMatch_iff_between hp).1 (Keylist.mem_under.1 hk).2
    simpa using this
  have := Finset.card_le_card_of_injOn _ h fun a _ b _ he => BitVec.eq_of_toNat_eq he
  simpa using this

theorem depth_le_of_card {s : Keylist} (hp : Clear d p) (h : 64 < (s.under d p).card) : d ≤ 25 := by
  by_contra hd
  have hw : width d ≤ 4 := by
    rw [width]
    omega
  have := (card_under_le s hp).trans (Nat.pow_le_pow_right (by omega) hw)
  omega

end Listing

section Closestsucc

variable {t left right : KeyTree}

def KeyTree.Ordered (t : KeyTree) : Prop := t.inorder.Pairwise fun a b => a.toNat < b.toNat

/-- The last node on the way to a key is next to it. -/
theorem KeyTree.descend_spec (ht : t.Ordered) (p : MerkleHash) :
    (t = nil ∧ t.descend k p = p) ∨ t.descend k p ∈ t.inorder ∧ ∀ a ∈ t.inorder,
      ((t.descend k p).toNat < k → a.toNat < k → a.toNat ≤ (t.descend k p).toNat) ∧
      (k ≤ (t.descend k p).toNat → k ≤ a.toNat → (t.descend k p).toNat ≤ a.toNat) := by
  induction t generalizing p with
  | nil => exact .inl ⟨rfl, rfl⟩
  | node left id right ihl ihr =>
    obtain ⟨hl, hr, hlr⟩ := List.pairwise_append.1 ht
    obtain ⟨hid, hr⟩ := List.pairwise_cons.1 hr
    have hleft : ∀ a ∈ left.inorder, a.toNat < id.toNat := fun a ha => hlr a ha id List.mem_cons_self
    have hmem : ∀ a, a ∈ (node left id right).inorder ↔
        a ∈ left.inorder ∨ a = id ∨ a ∈ right.inorder := by simp [inorder]
    refine .inr ?_
    rw [descend]
    by_cases hlt : k < id.toNat
    · rw [if_pos hlt]
      rcases ihl hl id with ⟨rfl, he⟩ | ⟨hm, hadj⟩
      · rw [he]
        refine ⟨(hmem id).2 (.inr (.inl rfl)), fun a ha => ⟨fun _ _ => by omega, fun _ _ => ?_⟩⟩
        rcases (hmem a).1 ha with ha | rfl | ha
        · simp [inorder] at ha
        · exact Nat.le_refl _
        · exact Nat.le_of_lt (hid a ha)
      · refine ⟨(hmem _).2 (.inl hm), fun a ha => ?_⟩
        have hr := hleft _ hm
        rcases (hmem a).1 ha with ha | rfl | ha
        · exact hadj a ha
        · exact ⟨fun _ _ => by omega, fun _ _ => by omega⟩
        · have := hid a ha
          exact ⟨fun _ _ => by omega, fun _ _ => by omega⟩
    · rw [if_neg hlt]
      by_cases hgt : k > id.toNat
      · rw [if_pos hgt]
        rcases ihr hr id with ⟨rfl, he⟩ | ⟨hm, hadj⟩
        · rw [he]
          refine ⟨(hmem id).2 (.inr (.inl rfl)), fun a ha => ⟨fun _ _ => ?_, fun _ _ => by omega⟩⟩
          rcases (hmem a).1 ha with ha | rfl | ha
          · exact Nat.le_of_lt (hleft a ha)
          · exact Nat.le_refl _
          · simp [inorder] at ha
        · refine ⟨(hmem _).2 (.inr (.inr hm)), fun a ha => ?_⟩
          have hr := hid _ hm
          rcases (hmem a).1 ha with ha | rfl | ha
          · have := hleft a ha
            exact ⟨fun _ _ => by omega, fun _ _ => by omega⟩
          · exact ⟨fun _ _ => by omega, fun _ _ => by omega⟩
          · exact hadj a ha
      · rw [if_neg hgt]
        exact ⟨(hmem id).2 (.inr (.inl rfl)), fun a ha => ⟨fun _ _ => by omega, fun _ _ => by omega⟩⟩

/-- Whatever its shape, the search in the tree of keys finds where the walk of
`database_get_keys` begins. -/
theorem KeyTree.closestsucc_eq (ht : t.Ordered) (k : Nat) :
    t.closestsucc k = (fromClosestsucc t.inorder k).head? := by
  have hhead : ∀ l : List MerkleHash, (fromClosestsucc l k).head? =
      (l.find? fun n => k ≤ n.toNat).or l.head? := by
    intro l
    have hd := l.find?_not_eq_head?_dropWhile fun n => decide (n.toNat < k)
    have hf : (fun n : MerkleHash => !decide (n.toNat < k)) = fun n => decide (k ≤ n.toNat) := by
      funext n
      rw [← decide_not, decide_eq_decide]
      exact Nat.not_lt
    rw [hf] at hd
    rw [hd, fromClosestsucc]
    cases l.dropWhile fun n => n.toNat < k <;> rfl
  rw [hhead]
  rcases t.descend_spec (k := k) ht 0 with ⟨rfl, -⟩ | ⟨hm, hadj⟩
  · rfl
  · cases t with
    | nil => simp [inorder] at hm
    | node left id right =>
      have hroot : (node left id right).descend k 0 = (node left id right).descend k id := rfl
      rw [hroot] at hm hadj
      rw [closestsucc]
      generalize (node left id right).descend k id = p at hm hadj ⊢
      by_cases hkp : k ≤ p.toNat
      · rw [if_pos hkp, List.find?_eq_some_iff_append.2 ⟨by simpa using hkp, ?_⟩, Option.some_or]
        obtain ⟨as, bs, hab⟩ := List.append_of_mem hm
        refine ⟨as, bs, hab, fun a ha => ?_⟩
        have hlt : a.toNat < p.toNat := by
          rw [Ordered, hab] at ht
          exact (List.pairwise_append.1 ht).2.2 a ha p List.mem_cons_self
        have := (hadj a (by simp [hab, ha])).2 hkp
        simp only [Bool.not_eq_true', decide_eq_false_iff_not]
        omega
      · rw [if_neg hkp, List.find?_congr]
        intro a ha
        have := (hadj a ha).1 (by omega)
        rw [decide_eq_decide]
        omega

end Closestsucc

end XGossip
