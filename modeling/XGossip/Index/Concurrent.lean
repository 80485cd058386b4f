import XGossip.Index.Crash

namespace XGossip
set_option autoImplicit true

open Gf2

abbrev Act := Prog.Event Key Node Msg

def Inserted (r : DHTStatus × FullNodes) : Prop := r.1 = .SUCC

section InsertPhase

variable {ix : Index} {σ : Store} {sig : Sig} {docid : Key}

/-- What is left to do in the nodes of a path, each with the child that was picked in it. -/
inductive Unwinds (ix : Index) (sig : Sig) : List (Key × Key) →
    (DHTStatus × FullNodes → Client (DHTStatus × FullNodes)) → Prop where
  | nil : Unwinds ix sig [] .ret
  | cons : Unwinds ix sig path next →
      Unwinds ix sig ((x, c) :: path) fun r => afterChild ix fuel x n c sig r >>= next

/-- Where an insertion stands: on its way down, at the leaf, or on its way up. -/
inductive Position where
  | down (x : Key) (path : List (Key × Key))
  | leaf (x : Key) (path : List (Key × Key))
  | up (x : Key) (path : List (Key × Key))

inductive InsertPhase (ix : Index) (sig : Sig) (docid : Key) :
    Position → Client (DHTStatus × FullNodes) → Prop where
  | down : Unwinds ix sig path next →
      InsertPhase ix sig docid (.down x path) (insertDocument ix sig docid fuel x >>= next)
  | leaf : Unwinds ix sig path next → InsertPhase ix sig docid (.leaf x path)
      (.send x (.update .UPDATE docid sig) fun stat =>
        (if store_cb stat ≠ .SUCC then .ret (.FAIL, []) else .ret (.SUCC, [])) >>= next)
  | up : Unwinds ix sig path next → InsertPhase ix sig docid (.up x path) (next (.SUCC, fullNodes))

inductive Advances (ix : Index) (sig : Sig) (docid : Key) (σ : Store) :
    Position → Act → Position → Prop where
  | readLeaf : σ x = some n → n.isLeaf = true → ix.full n = false →
      Advances ix sig docid σ (.down x path) (.read x (some n)) (.leaf x path)
  | readInner : σ x = some n → n.isLeaf = false → c ∈ n.keys →
      Advances ix sig docid σ (.down x path) (.read x (some n)) (.down c ((x, c) :: path))
  | put : (serve ix (σ x) (.update .UPDATE docid sig)).2 = .DHASH_OK →
      Advances ix sig docid σ (.leaf x path) (.send x (.update .UPDATE docid sig)) (.up x path)
  | widen : (store_cb (serve ix (σ x) (.update .UPDATEIFPRESENT c sig)).2).failed = false →
      Advances ix sig docid σ (.up y ((x, c) :: path)) (.send x (.update .UPDATEIFPRESENT c sig))
        (.up x path)

theorem avoids_splitFullNodes (fuel : Nat) (pID : Key) (fullNodes : FullNodes) :
    (splitFullNodes ix fuel pID fullNodes).Avoids (· = .SUCC) := by
  induction fullNodes generalizing pID with
  | nil => simp [splitFullNodes, Prog.Avoids]
  | cons e rest ih =>
    refine Prog.bind_avoids _ fun stat => ?_
    split
    · simp [Prog.Avoids]
    · exact ih e.1

theorem avoids_afterChild (hr : ¬ Inserted r) :
    (afterChild ix fuel x n c sig r).Avoids Inserted := by
  obtain ⟨stat, fullNodes⟩ := r
  have hsplit : (do return (← splitFullNodes ix fuel x fullNodes, fullNodes) :
      Client (DHTStatus × FullNodes)).Avoids Inserted :=
    Prog.avoids_bind (avoids_splitFullNodes fuel x fullNodes) fun _ h => h
  cases stat with
  | NODESPLIT =>
    rw [afterChild]
    split
    · exact hr
    · split
      · refine Prog.bind_avoids _ fun stat => ?_
        split
        · simp [Prog.Avoids, Inserted]
        · exact hsplit
      · exact hsplit
  | SUCC => exact (hr rfl).elim
  | _ => exact hr

theorem Unwinds.avoids (h : Unwinds ix sig path next) (hr : ¬ Inserted r) :
    (next r).Avoids Inserted := by
  induction h generalizing r with
  | nil => exact hr
  | cons _ ih => exact Prog.avoids_bind (avoids_afterChild hr) fun _ h => ih h

theorem store_cb_eq_SUCC (h : store_cb stat = .SUCC) : stat = .DHASH_OK := by
  cases stat <;> simp_all [store_cb]

/-- What a step of an insertion can do, unless it makes sure that there will be no success. -/
theorem InsertPhase.does (h : InsertPhase ix sig docid pos b)
    (hs : Prog.Does (serve ix) b σ e b') :
    b'.Avoids Inserted ∨ ∃ pos', InsertPhase ix sig docid pos' b' ∧
      Advances ix sig docid σ pos e pos' := by
  cases h with
  | @down path next x fuel hnext =>
    cases fuel with
    | zero => cases hs
    | succ fuel =>
      have hfail : ∀ {r : DHTStatus × FullNodes}, r.1 ≠ .SUCC → (next r).Avoids Inserted :=
        fun hr => hnext.avoids hr
      cases hs with
      | read =>
        cases hx : σ x with
        | none => exact .inl (hfail (by simp))
        | some n =>
          dsimp only [Prog.bind]
          split
          · next hleaf =>
            split
            · left
              split
              · exact hfail (by simp)
              · refine Prog.avoids_bind (Q := Inserted) (Prog.bind_avoids _ fun stat => ?_)
                  fun _ hr => hfail hr
                split
                · simp [Prog.Avoids, Inserted]
                · simp [Prog.Avoids, Inserted]
            · next hfull =>
              exact .inr ⟨.leaf x path, .leaf hnext, .readLeaf hx hleaf (by simpa using hfull)⟩
          · next hleaf =>
            split
            · exact .inl (hfail (by simp))
            · next hnull =>
              have hc := pickChild_mem hnull
              right
              refine ⟨.down _ ((x, _) :: path), ?_, .readInner hx (by simpa using hleaf) hc⟩
              change InsertPhase ix sig docid _ (_ >>= _ >>= next)
              rw [Prog.bind_assoc]
              exact .down (.cons hnext)
  | leaf hnext =>
    cases hs with
    | send =>
      dsimp only
      split
      · exact .inl (hnext.avoids (by simp [Inserted]))
      · next hstat =>
        exact .inr ⟨_, .up hnext, .put (store_cb_eq_SUCC (by simpa using hstat))⟩
  | up hnext =>
    cases hnext with
    | nil => cases hs
    | cons hnext =>
      cases hs with
      | send =>
        dsimp only [Prog.bind]
        split
        · exact .inl (hnext.avoids (by simp [Inserted]))
        · next hstat => exact .inr ⟨_, .up hnext, .widen (by simpa using hstat)⟩

end InsertPhase

section View

variable {ix : Index} {j : SplitJob} {P : Key} {σ σ' : Store} {k k' : Nat}

theorem SplitJob.Mid.sibling_filled (h : j.Mid ix P k σ) (hk : 2 ≤ k) :
    ∃ m, σ (j.siblingID ix) = some m ∧ m.nodeType = j.node.nodeType ∧
      m.int.level = j.node.int.level ∧ ∀ e ∈ j.items2, ∃ t, (e.1, t) ∈ m.entries ∧ Divides e.2 t := by
  have hs := h.sibling
  rw [SplitJob.Sibling, if_neg (by omega)] at hs
  simpa only [show k ≠ 1 by omega, if_false] using hs

theorem sibling_of_filled (hk : 2 ≤ k) (h : ∃ m, o = some m ∧ m.nodeType = j.node.nodeType ∧
    m.int.level = j.node.int.level ∧ ∀ e ∈ j.items2, ∃ t, (e.1, t) ∈ m.entries ∧ Divides e.2 t) :
    j.Sibling k o := by
  rw [SplitJob.Sibling, if_neg (by omega)]
  simpa only [show k ≠ 1 by omega, if_false] using h

theorem SplitJob.Mid.view_leaf_iff (h : j.Mid ix P k σ) (hx : x = j.siblingID ix → 1 ≤ k) :
    (j.view ix P k σ).leaf x ↔ σ.forest.leaf x := by
  by_cases hM : x = j.siblingID ix
  · exact h.view_leaf (hx hM) x
  · simp [SplitJob.view, hM]

theorem view_sibling : (j.view ix P k σ).entry (j.siblingID ix) c s ↔
    if k < 2 then (c, s) ∈ j.items2 else σ.forest.entry (j.siblingID ix) c s := by
  simp [SplitJob.view]

theorem SplitJob.Mid.view_node (h : j.Mid ix P k σ) :
    (j.view ix P k' σ').entry j.ID c s ↔ σ'.forest.entry j.ID c s ∧ c ∉ j.moved := by
  simp [SplitJob.view, h.sibling_ne_node.symm]

theorem SplitJob.Mid.view_parent (h : j.Mid ix P k σ) :
    (j.view ix P k' σ').entry P c s ↔
      (k' < 3 ∧ c = j.siblingID ix ∧ s = j.groups.lcm2) ∨
      (k' < 4 ∧ c = j.ID ∧ s = j.groups.lcm1) ∨
      (σ'.forest.entry P c s ∧ (k' < 4 → c ≠ j.ID)) := by
  simp [SplitJob.view, h.sibling_ne_parent.symm, h.node_ne_parent.symm]

theorem view_cases (ix : Index) (j : SplitJob) (P x : Key) :
    x = j.siblingID ix ∨ x = j.ID ∨ x = P ∨ (x ≠ j.siblingID ix ∧ x ≠ j.ID ∧ x ≠ P) ∧
      ∀ k σ c s, (j.view ix P k σ).entry x c s ↔ σ.forest.entry x c s := by
  by_cases h₁ : x = j.siblingID ix
  · exact .inl h₁
  · by_cases h₂ : x = j.ID
    · exact .inr (.inl h₂)
    · by_cases h₃ : x = P
      · exact .inr (.inr (.inl h₃))
      · exact .inr (.inr (.inr ⟨⟨h₁, h₂, h₃⟩, fun k σ c s => by simp [SplitJob.view, h₁, h₂, h₃]⟩))

/-- A document below an entry that is moved is found through the sibling, if the signature that was
read for the entry is a multiple. -/
theorem SplitJob.Mid.reach_moved (h : j.Mid ix P k σ) (hm : ix.metric = true)
    (hinner : j.node.isLeaf = false) (hc : (c, s) ∈ j.items2) (hq : Divides q s)
    (hr : (j.view ix P k σ).Reach Divides q c d) : (j.view ix P k σ).Reach Divides q P d := by
  have hlcm : Divides q j.groups.lcm2 := trans_of Divides hq (h.parts.cover2 hm (c, s) hc)
  have hM : (j.view ix P k σ).Reach Divides q (j.siblingID ix) d := by
    have hleaf : ¬ (j.view ix P k σ).leaf (j.siblingID ix) := by simp [SplitJob.view, hinner]
    by_cases hk : k < 2
    · have he : (j.view ix P k σ).entry (j.siblingID ix) c s := by
        rw [view_sibling, if_pos hk]
        exact hc
      exact .child hleaf he hq hr
    · obtain ⟨m, hm, -, -, hfill⟩ := h.sibling_filled (not_lt.1 hk)
      obtain ⟨t, ht, hd⟩ := hfill _ hc
      have he : (j.view ix P k σ).entry (j.siblingID ix) c t := by
        rw [view_sibling, if_neg hk]
        exact (forest_entry hm).2 ht
      exact .child hleaf he (trans_of Divides hq hd) hr
  obtain ⟨p, hp, hpleaf, -⟩ := h.parent
  have hP : ¬ (j.view ix P k σ).leaf P := by
    rw [h.view_leaf_iff fun hM => (h.sibling_ne_parent hM.symm).elim, forest_leaf hp, hpleaf]
    simp
  by_cases hk : k < 3
  · exact .child hP (h.view_parent.2 (.inl ⟨hk, rfl, rfl⟩)) hlcm hM
  · obtain ⟨t, ht, hd⟩ := h.linked (not_lt.1 hk)
    exact .child hP (h.view_parent.2 (.inr (.inr ⟨ht, fun _ => h.sibling_ne_node⟩)))
      (trans_of Divides hlcm hd) hM

end View

section Grows

variable {ix : Index} {σ σ' : Store} {docid : Key}

/-- Inserts have run on a node: its entries have got wider, and where there was room in a leaf, the
document may have come. -/
structure Node.Grows (ix : Index) (docid : Key) (n n' : Node) : Prop where
  nodeType : n'.nodeType = n.nodeType
  int : n'.int = n.int
  keys : n'.keys = n.keys ∨ n.isLeaf = true ∧ ix.full n = false ∧ n'.keys = n.keys ++ [docid]
  wider : (c, s) ∈ n.entries → ∃ t, (c, t) ∈ n'.entries ∧ Divides s t

structure Store.Grows (ix : Index) (docid : Key) (σ σ' : Store) : Prop where
  present : σ x = some n → ∃ n', σ' x = some n' ∧ n.Grows ix docid n'
  absent : σ x = none → σ' x = none
  normalized : σ'.Normalized

theorem Node.Grows.refl (n : Node) : n.Grows ix docid n :=
  ⟨rfl, rfl, .inl rfl, fun h => ⟨_, h, refl_of Divides _⟩⟩

theorem Node.Grows.isLeaf {n n' : Node} (h : n.Grows ix docid n') : n'.isLeaf = n.isLeaf :=
  isLeaf_congr h.nodeType (congrArg Interval.level h.int)

theorem Node.Grows.inner {n n' : Node} (h : n.Grows ix docid n') (hn : n.isLeaf = false) :
    n'.keys = n.keys := by
  rcases h.keys with hk | ⟨hl, -⟩
  · exact hk
  · simp [hn] at hl

theorem Node.Grows.of_full {n n' : Node} (h : n.Grows ix docid n') (hn : ix.full n = true) :
    n'.keys = n.keys := by
  rcases h.keys with hk | ⟨-, hf, -⟩
  · exact hk
  · simp [hn] at hf

theorem length_keys (n : Node) : n.keys.length = n.entries.length := List.length_map _

theorem Node.Grows.full {n n' : Node} (h : n.Grows ix docid n') (hn : ix.full n = true) :
    ix.full n' = true := by
  have hlen := congrArg List.length (h.of_full hn)
  rw [length_keys, length_keys] at hlen
  simpa [Index.full, hlen] using hn

/-- The updates of an insertion: of the entries on its way, and of a leaf. -/
def UpdateAt (σ : Store) (docid : Key) (type : InsertType) (key x : Key) : Prop :=
  type = .UPDATEIFPRESENT ∨ type = .UPDATE ∧ key = docid ∧ σ.forest.leaf x

theorem divides_updatedSig (ht : UpdateAt σ docid type key x) (hs : Gf2.Normalized s)
    (hsig : Gf2.Normalized sig) :
    Divides s (updatedSig type s sig) ∧ Divides sig (updatedSig type s sig) := by
  have hlcm : updatedSig type s sig = lcm s sig := by
    rcases ht with rfl | ⟨rfl, -⟩ <;> simp [updatedSig]
  obtain ⟨-, h₁, h₂, -⟩ := lcm_spec hs hsig
  rw [hlcm]
  exact ⟨h₁, h₂⟩

/-- What an update of an insertion does to a node that accepts it. -/
theorem serveUpdate_grows {n : Node} (hn : ∀ e ∈ n.entries, Gf2.Normalized e.2)
    (hsig : Gf2.Normalized sig) (hx : σ x = some n) (ht : UpdateAt σ docid type key x)
    (hok : (store_cb (serve ix (σ x) (.update type key sig)).2).failed = false) :
    ∃ n', serve ix (σ x) (.update type key sig) = (some n', .DHASH_OK) ∧ n.Grows ix docid n' ∧
      (key ∈ n.keys ∨ type = .UPDATE → ∃ t, (key, t) ∈ n'.entries ∧ Divides sig t) := by
  rcases serveUpdate_cases ix type key sig n with
    ⟨stat, h₁, h₂, hs⟩ | ⟨hk, hs⟩ | ⟨hk, htype, hs⟩ | ⟨hk, htype, hfull, hs⟩
  · rw [(refused_of_update hx h₁ h₂ hs).1] at hok
    simp at hok
  · refine ⟨_, serve_update hx hs, ⟨rfl, rfl, .inl (keys_map_updateEntry _), ?_⟩, fun _ => ?_⟩
    · intro c s he
      refine ⟨_, mem_map_updateEntry.2 ⟨s, he, rfl⟩, ?_⟩
      split
      · exact (divides_updatedSig ht (hn _ he) hsig).1
      · exact refl_of Divides s
    · obtain ⟨s, he⟩ := mem_keys.1 hk
      exact ⟨_, mem_map_updateEntry.2 ⟨s, he, (if_pos rfl).symm⟩,
        (divides_updatedSig ht (hn _ he) hsig).2⟩
  · refine ⟨n, serve_update hx hs, .refl n, ?_⟩
    rintro (hk' | rfl)
    · exact (hk hk').elim
    · simp at htype
  · rcases ht with rfl | ⟨rfl, rfl, hleaf⟩
    · simp at htype
    · refine ⟨_, serve_update hx hs, ⟨rfl, rfl, .inr ⟨(forest_leaf hx).1 hleaf, hfull, ?_⟩, ?_⟩,
        fun _ => ⟨sig, by simp, refl_of Divides sig⟩⟩
      · simp [Node.keys]
      · exact fun he => ⟨_, List.mem_append_left _ he, refl_of Divides _⟩

theorem update_grows (hσ : σ.Normalized) (hsig : Gf2.Normalized sig)
    (ht : UpdateAt σ docid type key x)
    (hok : (store_cb (serve ix (σ x) (.update type key sig)).2).failed = false) :
    σ.Grows ix docid (ix.deliver σ x (.update type key sig)) ∧
      ((∃ s, σ.forest.entry x key s) ∨ type = .UPDATE →
        ∃ t, (ix.deliver σ x (.update type key sig)).forest.entry x key t ∧ Divides sig t) := by
  cases hx : σ x with
  | none => simp [hx, serve, store_cb, DHTStatus.failed] at hok
  | some n =>
    obtain ⟨n', hserve, hgrows, hkey⟩ := serveUpdate_grows (hσ hx) hsig hx ht hok
    have hx' := deliver_some (congrArg Prod.fst hserve)
    have hnorm : (Msg.update type key sig).Normalized := by
      refine ⟨?_, hsig⟩
      rcases ht with rfl | ⟨rfl, -⟩ <;> simp
    refine ⟨⟨fun {y m} hy => ?_, fun {y} hy => ?_, deliver_normalized hσ hnorm (by simp)⟩, ?_⟩
    · by_cases hyx : y = x
      · subst hyx
        obtain rfl : n = m := Option.some.inj (hx.symm.trans hy)
        exact ⟨n', hx', hgrows⟩
      · exact ⟨m, (deliver_of_ne hyx _).trans hy, .refl m⟩
    · have hyx : y ≠ x := by
        rintro rfl
        simp [hx] at hy
      exact (deliver_of_ne hyx _).trans hy
    · intro h
      have hmem : (∃ s, σ.forest.entry x key s) → key ∈ n.keys := by
        rintro ⟨s, hs⟩
        exact mem_keys.2 ⟨s, (forest_entry hx).1 hs⟩
      obtain ⟨t, ht, hd⟩ := hkey (h.imp_left hmem)
      exact ⟨t, (forest_entry hx').2 ht, hd⟩

theorem widen_grows (hσ : σ.Normalized) (hsig : Gf2.Normalized sig) (docid : Key)
    (hok : (store_cb (serve ix (σ x) (.update .UPDATEIFPRESENT key sig)).2).failed = false) :
    σ.Grows ix docid (ix.deliver σ x (.update .UPDATEIFPRESENT key sig)) ∧
      ((∃ s, σ.forest.entry x key s) →
        ∃ t, (ix.deliver σ x (.update .UPDATEIFPRESENT key sig)).forest.entry x key t ∧
          Divides sig t) := by
  obtain ⟨hg, hnew⟩ := update_grows hσ hsig (.inl rfl) hok
  exact ⟨hg, fun hs => hnew (.inl hs)⟩

theorem Store.Grows.exists_some (h : σ.Grows ix docid σ') (hx : σ' x = some n') :
    ∃ n, σ x = some n ∧ n.Grows ix docid n' := by
  cases hn : σ x with
  | none => simp [h.absent hn] at hx
  | some n =>
    obtain ⟨m, hm, hg⟩ := h.present hn
    obtain rfl : m = n' := Option.some.inj (hm.symm.trans hx)
    exact ⟨n, rfl, hg⟩

theorem Store.Grows.leaf (h : σ.Grows ix docid σ') (x : Key) :
    σ'.forest.leaf x ↔ σ.forest.leaf x := by
  cases hx : σ x with
  | none => simp [Store.forest, hx, h.absent hx]
  | some n =>
    obtain ⟨n', hx', hg⟩ := h.present hx
    rw [forest_leaf hx, forest_leaf hx', hg.isLeaf]

theorem Store.Grows.entry (h : σ.Grows ix docid σ') (he : σ.forest.entry x c s) :
    ∃ t, σ'.forest.entry x c t ∧ Divides s t := by
  obtain ⟨n, hx, hmem⟩ := exists_of_entry he
  obtain ⟨n', hx', hg⟩ := h.present hx
  obtain ⟨t, ht, hd⟩ := hg.wider hmem
  exact ⟨t, (forest_entry hx').2 ht, hd⟩

theorem Store.Grows.entry_inner (h : σ.Grows ix docid σ') (hx : ¬ σ.forest.leaf x)
    (he : σ'.forest.entry x c t) : ∃ s, σ.forest.entry x c s := by
  obtain ⟨n', hx', hmem⟩ := exists_of_entry he
  obtain ⟨n, hn, hg⟩ := h.exists_some hx'
  have hc : c ∈ n'.keys := mem_keys.2 ⟨t, hmem⟩
  rw [hg.inner (by simpa [forest_leaf hn] using hx)] at hc
  obtain ⟨s, hs⟩ := mem_keys.1 hc
  exact ⟨s, (forest_entry hn).2 hs⟩

theorem Store.Grows.widens (h : σ.Grows ix docid σ') :
    Forest.Widens Divides σ.forest σ'.forest :=
  fun x _ _ he => ⟨(h.leaf x).symm, h.entry he⟩

theorem Splittable.grows (h : Splittable ix N P σ) (hg : σ.Grows ix docid σ') :
    Splittable ix N P σ' := by
  obtain ⟨n, hn, ht, hlen, hnodup⟩ := h.node
  obtain ⟨n', hn', hgn⟩ := hg.present hn
  have hkeys := hgn.of_full (by simp [Index.full, hlen])
  obtain ⟨p, hp, hleaf, hN⟩ := h.parent
  obtain ⟨p', hp', hgp⟩ := hg.present hp
  refine ⟨h.ne, ⟨n', hn', hgn.nodeType ▸ ht, ?_, hkeys ▸ hnodup⟩, hg.normalized,
    ⟨p', hp', hgp.isLeaf.trans hleaf, (hgp.inner hleaf).symm ▸ hN⟩, ?_, ?_⟩
  · rw [← hlen, ← length_keys, ← length_keys, hkeys]
  · intro x s hx he
    rw [hg.leaf] at hx
    obtain ⟨t, ht⟩ := hg.entry_inner hx he
    exact h.unique hx ht
  · intro x c s hx he
    rw [hg.leaf] at hx
    obtain ⟨t, ht⟩ := hg.entry_inner hx he
    obtain ⟨m, hm⟩ := Option.ne_none_iff_exists'.1 (h.children hx ht)
    obtain ⟨m', hm', -⟩ := hg.present hm
    simp [hm']

variable {j : SplitJob} {P : Key} {k : Nat}

theorem SplitJob.Mid.grows (h : j.Mid ix P k σ) (hg : σ.Grows ix docid σ')
    (hM : k < 3 → σ' (j.siblingID ix) = σ (j.siblingID ix))
    (hdoc : j.node.isLeaf = true → docid ∉ j.moved) : j.Mid ix P k σ' := by
  obtain ⟨n, hn, ht, hl, hf⟩ := h.node
  obtain ⟨n', hn', hgn⟩ := hg.present hn
  obtain ⟨p, hp, hleaf, hN⟩ := h.parent
  obtain ⟨p', hp', hgp⟩ := hg.present hp
  refine ⟨h.node_ne_parent, h.sibling_ne_node, h.sibling_ne_parent, h.nonroot, h.parts,
    hg.normalized, h.fresh, ⟨n', hn', hgn.nodeType.trans ht, ?_, fun hk => hgn.full (hf hk)⟩, ?_,
    ⟨p', hp', hgp.isLeaf.trans hleaf, (hgp.inner hleaf).symm ▸ hN⟩, fun hk => ?_, fun hk he => ?_,
    fun hx he => ?_⟩
  · rw [hgn.int, hl]
  · by_cases hk : k < 3
    · rw [hM hk]
      exact h.sibling
    · obtain ⟨m, hm, ht, hl, hs⟩ := h.sibling_filled (by omega)
      obtain ⟨m', hm', hgm⟩ := hg.present hm
      apply sibling_of_filled (by omega)
      refine ⟨m', hm', hgm.nodeType.trans ht, hgm.int ▸ hl, fun e he => ?_⟩
      obtain ⟨t, ht, hd⟩ := hs e he
      obtain ⟨u, hu, hd'⟩ := hgm.wider ht
      exact ⟨u, hu, trans_of Divides hd hd'⟩
  · obtain ⟨t, ht, hd⟩ := h.linked hk
    obtain ⟨u, hu, hd'⟩ := hg.entry ht
    exact ⟨u, hu, trans_of Divides hd hd'⟩
  · have hc := mem_keys.2 ⟨_, (forest_entry hn').1 he⟩
    have hold : ∀ {c}, c ∈ n.keys → c ∉ j.moved := by
      intro c hc
      obtain ⟨s, hs⟩ := mem_keys.1 hc
      exact h.deleted hk ((forest_entry hn).2 hs)
    rcases hgn.keys with hkeys | ⟨hnleaf, -, hkeys⟩
    · exact hold (hkeys ▸ hc)
    · rw [hkeys, List.mem_append, List.mem_singleton] at hc
      rcases hc with hc | rfl
      · exact hold hc
      · exact hdoc (isLeaf_congr ht hl ▸ hnleaf)
  · rw [hg.leaf] at hx
    obtain ⟨t, ht⟩ := hg.entry_inner hx he
    exact h.unlinked hx ht

theorem view_widens_grows (h : j.Mid ix P k σ) (hg : σ.Grows ix docid σ') :
    Forest.Widens Divides (j.view ix P k σ) (j.view ix P k σ') := by
  intro x c s he
  refine ⟨by simp only [SplitJob.view, hg.leaf], ?_⟩
  rcases view_cases ix j P x with rfl | rfl | rfl | ⟨-, hx⟩
  · simp only [view_sibling] at he ⊢
    split
    · next hk => exact ⟨s, by simpa [hk] using he, refl_of Divides s⟩
    · next hk => exact hg.entry (by simpa [hk] using he)
  · simp only [h.view_node] at he ⊢
    obtain ⟨t, ht, hd⟩ := hg.entry he.1
    exact ⟨t, ⟨ht, he.2⟩, hd⟩
  · simp only [h.view_parent] at he ⊢
    rcases he with h₁ | h₂ | ⟨h₃, hne⟩
    · exact ⟨s, .inl h₁, refl_of Divides s⟩
    · exact ⟨s, .inr (.inl h₂), refl_of Divides s⟩
    · obtain ⟨t, ht, hd⟩ := hg.entry h₃
      exact ⟨t, .inr (.inr ⟨ht, hne⟩), hd⟩
  · simp only [hx] at he ⊢
    exact hg.entry he

end Grows

section SplitPhase

variable {ix : Index} {j : SplitJob} {P : Key} {σ : Store} {k : Nat}

/-- What is left of a split after `k` steps. -/
inductive SplitPhase (ix : Index) (j : SplitJob) (P : Key) : Nat → Client DHTStatus → Prop where
  | draw : SplitPhase ix j P 0 (randomNumGen >>= fun random => j.create ix P fuel random)
  | create : SplitPhase ix j P 0 (j.create ix P fuel random)
  | fill : SplitPhase ix j P 1 (j.fill ix P fuel)
  | link : SplitPhase ix j P 2 (j.link ix P fuel)
  | replace : SplitPhase ix j P 3 (j.replace P fuel)
  | delete : SplitPhase ix j P 4 (j.delete fuel)
  | header : SplitPhase ix j P 5 (j.header fuel)
  | verify : (∀ o, SplitPhase ix j P 5 (next o)) → SplitPhase ix j P 5 (.read ID next)
  | done : SplitPhase ix j P 5 (.ret stat)

/-- What is left of a split whose sibling somebody else has created. -/
inductive WaitPhase (ix : Index) (j : SplitJob) (P : Key) : Client DHTStatus → Prop where
  | draw : WaitPhase ix j P (randomNumGen >>= fun random => j.create ix P fuel random)
  | create : WaitPhase ix j P (j.create ix P fuel random)
  | await : WaitPhase ix j P (awaitHeader j.ID j.node.int .SUCC attempts)

theorem performSplit_does (h : Prog.Does (serve ix) (performSplit ix fuel N oldInt P) σ e a) :
    a.Avoids (· = .SUCC) ∨ ∃ n g, σ N = some n ∧ e = .read N (some n) ∧
      splitNode ix.MAXENTRIES ix.metric (n.entries.map Prod.snd) = some g ∧
      SplitPhase ix ⟨N, n, g⟩ P 0 a ∧ WaitPhase ix ⟨N, n, g⟩ P a := by
  cases h with
  | read =>
    dsimp only [Prog.bind]
    split
    · exact .inl (by simp [Prog.Avoids])
    · next n hn =>
      split
      · exact .inl (by simp [Prog.Avoids])
      · split
        · exact .inl (by simp [Prog.Avoids])
        · split
          · exact .inl trivial
          · next g hg => exact .inr ⟨n, g, hn, by rw [hn], hg, .draw, .draw⟩

theorem WaitPhase.does (h : WaitPhase ix j P a) (hM : σ (j.siblingID ix) ≠ none)
    (hN : ∃ n, σ j.ID = some n ∧ n.int = j.node.int) (hs : Prog.Does (serve ix) a σ e a') :
    a'.Avoids (· = .SUCC) ∨ WaitPhase ix j P a' ∧ e.apply (serve ix) σ = σ := by
  cases h with
  | draw =>
    cases hs with
    | draw r => exact .inr ⟨.create, rfl⟩
  | create =>
    cases hs with
    | send =>
      obtain ⟨m, hm⟩ := Option.ne_none_iff_exists'.1 hM
      dsimp only [Prog.bind]
      rw [(lock_taken hm _ _).1]
      exact .inr ⟨.await, (lock_taken hm _ _).2⟩
  | @await attempts =>
    cases attempts with
    | zero => cases hs
    | succ attempts =>
      cases hs with
      | read =>
        obtain ⟨n, hn, hint⟩ := hN
        dsimp only [Prog.bind]
        rw [hn]
        dsimp only
        rw [hint, eqv_refl]
        exact .inr ⟨.await, rfl⟩

theorem WaitPhase.ne_ret (h : WaitPhase ix j P a) : a ≠ .ret .SUCC := by
  cases h with
  | draw => nofun
  | create => nofun
  | @await attempts =>
    cases attempts with
    | zero => nofun
    | succ attempts => nofun

theorem insertThen_does (h : Prog.Does (serve ix) (insertThen ID value next) σ e a)
    (hok : (serve ix (σ ID) value).2 = .DHASH_OK) : e = .send ID value ∧ a = next := by
  cases h with
  | send =>
    refine ⟨rfl, ?_⟩
    dsimp only [Prog.bind]
    rw [hok]
    rfl

theorem insertThen_refused (h : Prog.Does (serve ix) (insertThen ID value next) σ e a)
    (hr : Refused ix σ ID value) : a.Avoids (· = .SUCC) := by
  cases h with
  | send =>
    dsimp only [Prog.bind]
    rw [hr.1]
    simp [Prog.Avoids]

/-- What a step of a split can do: the view stays as it is. -/
theorem SplitPhase.does (h : SplitPhase ix j P k a) (hmid : j.Mid ix P k σ)
    (hs : Prog.Does (serve ix) a σ e a') :
    a'.Avoids (· = .SUCC) ∨ ∃ k', k ≤ k' ∧ SplitPhase ix j P k' a' ∧
      j.Mid ix P k' (e.apply (serve ix) σ) ∧
      j.view ix P k' (e.apply (serve ix) σ) = j.view ix P k σ ∧
      (k' < 4 → e ≠ .send P (.update .REPLACESIG j.ID j.groups.lcm1)) := by
  cases h with
  | draw =>
    cases hs with
    | draw r => exact .inr ⟨0, le_rfl, .create, hmid, rfl, fun _ => nofun⟩
  | @create fuel random =>
    cases hs with
    | send =>
      obtain ⟨hok, hmid', hview, -⟩ := hmid.create random
      dsimp only [Prog.bind]
      rw [hok]
      exact .inr ⟨1, by omega, .fill, hmid', hview, fun _ => nofun⟩
  | fill =>
    obtain ⟨hok, hmid', hview, -⟩ := hmid.fill
    obtain ⟨rfl, rfl⟩ := insertThen_does hs hok
    exact .inr ⟨2, by omega, .link, hmid', hview, fun _ => nofun⟩
  | link =>
    rcases hmid.link with hr | ⟨hok, hmid', hview, -⟩
    · exact .inl (insertThen_refused hs hr)
    · obtain ⟨rfl, rfl⟩ := insertThen_does hs hok
      exact .inr ⟨3, by omega, .replace, hmid', hview, fun _ => nofun⟩
  | replace =>
    rcases hmid.replace with hr | ⟨hok, hmid', hview⟩
    · exact .inl (insertThen_refused hs hr)
    · obtain ⟨rfl, rfl⟩ := insertThen_does hs hok
      exact .inr ⟨4, by omega, .delete, hmid', hview, by omega⟩
  | delete =>
    obtain ⟨hok, hmid', hview⟩ := hmid.delete
    obtain ⟨rfl, rfl⟩ := insertThen_does hs hok
    exact .inr ⟨5, by omega, .header, hmid', hview, by omega⟩
  | @header fuel =>
    cases fuel with
    | zero => cases hs
    | succ fuel =>
      cases hs with
      | send =>
        obtain ⟨hmid', hforest⟩ := hmid.header j.node.nodeType j.myInt
        have hview : j.view ix P 5 (ix.deliver σ j.ID (.updateHdr j.node.nodeType j.myInt)) =
            j.view ix P 5 σ := by
          rw [hmid'.view_eq, hmid.view_eq, hforest]
        dsimp only [Prog.bind]
        split
        · exact .inl (by simp [Prog.Avoids])
        · refine .inr ⟨5, le_rfl, .verify fun o => ?_, hmid', hview, by omega⟩
          dsimp only [Prog.bind]
          split
          · exact .header
          · split
            · exact .done
            · exact .done
  | verify hnext =>
    cases hs with
    | read => exact .inr ⟨5, le_rfl, hnext _, hmid, rfl, by omega⟩
  | done => cases hs

theorem SplitPhase.ret (h : SplitPhase ix j P k a) (ha : a = .ret stat) : k = 5 := by
  cases h with
  | draw => cases ha
  | create => cases ha
  | fill => cases ha
  | link => cases ha
  | replace => cases ha
  | delete => cases ha
  | header => rfl
  | verify => rfl
  | done => rfl

end SplitPhase

section OnPath

/-- The way from the root to a node, along links of `L` and nodes of `V`: each node of it with the
child that was picked in it. -/
inductive OnPath (L : Key → Key → Prop) (V : Key → Prop) (root : Key) :
    Key → List (Key × Key) → Prop where
  | root : V root → OnPath L V root root []
  | child : L x c → V c → OnPath L V root x path → OnPath L V root c ((x, c) :: path)

variable {L L' : Key → Key → Prop} {V V' : Key → Prop} {root : Key}

theorem OnPath.visible (h : OnPath L V root x path) : V x := by
  cases h with
  | root h => exact h
  | child _ h _ => exact h

theorem OnPath.mono (h : OnPath L V root x path) (hL : ∀ x c, V x → L x c → L' x c)
    (hV : ∀ x, V x → V' x) : OnPath L' V' root x path := by
  induction h with
  | root h => exact .root (hV _ h)
  | child hl hc hp ih => exact .child (hL _ _ hp.visible hl) (hV _ hc) ih

theorem OnPath.parent (h : OnPath L V root x path) (hz : z ∈ x :: path.map Prod.fst)
    (hroot : z ≠ root) : ∃ y ∈ path.map Prod.fst, L y z := by
  induction h with
  | root => exact (hroot (by simpa using hz)).elim
  | @child x c path hl _ _ ih =>
    rcases List.mem_cons.1 hz with rfl | hz
    · exact ⟨x, by simp, hl⟩
    · obtain ⟨y, hy, hyz⟩ := ih hz
      exact ⟨y, List.mem_cons_of_mem _ hy, hyz⟩

end OnPath

section Both

def snapshot (log : List (Act ⊕ Act)) : Option Node :=
  log.findSome? fun
    | .inl (.read _ o) => o
    | _ => none

/-- What the left client is going to split the node `N` into. -/
def planned (ix : Index) (N : Key) (log : List (Act ⊕ Act)) : Option SplitJob := do
  let n ← snapshot log
  let groups ← splitNode ix.MAXENTRIES ix.metric (n.entries.map Prod.snd)
  return ⟨N, n, groups⟩

/-- The right client widens an entry that the left one has planned with as it was before: an entry
that is moved to the sibling, or the entry for `N` that is replaced later, below which the document
has been inserted. -/
def Misses (ix : Index) (N P : Key) (log : List (Act ⊕ Act)) : Act ⊕ Act → Prop
  | .inr (.send x (.update .UPDATEIFPRESENT c sig)) => ∃ j ∈ planned ix N log,
    (x = N ∧ ∃ s, (c, s) ∈ j.items2 ∧ ¬ Divides sig s) ∨
    (x = P ∧ c = N ∧ ¬ Divides sig j.groups.lcm1 ∧
      .inl (.send P (.update .REPLACESIG N j.groups.lcm1)) ∉ log ∧
      ∃ c' ∉ j.moved, .inr (.send N (.update .UPDATEIFPRESENT c' sig)) ∈ log)
  | _ => False

/-- How far the split has come, from the moment on when the node has been read. -/
abbrev Progress := Option (SplitJob × Nat)

section Defs

variable (ix : Index) (N P docid : Key) (sig : Sig) (log : List (Act ⊕ Act)) (σ : Store)

def Progress.forest : Progress → Forest Key Sig
  | none => σ.forest
  | some (j, k) => j.view ix P k σ

def Progress.Visible (x : Key) : Progress → Prop
  | none => σ x ≠ none
  | some (j, k) => x = j.siblingID ix → 3 ≤ k

/-- The entry for `c` that was in `x` is there, or the split moves it away. -/
def Progress.Linked (pr : Progress) (x c : Key) : Prop :=
  ¬ (pr.forest ix P σ).leaf x ∧
    ((∃ s, (pr.forest ix P σ).entry x c s) ∨ x = N ∧ ∃ j k, pr = some (j, k) ∧ c ∈ j.moved)

/-- The side of the client that splits the node `N`. -/
inductive SplitSide : Progress → Client DHTStatus → Prop where
  | before : Splittable ix N P σ → (∀ n, σ N = some n → n.isLeaf = true → docid ∉ n.keys) →
      (∀ e ∈ log, e.isRight) → SplitSide none (performSplit ix fuel N oldInt P)
  | during : j.ID = N → j.Mid ix P k σ → SplitPhase ix j P k a → planned ix N log = some j →
      (k < 4 → .inl (.send P (.update .REPLACESIG N j.groups.lcm1)) ∉ log) →
      (j.node.isLeaf = true → docid ∉ j.moved) → (j.node.isLeaf = false → N ∉ j.moved) →
      SplitSide (some (j, k)) a

/-- A search that comes to some node of the way finds the document; the node `N` is meant only if
the document is below an entry that stays there, or once the entry for `N` has been replaced. -/
def Progress.Landed (pr : Progress) (x : Key) (path : List (Key × Key)) : Prop :=
  ∃ z ∈ x :: path.map Prod.fst, (pr.forest ix P σ).Reach Divides sig z docid ∧
    (z = N → ∀ j k, pr = some (j, k) → k < 4 →
      ∃ c ∉ j.moved, .inr (.send N (.update .UPDATEIFPRESENT c sig)) ∈ log)

abbrev Progress.Way (pr : Progress) (x : Key) (path : List (Key × Key)) : Prop :=
  OnPath (pr.Linked ix N P σ) (pr.Visible ix σ) ix.rootID x path

def Position.Placed (pr : Progress) : Position → Prop
  | .down x path => pr.Way ix N P σ x path
  | .leaf x path => pr.Way ix N P σ x path ∧ (pr.forest ix P σ).leaf x ∧
    (x = N → ∃ j k, pr = some (j, k) ∧ 5 ≤ k)
  | .up x path => pr.Way ix N P σ x path ∧ pr.Landed ix N P docid sig log σ x path

structure Both (σ₀ : Store) (pr : Progress) (a : Client DHTStatus)
    (b : Client (DHTStatus × FullNodes)) : Prop where
  side : SplitSide ix N P docid log σ pr a
  unique : ¬ (pr.forest ix P σ).leaf x → (pr.forest ix P σ).entry x N s → x = P
  kept : Reported σ₀ q ix.rootID d → (pr.forest ix P σ).Reach Divides q ix.rootID d
  placed : ∃ pos, InsertPhase ix sig docid pos b ∧ pos.Placed ix N P docid sig log σ pr

/-- A split and an insertion beside each other: one of them will not succeed, or the split waits for
somebody else's, or both can still succeed. -/
inductive Ongoing (σ₀ : Store) (a : Client DHTStatus) (b : Client (DHTStatus × FullNodes)) :
    Prop where
  | noSplit : a.Avoids (· = .SUCC) → Ongoing σ₀ a b
  | noInsert : b.Avoids Inserted → Ongoing σ₀ a b
  | waits : WaitPhase ix j P a → σ (j.siblingID ix) ≠ none →
      (∃ n, σ j.ID = some n ∧ n.int = j.node.int) → InsertPhase ix sig docid pos b →
      Ongoing σ₀ a b
  | both : Both ix N P docid sig log σ σ₀ pr a b → Ongoing σ₀ a b

end Defs

variable {ix : Index} {N P docid : Key} {sig : Sig} {log : List (Act ⊕ Act)} {σ σ' : Store}
  {pr : Progress}

theorem snapshot_of_right (h : ∀ e ∈ log, e.isRight) : snapshot log = none := by
  rw [snapshot, List.findSome?_eq_none_iff]
  intro e he
  cases e with
  | inl e => simpa using h _ he
  | inr e => rfl

theorem planned_append (h : planned ix N log = some j) (e : Act ⊕ Act) :
    planned ix N (log ++ [e]) = some j := by
  obtain ⟨n, hn, hj⟩ := Option.bind_eq_some_iff.1 h
  rw [snapshot] at hn
  rw [planned, snapshot, List.findSome?_append, hn]
  exact hj

theorem planned_first (h : ∀ e ∈ log, e.isRight)
    (hg : splitNode ix.MAXENTRIES ix.metric (n.entries.map Prod.snd) = some g) :
    planned ix N (log ++ [.inl (.read N (some n))]) = some ⟨N, n, g⟩ := by
  have hnone := snapshot_of_right h
  rw [snapshot] at hnone
  rw [planned, snapshot, List.findSome?_append, hnone]
  simp [hg]

theorem SplitSide.right (h : SplitSide ix N P docid log σ pr a) (e : Act) :
    SplitSide ix N P docid (log ++ [.inr e]) σ pr a := by
  cases h with
  | before hs hd hlog =>
    refine .before hs hd fun e' he => ?_
    rcases List.mem_append.1 he with he | he
    · exact hlog e' he
    · rw [List.mem_singleton.1 he]
      rfl
  | during hN hmid hp hpl hrep hd hself =>
    refine .during hN hmid hp (planned_append hpl _) (fun hk hmem => hrep hk ?_) hd hself
    simpa using hmem

theorem Progress.leaf_iff (h : SplitSide ix N P docid log σ pr a) (hx : pr.Visible ix σ x) :
    (pr.forest ix P σ).leaf x ↔ σ.forest.leaf x := by
  cases h with
  | before => exact Iff.rfl
  | during _ hmid => exact hmid.view_leaf_iff fun hM => (hx hM).trans' (by omega)

theorem Progress.entry_of_store (h : SplitSide ix N P docid log σ pr a) (hx : pr.Visible ix σ x)
    (hN : x = N → ∀ j k, pr = some (j, k) → c ∉ j.moved)
    (hP : x = P → c = N → ∀ j k, pr = some (j, k) → 4 ≤ k) (he : σ.forest.entry x c s) :
    (pr.forest ix P σ).entry x c s := by
  cases h with
  | before => exact he
  | @during j k a hID hmid =>
    subst hID
    rw [Progress.forest]
    rcases view_cases ix j P x with rfl | rfl | rfl | ⟨-, hother⟩
    · have hk := hx rfl
      rw [view_sibling, if_neg (by omega)]
      exact he
    · exact hmid.view_node.2 ⟨he, hN rfl j k rfl⟩
    · refine hmid.view_parent.2 (.inr (.inr ⟨he, fun hk hc => ?_⟩))
      have := hP rfl hc j k rfl
      omega
    · exact (hother ..).2 he

theorem Progress.linked_of_store (h : SplitSide ix N P docid log σ pr a) (hx : pr.Visible ix σ x)
    (hinner : ¬ σ.forest.leaf x) (he : σ.forest.entry x c s) : pr.Linked ix N P σ x c := by
  refine ⟨mt (Progress.leaf_iff h hx).1 hinner, ?_⟩
  cases h with
  | before => exact .inl ⟨s, he⟩
  | @during j k a hID hmid hp hpl hrep hdoc hself =>
    by_cases hmoved : x = N ∧ c ∈ j.moved
    · exact .inr ⟨hmoved.1, j, k, rfl, hmoved.2⟩
    · by_cases hreplaced : x = P ∧ c = N ∧ k < 4
      · obtain ⟨rfl, rfl, hk⟩ := hreplaced
        exact .inl ⟨_, hmid.view_parent.2 (.inr (.inl ⟨hk, hID.symm, rfl⟩))⟩
      · refine .inl ⟨s, Progress.entry_of_store (.during hID hmid hp hpl hrep hdoc hself) hx
          (fun hN j' k' hj hm => ?_) (fun hP hcN j' k' hj => ?_) he⟩
        · obtain ⟨rfl, rfl⟩ := Prod.mk.inj (Option.some.inj hj)
          exact hmoved ⟨hN, hm⟩
        · obtain ⟨rfl, rfl⟩ := Prod.mk.inj (Option.some.inj hj)
          exact not_lt.1 fun hk => hreplaced ⟨hP, hcN, hk⟩

/-- Above the leaves there are no new entries in the view either. -/
theorem Progress.entry_inner (h : SplitSide ix N P docid log σ pr a) (hg : σ.Grows ix docid σ')
    (hx : ¬ (pr.forest ix P σ).leaf x) (he : (pr.forest ix P σ').entry x c t) :
    ∃ s, (pr.forest ix P σ).entry x c s := by
  cases h with
  | before => exact hg.entry_inner hx he
  | @during j k a hID hmid =>
    rw [Progress.forest] at hx he ⊢
    rcases view_cases ix j P x with rfl | rfl | rfl | ⟨⟨hM, -, -⟩, hother⟩
    · simp only [view_sibling] at he ⊢
      split
      · next hk => exact ⟨t, by simpa [hk] using he⟩
      · next hk =>
        rw [hmid.view_leaf_iff fun _ => by omega] at hx
        exact hg.entry_inner hx (by simpa [hk] using he)
    · rw [hmid.view_leaf_iff fun hM => (hmid.sibling_ne_node hM.symm).elim] at hx
      obtain ⟨s, hs⟩ := hg.entry_inner hx (hmid.view_node.1 he).1
      exact ⟨s, hmid.view_node.2 ⟨hs, (hmid.view_node.1 he).2⟩⟩
    · rw [hmid.view_leaf_iff fun hM => (hmid.sibling_ne_parent hM.symm).elim] at hx
      rcases hmid.view_parent.1 he with h₁ | h₂ | ⟨h₃, hne⟩
      · exact ⟨t, hmid.view_parent.2 (.inl h₁)⟩
      · exact ⟨t, hmid.view_parent.2 (.inr (.inl h₂))⟩
      · obtain ⟨s, hs⟩ := hg.entry_inner hx h₃
        exact ⟨s, hmid.view_parent.2 (.inr (.inr ⟨hs, hne⟩))⟩
    · rw [hmid.view_leaf_iff fun h => (hM h).elim] at hx
      obtain ⟨s, hs⟩ := hg.entry_inner hx ((hother ..).1 he)
      exact ⟨s, (hother ..).2 hs⟩

theorem SplitSide.grows (h : SplitSide ix N P docid log σ pr a) (hg : σ.Grows ix docid σ')
    (hM : ∀ j k, pr = some (j, k) → k < 3 → σ' (j.siblingID ix) = σ (j.siblingID ix)) :
    SplitSide ix N P docid log σ' pr a := by
  cases h with
  | before hs hd hlog =>
    refine .before (hs.grows hg) (fun n' hn' hleaf => ?_) hlog
    obtain ⟨n, hn, -, hlen, -⟩ := hs.node
    obtain ⟨m, hm, hgm⟩ := hg.present hn
    obtain rfl : m = n' := Option.some.inj (hm.symm.trans hn')
    rw [hgm.of_full (by simp [Index.full, hlen])]
    exact hd n hn (hgm.isLeaf ▸ hleaf)
  | during hN hmid hp hpl hrep hd hself =>
    exact .during hN (hmid.grows hg (hM _ _ rfl) hd) hp hpl hrep hd hself

theorem SplitSide.widens (h : SplitSide ix N P docid log σ pr a) (hg : σ.Grows ix docid σ') :
    Forest.Widens Divides (pr.forest ix P σ) (pr.forest ix P σ') := by
  cases h with
  | before => exact hg.widens
  | during _ hmid => exact view_widens_grows hmid hg

theorem Progress.leaf_grows (hg : σ.Grows ix docid σ') (x : Key) :
    (pr.forest ix P σ').leaf x ↔ (pr.forest ix P σ).leaf x := by
  rcases pr with - | ⟨j, k⟩
  · exact hg.leaf x
  · simp only [Progress.forest, SplitJob.view, hg.leaf]

theorem SplitSide.normalized (h : SplitSide ix N P docid log σ pr a) : σ.Normalized := by
  cases h with
  | before hs => exact hs.normalized
  | during _ hmid => exact hmid.normalized

theorem Store.Grows.refl (h : σ.Normalized) : σ.Grows ix docid σ :=
  ⟨fun hx => ⟨_, hx, .refl _⟩, fun hx => hx, h⟩

theorem Progress.visible_grows (hg : σ.Grows ix docid σ') (hx : pr.Visible ix σ x) :
    pr.Visible ix σ' x := by
  rcases pr with - | ⟨j, k⟩
  · obtain ⟨n, hn⟩ := Option.ne_none_iff_exists'.1 hx
    obtain ⟨n', hn', -⟩ := hg.present hn
    simp [Progress.Visible, hn']
  · exact hx

theorem Progress.way_grows (h : SplitSide ix N P docid log σ pr a) (hg : σ.Grows ix docid σ')
    (hw : pr.Way ix N P σ x path) : pr.Way ix N P σ' x path := by
  refine hw.mono (fun x c _ hl => ⟨mt (Progress.leaf_grows hg x).1 hl.1, ?_⟩)
    fun x => Progress.visible_grows hg
  rcases hl.2 with ⟨s, hs⟩ | hmoved
  · obtain ⟨-, t, ht, -⟩ := h.widens hg hs
    exact .inl ⟨t, ht⟩
  · exact .inr hmoved

theorem Both.grows (h : Both ix N P docid sig log σ σ₀ pr a b) (hg : σ.Grows ix docid σ')
    (hM : ∀ j k, pr = some (j, k) → k < 3 → σ' (j.siblingID ix) = σ (j.siblingID ix)) (e : Act)
    (hplaced : ∃ pos, InsertPhase ix sig docid pos b' ∧
      pos.Placed ix N P docid sig (log ++ [.inr e]) σ' pr) :
    Both ix N P docid sig (log ++ [.inr e]) σ' σ₀ pr a b' := by
  refine ⟨(h.side.grows hg hM).right e, fun hx he => ?_,
    fun hr => (h.kept hr).of_widens (h.side.widens hg), hplaced⟩
  rw [Progress.leaf_grows hg] at hx
  obtain ⟨s, hs⟩ := Progress.entry_inner h.side hg hx he
  exact h.unique hx hs

theorem Both.placed_leaf (h : Both ix N P docid sig log σ σ₀ pr a b)
    (hw : pr.Way ix N P σ x path) (hx : σ x = some n) (hleaf : n.isLeaf = true)
    (hfull : ix.full n = false) :
    (Position.leaf x path).Placed ix N P docid sig log' σ pr := by
  refine ⟨hw, (Progress.leaf_iff h.side hw.visible).2 ((forest_leaf hx).2 hleaf), fun hN => ?_⟩
  subst hN
  cases h.side with
  | before hs =>
    obtain ⟨m, hm, -, hlen, -⟩ := hs.node
    obtain rfl : n = m := Option.some.inj (hx.symm.trans hm)
    simp [Index.full, hlen] at hfull
  | @during j k _ hID hmid =>
    subst hID
    obtain ⟨m, hm, -, -, hf⟩ := hmid.node
    obtain rfl : n = m := Option.some.inj (hx.symm.trans hm)
    refine ⟨j, k, rfl, not_lt.1 fun hk => ?_⟩
    simp [hfull] at hf
    omega

theorem Both.placed_down (h : Both ix N P docid sig log σ σ₀ pr a b)
    (hw : pr.Way ix N P σ x path) (hx : σ x = some n) (hleaf : n.isLeaf = false) (hc : c ∈ n.keys) :
    (Position.down c ((x, c) :: path)).Placed ix N P docid sig log' σ pr := by
  have hinner : ¬ σ.forest.leaf x := by simp [forest_leaf hx, hleaf]
  obtain ⟨s, hs⟩ := mem_keys.1 hc
  have he : σ.forest.entry x c s := (forest_entry hx).2 hs
  refine .child (Progress.linked_of_store h.side hw.visible hinner he) ?_ hw
  cases h.side with
  | before hsp => exact hsp.children hinner he
  | during _ hmid =>
    rintro rfl
    exact hmid.unlinked hinner he

theorem Progress.sibling_kept (hx : pr.Visible ix σ x) (msg : Msg) (j : SplitJob) (k : Nat)
    (hpr : pr = some (j, k)) (hk : k < 3) :
    ix.deliver σ x msg (j.siblingID ix) = σ (j.siblingID ix) := by
  subst hpr
  apply deliver_of_ne
  rintro rfl
  have := hx rfl
  omega

theorem SplitSide.parent_inner (h : SplitSide ix N P docid log σ pr a) :
    ¬ (pr.forest ix P σ).leaf P := by
  cases h with
  | before hs =>
    obtain ⟨p, hp, hleaf, -⟩ := hs.parent
    simp [Progress.forest, forest_leaf hp, hleaf]
  | during _ hmid =>
    obtain ⟨p, hp, hleaf, -⟩ := hmid.parent
    rw [Progress.forest, hmid.view_leaf_iff fun hM => (hmid.sibling_ne_parent hM.symm).elim,
      forest_leaf hp, hleaf]
    simp

/-- The document has come into a leaf. -/
theorem Both.placed_put (h : Both ix N P docid sig log σ σ₀ pr a b) (hsig : Normalized sig)
    (hw : pr.Way ix N P σ x path) (hleaf : (pr.forest ix P σ).leaf x)
    (hN : x = N → ∃ j k, pr = some (j, k) ∧ 5 ≤ k)
    (hok : (serve ix (σ x) (.update .UPDATE docid sig)).2 = .DHASH_OK) :
    σ.Grows ix docid (ix.deliver σ x (.update .UPDATE docid sig)) ∧
      (Position.up x path).Placed ix N P docid sig log'
        (ix.deliver σ x (.update .UPDATE docid sig)) pr := by
  have hvis := hw.visible
  have hstat : (store_cb (serve ix (σ x) (.update .UPDATE docid sig)).2).failed = false := by
    simp [hok, store_cb, DHTStatus.failed]
  obtain ⟨hg, hnew⟩ := update_grows h.side.normalized hsig
    (.inr ⟨rfl, rfl, (Progress.leaf_iff h.side hvis).1 hleaf⟩) hstat
  refine ⟨hg, Progress.way_grows h.side hg hw, x, List.mem_cons_self, ?_, fun hxN j k hpr hk => ?_⟩
  · obtain ⟨t, ht, hd⟩ := hnew (.inr rfl)
    have hside := h.side.grows hg (Progress.sibling_kept hvis _)
    refine .doc ((Progress.leaf_grows hg x).2 hleaf)
      (Progress.entry_of_store hside (Progress.visible_grows hg hvis) (fun hxN j k hpr => ?_)
        (fun hxP _ => ?_) ht) hd
    · cases h.side with
      | before => simp at hpr
      | during hID hmid _ _ _ hdoc _ =>
        obtain ⟨rfl, rfl⟩ := Prod.mk.inj (Option.some.inj hpr)
        apply hdoc
        rw [hxN, ← hID, Progress.forest,
          hmid.view_leaf_iff fun hM => (hmid.sibling_ne_node hM.symm).elim] at hleaf
        obtain ⟨n, hn, ht, hl, -⟩ := hmid.node
        rw [← isLeaf_congr ht hl]
        exact (forest_leaf hn).1 hleaf
    · subst hxP
      exact (h.side.parent_inner hleaf).elim
  · obtain ⟨j', k', hpr', hk'⟩ := hN hxN
    obtain ⟨rfl, rfl⟩ := Prod.mk.inj (Option.some.inj (hpr.symm.trans hpr'))
    omega

/-- The widened entry of the parent `x` in the tree that the split is about to make. -/
theorem SplitSide.widened_entry (h : SplitSide ix N P docid log σ pr a)
    (hx : pr.Visible ix σ x) (hc : pr.Visible ix σ c) (hs : (pr.forest ix P σ).entry x c s)
    (hcN : c = N → ∀ j k, pr = some (j, k) → k < 4 →
      ∃ c' ∉ j.moved, .inr (.send N (.update .UPDATEIFPRESENT c' sig)) ∈ log)
    (hmiss : ¬ Misses ix N P log (.inr (.send x (.update .UPDATEIFPRESENT c sig))))
    (hg : σ.Grows ix docid σ')
    (hM : ∀ j k, pr = some (j, k) → k < 3 → σ' (j.siblingID ix) = σ (j.siblingID ix))
    (hnew : (∃ s, σ.forest.entry x c s) → ∃ t, σ'.forest.entry x c t ∧ Divides sig t) :
    ∃ t, (pr.forest ix P σ').entry x c t ∧ Divides sig t ∧
      (x = N → ∀ j k, pr = some (j, k) → c ∉ j.moved) := by
  have hside := h.grows hg hM
  cases h with
  | before =>
    obtain ⟨t, ht, hd⟩ := hnew ⟨s, hs⟩
    exact ⟨t, ht, hd, by simp⟩
  | @during j k a hID hmid hp hpl hrep =>
    subst hID
    have hstore : ∀ {s}, σ.forest.entry x c s → (x = j.ID → c ∉ j.moved) →
        (x = P → c = j.ID → 4 ≤ k) → ∃ t, (j.view ix P k σ').entry x c t ∧ Divides sig t ∧
          (x = j.ID → ∀ j' k', some (j, k) = some (j', k') → c ∉ j'.moved) := by
      intro s hs hN hP
      obtain ⟨t, ht, hd⟩ := hnew ⟨s, hs⟩
      refine ⟨t, Progress.entry_of_store hside (Progress.visible_grows hg hx)
        (fun hxN j' k' hj => ?_) (fun hxP hcN j' k' hj => ?_) ht, hd, fun hxN j' k' hj => ?_⟩
      · obtain ⟨rfl, rfl⟩ := Prod.mk.inj (Option.some.inj hj)
        exact hN hxN
      · obtain ⟨rfl, rfl⟩ := Prod.mk.inj (Option.some.inj hj)
        exact hP hxP hcN
      · obtain ⟨rfl, rfl⟩ := Prod.mk.inj (Option.some.inj hj)
        exact hN hxN
    rcases view_cases ix j P x with rfl | rfl | rfl | ⟨⟨-, hxN, hxP⟩, hother⟩
    · have hk := hx rfl
      rw [Progress.forest, view_sibling, if_neg (by omega)] at hs
      exact hstore hs (fun h => (hmid.sibling_ne_node h).elim)
        (fun h => (hmid.sibling_ne_parent h).elim)
    · have hs := hmid.view_node.1 hs
      exact hstore hs.1 (fun _ => hs.2) (fun h => (hmid.node_ne_parent h).elim)
    · rcases hmid.view_parent.1 hs with ⟨hk, rfl, -⟩ | ⟨hk, rfl, -⟩ | ⟨hs, hk⟩
      · have := hc rfl
        omega
      · obtain ⟨c', hc', hlog⟩ := hcN rfl j k rfl hk
        have hd : Divides sig j.groups.lcm1 := by
          by_contra hd
          exact hmiss ⟨j, hpl, .inr ⟨rfl, rfl, hd, hrep hk, c', hc', hlog⟩⟩
        exact ⟨_, hmid.view_parent.2 (.inr (.inl ⟨hk, rfl, rfl⟩)), hd,
          fun h => (hmid.node_ne_parent h.symm).elim⟩
      · exact hstore hs (fun h => (hmid.node_ne_parent h.symm).elim)
          (fun _ hc => not_lt.1 fun hlt => hk hlt hc)
    · exact hstore ((hother ..).1 hs) (fun h => (hxN h).elim) (fun h => (hxP h).elim)

/-- The child is moved away from `N`, whose parent is on the way, too. -/
theorem Both.reach_parent (h : Both ix N P docid sig log σ σ₀ (some (j, k)) a b)
    (hm : ix.metric = true) (hw : Progress.Way ix N P σ (some (j, k)) N path)
    (hroot : N ≠ ix.rootID) (hleaf : ¬ (Progress.forest ix P σ (some (j, k))).leaf N)
    (hmoved : c ∈ j.moved) (hr : (Progress.forest ix P σ (some (j, k))).Reach Divides sig c docid)
    (hmiss : ¬ Misses ix N P log (.inr (.send N (.update .UPDATEIFPRESENT c sig)))) :
    P ∈ path.map Prod.fst ∧ N ≠ P ∧
      (Progress.forest ix P σ (some (j, k))).Reach Divides sig P docid := by
  obtain ⟨y, hy, hyN⟩ := hw.parent List.mem_cons_self hroot
  cases h.side with
  | during hID hmid hp hpl hrep hdoc hself =>
    subst hID
    have hinner : j.node.isLeaf = false := by
      obtain ⟨n, hn, ht, hlev, -⟩ := hmid.node
      rw [Progress.forest, hmid.view_leaf_iff fun hM => (hmid.sibling_ne_node hM.symm).elim,
        forest_leaf hn, isLeaf_congr ht hlev] at hleaf
      simpa using hleaf
    have hyP : y = P := by
      rcases hyN.2 with ⟨s, hs⟩ | ⟨-, j', k', hj, hmem⟩
      · exact h.unique hyN.1 hs
      · obtain ⟨rfl, rfl⟩ := Prod.mk.inj (Option.some.inj hj)
        exact (hself hinner hmem).elim
    subst hyP
    obtain ⟨⟨c', s⟩, hs, rfl⟩ := List.mem_map.1 hmoved
    have hd : Divides sig s := by
      by_contra hd
      exact hmiss ⟨j, hpl, .inl ⟨rfl, s, hs, hd⟩⟩
    exact ⟨hy, hmid.node_ne_parent, hmid.reach_moved hm hinner hs hd hr⟩

/-- The widened entry of the parent `x`, or the parent `P` of `N` if the child is moved away. -/
theorem Both.reach_widened (h : Both ix N P docid sig log σ σ₀ pr a b) (hm : ix.metric = true)
    (hw : pr.Way ix N P σ c ((x, c) :: path)) (hroot : N ≠ ix.rootID)
    (hr : (pr.forest ix P σ).Reach Divides sig c docid)
    (hcN : c = N → ∀ j k, pr = some (j, k) → k < 4 →
      ∃ c' ∉ j.moved, .inr (.send N (.update .UPDATEIFPRESENT c' sig)) ∈ log)
    (hmiss : ¬ Misses ix N P log (.inr (.send x (.update .UPDATEIFPRESENT c sig))))
    (hg : σ.Grows ix docid σ')
    (hM : ∀ j k, pr = some (j, k) → k < 3 → σ' (j.siblingID ix) = σ (j.siblingID ix))
    (hnew : (∃ s, σ.forest.entry x c s) → ∃ t, σ'.forest.entry x c t ∧ Divides sig t) :
    pr.Landed ix N P docid sig (log ++ [.inr (.send x (.update .UPDATEIFPRESENT c sig))]) σ' x
      path := by
  have hr' := hr.of_widens (h.side.widens hg)
  cases hw with
  | child hl hc hw =>
    have hxleaf : ¬ (pr.forest ix P σ').leaf x := mt (Progress.leaf_grows hg x).1 hl.1
    rcases hl.2 with ⟨s, hs⟩ | ⟨rfl, j, k, rfl, hmoved⟩
    · obtain ⟨t, ht, hd, hstay⟩ := h.side.widened_entry hw.visible hc hs hcN hmiss hg hM hnew
      refine ⟨x, List.mem_cons_self, .child hxleaf ht hd hr', fun hxN j k hpr hk => ?_⟩
      subst hxN
      exact ⟨c, hstay rfl j k hpr, by simp⟩
    · obtain ⟨hmem, hne, hreach⟩ := h.reach_parent hm hw hroot hl.1 hmoved hr hmiss
      exact ⟨P, List.mem_cons_of_mem _ hmem, hreach.of_widens (h.side.widens hg),
        fun hPN => (hne hPN.symm).elim⟩

/-- A step of the insertion. -/
theorem Both.right (h : Both ix N P docid sig log σ σ₀ pr a b) (hm : ix.metric = true)
    (hroot : N ≠ ix.rootID) (hsig : Normalized sig) (hs : Prog.Does (serve ix) b σ e b')
    (hok : ¬ Misses ix N P log (.inr e)) :
    b'.Avoids Inserted ∨
      Both ix N P docid sig (log ++ [.inr e]) (e.apply (serve ix) σ) σ₀ pr a b' := by
  obtain ⟨pos, hphase, hplaced⟩ := h.placed
  rcases hphase.does hs with hdead | ⟨pos', hphase', hadv⟩
  · exact .inl hdead
  · right
    cases hadv with
    | readLeaf hx hleaf hfull =>
      exact h.grows (.refl h.side.normalized) (fun _ _ _ _ => rfl) _
        ⟨_, hphase', h.placed_leaf hplaced hx hleaf hfull⟩
    | readInner hx hleaf hc =>
      exact h.grows (.refl h.side.normalized) (fun _ _ _ _ => rfl) _
        ⟨_, hphase', h.placed_down hplaced hx hleaf hc⟩
    | put hput =>
      obtain ⟨hw, hleaf, hN⟩ := hplaced
      obtain ⟨hg, hplaced'⟩ := h.placed_put hsig hw hleaf hN hput
      exact h.grows hg (Progress.sibling_kept hw.visible _) _ ⟨_, hphase', hplaced'⟩
    | widen hstat =>
      obtain ⟨hw, z, hz, hr, hzN⟩ := hplaced
      cases hw with
      | child hl hc hw =>
        obtain ⟨hg, hnew⟩ := widen_grows h.side.normalized hsig docid hstat
        have hM := fun msg => Progress.sibling_kept hw.visible msg
        refine h.grows hg (hM _) _ ⟨_, hphase', Progress.way_grows h.side hg hw, ?_⟩
        rcases List.mem_cons.1 hz with rfl | hz
        · exact h.reach_widened hm (.child hl hc hw) hroot hr hzN hok hg (hM _)
            hnew
        · refine ⟨z, hz, hr.of_widens (h.side.widens hg), fun hN j k hpr hk => ?_⟩
          obtain ⟨c', hc', hlog⟩ := hzN hN j k hpr hk
          exact ⟨c', hc', List.mem_append_left _ hlog⟩

/-- A step of the split that keeps the view changes nothing for the insertion. -/
theorem Position.Placed.left {pos : Position} (h : pos.Placed ix N P docid sig log σ (some (j, k)))
    (hk : k ≤ k') (hview : j.view ix P k' σ' = j.view ix P k σ) (e : Act) :
    pos.Placed ix N P docid sig (log ++ [.inl e]) σ' (some (j, k')) := by
  have hforest : Progress.forest ix P σ' (some (j, k')) = Progress.forest ix P σ (some (j, k)) :=
    hview
  have hway : ∀ {x path}, Progress.Way ix N P σ (some (j, k)) x path →
      Progress.Way ix N P σ' (some (j, k')) x path := by
    intro x path hw
    refine hw.mono (fun x c _ hl => ⟨hforest ▸ hl.1, ?_⟩) fun x hx hM => (hx hM).trans hk
    rcases hl.2 with hs | ⟨hN, j', _, hj, hmem⟩
    · exact .inl (hforest ▸ hs)
    · obtain ⟨rfl, -⟩ := Prod.mk.inj (Option.some.inj hj)
      exact .inr ⟨hN, j, k', rfl, hmem⟩
  cases pos with
  | down x path => exact hway h
  | leaf x path =>
    obtain ⟨hw, hleaf, hN⟩ := h
    refine ⟨hway hw, hforest ▸ hleaf, fun hx => ?_⟩
    obtain ⟨j', k'', hj, hk'⟩ := hN hx
    obtain ⟨rfl, rfl⟩ := Prod.mk.inj (Option.some.inj hj)
    exact ⟨j, k', rfl, hk'.trans hk⟩
  | up x path =>
    obtain ⟨hw, z, hz, hr, hzN⟩ := h
    refine ⟨hway hw, z, hz, hforest ▸ hr, fun hN j' k'' hj hlt => ?_⟩
    obtain ⟨rfl, rfl⟩ := Prod.mk.inj (Option.some.inj hj)
    obtain ⟨c, hc, hlog⟩ := hzN hN j k rfl (by omega)
    exact ⟨c, hc, List.mem_append_left _ hlog⟩

theorem Both.left (h : Both ix N P docid sig log σ σ₀ (some (j, k)) a b)
    (hs : Prog.Does (serve ix) a σ e a') :
    a'.Avoids (· = .SUCC) ∨ ∃ k', Both ix N P docid sig (log ++ [.inl e])
      (e.apply (serve ix) σ) σ₀ (some (j, k')) a' b := by
  obtain ⟨hside, hunique, hkept, pos, hphase, hplaced⟩ := h
  cases hside with
  | during hID hmid hp hpl hrep hdoc hself =>
    rcases hp.does hmid hs with hdead | ⟨k', hk, hp', hmid', hview, hne⟩
    · exact .inl hdead
    · have hforest : Progress.forest ix P (e.apply (serve ix) σ) (some (j, k')) =
        Progress.forest ix P σ (some (j, k)) := hview
      refine .inr ⟨k', .during hID hmid' hp' (planned_append hpl _) (fun hk' hmem => ?_) hdoc hself,
        fun hx he => hunique (hforest ▸ hx) (hforest ▸ he), fun hr => hforest ▸ hkept hr, pos, hphase,
        hplaced.left hk hview e⟩
      rcases List.mem_append.1 hmem with hmem | hmem
      · exact hrep (by omega) hmem
      · have he := Sum.inl.inj (List.mem_singleton.1 hmem)
        exact hne hk' (hID ▸ he.symm)

theorem moved_subset {j : SplitJob} (h : j.Parts ix) (hc : c ∈ j.moved) : c ∈ j.node.keys := by
  obtain ⟨e, he, rfl⟩ := List.mem_map.1 hc
  exact List.mem_map.2 ⟨e, h.perm.mem_iff.1 (List.mem_append_right _ he), rfl⟩

theorem Splittable.unique_view {j : SplitJob} (h : Splittable ix j.ID P σ) (hmid : j.Mid ix P 0 σ)
    (hself : j.node.isLeaf = false → j.ID ∉ j.moved) (hx : ¬ (j.view ix P 0 σ).leaf x)
    (he : (j.view ix P 0 σ).entry x j.ID s) : x = P := by
  rcases view_cases ix j P x with rfl | rfl | rfl | ⟨⟨hM, -, -⟩, hother⟩
  · rw [view_sibling, if_pos (by omega)] at he
    have hinner : j.node.isLeaf = false := by simpa [SplitJob.view] using hx
    exact (hself hinner (List.mem_map.2 ⟨_, he, rfl⟩)).elim
  · rw [hmid.view_leaf_iff fun hM => (hmid.sibling_ne_node hM.symm).elim] at hx
    exact h.unique hx (hmid.view_node.1 he).1
  · rfl
  · rw [hmid.view_leaf_iff fun h => (hM h).elim] at hx
    exact h.unique hx ((hother ..).1 he)

/-- The first step of the split, which reads the node. -/
theorem Both.first (h : Both ix N P docid sig log σ σ₀ none a b) (hm : ix.metric = true)
    (hroot : N ≠ ix.rootID) (hn : σ N = some n)
    (hg : splitNode ix.MAXENTRIES ix.metric (n.entries.map Prod.snd) = some g)
    (hM : σ (SplitJob.siblingID ix ⟨N, n, g⟩) = none) (hp : SplitPhase ix ⟨N, n, g⟩ P 0 a') :
    Both ix N P docid sig (log ++ [.inl (.read N (some n))]) σ σ₀ (some (⟨N, n, g⟩, 0)) a' b := by
  obtain ⟨hside, hunique, hkept, pos, hphase, hplaced⟩ := h
  cases hside with
  | before hs hdoc hlog =>
    have hparts := hs.parts hn hg
    have hpl := planned_first (N := N) hlog hg
    generalize hj : SplitJob.mk N n g = j at *
    obtain ⟨rfl, rfl, rfl⟩ : j.ID = N ∧ j.node = n ∧ j.groups = g := by simp [← hj]
    have hmid := hs.mid hn hparts hM
    have hsplit := hs.split hn hparts (hparts.covers hm) hM
    have hself : j.node.isLeaf = false → j.ID ∉ j.moved := by
      intro hinner hmem
      obtain ⟨s, hs'⟩ := mem_keys.1 (moved_subset hparts hmem)
      exact hs.ne (hs.unique (by simp [forest_leaf hn, hinner]) ((forest_entry hn).2 hs'))
    have hne : ∀ {x}, σ x ≠ none → x ≠ j.siblingID ix := by
      rintro x hx rfl
      exact hx hM
    have hside : SplitSide ix j.ID P docid (log ++ [.inl (.read j.ID (some j.node))]) σ
        (some (j, 0)) a' := by
      refine .during rfl hmid hp hpl (fun _ hmem => ?_) (fun hleaf hmem => ?_) hself
      · rcases List.mem_append.1 hmem with hmem | hmem
        · simpa using hlog _ hmem
        · simp at hmem
      · exact hdoc _ hn hleaf (moved_subset hparts hmem)
    have hvis : ∀ x, Progress.Visible ix σ x none → Progress.Visible ix σ x (some (j, 0)) :=
      fun x hx hxM => (hne hx hxM).elim
    have hway : ∀ {x path}, Progress.Way ix j.ID P σ none x path →
        Progress.Way ix j.ID P σ (some (j, 0)) x path := by
      intro x path hw
      refine hw.mono (fun x c hx hl => ?_) hvis
      rcases hl.2 with ⟨s, hs⟩ | ⟨_, _, _, hj, _⟩
      · exact Progress.linked_of_store hside (hvis x hx) hl.1 hs
      · cases hj
    refine ⟨hside, fun hx he => hs.unique_view hmid hself hx he,
      fun hr => (hsplit.reach (hkept hr)).1 hroot.symm, pos, hphase, ?_⟩
    cases pos with
    | down x path => exact hway hplaced
    | leaf x path =>
      obtain ⟨hw, hleaf, hN⟩ := hplaced
      refine ⟨hway hw, (Progress.leaf_iff hside (hvis x hw.visible)).2 hleaf, fun hx => ?_⟩
      obtain ⟨_, _, hj, _⟩ := hN hx
      cases hj
    | up x path =>
      obtain ⟨hw, z, hz, hr, -⟩ := hplaced
      refine ⟨hway hw, ?_⟩
      by_cases hzN : z = j.ID
      · subst hzN
        obtain ⟨y, hy, hl⟩ := hw.parent hz hroot
        obtain rfl : y = P := by
          rcases hl.2 with ⟨s, hs⟩ | ⟨_, _, _, hj, _⟩
          · exact hunique hl.1 hs
          · cases hj
        refine ⟨y, List.mem_cons_of_mem _ hy, ?_, fun h => (hmid.node_ne_parent h.symm).elim⟩
        have hinner := hside.parent_inner
        rcases (hsplit.reach hr).2 rfl with ⟨hd, hr⟩ | ⟨hd, hr⟩
        · exact .child hinner (hmid.view_parent.2 (.inr (.inl ⟨by omega, rfl, rfl⟩))) hd hr
        · exact .child hinner (hmid.view_parent.2 (.inl ⟨by omega, rfl, rfl⟩)) hd hr
      · exact ⟨z, hz, (hsplit.reach hr).1 hzN, fun h => (hzN h).elim⟩

theorem update_present (ix : Index) (hy : σ y = some n) (x : Key) (type : InsertType) (key : Key)
    (sig : Sig) : ∃ n', ix.deliver σ x (.update type key sig) y = some n' ∧ n'.int = n.int := by
  by_cases hyx : y = x
  · subst hyx
    rcases serveUpdate_cases ix type key sig n with
      ⟨_, -, -, h⟩ | ⟨-, h⟩ | ⟨-, -, h⟩ | ⟨-, -, -, h⟩ <;>
    exact ⟨_, deliver_some (congrArg Prod.fst (serve_update hy h)), rfl⟩
  · exact ⟨n, (deliver_of_ne hyx _).trans hy, rfl⟩

theorem Ongoing.right (h : Ongoing ix N P docid sig log σ σ₀ a b) (hm : ix.metric = true)
    (hroot : N ≠ ix.rootID) (hsig : Normalized sig) (hs : Prog.Does (serve ix) b σ e b')
    (hok : ¬ Misses ix N P log (.inr e)) :
    Ongoing ix N P docid sig (log ++ [.inr e]) (e.apply (serve ix) σ) σ₀ a b' := by
  cases h with
  | noSplit ha => exact .noSplit ha
  | noInsert hb => exact .noInsert (hs.avoids hb)
  | waits hw hM hN hphase =>
    rcases hphase.does hs with hdead | ⟨pos', hphase', hadv⟩
    · exact .noInsert hdead
    · have hsend : ∀ x type key, Ongoing ix N P docid sig (log ++ [.inr e])
          (ix.deliver σ x (.update type key sig)) σ₀ a b' := by
        intro x type key
        obtain ⟨m, hm⟩ := Option.ne_none_iff_exists'.1 hM
        obtain ⟨m', hm', -⟩ := update_present ix hm x type key sig
        obtain ⟨n, hn, hint⟩ := hN
        obtain ⟨n', hn', hint'⟩ := update_present ix hn x type key sig
        exact .waits hw (by simp [hm']) ⟨n', hn', hint'.trans hint⟩ hphase'
      cases hadv with
      | readLeaf => exact .waits hw hM hN hphase'
      | readInner => exact .waits hw hM hN hphase'
      | put => exact hsend _ _ _
      | widen => exact hsend _ _ _
  | both h =>
    rcases h.right hm hroot hsig hs hok with hdead | hboth
    · exact .noInsert hdead
    · exact .both hboth

theorem Ongoing.left (h : Ongoing ix N P docid sig log σ σ₀ a b) (hm : ix.metric = true)
    (hroot : N ≠ ix.rootID) (hs : Prog.Does (serve ix) a σ e a') :
    Ongoing ix N P docid sig (log ++ [.inl e]) (e.apply (serve ix) σ) σ₀ a' b := by
  cases h with
  | noSplit ha => exact .noSplit (hs.avoids ha)
  | noInsert hb => exact .noInsert hb
  | waits hw hM hN hphase =>
    rcases hw.does hM hN hs with hdead | ⟨hw', hσ⟩
    · exact .noSplit hdead
    · rw [hσ]
      exact .waits hw' hM hN hphase
  | @both pr h =>
    rcases pr with - | ⟨j, k⟩
    · cases h.side with
      | before =>
        rcases performSplit_does hs with hdead | ⟨n, g, hn, rfl, hg, hp, hw⟩
        · exact .noSplit hdead
        · cases hM : σ (SplitJob.siblingID ix ⟨N, n, g⟩) with
          | none => exact .both (h.first hm hroot hn hg hM hp)
          | some m =>
            obtain ⟨pos, hphase, -⟩ := h.placed
            exact .waits hw (by simp [Prog.Event.apply, hM]) ⟨n, hn, rfl⟩ hphase
    · rcases h.left hs with hdead | ⟨k', hboth⟩
      · exact .noSplit hdead
      · exact .both hboth

theorem ongoing (h : Splittable ix N P σ₀) (hm : ix.metric = true) (hroot : N ≠ ix.rootID)
    (hex : σ₀ ix.rootID ≠ none) (hsig : Normalized sig)
    (hfresh : ∀ n, σ₀ N = some n → n.isLeaf = true → docid ∉ n.keys)
    (hrun : Prog.Par (serve ix) (fun log e => ¬ Misses ix N P log e)
      (performSplit ix fuel N oldInt P) (insertDocument ix sig docid fuel' ix.rootID) σ₀ log a b σ) :
    Ongoing ix N P docid sig log σ σ₀ a b := by
  induction hrun with
  | start =>
    have hphase : InsertPhase ix sig docid (.down ix.rootID [])
        (insertDocument ix sig docid fuel' ix.rootID >>= .ret) := .down .nil
    rw [Prog.bind_ret] at hphase
    have hside : SplitSide ix N P docid [] σ₀ none (performSplit ix fuel N oldInt P) :=
      .before h hfresh (by simp)
    exact .both ⟨hside, fun hx he => h.unique hx he, fun hr => hr, .down ix.rootID [], hphase,
      .root hex⟩
  | left _ hs _ ih => exact ih.left hm hroot hs
  | right _ hs hok ih => exact ih.right hm hroot hsig hs hok

end Both

section Race

variable {ix : Index} {σ σ' : Store} {N P docid : Key} {sig : Sig}

theorem InsertPhase.ret (h : InsertPhase ix sig docid pos b) (hb : b = .ret r) :
    ∃ x, pos = .up x [] := by
  cases h with
  | @down _ _ x fuel =>
    cases fuel with
    | zero => cases hb
    | succ fuel => cases hb
  | leaf => cases hb
  | @up _ _ x _ hnext =>
    cases hnext with
    | nil => exact ⟨x, rfl⟩
    | cons => cases hb

theorem par_finite {a₀ a : Client α} {b₀ b : Client β} (h : σ.Finite)
    (hrun : Prog.Par (serve ix) ok a₀ b₀ σ log a b σ') : σ'.Finite := by
  have happly : ∀ {σ : Store} {e : Act}, σ.Finite → Store.Finite (e.apply (serve ix) σ) := by
    intro σ e hσ
    cases e with
    | send key msg => exact deliver_finite hσ key msg
    | _ => exact hσ
  induction hrun with
  | start => exact h
  | left _ _ _ ih => exact happly ih
  | right _ _ _ ih => exact happly ih

/-- Where no update is missed, a split and an insertion that both succeed lose no document. -/
theorem split_insert_found (h : WellFormed ix σ) (hm : ix.metric = true) (hN : σ N = some n)
    (hroot : N ≠ ix.rootID) (hfull : ix.full n) (hP : Refers σ P N)
    (hfresh : ∀ x m, σ x = some m → m.isLeaf = true → docid ∉ m.keys) (hsig : Normalized sig)
    (hrun : Prog.Par (serve ix) (fun log e => ¬ Misses ix N P log e)
      (performSplit ix fuel N oldInt P) (insertDocument ix sig docid fuel' ix.rootID) σ log
      (.ret .SUCC) (.ret (.SUCC, fullNodes)) σ') :
    (∀ q, Normalized q → Divides q sig → Found ix σ' q docid) ∧ StillFound ix σ σ' := by
  obtain ⟨r, hr, -⟩ := h.root
  have hfin := par_finite h.finite hrun
  cases ongoing (h.splittable hN hroot hfull hP) hm hroot (by simp [hr]) hsig (hfresh N) hrun with
  | noSplit ha => exact (ha rfl).elim
  | noInsert hb => exact (hb rfl).elim
  | waits hw => exact (hw.ne_ret rfl).elim
  | @both pr hboth =>
    obtain ⟨hside, -, hkept, pos, hphase, hplaced⟩ := hboth
    obtain ⟨x, rfl⟩ := hphase.ret rfl
    generalize ha : (Prog.ret .SUCC : Client DHTStatus) = a at hside
    cases hside with
    | before => cases ha
    | @during j k _ hID hmid hp =>
      obtain rfl := hp.ret ha.symm
      have hforest : Progress.forest ix P σ' (some (j, 5)) = σ'.forest := hmid.view_eq
      obtain ⟨hw, z, hz, hreach, -⟩ := hplaced
      cases hw with
      | root =>
        obtain rfl : z = ix.rootID := by simpa using hz
        rw [hforest] at hreach
        refine ⟨fun q hq hd => ?_, fun q d hq hfound => ?_⟩
        · exact (found_iff hmid.normalized hfin hq).2 (hreach.of_le hd)
        · rw [found_iff h.normalized h.finite hq] at hfound
          have hafter := hkept hfound
          rw [hforest] at hafter
          exact (found_iff hmid.normalized hfin hq).2 hafter

def raceNodes : List (Key × Node) :=
  [([99], ⟨.ROOT, ⟨0, 1, 1, 1, 2, 1⟩, [([78], [6])]⟩),
    ([78], ⟨.NONLEAF, ⟨0, 1, 1, 2, 1, 1⟩, [([65], [2]), ([66], [3])]⟩),
    ([65], ⟨.LEAF, ⟨0, 1, 1, 2, 0, 1⟩, [([97, 35], [2])]⟩),
    ([66], ⟨.LEAF, ⟨1, 2, 1, 1, 0, 1⟩, [([98, 35], [3])]⟩)]

def raceStore : Store := fun x => raceNodes.lookup x

theorem raceStore_some (h : raceStore x = some n) : (x, n) ∈ raceNodes := by
  obtain ⟨l₁, l₂, hl, -⟩ := List.lookup_eq_some_iff.1 h
  simp [hl]

theorem raceStore_refers (h : Refers raceStore y x) :
    (y, x) ∈ [(([99], [78]) : Key × Key), ([78], [65]), ([78], [66])] := by
  obtain ⟨n, hy, hpos, hx⟩ := h
  have hmem := raceStore_some hy
  revert hpos hx
  simp only [raceNodes, List.mem_cons, Prod.mk.injEq, List.not_mem_nil, or_false] at hmem
  rcases hmem with ⟨rfl, rfl⟩ | ⟨rfl, rfl⟩ | ⟨rfl, rfl⟩ | ⟨rfl, rfl⟩ <;> simp [Node.keys]

theorem raceStore_covered : raceStore.forest.Covered Divides := by
  apply Forest.covered_of_entries
  intro x c t d s hx he hd
  obtain ⟨n, hn, hc⟩ := exists_of_entry he
  obtain ⟨m, hm, hs⟩ := exists_of_entry hd
  rw [forest_leaf hn] at hx
  have hn := raceStore_some hn
  have hm := raceStore_some hm
  simp only [raceNodes, List.mem_cons, Prod.mk.injEq, List.not_mem_nil, or_false] at hn hm
  have h26 : Divides [2] [6] := (remainder_eq_zero_iff (by decide) (by decide)).1 (by decide)
  have h36 : Divides [3] [6] := (remainder_eq_zero_iff (by decide) (by decide)).1 (by decide)
  rcases hn with ⟨rfl, rfl⟩ | ⟨rfl, rfl⟩ | ⟨rfl, rfl⟩ | ⟨rfl, rfl⟩
  · obtain ⟨rfl, rfl⟩ : c = [78] ∧ t = [6] := by simpa using hc
    obtain rfl : m = ⟨.NONLEAF, ⟨0, 1, 1, 2, 1, 1⟩, [([65], [2]), ([66], [3])]⟩ := by simpa using hm
    simp only [List.mem_cons, Prod.mk.injEq, List.not_mem_nil, or_false] at hs
    rcases hs with ⟨-, rfl⟩ | ⟨-, rfl⟩
    · exact h26
    · exact h36
  · simp only [List.mem_cons, Prod.mk.injEq, List.not_mem_nil, or_false] at hc
    rcases hc with ⟨rfl, rfl⟩ | ⟨rfl, rfl⟩
    · obtain rfl : m = ⟨.LEAF, ⟨0, 1, 1, 2, 0, 1⟩, [([97, 35], [2])]⟩ := by simpa using hm
      obtain ⟨-, rfl⟩ : d = [97, 35] ∧ s = [2] := by simpa using hs
      exact refl_of Divides _
    · obtain rfl : m = ⟨.LEAF, ⟨1, 2, 1, 1, 0, 1⟩, [([98, 35], [3])]⟩ := by simpa using hm
      obtain ⟨-, rfl⟩ : d = [98, 35] ∧ s = [3] := by simpa using hs
      exact refl_of Divides _
  · simp [Node.isLeaf] at hx
  · simp [Node.isLeaf] at hx

theorem raceStore_wellFormed : WellFormed smallIndex raceStore := by
  have hall : ∀ {p : Key → Node → Prop}, (∀ e ∈ raceNodes, p e.1 e.2) →
      ∀ {x n}, raceStore x = some n → p x n := fun h _ _ hx => h _ (raceStore_some hx)
  refine ⟨⟨_, rfl, rfl⟩, hall (p := fun _ n => 0 ≤ n.int.level.toInt) (by decide),
    hall (p := fun x n => x ≠ smallIndex.rootID → n.nodeType = if n.int.level = 0 then .LEAF else
      .NONLEAF) (by decide), ?_, ?_, ?_, ?_, hall (p := fun _ n => n.keys.Nodup) (by decide),
    hall (p := fun _ n => n.entries.length ≤ smallIndex.MAXENTRIES) (by decide),
    fun x n => hall (p := fun _ n => ∀ e ∈ n.entries, Normalized e.2) (by decide), ?_,
    raceStore_covered⟩
  · intro x n r hx hne hr
    obtain rfl := Option.some.inj hr
    revert hne
    exact hall (p := fun x n => x ≠ smallIndex.rootID → n.int.level.toInt < 2) (by decide) hx
  · intro x n c hx hpos hc
    have href := raceStore_refers ⟨n, hx, hpos, hc⟩
    simp only [List.mem_cons, Prod.mk.injEq, List.not_mem_nil, or_false] at href
    rcases href with ⟨rfl, rfl⟩ | ⟨rfl, rfl⟩ | ⟨rfl, rfl⟩
    · obtain rfl := Option.some.inj hx
      exact ⟨_, rfl, rfl⟩
    · obtain rfl := Option.some.inj hx
      exact ⟨_, rfl, rfl⟩
    · obtain rfl := Option.some.inj hx
      exact ⟨_, rfl, rfl⟩
  · intro x n hx hne
    have hx := raceStore_some hx
    simp only [raceNodes, List.mem_cons, Prod.mk.injEq, List.not_mem_nil, or_false] at hx
    rcases hx with ⟨rfl, rfl⟩ | ⟨rfl, rfl⟩ | ⟨rfl, rfl⟩ | ⟨rfl, rfl⟩
    · exact (hne rfl).elim
    · exact ⟨[99], _, rfl, by decide, by decide⟩
    · exact ⟨[78], _, rfl, by decide, by decide⟩
    · exact ⟨[78], _, rfl, by decide, by decide⟩
  · intro y y' x hy hy'
    have hy := raceStore_refers hy
    have hy' := raceStore_refers hy'
    simp only [List.mem_cons, Prod.mk.injEq, List.not_mem_nil, or_false] at hy hy'
    rcases hy with ⟨rfl, rfl⟩ | ⟨rfl, rfl⟩ | ⟨rfl, rfl⟩ <;> simp_all
  · refine ⟨raceNodes.map Prod.fst, fun x hx => ?_⟩
    obtain ⟨n, hn⟩ := Option.ne_none_iff_exists'.1 hx
    exact List.mem_map.2 ⟨_, raceStore_some hn, rfl⟩

/-- The client that splits the node in the middle, and the one that inserts a document below it. -/
abbrev raceSplit : Client DHTStatus := performSplit smallIndex 1 [78] ⟨0, 1, 1, 2, 1, 1⟩ [99]

abbrev raceInsert (sig : Sig) : Client (DHTStatus × FullNodes) :=
  insertDocument smallIndex sig [100, 35] 4 [99]

abbrev raceExec (r : Fin RAND_MAX) (turns : List Bool) (sig : Sig) :
    Option (List (Act ⊕ Act) × DHTStatus × (DHTStatus × FullNodes) × Store) :=
  Prog.execTurns (serve smallIndex) r turns raceSplit (raceInsert sig) raceStore

/-- The insertion widens the entry that stays when the node has been read, and the one for the node
when it has been replaced. -/
def raceTurns : List Bool :=
  true :: (List.replicate 5 false ++ List.replicate 8 true ++ [false])

theorem raceStore_fresh (x : Key) (m : Node) (hx : raceStore x = some m) (_ : m.isLeaf = true) :
    [100, 35] ∉ m.keys := by
  have hall : ∀ e ∈ raceNodes, [100, 35] ∉ e.2.keys := by decide
  exact hall _ (raceStore_some hx)

def raceLog : List (Act ⊕ Act) :=
  [.inl (.read [78] (raceStore [78])), .inr (.read [99] (raceStore [99])),
    .inr (.read [78] (raceStore [78])), .inr (.read [66] (raceStore [66])),
    .inr (.send [66] (.update .UPDATE [100, 35] [5])),
    .inr (.send [78] (.update .UPDATEIFPRESENT [66] [5])), .inl .draw,
    .inl (.send (unaryID 1 1 3) (.updateHdrLock .NONLEAF ⟨1, 3, 1, 2, 1, 1⟩)),
    .inl (.send (unaryID 1 1 3) (.split [([65], [2])])),
    .inl (.send [99] (.update .UPDATE (unaryID 1 1 3) [2])),
    .inl (.send [99] (.update .REPLACESIG [78] [3])),
    .inl (.send [78] (.splitSpecial [[65]])),
    .inl (.send [78] (.updateHdr .NONLEAF ⟨0, 1, 1, 3, 1, 1⟩)),
    .inl (.read [78] (some ⟨.NONLEAF, ⟨0, 1, 1, 3, 1, 1⟩, [([66], [5])]⟩)),
    .inr (.send [99] (.update .UPDATEIFPRESENT [78] [5]))]

theorem raceLog_planned {log : List (Act ⊕ Act)}
    (h : planned smallIndex [78] (.inl (.read [78] (raceStore [78])) :: log) = some j) :
    j.items2 = [([65], [2])] ∧ j.groups.lcm1 = [3] := by
  have hsplit : splitNode 2 true [[2], [3]] = some ⟨[2], [1], [3], [2]⟩ := by decide +kernel
  have hread : raceStore [78] =
    some ⟨.NONLEAF, ⟨0, 1, 1, 2, 1, 1⟩, [([65], [2]), ([66], [3])]⟩ := rfl
  simp only [planned, snapshot, hread, List.findSome?_cons, Option.bind_eq_bind, Option.bind_some,
    List.map_cons, List.map_nil, smallIndex, hsplit, Option.pure_def, Option.some.injEq] at h
  rw [← h]
  exact ⟨by decide, rfl⟩

theorem raceLog_allowed : Prog.Allowed (fun log e => ¬ Misses smallIndex [78] [99] log e) [] raceLog := by
  refine ⟨id, id, id, id, id, ?_, id, id, id, id, id, id, id, id, ?_, trivial⟩
  · rintro ⟨j, hj, ⟨-, s, hs, -⟩ | ⟨hx, -⟩⟩
    · rw [(raceLog_planned hj).1] at hs
      simp at hs
    · simp at hx
  · rintro ⟨j, hj, ⟨hx, -⟩ | ⟨-, -, -, hreplace, -⟩⟩
    · simp at hx
    · rw [(raceLog_planned hj).2] at hreplace
      exact hreplace (by simp)

theorem split_insert_found_race : ∃ σ',
    Prog.Par (serve smallIndex) (fun log e => ¬ Misses smallIndex [78] [99] log e) raceSplit
      (raceInsert [5]) raceStore raceLog (.ret .SUCC) (.ret (.SUCC, [])) σ' ∧
    (∀ q, Normalized q → Divides q [5] → Found smallIndex σ' q [100, 35]) ∧
      StillFound smallIndex raceStore σ' := by
  have hlog : (raceExec ⟨0, by decide⟩ raceTurns [5]).map Prod.fst = some raceLog := by
    decide +kernel
  have hrun : (raceExec ⟨0, by decide⟩ raceTurns [5]).map (fun r => (r.2.1, r.2.2.1)) =
    some (.SUCC, (.SUCC, [])) := by decide +kernel
  obtain ⟨⟨log, ra, rb, σ'⟩, h, hresult⟩ := Option.map_eq_some_iff.1 hrun
  obtain ⟨rfl, rfl⟩ := Prod.mk.inj hresult
  rw [h] at hlog
  obtain rfl : log = raceLog := Option.some.inj hlog
  have hpar := Prog.Par.execTurns .start h raceLog_allowed
  exact ⟨σ', hpar, split_insert_found raceStore_wellFormed rfl rfl (by decide) (by decide)
    ⟨_, rfl, by decide, by decide⟩ raceStore_fresh (by decide) hpar⟩

/-- The insertion runs between the reading of the node and the first message of the split. -/
theorem split_insert_loses : ¬ ∀ (ix : Index) (σ σ' : Store) (N P docid : Key) (n p : Node)
    (sig : Sig) (fuel fuel' : Nat) (oldInt : Interval) (log : List (Act ⊕ Act))
    (fullNodes : FullNodes), WellFormed ix σ → ix.metric = true → σ N = some n → N ≠ ix.rootID →
    ix.full n → Refers σ P N → σ P = some p → ix.full p = false →
    (∀ x m, σ x = some m → m.isLeaf = true → docid ∉ m.keys) → Normalized sig →
    Prog.Par (serve ix) (fun _ _ => True) (performSplit ix fuel N oldInt P)
      (insertDocument ix sig docid fuel' ix.rootID) σ log (.ret .SUCC) (.ret (.SUCC, fullNodes)) σ' →
    (∀ q, Normalized q → Divides q sig → Found ix σ' q docid) ∧ StillFound ix σ σ' := by
  intro hall
  have hrun : (raceExec ⟨0, by decide⟩
      (true :: (List.replicate 6 false ++ List.replicate 8 true)) [7]).map
        (fun r => (r.2.2.1, r.2.1, query smallIndex r.2.2.2 5 [7])) =
          some ((.SUCC, []), .SUCC, some []) := by decide +kernel
  obtain ⟨⟨log, ra, rb, σ'⟩, h, hresult⟩ := Option.map_eq_some_iff.1 hrun
  simp only [Prod.mk.injEq] at hresult
  obtain ⟨rfl, rfl, hquery⟩ := hresult
  have hpar := Prog.Par.execTurns .start h (Prog.allowed_of_forall (fun _ _ => trivial) [] log)
  have hfound := (hall smallIndex raceStore σ' [78] [99] [100, 35] _ _ [7] _ _ _ _ []
    raceStore_wellFormed rfl rfl (by decide) (by decide) ⟨_, rfl, by decide, by decide⟩ rfl
    (by decide) raceStore_fresh (by decide) hpar).1
  exact not_found hquery (by simp) (hfound [7] (by decide) (refl_of Divides _))

end Race

end XGossip
