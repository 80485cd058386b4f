import XGossip.Index.Split

namespace XGossip
set_option autoImplicit true

open Gf2

/-- Every document that a query finds in `σ` is found by it in `σ'`. -/
structure Keeps (ix : Index) (σ σ' : Store) : Prop where
  normalized : σ'.Normalized
  reported : Reported σ q ix.rootID d → Reported σ' q ix.rootID d

section Always

variable {ix : Index} {σ : Store} {I : Nat → Store → Prop}

theorem always_insertThen (h : I n σ)
    (hfail : (store_cb (serve ix (σ ID) value).2).failed = true → I (n + 1) (ix.deliver σ ID value))
    (hnext : (store_cb (serve ix (σ ID) value).2).failed = false →
      Prog.always (serve ix) I next (n + 1) (ix.deliver σ ID value)) :
    Prog.always (serve ix) I (insertThen ID value next) n σ := by
  refine ⟨h, ?_⟩
  dsimp only [insertDHT, Prog.bind]
  split
  · next hf => exact hfail hf
  · next hf => exact hnext (by simpa using hf)

theorem always_accepted (hok : (serve ix (σ ID) value).2 = .DHASH_OK) (h : I n σ)
    (hnext : Prog.always (serve ix) I next (n + 1) (ix.deliver σ ID value)) :
    Prog.always (serve ix) I (insertThen ID value next) n σ := by
  refine always_insertThen h (fun hf => ?_) fun _ => hnext
  rw [hok] at hf
  simp [store_cb, DHTStatus.failed] at hf

theorem always_awaitHeader (h : I n σ) (ID : Key) (nodeInt : Interval) (done : DHTStatus)
    (attempts : Nat) : Prog.always (serve ix) I (awaitHeader ID nodeInt done attempts) n σ := by
  induction attempts with
  | zero => exact h
  | succ attempts ih =>
    refine ⟨h, ?_⟩
    dsimp only [Prog.bind]
    split
    · exact h
    · split
      · exact ih
      · exact h

theorem always_refused (hr : Refused ix σ ID value) (h : I n σ) (h' : I (n + 1) σ) :
    Prog.always (serve ix) I (insertThen ID value next) n σ := by
  refine always_insertThen h (fun _ => hr.2.symm ▸ h') fun hn => ?_
  rw [hr.1] at hn
  simp at hn

theorem always_readFull {next : SplitJob → Client DHTStatus} (h : I m σ)
    (hnext : ∀ n g, σ ID = some n → ix.full n →
      splitNode ix.MAXENTRIES ix.metric (n.entries.map Prod.snd) = some g →
      Prog.always (serve ix) I (next ⟨ID, n, g⟩) m σ) :
    Prog.always (serve ix) I (readFull ix ID oldInt next) m σ := by
  refine ⟨h, ?_⟩
  dsimp only [Prog.bind]
  split
  · exact h
  · next n hn =>
    split
    · exact h
    · next hfull =>
      split
      · exact h
      · split
        · exact h
        · next g hg => exact hnext n g hn (by simpa using hfull) hg

end Always

section PerformSplit

variable {ix : Index} {j : SplitJob} {P : Key} {σ₀ σ : Store}

theorem Keeps.refl (h : σ.Normalized) : Keeps ix σ σ := ⟨h, fun hr => hr⟩

theorem Keeps.of_widens (hn : σ.Normalized) (h : Forest.Widens Divides σ₀.forest σ.forest) :
    Keeps ix σ₀ σ :=
  ⟨hn, fun hr => hr.of_widens h⟩

theorem always_header {I : Nat → Store → Prop}
    (hI : ∀ n σ', 4 ≤ n → σ'.Normalized → σ'.forest = σ.forest → I n σ')
    (h : j.Mid ix P 5 σ) (hn : 4 ≤ n) (fuel : Nat) :
    Prog.always (serve ix) I (j.header fuel) n σ := by
  have hrec : ∀ fuel n σ', 4 ≤ n → j.Mid ix P 5 σ' → σ'.forest = σ.forest →
      Prog.always (serve ix) I (j.header fuel) n σ' := by
    intro fuel
    induction fuel with
    | zero => exact fun n σ' hn hmid hf => hI n σ' hn hmid.normalized hf
    | succ fuel ih =>
      intro n σ' hn hmid hf
      obtain ⟨hmid', hf'⟩ := hmid.header j.node.nodeType j.myInt
      have hI' := hI (n + 1) _ (by omega) hmid'.normalized (hf'.trans hf)
      refine always_insertThen (hI n σ' hn hmid.normalized hf) (fun _ => hI') (fun _ => ⟨hI', ?_⟩)
      dsimp only [Prog.bind]
      split
      · exact ih _ _ (by omega) hmid' (hf'.trans hf)
      · split
        · exact hI'
        · exact hI'
  exact hrec fuel n σ hn h rfl

/-- The stores along a split, as long as they keep what is in `σ₀` or what is in the view `V`. -/
structure SplitJob.Along (ix : Index) (j : SplitJob) (P : Key) (σ₀ : Store) (V : Forest Key Sig)
    (k : Nat) (σ : Store) : Prop where
  mid : j.Mid ix P k σ
  view : j.view ix P k σ = V
  widens : k < 4 → Forest.Widens Divides σ₀.forest σ.forest

variable {V : Forest Key Sig} {C : Prop}

theorem always_delete
    (hV : C → ∀ q d, Reported σ₀ q ix.rootID d → V.Reach Divides q ix.rootID d)
    (h : j.Along ix P σ₀ V 4 σ) (fuel : Nat) :
    Prog.always (serve ix) (fun k σ => (k < 4 ∨ C) → Keeps ix σ₀ σ) (j.delete fuel) 4 σ := by
  obtain ⟨hok, hmid, hview⟩ := h.mid.delete
  have hforest := hmid.view_eq.symm.trans (hview.trans h.view)
  refine always_accepted hok (fun hc => ⟨h.mid.normalized, fun hr => ?_⟩)
    (always_header (fun n σ' hn hnorm hf hc => ⟨hnorm, fun hr => ?_⟩) hmid (by omega) fuel)
  · have hreach := hV (hc.resolve_left (by omega)) _ _ hr
    rw [← h.view] at hreach
    exact hreach.of_widens h.mid.view_widens
  · rw [Reported, hf, hforest]
    exact hV (hc.resolve_left (by omega)) _ _ hr

theorem always_replace
    (hV : C → ∀ q d, Reported σ₀ q ix.rootID d → V.Reach Divides q ix.rootID d)
    (h : j.Along ix P σ₀ V 3 σ) (fuel : Nat) :
    Prog.always (serve ix) (fun k σ => (k < 4 ∨ C) → Keeps ix σ₀ σ) (j.replace P fuel) 3 σ := by
  have hkeep : Keeps ix σ₀ σ := .of_widens h.mid.normalized (h.widens (by omega))
  rcases h.mid.replace with hr | ⟨hok, hmid, hview⟩
  · exact always_refused hr (fun _ => hkeep) (fun _ => hkeep)
  · exact always_accepted hok (fun _ => hkeep)
      (always_delete hV ⟨hmid, hview.trans h.view, by omega⟩ fuel)

theorem always_link
    (hV : C → ∀ q d, Reported σ₀ q ix.rootID d → V.Reach Divides q ix.rootID d)
    (h : j.Along ix P σ₀ V 2 σ) (fuel : Nat) :
    Prog.always (serve ix) (fun k σ => (k < 4 ∨ C) → Keeps ix σ₀ σ) (j.link ix P fuel) 2 σ := by
  have hkeep : Keeps ix σ₀ σ := .of_widens h.mid.normalized (h.widens (by omega))
  rcases h.mid.link with hr | ⟨hok, hmid, hview, hw⟩
  · exact always_refused hr (fun _ => hkeep) (fun _ => hkeep)
  · exact always_accepted hok (fun _ => hkeep)
      (always_replace hV ⟨hmid, hview.trans h.view, fun _ => (h.widens (by omega)).trans hw⟩ fuel)

theorem always_fill
    (hV : C → ∀ q d, Reported σ₀ q ix.rootID d → V.Reach Divides q ix.rootID d)
    (h : j.Along ix P σ₀ V 1 σ) (fuel : Nat) :
    Prog.always (serve ix) (fun k σ => (k < 4 ∨ C) → Keeps ix σ₀ σ) (j.fill ix P fuel) 1 σ := by
  obtain ⟨hok, hmid, hview, hw⟩ := h.mid.fill
  exact always_accepted hok (fun _ => .of_widens h.mid.normalized (h.widens (by omega)))
    (always_link hV ⟨hmid, hview.trans h.view, fun _ => (h.widens (by omega)).trans hw⟩ fuel)

theorem always_create
    (hV : C → ∀ q d, Reported σ₀ q ix.rootID d → V.Reach Divides q ix.rootID d)
    (h : j.Along ix P σ₀ V 0 σ₀) (fuel : Nat) (random : BitVec 32) :
    Prog.always (serve ix) (fun k σ => (k < 4 ∨ C) → Keeps ix σ₀ σ)
      (j.create ix P fuel random) 0 σ₀ := by
  have hkeep : Keeps ix σ₀ σ₀ := .refl h.mid.normalized
  obtain ⟨hok, hmid, hview, hw⟩ := h.mid.create random
  refine ⟨fun _ => hkeep, ?_⟩
  dsimp only [Prog.bind, insertDHT]
  rw [hok]
  exact always_fill hV ⟨hmid, hview.trans h.view, fun _ => hw⟩ fuel

/-- A client that stops in the middle of a split of a node besides the root. -/
theorem always_performSplit (h : Splittable ix N P σ₀) (hn : σ₀ N = some n) (hroot : ix.rootID ≠ N)
    (fuel : Nat) (oldInt : Interval) :
    Prog.always (serve ix) (fun k σ =>
      (k < 4 ∨ ∀ g, splitNode ix.MAXENTRIES ix.metric (n.entries.map Prod.snd) = some g →
        (SplitJob.mk N n g).Covers) → Keeps ix σ₀ σ)
      (performSplit ix fuel N oldInt P) 0 σ₀ := by
  have hkeep : Keeps ix σ₀ σ₀ := .refl h.normalized
  refine always_readFull (fun _ => hkeep) fun n' g hn' hfull hg => ⟨fun _ => hkeep, fun r => ?_⟩
  obtain rfl : n = n' := Option.some.inj (hn.symm.trans hn')
  have hparts := h.parts hn hg
  generalize hj : SplitJob.mk N n g = j at hparts
  obtain ⟨rfl, rfl, rfl⟩ : j.ID = N ∧ j.node = n ∧ j.groups = g := by simp [← hj]
  cases hM : σ₀ (j.siblingID ix) with
  | none =>
    refine always_create (fun hc q d hr => ?_)
      ⟨h.mid hn hparts hM, rfl, fun _ => .refl⟩ fuel _
    exact ((h.split hn hparts (hc _ hg) hM).reach hr).1 hroot
  | some m =>
    refine ⟨fun _ => hkeep, ?_⟩
    dsimp only [Prog.bind, insertDHT]
    rw [(lock_taken hM _ _).1]
    refine always_awaitHeader (fun _ => ?_) _ _ _ _
    change Keeps ix σ₀ (ix.deliver σ₀ _ _)
    rwa [(lock_taken hM _ _).2]

end PerformSplit

section RootStages

variable {ix : Index} {j : SplitJob} {σ₀ σ : Store}

theorem lock_free (ix : Index) (h : σ x = none) (nodeType : NodeType) (int : Interval) :
    (serve ix (σ x) (.updateHdrLock nodeType int)).2 = .DHASH_OK ∧
      ix.deliver σ x (.updateHdrLock nodeType int) x = some ⟨nodeType, int, []⟩ := by
  have hserve : serve ix (σ x) (.updateHdrLock nodeType int) =
      (some ⟨nodeType, int, []⟩, .DHASH_OK) := by
    rw [h]
    rfl
  exact ⟨congrArg Prod.snd hserve, deliver_some (congrArg Prod.fst hserve)⟩

theorem fill_empty {m : Node} (h : σ x = some m) (hnil : m.entries = []) (items : List (Key × Sig)) :
    (serve ix (σ x) (.split items)).2 = .DHASH_OK ∧
      ix.deliver σ x (.split items) x = some { m with entries := items } := by
  have hfull : ix.full m = false := by
    have := ix.two_le
    simp only [Index.full, hnil, List.length_nil, decide_eq_false_iff_not]
    omega
  have hserve : serve ix (σ x) (.split items) = (some { m with entries := items }, .DHASH_OK) := by
    rw [h]
    simp [serve, serveSplit, hfull, hnil]
  exact ⟨congrArg Prod.snd hserve, deliver_some (congrArg Prod.fst hserve)⟩

/-- A store in which the two new children of the root have been filled, while the root has the
entries `es` and the level `level`. -/
structure SplitJob.RootStage (ix : Index) (j : SplitJob) (σ₀ : Store) (es : List (Key × Sig))
    (level : BitVec 32) (σ : Store) : Prop where
  normalized : σ.Normalized
  first_ne_second : j.firstNodeID ix ≠ j.secondNodeID ix
  first_ne_root : j.firstNodeID ix ≠ j.ID
  second_ne_root : j.secondNodeID ix ≠ j.ID
  others : x ≠ j.firstNodeID ix → x ≠ j.secondNodeID ix → x ≠ j.ID → σ x = σ₀ x
  first_none : σ₀ (j.firstNodeID ix) = none
  second_none : σ₀ (j.secondNodeID ix) = none
  first : ∃ n, σ (j.firstNodeID ix) = some n ∧ n.isLeaf = j.node.isLeaf ∧ n.entries = j.items1
  second : ∃ n, σ (j.secondNodeID ix) = some n ∧ n.isLeaf = j.node.isLeaf ∧ n.entries = j.items2
  root : ∃ n, σ j.ID = some n ∧ n.nodeType = .ROOT ∧ n.int.ln = j.node.int.ln ∧
    n.int.ld = j.node.int.ld ∧ n.entries = es ∧ n.int.level = level

theorem SplitJob.RootStage.deliver (h : j.RootStage ix σ₀ es level σ)
    (hroot : ix.deliver σ j.ID msg j.ID = some n) (ht : n.nodeType = .ROOT)
    (hln : n.int.ln = j.node.int.ln) (hld : n.int.ld = j.node.int.ld)
    (hnorm : (ix.deliver σ j.ID msg).Normalized) :
    j.RootStage ix σ₀ n.entries n.int.level (ix.deliver σ j.ID msg) := by
  refine ⟨hnorm, h.first_ne_second, h.first_ne_root, h.second_ne_root, ?_, h.first_none, h.second_none,
    ?_, ?_, ⟨n, hroot, ht, hln, hld, rfl, rfl⟩⟩
  · intro x h₁ h₂ h₃
    rw [deliver_of_ne h₃]
    exact h.others h₁ h₂ h₃
  · rw [deliver_of_ne h.first_ne_root]
    exact h.first
  · rw [deliver_of_ne h.second_ne_root]
    exact h.second

theorem SplitJob.RootStage.update (h : j.RootStage ix σ₀ es level σ)
    (hkey : containsHash key = false) (hnew : key ∉ es.map Prod.fst)
    (hlen : es.length + 1 ≤ ix.MAXENTRIES) (hsig : Gf2.Normalized sig) :
    (serve ix (σ j.ID) (.update .UPDATE key sig)).2 = .DHASH_OK ∧
      j.RootStage ix σ₀ (es ++ [(key, sig)]) level
        (ix.deliver σ j.ID (.update .UPDATE key sig)) := by
  obtain ⟨n, hn, ht, hln, hld, rfl, rfl⟩ := h.root
  have hserve : serve ix (σ j.ID) (.update .UPDATE key sig) =
      (some { n with entries := n.entries ++ [(key, sig)] }, .DHASH_OK) := by
    apply serve_update hn
    have hfull : ix.full n = false := by
      simp only [Index.full, decide_eq_false_iff_not]
      omega
    have hk : key ∉ n.keys := hnew
    simp [serveUpdate, hkey, hk, hfull]
  exact ⟨congrArg Prod.snd hserve,
    h.deliver (deliver_some (congrArg Prod.fst hserve)) ht hln hld
      (deliver_normalized h.normalized ⟨by simp, hsig⟩ (by simp))⟩

theorem serve_deleteAll {n : Node} (hfull : ix.full j.node) (hparts : j.Parts ix)
    (hes : n.entries = j.node.entries) :
    serve ix (some n) (.splitSpecial ((j.items1 ++ j.items2).map Prod.fst)) =
      (some { n with entries := [] }, .DHASH_OK) := by
  have hf : ix.full n = true := by simpa [Index.full, hes] using hfull
  have hnil : n.entries.filter (fun e => e.1 ∉ (j.items1 ++ j.items2).map Prod.fst) = [] := by
    rw [List.filter_eq_nil_iff]
    intro e he hne
    have hmem := hparts.perm.mem_iff.2 (hes ▸ he)
    exact of_decide_eq_true hne (List.mem_map.2 ⟨e, hmem, rfl⟩)
  simp only [serve, serveSplit, hf, if_true, hnil]

theorem SplitJob.RootStage.delete (h : j.RootStage ix σ₀ j.node.entries level σ)
    (hfull : ix.full j.node) (hparts : j.Parts ix) :
    (serve ix (σ j.ID) (.splitSpecial ((j.items1 ++ j.items2).map Prod.fst))).2 = .DHASH_OK ∧
      j.RootStage ix σ₀ [] level
        (ix.deliver σ j.ID (.splitSpecial ((j.items1 ++ j.items2).map Prod.fst))) := by
  obtain ⟨n, hn, ht, hln, hld, hes, rfl⟩ := h.root
  have hserve : serve ix (σ j.ID) (.splitSpecial ((j.items1 ++ j.items2).map Prod.fst)) =
      (some { n with entries := [] }, .DHASH_OK) := by
    rw [hn]
    exact serve_deleteAll hfull hparts hes
  have hne : j.node.entries ≠ [] := by
    intro hnil
    have h2 := ix.two_le
    simp only [Index.full, hnil, List.length_nil, decide_eq_true_eq] at hfull
    omega
  refine ⟨congrArg Prod.snd hserve, h.deliver (deliver_some (congrArg Prod.fst hserve))
    ht hln hld (deliver_normalized h.normalized trivial ?_)⟩
  intro _ _ m hm
  obtain rfl : n = m := Option.some.inj (hn.symm.trans hm)
  rwa [hes]

theorem updateInt_left_level (c n : Interval) : (updateInt true c n).ln = c.ln ∧
    (updateInt true c n).ld = c.ld ∧ (updateInt true c n).level =
      if c.level.toInt < n.level.toInt then n.level else c.level := by
  have hnarrow : (narrowInt c n).ln = c.ln ∧ (narrowInt c n).ld = c.ld ∧
      (narrowInt c n).level = c.level := by
    rw [narrowInt]
    split <;> exact ⟨rfl, rfl, rfl⟩
  refine ⟨hnarrow.1, hnarrow.2.1, ?_⟩
  rw [← hnarrow.2.2]
  rfl

theorem SplitJob.RootStage.header (h : j.RootStage ix σ₀ es level σ) (nodeType : NodeType)
    (int : Interval) (hln : int.ln = j.node.int.ln) (hld : int.ld = j.node.int.ld) :
    (serve ix (σ j.ID) (.updateHdr nodeType int)).2 = .DHASH_OK ∧
      j.RootStage ix σ₀ es (if level.toInt < int.level.toInt then int.level else level)
        (ix.deliver σ j.ID (.updateHdr nodeType int)) := by
  obtain ⟨n, hn, ht, hln', hld', rfl, rfl⟩ := h.root
  obtain ⟨hl₁, hl₂, hl₃⟩ := updateInt_left_level n.int int
  have hserve : serve ix (σ j.ID) (.updateHdr nodeType int) =
      (some { n with int := updateInt true n.int int }, .DHASH_OK) := by
    rw [hn]
    simp [serve, hln, hld, hln', hld', ht]
  rw [← hl₃]
  exact ⟨congrArg Prod.snd hserve, h.deliver (deliver_some (congrArg Prod.fst hserve)) ht
    (hl₁.trans hln') (hl₂.trans hld') (deliver_normalized h.normalized trivial (by simp))⟩

theorem SplitJob.RootStage.ne (h : j.RootStage ix σ₀ es level σ) (he : σ₀.forest.entry x c s) :
    x ≠ j.firstNodeID ix ∧ x ≠ j.secondNodeID ix := by
  obtain ⟨n, hn, -⟩ := exists_of_entry he
  constructor
  · rintro rfl
    simp [h.first_none] at hn
  · rintro rfl
    simp [h.second_none] at hn

theorem SplitJob.RootStage.widens (h : j.RootStage ix σ₀ j.node.entries j.node.int.level σ)
    (hroot : σ₀ j.ID = some j.node) (ht : j.node.nodeType = .ROOT) :
    Forest.Widens Divides σ₀.forest σ.forest := by
  intro x c s he
  obtain ⟨h₁, h₂⟩ := h.ne he
  by_cases hx : x = j.ID
  · subst hx
    obtain ⟨n, hn, ht', -, -, hes, hl⟩ := h.root
    rw [forest_leaf hroot, forest_leaf hn, isLeaf_congr (ht'.trans ht.symm) hl]
    exact ⟨Iff.rfl, s, (forest_entry hn).2 (hes ▸ (forest_entry hroot).1 he), refl_of Divides s⟩
  · have hσ := h.others h₁ h₂ hx
    obtain ⟨n, hn, hmem⟩ := exists_of_entry he
    rw [forest_leaf hn, forest_leaf (hσ.trans hn)]
    exact ⟨Iff.rfl, s, (forest_entry (hσ.trans hn)).2 hmem, refl_of Divides s⟩

/-- With both links in a root above the leaves, the tree is the one that the split is to make. -/
theorem SplitJob.RootStage.split
    (h : j.RootStage ix σ₀ [(j.firstNodeID ix, j.groups.lcm1), (j.secondNodeID ix, j.groups.lcm2)]
      level σ) (hlevel : level ≠ 0) (hroot : σ₀ j.ID = some j.node) (hparts : j.Parts ix)
    (hcov : j.Covers) :
    Forest.RootSplit Divides σ₀.forest σ.forest j.ID (j.firstNodeID ix) (j.secondNodeID ix)
      j.groups.lcm1 j.groups.lcm2 := by
  obtain ⟨n, hn, ht, -, -, hes, hl⟩ := h.root
  obtain ⟨a, ha, hla, hea⟩ := h.first
  obtain ⟨b, hb, hlb, heb⟩ := h.second
  have hother : ∀ {x c s}, x ≠ j.ID → σ₀.forest.entry x c s → σ x = σ₀ x :=
    fun hx he => h.others (h.ne he).1 (h.ne he).2 hx
  refine ⟨?_, ?_, ?_, ?_, ?_, ?_, ?_, ?_⟩
  · intro x c s hx he
    simp only [Store.forest, hother hx he]
  · intro x c s hx he
    refine ⟨s, ?_, refl_of Divides s⟩
    simpa only [Store.forest, hother hx he] using he
  · rw [forest_leaf hn]
    simpa [Node.isLeaf, ht, hl] using hlevel
  · rw [forest_leaf hroot, forest_leaf ha, hla]
  · rw [forest_leaf hroot, forest_leaf hb, hlb]
  · rw [forest_entry hn, hes]
    simp
  · rw [forest_entry hn, hes]
    simp
  · intro c s he
    have hmem := hparts.perm.mem_iff.2 ((forest_entry hroot).1 he)
    rcases List.mem_append.1 hmem with h₁ | h₂
    · exact .inl ⟨hcov.1 (c, s) h₁, s, (forest_entry ha).2 (hea ▸ h₁), refl_of Divides s⟩
    · exact .inr ⟨hcov.2 (c, s) h₂, s, (forest_entry hb).2 (heb ▸ h₂), refl_of Divides s⟩

end RootStages

section PerformSplitRoot

variable {ix : Index} {j : SplitJob} {σ₀ σ : Store}

structure SplitJob.OfRoot (ix : Index) (j : SplitJob) (σ₀ : Store) : Prop where
  id : j.ID = ix.rootID
  normalized : σ₀.Normalized
  node : σ₀ j.ID = some j.node
  nodeType : j.node.nodeType = .ROOT
  full : ix.full j.node
  parts : j.Parts ix
  level : 0 ≤ j.node.int.level.toInt
  children : σ₀ x = some n → n.isLeaf = false → c ∈ n.keys → σ₀ c ≠ none ∧ c ≠ j.ID

/-- The number of messages of a root split after which the root has lost its entries. -/
def unlinkedFrom (n : Node) : Nat := if n.int.level = 0 then 6 else 5

/-- The number of messages of a root split after which the root has its new children. -/
def relinkedFrom (n : Node) : Nat := if n.int.level = 0 then 9 else 7

/-- What a query still finds in between: a root that is taken for a leaf reports the names of its
children, another one only has its first child. -/
def SplitJob.Survives (ix : Index) (j : SplitJob) (σ₀ : Store) (k : Nat) (q : Sig) (d : Key) : Prop :=
  if j.node.int.level = 0 then
    (7 ≤ k ∧ d = j.firstNodeID ix ∧ Divides q j.groups.lcm1) ∨
      (8 ≤ k ∧ d = j.secondNodeID ix ∧ Divides q j.groups.lcm2)
  else
    6 ≤ k ∧ Divides q j.groups.lcm1 ∧ ∃ e ∈ j.items1, Divides q e.2 ∧ Reported σ₀ q e.1 d

/-- What is left of the tree after `k` messages of the split of its root. -/
structure SplitJob.RootKept (ix : Index) (j : SplitJob) (σ₀ : Store) (k : Nat) (σ : Store) :
    Prop where
  normalized : σ.Normalized
  keeps : k < unlinkedFrom j.node ∨ (relinkedFrom j.node ≤ k ∧ j.Covers) → Keeps ix σ₀ σ
  survives : unlinkedFrom j.node ≤ k → k < relinkedFrom j.node → ∀ q d,
    Reported σ q ix.rootID d ↔ j.Survives ix σ₀ k q d

theorem SplitJob.RootKept.early (hk : k < unlinkedFrom j.node) (h : Keeps ix σ₀ σ) :
    j.RootKept ix σ₀ k σ :=
  ⟨h.normalized, fun _ => h, fun _ => by omega⟩

theorem SplitJob.RootKept.late (hn : σ.Normalized) (hu : unlinkedFrom j.node ≤ k)
    (hk : relinkedFrom j.node ≤ k) (h : j.Covers → Keeps ix σ₀ σ) : j.RootKept ix σ₀ k σ :=
  ⟨hn, fun hc => h (hc.resolve_left (by omega)).2, fun _ => by omega⟩

theorem five_le_unlinkedFrom (n : Node) : 5 ≤ unlinkedFrom n := by
  rw [unlinkedFrom]
  split <;> omega

theorem reported_leaf {n : Node} (hx : σ x = some n) (hl : n.isLeaf = true) :
    Reported σ q x d ↔ ∃ e ∈ n.entries, Divides q e.2 ∧ e.1 = d := by
  constructor
  · intro hr
    cases hr with
    | doc _ he hq => exact ⟨_, (forest_entry hx).1 he, hq, rfl⟩
    | child hn => exact (hn ((forest_leaf hx).2 hl)).elim
  · rintro ⟨e, he, hq, rfl⟩
    exact .doc ((forest_leaf hx).2 hl) ((forest_entry hx).2 he) hq

theorem reported_inner {n : Node} (hx : σ x = some n) (hl : n.isLeaf = false) :
    Reported σ q x d ↔ ∃ e ∈ n.entries, Divides q e.2 ∧ Reported σ q e.1 d := by
  have hn : ¬ σ.forest.leaf x := by simp [forest_leaf hx, hl]
  constructor
  · intro hr
    cases hr with
    | doc hleaf => exact (hn hleaf).elim
    | child _ he hq hr => exact ⟨_, (forest_entry hx).1 he, hq, hr⟩
  · rintro ⟨e, he, hq, hr⟩
    exact .child hn ((forest_entry hx).2 he) hq hr

/-- Below the children of the root nothing changes. -/
theorem SplitJob.RootStage.reported (h : j.RootStage ix σ₀ es level σ) (hj : j.OfRoot ix σ₀)
    (hx : σ₀ x ≠ none) (hroot : x ≠ j.ID) : Reported σ q x d ↔ Reported σ₀ q x d := by
  have hσ : ∀ {x}, σ₀ x ≠ none → x ≠ j.ID → σ x = σ₀ x := by
    intro x hx hroot
    refine h.others ?_ ?_ hroot
    · rintro rfl
      exact hx h.first_none
    · rintro rfl
      exact hx h.second_none
  have hleaf : ∀ {x}, σ₀ x ≠ none → x ≠ j.ID → (σ.forest.leaf x ↔ σ₀.forest.leaf x) := by
    intro x hx hroot
    simp only [Store.forest, hσ hx hroot]
  have hentry : ∀ {x c s}, σ₀ x ≠ none → x ≠ j.ID →
      (σ.forest.entry x c s ↔ σ₀.forest.entry x c s) := by
    intro x c s hx hroot
    simp only [Store.forest, hσ hx hroot]
  constructor
  · intro hr
    induction hr with
    | @doc x d s hl he hq => exact .doc ((hleaf hx hroot).1 hl) ((hentry hx hroot).1 he) hq
    | @child x c s d hl he hq _ ih =>
      have hl' : ¬ σ₀.forest.leaf x := fun hleaf' => hl ((hleaf hx hroot).2 hleaf')
      have he' : σ₀.forest.entry x c s := (hentry hx hroot).1 he
      obtain ⟨n, hn, hmem⟩ := exists_of_entry he'
      rw [forest_leaf hn, Bool.not_eq_true] at hl'
      obtain ⟨hc, hcr⟩ := hj.children hn hl' (mem_keys.2 ⟨s, hmem⟩)
      exact .child (by simpa [forest_leaf hn] using hl') he' hq (ih hc hcr)
  · intro hr
    induction hr with
    | @doc x d s hl he hq => exact .doc ((hleaf hx hroot).2 hl) ((hentry hx hroot).2 he) hq
    | @child x c s d hl he hq _ ih =>
      obtain ⟨n, hn, hmem⟩ := exists_of_entry he
      have hl' : n.isLeaf = false := by simpa [forest_leaf hn] using hl
      obtain ⟨hc, hcr⟩ := hj.children hn hl' (mem_keys.2 ⟨s, hmem⟩)
      exact .child (fun hleaf' => hl ((hleaf hx hroot).1 hleaf')) ((hentry hx hroot).2 he) hq
        (ih hc hcr)

theorem SplitJob.RootStage.reported_first (h : j.RootStage ix σ₀ es level σ) (hj : j.OfRoot ix σ₀)
    (hlevel : j.node.int.level ≠ 0) :
    Reported σ q (j.firstNodeID ix) d ↔ ∃ e ∈ j.items1, Divides q e.2 ∧ Reported σ₀ q e.1 d := by
  obtain ⟨a, ha, hla, hea⟩ := h.first
  have hleaf : j.node.isLeaf = false := by
    rw [Node.isLeaf, hj.nodeType]
    simpa using hlevel
  rw [reported_inner ha (hla.trans hleaf), hea]
  refine exists_congr fun e => and_congr_right fun he => and_congr_right fun _ => ?_
  have hmem := hj.parts.perm.mem_iff.1 (List.mem_append_left _ he)
  obtain ⟨hc, hcr⟩ := hj.children hj.node hleaf (mem_keys.2 ⟨e.2, hmem⟩)
  exact h.reported hj hc hcr

/-- The root after the deletion, with the links `es` that it has so far. -/
theorem SplitJob.RootStage.survives (h : j.RootStage ix σ₀ es j.node.int.level σ)
    (hj : j.OfRoot ix σ₀)
    (hes : es = [] ∧ k = unlinkedFrom j.node ∨
      es = [(j.firstNodeID ix, j.groups.lcm1)] ∧ k = unlinkedFrom j.node + 1 ∨
      es = [(j.firstNodeID ix, j.groups.lcm1), (j.secondNodeID ix, j.groups.lcm2)] ∧ k = 8)
    (hk : k < relinkedFrom j.node) (q : Sig) (d : Key) :
    Reported σ q ix.rootID d ↔ j.Survives ix σ₀ k q d := by
  obtain ⟨r, hr, ht, -, -, rfl, hl⟩ := h.root
  rw [← hj.id, SplitJob.Survives]
  by_cases h0 : j.node.int.level = 0
  · have hleaf : r.isLeaf = true := by simp [Node.isLeaf, ht, hl, h0]
    rw [if_pos h0, reported_leaf hr hleaf]
    rw [unlinkedFrom, if_pos h0] at hes
    rcases hes with ⟨he, rfl⟩ | ⟨he, rfl⟩ | ⟨he, rfl⟩
    · simp [he]
    · simp [he, and_comm, eq_comm]
    · simp only [he, List.mem_cons, List.not_mem_nil, or_false, exists_eq_or_imp, exists_eq_left]
      simp [and_comm, eq_comm]
  · have hleaf : r.isLeaf = false := by simpa [Node.isLeaf, ht, hl] using h0
    rw [if_neg h0, reported_inner hr hleaf]
    rw [unlinkedFrom, if_neg h0] at hes
    rw [relinkedFrom, if_neg h0] at hk
    rcases hes with ⟨he, rfl⟩ | ⟨he, rfl⟩ | ⟨-, rfl⟩
    · simp [he]
    · simp [he, h.reported_first hj h0]
    · omega

theorem SplitJob.RootStage.keeps
    (h : j.RootStage ix σ₀ [(j.firstNodeID ix, j.groups.lcm1), (j.secondNodeID ix, j.groups.lcm2)]
      level σ) (hlevel : level ≠ 0) (hj : j.OfRoot ix σ₀) (hcov : j.Covers) : Keeps ix σ₀ σ :=
  ⟨h.normalized, fun hr => (h.split hlevel hj.node hj.parts hcov).reach hr⟩

theorem always_rootHeader (hj : j.OfRoot ix σ₀)
    (h : j.RootStage ix σ₀ [(j.firstNodeID ix, j.groups.lcm1), (j.secondNodeID ix, j.groups.lcm2)]
      level σ) (hpos : 0 ≤ level.toInt)
    (hlevel : level.toInt < j.rootInt.level.toInt ∨ level ≠ 0) (hI : j.RootKept ix σ₀ k σ)
    (hu : unlinkedFrom j.node ≤ k) (hk : relinkedFrom j.node ≤ k + 1) (fuel : Nat) :
    Prog.always (serve ix) (j.RootKept ix σ₀) (j.rootHeader fuel) k σ := by
  induction fuel generalizing k level σ with
  | zero => exact hI
  | succ fuel ih =>
    obtain ⟨hok, h'⟩ := h.header j.node.nodeType j.rootInt rfl rfl
    have hne : (if level.toInt < j.rootInt.level.toInt then j.rootInt.level else level) ≠ 0 := by
      split
      · next hlt =>
        intro h0
        rw [h0] at hlt
        change level.toInt < 0 at hlt
        omega
      · next hlt => exact hlevel.resolve_left hlt
    have hpos' : 0 ≤ (if level.toInt < j.rootInt.level.toInt then j.rootInt.level
        else level).toInt := by
      split
      · omega
      · exact hpos
    have hI' := SplitJob.RootKept.late h'.normalized (by omega) hk (h'.keeps hne hj)
    refine always_accepted hok hI ⟨hI', ?_⟩
    dsimp only [Prog.bind]
    split
    · exact ih h' hpos' (.inr hne) hI' (by omega) (by omega)
    · split
      · exact hI'
      · exact hI'

theorem always_rootLinks (hj : j.OfRoot ix σ₀) (h : j.RootStage ix σ₀ [] j.node.int.level σ)
    (fuel : Nat) :
    Prog.always (serve ix) (j.RootKept ix σ₀) (j.rootLinks ix fuel) (unlinkedFrom j.node) σ := by
  have hlen := ix.two_le
  have hrel : unlinkedFrom j.node + 1 < relinkedFrom j.node ∧
      relinkedFrom j.node ≤ unlinkedFrom j.node + 3 := by
    rw [relinkedFrom, unlinkedFrom]
    split <;> omega
  obtain ⟨hok₁, h₁⟩ := h.update (ix.noHash j.node.int.level 0 1) List.not_mem_nil
    (by simp only [List.length_nil]; omega) hj.parts.normalized1
  have hnew : j.secondNodeID ix ∉
      ([] ++ [(j.firstNodeID ix, j.groups.lcm1)]).map Prod.fst := by
    rw [List.nil_append, List.map_singleton, List.mem_singleton]
    exact h.first_ne_second.symm
  obtain ⟨hok₂, h₂⟩ := h₁.update (ix.noHash j.node.int.level 1 2) hnew hlen hj.parts.normalized2
  refine always_accepted hok₁ ⟨h.normalized, by omega, fun _ hk => h.survives hj (.inl ⟨rfl, rfl⟩) hk⟩
    (always_accepted hok₂ ⟨h₁.normalized, by omega, fun _ hk => h₁.survives hj (.inr (.inl ⟨rfl, rfl⟩)) hk⟩
      (always_rootHeader hj h₂ hj.level ?_ ?_ (by omega) (by omega) fuel))
  · by_cases h0 : j.node.int.level = 0
    · left
      change j.node.int.level.toInt < (j.node.int.level + 1).toInt
      rw [h0]
      decide
    · exact .inr h0
  · by_cases h0 : j.node.int.level = 0
    · have hk : unlinkedFrom j.node + 1 + 1 = 8 := by rw [unlinkedFrom, if_pos h0]
      have hk' : relinkedFrom j.node = 9 := by rw [relinkedFrom, if_pos h0]
      exact ⟨h₂.normalized, by omega, fun _ hlt => h₂.survives hj (.inr (.inr ⟨rfl, hk⟩)) hlt⟩
    · refine .late h₂.normalized (by omega) ?_ (h₂.keeps h0 hj)
      rw [relinkedFrom, unlinkedFrom, if_neg h0, if_neg h0]

theorem always_rootDelete (hj : j.OfRoot ix σ₀)
    (h : j.RootStage ix σ₀ j.node.entries j.node.int.level σ) (hk : k + 1 = unlinkedFrom j.node)
    (fuel : Nat) :
    Prog.always (serve ix) (j.RootKept ix σ₀) (j.rootDelete ix fuel) k σ := by
  obtain ⟨hok, h'⟩ := h.delete hj.full hj.parts
  refine always_accepted hok (.early (by omega) (.of_widens h.normalized (h.widens hj.node hj.nodeType))) ?_
  rw [hk]
  exact always_rootLinks hj h' fuel

theorem always_rootClose (hj : j.OfRoot ix σ₀)
    (h : j.RootStage ix σ₀ j.node.entries j.node.int.level σ) (fuel : Nat) :
    Prog.always (serve ix) (j.RootKept ix σ₀) (j.rootClose ix fuel) 4 σ := by
  have hk := five_le_unlinkedFrom j.node
  rw [SplitJob.rootClose]
  split
  · next h0 =>
    obtain ⟨hok, h'⟩ := h.header j.node.nodeType { j.node.int with random := -1 } rfl rfl
    rw [if_neg (lt_irrefl _)] at h'
    exact always_accepted hok (.early (by omega) (.of_widens h.normalized (h.widens hj.node hj.nodeType)))
      (always_rootDelete hj h' (by rw [unlinkedFrom, if_pos h0]) fuel)
  · next h0 => exact always_rootDelete hj h (by rw [unlinkedFrom, if_neg h0]) fuel

theorem newNodeType_isLeaf (ht : j.node.nodeType = .ROOT) (hl : int.level = j.node.int.level)
    (es : List (Key × Sig)) : (Node.mk j.newNodeType int es).isLeaf = j.node.isLeaf := by
  simp only [Node.isLeaf, SplitJob.newNodeType, ht, hl]
  split <;> simp_all

theorem always_second (hj : j.OfRoot ix σ₀) (hA : σ₀ (j.firstNodeID ix) = none)
    (hothers : ∀ x, x ≠ j.firstNodeID ix → σ x = σ₀ x)
    (hfirst : ∃ n, σ (j.firstNodeID ix) = some n ∧ n.isLeaf = j.node.isLeaf ∧
      n.entries = j.items1)
    (hnorm : σ.Normalized) (hw : Forest.Widens Divides σ₀.forest σ.forest) (fuel : Nat)
    (random : BitVec 32) :
    Prog.always (serve ix) (j.RootKept ix σ₀) (j.second ix fuel random) 2 σ := by
  have hk := five_le_unlinkedFrom j.node
  have hkeep : Keeps ix σ₀ σ := .of_widens hnorm hw
  refine ⟨.early (by omega) hkeep, ?_⟩
  dsimp only [Prog.bind, insertDHT]
  cases hB : σ (j.secondNodeID ix) with
  | some m =>
    rw [← hB, (lock_taken hB _ _).1]
    change j.RootKept ix σ₀ 3 (ix.deliver σ _ _)
    rw [(lock_taken hB _ _).2]
    exact .early (by omega) hkeep
  | none =>
    obtain ⟨hok, hB'⟩ := lock_free ix hB j.newNodeType (j.secondNodeInt random)
    obtain ⟨hok', hB''⟩ := fill_empty hB' rfl j.items2
    have hAB : j.firstNodeID ix ≠ j.secondNodeID ix := by
      intro he
      obtain ⟨n, hn, -⟩ := hfirst
      simp [← he, hn] at hB
    have hRA : j.ID ≠ j.firstNodeID ix := by
      intro he
      simp [← he, hj.node] at hA
    have hRB : j.ID ≠ j.secondNodeID ix := by
      intro he
      simp [← he, hothers _ hRA, hj.node] at hB
    have hw' := widens_deliver_none ix hB (.updateHdrLock j.newNodeType (j.secondNodeInt random))
    have hnorm' : (ix.deliver σ (j.secondNodeID ix)
        (.updateHdrLock j.newNodeType (j.secondNodeInt random))).Normalized :=
      deliver_normalized hnorm trivial (by simp)
    rw [← hB, hok]
    refine always_accepted hok' (.early (by omega) (.of_widens hnorm' (hw.trans hw')))
      (always_rootClose hj ?_ fuel)
    refine ⟨deliver_normalized hnorm' hj.parts.items2_normalized (by simp), hAB, hRA.symm,
      hRB.symm, ?_, hA, hothers _ hAB.symm ▸ hB, ?_, ?_, ?_⟩
    · intro x h₁ h₂ _
      rw [deliver_of_ne h₂, Prog.deliver_of_ne h₂]
      exact hothers x h₁
    · rw [deliver_of_ne hAB, Prog.deliver_of_ne hAB]
      exact hfirst
    · exact ⟨_, hB'', newNodeType_isLeaf hj.nodeType rfl j.items2, rfl⟩
    · rw [deliver_of_ne hRB, Prog.deliver_of_ne hRB, hothers _ hRA, hj.node]
      exact ⟨j.node, rfl, hj.nodeType, rfl, rfl, rfl, rfl⟩

theorem always_first (hj : j.OfRoot ix σ₀) (fuel : Nat) (random1 random2 : BitVec 32) :
    Prog.always (serve ix) (j.RootKept ix σ₀) (j.first ix fuel random1 random2) 0 σ₀ := by
  have hk := five_le_unlinkedFrom j.node
  have hkeep : Keeps ix σ₀ σ₀ := .refl hj.normalized
  refine ⟨.early (by omega) hkeep, ?_⟩
  dsimp only [Prog.bind, insertDHT]
  cases hA : σ₀ (j.firstNodeID ix) with
  | some m =>
    rw [← hA, (lock_taken hA _ _).1]
    refine always_awaitHeader (.early (by omega) ?_) _ _ _ _
    change Keeps ix σ₀ (ix.deliver σ₀ _ _)
    rwa [(lock_taken hA _ _).2]
  | none =>
    obtain ⟨hok, hA'⟩ := lock_free ix hA j.newNodeType (j.firstNodeInt random1)
    obtain ⟨hok', hA''⟩ := fill_empty hA' rfl j.items1
    have hw := widens_deliver_none ix hA (.updateHdrLock j.newNodeType (j.firstNodeInt random1))
    have hw' := widens_deliver hA' hA'' rfl (List.nil_subset _)
    have hnorm : (ix.deliver σ₀ (j.firstNodeID ix)
        (.updateHdrLock j.newNodeType (j.firstNodeInt random1))).Normalized :=
      deliver_normalized hj.normalized trivial (by simp)
    rw [← hA, hok]
    refine always_accepted hok' (.early (by omega) (.of_widens hnorm hw)) ?_
    refine always_second hj hA ?_ ?_ ?_ (hw.trans hw') fuel random2
    · intro x hx
      rw [deliver_of_ne hx, deliver_of_ne hx]
    · exact ⟨_, hA'', newNodeType_isLeaf hj.nodeType rfl j.items1, rfl⟩
    · exact deliver_normalized hnorm hj.parts.items1_normalized (by simp)

/-- A client that stops in the middle of a split of the root. -/
theorem always_performSplitRoot (h : WellFormed ix σ₀) (hn : σ₀ ix.rootID = some n) (fuel : Nat)
    (oldInt : Interval) :
    Prog.always (serve ix) (fun k σ => (k = 0 ∧ Keeps ix σ₀ σ) ∨
      ∃ g, splitNode ix.MAXENTRIES ix.metric (n.entries.map Prod.snd) = some g ∧
        (SplitJob.mk ix.rootID n g).RootKept ix σ₀ k σ)
      (performSplitRoot ix fuel ix.rootID oldInt) 0 σ₀ := by
  have hkeep : Keeps ix σ₀ σ₀ := .refl h.normalized
  refine always_readFull (.inl ⟨rfl, hkeep⟩) fun n' g hn' hfull hg =>
    ⟨.inl ⟨rfl, hkeep⟩, fun r₁ => ⟨.inl ⟨rfl, hkeep⟩, fun r₂ => ?_⟩⟩
  obtain rfl : n = n' := Option.some.inj (hn.symm.trans hn')
  have hlen : n.entries.length = ix.MAXENTRIES := by
    have := h.length_le hn
    simp only [Index.full, decide_eq_true_eq] at hfull
    omega
  obtain ⟨r, hr, ht⟩ := h.root
  obtain rfl : r = n := Option.some.inj (hr.symm.trans hn)
  have hj : (SplitJob.mk ix.rootID r g).OfRoot ix σ₀ := by
    refine ⟨rfl, h.normalized, hr, ht, hfull, splitNode_parts hlen (h.normalized hr) hg,
      h.level hr, ?_⟩
    intro x m c hx hleaf hc
    obtain ⟨m', hm', -⟩ := h.child hx ((h.not_leaf_iff hx).1 hleaf) hc
    refine ⟨by simp [hm'], ?_⟩
    rintro rfl
    exact h.root_not_child (h.refers_of_entry hx hleaf hc)
  exact Prog.always_mono (fun k σ hk => .inr ⟨g, hg, hk⟩) (always_first hj fuel _ _)

end PerformSplitRoot

section Crash

variable {ix : Index} {σ σ' : Store}

/-- The client that splits a full node: the root, or another node below its parent. -/
def splitClient (ix : Index) (fuel : Nat) (x : Key) (oldInt : Interval) (pID : Key) :
    Client DHTStatus :=
  if x = ix.rootID then performSplitRoot ix fuel x oldInt else performSplit ix fuel x oldInt pID

/-- Every document that a query has found is still found by it. -/
def StillFound (ix : Index) (σ σ' : Store) : Prop :=
  ∀ q d, Gf2.Normalized q → Found ix σ q d → Found ix σ' q d

/-- The common multiples that `splitNode` computes for a node cover the groups. -/
def CoversGroups (ix : Index) (x : Key) (n : Node) : Prop :=
  ∀ g, splitNode ix.MAXENTRIES ix.metric (n.entries.map Prod.snd) = some g →
    (SplitJob.mk x n g).Covers

/-- The numbers of messages after which a split can be given up: those before the old entries go,
and those after the new ones are there. In between a root has only those documents that the split
happens to leave it. -/
def Recoverable (ix : Index) (σ : Store) (x : Key) (n : Node) (k : Nat) : Prop :=
  if x = ix.rootID then
    k < unlinkedFrom n ∨ (relinkedFrom n ≤ k ∧ CoversGroups ix x n) ∨
    (unlinkedFrom n ≤ k ∧ k < relinkedFrom n ∧
      ∃ g, splitNode ix.MAXENTRIES ix.metric (n.entries.map Prod.snd) = some g ∧
        ∀ q d, Gf2.Normalized q → Found ix σ q d → (SplitJob.mk x n g).Survives ix σ k q d)
  else k < 4 ∨ CoversGroups ix x n

theorem deliver_finite (h : σ.Finite) (y : Key) (msg : Msg) : (ix.deliver σ y msg).Finite := by
  obtain ⟨keys, hkeys⟩ := h
  refine ⟨y :: keys, fun x hx => ?_⟩
  by_cases hxy : x = y
  · exact hxy ▸ List.mem_cons_self
  · rw [deliver_of_ne hxy] at hx
    exact List.mem_cons_of_mem _ (hkeys x hx)

theorem steps_finite {p p' : Client α} (h : σ.Finite) (hs : Prog.Steps (serve ix) p σ k p' σ') :
    σ'.Finite := by
  induction hs with
  | refl => exact h
  | head hstep _ ih =>
    cases hstep with
    | read => exact ih h
    | send => exact ih (deliver_finite h _ _)
    | draw => exact ih h

theorem Keeps.stillFound (h : Keeps ix σ σ') (hn : σ.Normalized) (hf : σ.Finite)
    (hf' : σ'.Finite) : StillFound ix σ σ' := by
  intro q d hq hfound
  rw [found_iff hn hf hq] at hfound
  rw [found_iff h.normalized hf' hq]
  exact h.reported hfound

theorem performSplitRoot_crash (h : WellFormed ix σ) (hx : σ ix.rootID = some n)
    (hs : Prog.Steps (serve ix) (performSplitRoot ix fuel ix.rootID oldInt) σ k p σ') :
    (Recoverable ix σ ix.rootID n k → StillFound ix σ σ') ∧
      (CoversGroups ix ix.rootID n → StillFound ix σ σ' → Recoverable ix σ ix.rootID n k) := by
  have hfin := steps_finite h.finite hs
  have hk := Prog.always_steps (always_performSplitRoot h hx fuel oldInt) hs
  rw [Nat.zero_add] at hk
  simp only [Recoverable, if_true]
  rcases hk with ⟨rfl, hkeep⟩ | ⟨g, hg, hkept⟩
  · have h5 := five_le_unlinkedFrom n
    exact ⟨fun _ => hkeep.stillFound h.normalized h.finite hfin, fun _ _ => .inl (by omega)⟩
  · constructor
    · rintro (hlt | ⟨hle, hC⟩ | ⟨hle, hlt, g', hg', hsurv⟩)
      · exact (hkept.keeps (.inl hlt)).stillFound h.normalized h.finite hfin
      · exact (hkept.keeps (.inr ⟨hle, hC g hg⟩)).stillFound h.normalized h.finite hfin
      · obtain rfl : g = g' := Option.some.inj (hg.symm.trans hg')
        intro q d hq hfound
        rw [found_iff hkept.normalized hfin hq]
        exact (hkept.survives hle hlt q d).2 (hsurv q d hq hfound)
    · intro hC hstill
      by_cases hlt : k < unlinkedFrom n
      · exact .inl hlt
      · by_cases hle : relinkedFrom n ≤ k
        · exact .inr (.inl ⟨hle, hC⟩)
        · refine .inr (.inr ⟨by omega, by omega, g, hg, fun q d hq hfound => ?_⟩)
          have hafter := (found_iff hkept.normalized hfin hq).1 (hstill q d hq hfound)
          exact (hkept.survives (by dsimp only; omega) (by dsimp only; omega) q d).1 hafter

theorem performSplit_crash (h : WellFormed ix σ) (hx : σ x = some n) (hroot : x ≠ ix.rootID)
    (hfull : ix.full n) (hP : Refers σ P x)
    (hs : Prog.Steps (serve ix) (performSplit ix fuel x oldInt P) σ k p σ')
    (hk : k < 4 ∨ CoversGroups ix x n) : StillFound ix σ σ' := by
  have hkept := Prog.always_steps
    (always_performSplit (h.splittable hx hroot hfull hP) hx hroot.symm fuel oldInt) hs
  rw [Nat.zero_add] at hkept
  exact (hkept hk).stillFound h.normalized h.finite (steps_finite h.finite hs)

theorem WellFormed.coversGroups (h : WellFormed ix σ) (hx : σ x = some n) (hfull : ix.full n)
    (hm : ix.metric = true) : CoversGroups ix x n := by
  intro g hg
  have hlen : n.entries.length = ix.MAXENTRIES := by
    have := h.length_le hx
    simp only [Index.full, decide_eq_true_eq] at hfull
    omega
  have hparts : (SplitJob.mk x n g).Parts ix := splitNode_parts hlen (h.normalized hx) hg
  exact hparts.covers hm

section Small

def smallEntries : List (Key × Sig) := [([1], [6]), ([2], [7])]

abbrev smallStore : Store := rootStore smallIndex smallEntries

theorem smallStore_wellFormed : WellFormed smallIndex smallStore :=
  rootStore_wellFormed (by decide) (by decide) (by decide)

abbrev smallClient : Client DHTStatus := splitClient smallIndex 1 [99] (rootLeaf smallEntries).int []

end Small

/-- A client that stops after `k` messages of a split loses no document if the split can be given
up there; with the metric, only then. -/
theorem split_stillFound_iff (h : WellFormed ix σ) (hx : σ x = some n) (hfull : ix.full n)
    (hP : x ≠ ix.rootID → Refers σ P x)
    (hs : Prog.Steps (serve ix) (splitClient ix fuel x oldInt P) σ k p σ') :
    (Recoverable ix σ x n k → StillFound ix σ σ') ∧
      (ix.metric = true → StillFound ix σ σ' → Recoverable ix σ x n k) := by
  rw [splitClient] at hs
  split at hs
  · next hroot =>
    subst hroot
    obtain ⟨h₁, h₂⟩ := performSplitRoot_crash h hx hs
    exact ⟨h₁, fun hm => h₂ (h.coversGroups hx hfull hm)⟩
  · next hroot =>
    simp only [Recoverable, if_neg hroot]
    exact ⟨performSplit_crash h hx hroot hfull (hP hroot) hs,
      fun hm _ => .inr (h.coversGroups hx hfull hm)⟩

theorem split_stillFound_five : ∃ p σ',
    Prog.Steps (serve smallIndex) smallClient smallStore 5 p σ' ∧
      StillFound smallIndex smallStore σ' := by
  have hsome : (Prog.execFor (serve smallIndex) ⟨0, by decide⟩ smallClient 5
      smallStore).isSome := by decide +kernel
  obtain ⟨σ', hσ'⟩ := Option.isSome_iff_exists.1 hsome
  obtain ⟨p, hs⟩ := Prog.steps_execFor hσ'
  refine ⟨p, σ', hs, ?_⟩
  apply (split_stillFound_iff smallStore_wellFormed rfl (by decide) _ hs).1
  · exact .inl (by decide)
  · exact fun h => absurd rfl h

/-- A client that stops after it has emptied the root. -/
theorem split_loses_documents : ¬ ∀ (ix : Index) (σ σ' : Store) (x : Key) (n : Node) (P : Key)
    (fuel k : Nat) (oldInt : Interval) (p : Client DHTStatus), WellFormed ix σ → σ x = some n →
    ix.full n → (x ≠ ix.rootID → Refers σ P x) →
    Prog.Steps (serve ix) (splitClient ix fuel x oldInt P) σ k p σ' → StillFound ix σ σ' := by
  intro hall
  have hsix : (Prog.execFor (serve smallIndex) ⟨0, by decide⟩ smallClient 6
      smallStore).map (fun σ => (σ [99]).map Node.entries) = some (some []) := by
    decide +kernel
  obtain ⟨σ', hσ', hroot⟩ := Option.map_eq_some_iff.1 hsix
  obtain ⟨r, hr, hnil⟩ := Option.map_eq_some_iff.1 hroot
  obtain ⟨p, hs⟩ := Prog.steps_execFor hσ'
  have hstill : StillFound smallIndex smallStore σ' :=
    hall _ _ _ [99] (rootLeaf smallEntries) [] _ _ _ _ smallStore_wellFormed rfl (by decide)
      (fun h => absurd rfl h) hs
  have hbefore : Found smallIndex smallStore [6] [1] :=
    ⟨1, [[1]], by decide +kernel, by decide⟩
  obtain ⟨fuel, docs, hq, hd⟩ := hstill [6] [1] (by decide) hbefore
  cases fuel with
  | zero => simp [query, queryProcess] at hq
  | succ fuel =>
    have hr' : σ' smallIndex.rootID = some r := hr
    simp only [query, queryProcess, List.not_mem_nil, if_false, hr', hnil] at hq
    obtain rfl := Option.some.inj hq
    simp at hd

end Crash

end XGossip
