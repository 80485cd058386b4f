import Mathlib.Algebra.Order.Field.Basic
import XGossip.Gossip.Mass

namespace XGossip
set_option autoImplicit true

/-- A property of `(freq, weight)` that merging and halving lists keep. -/
structure MergeStable (P : ℚ × ℚ → Prop) : Prop where
  add : ∀ v w, P v → P w → P (v + w)
  half : ∀ v, P v → P (half v)

theorem MergeStable.sum (h : MergeStable P) : ∀ l : List (ℚ × ℚ), l ≠ [] → (∀ v ∈ l, P v) → P l.sum
  | [], hne, _ => (hne rfl).elim
  | [v], _, hl => by simpa using hl v List.mem_cons_self
  | v :: w :: l, _, hl => by
    rw [List.sum_cons]
    exact h.add v _ (hl v List.mem_cons_self)
      (h.sum (w :: l) (List.cons_ne_nil _ _) fun u hu => hl u (List.mem_cons_of_mem _ hu))

structure Estimate (lo hi : ℚ) (v : ℚ × ℚ) : Prop where
  weight : 0 < v.2
  lower : lo ≤ v.1 / v.2
  upper : v.1 / v.2 ≤ hi

theorem Estimate.add (hv : Estimate lo hi v) (hw : Estimate lo hi w) : Estimate lo hi (v + w) := by
  have hpos : 0 < v.2 + w.2 := add_pos hv.weight hw.weight
  obtain ⟨hv₂, hv₁, hv₃⟩ := hv
  obtain ⟨hw₂, hw₁, hw₃⟩ := hw
  rw [le_div_iff₀ hv₂] at hv₁
  rw [le_div_iff₀ hw₂] at hw₁
  rw [div_le_iff₀ hv₂] at hv₃
  rw [div_le_iff₀ hw₂] at hw₃
  constructor
  · exact hpos
  · rw [Prod.fst_add, Prod.snd_add, le_div_iff₀ hpos, mul_add]
    exact add_le_add hv₁ hw₁
  · rw [Prod.fst_add, Prod.snd_add, div_le_iff₀ hpos, mul_add]
    exact add_le_add hv₃ hw₃

theorem Estimate.half (hv : Estimate lo hi v) : Estimate lo hi (half v) := by
  have hq : (XGossip.half v).1 / (XGossip.half v).2 = v.1 / v.2 :=
    div_div_div_cancel_right₀ two_ne_zero v.1 v.2
  constructor
  · exact half_pos hv.weight
  · rw [hq]
    exact hv.lower
  · rw [hq]
    exact hv.upper

theorem estimate_mergeStable (lo hi : ℚ) : MergeStable (Estimate lo hi) :=
  ⟨fun _ _ => Estimate.add, fun _ => Estimate.half⟩

/-- What all lists of a team and all its messages say of a signature has a property. -/
structure Network.Agrees (vanilla : Bool) (t : ChordID) (s : Sig) (P : ℚ × ℚ → Prop)
    (nw : Network ι) : Prop where
  lists : ∀ q, ∀ m ∈ teamLists vanilla (nw.peers q).peer t, P (effective m s)
  flight : ∀ m ∈ nw.flight, vanilla = true ∨ m.teamid = t → P (effective m.list s)

theorem mem_teamLists_iff (hm : m ∈ teamLists vanilla p t) :
    ∃ i T, slot vanilla p t = some i ∧ p.totalT[i]? = some T ∧ m ∈ T := by
  cases hs : slot vanilla p t with
  | none => simp [teamLists, hs] at hm
  | some i =>
    cases hT : p.totalT[i]? with
    | none => simp [teamLists, hs, hT] at hm
    | some T =>
      rw [teamLists_of_slot hs hT] at hm
      exact ⟨i, T, rfl, hT, hm⟩

/-- A peer keeps such a property of its lists, and gives it to the messages it sends. -/
theorem GossiperStep.agrees (hP : MergeStable P) (hstep : GossiperStep vanilla g recv emit g')
    (h : WellFormedGossiper vanilla g) (hh : s ≠ hldsig) (hd : s ≠ dummysig)
    (hlists : ∀ m ∈ teamLists vanilla g.peer t, P (effective m s))
    (hrecv : ∀ m ∈ recv, vanilla = true ∨ m.teamid = t → P (effective m.list s)) :
    (∀ m ∈ teamLists vanilla g'.peer t, P (effective m s)) ∧
      ∀ m ∈ emit, vanilla = true ∨ m.teamid = t → P (effective m.list s) := by
  cases hstep with
  | @round totalT' p hm =>
    obtain ⟨totalT', hm', hr⟩ := h.mergeall_spec
    cases hm.symm.trans hm'
    refine ⟨?_, fun _ hm => nomatch hm⟩
    intro m hmem
    obtain ⟨i, T, hs, hT, hmT⟩ := mem_teamLists_iff hmem
    have hs' : slot vanilla p t = some i := hs
    have hlt : i < p.totalT.length := h.slot_lt hs'
    have hv : vanilla = true → i = 0 := by
      rintro rfl
      simpa [slot] using hs.symm
    have hT₀ := List.getElem?_eq_getElem hlt
    obtain ⟨t', ht', hdone⟩ := hr.merged i _ hv hT₀
    obtain rfl : [t'] = T := Option.some.inj (ht'.symm.trans hT)
    rw [List.mem_singleton.1 hmT, hdone.effective_eq (h.lists _ (List.getElem_mem hlt)) hh hd]
    apply hP.half
    apply hP.sum
    · simpa using h.nonempty _ (List.getElem_mem hlt)
    · intro v hv
      obtain ⟨m₀, hm₀, rfl⟩ := List.mem_map.1 hv
      apply hlists m₀
      rwa [teamLists_of_slot hs' hT₀]
  | skip => exact ⟨hlists, fun _ hm => nomatch hm⟩
  | transmit => exact ⟨hlists, fun _ hm => nomatch hm⟩
  | @sent p rest i m =>
    refine ⟨hlists, ?_⟩
    intro m' hm' ht
    obtain rfl := List.mem_singleton.1 hm'
    obtain ⟨-, hv, hteam, T, tl, hT, hl⟩ := h.wire i m' rfl
    have hs : slot vanilla p t = some i := by
      rw [h.slot_iff (List.getElem?_eq_some_iff.1 hT).1 hv]
      cases vanilla with
      | true => exact .inl rfl
      | false => exact .inr ((hteam rfl).symm.trans (ht.resolve_left Bool.false_ne_true))
    rw [hl]
    apply hlists T
    rw [teamLists_of_slot hs hT]
    exact List.mem_cons_self
  | @failed p rest i m =>
    refine ⟨?_, fun _ hm => nomatch hm⟩
    obtain ⟨-, -, -, T, tl, hT, -⟩ := h.wire i m rfl
    intro m' hm'
    rw [teamLists_modify vanilla t (multiplyfreq · 0 2 2) hT] at hm'
    split at hm'
    · next hs =>
      rw [teamLists_of_slot hs hT] at hlists
      rw [multiplyfreq_cons] at hm'
      rcases List.mem_cons.1 hm' with rfl | hm'
      · rw [effective_double]
        exact hP.add _ _ (hlists T List.mem_cons_self) (hlists T List.mem_cons_self)
      · exact hlists m' (List.mem_cons_of_mem _ hm')
    · exact hlists m' hm'
  | @deliver p rest wire m hs =>
    refine ⟨?_, fun _ hm => nomatch hm⟩
    obtain ⟨i, hs⟩ := Option.isSome_iff_exists.1 hs
    have hi := h.slot_lt hs
    have hv : vanilla = true → i = 0 := by
      rintro rfl
      simpa [slot] using hs.symm
    have hT := List.getElem?_eq_getElem hi
    intro m' hm'
    rw [show (⟨addReceived vanilla m p, rest, wire⟩ : Gossiper).peer = addReceived vanilla m p
      from rfl, addReceived_eq hs, teamLists_modify vanilla t (· ++ [m.list]) hT] at hm'
    split at hm'
    · next ht =>
      rw [teamLists_of_slot ht hT] at hlists
      rcases List.mem_append.1 hm' with hm' | hm'
      · exact hlists m' hm'
      · rw [List.mem_singleton.1 hm']
        apply hrecv m List.mem_cons_self
        rcases (h.slot_iff hi hv).1 hs with hs | hs
        · exact .inl hs
        · rcases (h.slot_iff hi hv).1 ht with ht | ht
          · exact .inl ht
          · exact .inr (hs.symm.trans ht)
    · exact hlists m' hm'

theorem NetworkStep.agrees [DecidableEq ι] {nw nw' : Network ι} (hP : MergeStable P)
    (hstep : NetworkStep vanilla nw nw') (h : WellFormedNetwork vanilla nw) (hh : s ≠ hldsig)
    (hd : s ≠ dummysig) (ha : nw.Agrees vanilla t s P) : nw'.Agrees vanilla t s P := by
  cases hstep with
  | @act peers recv emit g before after q hq =>
    have hrecv : ∀ m ∈ recv, m ∈ before ++ recv ++ after := fun m hm =>
      List.mem_append_left _ (List.mem_append_right _ hm)
    obtain ⟨hlists, hemit⟩ := hq.agrees hP (h.peers q) hh hd (ha.lists q)
      fun m hm => ha.flight m (hrecv m hm)
    constructor
    · intro r
      by_cases hr : r = q
      · subst hr
        simpa using hlists
      · simpa [hr] using ha.lists r
    · intro m hm
      rcases List.mem_append.1 hm with hm | hm
      · apply ha.flight m
        rcases List.mem_append.1 hm with hm | hm
        · exact List.mem_append_left _ (List.mem_append_left _ hm)
        · exact List.mem_append_right _ hm
      · exact hemit m hm

theorem Network.Agrees.run [DecidableEq ι] [Fintype ι] {nw nw' : Network ι} (hP : MergeStable P)
    (hrun : Relation.ReflTransGen (NetworkStep vanilla) nw nw')
    (h : WellFormedNetwork vanilla nw) (hs : DocumentSig s) (ha : nw.Agrees vanilla t s P) :
    WellFormedNetwork vanilla nw' ∧ nw'.Agrees vanilla t s P := by
  induction hrun with
  | refl => exact ⟨h, ha⟩
  | tail _ hstep ih =>
    exact ⟨(hstep.conserves ih.1).1, hstep.agrees hP ih.1 hs.ne_hldsig hs.ne_dummysig ih.2⟩

theorem estimates_bounded [DecidableEq ι] [Fintype ι] {nw nw' : Network ι}
    (hrun : Relation.ReflTransGen (NetworkStep vanilla) nw nw')
    (h : WellFormedNetwork vanilla nw) (hs : DocumentSig s) (t : ChordID) (lo hi : ℚ)
    (hb : nw.Agrees vanilla t s (Estimate lo hi)) : nw'.Agrees vanilla t s (Estimate lo hi) :=
  (hb.run (estimate_mergeStable lo hi) hrun h hs).2

/-- The list of a peer that counts more copies of the document of `sampleList`. -/
def largerList : MapType ℚ := ⟨[([1], (0, 1)), ([5], (4, 1))], by decide⟩

def largerGossiper : Gossiper := ⟨⟨[[largerList]], .empty⟩, [], none⟩

theorem largerGossiper_wf : WellFormedGossiper true largerGossiper where
  nonempty := by simp [largerGossiper]
  lists := by
    simp only [largerGossiper, List.mem_singleton, forall_eq]
    exact ⟨rfl, 1, rfl⟩
  index := by simp [largerGossiper]
  nonzero := nofun
  tosend := List.nodup_nil
  range := nofun
  vanillaSend := nofun
  wire := nofun

/-- Of two peers that count two and four copies, one sends its list to the other. -/
theorem estimates_bounded_two : ∃ nw nw' : Network Bool,
    Relation.ReflTransGen (NetworkStep true) nw nw' ∧ nw'.flight = [] ∧
      (nw'.peers false).peer.totalT.map List.length = [2] ∧
      nw'.Agrees true 0 [5] (Estimate 2 4) := by
  let start : Bool → Gossiper := fun b => if b then sampleGossiper else largerGossiper
  let t : MapType ℚ := sampleList.mapVal fun _ v => (v.1 / 2, v.2 / 2)
  let p : Peer ℚ := ⟨[[t]], .empty⟩
  let m : GossipMsg := ⟨0, (vecomap2vec t).1, (vecomap2vec t).2.1, (vecomap2vec t).2.2⟩
  let merged := Function.update start true ⟨p, [0], none⟩
  let sending := Function.update merged true ⟨p, [], some (0, m)⟩
  let idle := Function.update sending true ⟨p, [], none⟩
  let g : Gossiper := ⟨addReceived true m largerGossiper.peer, [], none⟩
  have hround : NetworkStep true ⟨start, []⟩ ⟨merged, []⟩ :=
    @NetworkStep.act _ _ _ start _ _ _ [] [] true
      (@GossiperStep.round true [[t]] sampleGossiper.peer rfl)
  have htransmit : NetworkStep true ⟨merged, []⟩ ⟨sending, []⟩ :=
    @NetworkStep.act _ _ _ merged _ _ _ [] [] true
      (@GossiperStep.transmit true 0 0 m p [] nofun rfl)
  have hsent : NetworkStep true ⟨sending, []⟩ ⟨idle, [m]⟩ :=
    @NetworkStep.act _ _ _ sending _ _ _ [] [] true (@GossiperStep.sent true p [] 0 m)
  have hdeliver : NetworkStep true ⟨idle, [m]⟩ ⟨Function.update idle false g, []⟩ :=
    @NetworkStep.act _ _ _ idle _ _ _ [] [] false
      (@GossiperStep.deliver true largerGossiper.peer [] none m rfl)
  have hrun := (((Relation.ReflTransGen.single hround).tail htransmit).tail hsent).tail hdeliver
  refine ⟨_, _, hrun, rfl, rfl, ?_⟩
  refine estimates_bounded hrun ⟨?_, nofun⟩ ⟨by decide, by decide, by decide⟩ 0 2 4 ⟨?_, nofun⟩
  · intro b
    cases b with
    | true => exact sampleGossiper_wf
    | false => exact largerGossiper_wf
  · intro b m' hm'
    cases b with
    | true =>
      obtain rfl := List.mem_singleton.1 hm'
      exact ⟨by decide +kernel, by decide +kernel, by decide +kernel⟩
    | false =>
      obtain rfl := List.mem_singleton.1 hm'
      exact ⟨by decide +kernel, by decide +kernel, by decide +kernel⟩

end XGossip
