import XGossip.Chord.VNode

namespace XGossip
set_option autoImplicit true
open Circle

inductive ChordStat where
  | ok
  | errnoent
  deriving DecidableEq

/-- What an answer leads to: the node before is asked, the caller is asked whether to go on, the
search is over, an assertion fails. -/
inductive HopCb where
  | backup
  | more
  | done
  | abort
  deriving DecidableEq

/-- A search for x on its way. The path is kept from its end on. -/
structure RouteIter where
  x : ChordID
  back : ChordID
  before : List ChordID
  successors : List ChordID
  failedNodes : List ChordID
  r : ChordStat
  cb : HopCb
  deriving DecidableEq

structure Net where
  answers : ChordID → Option VNode
  own : ∀ n v, answers n = some v → v.myID = n

namespace RouteIter

def searchPath (it : RouteIter) : List ChordID := it.before.reverse ++ [it.back]

def firstHop (v : VNode) (x : ChordID) (guess : Option ChordID) : RouteIter :=
  { x, back := ((guess.bind v.locations.lookup).map (·.id)).getD (Fingerroute.closestpred v x [])
    before := [], successors := [], failedNodes := [], r := .ok, cb := .more }

def makeHopCb (me : ChordID) (it : RouteIter) : Option TestandfindRes → RouteIter
  | none =>
    { it with
      back := it.before.headD me
      before := it.before.tail
      failedNodes := it.failedNodes ++ [it.back]
      cb := .backup }
  | some (.inrange []) => { it with cb := .abort }
  | some (.inrange (n0 :: n)) =>
    { it with back := n0, before := it.back :: it.before, successors := n0 :: n, cb := .done }
  | some (.notinrange n succs) =>
    if it.back = n then { it with r := .errnoent, cb := .done }
    else
      { it with
        back := n
        before := it.back :: it.before
        successors := succs
        cb := if it.before.length + 2 ≤ 1000 then .more else .abort }

/-- The end of the path is asked. Who does not answer is one that failed. -/
def nextHop (me : ChordID) (net : Net) (it : RouteIter) : RouteIter :=
  makeHopCb me it ((net.answers it.back).map fun v => v.doroute it.x it.failedNodes)

def ended (it : RouteIter) : Bool := it.cb = .done ∨ it.cb = .abort

/-- The search after some hops, through a network that is another one at every hop. -/
def run (me : ChordID) (net : Nat → Net) (it : RouteIter) : Nat → RouteIter
  | 0 => it
  | k + 1 =>
    let it' := run me net it k
    if it'.ended then it' else nextHop me (net k) it'

end RouteIter

def RingList (ring : Finset ChordID) (l : List ChordID) : Prop :=
  l.IsChain fun a b => IsFirst (2 ^ NBIT) ring (incID a) b

/-- The nodes that answer know the ring's successors of theirs. -/
def Stable (ring : Finset ChordID) (net : Net) : Prop :=
  ∀ n v, net.answers n = some v → RingList ring (n :: v.succs)

def Knows (S : Finset ChordID) (v : VNode) : Prop := ∀ l ∈ v.locations.loclist, l.id ∈ S

namespace RouteIter

/-- The search has come to the first node of the ring at or behind x. -/
def Found (ring : Finset ChordID) (it : RouteIter) : Prop :=
  it.cb = .done ∧ it.r = .ok ∧ IsFirst (2 ^ NBIT) ring it.x it.back ∧
    it.successors.head? = some it.back ∧ RingList ring it.successors

/-- The search has given up at a node whose successor is down. -/
def Stuck (ring : Finset ChordID) (it : RouteIter) : Prop :=
  it.cb = .done ∧ it.r = .errnoent ∧
    ∃ s ∈ it.failedNodes, IsFirst (2 ^ NBIT) ring (incID it.back) s

def Onward (x : ChordID) (path : List ChordID) : Prop :=
  path.Pairwise fun a b => distance a x < distance b x

structure Underway (S ring : Finset ChordID) (me : ChordID) (it : RouteIter) : Prop where
  key : it.x < 2 ^ NBIT
  r : it.r = .ok
  lt : ∀ n ∈ it.back :: it.before, n < 2 ^ NBIT
  known : ∀ n ∈ it.back :: it.before, n ∈ S
  onward : Onward it.x (it.back :: it.before)
  fresh : ∀ n ∈ it.back :: it.before, n ∉ it.failedNodes
  self : me ∉ it.failedNodes
  successors : RingList ring it.successors

/-- What is left to a search: the nodes that it does not know to be down, and for each round of
them the nodes that are nearer to x. -/
def rank (S : Finset ChordID) (it : RouteIter) : Nat :=
  (S.filter (· ∉ it.failedNodes)).card * (S.card + 1) +
    (S.filter fun n => distance n it.x < distance it.back it.x).card

end RouteIter

section Answers

variable {v : VNode} {x n : Nat} {failed succs : List ChordID} {ring : Finset ChordID}

theorem distance_pos {a b : Nat} (ha : a < 2 ^ NBIT) (hb : b < 2 ^ NBIT) : 0 < distance a b := by
  rw [distance_eq ha hb]
  exact Nat.succ_pos _

theorem isFirst_mySucc (hring : ∀ n ∈ ring, n < 2 ^ NBIT) (hx : x < 2 ^ NBIT)
    (hs : IsFirst (2 ^ NBIT) ring (incID v.myID) v.mySucc)
    (hin : betweenrightincl v.myID v.mySucc x) : IsFirst (2 ^ NBIT) ring x v.mySucc := by
  have hsucc := hring _ hs.1
  have hle := (betweenrightincl_iff v.myID_lt hsucc hx).1 hin
  rw [distance_eq v.myID_lt hx, distance_eq v.myID_lt hsucc] at hle
  exact hs.of_le hring (incID_lt v.myID_lt) hx (Nat.le_of_succ_le_succ hle)

theorem doroute_inrange (hring : ∀ n ∈ ring, n < 2 ^ NBIT) (hx : x < 2 ^ NBIT)
    (hs : RingList ring (v.myID :: v.succs)) {ns : List ChordID}
    (h : v.doroute x failed = .inrange ns) :
    ∃ rest, ns = v.mySucc :: rest ∧ IsFirst (2 ^ NBIT) ring x v.mySucc ∧ RingList ring ns := by
  rw [VNode.doroute] at h
  split at h
  · next hin =>
    cases h
    obtain ⟨hfirst, hrest⟩ := List.isChain_cons_cons.1 (VNode.head_succs ▸ hs)
    exact ⟨_, rfl, isFirst_mySucc hring hx hfirst hin, hrest⟩
  · cases h

/-- Out of its range, a node answers with one that is nearer to x, and with itself only if its
successor is down. -/
theorem doroute_notinrange (hx : x < 2 ^ NBIT) (hs : RingList ring (v.myID :: v.succs))
    (hring : ∀ n ∈ ring, n < 2 ^ NBIT) (h : v.doroute x failed = .notinrange n succs) :
    n ∈ v.locations.good ∧ succs = v.succs ∧
      (n = v.myID ∧ v.mySucc ∈ failed ∨
        between v.myID x n ∧ distance n x < distance v.myID x ∧ n ∉ failed) := by
  rw [VNode.doroute] at h
  split at h
  · cases h
  · next hout =>
    cases h
    obtain ⟨hgood, hahead⟩ := Fingerroute.closestpred_ahead v x failed
    refine ⟨hgood, rfl, ?_⟩
    rcases hahead with hme | ⟨hbetween, hf⟩
    · refine .inl ⟨hme, ?_⟩
      by_contra hf
      have hsucc := hring _ (List.isChain_cons_cons.1 (VNode.head_succs ▸ hs)).1.1
      have hlt := (betweenrightincl_iff v.myID_lt hsucc hx).not.1 hout
      exact Fingerroute.closestpred_ne
        ((between_iff v.myID_lt hx hsucc).2 (Nat.lt_of_not_le hlt)) hf hme
    · have hlt := VNode.good_lt _ hgood
      have hdist := (between_iff v.myID_lt hx hlt).1 hbetween
      have hadd := distance_add v.myID_lt hx hlt hdist
      have hpos := distance_pos v.myID_lt hlt
      refine .inr ⟨hbetween, ?_, hf⟩
      dsimp only [ChordID] at *
      omega

end Answers

namespace RouteIter

variable {S ring : Finset ChordID} {it it' : RouteIter} {net : Net} {me : ChordID}

theorem Onward.nodup {x : ChordID} {path : List ChordID} (h : Onward x path) : path.Nodup :=
  h.imp fun hab he => Nat.ne_of_lt hab (congrArg (distance · x) he)

theorem rank_lt_of_failed (hS : it.back ∈ S) (hf : it.back ∉ it.failedNodes)
    (hf' : it'.failedNodes = it.failedNodes ++ [it.back]) : rank S it' < rank S it := by
  have hcard : (S.filter (· ∉ it'.failedNodes)).card < (S.filter (· ∉ it.failedNodes)).card := by
    refine Finset.card_lt_card (Finset.ssubset_iff_of_subset (fun n hn => ?_) |>.2
      ⟨it.back, by simp [hS, hf], by simp [hf']⟩)
    simp_all
  have hnear : (S.filter fun n => distance n it'.x < distance it'.back it'.x).card ≤ S.card :=
    Finset.card_filter_le ..
  have hmul := Nat.mul_le_mul_right (S.card + 1) (Nat.succ_le_of_lt hcard)
  rw [Nat.succ_mul] at hmul
  simp only [rank]
  omega

theorem rank_lt_of_nearer (hx : it'.x = it.x) (hf : it'.failedNodes = it.failedNodes)
    (hS : it'.back ∈ S) (hlt : distance it'.back it.x < distance it.back it.x) :
    rank S it' < rank S it := by
  have hcard : (S.filter fun n => distance n it'.x < distance it'.back it'.x).card <
      (S.filter fun n => distance n it.x < distance it.back it.x).card := by
    refine Finset.card_lt_card (Finset.ssubset_iff_of_subset (fun n hn => ?_) |>.2
      ⟨it'.back, by simp [hS, hlt], by simp⟩)
    simp only [Finset.mem_filter, hx] at hn ⊢
    exact ⟨hn.1, hn.2.trans hlt⟩
  rw [rank, rank, hf]
  omega

/-- A node that does not answer is left for the one before it on the path. -/
theorem Underway.backup (h : Underway S ring me it) (hme : me < 2 ^ NBIT) (hmeS : me ∈ S)
    (hne : it.back ≠ me) :
    Underway S ring me (makeHopCb me it none) := by
  obtain ⟨hhead, honward⟩ := List.pairwise_cons.1 h.onward
  have hpath : ∀ n ∈ it.before.headD me :: it.before.tail, n ∈ it.before ∨ n = me := by
    cases it.before <;> simp +contextual
  refine ⟨h.key, h.r, fun n hn => ?_, fun n hn => ?_, ?_, fun n hn hf => ?_,
    List.not_mem_append h.self (List.mem_singleton.not.2 hne.symm), h.successors⟩
  · rcases hpath n hn with hn | rfl
    · exact h.lt n (List.mem_cons_of_mem _ hn)
    · exact hme
  · rcases hpath n hn with hn | rfl
    · exact h.known n (List.mem_cons_of_mem _ hn)
    · exact hmeS
  · rw [makeHopCb]
    cases hb : it.before with
    | nil => exact List.pairwise_singleton ..
    | cons b before => exact hb ▸ honward
  · rcases List.mem_append.1 hf with hold | hnew
    · rcases hpath n hn with hn | rfl
      · exact h.fresh n (List.mem_cons_of_mem _ hn) hold
      · exact h.self hold
    · obtain rfl := List.mem_singleton.1 hnew
      rcases hpath _ hn with hn | hn
      · exact Nat.lt_irrefl _ (hhead _ hn)
      · exact hne hn

/-- A search that is sent on goes on, unless its path has grown too long. -/
theorem Underway.notinrange (h : Underway S ring me it) {n : Nat} {succs : List ChordID}
    (hn : n < 2 ^ NBIT) (hnS : n ∈ S) (hf : n ∉ it.failedNodes)
    (hlt : distance n it.x < distance it.back it.x) (hs : RingList ring succs) :
    let it' := makeHopCb me it (some (.notinrange n succs))
    Underway S ring me it' ∧ rank S it' < rank S it ∧
      (it'.cb = .more ∨ it'.cb = .abort ∧ 1000 < S.card) := by
  have hne : it.back ≠ n := fun he => Nat.ne_of_lt hlt (congrArg (distance · it.x) he.symm)
  simp only [makeHopCb, if_neg hne]
  have honward : Onward it.x (n :: it.back :: it.before) := by
    refine List.pairwise_cons.2 ⟨fun m hm => ?_, h.onward⟩
    rcases List.mem_cons.1 hm with rfl | hm
    · exact hlt
    · exact hlt.trans ((List.pairwise_cons.1 h.onward).1 m hm)
  have hknown : ∀ m ∈ n :: it.back :: it.before, m ∈ S :=
    List.forall_mem_cons.2 ⟨hnS, h.known⟩
  refine ⟨⟨h.key, h.r, List.forall_mem_cons.2 ⟨hn, h.lt⟩, hknown, honward,
    List.forall_mem_cons.2 ⟨hf, h.fresh⟩, h.self, hs⟩, rank_lt_of_nearer rfl rfl hnS hlt, ?_⟩
  split
  · exact .inl rfl
  · refine .inr ⟨rfl, ?_⟩
    have hcard : (n :: it.back :: it.before).toFinset.card ≤ S.card :=
      Finset.card_le_card fun m hm => hknown m (List.mem_toFinset.1 hm)
    rw [List.toFinset_card_of_nodup honward.nodup, List.length_cons, List.length_cons] at hcard
    omega

/-- How a search ends: at the node that x belongs to, at a node whose successor is down, or on a
path that is too long. -/
def Ends (S ring : Finset ChordID) (it : RouteIter) : Prop :=
  Onward it.x it.before ∧
    (Found ring it ∨ Stuck ring it ∨ it.cb = .abort ∧ 1000 < S.card)

/-- A hop ends the search, or leaves it nearer to its end. -/
theorem Underway.step (h : Underway S ring me it) (hring : ∀ n ∈ ring, n < 2 ^ NBIT)
    (hstable : Stable ring net) (hknown : ∀ n v, net.answers n = some v → Knows S v)
    (hme : me < 2 ^ NBIT) (hmeS : me ∈ S) (hself : (net.answers me).isSome) :
    Ends S ring (nextHop me net it) ∨ (nextHop me net it).ended = false ∧
      Underway S ring me (nextHop me net it) ∧ rank S (nextHop me net it) < rank S it := by
  rw [nextHop]
  cases hanswer : net.answers it.back with
  | none =>
    have hne : it.back ≠ me := by
      rintro rfl
      simp [hanswer] at hself
    exact .inr ⟨rfl, h.backup hme hmeS hne,
      rank_lt_of_failed (h.known _ List.mem_cons_self) (h.fresh _ List.mem_cons_self) rfl⟩
  | some v =>
    have hown : v.myID = it.back := net.own _ _ hanswer
    have hs : RingList ring (v.myID :: v.succs) := hown ▸ hstable _ _ hanswer
    rw [Option.map_some]
    cases hroute : v.doroute it.x it.failedNodes with
    | inrange ns =>
      obtain ⟨rest, rfl, hfirst, hlist⟩ := doroute_inrange hring h.key hs hroute
      exact .inl ⟨h.onward, .inl ⟨rfl, h.r, hfirst, rfl, hlist⟩⟩
    | notinrange n succs =>
      obtain ⟨hgood, rfl, hme' | ⟨-, hlt, hf⟩⟩ := doroute_notinrange h.key hs hring hroute
      · refine .inl ?_
        rw [makeHopCb, if_pos (hown.symm.trans hme'.1.symm)]
        have hfirst := (List.isChain_cons_cons.1 (VNode.head_succs ▸ hs)).1
        exact ⟨(List.pairwise_cons.1 h.onward).2, .inr (.inl ⟨rfl, rfl, _, hme'.2, hown ▸ hfirst⟩)⟩
      · have hnS : n ∈ S := hknown _ _ hanswer _ (LocationTable.mem_good.1 hgood)
        have hlist : RingList ring v.succs := (List.isChain_cons_cons.1 (VNode.head_succs ▸ hs)).2
        obtain ⟨hunder, hrank, hcb⟩ :=
          h.notinrange (VNode.good_lt _ hgood) hnS hf (hown ▸ hlt) hlist
        rcases hcb with hmore | habort
        · exact .inr ⟨by simp [ended, hmore], hunder, hrank⟩
        · exact .inl ⟨(List.pairwise_cons.1 hunder.onward).2, .inr (.inr habort)⟩

theorem Ends.ended (h : Ends S ring it) : it.ended := by
  rcases h.2 with h | h | h <;> simp [RouteIter.ended, h.1]

theorem Underway.of_firstHop {v : VNode} {x : Nat} {guess : Option ChordID} (hx : x < 2 ^ NBIT)
    (hv : Knows S v) : Underway S ring v.myID (firstHop v x guess) := by
  have hback : (firstHop v x guess).back < 2 ^ NBIT ∧ (firstHop v x guess).back ∈ S := by
    rw [RouteIter.firstHop]
    cases hguess : guess.bind v.locations.lookup with
    | none =>
      have hgood := (Fingerroute.closestpred_ahead v x []).1
      exact ⟨VNode.good_lt _ hgood, hv _ (LocationTable.mem_good.1 hgood)⟩
    | some l =>
      obtain ⟨n, -, hl⟩ := Option.bind_eq_some_iff.1 hguess
      have hmem := List.mem_of_find?_eq_some hl
      exact ⟨v.locations.ids l hmem, hv l hmem⟩
  refine ⟨hx, rfl, ?_, ?_, List.pairwise_singleton .., ?_, List.not_mem_nil, List.IsChain.nil⟩
  · simpa [RouteIter.firstHop] using hback.1
  · simpa [RouteIter.firstHop] using hback.2
  · exact fun _ _ => List.not_mem_nil

theorem Underway.of_run {net : Nat → Net} (h : Underway S ring me it) (hover : it.ended = false)
    (hring : ∀ n ∈ ring, n < 2 ^ NBIT) (hstable : ∀ t, Stable ring (net t))
    (hknown : ∀ t n v, (net t).answers n = some v → Knows S v) (hme : me < 2 ^ NBIT)
    (hmeS : me ∈ S) (hself : ∀ t, ((net t).answers me).isSome) (k : Nat) :
    Ends S ring (run me net it k) ∨ (run me net it k).ended = false ∧
      Underway S ring me (run me net it k) ∧ rank S (run me net it k) + k ≤ rank S it := by
  induction k with
  | zero => exact .inr ⟨hover, h, Nat.le_refl _⟩
  | succ k ih =>
    rw [RouteIter.run]
    rcases ih with hends | ⟨hover', hunder, hrank⟩
    · rw [if_pos hends.ended]
      exact .inl hends
    · rw [if_neg (by simp [hover'])]
      rcases hunder.step hring (hstable k) (hknown k) hme hmeS (hself k) with
        hends | ⟨hover'', hunder', hlt⟩
      · exact .inl hends
      · exact .inr ⟨hover'', hunder', by omega⟩

theorem rank_lt (S : Finset ChordID) (it : RouteIter) : rank S it < (S.card + 1) ^ 2 := by
  have hfailed : (S.filter (· ∉ it.failedNodes)).card ≤ S.card := Finset.card_filter_le ..
  have hnear : (S.filter fun n => distance n it.x < distance it.back it.x).card ≤ S.card :=
    Finset.card_filter_le ..
  have hmul := Nat.mul_le_mul_right (S.card + 1) hfailed
  rw [rank, Nat.pow_two, Nat.add_mul, Nat.one_mul]
  omega

theorem lookup_ends {net : Nat → Net} {v : VNode} {x : Nat} (guess : Option ChordID)
    (hx : x < 2 ^ NBIT) (hring : ∀ n ∈ ring, n < 2 ^ NBIT) (hstable : ∀ t, Stable ring (net t))
    (hknown : ∀ t n w, (net t).answers n = some w → Knows S w) (hv : Knows S v)
    (hself : ∀ t, ((net t).answers v.myID).isSome) :
    Ends S ring (run v.myID net (firstHop v x guess) ((S.card + 1) ^ 2)) := by
  have hmeS : v.myID ∈ S := hv _ (LocationTable.mem_good.1 v.me)
  rcases (Underway.of_firstHop hx hv).of_run rfl hring hstable hknown v.myID_lt hmeS hself
    ((S.card + 1) ^ 2) with h | ⟨-, -, hrank⟩
  · exact h
  · have := rank_lt S (firstHop v x guess)
    omega

def three : LocationTable :=
  { loclist := [⟨10, true⟩, ⟨20, true⟩, ⟨30, true⟩], sorted := by decide, ids := by decide }

def threeNet : Net where
  answers n := if h : n ∈ three.good then some ⟨n, three, 16, by decide, h⟩ else none
  own n v h := by
    split at h
    · next hn =>
      cases h
      rfl
    · cases h

theorem threeNet_answers {n : ChordID} {v : VNode} (h : threeNet.answers n = some v) :
    ∃ hn : n ∈ three.good, v = ⟨n, three, 16, by decide, hn⟩ := by
  simp only [threeNet] at h
  split at h
  · next hn => exact ⟨hn, (Option.some.inj h).symm⟩
  · cases h

theorem threeNet_stable : Stable {10, 20, 30} threeNet := fun n v h => by
  have hchain : ∀ (n : ChordID) (hn : n ∈ three.good),
      RingList {10, 20, 30} (n :: VNode.succs ⟨n, three, 16, by decide, hn⟩) := by
    unfold RingList
    decide +kernel
  obtain ⟨hn, rfl⟩ := threeNet_answers h
  exact hchain n hn

/-- The same nodes, of which the last one before the key does not answer. -/
def silentNet : Net where
  answers n := if n = 20 then none else threeNet.answers n
  own n v h := by
    split at h
    · cases h
    · exact threeNet.own n v h

theorem silentNet_answers (h : silentNet.answers n = some v) : threeNet.answers n = some v := by
  simp only [silentNet] at h
  split at h
  · cases h
  · exact h

theorem lookup_ends_three : Ends {10, 20, 30} {10, 20, 30}
    (run 10 (fun _ => silentNet) (firstHop ⟨10, three, 16, by decide, by decide⟩ 25 none) 16) := by
  have hknows : ∀ l ∈ three.loclist, l.id ∈ ({10, 20, 30} : Finset ChordID) := by decide
  refine lookup_ends none (by decide) (by decide)
    (fun _ n v h => threeNet_stable n v (silentNet_answers h)) (fun _ n v h => ?_) hknows
    fun _ => by decide
  obtain ⟨hn, rfl⟩ := threeNet_answers (silentNet_answers h)
  exact hknows

end RouteIter

/-- The loop over the successors that a node has sent along: the ones behind x are what the caller
looks for. -/
def shave (key : ChordID) : Nat → List ChordID → Option (List ChordID)
  | left + 1, a :: b :: cs =>
    if betweenrightincl a b key then some (b :: cs) else shave key left (b :: cs)
  | _, _ => none

/-- What a search for m successors is answered after a hop, if it is over for the caller. -/
def findSucclistHopCb (m : Nat) (it : RouteIter) : Option (List ChordID × ChordStat) :=
  let cs := it.successors
  match it.cb with
  | .done => some (cs, it.r)
  | .more =>
    let left := if cs.length < m then cs.length else cs.length - m
    (shave it.x (left - 1) cs).map fun cs => (cs, it.r)
  | _ => none

variable {ring : Finset ChordID} {key m : Nat} {cs : List ChordID}

theorem RingList.mem : ∀ {a : ChordID} {l : List ChordID}, RingList ring (a :: l) →
    ∀ n ∈ l, n ∈ ring
  | _, [], _, _, hn => absurd hn List.not_mem_nil
  | _, b :: l, h, n, hn => by
    obtain ⟨hfirst, hrest⟩ := List.isChain_cons_cons.1 h
    rcases List.mem_cons.1 hn with rfl | hn
    · exact hfirst.1
    · exact RingList.mem hrest n hn

/-- Some nodes of the ring, one behind the other, from the one on that a key belongs to. -/
def Successors (ring : Finset ChordID) (key : ChordID) (cs : List ChordID) : Prop :=
  (∃ n, cs.head? = some n ∧ IsFirst (2 ^ NBIT) ring key n) ∧ RingList ring cs

theorem shave_spec (hring : ∀ n ∈ ring, n < 2 ^ NBIT) (hkey : key < 2 ^ NBIT) :
    ∀ {left : Nat} {cs cs' : List ChordID}, RingList ring cs → (∀ n ∈ cs, n ∈ ring) →
      shave key left cs = some cs' → Successors ring key cs'
  | 0, _, _, _, _, h => by simp [shave] at h
  | _ + 1, [], _, _, _, h => by simp [shave] at h
  | _ + 1, [_], _, _, _, h => by simp [shave] at h
  | left + 1, a :: b :: cs, cs', hlist, hmem, h => by
    obtain ⟨hfirst, hrest⟩ := List.isChain_cons_cons.1 hlist
    rw [shave] at h
    split at h
    · next hin =>
      cases h
      have ha := hring a (hmem a List.mem_cons_self)
      have hb := hring b hfirst.1
      have hle := (betweenrightincl_iff ha hb hkey).1 hin
      rw [distance_eq ha hkey, distance_eq ha hb] at hle
      exact ⟨⟨b, rfl, hfirst.of_le hring (incID_lt ha) hkey (Nat.le_of_succ_le_succ hle)⟩, hrest⟩
    · exact shave_spec hring hkey hrest (List.forall_mem_cons.1 hmem).2 h

namespace RouteIter

structure Listed (ring : Finset ChordID) (x : ChordID) (it : RouteIter) : Prop where
  key : it.x = x
  list : RingList ring it.successors
  mem : ∀ n ∈ it.successors, n ∈ ring
  done : it.cb = .done → it.r = .ok → Successors ring x it.successors

theorem Listed.step {it : RouteIter} {net : Net} {me : ChordID} (h : Listed ring key it)
    (hring : ∀ n ∈ ring, n < 2 ^ NBIT) (hkey : key < 2 ^ NBIT) (hstable : Stable ring net) :
    Listed ring key (nextHop me net it) := by
  rw [nextHop]
  cases hanswer : net.answers it.back with
  | none => exact ⟨h.key, h.list, h.mem, fun hcb => by cases hcb⟩
  | some v =>
    have hs : RingList ring (v.myID :: v.succs) := net.own _ _ hanswer ▸ hstable _ _ hanswer
    have hkey' : it.x < 2 ^ NBIT := h.key ▸ hkey
    rw [Option.map_some]
    cases hroute : v.doroute it.x it.failedNodes with
    | inrange ns =>
      obtain ⟨rest, rfl, hfirst, hlist⟩ := doroute_inrange hring hkey' hs hroute
      refine ⟨h.key, hlist, fun n hn => ?_, fun _ _ => ⟨⟨_, rfl, h.key ▸ hfirst⟩, hlist⟩⟩
      rcases List.mem_cons.1 hn with rfl | hn
      · exact hfirst.1
      · exact RingList.mem hlist n hn
    | notinrange n succs =>
      obtain ⟨-, rfl, -⟩ := doroute_notinrange hkey' hs hring hroute
      rw [makeHopCb]
      split
      · exact ⟨h.key, h.list, h.mem, fun _ hr => by cases hr⟩
      · have hlist : RingList ring v.succs := (List.isChain_cons_cons.1 (VNode.head_succs ▸ hs)).2
        refine ⟨h.key, hlist, RingList.mem hs, fun hcb => ?_⟩
        dsimp only at hcb
        split at hcb <;> cases hcb

theorem Listed.of_run {it : RouteIter} {net : Nat → Net} {me : ChordID} (h : Listed ring key it)
    (hring : ∀ n ∈ ring, n < 2 ^ NBIT) (hkey : key < 2 ^ NBIT)
    (hstable : ∀ t, Stable ring (net t)) (k : Nat) : Listed ring key (run me net it k) := by
  induction k with
  | zero => exact h
  | succ k ih =>
    rw [run]
    split
    · exact ih
    · exact ih.step hring hkey (hstable k)

theorem find_succlist_ring {net : Nat → Net} {v : VNode} (guess : Option ChordID) (m k : Nat)
    (hkey : key < 2 ^ NBIT) (hring : ∀ n ∈ ring, n < 2 ^ NBIT)
    (hstable : ∀ t, Stable ring (net t))
    (h : findSucclistHopCb m (run v.myID net (firstHop v key guess) k) = some (cs, .ok)) :
    Successors ring key cs := by
  have hfirst : Listed ring key (firstHop v key guess) :=
    ⟨rfl, List.IsChain.nil, fun _ hn => absurd hn List.not_mem_nil, fun hcb => by cases hcb⟩
  have hlisted : Listed ring key (run v.myID net (firstHop v key guess) k) :=
    hfirst.of_run hring hkey hstable k
  generalize run v.myID net (firstHop v key guess) k = it at h hlisted
  cases hcb : it.cb with
  | done =>
    simp only [findSucclistHopCb, hcb, Option.some.injEq, Prod.mk.injEq] at h
    obtain ⟨rfl, hr⟩ := h
    exact hlisted.done hcb hr
  | more =>
    simp only [findSucclistHopCb, hcb, Option.map_eq_some_iff, Prod.mk.injEq] at h
    obtain ⟨cs, hshave, rfl, -⟩ := h
    exact shave_spec hring hkey hlisted.list hlisted.mem (hlisted.key ▸ hshave)
  | backup => simp [findSucclistHopCb, hcb] at h
  | abort => simp [findSucclistHopCb, hcb] at h

theorem find_succlist_ring_three : Successors {10, 20, 30} 25 [30] :=
  find_succlist_ring (v := ⟨10, three, 16, by decide, by decide⟩) (some 10) 0 1 (by decide)
    (by decide) (fun _ => threeNet_stable) (by decide +kernel)

end RouteIter

end XGossip
