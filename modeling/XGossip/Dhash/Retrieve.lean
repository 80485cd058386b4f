import XGossip.Lib.Codec
import XGossip.Sig

namespace XGossip
set_option autoImplicit true
open Codec

/-- What a kind of blocks does with the fragments that are downloaded. Only with an error, or with
fewer fragments than are fetched at least, a block is not done. -/
structure DhBlock (β : Type) where
  min_fetch : Nat
  process_download : β → List Byte → β × Bool
  data : β → Option (List Byte)
  size : β → Nat
  good : ∀ b frag b', process_download b frag = (b', false) → data b' = none →
    size b < size b' ∧ size b' < min_fetch
  bad : ∀ b frag b', process_download b frag = (b', true) → data b = none →
    data b' = none ∧ size b ≤ size b'

inductive FetchStat where
  | DHASH_OK | DHASH_NOENT | DHASH_CHORDERR
  deriving DecidableEq

/-- A retrieval, with the successors that have been asked and have not answered, and the calls of
its callback. -/
structure RcvState (β : Type) where
  succs : List ChordID
  nextsucc : Nat
  incoming_rpcs : Nat
  errors : Nat
  completed : Bool
  block : β
  asked : List Nat
  calls : List (FetchStat × Option (List Byte))

namespace RcvState

variable (k : DhBlock β)

def complete (rs : RcvState β) (s : FetchStat) (data : Option (List Byte)) : RcvState β :=
  { rs with completed := true, calls := rs.calls ++ [(s, data)] }

/-- Ask the next successor. If there is none and nobody is to answer, fail. -/
def fetchFrag (rs : RcvState β) : RcvState β :=
  if rs.completed then rs
  else if rs.nextsucc ≥ rs.succs.length then
    if rs.incoming_rpcs > 0 then rs else rs.complete .DHASH_NOENT none
  else
    { rs with
      incoming_rpcs := rs.incoming_rpcs + 1
      asked := rs.nextsucc :: rs.asked
      nextsucc := rs.nextsucc + 1 }

def doassemble (succs : List ChordID) (block : β) : RcvState β :=
  let rs : RcvState β := ⟨[], 0, 0, 0, false, block, [], []⟩
  if succs.length < k.min_fetch then rs.complete .DHASH_CHORDERR none
  else fetchFrag^[min k.min_fetch succs.length] { rs with succs }

/-- What is done with a fragment: an error asks one more successor, and then goes on. -/
def processFrag (rs : RcvState β) (frag : List Byte) : RcvState β :=
  let (block, err) := k.process_download rs.block frag
  let rs := { rs with block }
  let rs := if err then fetchFrag { rs with errors := rs.errors + 1 } else rs
  match k.data rs.block with
  | some data => rs.complete .DHASH_OK (some data)
  | none =>
    if rs.incoming_rpcs = 0 ∧ rs.nextsucc > rs.succs.length then rs.complete .DHASH_NOENT none
    else rs

def retrieveFetchCb (rs : RcvState β) (i : Nat) (frag : Option (List Byte)) : RcvState β :=
  let rs := { rs with incoming_rpcs := rs.incoming_rpcs - 1, asked := rs.asked.erase i }
  if rs.completed then rs
  else match frag with
    | none => fetchFrag { rs with errors := rs.errors + 1 }
    | some frag => rs.processFrag k frag

end RcvState

/-- A successor answers, with a fragment or without, or lets the asker wait. -/
inductive RcvEvent where
  | reply (i : Nat) (frag : Option (List Byte))
  | timeout (i : Nat)

namespace RcvState

variable (k : DhBlock β)

def step (rs : RcvState β) : RcvEvent → Option (RcvState β)
  | .reply i frag => if i ∈ rs.asked then some (rs.retrieveFetchCb k i frag) else none
  | .timeout i => if i ∈ rs.asked then some rs.fetchFrag else none

def run (rs : RcvState β) (events : List RcvEvent) : Option (RcvState β) :=
  events.foldlM (step k) rs

/-- The callback has not been called, and whoever is to answer may still bring enough, or
everybody has been asked. -/
def Waits (rs : RcvState β) : Prop :=
  rs.calls = [] ∧ k.data rs.block = none ∧
    (k.min_fetch ≤ k.size rs.block + rs.asked.length ∨ rs.nextsucc = rs.succs.length)

/-- The callback has been called with the data of the block, or when everybody has been asked and
the block is not done. -/
def Ended (rs : RcvState β) : Prop :=
  (∃ data, rs.calls = [(.DHASH_OK, some data)] ∧ k.data rs.block = some data) ∨
    (rs.calls = [(.DHASH_NOENT, none)] ∧ k.data rs.block = none ∧
      rs.nextsucc = rs.succs.length)

structure Inv (rs : RcvState β) : Prop where
  rpcs : rs.incoming_rpcs = rs.asked.length
  next : rs.nextsucc ≤ rs.succs.length
  waits : rs.completed = false → Waits k rs
  ended : rs.completed = true → Ended k rs

variable {k} {rs rs' : RcvState β} {i : Nat}

/-- To ask one more successor keeps what has been waited for. Only when everybody has been asked
nobody is asked. -/
theorem Inv.fetchFrag (hrpcs : rs.incoming_rpcs = rs.asked.length)
    (hnext : rs.nextsucc ≤ rs.succs.length) (hcalls : rs.calls = [])
    (hdata : k.data rs.block = none) (hopen : rs.completed = false)
    (henough : k.min_fetch ≤ k.size rs.block + rs.asked.length + 1 ∨
      rs.nextsucc = rs.succs.length) :
    Inv k rs.fetchFrag ∧ rs.fetchFrag.block = rs.block ∧
      (rs.fetchFrag.completed = false → rs.fetchFrag.asked ≠ []) := by
  rw [RcvState.fetchFrag, if_neg (by simp [hopen])]
  split
  · next hall =>
    have hend : rs.nextsucc = rs.succs.length := Nat.le_antisymm hnext hall
    split
    · next hpos =>
      refine ⟨⟨hrpcs, hnext, fun _ => ⟨hcalls, hdata, .inr hend⟩, fun hc => ?_⟩, rfl,
        fun _ hnil => ?_⟩
      · rw [hopen] at hc
        cases hc
      · rw [hrpcs, hnil] at hpos
        exact absurd hpos (Nat.lt_irrefl 0)
    · refine ⟨⟨hrpcs, hnext, fun hc => ?_, fun _ => .inr ⟨?_, hdata, hend⟩⟩, rfl, fun hc => ?_⟩
      · cases hc
      · rw [complete, hcalls]
        rfl
      · cases hc
  · next hmore =>
    refine ⟨⟨?_, Nat.lt_of_not_le hmore, fun _ => ⟨hcalls, hdata, .inl ?_⟩, fun hc => ?_⟩, rfl,
      fun _ => List.cons_ne_nil _ _⟩
    · rw [List.length_cons, hrpcs]
    · dsimp only [List.length_cons]
      omega
    · rw [hopen] at hc
      cases hc

theorem Inv.doassemble {succs : List ChordID} {b : β} (hlen : k.min_fetch ≤ succs.length)
    (hb : k.data b = none) :
    Inv k (doassemble k succs b) ∧ (0 < k.min_fetch → (doassemble k succs b).asked ≠ []) := by
  have hiter : ∀ n ≤ succs.length, ∃ asked : List Nat, asked.length = n ∧
      RcvState.fetchFrag^[n] ⟨succs, 0, 0, 0, false, b, [], []⟩ =
        ⟨succs, n, n, 0, false, b, asked, []⟩ := by
    intro n
    induction n with
    | zero => exact fun _ => ⟨[], rfl, rfl⟩
    | succ n ih =>
      intro hn
      obtain ⟨asked, hasked, heq⟩ := ih (Nat.le_of_succ_le hn)
      refine ⟨n :: asked, congrArg (· + 1) hasked, ?_⟩
      rw [Function.iterate_succ_apply', heq, RcvState.fetchFrag, if_neg (by simp),
        if_neg (Nat.not_le.2 hn)]
  obtain ⟨asked, hasked, heq⟩ := hiter k.min_fetch hlen
  rw [RcvState.doassemble, if_neg (Nat.not_lt.2 hlen), Nat.min_eq_left hlen]
  dsimp only
  rw [heq]
  refine ⟨⟨hasked.symm, hlen, fun _ => ⟨rfl, hb, .inl ?_⟩, fun hc => by cases hc⟩,
    fun hpos hnil => ?_⟩
  · dsimp only
    omega
  · dsimp only at hnil
    rw [hnil, List.length_nil] at hasked
    omega

/-- A fragment that is taken without an error, but is not enough. -/
def Taken (k : DhBlock β) (rs : RcvState β) (frag : List Byte) : Prop :=
  (k.process_download rs.block frag).2 = false ∧
    k.data (k.process_download rs.block frag).1 = none

theorem Inv.processFrag {frag : List Byte} (hrpcs : rs.incoming_rpcs = rs.asked.length)
    (hnext : rs.nextsucc ≤ rs.succs.length) (hcalls : rs.calls = [])
    (hdata : k.data rs.block = none) (hopen : rs.completed = false)
    (henough : k.min_fetch ≤ k.size rs.block + rs.asked.length + 1 ∨
      rs.nextsucc = rs.succs.length) :
    Inv k (rs.processFrag k frag) ∧ ((rs.processFrag k frag).completed = false →
      (rs.processFrag k frag).asked = [] →
        Taken k rs frag ∧
          (rs.processFrag k frag).nextsucc = (rs.processFrag k frag).succs.length) := by
  rw [RcvState.processFrag, Taken]
  cases hprocess : k.process_download rs.block frag with
  | mk b err =>
    dsimp only
    cases err with
    | true =>
      obtain ⟨hbad, hsize⟩ := k.bad _ _ _ hprocess hdata
      have hfetch : Inv k (RcvState.fetchFrag
          { rs with block := b, errors := rs.errors + 1 }) ∧ _ :=
        Inv.fetchFrag hrpcs hnext hcalls hbad hopen
          (henough.imp_left fun h => h.trans (by dsimp only; omega))
      obtain ⟨hinv, hblock, hasked⟩ := hfetch
      simp only [if_true]
      generalize RcvState.fetchFrag { rs with block := b, errors := rs.errors + 1 } = rs₁
        at hinv hblock hasked ⊢
      have hnone : k.data rs₁.block = none := by rw [hblock]; exact hbad
      have hnot : ¬ (rs₁.incoming_rpcs = 0 ∧ rs₁.nextsucc > rs₁.succs.length) := fun h =>
        absurd hinv.next (Nat.not_le.2 h.2)
      rw [hnone]
      dsimp only
      rw [if_neg hnot]
      exact ⟨hinv, fun hc hnil => absurd hnil (hasked hc)⟩
    | false =>
      simp only [Bool.false_eq_true, if_false]
      cases hdone : k.data b with
      | some data =>
        refine ⟨⟨hrpcs, hnext, fun hc => ?_, fun _ => .inl ⟨data, ?_, hdone⟩⟩, fun hc => ?_⟩
        · cases hc
        · rw [complete, hcalls]
          rfl
        · cases hc
      | none =>
        obtain ⟨hmore, hless⟩ := k.good _ _ _ hprocess hdone
        have hnot : ¬ (rs.incoming_rpcs = 0 ∧ rs.nextsucc > rs.succs.length) := fun h =>
          absurd hnext (Nat.not_le.2 h.2)
        dsimp only
        rw [if_neg hnot]
        refine ⟨⟨hrpcs, hnext, fun _ => ⟨hcalls, hdone, henough.imp_left fun h => ?_⟩,
          fun hc => ?_⟩, fun _ hnil => ⟨by simp, henough.resolve_left fun h => ?_⟩⟩
        · dsimp only
          omega
        · exact absurd (hopen.symm.trans hc) Bool.false_ne_true
        · dsimp only at hnil
          rw [hnil, List.length_nil] at h
          omega

/-- One answer: only a fragment that is taken and is not enough leaves a retrieval alone, with
everybody asked. -/
theorem Inv.reply {frag : Option (List Byte)} (h : Inv k rs) (hi : i ∈ rs.asked) :
    Inv k (rs.retrieveFetchCb k i frag) ∧
      ((rs.retrieveFetchCb k i frag).completed = false →
        (rs.retrieveFetchCb k i frag).asked = [] →
          ∃ data, frag = some data ∧ Taken k rs data ∧
            (rs.retrieveFetchCb k i frag).nextsucc =
              (rs.retrieveFetchCb k i frag).succs.length) := by
  have hlen : (rs.asked.erase i).length = rs.asked.length - 1 := List.length_erase_of_mem hi
  have hpos : 0 < rs.asked.length := List.length_pos_of_mem hi
  have hrpcs : rs.incoming_rpcs - 1 = (rs.asked.erase i).length := by rw [hlen, h.rpcs]
  unfold retrieveFetchCb
  dsimp only
  split
  · next hc =>
    refine ⟨⟨hrpcs, h.next, fun hopen => ?_, h.ended⟩, fun hopen => ?_⟩
    · exact absurd (hc.symm.trans hopen) Bool.noConfusion
    · exact absurd (hc.symm.trans hopen) Bool.noConfusion
  · next hc =>
    have hopen : rs.completed = false := Bool.eq_false_iff.2 hc
    obtain ⟨hcalls, hdata, henough⟩ := h.waits hopen
    have henough' : k.min_fetch ≤ k.size rs.block + (rs.asked.erase i).length + 1 ∨
        rs.nextsucc = rs.succs.length := henough.imp_left fun h => by omega
    cases frag with
    | none =>
      have hfetch : Inv k (RcvState.fetchFrag { rs with
          incoming_rpcs := rs.incoming_rpcs - 1
          asked := rs.asked.erase i
          errors := rs.errors + 1 }) ∧ _ :=
        Inv.fetchFrag hrpcs h.next hcalls hdata hopen henough'
      exact ⟨hfetch.1, fun hc hnil => absurd hnil (hfetch.2.2 hc)⟩
    | some data =>
      have hprocess : Inv k (RcvState.processFrag k { rs with
          incoming_rpcs := rs.incoming_rpcs - 1
          asked := rs.asked.erase i } data) ∧ _ :=
        Inv.processFrag hrpcs h.next hcalls hdata hopen henough'
      exact ⟨hprocess.1, fun hc hnil => ⟨data, rfl, hprocess.2 hc hnil⟩⟩

theorem Inv.timeout (h : Inv k rs) (hi : i ∈ rs.asked) :
    Inv k rs.fetchFrag ∧ rs.fetchFrag.asked ≠ [] := by
  cases hc : rs.completed with
  | true =>
    rw [RcvState.fetchFrag, if_pos hc]
    exact ⟨h, List.ne_nil_of_mem hi⟩
  | false =>
    obtain ⟨hcalls, hdata, henough⟩ := h.waits hc
    have henough' := henough.imp_left Nat.le_succ_of_le
    refine ⟨(Inv.fetchFrag h.rpcs h.next hcalls hdata hc henough').1, ?_⟩
    have hpos := List.length_pos_of_mem hi
    rw [RcvState.fetchFrag, if_neg (by simp [hc])]
    split
    · rw [if_pos (by rw [h.rpcs]; exact hpos)]
      exact List.ne_nil_of_mem hi
    · exact List.cons_ne_nil _ _

theorem step_cases {e : RcvEvent} (hs : rs.step k e = some rs') :
    (∃ i frag, e = .reply i frag ∧ i ∈ rs.asked ∧ rs' = rs.retrieveFetchCb k i frag) ∨
      ∃ i, e = .timeout i ∧ i ∈ rs.asked ∧ rs' = rs.fetchFrag := by
  cases e with
  | reply i frag =>
    rw [RcvState.step, Option.ite_none_right_eq_some] at hs
    exact .inl ⟨i, frag, rfl, hs.1, (Option.some.inj hs.2).symm⟩
  | timeout i =>
    rw [RcvState.step, Option.ite_none_right_eq_some] at hs
    exact .inr ⟨i, rfl, hs.1, (Option.some.inj hs.2).symm⟩

theorem Inv.step {e : RcvEvent} (h : Inv k rs) (hs : rs.step k e = some rs') :
    Inv k rs' ∧ (rs'.completed = false → rs'.asked = [] → ∃ i data,
      e = .reply i (some data) ∧ Taken k rs data ∧ rs'.nextsucc = rs'.succs.length) := by
  rcases step_cases hs with ⟨i, frag, rfl, hi, rfl⟩ | ⟨i, rfl, hi, rfl⟩
  · have hreply : Inv k (rs.retrieveFetchCb k i frag) ∧ _ := h.reply hi
    obtain ⟨hinv, htaken⟩ := hreply
    refine ⟨hinv, fun hc hnil => ?_⟩
    obtain ⟨data, rfl, htaken, hall⟩ := htaken hc hnil
    exact ⟨i, data, rfl, htaken, hall⟩
  · obtain ⟨hinv, hasked⟩ := h.timeout hi
    exact ⟨hinv, fun _ hnil => absurd hnil hasked⟩

theorem Inv.run {events : List RcvEvent} (h : Inv k rs) (hs : rs.run k events = some rs') :
    Inv k rs' := by
  induction events generalizing rs with
  | nil =>
    cases hs
    exact h
  | cons e events ih =>
    rw [RcvState.run, List.foldlM_cons, Option.bind_eq_bind, Option.bind_eq_some_iff] at hs
    obtain ⟨mid, hmid, hrest⟩ := hs
    exact ih (h.step hmid).1 hrest

@[simp] theorem succs_fetchFrag : rs.fetchFrag.succs = rs.succs := by
  unfold RcvState.fetchFrag
  split_ifs <;> rfl

theorem succs_processFrag {frag : List Byte} : (rs.processFrag k frag).succs = rs.succs := by
  unfold RcvState.processFrag
  cases k.process_download rs.block frag with
  | mk b err =>
    dsimp only
    cases err with
    | true =>
      simp only [if_true]
      split
      · exact succs_fetchFrag
      · split <;> exact succs_fetchFrag
    | false =>
      simp only [Bool.false_eq_true, if_false]
      split
      · rfl
      · split <;> rfl

theorem succs_doassemble {succs : List ChordID} {b : β} (hlen : k.min_fetch ≤ succs.length) :
    (doassemble k succs b).succs = succs := by
  rw [RcvState.doassemble, if_neg (Nat.not_lt.2 hlen)]
  exact Function.Iterate.rec (fun rs : RcvState β => rs.succs = succs) rfl
    (fun _ h => succs_fetchFrag.trans h) _

theorem succs_step {e : RcvEvent} (hs : rs.step k e = some rs') : rs'.succs = rs.succs := by
  rcases step_cases hs with ⟨i, frag, rfl, -, rfl⟩ | ⟨i, rfl, -, rfl⟩
  · unfold retrieveFetchCb
    dsimp only
    split
    · rfl
    · cases frag with
      | none => exact succs_fetchFrag
      | some frag => exact succs_processFrag
  · exact succs_fetchFrag

theorem succs_run {events : List RcvEvent} (hs : rs.run k events = some rs') :
    rs'.succs = rs.succs := by
  induction events generalizing rs with
  | nil =>
    cases hs
    rfl
  | cons e events ih =>
    rw [RcvState.run, List.foldlM_cons, Option.bind_eq_bind, Option.bind_eq_some_iff] at hs
    obtain ⟨mid, hmid, hrest⟩ := hs
    exact (ih hrest).trans (succs_step hmid)

theorem Inv.calls_length (h : Inv k rs) : rs.calls.length ≤ 1 := by
  cases hc : rs.completed with
  | false =>
    rw [(h.waits hc).1]
    exact Nat.zero_le 1
  | true =>
    rcases h.ended hc with ⟨data, hcalls, -⟩ | ⟨hcalls, -⟩
    · rw [hcalls]
      exact Nat.le_refl 1
    · rw [hcalls]
      exact Nat.le_refl 1

theorem ends {succs : List ChordID} {b : β} {events : List RcvEvent} (hpos : 0 < k.min_fetch)
    (hlen : k.min_fetch ≤ succs.length) (hb : k.data b = none)
    (hs : (doassemble k succs b).run k events = some rs) (hnil : rs.asked = []) :
    (∃ data, rs.calls = [(.DHASH_OK, some data)] ∧ k.data rs.block = some data) ∨
      (rs.nextsucc = succs.length ∧ k.data rs.block = none ∧
        (rs.calls = [(.DHASH_NOENT, none)] ∨ (rs.calls = [] ∧ ∃ before i frag mid,
          events = before ++ [.reply i (some frag)] ∧
          (doassemble k succs b).run k before = some mid ∧ Taken k mid frag))) := by
  obtain ⟨hfirst, hasked⟩ := Inv.doassemble hlen hb
  have hinv := hfirst.run hs
  have hsuccs : rs.succs = succs := by rw [succs_run hs, succs_doassemble hlen]
  cases hc : rs.completed with
  | true =>
    rcases hinv.ended hc with hok | ⟨hcalls, hdata, hall⟩
    · exact .inl hok
    · exact .inr ⟨hsuccs ▸ hall, hdata, .inl hcalls⟩
  | false =>
    obtain ⟨hcalls, hdata, -⟩ := hinv.waits hc
    rcases List.eq_nil_or_concat events with rfl | ⟨before, e, rfl⟩
    · cases hs
      exact absurd hnil (hasked hpos)
    · rw [List.concat_eq_append] at hs ⊢
      rw [RcvState.run, List.foldlM_append, Option.bind_eq_bind, Option.bind_eq_some_iff] at hs
      obtain ⟨mid, hmid, hlast⟩ := hs
      rw [List.foldlM_cons, Option.bind_eq_bind, Option.bind_eq_some_iff] at hlast
      obtain ⟨last, hlast, heq⟩ := hlast
      cases heq
      obtain ⟨i, frag, rfl, htaken, hall⟩ := ((hfirst.run hmid).step hlast).2 hc hnil
      exact .inr ⟨hsuccs ▸ hall, hdata, .inr ⟨hcalls, before, i, frag, mid, rfl, hmid, htaken⟩⟩

end RcvState

/-- In whatever order the successors answer or let the asker wait, the callback is called once at
most. When nobody is to answer any more, it has been called: with the data of the block, or when all
successors have been asked and the block is not done. Otherwise all of them have been asked, the
last answer was a fragment that was taken and was not enough, and the callback is never called. -/
theorem retrieve_ends {k : DhBlock β} {succs : List ChordID} {b : β} {events : List RcvEvent}
    {rs : RcvState β} (hpos : 0 < k.min_fetch) (hlen : k.min_fetch ≤ succs.length)
    (hb : k.data b = none) (hs : (RcvState.doassemble k succs b).run k events = some rs) :
    rs.calls.length ≤ 1 ∧ (rs.asked = [] →
      (∃ data, rs.calls = [(.DHASH_OK, some data)] ∧ k.data rs.block = some data) ∨
      (rs.nextsucc = succs.length ∧ k.data rs.block = none ∧
        (rs.calls = [(.DHASH_NOENT, none)] ∨ (rs.calls = [] ∧ ∃ before i frag mid,
          events = before ++ [.reply i (some frag)] ∧
          (RcvState.doassemble k succs b).run k before = some mid ∧
          RcvState.Taken k mid frag)))) :=
  ⟨((RcvState.Inv.doassemble hlen hb).1.run hs).calls_length, RcvState.ends hpos hlen hb hs⟩

/-- A block that is stored as it is: the first fragment is all of it. -/
def replicated : DhBlock (Option (List Byte)) where
  min_fetch := 1
  process_download _ frag := (some frag, false)
  data b := b
  size _ := 0
  good b frag b' h hnone := by
    cases h
    cases hnone
  bad b frag b' h := by cases h

theorem replicated_ends {succs : List ChordID} {events : List RcvEvent}
    {rs : RcvState (Option (List Byte))} (hne : succs ≠ [])
    (hs : (RcvState.doassemble replicated succs none).run replicated events = some rs)
    (hasked : rs.asked = []) : rs.calls.length = 1 := by
  have hlen : replicated.min_fetch ≤ succs.length := List.length_pos_iff.2 hne
  rcases RcvState.ends Nat.one_pos hlen rfl hs hasked with
    ⟨data, hcalls, -⟩ | ⟨-, -, hcalls | ⟨-, -, -, frag, mid, -, -, htaken⟩⟩
  · rw [hcalls]
    rfl
  · rw [hcalls]
    rfl
  · cases htaken.2

section Chash

variable (num_dfrags : Nat) (reconstruct : List (List Byte) → Option (List Byte))
  (verify : List Byte → Bool)

/-- The fragments so far, and the block once it is done. What has been put together out of too few
fragments is taken even if it is not what has been asked for. -/
def processDownload (b : List (List Byte) × Option (List Byte)) (frag : List Byte) :
    (List (List Byte) × Option (List Byte)) × Bool :=
  if frag ∈ b.1 then (b, true)
  else
    let frags := b.1 ++ [frag]
    match reconstruct frags with
    | none => ((frags, b.2), frags.length ≥ num_dfrags)
    | some tmp =>
      if ¬ verify tmp ∧ frags.length ≥ num_dfrags then ((frags, b.2), true)
      else ((frags, some tmp), false)

def chash : DhBlock (List (List Byte) × Option (List Byte)) where
  min_fetch := num_dfrags
  process_download := processDownload num_dfrags reconstruct verify
  data := Prod.snd
  size b := b.1.length
  good b frag b' h hnone := by
    rw [processDownload] at h
    dsimp only at h
    split at h
    · cases h
    · split at h
      · obtain ⟨rfl, hfew⟩ := Prod.mk.inj h
        have hfew := of_decide_eq_false hfew
        rw [List.length_append, List.length_singleton] at hfew ⊢
        omega
      · split at h
        · cases h
        · cases h
          cases hnone
  bad b frag b' h hnone := by
    rw [processDownload] at h
    dsimp only at h
    split at h
    · cases h
      exact ⟨hnone, Nat.le_refl _⟩
    · split at h
      · obtain ⟨rfl, -⟩ := Prod.mk.inj h
        exact ⟨hnone, by simp⟩
      · split at h
        · cases h
          exact ⟨hnone, by simp⟩
        · cases h

end Chash

/-- Two fragments are needed, one of two successors does not have one: the caller waits for ever. -/
def twoFragments : DhBlock (List (List Byte) × Option (List Byte)) :=
  chash 2 (fun frags => if frags.length < 2 then none else some frags.flatten) fun _ => true

theorem retrieve_ends_two : ∃ rs, (RcvState.doassemble twoFragments [10, 20] ([], none)).run
    twoFragments [.reply 0 none, .reply 1 (some [1])] = some rs ∧
      rs.calls = [] ∧ rs.asked = [] ∧ rs.nextsucc = 2 := by
  have hrun : (RcvState.doassemble twoFragments [10, 20] ([], none)).run twoFragments
    [.reply 0 none, .reply 1 (some [1])] =
      some ⟨[10, 20], 2, 0, 1, false, ([[1]], none), [], []⟩ := rfl
  refine ⟨_, hrun, rfl, rfl, ?_⟩
  rcases (retrieve_ends (by decide) (by decide) rfl hrun).2 rfl with ⟨data, hcalls, -⟩ | ⟨hall, -⟩
  · cases hcalls
  · exact hall

end XGossip
