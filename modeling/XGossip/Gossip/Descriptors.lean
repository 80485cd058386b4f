import Mathlib.Data.Finset.Card
import XGossip.Gossip.ReadGossip

namespace XGossip
set_option autoImplicit true

open Codec

/-- The counters of `gpsi`, whether it listens, the descriptors with `readgossip` as their read
callback, the open ones and the ones that `close` was called for, the last one first. -/
structure Conns where
  openfd : BitVec 32
  closefd : BitVec 32
  listening : Bool
  selread : Finset Nat
  opened : Finset Nat
  closed : List Nat

def Conns.start : Conns := ⟨0, 0, true, ∅, ∅, []⟩

/-- `accept` gives a descriptor that is not in use or an error, after which nobody listens. -/
def acceptconn (s : Conns) : Option Nat → Conns
  | none => { s with listening := false }
  | some cs => { s with
      openfd := s.openfd + 1
      opened := insert cs s.opened
      selread := insert cs s.selread }

def FdOp.perform (fd : Nat) (s : Conns) : FdOp → Conns
  | .disable => { s with selread := s.selread.erase fd }
  | .close => { s with opened := s.opened.erase fd, closed := fd :: s.closed }
  | .count => { s with closefd := s.closefd + 1 }

inductive ConnEvent where
  | accept (cs : Option Nat)
  | read (fd : Nat) (round : RoundState) (inputs : List Input)

/-- A callback that is due runs; its inputs are the ones that it asks for. -/
def Conns.step (s : Conns) : ConnEvent → Option Conns
  | .accept cs =>
    if s.listening ∧ ∀ fd ∈ cs, fd ∉ s.opened then some (acceptconn s cs) else none
  | .read fd round inputs =>
    if fd ∈ s.selread then
      match readgossip round inputs with
      | some ((_, ops), []) => some (ops.foldl (FdOp.perform fd) s)
      | _ => none
    else none

def Conns.run (s : Conns) (events : List ConnEvent) : Option Conns := events.foldlM Conns.step s

def Conns.pending (s : Conns) : BitVec 32 := s.openfd - s.closefd

/-- An accepted connection counts one more, and a callback has removed itself, closed its open
descriptor once and counts one less. -/
def Conns.Proper (s : Conns) : ConnEvent → Conns → Prop
  | .accept none, s' => s'.pending = s.pending
  | .accept (some _), s' => s'.pending = s.pending + 1
  | .read fd _ _, s' => fd ∉ s'.selread ∧ fd ∈ s.opened ∧ fd ∉ s'.opened ∧
      s'.closed = fd :: s.closed ∧ s'.pending = s.pending - 1

def Conns.RunProper (s : Conns) (events : List ConnEvent) : Prop :=
  ∀ pre e post s₀ s₁, events = pre ++ e :: post → s.run pre = some s₀ → s₀.step e = some s₁ →
    s₀.Proper e s₁

def Input.data : Input → List Byte
  | .error => []
  | .bytes bs => bs

/-- A message that `readgossip` discards: one of the other phase, or with a sequence number that is
off by more than one round. -/
def Discarded (round : RoundState) (gmsg : List Byte) : Prop :=
  ∃ msgtype, readStr getKeyValueType gmsg = some msgtype ∧
    (isExec msgtype ∧ (round.initphase = true ∨
        ∃ fields, readExec msgtype gmsg (sizeInt gmsg.length) = some (some fields) ∧
          offRound round fields.seq) ∨
      isInit msgtype ∧ round.initphase = false)

/-- The input of a callback does not end early and is no message that is discarded. -/
def ConnEvent.Kept : ConnEvent → Prop
  | .accept _ => True
  | .read _ round inputs => .error ∈ inputs ∨
      .bytes [] ∉ inputs ∧ ¬ Discarded round (inputs.flatMap Input.data)

section Callback

variable {round : RoundState} {inputs rest : List Input}

/-- What the calls of `input` gave when a read loop ends with none of them left. -/
def ReadEnd.Of (inputs : List Input) (buf : List Byte) (recvlen : BitVec 32) : ReadEnd → Prop
  | .failed => .error ∈ inputs
  | .eof => .error ∉ inputs ∧ .bytes [] ∈ inputs
  | .done gmsg n => .error ∉ inputs ∧ .bytes [] ∉ inputs ∧
      gmsg = buf ++ inputs.flatMap Input.data ∧
      n = recvlen + sizeInt (inputs.flatMap Input.data).length

theorem ReadEnd.Of.cons {stop : ReadEnd} {bs : List Byte} (hbs : bs ≠ [])
    (h : stop.Of inputs (buf ++ bs) (recvlen + sizeInt bs.length)) :
    stop.Of (.bytes bs :: inputs) buf recvlen := by
  have herror : Input.error ∈ Input.bytes bs :: inputs ↔ .error ∈ inputs := by simp
  have hnil : Input.bytes [] ∈ Input.bytes bs :: inputs ↔ .bytes [] ∈ inputs := by
    simp [hbs.symm]
  cases stop with
  | failed => exact herror.2 h
  | eof => exact ⟨fun he => h.1 (herror.1 he), hnil.2 h.2⟩
  | done gmsg n =>
    obtain ⟨he, hn, hgmsg, hlen⟩ := h
    refine ⟨fun h => he (herror.1 h), fun h => hn (hnil.1 h), ?_, ?_⟩
    · rw [hgmsg, List.flatMap_cons, List.append_assoc]
      rfl
    · rw [hlen, List.flatMap_cons, List.length_append, BitVec.add_assoc]
      exact congrArg (recvlen + ·) (BitVec.ofNat_add _ _).symm

theorem readLoop_inputs {stop : ReadEnd}
    (h : readLoop inputs msglen recvlen buf = some (stop, [])) : stop.Of inputs buf recvlen := by
  induction inputs generalizing msglen recvlen buf with
  | nil => cases h
  | cons i inputs ih =>
    match i, h with
    | .error, h =>
      cases h
      exact List.mem_cons_self
    | .bytes [], h =>
      cases h
      exact ⟨by simp, List.mem_cons_self⟩
    | .bytes (b :: bs), h =>
      apply ReadEnd.Of.cons (List.cons_ne_nil b bs)
      rw [readLoop, Option.bind_eq_bind, Option.bind_eq_some_iff] at h
      obtain ⟨msglen', -, h⟩ := h
      simp only at h
      split at h
      · exact ih h
      · cases h
        exact ⟨by simp, by simp, by simp, (BitVec.add_zero _).symm⟩

theorem not_isInit_of_isExec (h : isExec msgtype = true) : isInit msgtype = false := by
  simp only [isExec, List.any_cons, List.any_nil, Bool.or_false, Bool.or_eq_true,
    decide_eq_true_eq] at h
  rcases h with rfl | rfl | rfl | rfl | rfl | rfl <;> decide

theorem handled_ops {x : Option (Option β)} {g : β → Received} {msg : Option Received}
    {ops : List FdOp} (h : (do return handled g (← x)) = some (msg, ops)) : ops = released := by
  rw [Option.bind_eq_bind, Option.bind_eq_some_iff] at h
  obtain ⟨fields, -, h⟩ := h
  cases fields with
  | none =>
    cases h
    rfl
  | some fields =>
    cases h
    rfl

/-- Behind the read loop a callback gives its descriptor back exactly if the message is not
discarded, else it does nothing with it. -/
theorem readMessage_ops {gmsg : List Byte} {msg : Option Received} {ops : List FdOp}
    (h : readMessage round gmsg (sizeInt gmsg.length) = some (msg, ops)) :
    ops = released ∧ ¬ Discarded round gmsg ∨ ops = [] ∧ Discarded round gmsg := by
  rw [readMessage, Option.bind_eq_bind, Option.bind_eq_some_iff] at h
  obtain ⟨msgtype, htype, h⟩ := h
  simp only [Discarded, htype, Option.some.injEq, exists_eq_left']
  split at h
  · next hexec =>
    simp only [hexec, not_isInit_of_isExec hexec, true_and]
    split at h
    · next hphase =>
      cases h
      exact .inr ⟨rfl, by simp [hphase]⟩
    · next hphase =>
      rw [Option.bind_eq_bind, Option.bind_eq_some_iff] at h
      obtain ⟨fields, hfields, h⟩ := h
      simp only [hfields, hphase, Option.some.injEq]
      cases fields with
      | none =>
        cases h
        exact .inl ⟨rfl, by simp⟩
      | some fields =>
        simp only at h
        split at h
        · next hoff =>
          cases h
          exact .inr ⟨rfl, by simp [hoff]⟩
        · next hoff =>
          cases h
          exact .inl ⟨rfl, by simp [hoff]⟩
  · next hexec =>
    simp only [hexec, Bool.false_eq_true, false_and, false_or]
    split at h
    · next hinit =>
      split at h
      · next hphase =>
        cases h
        exact .inr ⟨rfl, hinit, by simpa using hphase⟩
      · next hphase =>
        exact .inl ⟨handled_ops h, fun hd => hphase (by simp [hd.2])⟩
    · next hinit =>
      have hkept : ¬ (isInit msgtype = true ∧ round.initphase = false) := fun hd => hinit hd.1
      split at h
      · exact .inl ⟨handled_ops h, hkept⟩
      · split at h
        · exact .inl ⟨handled_ops h, hkept⟩
        · cases h
          exact .inl ⟨rfl, hkept⟩

/-- A callback that returns does one of three things with its descriptor. -/
theorem readgossip_ops (fd : Nat) {msg : Option Received} {ops : List FdOp}
    (h : readgossip round inputs = some ((msg, ops), [])) :
    ops = released ∧ (ConnEvent.read fd round inputs).Kept ∨
      (ops = [] ∨ ops = [.disable]) ∧ ¬ (ConnEvent.read fd round inputs).Kept := by
  rw [readgossip, Option.bind_eq_bind, Option.bind_eq_some_iff] at h
  obtain ⟨⟨stop, rest⟩, hloop, h⟩ := h
  cases stop with
  | failed =>
    cases h
    exact .inl ⟨rfl, .inl (readLoop_inputs hloop)⟩
  | eof =>
    cases h
    obtain ⟨herror, hnil⟩ := readLoop_inputs hloop
    refine .inr ⟨.inr rfl, ?_⟩
    rintro (he | ⟨hn, -⟩)
    · exact herror he
    · exact hn hnil
  | done gmsg recvlen =>
    simp only [Option.bind_eq_bind, Option.bind_eq_some_iff] at h
    obtain ⟨⟨msg', ops'⟩, hmsg, h⟩ := h
    cases h
    obtain ⟨herror, hnil, hgmsg, hlen⟩ := readLoop_inputs hloop
    have hzero : ∀ n : BitVec 32, 0 + n = n := BitVec.zero_add
    rw [List.nil_append] at hgmsg
    rw [hzero, ← hgmsg] at hlen
    rw [hlen] at hmsg
    rcases readMessage_ops hmsg with ⟨hops, hkept⟩ | ⟨hops, hdisc⟩
    · exact .inl ⟨hops, .inr ⟨hnil, hgmsg ▸ hkept⟩⟩
    · refine .inr ⟨.inl hops, ?_⟩
      rintro (he | ⟨-, hkept⟩)
      · exact herror he
      · exact hkept (hgmsg ▸ hdisc)

end Callback

section Run

variable {s s' : Conns} {e : ConnEvent} {events : List ConnEvent}

theorem Conns.step_accept {cs : Option Nat} (h : s.step (.accept cs) = some s') :
    (∀ fd ∈ cs, fd ∉ s.opened) ∧ s' = acceptconn s cs := by
  rw [Conns.step] at h
  split at h
  · next hc =>
    cases h
    exact ⟨hc.2, rfl⟩
  · cases h

theorem Conns.step_read {fd : Nat} {round : RoundState} {inputs : List Input}
    (h : s.step (.read fd round inputs) = some s') : fd ∈ s.selread ∧ ∃ msg ops,
      readgossip round inputs = some ((msg, ops), []) ∧ s' = ops.foldl (FdOp.perform fd) s := by
  rw [Conns.step] at h
  split at h
  · next hfd =>
    split at h
    · next msg ops hread =>
      cases h
      exact ⟨hfd, msg, ops, hread, rfl⟩
    · cases h
  · cases h

theorem Conns.pending_accept (s : Conns) (cs : Nat) :
    (acceptconn s (some cs)).pending = s.pending + 1 := by
  simp only [acceptconn, Conns.pending]
  grind

theorem Conns.pending_released (s : Conns) (fd : Nat) :
    (released.foldl (FdOp.perform fd) s).pending = s.pending - 1 := by
  simp only [released, List.foldl_cons, List.foldl_nil, FdOp.perform, Conns.pending]
  grind

theorem Conns.step_subset (hsub : s.selread ⊆ s.opened) (h : s.step e = some s') :
    s'.selread ⊆ s'.opened := by
  cases e with
  | accept cs =>
    obtain ⟨-, rfl⟩ := Conns.step_accept h
    cases cs with
    | none => exact hsub
    | some cs => exact Finset.insert_subset_insert cs hsub
  | read fd round inputs =>
    obtain ⟨-, msg, ops, hread, rfl⟩ := Conns.step_read h
    rcases readgossip_ops fd hread with ⟨rfl, -⟩ | ⟨rfl | rfl, -⟩
    · exact Finset.erase_subset_erase fd hsub
    · exact hsub
    · exact (Finset.erase_subset fd s.selread).trans hsub

theorem Conns.step_proper_iff (hsub : s.selread ⊆ s.opened) (h : s.step e = some s') :
    s.Proper e s' ↔ e.Kept := by
  cases e with
  | accept cs =>
    obtain ⟨-, rfl⟩ := Conns.step_accept h
    refine iff_of_true ?_ trivial
    cases cs with
    | none => exact rfl
    | some cs => exact Conns.pending_accept s cs
  | read fd round inputs =>
    obtain ⟨hfd, msg, ops, hread, rfl⟩ := Conns.step_read h
    rcases readgossip_ops fd hread with ⟨rfl, hkept⟩ | ⟨rfl | rfl, hlost⟩
    · refine iff_of_true ⟨?_, hsub hfd, ?_, rfl, Conns.pending_released s fd⟩ hkept
      · exact Finset.notMem_erase fd s.selread
      · exact Finset.notMem_erase fd s.opened
    · exact iff_of_false (fun hp => hp.1 hfd) hlost
    · exact iff_of_false (fun hp => hp.2.2.1 (hsub hfd)) hlost

/-- The open descriptors are the ones that are still to be read, and the counters say how many. -/
def Conns.Counted (s : Conns) : Prop :=
  s.opened = s.selread ∧ s.pending = sizeInt s.selread.card

theorem Conns.step_counted (hs : s.Counted) (h : s.step e = some s') (hkept : e.Kept) :
    s'.Counted := by
  obtain ⟨hopened, hcount⟩ := hs
  cases e with
  | accept cs =>
    obtain ⟨hfresh, rfl⟩ := Conns.step_accept h
    cases cs with
    | none => exact ⟨hopened, hcount⟩
    | some cs =>
      have hcs : cs ∉ s.selread := hopened ▸ hfresh cs rfl
      refine ⟨congrArg (insert cs) hopened, ?_⟩
      rw [Conns.pending_accept, hcount]
      change _ = sizeInt (insert cs s.selread).card
      rw [Finset.card_insert_of_notMem hcs]
      exact (BitVec.ofNat_add _ _).symm
  | read fd round inputs =>
    obtain ⟨hfd, msg, ops, hread, rfl⟩ := Conns.step_read h
    rcases readgossip_ops fd hread with ⟨rfl, -⟩ | ⟨-, hlost⟩
    · refine ⟨congrArg (Finset.erase · fd) hopened, ?_⟩
      rw [Conns.pending_released, hcount]
      change _ = sizeInt (s.selread.erase fd).card
      have hcard : s.selread.card = (s.selread.erase fd).card + 1 :=
        (Finset.card_erase_add_one hfd).symm
      have hadd : sizeInt s.selread.card = sizeInt (s.selread.erase fd).card + 1 := by
        rw [hcard]
        exact BitVec.ofNat_add _ _
      rw [hadd]
      grind
    · exact absurd hkept hlost

theorem Conns.run_cons :
    s.run (e :: events) = some s' ↔ ∃ t, s.step e = some t ∧ t.run events = some s' := by
  rw [Conns.run, List.foldlM_cons, Option.bind_eq_bind, Option.bind_eq_some_iff]
  rfl

theorem Conns.run_append {pre post : List ConnEvent} :
    s.run (pre ++ post) = some s' ↔ ∃ t, s.run pre = some t ∧ t.run post = some s' := by
  rw [Conns.run, List.foldlM_append, Option.bind_eq_bind, Option.bind_eq_some_iff]
  rfl

theorem Conns.run_keeps {p : Conns → Prop} {c : ConnEvent → Prop}
    (hstep : ∀ {s e s'}, p s → c e → s.step e = some s' → p s') (hs : p s)
    (hc : ∀ e ∈ events, c e) (h : s.run events = some s') : p s' := by
  induction events generalizing s with
  | nil =>
    cases h
    exact hs
  | cons e events ih =>
    obtain ⟨t, ht, hrun⟩ := Conns.run_cons.1 h
    exact ih (hstep hs (hc e List.mem_cons_self) ht)
      (fun e he => hc e (List.mem_cons_of_mem _ he)) hrun

theorem Conns.run_subset (h : Conns.start.run events = some s) : s.selread ⊆ s.opened :=
  Conns.run_keeps (c := fun _ => True) (fun hs _ hstep => Conns.step_subset hs hstep)
    (Finset.Subset.refl _) (fun _ _ => trivial) h

/-- All steps of a run are proper exactly if no connection ends early and no message is discarded,
and then the counters tell how many connections are still to be read. -/
theorem descriptors_released (events : List ConnEvent) (s : Conns)
    (hrun : Conns.start.run events = some s) :
    (Conns.start.RunProper events ↔ ∀ e ∈ events, e.Kept) ∧
      ((∀ e ∈ events, e.Kept) → s.opened = s.selread ∧
        s.openfd - s.closefd = sizeInt s.selread.card) := by
  refine ⟨⟨?_, ?_⟩, ?_⟩
  · intro hproper e he
    obtain ⟨pre, post, rfl⟩ := List.append_of_mem he
    obtain ⟨s₀, hpre, hrest⟩ := Conns.run_append.1 hrun
    obtain ⟨s₁, hstep, -⟩ := Conns.run_cons.1 hrest
    exact (Conns.step_proper_iff (Conns.run_subset hpre) hstep).1
      (hproper pre e post s₀ s₁ rfl hpre hstep)
  · intro hkept pre e post s₀ s₁ hevents hpre hstep
    have he : e ∈ events := by
      rw [hevents]
      exact List.mem_append_right pre List.mem_cons_self
    exact (Conns.step_proper_iff (Conns.run_subset hpre) hstep).2 (hkept e he)
  · intro hkept
    exact Conns.run_keeps (p := Conns.Counted) (c := ConnEvent.Kept)
      (fun hs hc hstep => Conns.step_counted hs hstep hc) ⟨rfl, rfl⟩ hkept hrun

def initConn (initphase : Bool) : List ConnEvent :=
  [.accept (some 5), .read 5 ⟨initphase, true, 0⟩ [.bytes emptyInit]]

theorem descriptors_released_init : Conns.start.RunProper (initConn true) ∧
    Conns.start.run (initConn true) = some ⟨1, 1, true, ∅, ∅, [5]⟩ := by
  have hrun : Conns.start.run (initConn true) = some ⟨1, 1, true, ∅, ∅, [5]⟩ := by rfl
  have htype : readStr getKeyValueType emptyInit = some InsertType.INITGOSSIP.code := by rfl
  refine ⟨(descriptors_released (initConn true) _ hrun).1.2 ?_, hrun⟩
  intro e he
  rcases List.mem_pair.1 he with rfl | rfl
  · trivial
  · refine .inr ⟨?_, ?_⟩
    · intro hnil
      cases List.mem_singleton.1 hnil
    · rintro ⟨t, ht, hdisc⟩
      cases htype.symm.trans ht
      rcases hdisc with ⟨hexec, -⟩ | ⟨-, hphase⟩
      · exact absurd hexec (by decide)
      · cases hphase

/-- After the init phase the message is discarded, and the callback, which is still there, then
finds the end of the file: the descriptor is never closed. -/
theorem descriptor_lost : ¬ ∀ events s, Conns.start.run events = some s →
    Conns.start.RunProper events ∧ s.openfd - s.closefd = sizeInt s.selread.card := by
  intro h
  have hrun : Conns.start.run (initConn false ++ [.read 5 ⟨false, true, 0⟩ [.bytes []]]) =
      some ⟨1, 0, true, ∅, {5}, []⟩ := by rfl
  have hcount := (h _ _ hrun).2
  exact absurd hcount (by decide)

end Run

end XGossip
