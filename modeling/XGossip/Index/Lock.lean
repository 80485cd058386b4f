import Mathlib.Data.Multiset.AddSub
import Mathlib.Logic.Relation
import XGossip.Index.Tree

namespace XGossip
set_option autoImplicit true

section Model

/-- A call of `insertDHT`: not yet made, waiting for an answer after some errors, or returned. -/
inductive LockCall where
  | idle
  | waiting (numTries : Nat)
  | returned (stat : DHTStatus)
deriving DecidableEq

structure LockSetup (ι : Type) where
  ix : Index
  nodeType : ι → NodeType
  int : ι → Interval
  STOPCOUNT : ι → Nat

def LockSetup.value (P : LockSetup ι) (c : ι) : Msg := .updateHdrLock (P.nodeType c) (P.int c)

/-- The node, the calls of the clients, and the messages and answers in flight, with the attempt that
they belong to. -/
structure LockState (ι : Type) where
  node : Option Node
  calls : ι → LockCall
  requests : Multiset (ι × Nat)
  replies : Multiset (ι × Nat × DhashStat)

inductive LockEvent (ι : Type) where
  | call (c : ι)
  | serve (c : ι) (k : Nat)
  | reply (c : ι) (k : Nat) (stat : DhashStat)
  | loseRequest (c : ι) (k : Nat)
  | loseReply (c : ι) (k : Nat) (stat : DhashStat)
  | error (c : ι)

variable {ι : Type} [DecidableEq ι]

def LockSetup.init (_ : LockSetup ι) : LockState ι := ⟨none, fun _ => .idle, 0, 0⟩

/-- A message of the client `c` is sent for the attempt `k`. -/
def LockState.send (s : LockState ι) (c : ι) (k : Nat) : LockState ι :=
  { s with calls := Function.update s.calls c (.waiting k), requests := (c, k) ::ₘ s.requests }

def LockState.finish (s : LockState ι) (c : ι) (stat : DHTStatus) : LockState ι :=
  { s with calls := Function.update s.calls c (.returned stat) }

theorem LockState.send_calls_self (s : LockState ι) (c : ι) (k : Nat) :
    (s.send c k).calls c = .waiting k := Function.update_self ..

theorem LockState.send_calls_of_ne {s : LockState ι} (h : c' ≠ c) :
    (s.send c k).calls c' = s.calls c' := Function.update_of_ne h ..

theorem LockState.finish_calls_self (s : LockState ι) (c : ι) (stat : DHTStatus) :
    (s.finish c stat).calls c = .returned stat := Function.update_self ..

theorem LockState.finish_calls_of_ne {s : LockState ι} (h : c' ≠ c) :
    (s.finish c stat).calls c' = s.calls c' := Function.update_of_ne h ..

/-- The steps of the loop of `insertDHT` and of the server. An answer to an attempt that the client
has given up comes too late. -/
def LockSetup.step (P : LockSetup ι) (s : LockState ι) : LockEvent ι → Option (LockState ι)
  | .call c => if s.calls c = .idle then some (s.send c 0) else none
  | .serve c k =>
    if (c, k) ∈ s.requests then
      let (node, stat) := serve P.ix s.node (P.value c)
      some { s with node, requests := s.requests.erase (c, k), replies := (c, k, stat) ::ₘ s.replies }
    else none
  | .reply c k stat =>
    if (c, k, stat) ∈ s.replies then
      let s' := { s with replies := s.replies.erase (c, k, stat) }
      some (if s.calls c = .waiting k then s'.finish c (store_cb stat) else s')
    else none
  | .loseRequest c k =>
    if (c, k) ∈ s.requests then some { s with requests := s.requests.erase (c, k) } else none
  | .loseReply c k stat =>
    if (c, k, stat) ∈ s.replies then some { s with replies := s.replies.erase (c, k, stat) }
    else none
  | .error c =>
    match s.calls c with
    | .waiting numTries =>
      if numTries + 1 = P.STOPCOUNT c then some (s.finish c .FAIL)
      else some (s.send c (numTries + 1))
    | _ => none

/-- The client has been told that it has the authority to finish the split. -/
def LockState.First (s : LockState ι) (c : ι) : Prop :=
  ∃ stat, s.calls c = .returned stat ∧ stat ≠ .NOTFIRST ∧ stat ≠ .FAIL

/-- The answer to the message that creates the header reaches its client: it is not lost, the client
does not give the attempt up, and has not done so before. -/
def LockState.Answered (s : LockState ι) : LockEvent ι → Prop
  | .serve c k => s.node = none → s.calls c = .waiting k
  | .loseReply _ _ stat => stat ≠ .DHASH_OK
  | .error c => ∀ k, s.calls c = .waiting k → (c, k, .DHASH_OK) ∉ s.replies
  | _ => True

def LockSetup.Reachable (P : LockSetup ι) (allowed : LockState ι → LockEvent ι → Prop) :
    LockState ι → Prop :=
  Relation.ReflTransGen (fun s s' => ∃ e, allowed s e ∧ P.step s e = some s') P.init

end Model

section Moves

variable {ι : Type} [DecidableEq ι]

inductive LockSetup.Moves (P : LockSetup ι) : LockState ι → LockEvent ι → LockState ι → Prop where
  | call : s.calls c = .idle → Moves P s (.call c) (s.send c 0)
  | create : Moves P ⟨none, calls, (c, k) ::ₘ requests, replies⟩ (.serve c k)
      ⟨some n, calls, requests, (c, k, .DHASH_OK) ::ₘ replies⟩
  | refuse : Moves P ⟨some n, calls, (c, k) ::ₘ requests, replies⟩ (.serve c k)
      ⟨some n, calls, requests, (c, k, .DHASH_NOTFIRST) ::ₘ replies⟩
  | heard : calls c = .waiting k → Moves P ⟨node, calls, requests, (c, k, stat) ::ₘ replies⟩
      (.reply c k stat) (LockState.finish ⟨node, calls, requests, replies⟩ c (store_cb stat))
  | late : calls c ≠ .waiting k → Moves P ⟨node, calls, requests, (c, k, stat) ::ₘ replies⟩
      (.reply c k stat) ⟨node, calls, requests, replies⟩
  | loseRequest : Moves P ⟨node, calls, (c, k) ::ₘ requests, replies⟩ (.loseRequest c k)
      ⟨node, calls, requests, replies⟩
  | loseReply : Moves P ⟨node, calls, requests, (c, k, stat) ::ₘ replies⟩ (.loseReply c k stat)
      ⟨node, calls, requests, replies⟩
  | fail : s.calls c = .waiting k → Moves P s (.error c) (s.finish c .FAIL)
  | retry : s.calls c = .waiting k → Moves P s (.error c) (s.send c (k + 1))

theorem LockSetup.step_moves {P : LockSetup ι} {s s' : LockState ι} (h : P.step s e = some s') :
    P.Moves s e s' := by
  obtain ⟨node, calls, requests, replies⟩ := s
  cases e with
  | call c =>
    simp only [step] at h
    split at h
    · next hc =>
      obtain rfl := Option.some.inj h
      exact .call hc
    · cases h
  | serve c k =>
    simp only [step] at h
    split at h
    · next hmem =>
      obtain ⟨rest, rfl⟩ := Multiset.exists_cons_of_mem hmem
      obtain rfl := Option.some.inj h
      rw [Multiset.erase_cons_head]
      cases node with
      | none => exact .create
      | some n => exact .refuse
    · cases h
  | reply c k stat =>
    simp only [step] at h
    split at h
    · next hmem =>
      obtain ⟨rest, rfl⟩ := Multiset.exists_cons_of_mem hmem
      obtain rfl := Option.some.inj h
      rw [Multiset.erase_cons_head]
      split
      · next hc => exact .heard hc
      · next hc => exact .late hc
    · cases h
  | loseRequest c k =>
    simp only [step] at h
    split at h
    · next hmem =>
      obtain ⟨rest, rfl⟩ := Multiset.exists_cons_of_mem hmem
      obtain rfl := Option.some.inj h
      rw [Multiset.erase_cons_head]
      exact .loseRequest
    · cases h
  | loseReply c k stat =>
    simp only [step] at h
    split at h
    · next hmem =>
      obtain ⟨rest, rfl⟩ := Multiset.exists_cons_of_mem hmem
      obtain rfl := Option.some.inj h
      rw [Multiset.erase_cons_head]
      exact .loseReply
    · cases h
  | error c =>
    simp only [step] at h
    split at h
    · next numTries hc =>
      split at h
      · obtain rfl := Option.some.inj h
        exact .fail hc
      · obtain rfl := Option.some.inj h
        exact .retry hc
    · cases h

end Moves

section AtMostOne

variable {ι : Type} {s s' : LockState ι}

/-- Only `w` is told, or on the way to be told, that it is first. -/
structure LockState.Holder (s : LockState ι) (w : Option ι) : Prop where
  node : s.node = none → w = none
  replies : ∀ c k stat, (c, k, stat) ∈ s.replies →
    stat = .DHASH_OK ∧ w = some c ∨ stat = .DHASH_NOTFIRST
  calls : ∀ c stat, s.calls c = .returned stat →
    stat = .SUCC ∧ w = some c ∨ stat = .NOTFIRST ∨ stat = .FAIL

theorem LockState.Holder.of_first (h : s.Holder w) (hc : s.First c) : w = some c := by
  obtain ⟨stat, hcalls, hne, hne'⟩ := hc
  rcases h.calls c stat hcalls with ⟨-, hw⟩ | rfl | rfl
  · exact hw
  · exact (hne rfl).elim
  · exact (hne' rfl).elim

variable [DecidableEq ι] {P : LockSetup ι}

theorem LockState.Holder.send (h : s.Holder w) (c : ι) (k : Nat) : (s.send c k).Holder w := by
  refine ⟨h.node, h.replies, fun c' stat hc' => ?_⟩
  by_cases hcc : c' = c
  · subst hcc
    rw [send_calls_self] at hc'
    cases hc'
  · rw [send_calls_of_ne hcc] at hc'
    exact h.calls c' stat hc'

theorem LockState.Holder.finish (h : s.Holder w)
    (hstat : stat = .SUCC ∧ w = some c ∨ stat = .NOTFIRST ∨ stat = .FAIL) :
    (s.finish c stat).Holder w := by
  refine ⟨h.node, h.replies, fun c' stat' hc' => ?_⟩
  by_cases hcc : c' = c
  · subst hcc
    rw [finish_calls_self] at hc'
    obtain rfl := LockCall.returned.inj hc'
    exact hstat
  · rw [finish_calls_of_ne hcc] at hc'
    exact h.calls c' stat' hc'

/-- A header is created once. -/
theorem LockSetup.Moves.holder (hm : P.Moves s e s') (h : s.Holder w) : ∃ w, s'.Holder w := by
  cases hm with
  | call => exact ⟨w, h.send ..⟩
  | @create calls c k requests replies n =>
    obtain rfl := h.node rfl
    refine ⟨some c, by simp, fun c' k' stat hmem => ?_, fun c' stat hc' => ?_⟩
    · rcases Multiset.mem_cons.1 hmem with heq | hmem
      · cases heq
        exact .inl ⟨rfl, rfl⟩
      · exact .inr ((h.replies c' k' stat hmem).resolve_left (by simp))
    · exact .inr ((h.calls c' stat hc').resolve_left (by simp))
  | refuse =>
    refine ⟨w, by simp, fun c' k' stat hmem => ?_, h.calls⟩
    rcases Multiset.mem_cons.1 hmem with heq | hmem
    · cases heq
      exact .inr rfl
    · exact h.replies c' k' stat hmem
  | @heard calls node requests c k stat replies hc =>
    have hrest : LockState.Holder ⟨node, calls, requests, replies⟩ w :=
      ⟨h.node, fun c' k' stat' hmem => h.replies c' k' stat' (Multiset.mem_cons_of_mem hmem),
        h.calls⟩
    refine ⟨w, hrest.finish ?_⟩
    rcases h.replies c k stat (Multiset.mem_cons_self ..) with ⟨rfl, hw⟩ | rfl
    · exact .inl ⟨rfl, hw⟩
    · exact .inr (.inl rfl)
  | late =>
    exact ⟨w, h.node, fun c' k' stat' hmem => h.replies c' k' stat' (Multiset.mem_cons_of_mem hmem),
      h.calls⟩
  | loseRequest => exact ⟨w, h.node, h.replies, h.calls⟩
  | loseReply =>
    exact ⟨w, h.node, fun c' k' stat' hmem => h.replies c' k' stat' (Multiset.mem_cons_of_mem hmem),
      h.calls⟩
  | fail => exact ⟨w, h.finish (.inr (.inr rfl))⟩
  | retry => exact ⟨w, h.send ..⟩

theorem LockSetup.Reachable.holder (h : P.Reachable allowed s) : ∃ w, s.Holder w := by
  induction h with
  | refl => exact ⟨none, fun _ => rfl, by simp [init], by simp [init]⟩
  | tail _ hstep ih =>
    obtain ⟨e, -, hs⟩ := hstep
    obtain ⟨w, hw⟩ := ih
    exact (step_moves hs).holder hw

end AtMostOne

section Granted

variable {ι : Type} {s s' : LockState ι}

def LockState.flight (s : LockState ι) : Multiset (ι × Nat) :=
  s.requests + s.replies.map fun r => (r.1, r.2.1)

/-- There is one message or answer for an attempt, and no attempt is ahead of its client. -/
structure LockState.Ordered (s : LockState ι) : Prop where
  nodup : s.flight.Nodup
  current : ∀ c k, (c, k) ∈ s.flight → s.calls c ≠ .idle ∧ ∀ m, s.calls c = .waiting m → k ≤ m

theorem LockState.flight_request (s : LockState ι) (c : ι) (k : Nat) :
    { s with requests := (c, k) ::ₘ s.requests }.flight = (c, k) ::ₘ s.flight := by
  simp [flight]

theorem LockState.flight_reply (s : LockState ι) (c : ι) (k : Nat) (stat : DhashStat) :
    { s with replies := (c, k, stat) ::ₘ s.replies }.flight = (c, k) ::ₘ s.flight := by
  simp [flight]

theorem LockState.Ordered.of_le (h : s.Ordered) (hle : s'.flight ≤ s.flight)
    (hcalls : s'.calls = s.calls) : s'.Ordered := by
  refine ⟨Multiset.nodup_of_le hle h.nodup, fun c k hmem => ?_⟩
  rw [hcalls]
  exact h.current c k (Multiset.mem_of_le hle hmem)

/-- The client that has created the header is told so, or its answer is on its way. -/
def LockState.Granted (s : LockState ι) : Prop :=
  s.node ≠ none → (∃ c, s.calls c = .returned .SUCC) ∨
    ∃ c k, (c, k, .DHASH_OK) ∈ s.replies ∧ s.calls c = .waiting k

theorem LockState.Granted.keep (h : s.Granted) (hnode : s'.node ≠ none → s.node ≠ none)
    (hsucc : ∀ c, s.calls c = .returned .SUCC → s'.calls c = .returned .SUCC)
    (hwait : ∀ c k, (c, k, .DHASH_OK) ∈ s.replies → s.calls c = .waiting k →
      s'.calls c = .returned .SUCC ∨ (c, k, .DHASH_OK) ∈ s'.replies ∧ s'.calls c = .waiting k) :
    s'.Granted := by
  intro hn
  rcases h (hnode hn) with ⟨c, hc⟩ | ⟨c, k, hmem, hc⟩
  · exact .inl ⟨c, hsucc c hc⟩
  · rcases hwait c k hmem hc with hc' | hc'
    · exact .inl ⟨c, hc'⟩
    · exact .inr ⟨c, k, hc'⟩

variable [DecidableEq ι] {P : LockSetup ι}

theorem LockState.Ordered.send (h : s.Ordered) (hnew : ∀ k', (c, k') ∈ s.flight → k' < k) :
    (s.send c k).Ordered := by
  have hflight : (s.send c k).flight = (c, k) ::ₘ s.flight := by
    simp [flight, LockState.send]
  refine ⟨?_, fun c' k' hmem => ?_⟩
  · rw [hflight, Multiset.nodup_cons]
    exact ⟨fun hmem => lt_irrefl _ (hnew k hmem), h.nodup⟩
  · rw [hflight, Multiset.mem_cons] at hmem
    by_cases hcc : c' = c
    · subst hcc
      rw [send_calls_self]
      refine ⟨by simp, fun m hm => ?_⟩
      obtain rfl := LockCall.waiting.inj hm
      rcases hmem with heq | hmem
      · exact le_of_eq (congrArg Prod.snd heq)
      · exact le_of_lt (hnew k' hmem)
    · rw [send_calls_of_ne hcc]
      exact h.current c' k' (hmem.resolve_left fun heq => hcc (congrArg Prod.fst heq))

theorem LockState.Ordered.finish (h : s.Ordered) (c : ι) (stat : DHTStatus) :
    (s.finish c stat).Ordered := by
  refine ⟨h.nodup, fun c' k' hmem => ?_⟩
  by_cases hcc : c' = c
  · subst hcc
    rw [finish_calls_self]
    exact ⟨by simp, by simp⟩
  · rw [finish_calls_of_ne hcc]
    exact h.current c' k' hmem

theorem LockSetup.Moves.ordered (hm : P.Moves s e s') (h : s.Ordered) : s'.Ordered := by
  cases hm with
  | call hc => exact h.send fun k hmem => ((h.current _ k hmem).1 hc).elim
  | create => exact h.of_le (le_of_eq (by simp [LockState.flight])) rfl
  | refuse => exact h.of_le (le_of_eq (by simp [LockState.flight])) rfl
  | @heard calls node requests c k stat replies hc =>
    have hrest : LockState.Ordered ⟨node, calls, requests, replies⟩ :=
      h.of_le (LockState.flight_reply ⟨node, calls, requests, replies⟩ c k stat ▸
        Multiset.le_cons_self ..) rfl
    exact hrest.finish ..
  | @late calls node requests c k stat replies =>
    exact h.of_le (LockState.flight_reply ⟨node, calls, requests, replies⟩ c k stat ▸
      Multiset.le_cons_self ..) rfl
  | @loseRequest node calls c k requests replies =>
    exact h.of_le (LockState.flight_request ⟨node, calls, requests, replies⟩ c k ▸
      Multiset.le_cons_self ..) rfl
  | @loseReply node calls requests c k stat replies =>
    exact h.of_le (LockState.flight_reply ⟨node, calls, requests, replies⟩ c k stat ▸
      Multiset.le_cons_self ..) rfl
  | fail => exact h.finish ..
  | retry hc =>
    refine h.send fun k hmem => ?_
    have := (h.current _ k hmem).2 _ hc
    omega

theorem LockSetup.Moves.granted (hm : P.Moves s e s') (ha : s.Answered e) (ho : s.Ordered)
    (h : s.Granted) : s'.Granted := by
  cases hm with
  | @call s c hc =>
    refine h.keep id (fun c' hc' => ?_) fun c' k hmem hc' => .inr ⟨hmem, ?_⟩
    · rwa [LockState.send_calls_of_ne]
      rintro rfl
      simp [hc] at hc'
    · rwa [LockState.send_calls_of_ne]
      rintro rfl
      simp [hc] at hc'
  | @create calls c k requests replies n =>
    exact fun _ => .inr ⟨c, k, Multiset.mem_cons_self .., ha rfl⟩
  | refuse =>
    exact h.keep id (fun _ hc => hc) fun c k hmem hc => .inr ⟨Multiset.mem_cons_of_mem hmem, hc⟩
  | @heard calls node requests c k stat replies hc =>
    refine h.keep id (fun c' hc' => ?_) fun c' k' hmem hc' => ?_
    · rwa [LockState.finish_calls_of_ne]
      rintro rfl
      simp [hc] at hc'
    · by_cases hcc : c' = c
      · subst hcc
        obtain rfl : k = k' := LockCall.waiting.inj (hc.symm.trans hc')
        have hstat : stat = .DHASH_OK := by
          rcases Multiset.mem_cons.1 hmem with heq | hmem
          · exact (congrArg (fun r => r.2.2) heq).symm
          · have hnodup := ho.nodup
            rw [LockState.flight_reply ⟨node, calls, requests, replies⟩, Multiset.nodup_cons]
              at hnodup
            have hin : (c', k) ∈ LockState.flight ⟨node, calls, requests, replies⟩ :=
              Multiset.mem_add.2 (.inr (Multiset.mem_map.2 ⟨_, hmem, rfl⟩))
            exact (hnodup.1 hin).elim
        subst hstat
        exact .inl (LockState.finish_calls_self ..)
      · refine .inr ⟨?_, by rwa [LockState.finish_calls_of_ne hcc]⟩
        exact (Multiset.mem_cons.1 hmem).resolve_left fun heq => hcc (congrArg Prod.fst heq)
  | @late calls node requests c k stat replies hc =>
    refine h.keep id (fun _ hc => hc) fun c' k' hmem hc' => .inr ⟨?_, hc'⟩
    refine (Multiset.mem_cons.1 hmem).resolve_left fun heq => ?_
    cases heq
    exact hc hc'
  | loseRequest => exact h.keep id (fun _ hc => hc) fun c k hmem hc => .inr ⟨hmem, hc⟩
  | loseReply =>
    refine h.keep id (fun _ hc => hc) fun c' k' hmem hc' => .inr ⟨?_, hc'⟩
    refine (Multiset.mem_cons.1 hmem).resolve_left fun heq => ?_
    cases heq
    exact ha rfl
  | @fail s c k hc =>
    refine h.keep id (fun c' hc' => ?_) fun c' k' hmem hc' => .inr ⟨hmem, ?_⟩
    · rwa [LockState.finish_calls_of_ne]
      rintro rfl
      simp [hc] at hc'
    · rwa [LockState.finish_calls_of_ne]
      rintro rfl
      exact ha k' hc' hmem
  | @retry s c k hc =>
    refine h.keep id (fun c' hc' => ?_) fun c' k' hmem hc' => .inr ⟨hmem, ?_⟩
    · rwa [LockState.send_calls_of_ne]
      rintro rfl
      simp [hc] at hc'
    · rwa [LockState.send_calls_of_ne]
      rintro rfl
      exact ha k' hc' hmem

theorem LockSetup.Reachable.granted (h : P.Reachable LockState.Answered s) :
    s.Ordered ∧ s.Granted := by
  induction h with
  | refl => exact ⟨⟨by simp [init, LockState.flight], by simp [init, LockState.flight]⟩,
      fun hn => (hn rfl).elim⟩
  | tail _ hstep ih =>
    obtain ⟨e, ha, hs⟩ := hstep
    have hm := step_moves hs
    exact ⟨hm.ordered ih.1, hm.granted ha ih.1 ih.2⟩

/-- At most one client is told that it is first, in every run. Where the answer to the message that
creates the header reaches its client, some client is told so. -/
theorem lock_authority (P : LockSetup ι) :
    (∀ s, P.Reachable (fun _ _ => True) s → ∀ c c', s.First c → s.First c' → c = c') ∧
      ∀ s, P.Reachable LockState.Answered s → s.node ≠ none → s.requests = 0 → s.replies = 0 →
        (∀ c, s.calls c ≠ .returned .FAIL) → ∃ c, s.First c := by
  constructor
  · intro s h c c' hc hc'
    obtain ⟨w, hw⟩ := h.holder
    exact Option.some.inj ((hw.of_first hc).symm.trans (hw.of_first hc'))
  · intro s h hnode _ hreplies _
    rcases h.granted.2 hnode with ⟨c, hc⟩ | ⟨c, k, hmem, -⟩
    · exact ⟨c, .SUCC, hc, by simp, by simp⟩
    · simp [hreplies] at hmem

end Granted

section Runs

/-- The default of `insertDHT` -/
def MAXRETRIES : Nat := 5

def twoClients : LockSetup Bool :=
  ⟨smallIndex, fun _ => .LEAF, fun c => ⟨2, 3, 1, 1, 0, if c then 7 else 8⟩, fun _ => MAXRETRIES⟩

/-- The message of the one client is lost and sent again, and both are answered. -/
theorem twoClients_first : ∃ s, twoClients.Reachable LockState.Answered s ∧ s.First true ∧
    s.calls false = .returned .NOTFIRST := by
  let s₁ := (twoClients.init.send true 0).send false 0
  let s₂ : LockState Bool := { s₁ with requests := {(false, 0)} }
  let s₃ := s₂.send true 1
  let s₄ : LockState Bool := { s₃ with
    node := some ⟨.LEAF, twoClients.int true, []⟩
    requests := {(false, 0)}
    replies := {(true, 1, .DHASH_OK)} }
  let s₅ : LockState Bool := { s₄ with
    requests := 0
    replies := {(false, 0, .DHASH_NOTFIRST), (true, 1, .DHASH_OK)} }
  let s₆ := LockState.finish { s₅ with replies := {(true, 1, .DHASH_OK)} } false .NOTFIRST
  let s₇ := LockState.finish { s₆ with replies := 0 } true .SUCC
  have h₁ : twoClients.Reachable LockState.Answered s₁ :=
    .tail (.tail .refl ⟨.call true, trivial, rfl⟩) ⟨.call false, trivial, rfl⟩
  have h₂ : twoClients.Reachable LockState.Answered s₂ :=
    h₁.tail ⟨.loseRequest true 0, trivial, rfl⟩
  have h₃ : twoClients.Reachable LockState.Answered s₃ :=
    h₂.tail ⟨.error true, fun k _ => Multiset.notMem_zero _, rfl⟩
  have h₄ : twoClients.Reachable LockState.Answered s₄ :=
    h₃.tail ⟨.serve true 1, fun _ => rfl, rfl⟩
  have h₅ : twoClients.Reachable LockState.Answered s₅ :=
    h₄.tail ⟨.serve false 0, nofun, rfl⟩
  have h₆ : twoClients.Reachable LockState.Answered s₆ :=
    h₅.tail ⟨.reply false 0 .DHASH_NOTFIRST, trivial, rfl⟩
  have h₇ : twoClients.Reachable LockState.Answered s₇ :=
    h₆.tail ⟨.reply true 1 .DHASH_OK, trivial, rfl⟩
  have hcalls : s₇.calls false = .returned .NOTFIRST := rfl
  have hfail : ∀ c, s₇.calls c ≠ .returned .FAIL := by decide
  obtain ⟨c, hc⟩ := (lock_authority twoClients).2 s₇ h₇ nofun rfl rfl hfail
  cases c with
  | true => exact ⟨s₇, h₇, hc, hcalls⟩
  | false =>
    obtain ⟨stat, hstat, hne, -⟩ := hc
    exact (hne (LockCall.returned.inj (hstat.symm.trans hcalls))).elim

def oneClient : LockSetup Unit :=
  ⟨smallIndex, fun _ => .LEAF, fun _ => ⟨2, 3, 1, 1, 0, 7⟩, fun _ => MAXRETRIES⟩

def LockSetup.run [DecidableEq ι] (P : LockSetup ι) (events : List (LockEvent ι)) :
    Option (LockState ι) := events.foldlM P.step P.init

theorem LockSetup.reachable_of_run [DecidableEq ι] {P : LockSetup ι} (h : P.run events = some s) :
    P.Reachable (fun _ _ => True) s := by
  induction events using List.reverseRecOn generalizing s with
  | nil =>
    obtain rfl := Option.some.inj h
    exact .refl
  | append_singleton events e ih =>
    simp only [run, List.foldlM_append] at h
    obtain ⟨s₁, h₁, h⟩ := Option.bind_eq_some_iff.1 h
    exact (ih h₁).tail ⟨e, trivial, by simpa using h⟩

/-- The answer to the message that has created the header is lost, and the message that is sent again
is answered like that of any other client. -/
def lostAnswer : List (LockEvent Unit) :=
  [.call (), .serve () 0, .loseReply () 0 .DHASH_OK, .error (), .serve () 1,
    .reply () 1 .DHASH_NOTFIRST]

theorem lostAnswer_nobody_first : ∃ s, oneClient.Reachable (fun _ _ => True) s ∧ s.node ≠ none ∧
    s.requests = 0 ∧ s.replies = 0 ∧ (∀ c, s.calls c ≠ .returned .FAIL) ∧ ¬ ∃ c, s.First c := by
  have hrun : (oneClient.run lostAnswer).map (fun s => (s.node.isSome, s.calls (),
      Multiset.card s.requests, Multiset.card s.replies)) =
        some (true, .returned .NOTFIRST, 0, 0) := by decide
  obtain ⟨s, hs, heq⟩ := Option.map_eq_some_iff.1 hrun
  simp only [Prod.mk.injEq, Multiset.card_eq_zero] at heq
  obtain ⟨hnode, hcalls, hreq, hrep⟩ := heq
  refine ⟨s, LockSetup.reachable_of_run hs, ?_, hreq, hrep, ?_, ?_⟩
  · exact Option.isSome_iff_ne_none.1 hnode
  · intro c
    simp [hcalls]
  · rintro ⟨c, stat, hc, hne, -⟩
    rw [hcalls] at hc
    exact hne (LockCall.returned.inj hc).symm

end Runs

end XGossip
