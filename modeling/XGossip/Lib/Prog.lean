import Mathlib.Logic.Function.Basic
import Mathlib.Logic.Relation

set_option autoImplicit true

/-- A client of a store of cells: it reads cells, sends messages to them, whose answers it waits
for, and draws numbers. -/
inductive Prog (K N M A R α : Type) where
  | ret (a : α)
  | stop
  | read (key : K) (next : Option N → Prog K N M A R α)
  | send (key : K) (msg : M) (next : A → Prog K N M A R α)
  | draw (next : R → Prog K N M A R α)

namespace Prog

variable {K N M A R α β : Type}

def bind : Prog K N M A R α → (α → Prog K N M A R β) → Prog K N M A R β
  | ret a, f => f a
  | stop, _ => stop
  | read key next, f => read key fun n => (next n).bind f
  | send key msg next, f => send key msg fun a => (next a).bind f
  | draw next, f => draw fun r => (next r).bind f

instance : Monad (Prog K N M A R) where
  pure := ret
  bind := bind

@[simp] theorem pure_eq (a : α) : (pure a : Prog K N M A R α) = ret a := rfl

@[simp] theorem ret_bind (a : α) (f : α → Prog K N M A R β) : ret a >>= f = f a := rfl

@[simp] theorem stop_bind (f : α → Prog K N M A R β) : stop >>= f = stop := rfl

@[simp] theorem read_bind (next : Option N → Prog K N M A R α) (f : α → Prog K N M A R β) :
    read key next >>= f = read key fun n => next n >>= f := rfl

@[simp] theorem send_bind (next : A → Prog K N M A R α) (f : α → Prog K N M A R β) :
    send key msg next >>= f = send key msg fun a => next a >>= f := rfl

@[simp] theorem draw_bind (next : R → Prog K N M A R α) (f : α → Prog K N M A R β) :
    draw next >>= f = draw fun r => next r >>= f := rfl

theorem bind_ret (p : Prog K N M A R α) : p >>= ret = p := by
  induction p with
  | ret => rfl
  | stop => rfl
  | read key next ih => exact congrArg (read key) (funext ih)
  | send key msg next ih => exact congrArg (send key msg) (funext ih)
  | draw next ih => exact congrArg draw (funext ih)

theorem bind_assoc (p : Prog K N M A R α) (f : α → Prog K N M A R β)
    (g : β → Prog K N M A R γ) : p >>= f >>= g = p >>= fun a => f a >>= g := by
  induction p with
  | ret => rfl
  | stop => rfl
  | read key next ih => exact congrArg (read key) (funext ih)
  | send key msg next ih => exact congrArg (send key msg) (funext ih)
  | draw next ih => exact congrArg draw (funext ih)

/-- None of the results of the client meets `Q`. -/
def Avoids (Q : α → Prop) : Prog K N M A R α → Prop
  | ret a => ¬ Q a
  | stop => True
  | read _ next => ∀ o, (next o).Avoids Q
  | send _ _ next => ∀ a, (next a).Avoids Q
  | draw next => ∀ r, (next r).Avoids Q

theorem avoids_bind {Q : α → Prop} {Q' : β → Prop} {p : Prog K N M A R α}
    {f : α → Prog K N M A R β} (hp : p.Avoids Q) (hf : ∀ a, ¬ Q a → (f a).Avoids Q') :
    (p >>= f).Avoids Q' := by
  induction p with
  | ret a => exact hf a hp
  | stop => trivial
  | read key next ih => exact fun o => ih o (hp o)
  | send key msg next ih => exact fun a => ih a (hp a)
  | draw next ih => exact fun r => ih r (hp r)

theorem bind_avoids {Q : β → Prop} (p : Prog K N M A R α) {f : α → Prog K N M A R β}
    (hf : ∀ a, (f a).Avoids Q) : (p >>= f).Avoids Q := by
  induction p with
  | ret a => exact hf a
  | stop => trivial
  | read key next ih => exact ih
  | send key msg next ih => exact ih
  | draw next ih => exact ih

section Semantics

variable [DecidableEq K] (serve : Option N → M → Option N × A)

/-- The store after the cell under a key has served a message. -/
def deliver (σ : K → Option N) (key : K) (msg : M) : K → Option N :=
  Function.update σ key (serve (σ key) msg).1

inductive Step : Prog K N M A R α → (K → Option N) → Nat → Prog K N M A R α → (K → Option N) → Prop where
  | read : Step (read key next) σ 0 (next (σ key)) σ
  | send : Step (send key msg next) σ 1 (next (serve (σ key) msg).2) (deliver serve σ key msg)
  | draw (r : R) : Step (draw next) σ 0 (next r) σ

/-- A client that runs alone until it has sent some number of messages. -/
inductive Steps : Prog K N M A R α → (K → Option N) → Nat → Prog K N M A R α → (K → Option N) → Prop where
  | refl : Steps p σ 0 p σ
  | head : Step serve p σ k p₁ σ₁ → Steps p₁ σ₁ n p' σ' → Steps p σ (k + n) p' σ'

def Run (p : Prog K N M A R α) (σ : K → Option N) (a : α) (σ' : K → Option N) : Prop :=
  ∃ n, Steps serve p σ n (ret a) σ'

inductive Event (K N M : Type) where
  | read (key : K) (cell : Option N)
  | send (key : K) (msg : M)
  | draw
deriving DecidableEq

def Event.apply (σ : K → Option N) : Event K N M → K → Option N
  | .send key msg => deliver serve σ key msg
  | _ => σ

inductive Does : Prog K N M A R α → (K → Option N) → Event K N M → Prog K N M A R α → Prop where
  | read : Does (read key next) σ (.read key (σ key)) (next (σ key))
  | send : Does (send key msg next) σ (.send key msg) (next (serve (σ key) msg).2)
  | draw (r : R) : Does (draw next) σ .draw (next r)

/-- Two clients that take turns, in any order in which `ok` allows what they do after what they have
done. -/
inductive Par (ok : List (Event K N M ⊕ Event K N M) → Event K N M ⊕ Event K N M → Prop)
    (a₀ : Prog K N M A R α) (b₀ : Prog K N M A R β) (σ₀ : K → Option N) :
    List (Event K N M ⊕ Event K N M) → Prog K N M A R α → Prog K N M A R β → (K → Option N) → Prop where
  | start : Par ok a₀ b₀ σ₀ [] a₀ b₀ σ₀
  | left : Par ok a₀ b₀ σ₀ log a b σ → Does serve a σ e a' → ok log (.inl e) →
      Par ok a₀ b₀ σ₀ (log ++ [.inl e]) a' b (e.apply serve σ)
  | right : Par ok a₀ b₀ σ₀ log a b σ → Does serve b σ e b' → ok log (.inr e) →
      Par ok a₀ b₀ σ₀ (log ++ [.inr e]) a b' (e.apply serve σ)

/-- The precondition under which every result of a client that runs alone meets `Q`. -/
def wp (Q : α → (K → Option N) → Prop) : Prog K N M A R α → (K → Option N) → Prop
  | ret a, σ => Q a σ
  | stop, _ => True
  | read key next, σ => (next (σ key)).wp Q σ
  | send key msg next, σ => (next (serve (σ key) msg).2).wp Q (deliver serve σ key msg)
  | draw next, σ => ∀ r, (next r).wp Q σ

/-- The precondition under which `I` holds all along, told how many messages have been sent. -/
def always (I : Nat → (K → Option N) → Prop) : Prog K N M A R α → Nat → (K → Option N) → Prop
  | ret _, n, σ => I n σ
  | stop, n, σ => I n σ
  | read key next, n, σ => I n σ ∧ (next (σ key)).always I n σ
  | send key msg next, n, σ =>
    I n σ ∧ (next (serve (σ key) msg).2).always I (n + 1) (deliver serve σ key msg)
  | draw next, n, σ => I n σ ∧ ∀ r, (next r).always I n σ

variable {serve}

@[simp] theorem deliver_self (σ : K → Option N) (key : K) (msg : M) :
    deliver serve σ key msg key = (serve (σ key) msg).1 := Function.update_self ..

theorem deliver_of_ne {x key : K} (h : x ≠ key) (σ : K → Option N) (msg : M) :
    deliver serve σ key msg x = σ x := Function.update_of_ne h ..

omit [DecidableEq K] in
theorem Does.avoids {Q : α → Prop} {p p' : Prog K N M A R α} (h : Does serve p σ e p')
    (hp : p.Avoids Q) : p'.Avoids Q := by
  cases h with
  | read => exact hp _
  | send => exact hp _
  | draw r => exact hp r

theorem wp_bind (Q : β → (K → Option N) → Prop) (p : Prog K N M A R α)
    (f : α → Prog K N M A R β) (σ : K → Option N) :
    wp serve Q (p >>= f) σ ↔ wp serve (fun a => wp serve Q (f a)) p σ := by
  induction p generalizing σ with
  | ret a => rfl
  | stop => rfl
  | read key next ih => exact ih _ σ
  | send key msg next ih => exact ih _ _
  | draw next ih => exact forall_congr' fun r => ih r σ

theorem wp_mono {Q Q' : α → (K → Option N) → Prop} (h : ∀ a σ, Q a σ → Q' a σ)
    {p : Prog K N M A R α} {σ : K → Option N} (hp : wp serve Q p σ) : wp serve Q' p σ := by
  induction p generalizing σ with
  | ret a => exact h a σ hp
  | stop => trivial
  | read key next ih => exact ih _ hp
  | send key msg next ih => exact ih _ hp
  | draw next ih => exact fun r => ih r (hp r)

theorem wp_step {Q : α → (K → Option N) → Prop} {p p' : Prog K N M A R α}
    (hp : wp serve Q p σ) (h : Step serve p σ k p' σ') : wp serve Q p' σ' := by
  cases h with
  | read => exact hp
  | send => exact hp
  | draw r => exact hp r

theorem wp_run {Q : α → (K → Option N) → Prop} {p : Prog K N M A R α} (hp : wp serve Q p σ)
    (h : Run serve p σ a σ') : Q a σ' := by
  obtain ⟨n, h⟩ := h
  generalize hr : (ret a : Prog K N M A R α) = r at h
  induction h with
  | refl =>
    subst hr
    exact hp
  | head hstep _ ih => exact ih (wp_step hp hstep) hr

theorem always_now {I : Nat → (K → Option N) → Prop} {p : Prog K N M A R α}
    (h : always serve I p n σ) : I n σ := by
  cases p with
  | ret => exact h
  | stop => exact h
  | read => exact h.1
  | send => exact h.1
  | draw => exact h.1

theorem always_mono {I I' : Nat → (K → Option N) → Prop} (h : ∀ n σ, I n σ → I' n σ)
    {p : Prog K N M A R α} (hp : always serve I p n σ) : always serve I' p n σ := by
  induction p generalizing n σ with
  | ret => exact h n σ hp
  | stop => exact h n σ hp
  | read key next ih => exact ⟨h n σ hp.1, ih _ hp.2⟩
  | send key msg next ih => exact ⟨h n σ hp.1, ih _ hp.2⟩
  | draw next ih => exact ⟨h n σ hp.1, fun r => ih r (hp.2 r)⟩

theorem always_step {I : Nat → (K → Option N) → Prop} {p p' : Prog K N M A R α}
    (hp : always serve I p n σ) (h : Step serve p σ k p' σ') : always serve I p' (n + k) σ' := by
  cases h with
  | read => exact hp.2
  | send => exact hp.2
  | draw r => exact hp.2 r

theorem always_steps {I : Nat → (K → Option N) → Prop} {p p' : Prog K N M A R α}
    (hp : always serve I p n σ) (h : Steps serve p σ k p' σ') : I (n + k) σ' := by
  induction h generalizing n with
  | refl => exact always_now hp
  | head hstep _ ih =>
    rw [← Nat.add_assoc]
    exact ih (always_step hp hstep)

end Semantics

section Execution

variable [DecidableEq K] (serve : Option N → M → Option N × A) (r : R)

def exec : Prog K N M A R α → (K → Option N) → Option (α × (K → Option N))
  | ret a, σ => some (a, σ)
  | stop, _ => none
  | read key next, σ => (next (σ key)).exec σ
  | send key msg next, σ => (next (serve (σ key) msg).2).exec (deliver serve σ key msg)
  | draw next, σ => (next r).exec σ

/-- Run a client until it has sent `n` messages. -/
def execFor : Prog K N M A R α → Nat → (K → Option N) → Option (K → Option N)
  | _, 0, σ => some σ
  | read key next, n + 1, σ => (next (σ key)).execFor (n + 1) σ
  | send key msg next, n + 1, σ =>
    (next (serve (σ key) msg).2).execFor n (deliver serve σ key msg)
  | draw next, n + 1, σ => (next r).execFor (n + 1) σ
  | _, _ + 1, _ => none

def step : Prog K N M A R α → (K → Option N) → Option (Event K N M × Prog K N M A R α)
  | read key next, σ => some (.read key (σ key), next (σ key))
  | send key msg next, σ => some (.send key msg, next (serve (σ key) msg).2)
  | draw next, _ => some (.draw, next r)
  | _, _ => none

/-- Run two clients to their ends, where a turn that is `true` is one of the left client. -/
def execTurns : List Bool → Prog K N M A R α → Prog K N M A R β → (K → Option N) →
    Option (List (Event K N M ⊕ Event K N M) × α × β × (K → Option N))
  | [], ret a, ret b, σ => some ([], a, b, σ)
  | true :: turns, a, b, σ => do
    let (e, a) ← step serve r a σ
    let (log, result) ← execTurns turns a b (e.apply serve σ)
    return (.inl e :: log, result)
  | false :: turns, a, b, σ => do
    let (e, b) ← step serve r b σ
    let (log, result) ← execTurns turns a b (e.apply serve σ)
    return (.inr e :: log, result)
  | _, _, _, _ => none

/-- What is done is allowed by `ok` after what has been done before. -/
def Allowed (ok : List (Event K N M ⊕ Event K N M) → Event K N M ⊕ Event K N M → Prop) :
    List (Event K N M ⊕ Event K N M) → List (Event K N M ⊕ Event K N M) → Prop
  | _, [] => True
  | log, e :: rest => ok log e ∧ Allowed ok (log ++ [e]) rest

variable {serve r}

theorem run_exec {p : Prog K N M A R α} (h : exec serve r p σ = some (a, σ')) :
    Run serve p σ a σ' := by
  induction p generalizing σ with
  | ret b =>
    obtain ⟨rfl, rfl⟩ : b = a ∧ σ = σ' := by simpa [exec] using h
    exact ⟨0, .refl⟩
  | stop => simp [exec] at h
  | read key next ih =>
    obtain ⟨n, hn⟩ := ih _ h
    exact ⟨0 + n, .head .read hn⟩
  | send key msg next ih =>
    obtain ⟨n, hn⟩ := ih _ h
    exact ⟨1 + n, .head .send hn⟩
  | draw next ih =>
    obtain ⟨n, hn⟩ := ih r h
    exact ⟨0 + n, .head (.draw r) hn⟩

omit [DecidableEq K] in
theorem does_step {p p' : Prog K N M A R α} (h : step serve r p σ = some (e, p')) :
    Does serve p σ e p' := by
  cases p with
  | ret a => cases h
  | stop => cases h
  | read key next =>
    obtain ⟨rfl, rfl⟩ := Prod.mk.inj (Option.some.inj h)
    exact .read
  | send key msg next =>
    obtain ⟨rfl, rfl⟩ := Prod.mk.inj (Option.some.inj h)
    exact .send
  | draw next =>
    obtain ⟨rfl, rfl⟩ := Prod.mk.inj (Option.some.inj h)
    exact .draw r

omit [DecidableEq K] in
theorem allowed_of_forall {ok : List (Event K N M ⊕ Event K N M) → Event K N M ⊕ Event K N M → Prop}
    (h : ∀ log e, ok log e) (log rest : List (Event K N M ⊕ Event K N M)) : Allowed ok log rest := by
  induction rest generalizing log with
  | nil => trivial
  | cons e rest ih => exact ⟨h log e, ih _⟩

theorem Par.execTurns {a₀ a : Prog K N M A R α} {b₀ b : Prog K N M A R β}
    (hp : Par serve ok a₀ b₀ σ₀ log a b σ)
    (h : execTurns serve r turns a b σ = some (rest, x, y, σ')) (hok : Allowed ok log rest) :
    Par serve ok a₀ b₀ σ₀ (log ++ rest) (ret x) (ret y) σ' := by
  induction turns generalizing log a b σ rest with
  | nil =>
    cases a with
    | ret a =>
      cases b with
      | ret b =>
        simp only [Prog.execTurns, Option.some.injEq, Prod.mk.injEq] at h
        obtain ⟨rfl, rfl, rfl, rfl⟩ := h
        rwa [List.append_nil]
      | _ => cases h
    | _ => cases h
  | cons turn turns ih =>
    cases turn with
    | true =>
      rw [Prog.execTurns] at h
      obtain ⟨⟨e, a'⟩, hstep, h⟩ := Option.bind_eq_some_iff.1 h
      obtain ⟨⟨rest', result⟩, hrest, h⟩ := Option.bind_eq_some_iff.1 h
      obtain ⟨rfl, rfl⟩ := Prod.mk.inj (Option.some.inj h)
      have hnext := ih (.left hp (does_step hstep) hok.1) hrest hok.2
      rwa [List.append_assoc] at hnext
    | false =>
      rw [Prog.execTurns] at h
      obtain ⟨⟨e, b'⟩, hstep, h⟩ := Option.bind_eq_some_iff.1 h
      obtain ⟨⟨rest', result⟩, hrest, h⟩ := Option.bind_eq_some_iff.1 h
      obtain ⟨rfl, rfl⟩ := Prod.mk.inj (Option.some.inj h)
      have hnext := ih (.right hp (does_step hstep) hok.1) hrest hok.2
      rwa [List.append_assoc] at hnext

theorem steps_execFor {p : Prog K N M A R α} (h : execFor serve r p n σ = some σ') :
    ∃ p', Steps serve p σ n p' σ' := by
  induction p generalizing n σ with
  | ret b =>
    cases n with
    | zero => exact ⟨ret b, Option.some.inj h ▸ Steps.refl⟩
    | succ n => simp [execFor] at h
  | stop =>
    cases n with
    | zero => exact ⟨stop, Option.some.inj h ▸ Steps.refl⟩
    | succ n => simp [execFor] at h
  | read key next ih =>
    cases n with
    | zero => exact ⟨read key next, Option.some.inj h ▸ Steps.refl⟩
    | succ n =>
      obtain ⟨p', hp⟩ := ih _ h
      exact ⟨p', Nat.zero_add (n + 1) ▸ Steps.head .read hp⟩
  | send key msg next ih =>
    cases n with
    | zero => exact ⟨send key msg next, Option.some.inj h ▸ Steps.refl⟩
    | succ n =>
      obtain ⟨p', hp⟩ := ih _ h
      exact ⟨p', Nat.add_comm 1 n ▸ Steps.head .send hp⟩
  | draw next ih =>
    cases n with
    | zero => exact ⟨draw next, Option.some.inj h ▸ Steps.refl⟩
    | succ n =>
      obtain ⟨p', hp⟩ := ih r h
      exact ⟨p', Nat.zero_add (n + 1) ▸ Steps.head (.draw r) hp⟩

end Execution

end Prog
