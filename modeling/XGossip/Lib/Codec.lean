import Mathlib.Data.List.Basic
import Mathlib.Tactic.Ring

abbrev Byte := BitVec 8

instance : LawfulBEq (List Byte) := inferInstance

namespace Codec
set_option autoImplicit true

def toLE : Nat → Nat → List Byte
  | 0, _ => []
  | k + 1, n => BitVec.ofNat 8 n :: toLE k (n / 256)

def ofLE : List Byte → Nat
  | [] => 0
  | b :: bs => b.toNat + 256 * ofLE bs

@[simp] theorem length_toLE (k n : Nat) : (toLE k n).length = k := by
  induction k generalizing n with
  | zero => rfl
  | succ k ih => simp [toLE, ih]

theorem ofLE_toLE (h : n < 256 ^ k) : ofLE (toLE k n) = n := by
  induction k generalizing n with
  | zero =>
    have hn : n = 0 := by simpa using h
    rw [hn]
    rfl
  | succ k ih =>
    have hdiv : n / 256 < 256 ^ k := by
      apply Nat.div_lt_of_lt_mul
      rwa [← Nat.pow_succ']
    simp only [toLE, ofLE, ih hdiv, BitVec.toNat_ofNat]
    omega

theorem toLE_ofLE (bs : List Byte) : toLE bs.length (ofLE bs) = bs := by
  induction bs with
  | nil => rfl
  | cons b bs ih =>
    have hb := b.isLt
    have hdiv : (b.toNat + 256 * ofLE bs) / 256 = ofLE bs := by omega
    have hmod : BitVec.ofNat 8 (b.toNat + 256 * ofLE bs) = b := by
      apply BitVec.eq_of_toNat_eq
      rw [BitVec.toNat_ofNat]
      omega
    rw [List.length_cons, toLE, ofLE, hmod, hdiv, ih]

theorem ofLE_lt (bs : List Byte) : ofLE bs < 256 ^ bs.length := by
  induction bs with
  | nil => decide
  | cons b bs ih =>
    have hb := b.isLt
    rw [ofLE, List.length_cons, Nat.pow_succ]
    omega

/-- An allocated buffer with a write pointer into it; `none` is a byte not yet written. -/
structure OutBuf where
  data : List (Option Byte)
  pos : Int

abbrev Writer := StateT OutBuf Option

/-- Copy bytes to the pointer, which stays; outside of the buffer this is an error. -/
def copy (bs : List Byte) : Writer Unit := fun b =>
  let i := b.pos.toNat
  if 0 ≤ b.pos ∧ b.pos + bs.length ≤ b.data.length then
    some ((), ⟨b.data.take i ++ bs.map some ++ b.data.drop (i + bs.length), b.pos⟩)
  else none

def move (d : Int) : Writer Unit := fun b => some ((), { b with pos := b.pos + d })

def put (bs : List Byte) : Writer Unit := do
  copy bs
  move bs.length

/-- The contents of a fresh buffer of `len` bytes after a writer has run over it. -/
def runWriter (len : Nat) (w : Writer Unit) : Option (List (Option Byte)) :=
  (w ⟨List.replicate len none, 0⟩).map fun r => r.2.data

/-- A writer that appends these bytes to what has been written, if there is room for them. -/
def Writes (w : Writer Unit) (bs : List Byte) : Prop :=
  ∀ (pre : List Byte) (n : Nat), bs.length ≤ n →
    w ⟨pre.map some ++ List.replicate n none, pre.length⟩ =
      some ((), ⟨(pre ++ bs).map some ++ List.replicate (n - bs.length) none, (pre ++ bs).length⟩)

theorem Writes.put (bs : List Byte) : Writes (put bs) bs := by
  intro pre n h
  have hroom : (0 : Int) ≤ pre.length ∧ (pre.length : Int) + bs.length ≤
      (pre.map some ++ List.replicate n (none : Option Byte)).length := by
    simp only [List.length_append, List.length_map, List.length_replicate]
    omega
  have htake : (pre.map some ++ List.replicate n (none : Option Byte)).take pre.length =
      pre.map some := List.take_left' (List.length_map _)
  have hdrop : (pre.map some ++ List.replicate n (none : Option Byte)).drop
      (pre.length + bs.length) = List.replicate (n - bs.length) none := by
    rw [List.drop_append, List.length_map, List.drop_of_length_le (by simp)]
    simp
  simp only [Codec.put, copy, move, bind, StateT.bind]
  rw [if_pos hroom]
  simp only [Option.bind_some, Int.toNat_natCast, htake, hdrop, List.map_append,
    List.length_append, Int.natCast_add]

theorem Writes.nil : Writes (pure ()) [] := by
  intro pre n _
  change some ((), _) = _
  simp

theorem Writes.seq {w : Writer Unit} {w' : Unit → Writer Unit} (h : Writes w bs)
    (h' : Writes (w' ()) bs') : Writes (w >>= w') (bs ++ bs') := by
  intro pre n hn
  rw [List.length_append] at hn
  have h₁ := h pre n (by omega)
  have h₂ := h' (pre ++ bs) (n - bs.length) (by omega)
  simp only [bind, StateT.bind, h₁, Option.bind_some]
  rw [h₂, List.append_assoc, Nat.sub_sub, ← List.length_append]

theorem Writes.forM {f : α → Writer PUnit} {g : α → List Byte} {l : List α}
    (h : ∀ a ∈ l, Writes (f a) (g a)) : Writes (l.forM f) (l.flatMap g) := by
  induction l with
  | nil => exact Writes.nil
  | cons a l ih =>
    rw [List.flatMap_cons]
    exact (h a List.mem_cons_self).seq (ih fun a ha => h a (List.mem_cons_of_mem _ ha))

theorem Writes.run (h : Writes w bs) : runWriter bs.length w = some (bs.map some) := by
  have hw := h [] bs.length (Nat.le_refl _)
  simp only [List.map_nil, List.nil_append, List.length_nil, Int.natCast_zero, Nat.sub_self,
    List.replicate_zero, List.append_nil] at hw
  rw [runWriter, hw]
  rfl

/-- A buffer with a read pointer into it and the offsets read so far. -/
structure InBuf where
  data : List Byte
  pos : Int
  reads : List Int

abbrev Reader := StateT InBuf Option

/-- The offsets of `n` bytes from `pos` on. -/
def offsets (pos : Int) (n : Nat) : List Int := (List.range n).map fun i : Nat => pos + i

theorem offsets_add (m n : Nat) : offsets 0 (m + n) = offsets 0 m ++ offsets m n := by
  simp only [offsets, List.range_add, List.map_append, List.map_map, Function.comp_def,
    Int.natCast_add, Int.zero_add]

/-- Read `n` bytes and move behind them; outside of the buffer this is an error. -/
def get (n : Nat) : Reader (List Byte) := fun b =>
  if 0 ≤ b.pos ∧ b.pos + n ≤ b.data.length then
    some ((b.data.drop b.pos.toNat).take n,
      { b with pos := b.pos + n, reads := b.reads ++ offsets b.pos n })
  else none

def tell : Reader Int := fun b => some (b.pos, b)

def seek (pos : Int) : Reader Unit := fun b => some ((), { b with pos })

def repeatM (act : Reader α) : Nat → Reader (List α)
  | 0 => pure []
  | n + 1 => do return (← act) :: (← repeatM act n)

/-- The result of a reader on a buffer, with the offsets it has read in order. -/
def runReader (r : Reader α) (data : List Byte) : Option (α × List Int) :=
  (r ⟨data, 0, []⟩).map fun r => (r.1, r.2.reads)

/-- The state of a reader that has read exactly the first `n` bytes, in order. -/
def InBuf.at (data : List Byte) (n : Nat) : InBuf :=
  ⟨data, n, offsets 0 n⟩

/-- A reader that finds these bytes at its pointer reads each of them once and returns `a`. -/
def Parses (r : Reader α) (bs : List Byte) (a : α) : Prop :=
  ∀ pre post : List Byte, r (.at (pre ++ (bs ++ post)) pre.length) =
    some (a, .at (pre ++ (bs ++ post)) (pre ++ bs).length)

theorem Parses.get (h : bs.length = n) : Parses (get n) bs bs := by
  intro pre post
  subst h
  have hroom : (0 : Int) ≤ pre.length ∧
      (pre.length : Int) + bs.length ≤ (pre ++ (bs ++ post)).length := by
    simp only [List.length_append]
    omega
  refine (if_pos hroom).trans ?_
  simp only [InBuf.at, Int.toNat_natCast, List.drop_left, List.take_left, List.length_append,
    Int.natCast_add, offsets_add]

theorem Parses.pure (a : α) : Parses (Pure.pure a) [] a := by
  intro pre post
  change some (a, _) = _
  simp

theorem Parses.bind {r : Reader α} {f : α → Reader β} (h : Parses r bs a)
    (h' : Parses (f a) bs' b) : Parses (r >>= f) (bs ++ bs') b := by
  intro pre post
  have h₁ := h pre (bs' ++ post)
  have h₂ := h' (pre ++ bs) post
  simp only [List.append_assoc] at h₁ h₂ ⊢
  simp only [Bind.bind, StateT.bind, h₁, Option.bind_some, h₂]

theorem Parses.bind_pure {r : Reader α} (h : Parses r bs a) (g : α → β) :
    Parses (r >>= fun a => Pure.pure (g a)) bs (g a) := by
  have hb := h.bind (Parses.pure (g a)) (f := fun a => Pure.pure (g a))
  rwa [List.append_nil] at hb

theorem Parses.repeatM {act : Reader α} {g : α → List Byte} {l : List α}
    (h : ∀ a ∈ l, Parses act (g a) a) : Parses (repeatM act l.length) (l.flatMap g) l := by
  induction l with
  | nil => exact Parses.pure []
  | cons a l ih =>
    have hl := ih fun a ha => h a (List.mem_cons_of_mem _ ha)
    exact (h a List.mem_cons_self).bind (hl.bind_pure (a :: ·))

theorem Parses.seek {r : Reader α} {d : Int} (h : Parses r bs a) (hd : d = bs.length) :
    Parses (do
      let base ← tell
      let a ← r
      Codec.seek (base + d)
      return a) bs a := by
  intro pre post
  have hr := h pre post
  simp only [Bind.bind, StateT.bind, tell, hr, Option.bind_some, Codec.seek, hd]
  change some (a, _) = _
  simp only [InBuf.at, List.length_append, Int.natCast_add]

theorem Parses.run_append (h : Parses r bs a) (post : List Byte) :
    runReader r (bs ++ post) = some (a, offsets 0 bs.length) := by
  have hr := h [] post
  simp only [List.nil_append] at hr
  have h0 : InBuf.at (bs ++ post) ([] : List Byte).length = ⟨bs ++ post, 0, []⟩ := rfl
  rw [h0] at hr
  rw [runReader, hr]
  rfl

theorem Parses.run (h : Parses r bs a) :
    runReader r bs = some (a, offsets 0 bs.length) := by
  have hr := h.run_append []
  rwa [List.append_nil] at hr

section Decides

variable {data : List Byte} {p q : Int} {c c' : Prop}

/-- From the offset `p` on the reader returns `a` and stops at `q`, and has read only bytes of the
buffer. -/
def Reads (r : Reader α) (data : List Byte) (p : Int) (a : α) (q : Int) : Prop :=
  ∀ reads, ∃ new : List Int, (∀ o ∈ new, 0 ≤ o ∧ o < data.length) ∧
    r ⟨data, p, reads⟩ = some (a, ⟨data, q, reads ++ new⟩)

/-- From the offset `p` on the reader runs into an error. -/
def Fails (r : Reader α) (data : List Byte) (p : Int) : Prop := ∀ reads, r ⟨data, p, reads⟩ = none

/-- The reader returns `a` and stops at `q` exactly if `c` holds. -/
structure Decides (r : Reader α) (data : List Byte) (p : Int) (c : Prop) (a : α) (q : Int) :
    Prop where
  reads : c → Reads r data p a q
  fails : ¬ c → Fails r data p

/-- `n` bytes of a buffer from an offset on. -/
def slice (data : List Byte) (p : Int) (n : Nat) : List Byte := (data.drop p.toNat).take n

theorem Decides.get (data : List Byte) (p : Int) (n : Nat) :
    Decides (get n) data p (0 ≤ p ∧ p + n ≤ data.length) (slice data p n) (p + n) := by
  refine ⟨fun h reads => ⟨offsets p n, ?_, if_pos h⟩, fun h _ => if_neg h⟩
  intro o ho
  obtain ⟨i, hi, rfl⟩ := List.mem_map.1 ho
  rw [List.mem_range] at hi
  omega

theorem Decides.pure (a : α) : Decides (Pure.pure a) data p True a p := by
  refine ⟨fun _ reads => ⟨[], by simp, ?_⟩, fun h => (h trivial).elim⟩
  rw [List.append_nil]
  rfl

theorem Decides.guard [Decidable c] {k : Unit → Reader α} (h : Decides (k ()) data p c' a q) :
    Decides (if c then failure >>= k else k ()) data p (¬ c ∧ c') a q := by
  refine ⟨fun ⟨hc, hc'⟩ => ?_, fun hn reads => ?_⟩
  · rw [if_neg hc]
    exact h.reads hc'
  · by_cases hc : c
    · rw [if_pos hc]
      rfl
    · rw [if_neg hc]
      exact h.fails (fun hc' => hn ⟨hc, hc'⟩) reads

theorem Decides.tell : Decides tell data p True p p :=
  ⟨fun _ _ => ⟨[], by simp, by rw [List.append_nil]; rfl⟩, fun h => (h trivial).elim⟩

theorem Decides.seek (q : Int) : Decides (seek q) data p True () q :=
  ⟨fun _ _ => ⟨[], by simp, by rw [List.append_nil]; rfl⟩, fun h => (h trivial).elim⟩

theorem Decides.bind {r : Reader α} {f : α → Reader β} (h : Decides r data p c a q)
    (h' : c → Decides (f a) data q c' b q') : Decides (r >>= f) data p (c ∧ c') b q' := by
  refine ⟨fun ⟨hc, hc'⟩ reads => ?_, fun hn reads => ?_⟩
  · obtain ⟨new, hnew, hr⟩ := h.reads hc reads
    obtain ⟨new', hnew', hf⟩ := (h' hc).reads hc' (reads ++ new)
    refine ⟨new ++ new', ?_, ?_⟩
    · intro o ho
      rcases List.mem_append.1 ho with ho | ho
      · exact hnew o ho
      · exact hnew' o ho
    · simp only [Bind.bind, StateT.bind, hr, Option.bind_some, hf, List.append_assoc]
  · by_cases hc : c
    · obtain ⟨new, -, hr⟩ := h.reads hc reads
      have hf := (h' hc).fails (fun hc' => hn ⟨hc, hc'⟩) (reads ++ new)
      simp only [Bind.bind, StateT.bind, hr, Option.bind_some, hf]
    · simp only [Bind.bind, StateT.bind, h.fails hc reads, Option.bind_none]

theorem Decides.map {r : Reader α} (h : Decides r data p c a q) (g : α → β) :
    Decides (r >>= fun a => Pure.pure (g a)) data p c (g a) q := by
  have hb : Decides (r >>= fun a => Pure.pure (g a)) data p (c ∧ True) (g a) q :=
    h.bind fun _ => Decides.pure (g a)
  rwa [and_true] at hb

theorem Decides.congr {r : Reader α} (h : Decides r data p c a q) (hc : c ↔ c') :
    Decides r data p c' a q := by
  rwa [propext hc] at h

theorem Decides.stop_at {r : Reader α} (h : Decides r data p c a q) (hq : c → q = q') :
    Decides r data p c a q' := ⟨fun hc => hq hc ▸ h.reads hc, h.fails⟩

theorem Decides.repeatM {act : Reader α} {C : Int → Prop} {A : Int → α} {Q : Int → Int}
    (h : ∀ p, Decides act data p (C p) (A p) (Q p)) (n : Nat) (p : Int) :
    Decides (repeatM act n) data p (∀ i < n, C (Q^[i] p)) ((List.range n).map fun i => A (Q^[i] p))
      (Q^[n] p) := by
  induction n generalizing p with
  | zero => exact (Decides.pure []).congr (by simp)
  | succ n ih =>
    have hstep := (h p).bind (f := fun a => do return a :: (← Codec.repeatM act n))
      fun _ => (ih (Q p)).map (A p :: ·)
    rw [List.range_succ_eq_map, List.map_cons, List.map_map]
    refine hstep.congr ?_
    constructor
    · rintro ⟨h₀, hn⟩ i hi
      cases i with
      | zero => exact h₀
      | succ i => exact hn i (by omega)
    · intro hn
      exact ⟨hn 0 (by omega), fun i hi => hn (i + 1) (by omega)⟩

theorem Parses.run_fails {r : Reader α} {f : α → Reader β} (h : Parses r bs a)
    (hf : Fails (f a) bs bs.length) : runReader (r >>= f) bs = none := by
  have hr := h [] []
  rw [List.append_nil, List.nil_append] at hr
  have h0 : InBuf.at bs ([] : List Byte).length = ⟨bs, 0, []⟩ := rfl
  rw [h0] at hr
  simp only [runReader, Bind.bind, StateT.bind, hr, Option.bind_some, InBuf.at, hf _]
  rfl

theorem Decides.run {r : Reader α} (h : Decides r data 0 c a q) :
    (∃ a reads, runReader r data = some (a, reads) ∧ ∀ o ∈ reads, 0 ≤ o ∧ o < data.length) ↔ c := by
  constructor
  · rintro ⟨a, reads, hrun, -⟩
    by_contra hc
    rw [runReader, h.fails hc []] at hrun
    cases hrun
  · intro hc
    obtain ⟨new, hnew, hr⟩ := h.reads hc []
    exact ⟨a, new, by rw [runReader, hr]; rfl, hnew⟩

end Decides

section Ensures

def Ensures (r : Reader α) (P : α → Prop) : Prop := ∀ b a b', r b = some (a, b') → P a

theorem Ensures.trivial (r : Reader α) : Ensures r fun _ => True := fun _ _ _ _ => True.intro

theorem Ensures.pure {P : α → Prop} (h : P a) : Ensures (Pure.pure a) P := by
  intro b a' b' hb
  obtain ⟨rfl, rfl⟩ := Prod.mk.inj (Option.some.inj hb)
  exact h

theorem Ensures.get (n : Nat) : Ensures (get n) fun bs => bs.length = n := by
  intro b bs b' hb
  simp only [Codec.get, Option.ite_none_right_eq_some, Option.some.injEq] at hb
  obtain ⟨hroom, hb⟩ := hb
  obtain ⟨rfl, rfl⟩ := Prod.mk.inj hb
  rw [List.length_take, List.length_drop]
  omega

theorem Ensures.bind {r : Reader α} {f : α → Reader β} {P : β → Prop} {Q : α → Prop}
    (h : Ensures r Q) (hf : ∀ a, Q a → Ensures (f a) P) : Ensures (r >>= f) P := by
  intro b c b' hb
  obtain ⟨⟨a, b₁⟩, ha, hb⟩ := Option.bind_eq_some_iff.1 hb
  exact hf a (h b a b₁ ha) b₁ c b' hb

theorem Ensures.guard {P : α → Prop} [Decidable c] {k : Unit → Reader α}
    (h : ¬ c → Ensures (k ()) P) : Ensures (if c then failure >>= k else k ()) P := by
  by_cases hc : c
  · intro b a b' hb
    rw [if_pos hc] at hb
    cases hb
  · rw [if_neg hc]
    exact h hc

theorem Ensures.repeatM {P : α → Prop} (h : Ensures act P) (n : Nat) :
    Ensures (repeatM act n) fun l => ∀ a ∈ l, P a := by
  induction n with
  | zero => exact Ensures.pure (List.forall_mem_nil _)
  | succ n ih =>
    refine h.bind fun a ha => ih.bind fun l hl => ?_
    exact Ensures.pure (List.forall_mem_cons.2 ⟨ha, hl⟩)

theorem Ensures.run {P : α → Prop} (h : Ensures r P) (hr : runReader r data = some (a, reads)) :
    P a := by
  obtain ⟨⟨a', b'⟩, hb, he⟩ := Option.map_eq_some_iff.1 hr
  obtain ⟨rfl, -⟩ := Prod.mk.inj he
  exact h _ _ _ hb

end Ensures

end Codec
