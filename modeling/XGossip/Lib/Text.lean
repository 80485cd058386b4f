import Mathlib.Algebra.Field.Rat
import Mathlib.Algebra.Order.Field.Rat
import Mathlib.Algebra.Order.Floor.Ring
import Mathlib.Data.Rat.Floor
import Mathlib.Tactic.FieldSimp
import Mathlib.Tactic.Ring

namespace Text
set_option autoImplicit true

/-- The maximal nonempty pieces of a text that hold no delimiter. -/
def tokenize (delimiter : Char) (s : List Char) : List (List Char) :=
  (s.splitOnP (· == delimiter)).filter fun t => !t.isEmpty

theorem tokenize_cons (ht : t ≠ []) (hd : d ∉ t) (s : List Char) :
    tokenize d (t ++ d :: s) = t :: tokenize d s := by
  have hno : ∀ c ∈ t, (c == d) = false := fun c hc => beq_eq_false_iff_ne.2 fun he => hd (he ▸ hc)
  have hsplit := List.splitOnP_append_cons_of_forall_mem hno d (by simp) s
  cases t with
  | nil => exact (ht rfl).elim
  | cons a t => rw [tokenize, hsplit, List.filter_cons_of_pos (by simp), tokenize]

theorem tokenize_last (ht : t ≠ []) (hd : d ∉ t) : tokenize d t = [t] := by
  have hno : ∀ c ∈ t, (c == d) = false := fun c hc => beq_eq_false_iff_ne.2 fun he => hd (he ▸ hc)
  have hsplit := List.splitOnP_eq_singleton hno
  cases t with
  | nil => exact (ht rfl).elim
  | cons a t => rw [tokenize, hsplit, List.filter_cons_of_pos (by simp), List.filter_nil]

def getlinesAux : List Char → List Char → List (List Char)
  | acc, [] => if acc.isEmpty then [] else [acc.reverse]
  | acc, c :: s =>
    if c = '\n' then (c :: acc).reverse :: getlinesAux [] s else getlinesAux (c :: acc) s

def getlines (s : List Char) : List (List Char) := getlinesAux [] s

theorem getlinesAux_line (acc l s : List Char) (h : '\n' ∉ l) :
    getlinesAux acc (l ++ '\n' :: s) = (acc.reverse ++ (l ++ ['\n'])) :: getlines s := by
  induction l generalizing acc with
  | nil => simp [getlinesAux, getlines]
  | cons c l ih =>
    have hc : c ≠ '\n' := fun he => h (by simp [he])
    have hl : '\n' ∉ l := fun hm => h (List.mem_cons_of_mem _ hm)
    rw [List.cons_append, getlinesAux, if_neg hc, ih _ hl, List.reverse_cons]
    simp

def IsLine (l : List Char) : Prop := ∃ t, l = t ++ ['\n'] ∧ '\n' ∉ t

theorem getlines_flatten {ls : List (List Char)} (h : ∀ l ∈ ls, IsLine l) :
    getlines ls.flatten = ls := by
  induction ls with
  | nil => rfl
  | cons l ls ih =>
    obtain ⟨t, rfl, ht⟩ := h l List.mem_cons_self
    have hline := getlinesAux_line [] t ls.flatten ht
    rw [List.flatten_cons, List.append_assoc, List.cons_append, List.nil_append, getlines, hline,
      ih fun l hl => h l (List.mem_cons_of_mem _ hl)]
    rfl

def showNat (n : Nat) : List Char := Nat.toDigits 10 n

theorem isDigit_of_mem_showNat (h : c ∈ showNat n) : c.isDigit :=
  Nat.isDigit_of_mem_toDigits (by decide) (by decide) h

theorem showNat_ne_nil (n : Nat) : showNat n ≠ [] := Nat.toDigits_ne_nil

def digitsValue (s : List Char) : Nat := Nat.ofDigitChars 10 (s.takeWhile Char.isDigit) 0

theorem takeWhile_digits {ds : List Char} (hds : ∀ c ∈ ds, c.isDigit)
    (hs : ∀ c, s.head? = some c → ¬ c.isDigit) : (ds ++ s).takeWhile Char.isDigit = ds := by
  rw [List.takeWhile_append_of_pos hds]
  cases s with
  | nil => simp
  | cons c s =>
    have hc := hs c rfl
    simp [hc]

theorem dropWhile_digits {ds : List Char} (hds : ∀ c ∈ ds, c.isDigit)
    (hs : ∀ c, s.head? = some c → ¬ c.isDigit) : (ds ++ s).dropWhile Char.isDigit = s := by
  rw [List.dropWhile_append_of_pos hds]
  cases s with
  | nil => rfl
  | cons c s =>
    have hc := hs c rfl
    simp [hc]

theorem digitsValue_showNat (n : Nat) (hs : ∀ c, s.head? = some c → ¬ c.isDigit) :
    digitsValue (showNat n ++ s) = n := by
  rw [digitsValue, takeWhile_digits (fun _ => isDigit_of_mem_showNat) hs]
  exact Nat.ofDigitChars_ten_toDigits

def isspace (c : Char) : Bool := c.toNat = 32 ∨ 9 ≤ c.toNat ∧ c.toNat ≤ 13

def sign (s : List Char) : Bool × List Char :=
  match s.dropWhile isspace with
  | '-' :: s => (true, s)
  | '+' :: s => (false, s)
  | s => (false, s)

/-- `strtol` in base 10 with a 64-bit `long`. -/
def strtol (s : List Char) : Int :=
  let (neg, s) := sign s
  let v : Int := digitsValue s
  max (-2 ^ 63) (min (2 ^ 63 - 1) (if neg then -v else v))

theorem toNat_of_isDigit {c : Char} (h : c.isDigit) : 48 ≤ c.toNat ∧ c.toNat ≤ 57 := by
  simpa [Char.isDigit, UInt32.le_iff_toNat_le] using h

theorem sign_of_isDigit (h : c.isDigit) (s : List Char) : sign (c :: s) = (false, c :: s) := by
  have hc := toNat_of_isDigit h
  have hspace : isspace c = false := by
    rw [isspace, decide_eq_false_iff_not]
    omega
  have hminus : c ≠ '-' := by
    rintro rfl
    exact absurd h (by decide)
  have hplus : c ≠ '+' := by
    rintro rfl
    exact absurd h (by decide)
  simp [sign, hspace, hminus, hplus]

theorem sign_minus (s : List Char) : sign ('-' :: s) = (true, s) := rfl

theorem sign_showNat (n : Nat) (s : List Char) : sign (showNat n ++ s) = (false, showNat n ++ s) := by
  cases hd : showNat n with
  | nil => exact (showNat_ne_nil n hd).elim
  | cons c ds =>
    have hc : c.isDigit := isDigit_of_mem_showNat (n := n) (by rw [hd]; exact List.mem_cons_self)
    exact sign_of_isDigit hc _

theorem strtol_showNat (h : n < 2 ^ 63) (hs : ∀ c, s.head? = some c → ¬ c.isDigit) :
    strtol (showNat n ++ s) = n := by
  simp only [strtol, sign_showNat, digitsValue_showNat n hs, Bool.false_eq_true, if_false]
  omega

/-- `strtod` on decimal notation without an exponent. -/
def strtod (s : List Char) : ℚ :=
  let (neg, s) := sign s
  let fraction := match s.dropWhile Char.isDigit with
    | '.' :: s => s.takeWhile Char.isDigit
    | _ => []
  let v : ℚ := digitsValue s + Nat.ofDigitChars 10 fraction 0 / 10 ^ fraction.length
  if neg then -v else v

def roundEven (x : ℚ) : Nat :=
  let n := ⌊x⌋.toNat
  if x - n < 1 / 2 then n else if 1 / 2 < x - n then n + 1 else if n % 2 = 0 then n else n + 1

def showSix (n : Nat) : List Char := List.replicate (6 - (showNat n).length) '0' ++ showNat n

/-- `%f` -/
def showF (x : ℚ) : List Char :=
  let n := roundEven (|x| * 10 ^ 6)
  (if x < 0 then ['-'] else []) ++ (showNat (n / 10 ^ 6) ++ '.' :: showSix (n % 10 ^ 6))

/-- A number with at most six decimals, which `%f` writes exactly. -/
def SixDecimals (x : ℚ) : Prop := ∃ n : Int, x = n / 10 ^ 6

theorem length_showSix (h : n < 10 ^ 6) : (showSix n).length = 6 := by
  have hle : (showNat n).length ≤ 6 := (Nat.length_toDigits_le_iff (by decide) (by decide)).2 h
  rw [showSix, List.length_append, List.length_replicate]
  omega

theorem isDigit_of_mem_showSix (h : c ∈ showSix n) : c.isDigit := by
  rcases List.mem_append.1 h with h | h
  · rw [(List.mem_replicate.1 h).2]
    decide
  · exact isDigit_of_mem_showNat h

theorem ofDigitChars_showSix (n : Nat) : Nat.ofDigitChars 10 (showSix n) 0 = n := by
  rw [showSix, Nat.ofDigitChars_append, Nat.ofDigitChars_replicate_zero, Nat.mul_zero]
  exact Nat.ofDigitChars_ten_toDigits

theorem roundEven_natCast (n : Nat) : roundEven n = n := by
  simp [roundEven]

theorem strtod_decimal (ha : sign t = (neg, showNat a ++ ('.' :: (showSix b ++ s))))
    (hb : b < 10 ^ 6) (hs : ∀ c, s.head? = some c → ¬ c.isDigit) :
    strtod t = if neg then -(a + b / 10 ^ 6 : ℚ) else a + b / 10 ^ 6 := by
  have hdot : ∀ c, ('.' :: (showSix b ++ s)).head? = some c → ¬ c.isDigit := by
    intro c hc
    cases hc
    decide
  have hdrop : (showNat a ++ ('.' :: (showSix b ++ s))).dropWhile Char.isDigit =
      '.' :: (showSix b ++ s) := dropWhile_digits (fun _ => isDigit_of_mem_showNat) hdot
  have htake : (showSix b ++ s).takeWhile Char.isDigit = showSix b :=
    takeWhile_digits (fun _ => isDigit_of_mem_showSix) hs
  simp only [strtod, ha, digitsValue_showNat a hdot, hdrop, htake, ofDigitChars_showSix,
    length_showSix hb]

/-- What `%f` writes of a number with at most six decimals, `strtod` reads back. -/
theorem strtod_showF (hx : SixDecimals x) (hs : ∀ c, s.head? = some c → ¬ c.isDigit) :
    strtod (showF x ++ s) = x := by
  obtain ⟨z, rfl⟩ := hx
  have hround : roundEven (|(z : ℚ) / 10 ^ 6| * 10 ^ 6) = z.natAbs := by
    rw [abs_div, abs_of_pos (show (0 : ℚ) < 10 ^ 6 by norm_num),
      div_mul_cancel₀ _ (by norm_num), ← Int.cast_abs, Int.abs_eq_natAbs, Int.cast_natCast,
      roundEven_natCast]
  have hmod := Nat.mod_lt z.natAbs (show 0 < 10 ^ 6 by decide)
  have hdiv : ((z.natAbs / 10 ^ 6 : Nat) : ℚ) + ((z.natAbs % 10 ^ 6 : Nat) : ℚ) / 10 ^ 6 =
      (z.natAbs : ℚ) / 10 ^ 6 := by
    have hcast : (z.natAbs : ℚ) = ((10 ^ 6 * (z.natAbs / 10 ^ 6) + z.natAbs % 10 ^ 6 : Nat) : ℚ) := by
      rw [Nat.div_add_mod]
    rw [hcast]
    push_cast
    ring
  have hneg : (z : ℚ) / 10 ^ 6 < 0 ↔ z < 0 := by
    rw [div_neg_iff]
    norm_num
  simp only [showF, hround, hneg]
  by_cases hz : z < 0
  · have habs : (z.natAbs : ℚ) = -z := by
      rw [Nat.cast_natAbs, abs_of_neg hz, Int.cast_neg]
    have hval := strtod_decimal (t := '-' :: (showNat (z.natAbs / 10 ^ 6) ++
      ('.' :: (showSix (z.natAbs % 10 ^ 6) ++ s)))) (sign_minus _) hmod hs
    rw [if_pos rfl, hdiv, habs] at hval
    simp only [if_pos hz, List.cons_append, List.nil_append, List.append_assoc]
    rw [hval]
    ring
  · have habs : (z.natAbs : ℚ) = z := by
      rw [Nat.cast_natAbs, abs_of_nonneg (Int.not_lt.1 hz)]
    have hval := strtod_decimal (sign_showNat (z.natAbs / 10 ^ 6) _) hmod hs
    rw [if_neg Bool.false_ne_true, hdiv, habs] at hval
    simp only [if_neg hz, List.nil_append, List.append_assoc, List.cons_append]
    exact hval

section Concatenation

theorem showNat_injective : Function.Injective showNat := by
  intro a b h
  have ha := digitsValue_showNat (s := []) a nofun
  have hb := digitsValue_showNat (s := []) b nofun
  rw [List.append_nil] at ha hb
  rw [← ha, h, hb]

theorem length_showNat_of_lt (h : n < 10) : (showNat n).length = 1 := by
  rw [showNat, Nat.toDigits_of_lt_base h]
  rfl

theorem showNat_ten : showNat 10 = ['1', '0'] := by decide

theorem ofDigitChars_showNat (n : Nat) : Nat.ofDigitChars 10 (showNat n) 0 = n :=
  Nat.ofDigitChars_ten_toDigits

/-- Of `l` numbers below `p` that are printed behind one another the text tells all apart. -/
def Distinguishes (l p : Nat) : Prop :=
  ∀ v w : List Nat, v.length = l → w.length = l → (∀ a ∈ v, a < p) → (∀ a ∈ w, a < p) →
    v.flatMap showNat = w.flatMap showNat → v = w

theorem flatMap_inj_of_length {P : α → Prop} {f : α → List β} (hf : ∀ a b, P a → P b → f a = f b → a = b)
    (hlen : ∀ a b, P a → P b → (f a).length = (f b).length) {v w : List α}
    (hl : v.length = w.length) (hv : ∀ a ∈ v, P a) (hw : ∀ a ∈ w, P a)
    (h : v.flatMap f = w.flatMap f) : v = w := by
  induction v generalizing w with
  | nil => exact (List.length_eq_zero_iff.1 hl.symm).symm
  | cons a v ih =>
    cases w with
    | nil => simp at hl
    | cons b w =>
      obtain ⟨ha, hv⟩ := List.forall_mem_cons.1 hv
      obtain ⟨hb, hw⟩ := List.forall_mem_cons.1 hw
      rw [List.flatMap_cons, List.flatMap_cons] at h
      obtain ⟨hab, htail⟩ := List.append_inj h (hlen a b ha hb)
      rw [hf a b ha hb hab, ih (by simpa using hl) hv hw htail]

theorem distinguishes_one (p : Nat) : Distinguishes 1 p := by
  intro v w hv hw _ _ h
  obtain ⟨a, rfl⟩ := List.length_eq_one_iff.1 hv
  obtain ⟨b, rfl⟩ := List.length_eq_one_iff.1 hw
  rw [List.flatMap_singleton, List.flatMap_singleton] at h
  rw [showNat_injective h]

theorem distinguishes_ten {p : Nat} (l : Nat) (hp : p ≤ 10) : Distinguishes l p := by
  intro v w hv hw hvp hwp h
  refine flatMap_inj_of_length (P := (· < p)) (fun a b _ _ h => showNat_injective h) ?_
    (hv.trans hw.symm) hvp hwp h
  intro a b ha hb
  rw [length_showNat_of_lt (by omega), length_showNat_of_lt (by omega)]

/-- Two numbers up to ten: a digit and a number cannot be read as ten and a number. -/
theorem distinguishes_two {p : Nat} (hp : p ≤ 11) : Distinguishes 2 p := by
  have hten : ∀ a b c : Nat, a < 10 → showNat a ++ showNat b ≠ showNat 10 ++ showNat c := by
    intro a b c ha h
    rw [showNat_ten, showNat, Nat.toDigits_of_lt_base ha, List.cons_append, List.nil_append,
      List.cons_append, List.cons_append, List.nil_append, List.cons_eq_cons] at h
    have hbc : b = c := by
      have hval := ofDigitChars_showNat b
      rw [h.2, Nat.ofDigitChars_cons] at hval
      exact hval.symm.trans (ofDigitChars_showNat c)
    have hlen := congrArg List.length h.2
    rw [hbc, List.length_cons] at hlen
    omega
  intro v w hv hw hvp hwp h
  obtain ⟨a, b, rfl⟩ := List.length_eq_two.1 hv
  obtain ⟨c, d, rfl⟩ := List.length_eq_two.1 hw
  simp only [List.flatMap_cons, List.flatMap_nil, List.append_nil] at h
  have ha := hvp a (by simp)
  have hc := hwp c (by simp)
  have hac : (showNat a).length = (showNat c).length := by
    rcases Nat.lt_or_ge a 10 with ha' | ha'
    · rcases Nat.lt_or_ge c 10 with hc' | hc'
      · rw [length_showNat_of_lt ha', length_showNat_of_lt hc']
      · obtain rfl : c = 10 := by omega
        exact (hten a b d ha' h).elim
    · rcases Nat.lt_or_ge c 10 with hc' | hc'
      · obtain rfl : a = 10 := by omega
        exact (hten c d b hc' h.symm).elim
      · rw [show a = c by omega]
  obtain ⟨h1, h2⟩ := List.append_inj h hac
  rw [showNat_injective h1, showNat_injective h2]

theorem not_distinguishes_two {p : Nat} (hp : 12 ≤ p) : ¬ Distinguishes 2 p := by
  intro h
  have hne := h [1, 11] [11, 1] rfl rfl (by simp; omega) (by simp; omega) (by decide)
  exact absurd hne (by decide)

theorem not_distinguishes_more {l p : Nat} (hl : 3 ≤ l) (hp : 11 ≤ p) : ¬ Distinguishes l p := by
  intro h
  have hlen : ∀ a b c : Nat, (a :: b :: c :: List.replicate (l - 3) 0).length = l := by
    intro a b c
    simp only [List.length_cons, List.length_replicate]
    omega
  have hlt : ∀ a b c, a < p → b < p → c < p → ∀ x ∈ a :: b :: c :: List.replicate (l - 3) 0, x < p := by
    intro a b c ha hb hc
    simp only [List.forall_mem_cons]
    refine ⟨ha, hb, hc, ?_⟩
    intro x hx
    rw [List.eq_of_mem_replicate hx]
    omega
  have hne := h (1 :: 0 :: 10 :: List.replicate (l - 3) 0) (10 :: 1 :: 0 :: List.replicate (l - 3) 0)
    (hlen 1 0 10) (hlen 10 1 0) (hlt 1 0 10 (by omega) (by omega) (by omega))
    (hlt 10 1 0 (by omega) (by omega) (by omega)) (by simp only [List.flatMap_cons]; rfl)
  simp at hne

theorem distinguishes_iff (hl : 1 ≤ l) (p : Nat) :
    Distinguishes l p ↔ l = 1 ∨ p ≤ 10 ∨ l = 2 ∧ p ≤ 11 := by
  constructor
  · intro h
    by_contra hno
    rcases Nat.lt_or_ge l 3 with hl' | hl'
    · obtain rfl : l = 2 := by omega
      exact not_distinguishes_two (by omega) h
    · exact not_distinguishes_more hl' (by omega) h
  · rintro (rfl | hp | ⟨rfl, hp⟩)
    · exact distinguishes_one p
    · exact distinguishes_ten l hp
    · exact distinguishes_two hp

end Concatenation

end Text
