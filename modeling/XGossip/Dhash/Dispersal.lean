import XGossip.Dhash.Ida

namespace XGossip
set_option autoImplicit true

namespace Ida

open Elimination Finset

instance : Fact (Nat.Prime field) := ⟨by norm_num [field]⟩

section Field

variable {a b : Nat}

theorem field_pos : 0 < field := by decide

theorem MUL_eq (a b : Nat) : MUL a b = a * b % field := by
  rw [MUL]
  split
  · next h =>
    rw [h.1, h.2]
    rfl
  · rfl

theorem MUL_lt (a b : Nat) : MUL a b < field := by
  rw [MUL_eq]
  exact Nat.mod_lt _ field_pos

theorem ADD_lt (a b : Nat) : ADD a b < field := Nat.mod_lt _ field_pos

theorem SUB_lt (a b : Nat) : SUB a b < field := Nat.mod_lt _ field_pos

theorem cast_MUL (a b : Nat) : (MUL a b : ZMod field) = a * b := by
  rw [MUL_eq, ZMod.natCast_mod, Nat.cast_mul]

theorem cast_ADD (a b : Nat) : (ADD a b : ZMod field) = a + b := by
  rw [ADD, ZMod.natCast_mod, Nat.cast_add]

theorem cast_SUB (ha : a < field) (hb : b < field) : (SUB a b : ZMod field) = a - b := by
  have hwrap : (a + 2 ^ 64 - b + field) % 2 ^ 64 = a + field - b := by
    rw [field] at ha hb ⊢
    omega
  rw [SUB, hwrap, ZMod.natCast_mod, Nat.cast_sub (by omega), Nat.cast_add,
    ZMod.natCast_self, add_zero]

theorem cast_invPow (a n : Nat) : (invPow a n : ZMod field) = a ^ (2 ^ (n + 1) - 1) := by
  induction n with
  | zero => rw [invPow, ZMod.natCast_mod, zero_add, pow_one, Nat.add_one_sub_one, pow_one]
  | succ n ih =>
    have hexp : 2 ^ (n + 1 + 1) - 1 = (2 ^ (n + 1) - 1) + (2 ^ (n + 1) - 1) + 1 := by
      have := Nat.one_le_two_pow (n := n + 1)
      omega
    rw [invPow, ZMod.natCast_mod, Nat.cast_mul, ZMod.natCast_mod, Nat.cast_mul, ih, hexp]
    generalize 2 ^ (n + 1) - 1 = e
    rw [pow_succ, pow_add]

theorem cast_INV (a : Nat) : (INV a : ZMod field) = (a : ZMod field)⁻¹ := by
  rw [INV, cast_invPow]
  rcases eq_or_ne (a : ZMod field) 0 with h | h
  · rw [h, inv_zero]
    exact zero_pow (by decide)
  · have hpow := ZMod.pow_card_sub_one_eq_one h
    rw [show field - 1 = (2 ^ (15 + 1) - 1) + 1 from rfl, pow_succ] at hpow
    exact eq_inv_of_mul_eq_one_left hpow

theorem cast_DIV (a b : Nat) : (DIV a b : ZMod field) = a / b := by
  rw [DIV, cast_MUL, cast_INV, div_eq_mul_inv]

theorem DIV_lt (a b : Nat) : DIV a b < field := MUL_lt _ _

theorem cast_eq_zero_iff (ha : a < field) : (a : ZMod field) = 0 ↔ a = 0 := by
  rw [ZMod.natCast_eq_zero_iff]
  exact ⟨fun h => Nat.eq_zero_of_dvd_of_lt h ha, fun h => h ▸ dvd_zero _⟩

theorem eq_of_cast (ha : a < field) (hb : b < field) (h : (a : ZMod field) = b) : a = b := by
  have := (ZMod.natCast_eq_natCast_iff' a b field).1 h
  rwa [Nat.mod_eq_of_lt ha, Nat.mod_eq_of_lt hb] at this

end Field

section Packing

theorem checkHigh_eq (h : x < 2 ^ 24) (rest : List Byte) : checkHigh x rest = some (x, rest) :=
  if_neg (by omega)

/-- An element comes back from what it was packed as. -/
theorem unpackone_packOne (h : packOne c = some bs) (hc : c < 2 ^ 24) (rest : List Byte) :
    unpackone (bs ++ rest) = some (c, rest) := by
  have hbyte : ∀ n, (BitVec.ofNat 8 n).toNat = n % 2 ^ 8 := fun n => BitVec.toNat_ofNat n 8
  have hor : ∀ x y : Nat, y < 2 ^ 8 → x <<< 8 ||| y = x * 2 ^ 8 + y := fun x y hy => by
    rw [← Nat.shiftLeft_add_eq_or_of_lt hy, Nat.shiftLeft_eq]
  have hor₃ : ∀ x y z : Nat, y < 2 ^ 8 → z < 2 ^ 8 →
      x <<< 16 ||| y <<< 8 ||| z = x * 2 ^ 16 + y * 2 ^ 8 + z := fun x y z hy hz => by
    have h₁ : x <<< 16 ||| y <<< 8 = x * 2 ^ 16 + y * 2 ^ 8 := by
      rw [← Nat.shiftLeft_add_eq_or_of_lt (by rw [Nat.shiftLeft_eq]; omega), Nat.shiftLeft_eq,
        Nat.shiftLeft_eq]
    have h₂ : x * 2 ^ 16 + y * 2 ^ 8 = (x * 2 ^ 8 + y) <<< 8 := by
      rw [Nat.shiftLeft_eq]
      ring
    rw [h₁, h₂, hor _ _ hz, Nat.shiftLeft_eq]
  rw [packOne, if_neg (by omega)] at h
  split at h
  · obtain rfl := Option.some.inj h
    simp only [List.cons_append, List.nil_append, unpackone]
    rw [if_neg (by simp)]
    simp only [hbyte, Nat.shiftRight_eq_div_pow]
    rw [hor₃ _ _ _ (Nat.mod_lt _ (by decide)) (Nat.mod_lt _ (by decide)), checkHigh_eq (by omega)]
    congr 2
    omega
  · next hlow =>
    split at h
    · next hmagic =>
      obtain rfl := Option.some.inj h
      simp only [List.cons_append, List.nil_append, unpackone]
      rw [if_neg (by simp)]
      simp only [hbyte, Nat.shiftRight_eq_div_pow, show (0 : Byte).toNat = 0 from rfl]
      rw [hor₃ _ _ _ (Nat.mod_lt _ (by decide)) (Nat.mod_lt _ (by decide)),
        checkHigh_eq (by omega)]
      congr 2
      omega
    · next hmagic =>
      obtain rfl := Option.some.inj h
      simp only [List.cons_append, List.nil_append, unpackone]
      rw [if_pos hmagic]
      simp only [hbyte, Nat.shiftRight_eq_div_pow]
      rw [hor _ _ (Nat.mod_lt _ (by decide)), checkHigh_eq (by omega)]
      congr 2
      omega

theorem packOne_isSome (hc : c < 2 ^ 24) : ∃ bs, packOne c = some bs := by
  rw [packOne, if_neg (by omega)]
  split
  · exact ⟨_, rfl⟩
  · split
    · exact ⟨_, rfl⟩
    · exact ⟨_, rfl⟩

def packed (elts : List Nat) : List Byte := elts.flatMap fun c => (packOne c).getD []

theorem unpackone_packed (hc : c < 2 ^ 24) (rest : List Byte) :
    unpackone ((packOne c).getD [] ++ rest) = some (c, rest) := by
  obtain ⟨bs, hbs⟩ := packOne_isSome hc
  rw [hbs, Option.getD_some]
  exact unpackone_packOne hbs hc rest

theorem unpackMany_packed {elts : List Nat} (h : ∀ c ∈ elts, c < 2 ^ 24) (rest : List Byte) :
    unpackMany elts.length (packed elts ++ rest) = some (elts, rest) := by
  induction elts with
  | nil => rfl
  | cons c elts ih =>
    rw [List.forall_mem_cons] at h
    rw [packed, List.flatMap_cons, ← packed, List.append_assoc, List.length_cons, unpackMany]
    simp only [bind, StateT.bind, unpackone_packed h.1, Option.bind_some, ih h.2]
    rfl

theorem mapM_of_forall {f : α → Option β} {g : α → β} {l : List α} (h : ∀ a ∈ l, f a = some (g a)) :
    l.mapM f = some (l.map g) := by
  induction l with
  | nil => rfl
  | cons a l ih =>
    rw [List.forall_mem_cons] at h
    rw [List.mapM_cons, h.1, ih h.2]
    rfl

theorem pack_eq {elts : List Nat} (h : ∀ c ∈ elts, c < 2 ^ 24) (hlen : elts[0]? = some elts.length) :
    pack elts = some (packed elts) := by
  have hlt : elts.length < 2 ^ 24 := h _ (List.mem_of_getElem? hlen)
  have hn : (sizeInt elts.length).toInt.toNat = elts.length := by
    rw [sizeInt, BitVec.toInt_ofNat', Int.bmod_eq_of_le (by omega) (by omega), Int.toNat_natCast]
  have hmap : elts.mapM packOne = some (elts.map fun c => (packOne c).getD []) :=
    mapM_of_forall fun c hc => by
      obtain ⟨bs, hbs⟩ := packOne_isSome (h c hc)
      rw [hbs, Option.getD_some]
  rw [pack, hlen]
  simp only [Option.bind_eq_bind, Option.bind_some, hn, Nat.lt_irrefl, if_false, List.take_length,
    hmap]
  rw [packed, List.flatMap_def]
  rfl

end Packing

section Encoding

variable {block : List Byte} {v : List Nat}

def wordAt (block : List Byte) (pos : Nat) : Nat :=
  (block.getD pos 0).toNat * 2 ^ 8 + (block.getD (pos + 1) 0).toNat

theorem wordAt_lt (block : List Byte) (pos : Nat) : wordAt block pos < 2 ^ 16 := by
  have h₁ := (block.getD pos 0).isLt
  have h₂ := (block.getD (pos + 1) 0).isLt
  rw [wordAt]
  omega

/-- Behind the end of the block the position stays where it is. -/
def AtPos (block : List Byte) (inp pos : Nat) : Prop :=
  inp = pos ∨ block.length < inp ∧ block.length < pos

theorem nextByte_spec (h : AtPos block inp pos) :
    (nextByte block inp).1 = (block.getD pos 0).toNat ∧
      AtPos block (nextByte block inp).2 (pos + 1) := by
  have hzero : ∀ i, block.length < i → block.getD i 0 = 0 := fun i hi => by
    rw [List.getD_eq_getElem?_getD, List.getElem?_eq_none (by omega), Option.getD_none]
  rw [nextByte]
  rcases h with rfl | ⟨h₁, h₂⟩
  · split
    · next hi =>
      rw [hzero _ hi]
      exact ⟨rfl, .inr ⟨hi, by omega⟩⟩
    · exact ⟨rfl, .inl rfl⟩
  · rw [if_pos h₁, hzero _ h₂]
    exact ⟨rfl, .inr ⟨h₁, by omega⟩⟩

/-- What `encode` makes of a part of the block. -/
def encoded (block : List Byte) : List Nat → Nat → Nat → Nat
  | [], _, cik => cik
  | vj :: v, inp, cik =>
    let (b₁, inp) := nextByte block inp
    let (b₂, inp) := nextByte block inp
    encoded block v inp (ADD cik (MUL (b₁ <<< 8 ||| b₂) vj))

theorem nextByte_lt (block : List Byte) (inp : Nat) : (nextByte block inp).1 < 2 ^ 8 := by
  rw [nextByte]
  split
  · exact Nat.two_pow_pos 8
  · exact (block.getD inp 0).isLt

theorem encode_eq (block : List Byte) (v : List Nat) (inp cik : Nat) :
    encode block v inp cik = some (encoded block v inp cik) := by
  induction v generalizing inp cik with
  | nil => rfl
  | cons vj v ih =>
    have h₁ := nextByte_lt block inp
    have h₂ := nextByte_lt block (nextByte block inp).2
    have hbi : (nextByte block inp).1 <<< 8 ||| (nextByte block (nextByte block inp).2).1 < 2 ^ 16 := by
      rw [← Nat.shiftLeft_add_eq_or_of_lt h₂, Nat.shiftLeft_eq]
      omega
    rw [encode, encoded]
    dsimp only
    rw [if_neg (not_not.2 (Nat.and_two_pow_sub_one_of_lt_two_pow hbi).symm), if_pos (ADD_lt _ _)]
    exact ih _ _

theorem cast_encoded (h : AtPos block inp pos) (cik : Nat) :
    (encoded block v inp cik : ZMod field) =
      cik + ∑ j ∈ range v.length, ((v.getD j 0 : Nat) : ZMod field) * wordAt block (pos + 2 * j) := by
  induction v generalizing inp pos cik with
  | nil => simp [encoded]
  | cons vj v ih =>
    obtain ⟨hb₁, hpos₁⟩ := nextByte_spec h
    obtain ⟨hb₂, hpos₂⟩ := nextByte_spec hpos₁
    have hword : (nextByte block inp).1 <<< 8 ||| (nextByte block (nextByte block inp).2).1 =
        wordAt block pos := by
      rw [hb₁, hb₂, ← Nat.shiftLeft_add_eq_or_of_lt (block.getD (pos + 1) 0).isLt,
        Nat.shiftLeft_eq, wordAt]
    have hstep : ∀ j, pos + 1 + 1 + 2 * j = pos + 2 * (j + 1) := fun j => by ring
    rw [encoded, ih hpos₂, cast_ADD, hword, cast_MUL, List.length_cons, sum_range_succ']
    simp only [List.getD_cons_succ, List.getD_cons_zero, hstep, Nat.mul_zero, Nat.add_zero]
    ring

theorem encoded_lt (h : cik < field) : encoded block v inp cik < field := by
  induction v generalizing inp cik with
  | nil => exact h
  | cons vj v ih => exact ih (ADD_lt _ _)

def dataOf (m : Nat) (block : List Byte) (v : List Nat) : List Nat :=
  (List.range ((block.length + 2 * m - 1) / (2 * m))).map fun k => encoded block v (k * 2 * m) 0

structure Fits (m : Nat) (block : List Byte) : Prop where
  pos : 0 < m
  rawlen : block.length < 2 ^ 24
  total : 3 + m + 1 + (block.length + 2 * m - 1) / (2 * m) < 2 ^ 24

structure IsRow (m : Nat) (v : List Nat) : Prop where
  length : v.length = m
  lt : ∀ a ∈ v, a < field

theorem drawRow_isRow (h : drawRow m words = some v) : IsRow m v := by
  induction m generalizing words v with
  | zero =>
    obtain rfl := Option.some.inj h
    exact ⟨rfl, by simp⟩
  | succ m ih =>
    rw [drawRow] at h
    split at h
    · cases h
    · next w words' _ =>
      obtain ⟨v', hv', heq⟩ := Option.bind_eq_some_iff.1 h
      obtain rfl := Option.some.inj heq
      obtain ⟨hlen, hlt⟩ := ih hv'
      refine ⟨by rw [List.length_cons, hlen], ?_⟩
      rw [List.forall_mem_cons]
      exact ⟨Nat.mod_lt _ field_pos, hlt⟩

def eltsOf (m : Nat) (block : List Byte) (v : List Nat) : List Nat :=
  (3 + m + 1 + (dataOf m block v).length) :: block.length :: m :: v ++
    (dataOf m block v).length :: dataOf m block v

theorem genFragElts_eq (m : Nat) (block : List Byte) (v : List Nat) :
    genFragElts m block v = some (eltsOf m block v) := by
  have hdata := mapM_of_forall fun k (_ : k ∈ List.range ((block.length + 2 * m - 1) / (2 * m))) =>
    encode_eq block v (k * 2 * m) 0
  rw [genFragElts]
  simp only [hdata, Option.bind_eq_bind, Option.bind_some]
  rw [eltsOf, dataOf, List.length_map, List.length_range]
  rfl

theorem length_dataOf : (dataOf m block v).length = (block.length + 2 * m - 1) / (2 * m) := by
  rw [dataOf, List.length_map, List.length_range]

theorem eltsOf_lt (hfits : Fits m block) (hv : IsRow m v) : ∀ c ∈ eltsOf m block v, c < 2 ^ 24 := by
  have hfield : field < 2 ^ 24 := by decide
  obtain ⟨hpos, hraw, htotal⟩ := hfits
  rw [← length_dataOf (v := v)] at htotal
  rw [eltsOf]
  simp only [List.cons_append, List.mem_cons, List.mem_append]
  rintro c (rfl | rfl | rfl | h | rfl | h)
  · exact htotal
  · exact hraw
  · omega
  · exact (hv.lt c h).trans hfield
  · omega
  · obtain ⟨k, -, rfl⟩ := List.mem_map.1 h
    exact (encoded_lt field_pos).trans hfield

theorem genFrag_eq (hfits : Fits m block) (h : drawRow m words = some v) :
    genFrag m block words = some (packed (eltsOf m block v)) := by
  have hv := drawRow_isRow h
  rw [genFrag, if_neg (Nat.ne_of_gt hfits.pos), h]
  simp only [genFragElts_eq, Option.bind_eq_bind, Option.bind_some]
  refine pack_eq (eltsOf_lt hfits hv) ?_
  rw [eltsOf]
  simp only [List.cons_append, List.getElem?_cons_zero, List.length_cons, List.length_append,
    hv.length]
  congr 1
  omega

end Encoding

section Reading

variable {block : List Byte} {v : List Nat} {vs : List (List Nat)}

def fragOf (m : Nat) (block : List Byte) (v : List Nat) : List Byte := packed (eltsOf m block v)

theorem packed_cons (c : Nat) (elts : List Nat) :
    packed (c :: elts) = (packOne c).getD [] ++ packed elts := List.flatMap_cons

theorem packed_append (elts elts' : List Nat) :
    packed (elts ++ elts') = packed elts ++ packed elts' := List.flatMap_append

theorem fragOf_eq (m : Nat) (block : List Byte) (v : List Nat) : fragOf m block v =
    (packOne (3 + m + 1 + (dataOf m block v).length)).getD [] ++
      ((packOne block.length).getD [] ++ ((packOne m).getD [] ++ (packed v ++
        ((packOne (dataOf m block v).length).getD [] ++ packed (dataOf m block v))))) := by
  rw [fragOf, eltsOf]
  simp only [List.cons_append, packed_cons, packed_append]

theorem readHeader (hfits : Fits m block) (v : List Nat) :
    (do return (← unpackone, ← unpackone, ← unpackone) : Unpack _).run (fragOf m block v) =
      some ((3 + m + 1 + (dataOf m block v).length, block.length, m), packed v ++
        ((packOne (dataOf m block v).length).getD [] ++ packed (dataOf m block v))) := by
  have htotal := hfits.total
  rw [← length_dataOf (v := v)] at htotal
  rw [fragOf_eq]
  simp only [StateT.run, bind, StateT.bind, unpackone_packed htotal, Option.bind_some,
    unpackone_packed hfits.rawlen, unpackone_packed (show m < 2 ^ 24 by omega)]
  rfl

theorem readFrag_fragOf (hfits : Fits m block) (hv : IsRow m v)
    (hblocksize : blocksize = 0 ∨ blocksize = (dataOf m block v).length) :
    readFrag m block.length blocksize (fragOf m block v) =
      some (some (v, dataOf m block v, (dataOf m block v).length), []) := by
  have htotal := hfits.total
  rw [← length_dataOf (v := v)] at htotal
  have hrow : ∀ c ∈ v, c < 2 ^ 24 := fun c hc => (hv.lt c hc).trans (by decide)
  have hdata : ∀ c ∈ dataOf m block v, c < 2 ^ 24 := fun c hc => by
    obtain ⟨k, -, rfl⟩ := List.mem_map.1 hc
    exact (encoded_lt field_pos).trans (by decide)
  have hrows := unpackMany_packed hrow
  rw [hv.length] at hrows
  have hdatas := unpackMany_packed hdata []
  rw [List.append_nil] at hdatas
  have hsize : (if blocksize = 0 then (dataOf m block v).length else blocksize) =
      (dataOf m block v).length := by
    split
    · rfl
    · next h => exact hblocksize.resolve_left h
  have hlen : 3 + m + 1 + (dataOf m block v).length - (m + 4) = (dataOf m block v).length := by omega
  rw [readFrag, fragOf_eq]
  simp only [bind, StateT.bind, unpackone_packed htotal, Option.bind_some]
  rw [if_neg (by omega)]
  simp only [bind, StateT.bind, unpackone_packed hfits.rawlen, Option.bind_some, ne_eq,
    not_true_eq_false, if_false, unpackone_packed (show m < 2 ^ 24 by omega), hrows,
    unpackone_packed (show (dataOf m block v).length < 2 ^ 24 by omega), hsize, hlen, hdatas]
  rfl

/-- Of fragments that go together none is dropped. -/
theorem collect_fragOf (hfits : Fits m block) (hvs : ∀ v ∈ vs, IsRow m v)
    (hblocksize : blocksize = 0 ∨ blocksize = (block.length + 2 * m - 1) / (2 * m))
    (hn : i + n ≤ vs.length) :
    ∃ blocksize', collect m block.length n i
        ⟨vs.map (fragOf m block), vs.take i, (vs.take i).map (dataOf m block), blocksize⟩ =
      some ⟨vs.map (fragOf m block), vs.take (i + n), (vs.take (i + n)).map (dataOf m block),
        blocksize'⟩ ∧ (n = 0 ∨ blocksize' = (block.length + 2 * m - 1) / (2 * m)) := by
  induction n generalizing i blocksize with
  | zero => exact ⟨blocksize, rfl, .inl rfl⟩
  | succ n ih =>
    have hi : i < vs.length := by omega
    have hget : (vs.map (fragOf m block))[i]? = some (fragOf m block vs[i]) := by
      rw [List.getElem?_map, List.getElem?_eq_getElem hi, Option.map_some]
    have htake : vs.take i ++ [vs[i]] = vs.take (i + 1) := List.take_append_getElem hi
    have hblocksize' : blocksize = 0 ∨ blocksize = (dataOf m block vs[i]).length := by
      rwa [length_dataOf]
    have hread := readFrag_fragOf hfits (hvs _ (List.getElem_mem hi)) hblocksize'
    obtain ⟨blocksize', hcollect, hsize⟩ := ih (i := i + 1) (.inr rfl) (by omega)
    rw [show i + (n + 1) = i + 1 + n by omega]
    refine ⟨blocksize', ?_, .inr ?_⟩
    · rw [collect, hget]
      simp only [Option.bind_eq_bind, Option.bind_some, hread, htake, length_dataOf]
      rw [← hcollect, ← htake, List.map_append]
      rfl
    · rcases hsize with rfl | hsize
      · rw [collect, Option.some_inj, Decode.mk.injEq] at hcollect
        exact hcollect.2.2.2.symm
      · exact hsize

end Reading

end Ida

end XGossip
