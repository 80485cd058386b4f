import XGossip.Index.Block

namespace XGossip
set_option autoImplicit true

open Codec

def elemBytes (e : List Byte × Sig) : List Byte := strBytes e.1 ++ sigBytes e.2

def headerBytes (key : List Byte) (int : Interval) : List Byte :=
  strBytes key ++ strBytes (intervalBytes int)

@[simp] theorem length_intervalBytes (int : Interval) : (intervalBytes int).length = 24 := by
  rw [intervalBytes, length_flatMap_intBytes]
  rfl

theorem length_elemBytes (e : List Byte × Sig) :
    (elemBytes e).length = 8 + e.1.length + e.2.length * 4 := by
  simp only [elemBytes, List.length_append, length_strBytes, length_sigBytes]
  omega

theorem length_headerBytes (key : List Byte) (int : Interval) :
    (headerBytes key int).length = 32 + key.length := by
  simp only [headerBytes, List.length_append, length_strBytes, length_intervalBytes]
  omega

theorem sigBytes_eq (sig : Sig) : sigBytes sig = strBytes (sig.flatMap intBytes) := by
  rw [sigBytes, strBytes, length_flatMap_intBytes]

theorem run_append (h : Parses r bs a) (post : List Byte) :
    (runReader r (bs ++ post)).map Prod.fst = some a := by
  have hr := h [] post
  simp only [List.nil_append] at hr
  have h0 : InBuf.at (bs ++ post) ([] : List Byte).length = ⟨bs ++ post, 0, []⟩ := rfl
  rw [h0] at hr
  rw [runReader, hr]
  rfl

theorem run_exact (h : Parses r bs a) : (runReader r bs).map Prod.fst = some a := by
  have hr := run_append h []
  rwa [List.append_nil] at hr

theorem getKeyValue_elemBytes (h : (elemBytes e).length < 2 ^ 31) :
    getKeyValue (elemBytes e) = some e := by
  rw [length_elemBytes] at h
  have hkey := getStr_parses (s := e.1) (by omega)
  have hsig : Parses getSig (sigBytes e.2) e.2 := getSig_parses (by omega)
  exact run_exact (hkey.bind (hsig.bind_pure (e.1, ·)))

theorem getKeyValueStr_elemBytes (h : (elemBytes e).length < 2 ^ 31) :
    getKeyValueStr (elemBytes e) = some (e.1, e.2.flatMap intBytes) := by
  rw [length_elemBytes] at h
  have hkey := getStr_parses (s := e.1) (by omega)
  have hsig := getStr_parses (s := e.2.flatMap intBytes) (by simp; omega)
  rw [elemBytes, sigBytes_eq]
  exact run_exact (hkey.bind (hsig.bind_pure (e.1, ·)))

theorem getInterval_intervalBytes (int : Interval) : getInterval (intervalBytes int) = some int := by
  have hparse := Parses.repeatM (l := [int.ln, int.ld, int.rn, int.rd, int.level, int.random])
    fun a _ => getInt_parses a
  have hrun := run_exact hparse
  rw [getInterval]
  simp only [List.length_cons, List.length_nil] at hrun
  rw [intervalBytes, hrun]

theorem getHeaderElem_headerBytes (h : (headerBytes key int).length < 2 ^ 31) :
    getHeaderElem (headerBytes key int) = some (key, int) := by
  rw [length_headerBytes] at h
  have hkey := getStr_parses (s := key) (by omega)
  have hval := getStr_parses (s := intervalBytes int) (by simp)
  have hstr : getKeyValueStr (headerBytes key int) = some (key, intervalBytes int) :=
    run_exact (hkey.bind (hval.bind_pure (key, ·)))
  simp only [getHeaderElem, hstr, Option.bind_eq_bind, Option.bind_some,
    getInterval_intervalBytes]
  rfl

/-- An item of a split message begins with the key that it is about. -/
def ItemKey (key item : List Byte) : Prop :=
  (∃ rest, item = strBytes key ++ rest) ∧ item.length < 2 ^ 31

theorem elemBytes_itemKey (h : (elemBytes e).length < 2 ^ 31) : ItemKey e.1 (elemBytes e) :=
  ⟨⟨_, rfl⟩, h⟩

theorem strBytes_itemKey (h : (strBytes key).length < 2 ^ 31) : ItemKey key (strBytes key) :=
  ⟨⟨[], (List.append_nil _).symm⟩, h⟩

theorem readAt_append (h : Parses r bs a) (pre post : List Byte) :
    readAt r (pre ++ (bs ++ post)) pre.length = some a := by
  rw [readAt, if_pos (by omega), Int.toNat_natCast, List.drop_left]
  exact run_append h post

theorem readAt_item (pre item : List Byte) (items : List (List Byte)) :
    (pre.length : Int) < (pre ++ (item :: items).flatMap strBytes).length ∧
      readAt getInt (pre ++ (item :: items).flatMap strBytes) pre.length =
        some (sizeInt item.length) := by
  constructor
  · simp only [List.length_append, List.flatMap_cons, length_strBytes]
    omega
  · rw [List.flatMap_cons, strBytes, List.append_assoc]
    exact readAt_append (getInt_parses _) _ _

theorem pos_next (pre : List Byte) (h : item.length < 2 ^ 31) :
    (pre.length : Int) + 4 + (sizeInt item.length).toInt = (pre ++ strBytes item).length := by
  rw [sizeInt_toInt h, List.length_append, length_strBytes]
  omega

/-- The search over the items of a body, from the item behind `pre` on. -/
theorem isPresentLoop_items (h : List.Forall₂ ItemKey keys items) (hn : items.length < n)
    (childKey pre : List Byte) :
    isPresentLoop childKey (pre ++ items.flatMap strBytes) n pre.length =
      some (decide (childKey ∈ keys)) := by
  induction h generalizing n pre with
  | nil =>
    cases n with
    | zero => simp at hn
    | succ n => simp [isPresentLoop]
  | @cons key item keys items hitem _ ih =>
    cases n with
    | zero => simp at hn
    | succ n =>
      obtain ⟨⟨rest, hrest⟩, hlen⟩ := hitem
      obtain ⟨hlt, hread⟩ := readAt_item pre item items
      have hkeylen : key.length < 2 ^ 31 := by
        rw [hrest, List.length_append, length_strBytes] at hlen
        omega
      have hkey : getKeyValueSpecial (pre ++ (item :: items).flatMap strBytes) (pre.length + 4) =
          some key := by
        have hk := readAt_append (getStr_parses hkeylen) (pre ++ intBytes (sizeInt item.length))
          (rest ++ items.flatMap strBytes)
        rw [getKeyValueSpecial, List.flatMap_cons]
        nth_rewrite 1 [strBytes]
        rw [hrest] at hk ⊢
        simpa using hk
      have hnext := ih (by simpa using hn) (pre ++ strBytes item)
      have hpos := pos_next pre hlen
      rw [isPresentLoop, if_pos hlt, hread, hkey]
      simp only [Option.bind_eq_bind, Option.bind_some]
      split
      · next heq => simp [heq]
      · next hne =>
        rw [hpos, List.flatMap_cons, ← List.append_assoc, hnext]
        simp [hne]

/-- The items that the adding loop finds from the item behind `pre` on. -/
theorem addItemsLoop_items (h : ∀ item ∈ items, item.length < 2 ^ 31) (hn : items.length < n)
    (pre : List Byte) : addItemsLoop (pre ++ items.flatMap strBytes) n pre.length = some items := by
  induction items generalizing n pre with
  | nil =>
    cases n with
    | zero => simp at hn
    | succ n => simp [addItemsLoop]
  | cons item items ih =>
    cases n with
    | zero => simp at hn
    | succ n =>
      have hlen := h item List.mem_cons_self
      obtain ⟨hlt, hread⟩ := readAt_item pre item items
      have hitem : readAt getStr (pre ++ (item :: items).flatMap strBytes) pre.length =
          some item := by
        rw [List.flatMap_cons]
        exact readAt_append (getStr_parses hlen) _ _
      have hnext := ih (fun i hi => h i (List.mem_cons_of_mem _ hi)) (by simpa using hn)
        (pre ++ strBytes item)
      have hpos := pos_next pre hlen
      rw [addItemsLoop, if_pos hlt, hread, hitem]
      simp only [Option.bind_eq_bind, Option.bind_some]
      rw [hpos, List.flatMap_cons, ← List.append_assoc, hnext]
      rfl

theorem length_items_lt (items : Block) : items.length < (items.flatMap strBytes).length + 1 := by
  induction items with
  | nil => simp
  | cons item items ih =>
    simp only [List.length_cons, List.flatMap_cons, List.length_append, length_strBytes]
    omega

end XGossip
