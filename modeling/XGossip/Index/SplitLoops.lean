import Mathlib.Data.Finset.Card
import Mathlib.Data.Int.Interval
import XGossip.Index.Encode
import XGossip.Wire.Bounds

namespace XGossip
set_option autoImplicit true

open Codec

section Orbit

variable {α : Type} {f : α → α} {stop : α → Prop} {x : α}

theorem exists_stop {S : Finset α} (h : ∀ i, (∀ j ≤ i, ¬ stop (f^[j] x)) →
    f^[i] x ∈ S ∧ ∀ j < i, f^[j] x ≠ f^[i] x) : ∃ k ≤ S.card, stop (f^[k] x) := by
  by_contra hnone
  have hgo : ∀ i ≤ S.card, ∀ j ≤ i, ¬ stop (f^[j] x) := by
    intro i hi j hj hstop
    exact hnone ⟨j, hj.trans hi, hstop⟩
  have hcard : S.card < (Finset.range (S.card + 1)).card := by
    rw [Finset.card_range]
    omega
  obtain ⟨i, hi, j, hj, hne, heq⟩ := Finset.exists_ne_map_eq_of_card_lt_of_maps_to hcard
    (f := fun i => f^[i] x) fun i hi => (h i (hgo i (by simpa [Nat.lt_succ_iff] using hi))).1
  rw [Finset.mem_range, Nat.lt_succ_iff] at hi hj
  rcases Nat.lt_or_gt_of_ne hne with hlt | hlt
  · exact (h j (hgo j hj)).2 i hlt heq
  · exact (h i (hgo i hi)).2 j hlt heq.symm

theorem ne_of_first_stop {k : Nat} (hstop : stop (f^[k] x)) (hfirst : ∀ i < k, ¬ stop (f^[i] x))
    {i j : Nat} (hi : i ≤ k) (hj : j < i) : f^[j] x ≠ f^[i] x := by
  intro heq
  apply hfirst (k - i + j) (by omega)
  rw [Function.iterate_add_apply, heq, ← Function.iterate_add_apply, Nat.sub_add_cancel hi]
  exact hstop

end Orbit

section Reads

variable {body : List Byte} {p : Int}

theorem readAt_decides {r : Reader α} (h : Decides r (body.drop p.toNat) 0 c a q) :
    readAt r body p = some b ↔ 0 ≤ p ∧ c ∧ b = a := by
  by_cases hp : 0 ≤ p
  · rw [readAt, if_pos hp, runReader]
    by_cases hc : c
    · obtain ⟨new, -, hr⟩ := h.reads hc []
      rw [hr]
      simp [hp, hc, eq_comm]
    · rw [h.fails hc []]
      simp [hc]
  · rw [readAt, if_neg hp]
    simp [hp]

theorem slice_drop (hp : 0 ≤ p) {q : Int} (hq : 0 ≤ q) (n : Nat) :
    slice (body.drop p.toNat) q n = slice body (p + q) n := by
  rw [slice, slice, List.drop_drop, ← Int.toNat_add hp hq]

theorem intAt_drop (hp : 0 ≤ p) : intAt (body.drop p.toNat) 0 = intAt body p := by
  rw [intAt, intAt, slice_drop hp (Int.le_refl 0), Int.add_zero]

theorem inside_drop (hp : 0 ≤ p) {q n : Int} (hq : 0 ≤ q) (hn : 0 < q + n) :
    Inside (body.drop p.toNat) q n ↔ Inside body (p + q) n := by
  simp only [Inside, List.length_drop]
  omega

theorem readAt_getInt : readAt getInt body p = some w ↔ Inside body p 4 ∧ w = intAt body p := by
  rw [readAt_decides (getInt_decides _ 0)]
  by_cases hp : 0 ≤ p
  · rw [inside_drop hp (Int.le_refl 0) (by decide), intAt_drop hp, Int.add_zero]
    exact and_iff_right hp
  · exact iff_of_false (fun h => hp h.1) (fun h => hp h.1.1)

theorem readAt_getStr : readAt getStr body p = some s ↔
    StrInside body p ∧ s = slice body (p + 4) (intAt body p).toNat := by
  rw [readAt_decides (getStr_decides _ 0)]
  by_cases hp : 0 ≤ p
  · rw [StrInside, StrInside, intAt_drop hp, slice_drop hp (by decide),
      inside_drop hp (Int.le_refl 0) (by decide), Int.add_zero, Int.zero_add]
    by_cases hlen : 0 ≤ (intAt body p).toInt
    · rw [inside_drop hp (by decide) (by omega)]
      exact and_iff_right hp
    · exact iff_of_false (fun h => hlen h.2.1.2.1) (fun h => hlen h.1.2.1)
  · exact iff_of_false (fun h => hp h.1) (fun h => hp h.1.1.1)

/-- A string that is read is there with its length in front. -/
theorem readAt_getStr_eq {pre post : List Byte}
    (h : readAt getStr (pre ++ post) pre.length = some s) :
    s.length < 2 ^ 31 ∧ ∃ rest, post = strBytes s ++ rest := by
  have hpost : readAt getStr post 0 = some s := by
    rwa [readAt, if_pos (by omega), Int.toNat_natCast, List.drop_left] at h
  obtain ⟨⟨⟨-, hfour⟩, hpos, -, hend⟩, rfl⟩ := readAt_getStr.1 hpost
  have hlt := (intAt post 0).isLt
  have hcast := BitVec.toInt_eq_toNat_cond (intAt post 0)
  have hnat : (intAt post 0).toInt = (intAt post 0).toNat ∧ (intAt post 0).toNat < 2 ^ 31 := by
    split at hcast
    · omega
    · omega
  have htake : (post.take 4).length = 4 := by
    rw [List.length_take]
    omega
  have hlen : (slice post (0 + 4) (intAt post 0).toNat).length = (intAt post 0).toNat := by
    rw [slice, List.length_take, List.length_drop]
    omega
  have hword : intBytes (sizeInt (intAt post 0).toNat) = post.take 4 := by
    have hofLE := ofLE_lt (post.take 4)
    rw [htake] at hofLE
    have hint : (intAt post 0).toNat = ofLE (post.take 4) := by
      rw [intAt, BitVec.toNat_ofNat]
      exact Nat.mod_eq_of_lt hofLE
    have hinv := toLE_ofLE (post.take 4)
    rw [htake] at hinv
    rw [intBytes, sizeInt_toNat hnat.2, hint, hinv]
  refine ⟨by omega, (post.drop 4).drop (intAt post 0).toNat, ?_⟩
  rw [strBytes, hlen, hword, List.append_assoc]
  change post = post.take 4 ++ ((post.drop 4).take _ ++ _)
  rw [List.take_append_drop, List.take_append_drop]

end Reads

section Delete

variable {body childKey : List Byte} {p : Int}

def ItemInside (body : List Byte) (p : Int) : Prop := Inside body p 4 ∧ StrInside body (p + 4)

def keyAt (body : List Byte) (p : Int) : List Byte :=
  slice body (p + 8) (intAt body (p + 4)).toNat

/-- The search for a key comes to the end of the body or to an item with the key. -/
def SearchEnds (body childKey : List Byte) (p : Int) : Prop :=
  body.length ≤ p ∨ ItemInside body p ∧ keyAt body p = childKey

/-- Until the search for a key ends it finds the next item in the body, and comes nowhere twice. -/
def Searchable (body childKey : List Byte) : Prop :=
  ∀ i, (∀ j ≤ i, ¬ SearchEnds body childKey ((lenEnd body)^[j] 0)) →
    ItemInside body ((lenEnd body)^[i] 0) ∧
      ∀ j < i, (lenEnd body)^[j] 0 ≠ (lenEnd body)^[i] 0

theorem isPresentLoop_succ : isPresentLoop childKey body (n + 1) p = some b ↔
    body.length ≤ p ∧ b = false ∨ p < body.length ∧ ItemInside body p ∧
      (keyAt body p = childKey ∧ b = true ∨
        keyAt body p ≠ childKey ∧ isPresentLoop childKey body n (lenEnd body p) = some b) := by
  rw [isPresentLoop]
  by_cases hp : p < body.length
  · rw [if_pos hp]
    simp only [Option.bind_eq_bind, Option.bind_eq_some_iff, getKeyValueSpecial, readAt_getInt,
      readAt_getStr]
    constructor
    · rintro ⟨w, ⟨hint, rfl⟩, key, ⟨hstr, rfl⟩, h⟩
      refine .inr ⟨hp, ⟨hint, hstr⟩, ?_⟩
      rw [show p + 4 + 4 = p + 8 by omega] at h
      split at h
      · next heq => exact .inl ⟨heq.symm, (Option.some.inj h).symm⟩
      · next hne => exact .inr ⟨fun heq => hne heq.symm, h⟩
    · rintro (⟨hle, -⟩ | ⟨-, ⟨hint, hstr⟩, h⟩)
      · omega
      · refine ⟨_, ⟨hint, rfl⟩, _, ⟨hstr, rfl⟩, ?_⟩
        rw [show p + 4 + 4 = p + 8 by omega]
        change (if childKey = keyAt body p then _ else _) = _
        rcases h with ⟨heq, rfl⟩ | ⟨hne, h⟩
        · rw [if_pos heq.symm]
          rfl
        · rw [if_neg (Ne.symm hne)]
          exact h
  · rw [if_neg hp]
    simp only [Option.some.injEq, hp, false_and, or_false]
    constructor
    · rintro rfl
      exact ⟨by omega, rfl⟩
    · rintro ⟨-, rfl⟩
      rfl

theorem isPresentLoop_walk (h : isPresentLoop childKey body n p = some b) :
    ∃ k, SearchEnds body childKey ((lenEnd body)^[k] p) ∧ ∀ i < k,
      ¬ SearchEnds body childKey ((lenEnd body)^[i] p) ∧ ItemInside body ((lenEnd body)^[i] p) := by
  induction n generalizing p with
  | zero => cases h
  | succ n ih =>
    rcases isPresentLoop_succ.1 h with ⟨hend, -⟩ | ⟨hp, hitem, ⟨hkey, -⟩ | ⟨hkey, hloop⟩⟩
    · exact ⟨0, .inl hend, fun i hi => absurd hi (Nat.not_lt_zero i)⟩
    · exact ⟨0, .inr ⟨hitem, hkey⟩, fun i hi => absurd hi (Nat.not_lt_zero i)⟩
    · obtain ⟨k, hk, hbefore⟩ := ih hloop
      refine ⟨k + 1, hk, ?_⟩
      intro i hi
      cases i with
      | zero =>
        refine ⟨?_, hitem⟩
        rintro (hle | ⟨-, heq⟩)
        · exact absurd hp (not_lt.2 hle)
        · exact hkey heq
      | succ i => exact hbefore i (by omega)

theorem isPresentLoop_of_walk {k : Nat} (hk : SearchEnds body childKey ((lenEnd body)^[k] p))
    (hbefore : ∀ i < k, ItemInside body ((lenEnd body)^[i] p)) (hn : k < n) :
    ∃ b, isPresentLoop childKey body n p = some b := by
  induction k generalizing n p with
  | zero =>
    obtain ⟨n, rfl⟩ := Nat.exists_eq_succ_of_ne_zero (Nat.ne_of_gt hn)
    by_cases hp : p < body.length
    · rcases hk with hle | ⟨hitem, hkey⟩
      · exact absurd hp (not_lt.2 hle)
      · exact ⟨true, isPresentLoop_succ.2 (.inr ⟨hp, hitem, .inl ⟨hkey, rfl⟩⟩)⟩
    · exact ⟨false, isPresentLoop_succ.2 (.inl ⟨not_lt.1 hp, rfl⟩)⟩
  | succ k ih =>
    obtain ⟨n, rfl⟩ := Nat.exists_eq_succ_of_ne_zero (Nat.ne_of_gt (Nat.zero_lt_of_lt hn))
    have hitem := hbefore 0 (Nat.succ_pos k)
    obtain ⟨b, hb⟩ := ih hk (fun i hi => hbefore (i + 1) (by omega)) (Nat.lt_of_succ_lt_succ hn)
    have hp : p < body.length := by
      have hint := hitem.1.2
      simp only [Function.iterate_zero, id_eq] at hint
      omega
    by_cases hkey : keyAt body p = childKey
    · exact ⟨true, isPresentLoop_succ.2 (.inr ⟨hp, hitem, .inl ⟨hkey, rfl⟩⟩)⟩
    · exact ⟨b, isPresentLoop_succ.2 (.inr ⟨hp, hitem, .inr ⟨hkey, hb⟩⟩)⟩

theorem Searchable.of_loop (h : isPresentLoop childKey body n 0 = some b) :
    Searchable body childKey := by
  obtain ⟨k, hk, hbefore⟩ := isPresentLoop_walk h
  intro i hi
  have hik : i < k := by
    by_contra hki
    exact hi k (not_lt.1 hki) hk
  exact ⟨(hbefore i hik).2, fun j hj => ne_of_first_stop hk (fun i hi => (hbefore i hi).1)
    (Nat.le_of_lt hik) hj⟩

theorem Searchable.loop (h : Searchable body childKey) :
    ∃ b, isPresentLoop childKey body (body.length + 1) 0 = some b := by
  classical
  have hstop : ∃ k ≤ (Finset.Ico (0 : Int) body.length).card,
      SearchEnds body childKey ((lenEnd body)^[k] 0) := by
    apply exists_stop
    intro i hi
    obtain ⟨hitem, hne⟩ := h i hi
    have hint := hitem.1
    refine ⟨Finset.mem_Ico.2 ⟨hint.1, ?_⟩, hne⟩
    have hend := hint.2
    omega
  have hfirst : ∃ k, SearchEnds body childKey ((lenEnd body)^[k] 0) :=
    hstop.imp fun k hk => hk.2
  obtain ⟨k, hk, hends⟩ := hstop
  rw [Int.card_Ico, Int.sub_zero, Int.toNat_natCast] at hk
  refine isPresentLoop_of_walk (Nat.find_spec hfirst) ?_ (n := body.length + 1) ?_
  · intro i hi
    exact (h i fun j hj => Nat.find_min hfirst (lt_of_le_of_lt hj hi)).1
  · exact Nat.lt_succ_of_le ((Nat.find_min' hfirst hends).trans hk)

theorem isPresentLoop_ends_iff :
    (∃ n b, isPresentLoop childKey body n 0 = some b) ↔ Searchable body childKey :=
  ⟨fun ⟨_, _, h⟩ => .of_loop h, fun h => ⟨_, h.loop⟩⟩

end Delete

section Add

variable {body : List Byte}

/-- What the adding loop adds is the body, cut into items. -/
theorem addItemsLoop_eq (pre : List Byte) {post : List Byte} {items : Block}
    (h : addItemsLoop (pre ++ post) n pre.length = some items) :
    (∀ item ∈ items, item.length < 2 ^ 31) ∧ post = items.flatMap strBytes := by
  induction n generalizing pre post items with
  | zero => cases h
  | succ n ih =>
    rw [addItemsLoop] at h
    split at h
    · simp only [Option.bind_eq_bind, Option.bind_eq_some_iff] at h
      obtain ⟨w, hw, item, hitem, items', hloop, h⟩ := h
      cases h
      obtain ⟨hlen, rest, rfl⟩ := readAt_getStr_eq hitem
      have hsize : w = sizeInt item.length := by
        rw [strBytes, List.append_assoc, readAt_append (getInt_parses _)] at hw
        exact (Option.some.inj hw).symm
      rw [hsize, pos_next pre hlen, ← List.append_assoc] at hloop
      obtain ⟨hfit, hrest⟩ := ih _ hloop
      rw [List.flatMap_cons, hrest]
      refine ⟨?_, rfl⟩
      intro i hi
      rcases List.mem_cons.1 hi with rfl | hi
      · exact hlen
      · exact hfit i hi
    · next hend =>
      cases h
      have hnil : post = [] := by
        rw [List.length_append] at hend
        apply List.length_eq_zero_iff.1
        omega
      exact ⟨by simp, hnil⟩

theorem addItemsLoop_ends_iff : (∃ n items, addItemsLoop body n 0 = some items) ↔
    ∃ items : Block, (∀ item ∈ items, item.length < 2 ^ 31) ∧ body = items.flatMap strBytes := by
  constructor
  · rintro ⟨n, items, h⟩
    exact ⟨items, addItemsLoop_eq [] h⟩
  · rintro ⟨items, hfit, rfl⟩
    exact ⟨_, items, addItemsLoop_items hfit (length_items_lt items) []⟩

end Add

/-- The loop over a body that `SPLIT` runs for a stored block ends, and reads only the body: for a
full node the search for the key of each entry, for a header the loop that adds the items. -/
def SplitEnds (srv : Server) (body : List Byte) (old : Block) : Prop :=
  (old.length > srv.MAXENTRIES → ∀ elem ∈ old.tail, ∀ childKey value,
    getKeyValueStr elem = some (childKey, value) →
      ∃ n isPresent, isPresentLoop childKey body n 0 = some isPresent) ∧
  (¬ old.length > srv.MAXENTRIES → old.length = 1 → ∃ n items, addItemsLoop body n 0 = some items)

theorem exists_mapM_iff {f : α → Option β} {l : List α} :
    (∃ bs, l.mapM f = some bs) ↔ ∀ a ∈ l, ∃ b, f a = some b := by
  induction l with
  | nil => simp
  | cons a l ih =>
    rw [List.forall_mem_cons, ← ih]
    simp only [List.mapM_cons, Option.bind_eq_bind, Option.bind_eq_some_iff, Option.pure_def,
      Option.some.injEq]
    constructor
    · rintro ⟨_, b, hb, bs, hbs, rfl⟩
      exact ⟨⟨b, hb⟩, bs, hbs⟩
    · rintro ⟨⟨b, hb⟩, bs, hbs⟩
      exact ⟨_, b, hb, bs, hbs, rfl⟩

theorem deleteItems_ends_iff {body : List Byte} {elems : Block} :
    (∃ block, deleteItems body elems = some block) ↔ ∀ elem ∈ elems, ∃ e,
      getKeyValueStr elem = some e ∧ ∃ b, isPresentLoop e.1 body (body.length + 1) 0 = some b := by
  have hmap : (∃ block, deleteItems body elems = some block) ↔
      ∃ rs, elems.mapM (fun elem => (getKeyValueStr elem).bind fun e =>
        (isPresentLoop e.1 body (body.length + 1) 0).bind fun b => some (elem, b)) = some rs := by
    constructor
    · rintro ⟨_, h⟩
      obtain ⟨rs, hrs, -⟩ := Option.bind_eq_some_iff.1 h
      exact ⟨rs, hrs⟩
    · rintro ⟨rs, hrs⟩
      exact ⟨_, Option.bind_eq_some_iff.2 ⟨rs, hrs, rfl⟩⟩
  rw [hmap, exists_mapM_iff]
  refine forall_congr' fun elem => forall_congr' fun _ => ?_
  constructor
  · rintro ⟨_, h⟩
    obtain ⟨e, he, h⟩ := Option.bind_eq_some_iff.1 h
    obtain ⟨b, hb, -⟩ := Option.bind_eq_some_iff.1 h
    exact ⟨e, he, b, hb⟩
  · rintro ⟨e, he, b, hb⟩
    exact ⟨(elem, b), by rw [he, Option.bind_some, hb, Option.bind_some]⟩

/-- The block is answered exactly if the loops end, where the entries of the block can be read. -/
theorem adjustSplit_ends_iff {srv : Server} {body : List Byte} {old : Block}
    (hread : ∀ elem ∈ old.tail, ∃ e, getKeyValueStr elem = some e) :
    (∃ r, adjustSplit srv body old = some r) ↔ SplitEnds srv body old := by
  rw [adjustSplit, SplitEnds]
  by_cases hfull : old.length > srv.MAXENTRIES
  · simp only [hfull, if_true, not_true, false_implies, and_true, true_implies]
    have hblock : (∃ r, (do
        return (old.take 1 ++ (← deleteItems body old.tail), DhashStat.DHASH_OK)) = some r) ↔
        ∃ block, deleteItems body old.tail = some block := by
      simp [Option.bind_eq_some_iff]
    rw [hblock, deleteItems_ends_iff]
    refine forall_congr' fun elem => forall_congr' fun helem => ?_
    obtain ⟨⟨key, value⟩, he⟩ := hread elem helem
    simp only [he, Option.some.injEq]
    constructor
    · rintro ⟨-, rfl, b, hb⟩ childKey value' heq
      cases heq
      exact ⟨_, b, hb⟩
    · intro h
      obtain ⟨b, hb⟩ := (isPresentLoop_ends_iff.1 (h key value rfl)).loop
      exact ⟨_, rfl, b, hb⟩
  · simp only [hfull, if_false, false_implies, true_and, not_false_eq_true, true_implies]
    by_cases hone : old.length = 1
    · simp only [hone, if_true, true_implies]
      constructor
      · rintro ⟨r, hr⟩
        simp only [Option.bind_eq_bind, Option.bind_eq_some_iff] at hr
        obtain ⟨items, hadd, -⟩ := hr
        exact ⟨_, items, hadd⟩
      · intro h
        obtain ⟨items, hfit, rfl⟩ := addItemsLoop_ends_iff.1 h
        have hadd : addItemsLoop (items.flatMap strBytes) ((items.flatMap strBytes).length + 1) 0 =
            some items := addItemsLoop_items hfit (length_items_lt items) []
        exact ⟨(old ++ items, .DHASH_OK), by rw [hadd]; rfl⟩
    · simp [hone]

/-- The loops of `SPLIT` end inside of a body exactly if each search finds its items in the body and
comes nowhere twice, and the body for a header is a sequence of items. -/
theorem split_ends_iff (srv : Server) (body : List Byte) (old : Block) :
    SplitEnds srv body old ↔
      (old.length > srv.MAXENTRIES → ∀ elem ∈ old.tail, ∀ childKey value,
        getKeyValueStr elem = some (childKey, value) → Searchable body childKey) ∧
      (old.length = 1 → ∃ items : Block, (∀ item ∈ items, item.length < 2 ^ 31) ∧
        body = items.flatMap strBytes) := by
  have hheader : (¬ old.length > srv.MAXENTRIES → old.length = 1 →
      ∃ n items, addItemsLoop body n 0 = some items) ↔ (old.length = 1 →
      ∃ items : Block, (∀ item ∈ items, item.length < 2 ^ 31) ∧ body = items.flatMap strBytes) := by
    have hpos := srv.pos
    rw [addItemsLoop_ends_iff]
    exact ⟨fun h hone => h (by omega) hone, fun h _ hone => h hone⟩
  rw [SplitEnds, hheader]
  simp only [isPresentLoop_ends_iff]

def returningBody : List Byte := intBytes (-4) ++ intBytes 0

theorem isPresentLoop_returning (n : Nat) : isPresentLoop [1] returningBody n 0 = none := by
  induction n with
  | zero => rfl
  | succ n ih => exact ih

/-- A full node with one entry, whose search runs forever. -/
theorem split_runs_forever : ¬ ∀ srv body old, SplitEnds srv body old := by
  intro h
  have hkey : getKeyValueStr (elemBytes ([1], [])) = some ([1], []) :=
    getKeyValueStr_elemBytes (by decide)
  obtain ⟨n, isPresent, hloop⟩ := (h ⟨1, by decide, fun _ => false, false, false⟩ returningBody
    [headerBytes [] ⟨0, 1, 1, 1, 0, 0⟩, elemBytes ([1], [])]).1 (by decide) _
    (List.mem_singleton.2 rfl) _ _ hkey
  rw [isPresentLoop_returning] at hloop
  cases hloop

end XGossip
