import XGossip.Index.Retry

namespace XGossip
set_option autoImplicit true

open Codec

/-- What the clients call a document: a name and a hash sign, in a C string. -/
structure Docid where
  name : List Byte
  noZero : 0 ∉ name

def Docid.bytes (docid : Docid) : List Byte := docid.name ++ [35]

/-- `makeDocid`: concatenate sig and docid. -/
def makeDocid (sig : Sig) (docid : List Byte) : Option (List Byte) :=
  alloc (intBytes (sizeInt sig.length) ++ (sig.flatMap intBytes ++ strBytes docid))

/-- The keys of documents, in an index of signatures and in an index of values. -/
inductive DocKey where
  | text (docid : Docid)
  | value (sig : Sig) (docid : Docid) (hsig : sig ≠ [])

def DocKey.bytes : DocKey → Option (List Byte)
  | text docid => some docid.bytes
  | value sig docid _ => makeDocid sig docid.bytes

/-- The bytes of a size up to its first zero byte have a hash sign. The fourth one is too small. -/
def HashInSize (n : Nat) : Prop :=
  n % 256 = 35 ∨ n % 256 ≠ 0 ∧ (n / 256 % 256 = 35 ∨ n / 256 % 256 ≠ 0 ∧ n / 65536 % 256 = 35)

/-- No byte of a size is zero, for which it has to be at least `2 ^ 24`. -/
def NoZeroInSize (n : Nat) : Prop :=
  n % 256 ≠ 0 ∧ n / 256 % 256 ≠ 0 ∧ n / 65536 % 256 ≠ 0 ∧ n / 16777216 ≠ 0

/-- The keys whose hash sign a C string shows: that of a value begins with the number of POLYs. -/
def DocKey.Shown : DocKey → Prop
  | text _ => True
  | value sig docid _ => HashInSize sig.length ∨
      NoZeroInSize sig.length ∧ containsHash (sig.flatMap intBytes ++ strBytes docid.bytes)

section Guard

theorem containsHash_cons (b : Byte) (bs : List Byte) :
    containsHash (b :: bs) ↔ b = 35 ∨ b ≠ 0 ∧ containsHash bs := by
  by_cases hb : b = 0
  · simp [containsHash, hb]
  · rw [containsHash, containsHash, List.takeWhile_cons_of_pos (by simpa using hb)]
    have hb' : ¬ b = 0#8 := hb
    simp [hb', eq_comm (a := 35#8)]

theorem containsHash_append (as bs : List Byte) :
    containsHash (as ++ bs) ↔ containsHash as ∨ 0 ∉ as ∧ containsHash bs := by
  induction as with
  | nil => simp [containsHash]
  | cons a as ih =>
    rw [List.cons_append, containsHash_cons, containsHash_cons, ih, List.mem_cons, not_or]
    by_cases ha : a = 35
    · simp [ha]
    · tauto

theorem Docid.containsHash (docid : Docid) : containsHash docid.bytes := by
  rw [Docid.bytes, containsHash_append]
  exact .inr ⟨docid.noZero, by decide⟩

theorem intBytes_sizeInt (h : n < 2 ^ 31) : intBytes (sizeInt n) =
    [BitVec.ofNat 8 n, BitVec.ofNat 8 (n / 256), BitVec.ofNat 8 (n / 65536),
      BitVec.ofNat 8 (n / 16777216)] := by
  rw [intBytes, sizeInt_toNat h]
  simp only [toLE, Nat.div_div_eq_div_mul]

theorem byte_eq_iff (n : Nat) (h : b < 256) : BitVec.ofNat 8 n = BitVec.ofNat 8 b ↔ n % 256 = b := by
  rw [← BitVec.toNat_inj, BitVec.toNat_ofNat, BitVec.toNat_ofNat, Nat.mod_eq_of_lt h]

theorem containsHash_size (h : n < 2 ^ 29) :
    containsHash (intBytes (sizeInt n)) ↔ HashInSize n := by
  have hhash : ∀ m, BitVec.ofNat 8 m = 35 ↔ m % 256 = 35 := fun m => byte_eq_iff m (by decide)
  have hzero : ∀ m, BitVec.ofNat 8 m = 0 ↔ m % 256 = 0 := fun m => byte_eq_iff m (by decide)
  have hlast : n / 16777216 % 256 ≠ 35 := by omega
  have hnil : containsHash [] = false := rfl
  rw [intBytes_sizeInt (by omega), HashInSize]
  simp only [containsHash_cons, hhash, hzero, hlast, hnil, Bool.false_eq_true, and_false, or_false,
    ne_eq]

theorem zero_not_mem_size (h : n < 2 ^ 29) : 0 ∉ intBytes (sizeInt n) ↔ NoZeroInSize n := by
  have hzero : ∀ m, 0 = BitVec.ofNat 8 m ↔ m % 256 = 0 := fun m =>
    eq_comm.trans (byte_eq_iff m (by decide))
  have hlast : n / 16777216 % 256 = n / 16777216 := Nat.mod_eq_of_lt (by omega)
  rw [intBytes_sizeInt (by omega), NoZeroInSize]
  simp only [List.mem_cons, List.not_mem_nil, or_false, hzero, hlast, not_or, ne_eq]

theorem DocKey.containsHash_iff {k : DocKey} (h : k.bytes = some key) :
    containsHash key ↔ k.Shown := by
  cases k with
  | text docid =>
    obtain rfl := Option.some.inj h
    exact iff_of_true docid.containsHash trivial
  | value sig docid hsig =>
    obtain ⟨rfl, hlen⟩ := alloc_eq_some h
    have hsize : sig.length < 2 ^ 29 := by
      simp only [List.length_append, length_flatMap_intBytes] at hlen
      omega
    rw [containsHash_append, containsHash_size hsize, zero_not_mem_size hsize]
    rfl

/-- The nodes that take no documents: inner nodes, and a root at level 0 that is being split. -/
def StoredNode.Closed (n : StoredNode srv) : Prop :=
  n.int.level.toInt > 0 ∨ n.int.level = 0 ∧ n.int.random = -1

/-- The server turns an update away exactly if it sees a hash sign in the key. -/
theorem adjustUpdate_retry_iff {n : StoredNode srv} (hn : n.Closed)
    (hkey : (elemBytes (key, sig)).length < 2 ^ 31) :
    adjustUpdate srv type (elemBytes (key, sig)) n.block = some (n.block, .DHASH_RETRYINSERT) ↔
      containsHash key := by
  have hhdr := getHeaderElem_headerBytes n.header_fits
  simp only [StoredNode.block, adjustUpdate, getKeyValue_elemBytes hkey, hhdr,
    Option.bind_eq_bind, Option.bind_some]
  by_cases hhash : containsHash key
  · refine iff_of_true ?_ hhash
    rcases hn with hpos | ⟨hlevel, hrandom⟩
    · rw [if_pos ⟨hpos, hhash⟩]
      rfl
    · rw [if_pos (c := _ ∧ _ ∧ _) ⟨hlevel, hhash, hrandom⟩]
      exact ite_self _
  · rw [if_neg fun h => hhash h.2, if_neg fun h => hhash h.2.1]
    refine iff_of_false ?_ hhash
    intro h
    obtain ⟨updated, -, h⟩ := Option.bind_eq_some_iff.1 h
    split at h
    · simp at h
    · split at h
      · simp at h
      · split at h <;> simp at h

/-- A document is kept out of a node that takes none exactly if the key shows its hash sign. -/
theorem documents_refused_iff {n : StoredNode srv} {k : DocKey} (hn : n.Closed)
    (ht : type = .UPDATE ∨ type = .UPDATEVAL) (hk : k.bytes = some key)
    (hm : makeKeyValue key sig type = some elem) :
    adjustData srv [elem] n.block = some (n.block, .DHASH_RETRYINSERT) ↔ k.Shown := by
  have hupdate : type ∈ updateTypes := by
    rcases ht with rfl | rfl <;> decide
  obtain ⟨rfl, hlen⟩ := makeKeyValue_eq_some hupdate hm
  rw [adjustData_update hupdate, adjustUpdate_retry_iff hn hlen]
  exact DocKey.containsHash_iff hk

end Guard

def innerNode : StoredNode twoServer where
  key := [78]
  int := ⟨0, 1, 1, 2, 1, 7⟩
  entries := [([65], [3, 9])]
  nodup := by decide
  length_le := by decide
  header_fits := by decide
  entry_fits := by decide

def oneDocid : Docid := ⟨[49, 46, 104], by decide⟩

theorem documents_refused_text :
    adjustData twoServer [intBytes InsertType.UPDATE.code ++ elemBytes (oneDocid.bytes, [7])]
      innerNode.block = some (innerNode.block, .DHASH_RETRYINSERT) := by
  have hn : innerNode.Closed := .inl (by decide)
  have hm : makeKeyValue oneDocid.bytes [7] .UPDATE =
      some (intBytes InsertType.UPDATE.code ++ elemBytes (oneDocid.bytes, [7])) := by decide
  exact (documents_refused_iff (k := .text oneDocid) hn (.inl rfl) rfl hm).2 trivial

/-- A value of a document whose signature has one POLY enters the inner node. -/
theorem value_enters_inner_node : ¬ ∀ (srv : Server) (n : StoredNode srv) (k : DocKey)
    (type : InsertType) (key : List Byte) (sig : Sig) (elem : List Byte), n.Closed →
      type = .UPDATE ∨ type = .UPDATEVAL → k.bytes = some key →
      makeKeyValue key sig type = some elem →
      adjustData srv [elem] n.block = some (n.block, .DHASH_RETRYINSERT) := by
  intro h
  have hk : (DocKey.value [11] oneDocid (by decide)).bytes =
      some (intBytes 1 ++ (intBytes 11 ++ strBytes oneDocid.bytes)) := by decide
  have hm : makeKeyValue (intBytes 1 ++ (intBytes 11 ++ strBytes oneDocid.bytes)) [5, 5]
      .UPDATEVAL = some (intBytes InsertType.UPDATEVAL.code ++
        elemBytes (intBytes 1 ++ (intBytes 11 ++ strBytes oneDocid.bytes), [5, 5])) := by decide
  have hclosed : innerNode.Closed := .inl (by decide)
  have hr := h twoServer innerNode _ _ _ _ _ hclosed (.inr rfl) hk hm
  rw [adjustData_update (by decide), adjustUpdate_retry_iff hclosed (by decide)] at hr
  exact absurd hr (by decide)

end XGossip
