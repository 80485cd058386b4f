import XGossip.Index.Stored

namespace XGossip
set_option autoImplicit true

open Codec

section Marshal

/-- An unsigned number in XDR: four bytes, the most significant first. -/
def xdrUInt (n : Nat) : List Byte := (toLE 4 n).reverse

def xdrPad (n : Nat) : Nat := (4 - n % 4) % 4

/-- `opaque data<>` -/
def xdrOpaque (data : List Byte) : List Byte :=
  xdrUInt data.length ++ (data ++ List.replicate (xdrPad data.length) 0)

/-- `dhblock_noauth::marshal_block` -/
def marshalBlock (elems : Block) : List Byte := xdrUInt elems.length ++ elems.flatMap xdrOpaque

def getUInt : Reader Nat := do return ofLE (← get 4).reverse

def getOpaque : Reader (List Byte) := do
  let len ← getUInt
  let data ← get len
  let _ ← get (xdrPad len)
  return data

def getBlock : Reader Block := do repeatM getOpaque (← getUInt)

/-- `dhblock_noauth::get_payload`: data that cannot be unmarshalled has no elements. -/
def getPayload (data : List Byte) : Block := ((runReader getBlock data).map Prod.fst).getD []

theorem getUInt_parses (h : n < 2 ^ 32) : Parses getUInt (xdrUInt n) n := by
  have hlen : (xdrUInt n).length = 4 := by simp [xdrUInt]
  have hp := (Parses.get hlen).bind_pure fun bs => ofLE bs.reverse
  rwa [xdrUInt, List.reverse_reverse, ofLE_toLE (by simpa using h)] at hp

theorem getOpaque_parses (h : data.length < 2 ^ 32) : Parses getOpaque (xdrOpaque data) data := by
  refine (getUInt_parses h).bind ((Parses.get rfl).bind ?_)
  exact (Parses.get (List.length_replicate ..)).bind_pure fun _ => data

theorem getPayload_marshalBlock (hlen : elems.length < 2 ^ 32)
    (helems : ∀ elem ∈ elems, elem.length < 2 ^ 32) :
    getPayload (marshalBlock elems) = elems := by
  have hrest : Parses (repeatM getOpaque elems.length) (elems.flatMap xdrOpaque) elems :=
    Parses.repeatM fun elem helem => getOpaque_parses (helems elem helem)
  have hblock : Parses getBlock (marshalBlock elems) elems := (getUInt_parses hlen).bind hrest
  rw [getPayload, run_exact hblock, Option.getD_some]

theorem marshalBlock_ne_nil (elems : Block) : marshalBlock elems ≠ [] := by
  intro h
  have hlen := congrArg List.length h
  simp [marshalBlock, xdrUInt] at hlen

end Marshal

section Store

/-- The key to store data under; the low bits are zero, and some high bits must be left. -/
def idToDbkey (key : ChordID) : Option ChordID :=
  if key / 2 ^ 32 * 2 ^ 32 > 0 then some (key / 2 ^ 32 * 2 ^ 32) else none

abbrev Database := ChordID → Option (List Byte)

def msgType (new : Block) : Option (BitVec 32) := do
  let elem ← new.head?
  let (type, _) ← runReader getInt elem
  return type

/-- Where `adjust_data` returns an empty string instead of a block: for the messages of the gossip
process, and for an update of a node that has no header. -/
def returnsEmpty (new old : Block) : Bool :=
  match msgType new with
  | none => false
  | some type => type ∈ gossipTypes.map InsertType.code ∨
    (new.length ≤ 1 ∧ type ∈ updateTypes.map InsertType.code ∧ old = [])

/-- `adjust_data` on the strings that are stored and sent. -/
def adjustStr (srv : Server) (newData prevData : List Byte) : Option (List Byte × DhashStat) := do
  let old := if prevData.length > 0 then getPayload prevData else []
  let new := getPayload newData
  let (elems, stat) ← adjustData srv new old
  return (if returnsEmpty new old then [] else marshalBlock elems, stat)

/-- `dhblock_noauth_srv::real_store`: the database afterwards and the answer. -/
def realStore (srv : Server) (db : Database) (dbkey : ChordID) (oldData newData : List Byte) :
    Option (Database × DhashStat) := do
  let (dprep, resStatus) ← adjustStr srv newData oldData
  match resStatus with
  | .DHASH_OK =>
    if dprep ≠ oldData then
      let kdb ← idToDbkey dbkey
      let db := if oldData.length > 0 then Function.update db kdb none else db
      return (Function.update db dbkey (some dprep), .DHASH_OK)
    else return (db, .DHASH_OK)
  | stat => return (db, stat)

/-- `dhblock_replicated_srv::store`: a block that is not found is empty. -/
def store (srv : Server) (db : Database) (key : ChordID) (newData : List Byte) :
    Option (Database × DhashStat) := do
  let dbkey ← idToDbkey key
  realStore srv db dbkey ((db dbkey).getD []) newData

theorem idToDbkey_idem (h : idToDbkey key = some dbkey) : idToDbkey dbkey = some dbkey := by
  simp only [idToDbkey, Option.ite_none_right_eq_some, Option.some.injEq] at h ⊢
  obtain ⟨hpos, rfl⟩ := h
  have hdiv : key / 2 ^ 32 * 2 ^ 32 / 2 ^ 32 = key / 2 ^ 32 := Nat.mul_div_cancel _ (by decide)
  rw [hdiv]
  exact ⟨hpos, rfl⟩

def Database.block (db : Database) (dbkey : ChordID) : Block :=
  let data := (db dbkey).getD []
  if data.length > 0 then getPayload data else []

theorem adjustStr_eq (hadj : adjustData srv (getPayload newData)
      (if oldData.length > 0 then getPayload oldData else []) = some (b, stat)) :
    adjustStr srv newData oldData = some (
      if returnsEmpty (getPayload newData) (if oldData.length > 0 then getPayload oldData else [])
      then [] else marshalBlock b, stat) := by
  simp only [adjustStr, hadj, Option.bind_eq_bind, Option.bind_some, Option.pure_def]

/-- An update of a node without a header is not accepted. -/
theorem corrupt_of_returnsEmpty {new old : Block} (h : returnsEmpty new old)
    (hg : ∀ type, msgType new = some type → type ∉ gossipTypes.map InsertType.code)
    (hadj : adjustData srv new old = some (b, stat)) : stat = .DHASH_CORRUPTHDR := by
  cases new with
  | nil => simp [adjustData] at hadj
  | cons elem rest =>
    cases hr : runReader getInt elem with
    | none => simp [adjustData, hr] at hadj
    | some r =>
      have hmsg : msgType (elem :: rest) = some r.1 := by simp [msgType, hr]
      have hnot := hg _ hmsg
      simp only [returnsEmpty, hmsg, hnot, false_or, decide_eq_true_eq] at h
      obtain ⟨hlen, htype, rfl⟩ := h
      obtain ⟨type, ht, hcode⟩ := List.mem_map.1 htype
      have hlen' : ¬ (elem :: rest).length > 1 := by omega
      simp only [adjustData, List.head?_cons, hr, Option.bind_eq_bind, Option.bind_some,
        if_neg hnot, if_neg hlen'] at hadj
      rw [← hcode] at hadj
      simp only [updateTypes, List.mem_cons, List.not_mem_nil, or_false] at ht
      rcases ht with rfl | rfl | rfl | rfl | rfl <;>
      · simp only [adjustNode, InsertType.code_inj, reduceCtorEq, if_true, if_false, adjustUpdate,
          Option.some.injEq, Prod.mk.injEq] at hadj
        exact hadj.2.symm

/-- On the database, an index message does to the block under its key what `adjust_data` does to the
elements of the block, and nothing to the other blocks. -/
theorem store_block (hk : idToDbkey key = some dbkey)
    (hg : ∀ type, msgType (getPayload newData) = some type →
      type ∉ gossipTypes.map InsertType.code)
    (hadj : adjustData srv (getPayload newData) (Database.block db dbkey) = some (b, stat))
    (hlen : b.length < 2 ^ 32) (helems : ∀ elem ∈ b, elem.length < 2 ^ 32) :
    ∃ db', store srv db key newData = some (db', stat) ∧
      db'.block dbkey = storedAfter (db.block dbkey) (b, stat) ∧
      ∀ k, k ≠ dbkey → db' k = db k := by
  have hstr : adjustStr srv newData ((db dbkey).getD []) = some (
      if returnsEmpty (getPayload newData) (db.block dbkey) then [] else marshalBlock b, stat) :=
    adjustStr_eq hadj
  by_cases hstat : stat = .DHASH_OK
  · subst hstat
    have hempty : ¬ returnsEmpty (getPayload newData) (db.block dbkey) :=
      fun he => DhashStat.noConfusion (corrupt_of_returnsEmpty he hg hadj)
    rw [if_neg hempty] at hstr
    have hpos : (marshalBlock b).length > 0 := List.length_pos_iff.2 (marshalBlock_ne_nil b)
    simp only [store, hk, realStore, hstr, Option.bind_eq_bind, Option.bind_some]
    split
    · simp only [idToDbkey_idem hk, Option.bind_some]
      refine ⟨_, rfl, ?_, fun k hne => ?_⟩
      · simp only [Database.block, Function.update_self, Option.getD_some, if_pos hpos,
          getPayload_marshalBlock hlen helems, storedAfter]
      · rw [Function.update_of_ne hne]
        split
        · rw [Function.update_of_ne hne]
        · rfl
    · next hsame =>
      refine ⟨db, rfl, ?_, fun _ _ => rfl⟩
      have hdata := not_not.1 hsame
      simp only [Database.block, ← hdata, if_pos hpos, getPayload_marshalBlock hlen helems,
        storedAfter]
  · refine ⟨db, ?_, ?_, fun _ _ => rfl⟩
    · simp only [store, hk, realStore, hstr, Option.bind_eq_bind, Option.bind_some]
      cases stat with
      | DHASH_OK => exact (hstat rfl).elim
      | _ => rfl
    · cases stat with
      | DHASH_OK => exact (hstat rfl).elim
      | _ => rfl

end Store

section Gossip

variable {srv : Server} {db : Database}

theorem adjustStr_gossip (ht : type ∈ gossipTypes)
    (hnew : getPayload newData = (intBytes type.code ++ body) :: rest) (oldData : List Byte) :
    adjustStr srv newData oldData =
      some ([], if srv.gdiscard ∨ !srv.connects then .DHASH_ERR else .DHASH_OK) := by
  have hcode : type.code ∈ gossipTypes.map InsertType.code := List.mem_map_of_mem ht
  have hread := run_append (getInt_parses type.code) body
  obtain ⟨r, hr, hr₁⟩ := Option.map_eq_some_iff.1 hread
  have hempty : ∀ old, returnsEmpty ((intBytes type.code ++ body) :: rest) old = true := by
    intro old
    have hmsg : msgType ((intBytes type.code ++ body) :: rest) = some type.code := by
      simp [msgType, hr, hr₁]
    simp only [returnsEmpty, hmsg, hcode, true_or, decide_true]
  simp only [adjustStr, hnew, adjustData, List.head?_cons, hr, hr₁, if_pos hcode,
    Option.bind_eq_bind, Option.bind_some, hempty, if_true, Option.pure_def]

/-- A message of the gossip process leaves the database alone just if it is rejected, or nothing
is stored under its key. -/
theorem gossip_store_iff (ht : type ∈ gossipTypes)
    (hnew : getPayload newData = (intBytes type.code ++ body) :: rest)
    (hk : idToDbkey key = some dbkey) :
    ∃ db' stat, store srv db key newData = some (db', stat) ∧
      ((∀ k, db' k = db k) ↔ (db dbkey).getD [] = [] ∨ srv.gdiscard ∨ srv.connects = false) := by
  simp only [store, hk, realStore, adjustStr_gossip ht hnew, Option.bind_eq_bind, Option.bind_some]
  by_cases hrej : srv.gdiscard ∨ !srv.connects
  · simp only [if_pos hrej]
    refine ⟨db, _, rfl, iff_of_true (fun _ => rfl) (.inr ?_)⟩
    simpa using hrej
  · simp only [if_neg hrej]
    split
    · next hne =>
      simp only [idToDbkey_idem hk, Option.bind_some]
      refine ⟨_, _, rfl, iff_of_false ?_ ?_⟩
      · intro hall
        have hself := hall dbkey
        rw [Function.update_self] at hself
        exact hne (by rw [← hself, Option.getD_some])
      · rintro (h | h)
        · exact hne h.symm
        · exact hrej (by simpa using h)
    · next heq =>
      exact ⟨db, _, rfl, iff_of_true (fun _ => rfl) (.inl (not_not.1 heq).symm)⟩

/-- A server that hands gossip messages on, and a message of the gossip process. -/
def emptyGossip : List Byte := marshalBlock [intBytes InsertType.VXGOSSIP.code]

def gossipKey : ChordID := 2 ^ 32

def nodeDatabase : Database :=
  fun k => if k = gossipKey then some (marshalBlock fullRoot.block) else none

theorem gossip_store_empty : ∃ db' stat,
    store twoServer (fun _ => none) gossipKey emptyGossip = some (db', stat) ∧ ∀ k, db' k = none := by
  have hnew : getPayload emptyGossip = (intBytes InsertType.VXGOSSIP.code ++ []) :: [] := by
    decide +kernel
  have hk : idToDbkey gossipKey = some gossipKey := by decide +kernel
  obtain ⟨db', stat, h, hiff⟩ := gossip_store_iff (by decide) hnew hk
  exact ⟨db', stat, h, hiff.2 (.inl rfl)⟩

/-- A gossip message that is handed on erases the node that is stored under its key. -/
theorem gossip_store_erases : ¬ ∀ (srv : Server) (db db' : Database) (key : ChordID)
    (newData : List Byte) (type : InsertType) (body : List Byte) (rest : Block) (stat : DhashStat)
    (o : Option (StoredNode srv)), type ∈ gossipTypes →
    getPayload newData = (intBytes type.code ++ body) :: rest →
    (∀ dbkey, idToDbkey key = some dbkey → db.block dbkey = storedBlock o) →
    store srv db key newData = some (db', stat) → ∀ k, db' k = db k := by
  intro h
  have hstore : (store twoServer nodeDatabase gossipKey emptyGossip).map (fun r => r.1 gossipKey) =
      some (some []) := by decide +kernel
  obtain ⟨⟨db', stat⟩, hr, hempty⟩ := Option.map_eq_some_iff.1 hstore
  have hsame := h twoServer nodeDatabase db' gossipKey emptyGossip .VXGOSSIP [] [] stat
    (some fullRoot) (by decide) (by decide +kernel) (by
      intro dbkey hk
      obtain rfl : gossipKey = dbkey := Option.some.inj (Eq.trans (by decide +kernel) hk)
      decide +kernel) hr gossipKey
  rw [show db' gossipKey = some [] from hempty] at hsame
  exact absurd hsame (by decide +kernel)

end Gossip

end XGossip
