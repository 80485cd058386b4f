namespace XGossip
set_option autoImplicit true

/-- The types of the messages between peers and of the messages to index nodes. -/
inductive InsertType where
  | UPDATE | SPLIT | UPDATEHDRLOCK | UPDATEHDR | NONE | REPLACE | SPLITSPECIAL | REPLACESIG
  | UPDATEIFPRESENT | JUSTAPPEND | UPDATEVAL | UPDATEVALIFPRESENT | QUERYX | QUERYS | VXGOSSIP
  | INITGOSSIP | INFORMTEAM | XGOSSIP | INVALID | XGOSSIPC | QUERYXP | VXGOSSIPC | BCAST | BCASTC
deriving DecidableEq

def InsertType.code (type : InsertType) : BitVec 32 := BitVec.ofInt 32 (-1 - type.ctorIdx)

theorem InsertType.code_injective (h : InsertType.code a = InsertType.code b) : a = b := by
  revert h
  cases a <;> cases b <;> decide

theorem InsertType.code_inj : InsertType.code a = InsertType.code b ↔ a = b :=
  ⟨code_injective, fun h => h ▸ rfl⟩

end XGossip
