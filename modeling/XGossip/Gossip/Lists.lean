import Mathlib.Algebra.BigOperators.Group.List.Basic
import Mathlib.Algebra.Field.Rat
import Mathlib.Algebra.Group.Prod
import Mathlib.Algebra.Order.Field.Rat
import XGossip.Sig

namespace XGossip
set_option autoImplicit true

/-- The map from signatures to `<freq,weight>`. Only the first two elements of a stored vector
are ever read, so `push_back` on a key that already has them is invisible. -/
abbrev MapType (α : Type*) := SortedMap SigLt (α × α)

abbrev Vecomap (α : Type*) := List (MapType α)

def dividefreq (teamvecomap : Vecomap ℚ) (listnum fby wby : Nat) : Vecomap ℚ :=
  teamvecomap.modify listnum (.mapVal fun _ v => (v.1 / fby, v.2 / wby))

/-- The leading `dummysig` is skipped unless a failed insert is being taken back. -/
def multiplyfreq (teamvecomap : Vecomap ℚ) (listnum fby wby : Nat) : Vecomap ℚ :=
  teamvecomap.modify listnum fun m =>
    let skip := m.begin? = some dummysig ∧ fby ≠ wby
    m.mapVal fun k v => if skip ∧ k = dummysig then v else (v.1 * fby, v.2 * wby)

/-- The three parallel vectors of a list, in the order of its keys. -/
def vecomap2vec (m : MapType α) : List Sig × List α × List α :=
  (m.entries.map (·.1), m.entries.map (·.2.1), m.entries.map (·.2.2))

/-- The loop of `add2vecomapx` and `add2vecomapv` that rebuilds a received list. -/
def vec2map (sigList : List Sig) (freqList weightList : List α) : MapType α :=
  (sigList.zip (freqList.zip weightList)).foldl (fun m e => m.push e.1 e.2) .empty

structure Cursor where
  list : MapType ℚ
  itr : Option Sig

/-- The iterator behind the dummies at the front; moving past the end is not defined. -/
def initCursor (vanilla : Bool) (m : MapType ℚ) : Option Cursor := do
  let k ← m.begin?
  let itr := m.next? k
  if vanilla then return ⟨m, itr⟩
  let k' ← itr
  return ⟨m, m.next? k'⟩

def minsigStep (minsig : Option Sig) (c : Cursor) : Option Sig :=
  match c.itr, minsig with
  | none, minsig => minsig
  | some k, none => some k
  | some k, some m => if sigcmp k m then some k else some m

def findMinsig (citr : List Cursor) : Option Sig := citr.foldl minsigStep none

/-- What a list adds for `minsig`: its own entry, or that of `dummysig`. -/
def Cursor.addend (minsig : Sig) (c : Cursor) : Option (ℚ × ℚ) :=
  if c.itr = some minsig then c.list.find? minsig else c.list.find? dummysig

def Cursor.advance (minsig : Sig) (c : Cursor) : Cursor :=
  if c.itr = some minsig then ⟨c.list, c.list.next? minsig⟩ else c

/-- The update of `T_0`, which is also the list that is iterated over. -/
def Cursor.update (minsig : Sig) (v : ℚ × ℚ) (c : Cursor) : Cursor :=
  if c.itr = some minsig then
    let list := c.list.insert minsig v
    ⟨list, list.next? minsig⟩
  else ⟨c.list.push minsig v, c.itr⟩

def mergeStep (minsig : Sig) : List Cursor → Option (List Cursor)
  | [] => none
  | c₀ :: cs => do
    let sums := (← (c₀ :: cs).mapM (Cursor.addend minsig)).sum
    return c₀.update minsig (sums.1 / 2, sums.2 / 2) :: cs.map (Cursor.advance minsig)

/-- All lists are done: `dummysig` of `T_0` takes half of all its weights. -/
def mergeFinish : List Cursor → Option (MapType ℚ)
  | [] => none
  | c₀ :: cs => do
    let sumw := (← (c₀ :: cs).mapM fun c => c.list.find? dummysig).sum.2
    let dummy ← c₀.list.find? dummysig
    return c₀.list.insert dummysig (dummy.1, sumw / 2)

def mergeLoop : Nat → List Cursor → Option (MapType ℚ)
  | 0, _ => none
  | fuel + 1, citr =>
    if citr.all fun c => c.itr.isNone then mergeFinish citr
    else do
      let minsig ← findMinsig citr
      mergeLoop fuel (← mergeStep minsig citr)

/-- Merge the lists of a team into the first one and halve it. Every turn of the loop moves
an iterator, so there are at most as many turns as entries. -/
def mergelists (vanilla : Bool) (teamvecomap : Vecomap ℚ) : Option (Vecomap ℚ) :=
  match teamvecomap with
  | [_] => some (dividefreq teamvecomap 0 2 2)
  | _ => do
    let citr ← teamvecomap.mapM (initCursor vanilla)
    let t ← mergeLoop ((teamvecomap.map SortedMap.size).sum + 1) citr
    return [t]

/-- The `(freq, weight)` a list stands for at a signature it may not mention. -/
def effective (m : MapType ℚ) (s : Sig) : ℚ × ℚ :=
  ((m.find? s).orElse fun _ => m.find? dummysig).getD 0

/-- The dummies lead the list, and `dummysig` has frequency zero. -/
structure WellFormedList (vanilla : Bool) (m : MapType ℚ) : Prop where
  front : if vanilla then m.begin? = some dummysig
    else m.begin? = some hldsig ∧ m.next? hldsig = some dummysig
  dummy : ∃ w, m.find? dummysig = some (0, w)

end XGossip
