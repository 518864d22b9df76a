import GapKernel.ForLoop
import GapKernel.Plist
import GapKernel.PlistKTNum
import GapKernel.Range.Impl

/-!
This module contains the functions that select the elements of a plain list at several positions,
and assign elements to several positions. The positions are a range or a list.
-/

/--
An object in a list. A large integer and any other object is a bag, the address of which is a number
for `INT_INTOBJ`.
-/
inductive PlistObj (α : Type) where
  | int (n : Int)
  | large (z : Int) (addr : Int)
  | other (a : α) (addr : Int)
  deriving DecidableEq, Repr

abbrev PlistEntries (α : Type) := List (Option (PlistObj α))

structure PlistBag (α : Type) where
  tnum : PlistKTNum
  entries : PlistEntries α
  deriving DecidableEq, Repr

namespace PlistImpl

variable {α : Type}

-- `INT_INTOBJ`, also for an argument that is no small integer.
def intIntObj (obj : Option (PlistObj α)) : Int :=
  match obj with
  | none => 0
  | some (.int n) => n
  | some (.large _ addr) => addr
  | some (.other _ addr) => addr

def isIntObj (obj : Option (PlistObj α)) : Bool :=
  match obj with
  | some (.int _) => true
  | _ => false

-- `ELM_PLIST`, which does not test the position.
def elmAt (list : PlistEntries α) (pos : Int) : Result (Option (PlistObj α)) :=
  elmPlist list pos.toNat

-- `T_INTPOS` is the type of the positive large integers.
def isPossPlist (list : PlistEntries α) : Bool :=
  list.all fun elm =>
    match elm with
    | none => false
    | some (.int n) => ¬n ≤ 0
    | some (.large z _) => 0 < z
    | some (.other _ _) => false

def isPossRange (list : RangeBag) : Bool :=
  if list.low ≤ 0 then
    false
  else if list.last ≤ 0 then
    false
  else
    true

def noValue (pos : Int) : Fault :=
  .quit "List Elements: <list>[%d] must have an assigned value" pos 0

def elmsPlistElm (list : PlistEntries α) (pos : Int) : Result (Option (PlistObj α)) := do
  match ← elmAt list pos with
  | none => throw (noValue pos)
  | some elm => return some elm

def elmsPlistList (list poss : PlistEntries α) : Result (PlistBag α) := do
  if poss.length = 0 then
    return ⟨.empty, []⟩
  else
    let lenPoss := poss.length
    let elms ← forLoop (fun i elms => do
      let pos := intIntObj (← elmPlist poss i)
      if list.length < pos then
        throw (noValue pos)
      else
        setElmPlist elms i (← elmsPlistElm list pos)) lenPoss 1 (List.replicate lenPoss none)
    return ⟨.dense, elms⟩

-- The state of a loop over a range is the new list and the position.
def elmsLoop (elm : Int → Result (Option (PlistObj α))) (poss : RangeBag)
    : Result (PlistEntries α) := do
  let lenPoss := poss.len.toNat
  let (elms, _) ← forLoop (fun i s => do
    let elms ← setElmPlist s.1 i (← elm s.2)
    return (elms, s.2 + poss.inc)) lenPoss 1 (List.replicate lenPoss none, poss.low)
  return elms

def elmsPlistRange (list : PlistEntries α) (poss : RangeBag) : Result (PlistBag α) := do
  if poss.len = 0 then
    return ⟨.empty, []⟩
  else if list.length < poss.low then
    throw (noValue poss.low)
  else if list.length < poss.last then
    throw (noValue poss.last)
  else
    return ⟨.dense, ← elmsLoop (elmsPlistElm list) poss⟩

-- The tag of the result, if the order of the list is not kept.
def elmsTnum (tnum otherwise : PlistKTNum) : PlistKTNum :=
  if tnum.isRect then
    .tabRect
  else if tnum.isTable then
    .tab
  else if tnum.isCyc then
    .cyc
  else if tnum = .ffe then
    .ffe
  else if tnum.isHomog then
    .hom
  else
    otherwise

-- `RESET_FILT_LIST` for `FN_IS_NHOMOG`
def resetNhomog (tnum : PlistKTNum) : PlistKTNum :=
  if tnum.isNhomog then .dense else tnum

def elmsPlistDenseList (list poss : PlistBag α) : Result (PlistBag α) := do
  if poss.entries.length = 0 then
    return ⟨.empty, []⟩
  else
    let lenPoss := poss.entries.length
    let tnum :=
      if list.tnum.isSsort ∧ poss.tnum.isSsort then
        resetNhomog list.tnum
      else
        elmsTnum list.tnum .dense
    let elms ← forLoop (fun i elms => do
      let p ← elmPlist poss.entries i
      if ¬isIntObj p then
        throw (.quit "List Elements: position is too large for this type of list" 0 0)
      else
        let pos := intIntObj p
        if list.entries.length < pos then
          throw (noValue pos)
        else
          setElmPlist elms i (← elmAt list.entries pos)) lenPoss 1 (List.replicate lenPoss none)
    return ⟨tnum, elms⟩

def elmsPlistDenseRange (list : PlistBag α) (poss : RangeBag) : Result (PlistBag α) := do
  if poss.len = 0 then
    return ⟨.empty, []⟩
  else if poss.low < 1 ∨ list.entries.length < poss.low then
    throw (noValue poss.low)
  else if poss.last < 1 ∨ list.entries.length < poss.last then
    throw (noValue poss.last)
  else
    let tnum :=
      if list.tnum.isSsort ∧ 0 < poss.inc then list.tnum else elmsTnum list.tnum .plist
    return ⟨tnum, ← elmsLoop (elmAt list.entries) poss⟩

/-!
This section contains the assignment. The positions and the values may be the list that is changed.
-/

inductive Operand (α : Type) where
  | plist (list : PlistBag α)
  | same
  deriving DecidableEq, Repr

inductive Positions (α : Type) where
  | plist (list : Operand α)
  | range (list : RangeBag)
  deriving DecidableEq, Repr

def Operand.bag (list : PlistBag α) (x : Operand α) : PlistBag α :=
  match x with
  | .plist x => x
  | .same => list

-- `ELMW_LIST`
def Operand.elmw (x : Operand α) (list : PlistEntries α) (i : Nat) : Result (Option (PlistObj α)) :=
  match x with
  | .plist x => elmPlist x.entries i
  | .same => elmPlist list i

def elmsPlist (list : PlistBag α) (poss : Positions α) : Result (PlistBag α) :=
  match poss with
  | .plist poss => elmsPlistList list.entries (poss.bag list).entries
  | .range poss => elmsPlistRange list.entries poss

def elmsPlistDense (list : PlistBag α) (poss : Positions α) : Result (PlistBag α) :=
  match poss with
  | .plist poss => elmsPlistDenseList list (poss.bag list)
  | .range poss => elmsPlistDenseRange list poss

-- `GROW_PLIST` and `SET_LEN_PLIST`, the new entries are not bound.
def growPlist (list : PlistEntries α) (max : Int) : PlistEntries α :=
  if list.length < max then
    list ++ List.replicate (max.toNat - list.length) none
  else
    list

def asssPlistList (list : PlistEntries α) (poss vals : Operand α) (lenPoss : Nat)
    : Result (PlistEntries α) := do
  let max ← forLoop (fun i max => do
    let pos := intIntObj (← poss.elmw list i)
    return if max < pos then pos else max) lenPoss 1 (list.length : Int)
  forLoop (fun i list => do
    let pos := intIntObj (← poss.elmw list i)
    let val ← vals.elmw list i
    setElmPlist list pos.toNat val) lenPoss 1 (growPlist list max)

def asssPlistRange (list : PlistEntries α) (poss : RangeBag) (vals : Operand α)
    : Result (PlistEntries α) := do
  let max : Int := list.length
  let max := if max < poss.low then poss.low else max
  let max := if max < poss.last then poss.last else max
  let (list, _) ← forLoop (fun i s => do
    let val ← vals.elmw s.1 i
    let list ← setElmPlist s.1 s.2.toNat val
    return (list, s.2 + poss.inc)) poss.len.toNat 1 (growPlist list max, poss.low)
  return list

def asssPlist (list : PlistBag α) (poss : Positions α) (vals : Operand α)
    : Result (PlistBag α) := do
  match poss with
  | .plist poss =>
    return ⟨list.tnum, ← asssPlistList list.entries poss vals (poss.bag list).entries.length⟩
  | .range poss => return ⟨list.tnum, ← asssPlistRange list.entries poss vals⟩

def asssPlistXXX (list : PlistBag α) (poss : Positions α) (vals : Operand α)
    : Result (PlistBag α) :=
  asssPlist { list with tnum := .plist } poss vals

end PlistImpl
