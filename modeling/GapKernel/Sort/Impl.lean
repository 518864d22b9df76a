import GapKernel.Plist
import GapKernel.IntObj

/-!
This module contains the parameters of the sort functions in `sortbase.h`, and their values for
lists with and without a shadow list.
-/

section Basic

/--
The macros of `sortbase.h`. `S` are the arguments of a sort function and what a comparison may
change, `L` the values of a local variable, and `B` the values of the temporary buffer.
-/
structure SortMacros (S L B : Type) where
  lenList : S → Int
  assListToLocal : S → Int → Result L
  assLocalToList : S → Int → L → Result S
  -- `a == b` on two local variables, it compares pointers.
  sameObj : L → L → Bool
  comp : S → L → L → Bool × S
  createTempBuffer : Int → B
  assBufToLocal : B → Int → Result L
  assLocalToBuf : B → Int → L → Result B

structure SortArgs (Obj F : Type) where
  list : List Obj
  func : F

structure SortParaArgs (Obj F : Type) where
  list : List Obj
  shadow : List Obj
  func : F

variable {Obj F : Type} [DecidableEq Obj]

def elmBuffer (buffer : List (Option Obj)) (pos : Int) : Result Obj := do
  match ← elmPlist buffer pos.toNat with
  | some t => return t
  | none => throw .access

/-- `call` is `LT` or the call of a function, with its effect on the state of the comparison. -/
def densePlistMacros (call : F → Obj → Obj → Bool × F)
    : SortMacros (SortArgs Obj F) Obj (List (Option Obj)) where
  lenList s := s.list.length
  assListToLocal s i := elmPlist s.list i.toNat
  assLocalToList s i t := do
    let list ← setElmPlist s.list i.toNat t
    return { s with list := list }
  sameObj a b := a = b
  comp s v w :=
    let (result, func) := call s.func v w
    (result, { s with func := func })
  createTempBuffer len := List.replicate (len + 1000).toNat none
  assBufToLocal buffer i := elmBuffer buffer i
  assLocalToBuf buffer i t := setElmPlist buffer i.toNat (some t)

def paraDensePlistMacros (call : F → Obj → Obj → Bool × F)
    : SortMacros (SortParaArgs Obj F) (Obj × Obj) (List (Option Obj)) where
  lenList s := s.list.length
  assListToLocal s i := do
    let t ← elmPlist s.list i.toNat
    let ts ← elmPlist s.shadow i.toNat
    return (t, ts)
  assLocalToList s i t := do
    let list ← setElmPlist s.list i.toNat t.1
    let shadow ← setElmPlist s.shadow i.toNat t.2
    return { s with list := list, shadow := shadow }
  sameObj a b := a.1 = b.1
  comp s v w :=
    let (result, func) := call s.func v.1 w.1
    (result, { s with func := func })
  createTempBuffer len := List.replicate (len * 2 + 1000).toNat none
  assBufToLocal buffer i := do
    let t ← elmBuffer buffer (2 * i)
    let ts ← elmBuffer buffer (2 * i - 1)
    return (t, ts)
  assLocalToBuf buffer i t := do
    let buffer ← setElmPlist buffer (2 * i).toNat (some t.1)
    setElmPlist buffer (2 * i - 1).toNat (some t.2)

end Basic

/-!
This section contains the pattern-defeating quicksort from `sortbase.h`. A `for` loop has the number
of its rounds as an argument, the number of rounds of a `while` loop is limited by `fuel`.
-/

namespace SortMacros

variable {S L B : Type} (m : SortMacros S L B)

def compCheckEq (s : S) (a b : L) : Bool × S :=
  if m.sameObj a b then
    (false, s)
  else
    m.comp s a b

def assListToLocalIf (cond : Bool) (s : S) (i : Int) (w : L) : Result L :=
  if cond then
    m.assListToLocal s i
  else
    return w

def shellShift (fuel : Nat) (start h : Int) (v : L) (s : S) (k : Int) (w : L)
    : Result (S × Int) := do
  match fuel with
  | 0 => throw .fuel
  | fuel + 1 =>
    if h + (start - 1) < k then
      let (less, s) := m.compCheckEq s v w
      if less then
        let s ← m.assLocalToList s k w
        let k := k - h
        let w ← m.assListToLocalIf (h + (start - 1) < k) s (k - h) w
        shellShift fuel start h v s k w
      else
        return (s, k)
    else
      return (s, k)

def shellPass (rounds : Nat) (start h : Int) (s : S) (i : Int) : Result S := do
  match rounds with
  | 0 => return s
  | rounds + 1 =>
    let v ← m.assListToLocal s i
    let w ← m.assListToLocal s (i - h)
    let (s, k) ← m.shellShift (i - start + 1).toNat start h v s i w
    let s ← m.assLocalToList s k v
    shellPass rounds start h s (i + 1)

def shellWidth (fuel : Nat) (len h : Int) : Result Int :=
  match fuel with
  | 0 => throw .fuel
  | fuel + 1 =>
    if 9 * h + 4 < len then
      shellWidth fuel len (3 * h + 1)
    else
      return h

def shellLoop (fuel : Nat) (start last : Int) (s : S) (h : Int) : Result S := do
  match fuel with
  | 0 => throw .fuel
  | fuel + 1 =>
    if 0 < h then
      let s ← m.shellPass (last + 1 - (h + start)).toNat start h s (h + start)
      shellLoop fuel start last s (h / 3)
    else
      return s

def shell (s : S) (start last : Int) : Result S := do
  let len := last - start + 1
  let h ← shellWidth (len + 1).toNat len 1
  m.shellLoop (h + 1).toNat start last s h

def swap (s : S) (a b : Int) : Result S := do
  let t ← m.assListToLocal s a
  let u ← m.assListToLocal s b
  let s ← m.assLocalToList s b t
  m.assLocalToList s a u

def compIndices (s : S) (a b : Int) : Result (Bool × S) := do
  let t ← m.assListToLocal s a
  let u ← m.assListToLocal s b
  return m.compCheckEq s t u

def swapIfLess (s : S) (a b : Int) : Result S := do
  let (less, s) ← m.compIndices s b a
  if less then
    m.swap s a b
  else
    return s

def sort3 (s : S) (a b c' : Int) : Result S := do
  let (less, s) ← m.compIndices s b a
  if !less then
    let (less, s) ← m.compIndices s c' b
    if !less then
      return s
    else
      let s ← m.swap s b c'
      m.swapIfLess s a b
  else
    let (less, s) ← m.compIndices s c' b
    if less then
      m.swap s a c'
    else
      let s ← m.swap s a b
      m.swapIfLess s b c'

def scanLeft (fuel : Nat) (pivot : L) (right : Int) (s : S) (left : Int) : Result (Int × S) := do
  match fuel with
  | 0 => throw .fuel
  | fuel + 1 =>
    if left < right then
      let listcpy ← m.assListToLocal s left
      let (less, s) := m.compCheckEq s pivot listcpy
      if less then
        return (left, s)
      else
        scanLeft fuel pivot right s (left + 1)
    else
      return (left, s)

def scanRight (fuel : Nat) (pivot : L) (left : Int) (s : S) (right : Int) : Result (Int × S) := do
  match fuel with
  | 0 => throw .fuel
  | fuel + 1 =>
    if left < right then
      let listcpy ← m.assListToLocal s right
      let (less, s) := m.compCheckEq s pivot listcpy
      if !less then
        return (right, s)
      else
        scanRight fuel pivot left s (right - 1)
    else
      return (right, s)

def partitionLoop (fuel : Nat) (pivot : L) (s : S) (left right : Int) (firstPass : Bool)
    : Result (Int × Bool × S) := do
  match fuel with
  | 0 => throw .fuel
  | fuel + 1 =>
    let (left, s) ← m.scanLeft (right - left + 1).toNat pivot right s left
    let right := right - 1
    let (right, s) ← m.scanRight (right - left + 1).toNat.succ pivot left s right
    if left ≥ right then
      return (left, firstPass, s)
    else
      let s ← m.swap s left right
      partitionLoop fuel pivot s (left + 1) right false

def partition (s : S) (start last : Int) : Result (Int × Bool × S) := do
  let s ← m.sort3 s start (start / 2 + last / 2) last
  let pivot ← m.assListToLocal s (start / 2 + last / 2)
  m.partitionLoop (last - start).toNat pivot s (start + 1) last true

def insertionShift (fuel : Nat) (start : Int) (v : L) (s : S) (k : Int) (w : L)
    : Result (S × Int) := do
  match fuel with
  | 0 => throw .fuel
  | fuel + 1 =>
    if start < k then
      let (less, s) := m.compCheckEq s v w
      if less then
        let s ← m.assLocalToList s k w
        let k := k - 1
        let w ← m.assListToLocalIf (start < k) s (k - 1) w
        insertionShift fuel start v s k w
      else
        return (s, k)
    else
      return (s, k)

def insertionLoop (rounds : Nat) (start : Int) (s : S) (i : Int) : Result S := do
  match rounds with
  | 0 => return s
  | rounds + 1 =>
    let v ← m.assListToLocal s i
    let w ← m.assListToLocal s (i - 1)
    let (s, k) ← m.insertionShift (i - start + 1).toNat start v s i w
    let s ← m.assLocalToList s k v
    insertionLoop rounds start s (i + 1)

def insertion (s : S) (start last : Int) : Result S :=
  m.insertionLoop (last - start).toNat start s (start + 1)

/-- Without a result `limit` has become 0. -/
def limitedShift (fuel : Nat) (start : Int) (v : L) (s : S) (k : Int) (w : L) (limit : Int)
    : Result (S × Int × Option Int) := do
  match fuel with
  | 0 => throw .fuel
  | fuel + 1 =>
    if start < k then
      let (less, s) := m.compCheckEq s v w
      if less then
        let limit := limit - 1
        if limit = 0 then
          return (s, k, none)
        else
          let s ← m.assLocalToList s k w
          let k := k - 1
          let w ← m.assListToLocalIf (start < k) s (k - 1) w
          limitedShift fuel start v s k w limit
      else
        return (s, k, some limit)
    else
      return (s, k, some limit)

def limitedInsertionLoop (rounds : Nat) (start : Int) (s : S) (i limit : Int)
    : Result (Bool × S) := do
  match rounds with
  | 0 => return (true, s)
  | rounds + 1 =>
    let v ← m.assListToLocal s i
    let w ← m.assListToLocal s (i - 1)
    let (s, k, limit) ← m.limitedShift (i - start + 1).toNat start v s i w limit
    let s ← m.assLocalToList s k v
    match limit with
    | none => return (false, s)
    | some limit => limitedInsertionLoop rounds start s (i + 1) limit

def limitedInsertion (s : S) (start last : Int) : Result (Bool × S) :=
  m.limitedInsertionLoop (last - start).toNat start s (start + 1) 8

def checkBadPivot (s : S) (start last pivot : Int) : Result S := do
  let length := last - start
  let s ← (if pivot - start < length / 8 then do
      let s ← m.swap s pivot (pivot + length / 4)
      m.swap s last (last - length / 4)
    else
      return s : Result S)
  if pivot - start > 7 * (length / 8) then
    let s ← m.swap s start (start + length / 4)
    m.swap s (pivot - 1) (pivot - 1 - length / 4)
  else
    return s

def isSortedByInsertion (firstPass : Bool) (s : S) (start last : Int) : Result (Bool × S) :=
  if firstPass then
    m.limitedInsertion s start last
  else
    return (false, s)

def quickSort (s : S) (start last depth : Int) : Result S := do
  if last - start < 24 then
    m.insertion s start last
  else if depth ≤ 0 then
    m.shell s start last
  else
    let (pivot, firstPass, s) ← m.partition s start last
    let s ← m.checkBadPivot s start last pivot
    let (sorted, s) ← m.isSortedByInsertion firstPass s start (pivot - 1)
    let s ← (if sorted then pure s else quickSort s start (pivot - 1) (depth - 1) : Result S)
    let (sorted, s) ← m.isSortedByInsertion firstPass s pivot last
    if sorted then
      return s
    else
      quickSort s pivot last (depth - 1)
termination_by depth.toNat

end SortMacros

def cLog2Int (a : Int) : Int :=
  if a = 0 then
    -1
  else
    Nat.log2 a.natAbs

namespace SortMacros

variable {S L B : Type} (m : SortMacros S L B)

def sort (s : S) : Result S :=
  let len := m.lenList s
  m.quickSort s 1 len (cLog2Int len * 2 + 2)

end SortMacros

/-!
This section contains the merge sort from `sortbase.h`.
-/

namespace SortMacros

variable {S L B : Type} (m : SortMacros S L B)

def mergeHeads (fuel : Nat) (e1 e2 : Int) (s : S) (tempbuf : B) (pos1 pos2 resultpos : Int)
    : Result (S × B × Int × Int × Int) := do
  match fuel with
  | 0 => throw .fuel
  | fuel + 1 =>
    if pos1 ≤ e1 ∧ pos2 ≤ e2 then
      let (less, s) ← m.compIndices s pos2 pos1
      if less then
        let t ← m.assListToLocal s pos2
        let tempbuf ← m.assLocalToBuf tempbuf resultpos t
        mergeHeads fuel e1 e2 s tempbuf pos1 (pos2 + 1) (resultpos + 1)
      else
        let t ← m.assListToLocal s pos1
        let tempbuf ← m.assLocalToBuf tempbuf resultpos t
        mergeHeads fuel e1 e2 s tempbuf (pos1 + 1) pos2 (resultpos + 1)
    else
      return (s, tempbuf, pos1, pos2, resultpos)

def mergeRest (fuel : Nat) (e : Int) (s : S) (tempbuf : B) (pos resultpos : Int)
    : Result (B × Int) := do
  match fuel with
  | 0 => throw .fuel
  | fuel + 1 =>
    if pos ≤ e then
      let t ← m.assListToLocal s pos
      let tempbuf ← m.assLocalToBuf tempbuf resultpos t
      mergeRest fuel e s tempbuf (pos + 1) (resultpos + 1)
    else
      return (tempbuf, resultpos)

def mergeBack (rounds : Nat) (b1 : Int) (s : S) (tempbuf : B) (i : Int) : Result S := do
  match rounds with
  | 0 => return s
  | rounds + 1 =>
    let t ← m.assBufToLocal tempbuf i
    let s ← m.assLocalToList s (b1 + i - 1) t
    mergeBack rounds b1 s tempbuf (i + 1)

def mergeRanges (s : S) (b1 e1 e2 : Int) (tempbuf : B) : Result (S × B) := do
  let (s, tempbuf, pos1, pos2, resultpos) ←
    m.mergeHeads (e2 - b1 + 2).toNat e1 e2 s tempbuf b1 (e1 + 1) 1
  let (tempbuf, resultpos) ← m.mergeRest (e1 - pos1 + 2).toNat e1 s tempbuf pos1 resultpos
  let (tempbuf, resultpos) ← m.mergeRest (e2 - pos2 + 2).toNat e2 s tempbuf pos2 resultpos
  let s ← m.mergeBack (resultpos - 1).toNat b1 s tempbuf 1
  return (s, tempbuf)

def insertionSteps (fuel : Nat) (stepsize len : Int) (s : S) (i : Int) : Result (S × Int) := do
  match fuel with
  | 0 => throw .fuel
  | fuel + 1 =>
    if i + stepsize ≤ len then
      let s ← m.insertion s i (i + stepsize - 1)
      insertionSteps fuel stepsize len s (i + stepsize)
    else
      return (s, i)

def mergeSteps (fuel : Nat) (stepsize len : Int) (s : S) (buf : B) (i : Int)
    : Result (S × B × Int) := do
  match fuel with
  | 0 => throw .fuel
  | fuel + 1 =>
    if i + stepsize * 2 ≤ len then
      let (s, buf) ← m.mergeRanges s i (i + stepsize - 1) (i + stepsize * 2 - 1) buf
      mergeSteps fuel stepsize len s buf (i + stepsize * 2)
    else
      return (s, buf, i)

def mergeLoop (fuel : Nat) (len : Int) (s : S) (buf : B) (stepsize : Int) : Result S := do
  match fuel with
  | 0 => throw .fuel
  | fuel + 1 =>
    if stepsize < len then
      let (s, buf, i) ← m.mergeSteps (len + 1).toNat stepsize len s buf 1
      if i + stepsize ≤ len then
        let (s, buf) ← m.mergeRanges s i (i + stepsize - 1) len buf
        mergeLoop fuel len s buf (stepsize * 2)
      else
        mergeLoop fuel len s buf (stepsize * 2)
    else
      return s

def merge (s : S) : Result S := do
  let len := m.lenList s
  let buf := m.createTempBuffer len
  let (s, i) ← m.insertionSteps (len + 1).toNat 24 len s 1
  let s ← (if i < len then m.insertion s i len else return s : Result S)
  m.mergeLoop (len + 1).toNat len s buf 24

end SortMacros
