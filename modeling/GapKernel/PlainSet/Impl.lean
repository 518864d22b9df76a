import GapKernel.Sort.Impl

/-!
This module contains the lists that the set functions work on. Two arguments of a function can be
the same object, so lists are referred to by the number of their bag.
-/

structure SmallList (E : Type) where
  isPlist : Bool
  entries : List (Option E)
  deriving DecidableEq, Repr

structure PlistHeap (E : Type) where
  bags : List (SmallList E)
  deriving DecidableEq, Repr

namespace PlistHeap

variable {E : Type}

def bag (h : PlistHeap E) (list : Nat) : Result (SmallList E) :=
  match h.bags[list]? with
  | some bag => return bag
  | none => throw .access

def plist (h : PlistHeap E) (list : Nat) : Result (List (Option E)) := do
  let bag ← h.bag list
  if bag.isPlist then
    return bag.entries
  else
    throw .access

def lenPlist (h : PlistHeap E) (list : Nat) : Result Nat := do
  let entries ← h.plist list
  return entries.length

/-- `ELM_PLIST`, for an entry that is used as an object. -/
def elm (h : PlistHeap E) (list pos : Nat) : Result E := do
  let entries ← h.plist list
  match ← elmPlist entries pos with
  | some elm => return elm
  | none => throw .access

def put (h : PlistHeap E) (list : Nat) (entries : List (Option E)) : PlistHeap E where
  bags := h.bags.set list { isPlist := true, entries := entries }

def setElm (h : PlistHeap E) (list pos : Nat) (elm : Option E) : Result (PlistHeap E) := do
  let entries ← h.plist list
  let entries ← setElmPlist entries pos elm
  return h.put list entries

/-- `SET_LEN_PLIST`, the entries past the old length are not bound. -/
def setLen (h : PlistHeap E) (list len : Nat) : Result (PlistHeap E) := do
  let entries ← h.plist list
  return h.put list (entries.take len ++ List.replicate (len - entries.length) none)

def newPlist (h : PlistHeap E) (entries : List (Option E)) : PlistHeap E × Nat :=
  ({ bags := h.bags ++ [{ isPlist := true, entries := entries }] }, h.bags.length)

def memmove (h : PlistHeap E) (list dst src n : Nat) : Result (PlistHeap E) := do
  let entries ← h.plist list
  if 0 < dst ∧ 0 < src ∧ dst - 1 + n ≤ entries.length ∧ src - 1 + n ≤ entries.length then
    return h.put list
      (entries.take (dst - 1) ++ (entries.drop (src - 1)).take n ++ entries.drop (dst - 1 + n))
  else
    throw .access

end PlistHeap

/-!
This section contains the tests for proper sets, and the functions that make a proper set from a
list. The tests `eq` and `lt` are `EQ` and `LT`.
-/

namespace PlainSetImpl

variable {E : Type} [DecidableEq E] (eq lt : E → E → Bool)

def isSSortLoop (elm1 : E) (entries : List (Option E)) : Bool :=
  match entries with
  | [] => true
  | none :: _ => false
  | some elm2 :: entries => if lt elm1 elm2 then isSSortLoop elm2 entries else false

def isSSortPlist (entries : List (Option E)) : Bool :=
  match entries with
  | [] => true
  | none :: _ => false
  | some elm1 :: entries => isSSortLoop lt elm1 entries

def isPlainSet (list : SmallList E) : Bool :=
  list.isPlist && isSSortPlist lt list.entries

def sortDensePlist (list : List E) : Result (List E) := do
  let s ← (densePlistMacros (fun (func : Unit) a b => (lt a b, func))).sort ⟨list, ()⟩
  return s.list

def removeDupsLoop (len : Nat) : Nat → List (Option E) → Nat → Nat → E → Result (List (Option E))
  | 0, _, _, _, _ => throw .fuel
  | fuel + 1, list, l, i, v => do
    if i ≤ len then
      match ← elmPlist list i with
      | some w =>
        if !eq v w then
          let list ← (if l + 1 ≠ i then do
            let list ← setElmPlist list (l + 1) (some w)
            setElmPlist list i none
          else
            return list : Result (List (Option E)))
          removeDupsLoop len fuel list (l + 1) (i + 1) w
        else
          removeDupsLoop len fuel list l (i + 1) v
      | none => throw .access
    else
      return list.take l

def removeDupsDensePlist (list : List (Option E)) : Result (List (Option E)) := do
  let len := list.length
  if len = 0 then
    return list
  else
    match ← elmPlist list 1 with
    | some v => removeDupsLoop eq len len list 1 2 v
    | none => throw .access

def setList (entries : List (Option E)) : Result (List (Option E)) := do
  -- a dense copy
  let set := entries.reduceOption
  let set ← sortDensePlist lt set
  removeDupsDensePlist eq (set.map some)

def asPlainSet (h : PlistHeap E) (list : Nat) : Result (PlistHeap E × Nat) := do
  let bag ← h.bag list
  if !isPlainSet lt bag then
    let set ← setList eq lt bag.entries
    return h.newPlist set
  else
    return (h, list)

def isSet (h : PlistHeap E) (list : Nat) : Result (PlistHeap E × Bool) := do
  let bag ← h.bag list
  if isPlainSet lt bag then
    return (h, true)
  else if bag.entries.length = 0 then
    return (h.put list bag.entries, true)
  else if isSSortPlist lt bag.entries then
    return (h.put list bag.entries, true)
  else
    return (h, false)

def requireMutableSet (funcname argname : String) (h : PlistHeap E) (op : Nat)
    : Result (PlistHeap E) := do
  let (h, isSet) ← isSet lt h op
  if isSet then
    return h
  else
    throw (.argument funcname argname "must be a mutable proper set")

end PlainSetImpl

/-!
This section contains the functions for proper sets. The flags in the types of the lists are left
out.
-/

namespace PlainSetImpl

variable {E : Type} [DecidableEq E] (eq lt : E → E → Bool)

-- `list[l] < obj` and `obj <= list[h]`
def positionLoop (heap : PlistHeap E) (list : Nat) (obj : E) : Nat → Nat → Nat → Result Nat
  | 0, _, _ => throw .fuel
  | fuel + 1, l, h => do
    if l + 1 < h then
      let m := (l + h) / 2
      let v ← heap.elm list m
      if lt v obj then
        positionLoop heap list obj fuel m h
      else
        positionLoop heap list obj fuel l m
    else
      return h

def positionSortedDensePlist (heap : PlistHeap E) (list : Nat) (obj : E) : Result Nat := do
  let len ← heap.lenPlist list
  positionLoop lt heap list obj (len + 1) 0 (len + 1)

def addSet (h : PlistHeap E) (set : Nat) (obj : E) : Result (PlistHeap E) := do
  let h ← requireMutableSet lt "ADD_SET" "<set>" h set
  let len ← h.lenPlist set
  let pos ← positionSortedDensePlist lt h set obj
  let isNew ← (if len < pos then
    return true
  else do
    let elm ← h.elm set pos
    return !eq elm obj : Result Bool)
  if isNew then
    let h ← h.setLen set (len + 1)
    -- `len - pos + 1` is unsigned, it is 0 for `pos = len + 1`
    let h ← h.memmove set (pos + 1) pos (len + 1 - pos)
    h.setElm set pos (some obj)
  else
    return h

def remSet (h : PlistHeap E) (set : Nat) (obj : E) : Result (PlistHeap E) := do
  let h ← requireMutableSet lt "REM_SET" "<set>" h set
  let len ← h.lenPlist set
  let pos ← positionSortedDensePlist lt h set obj
  let isOld ← (if pos ≤ len then do
    let elm ← h.elm set pos
    return eq elm obj
  else
    return false : Result Bool)
  if isOld then
    let h ← h.memmove set pos (pos + 1) (len - pos)
    let h ← h.setElm set len none
    h.setLen set (len - 1)
  else
    return h

-- The last loops of `FuncUNITE_SET` and the loop for the rest of one set.
def uniteRestLoop (h : PlistHeap E) (set len : Nat)
    : Nat → List (Option E) → Nat → Result (List (Option E))
  | 0, _, _ => throw .fuel
  | fuel + 1, tmpUnion, i => do
    if i ≤ len then
      let e ← h.elm set i
      uniteRestLoop h set len fuel (tmpUnion ++ [some e]) (i + 1)
    else
      return tmpUnion

def uniteLoop (h : PlistHeap E) (set1 set2 len1 len2 : Nat)
    : Nat → List (Option E) → Nat → Nat → Result (List (Option E) × Nat × Nat)
  | 0, _, _, _ => throw .fuel
  | fuel + 1, tmpUnion, i1, i2 => do
    if i1 ≤ len1 ∧ i2 ≤ len2 then
      let e1 ← h.elm set1 i1
      let e2 ← h.elm set2 i2
      if eq e1 e2 then
        uniteLoop h set1 set2 len1 len2 fuel (tmpUnion ++ [some e1]) (i1 + 1) (i2 + 1)
      else if lt e1 e2 then
        uniteLoop h set1 set2 len1 len2 fuel (tmpUnion ++ [some e1]) (i1 + 1) i2
      else
        uniteLoop h set1 set2 len1 len2 fuel (tmpUnion ++ [some e2]) i1 (i2 + 1)
    else
      return (tmpUnion, i1, i2)

def uniteSet (h : PlistHeap E) (set1 set2 : Nat) : Result (PlistHeap E) := do
  let h ← requireMutableSet lt "UNITE_SET" "<set1>" h set1
  let (h, set2) ← asPlainSet eq lt h set2
  let len1 ← h.lenPlist set1
  let len2 ← h.lenPlist set2
  let (tmpUnion, i1, i2) ← uniteLoop eq lt h set1 set2 len1 len2 (len1 + len2 + 1) [] 1 1
  let tmpUnion ← uniteRestLoop h set1 len1 (len1 + 1) tmpUnion i1
  let tmpUnion ← uniteRestLoop h set2 len2 (len2 + 1) tmpUnion i2
  -- copy back from the union
  return h.put set1 tmpUnion

def isSubsetLoop (h : PlistHeap E) (set1 set2 len1 len2 : Nat) : Nat → Nat → Nat → Result Nat
  | 0, _, _ => throw .fuel
  | fuel + 1, i1, i2 => do
    if i1 ≤ len1 ∧ i2 ≤ len2 ∧ len2 - i2 ≤ len1 - i1 then
      let e1 ← h.elm set1 i1
      let e2 ← h.elm set2 i2
      if eq e1 e2 then
        isSubsetLoop h set1 set2 len1 len2 fuel (i1 + 1) (i2 + 1)
      else if lt e1 e2 then
        isSubsetLoop h set1 set2 len1 len2 fuel (i1 + 1) i2
      else
        return i2
    else
      return i2

def isSubsetSet (h : PlistHeap E) (set1 set2 : Nat) : Result Bool := do
  let (h, set1) ← asPlainSet eq lt h set1
  let (h, set2) ← asPlainSet eq lt h set2
  let len1 ← h.lenPlist set1
  let len2 ← h.lenPlist set2
  let i2 ← isSubsetLoop eq lt h set1 set2 len1 len2 (len1 + len2 + 1) 1 1
  return i2 = len2 + 1

def interLoop1 (set1 set2 len1 len2 : Nat)
    : Nat → PlistHeap E → Nat → Nat → Nat → Result (PlistHeap E × Nat)
  | 0, _, _, _, _ => throw .fuel
  | fuel + 1, h, lenr, i1, i2 => do
    if i1 ≤ len1 ∧ i2 ≤ len2 then
      let e1 ← h.elm set1 i1
      let e2 ← h.elm set2 i2
      if eq e1 e2 then
        let h ← h.setElm set1 (lenr + 1) (some e1)
        interLoop1 set1 set2 len1 len2 fuel h (lenr + 1) (i1 + 1) (i2 + 1)
      else if lt e1 e2 then
        interLoop1 set1 set2 len1 len2 fuel h lenr (i1 + 1) i2
      else
        interLoop1 set1 set2 len1 len2 fuel h lenr i1 (i2 + 1)
    else
      return (h, lenr)

def interSetInner1 (h : PlistHeap E) (set1 set2 len1 len2 : Nat)
    : Result (PlistHeap E × Nat) :=
  interLoop1 eq lt set1 set2 len1 len2 (len1 + len2 + 1) h 0 1 1

/--
The search for `e1` between `bottom` and `top`, in `InterSetInner2` and in `SubtrSetInner2`. The
result is `found` and the new value of `i2`.
-/
def searchLoop (h : PlistHeap E) (set2 : Nat) (e1 : E) : Nat → Nat → Nat → Result (Bool × Nat)
  | 0, _, _ => throw .fuel
  | fuel + 1, bottom, top => do
    if bottom ≤ top then
      let middle := (bottom + top) / 2
      let e2 ← h.elm set2 middle
      if lt e1 e2 then
        searchLoop h set2 e1 fuel bottom (middle - 1)
      else if eq e1 e2 then
        return (true, middle + 1)
      else
        searchLoop h set2 e1 fuel (middle + 1) top
    else
      return (false, bottom)

def interLoop2 (set1 set2 setr len1 len2 : Nat)
    : Nat → PlistHeap E → Nat → Nat → Nat → Result (PlistHeap E × Nat)
  | 0, _, _, _, _ => throw .fuel
  | fuel + 1, h, lenr, i1, i2 => do
    if i1 ≤ len1 then
      let e1 ← h.elm set1 i1
      let (found, i2) ← searchLoop eq lt h set2 e1 (len2 + 1) i2 len2
      if found then
        let h ← h.setElm setr (lenr + 1) (some e1)
        interLoop2 set1 set2 setr len1 len2 fuel h (lenr + 1) (i1 + 1) i2
      else
        interLoop2 set1 set2 setr len1 len2 fuel h lenr (i1 + 1) i2
    else
      return (h, lenr)

def interSetInner2 (h : PlistHeap E) (set1 set2 setr len1 len2 : Nat)
    : Result (PlistHeap E × Nat) :=
  interLoop2 eq lt set1 set2 setr len1 len2 (len1 + 1) h 0 1 1

-- `while (x > 0) { ll++; x >>= 1; }`, a `UInt` has `fuel` bits.
def bitLength : Nat → Nat → Nat
  | 0, _ => 0
  | fuel + 1, x => if 0 < x then bitLength fuel (x >>> 1) + 1 else 0

/-- The decision between the two methods, `bits` is the number of bits of a `UInt`. -/
def isMuchShorter (bits lenShort lenLong : Nat) : Bool :=
  decide (lenShort * bitLength bits lenLong % 2 ^ bits < lenLong)

def interSet (bits : Nat) (h : PlistHeap E) (set1 set2 : Nat) : Result (PlistHeap E) := do
  let h ← requireMutableSet lt "INTER_SET" "<set1>" h set1
  let (h, set2) ← asPlainSet eq lt h set2
  let len1 ← h.lenPlist set1
  let len2 ← h.lenPlist set2
  let (h, lenr) ← (
    if len1 < len2 then
      if isMuchShorter bits len1 len2 then
        interSetInner2 eq lt h set1 set2 set1 len1 len2
      else
        interSetInner1 eq lt h set1 set2 len1 len2
    else
      if isMuchShorter bits len2 len1 then
        interSetInner2 eq lt h set2 set1 set1 len2 len1
      else
        interSetInner1 eq lt h set1 set2 len1 len2)
  h.setLen set1 lenr

def subtrRestLoop (set1 len1 : Nat)
    : Nat → PlistHeap E → Nat → Nat → Result (PlistHeap E × Nat)
  | 0, _, _, _ => throw .fuel
  | fuel + 1, h, lenr, i1 => do
    if i1 ≤ len1 then
      let e1 ← h.elm set1 i1
      let h ← h.setElm set1 (lenr + 1) (some e1)
      subtrRestLoop set1 len1 fuel h (lenr + 1) (i1 + 1)
    else
      return (h, lenr)

def subtrLoop1 (set1 set2 len1 len2 : Nat)
    : Nat → PlistHeap E → Nat → Nat → Nat → Result (PlistHeap E × Nat × Nat)
  | 0, _, _, _, _ => throw .fuel
  | fuel + 1, h, lenr, i1, i2 => do
    if i1 ≤ len1 ∧ i2 ≤ len2 then
      let e1 ← h.elm set1 i1
      let e2 ← h.elm set2 i2
      if eq e1 e2 then
        subtrLoop1 set1 set2 len1 len2 fuel h lenr (i1 + 1) (i2 + 1)
      else if lt e1 e2 then
        let h ← h.setElm set1 (lenr + 1) (some e1)
        subtrLoop1 set1 set2 len1 len2 fuel h (lenr + 1) (i1 + 1) i2
      else
        subtrLoop1 set1 set2 len1 len2 fuel h lenr i1 (i2 + 1)
    else
      return (h, lenr, i1)

def subtrSetInner1 (h : PlistHeap E) (set1 set2 len1 len2 : Nat)
    : Result (PlistHeap E × Nat) := do
  let (h, lenr, i1) ← subtrLoop1 eq lt set1 set2 len1 len2 (len1 + len2 + 1) h 0 1 1
  subtrRestLoop set1 len1 (len1 + 1) h lenr i1

def subtrLoop2 (set1 set2 len1 len2 : Nat)
    : Nat → PlistHeap E → Nat → Nat → Nat → Result (PlistHeap E × Nat)
  | 0, _, _, _, _ => throw .fuel
  | fuel + 1, h, lenr, i1, i2 => do
    if i1 ≤ len1 then
      let e1 ← h.elm set1 i1
      let (found, i2) ← searchLoop eq lt h set2 e1 (len2 + 1) i2 len2
      if !found then
        let h ← h.setElm set1 (lenr + 1) (some e1)
        subtrLoop2 set1 set2 len1 len2 fuel h (lenr + 1) (i1 + 1) i2
      else
        subtrLoop2 set1 set2 len1 len2 fuel h lenr (i1 + 1) i2
    else
      return (h, lenr)

def subtrSetInner2 (h : PlistHeap E) (set1 set2 len1 len2 : Nat)
    : Result (PlistHeap E × Nat) :=
  subtrLoop2 eq lt set1 set2 len1 len2 (len1 + 1) h 0 1 1

def subtrSet (bits : Nat) (h : PlistHeap E) (set1 set2 : Nat) : Result (PlistHeap E) := do
  let h ← requireMutableSet lt "SUBTR_SET" "<set1>" h set1
  let (h, set2) ← asPlainSet eq lt h set2
  let len1 ← h.lenPlist set1
  let len2 ← h.lenPlist set2
  let (h, lenr) ← (
    if isMuchShorter bits len1 len2 then
      subtrSetInner2 eq lt h set1 set2 len1 len2
    else
      subtrSetInner1 eq lt h set1 set2 len1 len2)
  h.setLen set1 lenr

end PlainSetImpl
