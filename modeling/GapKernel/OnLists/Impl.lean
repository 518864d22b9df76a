import GapKernel.PPerm.Impl.Product
import GapKernel.Trans.Impl.Kernel
import Mathlib.Data.List.ReduceOption

/-!
This module contains the images of tuples and sets of points. The image starts as a copy of the
list, with the type of the list, and the entries are replaced in place.
-/

namespace PlistKTNum

-- The columns `FN_IS_SSORT` and `FN_IS_NSORT` of the table `ResetFiltTab`
def resetSsort (tnum : PlistKTNum) : PlistKTNum :=
  match tnum with
  | empty => plist
  | denseNhomSsort => denseNhom
  | homSsort => hom
  | tabSsort => tab
  | tabRectSsort => tabRect
  | cycSsort => cyc
  | tnum => tnum

def resetNsort (tnum : PlistKTNum) : PlistKTNum :=
  match tnum with
  | denseNhomNsort => denseNhom
  | homNsort => hom
  | tabNsort => tab
  | tabRectNsort => tabRect
  | cycNsort => cyc
  | tnum => tnum

end PlistKTNum

/--
A dense list of small integers. A range has the elements that `ELMV_LIST` returns, and a type that
says whether they are strictly sorted.
-/
inductive IntList where
  | plist (list : IntPlist)
  | range (isSsort : Bool) (elms : List Nat)
  deriving DecidableEq, Repr

def IntList.elms (list : IntList) : List Nat :=
  match list with
  | plist list => list.entries
  | range _ elms => elms

structure ObjPlist (E : Type) where
  tnum : PlistKTNum
  entries : List E
  deriving DecidableEq, Repr

namespace OnListsImpl

open TransImpl PPermImpl

-- `PLAIN_LIST_COPY`, the copy is a new bag.
def plainListCopy (list : IntList) : IntPlist :=
  match list with
  | .plist list => list
  | .range _ elms => if elms.length = 0 then ⟨.empty, []⟩ else ⟨.plist, elms⟩

-- The image of a point under an action that fixes the points beyond the degree.
def imgPoint (err : Fault) (T : PermTnum) (pt : List Nat) (k : Nat) : Result Nat :=
  if 0 < k then
    if k ≤ pt.length then do
      let img ← readEntry pt (k - 1)
      return T.plusOne img
    else
      return k
  else
    throw err

-- The errors of `POW` for an integer that is not positive
def permPoint (T : PermTnum) (ptPrm : List Nat) (k : Nat) : Result Nat :=
  imgPoint (.argument "PowIntPerm" "<point>" "must be a positive integer") T ptPrm k

def transPoint (T : PermTnum) (ptf : List Nat) (k : Nat) : Result Nat :=
  imgPoint (.argument "Tran. Operations" "<point>" "must be a positive small integer") T ptf k

def mapLoop (point : Nat → Result Nat) (res : List Nat) : Result (List Nat) :=
  forLoop (fun i res => do
    let tmp ← elmPlist res i
    let img ← point tmp
    setElmPlist res i img) res.length 1 res

def onTuplesPerm' (T : PermTnum) (tup : IntList) (perm : PermBag) : Result IntPlist := do
  let res := plainListCopy tup
  let ptPrm ← constAddrPermBag T perm
  let entries ← mapLoop (permPoint T ptPrm) res.entries
  return ⟨res.tnum.resetSsort.resetNsort, entries⟩

def onTuplesPerm (tup : IntList) (perm : PermBag) : Result IntPlist :=
  match perm.tnum with
  | .perm2 => onTuplesPerm' .perm2 tup perm
  | .perm4 => onTuplesPerm' .perm4 tup perm

def onSetsPerm' (T : PermTnum) (set : IntList) (perm : PermBag) : Result IntPlist := do
  let res := plainListCopy set
  let ptPrm ← constAddrPermBag T perm
  let entries ← mapLoop (permPoint T ptPrm) res.entries
  return ⟨.cycSsort, ← sortPlistByRawObj entries⟩

def onSetsPerm (set : IntList) (perm : PermBag) : Result IntPlist :=
  match perm.tnum with
  | .perm2 => onSetsPerm' .perm2 set perm
  | .perm4 => onSetsPerm' .perm4 set perm

-- Only the filter `FN_IS_NSORT` is reset.
def onTuplesTrans (tup : IntList) (f : TransBag) : Result IntPlist := do
  let res := plainListCopy tup
  match f.tnum with
  | .trans2 =>
    let ptf2 ← constAddrTrans .perm2 f
    let entries ← mapLoop (transPoint .perm2 ptf2) res.entries
    return ⟨res.tnum.resetNsort, entries⟩
  | .trans4 =>
    let ptf4 ← constAddrTrans .perm4 f
    let entries ← mapLoop (transPoint .perm4 ptf4) res.entries
    return ⟨res.tnum.resetNsort, entries⟩

structure DupsState where
  data : List Nat
  k : Nat
  tmp : Nat

def removeDupsBody (i : Nat) (s : DupsState) : Result DupsState := do
  let elm ← elmPlist s.data i
  if s.tmp ≠ elm then
    let data ← setElmPlist s.data (s.k + 1) elm
    return ⟨data, s.k + 1, elm⟩
  else
    return s

def removeDupsPlistIntobj (res : List Nat) : Result (List Nat) := do
  let len := res.length
  if 0 < len then
    let tmp ← elmPlist res 1
    let s ← forLoop removeDupsBody (len - 1) 2 ⟨res, 1, tmp⟩
    return s.data.take s.k
  else
    return res

def onSetsTrans (set : IntList) (f : TransBag) : Result IntPlist := do
  let res := plainListCopy set
  match f.tnum with
  | .trans2 =>
    let ptf2 ← constAddrTrans .perm2 f
    let entries ← mapLoop (transPoint .perm2 ptf2) res.entries
    let entries ← sortPlistByRawObj entries
    return ⟨.cycSsort, ← removeDupsPlistIntobj entries⟩
  | .trans4 =>
    let ptf4 ← constAddrTrans .perm4 f
    let entries ← mapLoop (transPoint .perm4 ptf4) res.entries
    let entries ← sortPlistByRawObj entries
    return ⟨.cycSsort, ← removeDupsPlistIntobj entries⟩

-- The images are written behind each other, `s.2` is `reslen`.
def compactBody (msg : String) (ptf : List Nat) (i : Nat) (s : List Nat × Nat)
    : Result (List Nat × Nat) := do
  let tmp ← elmPlist s.1 i
  if 0 < tmp then
    if tmp ≤ ptf.length then
      let img ← readEntry ptf (tmp - 1)
      if img ≠ 0 then
        let res ← setElmPlist s.1 (s.2 + 1) img
        return (res, s.2 + 1)
      else
        return s
    else
      return s
  else
    throw (.quit msg 0 0)

def compactLoop (msg : String) (ptf res : List Nat) : Result (List Nat) := do
  let s ← forLoop (compactBody msg ptf) res.length 1 (res, 0)
  return s.1.take s.2

def onSetsPPerm (set : IntList) (f : PPermBag) : Result IntPlist := do
  let res := plainListCopy set
  let msg := "<set> must be a list of positive small integers"
  let ptf ← constAddrPPerm f.tnum.dataType f
  let entries ← compactLoop msg ptf res.entries
  if entries.length = 0 then
    return ⟨.empty, entries⟩
  else
    return ⟨.cycSsort, ← sortPlistByRawObj entries⟩

def onTuplesPPerm (tup : IntList) (f : PPermBag) : Result IntPlist := do
  let res := plainListCopy tup
  let ptf ← constAddrPPerm f.tnum.dataType f
  let entries ← compactLoop "<tup> must be a list of small integers" ptf res.entries
  return ⟨res.tnum.resetSsort.resetNsort, entries⟩

/-!
This section contains the images of sets for other acting elements. `POW` is a parameter, and so are
the tests and the attributes of the images.
-/

section Objects

variable {E F : Type} [DecidableEq E] [DecidableEq F]

-- The end of `FuncOnTuples`, the images are entered from the last one to the first one.
def fillImages (pow : Nat → E) (tuple : List Nat)
    : Nat → List (Option E) → Result (List (Option E))
  | 0, img => return img
  | i + 1, img => do
    let elm ← elmPlist tuple (i + 1)
    let img ← setElmPlist img (i + 1) (some (pow elm))
    fillImages pow tuple i img

variable (eq lt : E → E → Bool) (isMutable : E → Bool) (family : E → F)

def removeDupsLoop (fam : F) (len : Nat) : Nat → List (Option E) → Nat → Nat → E → Bool → Bool
    → Result (List (Option E) × Bool × Bool)
  | 0, _, _, _, _, _, _ => throw .fuel
  | fuel + 1, list, l, i, v, isMut, homog => do
    if i ≤ len then
      match ← elmPlist list i with
      | some w =>
        let isMut := isMut || isMutable w
        if !eq v w then
          let list ← (if l + 1 ≠ i then do
            let list ← setElmPlist list (l + 1) (some w)
            setElmPlist list i none
          else
            return list : Result (List (Option E)))
          removeDupsLoop fam len fuel list (l + 1) (i + 1) w isMut
            (!isMut && homog && decide (fam = family w))
        else
          removeDupsLoop fam len fuel list l (i + 1) v isMut homog
      | none => throw .access
    else
      return (list.take l, isMut, homog)

-- The status is `0` for mutable elements, `1` for several families and `2` for one family.
def removeDupsDensePlist (tnum : PlistKTNum) (list : List (Option E))
    : Result (PlistKTNum × List (Option E) × Nat) := do
  let len := list.length
  if len = 0 then
    return (tnum, list, 0)
  else
    match ← elmPlist list 1 with
    | some v =>
      let (list, isMut, homog) ← removeDupsLoop eq isMutable family (family v) len len list 1 2 v
        (isMutable v) true
      if isMut then
        return (tnum, list, 0)
      else if !homog then
        return ((tnum.setFiltList .isNhomog).setFiltList .isSsort, list, 1)
      else
        return ((tnum.setFiltList .isHomog).setFiltList .isSsort, list, 2)
    | none => throw .access

-- The case 1 has no `break`, the type `T_PLIST_DENSE_NHOM_SSORT` does not last.
def retypeImages (tnum : PlistKTNum) (status : Nat) : PlistKTNum :=
  match status with
  | 1 | 2 => .homSsort
  | _ => tnum

-- `IS_SSORT_LIST`
def isSsortIntList (list : IntList) : IntList × Bool :=
  match list with
  | .plist list =>
    let (list, b) := TransImpl.isSsortList list
    (.plist list, b)
  | .range isSsort elms => (.range isSsort elms, decide (elms.Pairwise (· < ·)))

def hasSsortFilter (list : IntList) : Bool :=
  match list with
  | .plist list => list.tnum.isSsort
  | .range isSsort _ => isSsort

inductive ActingElm (E : Type) where
  | perm (perm : PermBag)
  | trans (f : TransBag)
  | pperm (f : PPermBag)
  | other (pow : Nat → E)

-- The small integers as objects, for the special cases.
variable (intObj : Nat → E)

def toObjs (list : IntPlist) : ObjPlist E :=
  ⟨list.tnum, list.entries.map intObj⟩

/-- The function returns the set, which can get another type, and the image. -/
def funcOnSets (set : IntList) (isMutableSet : Bool) (elm : ActingElm E)
    : Result (IntList × ObjPlist E) := do
  let (set, sorted) := if hasSsortFilter set then (set, true) else isSsortIntList set
  if !sorted then
    throw (.argument "OnSets" "<set>" "must be a set")
  else if set.elms.length = 0 then
    if isMutableSet then
      return (set, ⟨.empty, []⟩)
    else
      return (set, toObjs intObj (plainListCopy set))
  else
    match elm with
    | .perm perm => return (set, toObjs intObj (← onSetsPerm set perm))
    | .trans f => return (set, toObjs intObj (← onSetsTrans set f))
    | .pperm f => return (set, toObjs intObj (← onSetsPPerm set f))
    | .other pow =>
      let len := set.elms.length
      let img ← fillImages pow set.elms len (List.replicate len none)
      let img ← PlainSetImpl.sortDensePlist lt img.reduceOption
      let (tnum, img, status) ←
        removeDupsDensePlist eq isMutable family (PlistKTNum.plist.resetNsort) (img.map some)
      return (set, ⟨retypeImages tnum status, img.reduceOption⟩)

end Objects

end OnListsImpl
