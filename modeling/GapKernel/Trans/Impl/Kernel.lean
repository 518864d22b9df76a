import GapKernel.PlainSet.Impl
import GapKernel.Trans.Impl.Trans

/-!
This module contains the ranks, the kernels, the preimages and the image sets of transformations.
The functions that fill the slots of the bag return the changed bag.
-/

namespace TransImpl

-- A bag of points, `TmpTrans`, that is cleared.
def resizeInitTmpTrans (len : Nat) : List Nat :=
  List.replicate len 0

structure InitState where
  pttmp : List Nat
  rank : Nat
  img : List Nat
  ker : List Nat

-- The rounds of `INIT_TRANS2` and `INIT_TRANS4`. The image set gets its entries in their order.
def initLoop (ptf : List Nat) : Nat → Nat → InitState → Result InitState :=
  forLoop fun i s => do
    let j ← readEntry ptf i
    let s ← (if (← readEntry s.pttmp j) = 0 then do
      let pttmp ← writeEntry .perm4 s.pttmp j (s.rank + 1)
      return { s with pttmp := pttmp, rank := s.rank + 1, img := s.img ++ [j + 1] }
    else
      return s : Result InitState)
    return { s with ker := s.ker ++ [← readEntry s.pttmp j] }

def initTrans (f : TransBag) : Result (TransBag × Nat) := do
  let deg := f.entries.length
  if deg = 0 then
    let img : IntPlist := ⟨.empty, []⟩
    return ({ f with img := some img, ker := some img }, 0)
  else
    let s ← initLoop f.entries deg 0 ⟨resizeInitTmpTrans deg, 0, [], []⟩
    return ({ f with img := some ⟨.cyc, s.img⟩, ker := some ⟨.cycNsort, s.ker⟩ }, s.rank)

def rankTrans (f : TransBag) : Result (TransBag × Nat) :=
  match f.img with
  | none => initTrans f
  | some img => return (f, img.entries.length)

def funcRankTrans (w : IntSize) (f : TransBag) : Result (TransBag × Int) := do
  let (f, rank) ← rankTrans f
  let (f, deg) ← funcDegreeOfTransformation w f
  return (f, (rank : Int) - f.entries.length + deg)

-- The state is the temporary bag and the rank.
def markLoop (ptf : List Nat) : Nat → Nat → List Nat × Nat → Result (List Nat × Nat) :=
  forLoop fun i s => do
    let j ← readEntry ptf i
    if (← readEntry s.1 j) = 0 then
      return (← writeEntry .perm4 s.1 j 1, s.2 + 1)
    else
      return s

def funcRankTransInt (f : TransBag) (m : Nat) : Result (TransBag × Int) := do
  let deg := f.entries.length
  if m ≥ deg then
    let (f, rank) ← rankTrans f
    return (f, (rank : Int) - deg + m)
  else
    let s ← markLoop f.entries m 0 (resizeInitTmpTrans deg, 0)
    return (f, s.2)

-- `GetPositiveListEntry`, an entry is a positive immediate integer.
def getPositiveListEntry (w : IntSize) (funcname : String) (list : List Int) (idx : Nat)
    : Result Nat := do
  let value ← elmPlist list idx
  if 0 < value ∧ value ≤ w.intIntobjMax then
    return value.toNat
  else
    throw (.argument funcname ("<list>[" ++ toString idx ++ "]")
      "must be a positive small integer")

def rankListLoop (w : IntSize) (ptf : List Nat) (list : List Int)
    : Nat → Nat → List Nat × Nat → Result (List Nat × Nat) :=
  forLoop fun i s => do
    let j := (← getPositiveListEntry w "RANK_TRANS_LIST" list i) - 1
    if j < ptf.length then
      let j ← readEntry ptf j
      if (← readEntry s.1 j) = 0 then
        return (← writeEntry .perm4 s.1 j 1, s.2 + 1)
      else
        return s
    else
      return (s.1, s.2 + 1)

def funcRankTransList (w : IntSize) (f : TransBag) (list : List Int) : Result Int := do
  let deg := f.entries.length
  let s ← rankListLoop w f.entries list list.length 1 (resizeInitTmpTrans deg, 0)
  return s.2

def funcFlatKernelTrans (f : TransBag) : Result (TransBag × IntPlist) := do
  match f.ker with
  | some ker => return (f, ker)
  | none =>
    let (f, _) ← initTrans f
    match f.ker with
    | some ker => return (f, ker)
    | none => throw .access

def funcFlatKernelTransInt (f : TransBag) (m : Nat) : Result (TransBag × IntPlist) := do
  if m = 0 then
    return (f, ⟨.empty, []⟩)
  else
    let (f, ker) ← funcFlatKernelTrans f
    let deg := f.entries.length
    if m = deg then
      return (f, ker)
    else if m < deg then
      return (f, ⟨.cycNsort, ker.entries.take m⟩)
    else
      -- The classes of the additional points are numbered from `rank + 1` on.
      let (f, rank) ← rankTrans f
      return (f, ⟨.cycNsort, ker.entries ++ (List.range' 1 (m - deg)).map (fun i => i + rank)⟩)

structure ClassPlist where
  tnum : PlistKTNum
  entries : List IntPlist
  deriving DecidableEq, Repr

-- `AssPlist` at a position that is bound or the next one.
def assPlist (list : List Nat) (pos val : Nat) : Result (List Nat) :=
  if 0 < pos ∧ pos ≤ list.length then
    return list.set (pos - 1) val
  else if pos = list.length + 1 then
    return list ++ [val]
  else
    throw .access

structure KernelState where
  ker : List (Option IntPlist)
  pttmp : List Nat
  nr : Nat

def setClass (ker : List (Option IntPlist)) (pos : Nat) (list : IntPlist)
    : Result (List (Option IntPlist)) :=
  setElmPlist ker pos (some list)

def boundClass (list : Option IntPlist) : Result IntPlist :=
  match list with
  | some list => return list
  | none => throw .access

def elmClass (ker : List (Option IntPlist)) (pos : Nat) : Result IntPlist := do
  boundClass (← elmPlist ker pos)

def kernelLoop (flat : List Nat) : Nat → Nat → KernelState → Result KernelState :=
  forLoop fun i s => do
    let j ← elmPlist flat (i + 1)
    let s ← (if (← readEntry s.pttmp (j - 1)) = 0 then do
      let ker ← setClass s.ker j ⟨.cycSsort, []⟩
      return { s with ker := ker, nr := s.nr + 1 }
    else
      return s : Result KernelState)
    let size := (← readEntry s.pttmp (j - 1)) + 1
    let pttmp ← writeEntry .perm4 s.pttmp (j - 1) size
    let list ← elmClass s.ker j
    let entries ← assPlist list.entries (← readEntry pttmp (j - 1)) (i + 1)
    let ker ← setClass s.ker j { list with entries := entries }
    return { s with ker := ker, pttmp := pttmp }

def singletonLoop : Nat → Nat → KernelState → Result KernelState :=
  forLoop fun i s => do
    let ker ← setClass s.ker (s.nr + 1) ⟨.cycSsort, [i + 1]⟩
    return { s with ker := ker, nr := s.nr + 1 }

def funcKernelTrans (f : TransBag) (m : Nat) : Result (TransBag × ClassPlist) := do
  if m = 0 then
    return (f, ⟨.empty, []⟩)
  else
    let deg := f.entries.length
    let (f, rank) ← rankTrans f
    let min := if m < deg then m else deg
    let nr := if min = m then rank else rank + m - deg
    match f.ker with
    | none => throw .access
    | some flat =>
      let s ← kernelLoop flat.entries min 0
        ⟨List.replicate nr none, resizeInitTmpTrans nr, 0⟩
      let s ← singletonLoop (m - deg) deg s
      let entries ← (s.ker.take s.nr).mapM boundClass
      return (f, ⟨.homSsort, entries⟩)

def preimagesLoop (ptf : List Nat) (i : Nat) : Nat → Nat → List Nat → Result (List Nat) :=
  forLoop fun j out => do
    if (← readEntry ptf j) = i then
      assPlist out (out.length + 1) (j + 1)
    else
      return out

def funcPreimagesTransInt (f : TransBag) (pt : Nat) : Result IntPlist := do
  let deg := f.entries.length
  let i := pt - 1
  if i ≥ deg then
    return ⟨.dense, [pt]⟩
  else
    let out ← preimagesLoop f.entries i deg 0 []
    if out.length = 0 then
      return ⟨.empty, out⟩
    else
      return ⟨.cycSsort, out⟩

def isSsortList (list : IntPlist) : IntPlist × Bool :=
  match list.tnum with
  | .denseNhomSsort | .empty | .homSsort | .tabSsort | .tabRectSsort | .cycSsort => (list, true)
  | .denseNhomNsort | .homNsort | .tabNsort | .tabRectNsort | .cycNsort | .ndense => (list, false)
  -- `IsSSortPlist` and `IsSSortPlistDense`, the integers are immutable and of one family.
  | .plist | .dense | .denseNhom =>
    isSsortPlist list ((list.tnum.setFiltList .isDense).setFiltList .isHomog)
  -- `IsSSortPlistHom`
  | .hom | .tab | .tabRect | .cyc | .ffe => isSsortPlist list list.tnum
where
  -- The list gets the type `tnum` before it is known to be sorted.
  isSsortPlist (list : IntPlist) (tnum : PlistKTNum) : IntPlist × Bool :=
    if list.entries.length = 0 then
      ({ list with tnum := .empty }, true)
    else if PlainSetImpl.isSSortPlist (fun a b => decide (a < b)) (list.entries.map some) then
      ({ list with tnum := tnum.setFiltList .isSsort }, true)
    else
      ({ list with tnum := list.tnum.setFiltList .isNsort }, false)

-- `SortPlistByRawObj`, positive immediate integers are in the order of their pointers.
def sortPlistByRawObj (list : List Nat) : Result (List Nat) := do
  let s ← (densePlistMacros (fun (func : Unit) (v w : Nat) => (decide (v < w), func))).sort ⟨list, ()⟩
  return s.list

def funcUnsortedImageSetTrans (f : TransBag) : Result (TransBag × IntPlist) := do
  match f.img with
  | some img => return (f, img)
  | none =>
    let (f, _) ← initTrans f
    match f.img with
    | some img => return (f, img)
    | none => throw .access

def funcImageSetTrans (f : TransBag) : Result (TransBag × IntPlist) := do
  let (f, out) ← funcUnsortedImageSetTrans f
  let (out, sorted) := isSsortList out
  if !sorted then
    let out : IntPlist := ⟨.cycSsort, ← sortPlistByRawObj out.entries⟩
    return ({ f with img := some out }, out)
  else
    return ({ f with img := some out }, out)

-- The state is the temporary bag, the rank and the new list.
def imageSetLoop (ptf : List Nat)
    : Nat → Nat → List Nat × Nat × List Nat → Result (List Nat × Nat × List Nat) :=
  forLoop fun i s => do
    let j ← readEntry ptf i
    if (← readEntry s.1 j) = 0 then
      return (← writeEntry .perm4 s.1 j (s.2.1 + 1), s.2.1 + 1, s.2.2 ++ [j + 1])
    else
      return s

def funcImageSetTransInt (f : TransBag) (m : Nat) : Result (TransBag × IntPlist) := do
  let deg := f.entries.length
  if m = deg then
    funcImageSetTrans f
  else if m = 0 then
    return (f, ⟨.empty, []⟩)
  else if m < deg then
    let s ← imageSetLoop f.entries m 0 (resizeInitTmpTrans deg, 0, [])
    return (f, ⟨.cycSsort, ← sortPlistByRawObj s.2.2⟩)
  else
    let (f, im) ← funcImageSetTrans f
    return (f, ⟨.cycSsort, im.entries ++ List.range' (deg + 1) (m - deg)⟩)

end TransImpl
