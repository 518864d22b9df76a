import GapKernel.Permutat.Impl.Perm
import GapKernel.Plist

/-!
This module contains the conversion of lists into permutations, the permutations that map one list
to another one, and the extension of the orbit and of the Schreier tree of a stabilizer chain.
-/

namespace PermImpl

-- The entry `k` at position `i` of a list that is converted into a permutation.
def permListEntry (w : IntSize) (T : PermTnum) (list : List Int) (i : Nat)
    (s : List Nat × List Nat) : Result (Option (List Nat × List Nat)) := do
  let k ← elmPlist list i
  if ¬w.IsSmall k ∨ k ≤ 0 ∨ list.length < k then
    pure none
  else
    let known ← readEntry s.1 (k.toNat - 1)
    if known ≠ 0 then
      pure none
    else
      let ptTmp ← writeEntry T s.1 (k.toNat - 1) 1
      let ptPerm ← writeEntry T s.2 (i - 1) (k.toNat - 1)
      pure (some (ptTmp, ptPerm))

-- `none` is `fail`.
def permList (w : IntSize) (T : PermTnum) (h : PermHeap) (list : List Int)
    : Result (Option (PermHeap × Nat)) := do
  let degPerm := list.length
  match ← failLoop (permListEntry w T list) degPerm 1
      (List.replicate degPerm 0, List.replicate degPerm 0) with
  | none => pure none
  | some s => pure (some (h.newPerm T s.2))

def funcPermList (w : IntSize) (h : PermHeap) (list : List Int)
    : Result (Option (PermHeap × Nat)) :=
  let len := list.length
  if len = 0 then
    pure (some (h, h.identityPerm))
  else if len ≤ 65536 then
    permList w .perm2 h list
  else if len ≤ PermTnum.maxDegPerm4 w then
    permList w .perm4 h list
  else
    throw (.quit "PermList: list length %d exceeds maximum permutation degree" len 0)

-- The largest entry of a list and `d`.
def largestEntry (w : IntSize) (msg : String) (list : List Int) (d : Int) : Result Int :=
  list.foldlM (fun d x =>
    if 0 < x ∧ w.IsSmall x then pure (if x > d then x else d) else throw (.quit msg 0 0)) d

-- An `Int` that is stored in an `int`.
def toInt (x : Int) : Int :=
  x.bmod (2 ^ 32)

/--
The table for the entries of `src`, with the positions where they occur. It has the last position of
an entry or the first one; `none` is returned if `dst` has different entries at two of them.
-/
def fillTable (last : Bool) (conv : Int → Int) (src dst : List Int) (size : Nat)
    : Result (Option (List Nat)) :=
  failLoop round src.length 1 (List.replicate size 0)
where
  round (i : Nat) (tab : List Nat) : Result (Option (List Nat)) := do
    let val ← elmPlist src i
    let pos := (conv val).toNat
    let old ← elmPlist tab pos
    if old ≠ 0 then
      if (← elmPlist dst old) ≠ (← elmPlist dst i) then
        pure none
      else if last then
        let tab ← setElmPlist tab pos i
        pure (some tab)
      else
        pure (some tab)
    else
      let tab ← setElmPlist tab pos i
      pure (some tab)

def skipNext (tabs tabd : List Nat) : Nat → Nat → Result Nat
  | 0, _ => throw .fuel
  | fuel + 1, next => do
    let indst ← elmPlist tabd next
    let insrc ← elmPlist tabs next
    if indst ≠ 0 ∨ (insrc = 0 ∧ indst = 0) then
      skipNext tabs tabd fuel (next + 1)
    else
      pure next

def mapPoint (dst : List Int) (tabs tabd : List Nat) (i : Nat) (s : List Int × Nat)
    : Result (List Int × Nat) := do
  let insrc ← elmPlist tabs i
  if insrc ≠ 0 then
    let out ← setElmPlist s.1 i (← elmPlist dst insrc)
    pure (out, s.2)
  else
    let indst ← elmPlist tabd i
    if indst ≠ 0 then
      let next ← skipNext tabs tabd (tabs.length + 1) s.2
      let out ← setElmPlist s.1 i next
      pure (out, next + 1)
    else
      -- map elements in neither list to themselves
      let out ← setElmPlist s.1 i i
      pure (out, s.2)

-- The images of the points up to `d`.
def mapPoints (dst : List Int) (tabs tabd : List Nat) (d : Nat) : Result (List Int) := do
  let s ← forLoop (mapPoint dst tabs tabd) d 1 (List.replicate d 0, 1)
  pure s.1

/--
The images of the points up to `d`, from two tables. In `conv` is what happens to the entries of
`dst` when they are used as positions.
-/
def mapByTables (last : Bool) (conv : Int → Int) (size : Nat) (src dst : List Int) (d : Nat)
    : Result (Option (List Int)) := do
  match ← fillTable last id src dst size with
  | none => pure none
  | some tabs =>
    match ← fillTable last conv dst src size with
    | none => pure none
    | some tabd =>
      let out ← mapPoints dst tabs tabd d
      pure (some out)

-- Small case where we work on the stack. The entries 0 of the arrays are not used.
def mapOnStack : List Int → List Int → Nat → Result (Option (List Int)) :=
  mapByTables true id 512

-- Version with intermediate objects, the entries of `dst` are stored in variables of type `int`.
def mapOnHeap (src dst : List Int) (d : Nat) : Result (Option (List Int)) :=
  mapByTables false toInt d src dst d

end PermImpl

namespace PermOps

open PermImpl

def mappingPermListList (w : IntSize) (h : PermHeap) (src dst : List Int)
    : Result (Option (PermHeap × Nat)) := do
  if src.length ≠ dst.length then
    throw (.quit "MappingPermListList: <src> must have the same length as <dst> (lengths are %d and %d)"
      src.length dst.length)
  else
    let d ← largestEntry w "<src> must be a dense list of positive small integers" src 0
    let d ← largestEntry w "<dst> must be a dense list of positive small integers" dst d
    match ← (if d ≤ 512 then mapOnStack src dst d.toNat else mapOnHeap src dst d.toNat) with
    | none => pure none
    | some out => funcPermList w h out

end PermOps

-- `ASS_LIST`, for a plain list that may have holes
def assSparse {α : Type} (list : List (Option α)) (pos : Nat) (obj : α) : Result (List (Option α)) :=
  if pos = 0 then
    throw .access
  else if pos ≤ list.length then
    pure (list.set (pos - 1) (some obj))
  else
    pure (list ++ List.replicate (pos - 1 - list.length) none ++ [some obj])

-- `pos <= LEN_PLIST(list) && (Obj)0 != ELM_PLIST(list, pos)`
def isBound {α : Type} (list : List (Option α)) (pos : Nat) : Result Bool :=
  if pos ≤ list.length then do
    let elm ← elmPlist list pos
    pure elm.isSome
  else
    pure false

-- `ASS_LIST`, for a list without holes
def assDense {α : Type} (list : List α) (pos : Nat) (obj : α) : Result (List α) :=
  if pos = list.length + 1 then
    pure (list ++ [obj])
  else
    setElmPlist list pos obj

/--
The arguments of `AGEST` that are changed, and the bags of the permutations. The labels are numbers
of permutations. Only `AGESTC` has the list `cycles`.
-/
structure AgestState where
  heap : PermHeap
  orbit : List Int
  translabels : List (Option Nat)
  transversal : List (Option Nat)
  cycles : Option (List (Option Bool))
  len2 : Nat
  deriving DecidableEq, Repr

namespace PermImpl

-- `QuoIntPerm`, and the value of the immediate integer that it returns.
def myquo (w : IntSize) (h : PermHeap) (pt : Int) (perm : Nat) : Result (PermHeap × Nat) := do
  let (h, img) ← PermOps.quoInt w h pt perm
  if 0 < img ∧ w.IsSmall img then pure (h, img.toNat) else throw .access

-- `ASS_LIST(cycles, pos, val)`
def assCycles (cycles : Option (List (Option Bool))) (pos : Nat) (val : Bool)
    : Result (Option (List (Option Bool))) :=
  match cycles with
  | none => pure none
  | some list => do
    let list ← assSparse list pos val
    pure (some list)

-- The image of the point at position `i` under the label `oj`.
def addImage (w : IntSize) (labels : List Nat) (i : Nat) (pt : Int) (oj : Nat) (s : AgestState)
    : Result AgestState := do
  let lj ← elmPlist labels oj
  let (heap, img) ← myquo w s.heap pt lj
  if ← isBound s.translabels img then
    let cycles ← assCycles s.cycles i true
    pure { s with heap := heap, cycles := cycles }
  else
    let translabels ← assSparse s.translabels img oj
    let transversal ← assSparse s.transversal img lj
    let orbit ← assDense s.orbit (s.len2 + 1) img
    let cycles ← assCycles s.cycles (s.len2 + 1) false
    pure
      { heap := heap
        orbit := orbit
        translabels := translabels
        transversal := transversal
        cycles := cycles
        len2 := s.len2 + 1 }

-- The images of the point at position `i` under all labels of a list.
def addImages (w : IntSize) (labels labs : List Nat) (i : Nat) (s : AgestState)
    : Result AgestState := do
  let pt ← elmPlist s.orbit i
  forLoop (fun j s => do addImage w labels i pt (← elmPlist labs j) s) labs.length 1 s

-- `while (i <= len2)`
def addNewImages (w : IntSize) (labels genlabels : List Nat) : Nat → Nat → AgestState
    → Result AgestState
  | 0, _, _ => throw .fuel
  | fuel + 1, i, s => do
    if i ≤ s.len2 then
      let s ← addImages w labels genlabels i s
      addNewImages w labels genlabels fuel (i + 1) s
    else
      pure s

/--
The body of `AGEST` and `AGESTC`. There are at most as many new points as a permutation can have.
-/
def extendOrbit (w : IntSize) (newlabs labels genlabels : List Nat) (s : AgestState)
    : Result AgestState := do
  let len := s.orbit.length
  let s ← forLoop (addImages w labels newlabs) len 1 { s with len2 := len }
  addNewImages w labels genlabels (PermTnum.maxDegPerm4 w + 1) (len + 1) s

end PermImpl

namespace PermOps

open PermImpl

def agest (w : IntSize) (heap : PermHeap) (orbit : List Int) (newlabs labels : List Nat)
    (translabels transversal : List (Option Nat)) (genlabels : List Nat) : Result AgestState :=
  extendOrbit w newlabs labels genlabels
    { heap := heap
      orbit := orbit
      translabels := translabels
      transversal := transversal
      cycles := none
      len2 := 0 }

def agestc (w : IntSize) (heap : PermHeap) (orbit : List Int) (newlabs : List Nat)
    (cycles : List (Option Bool)) (labels : List Nat) (translabels transversal : List (Option Nat))
    (genlabels : List Nat) : Result AgestState :=
  extendOrbit w newlabs labels genlabels
    { heap := heap
      orbit := orbit
      translabels := translabels
      transversal := transversal
      cycles := some cycles
      len2 := 0 }

end PermOps
