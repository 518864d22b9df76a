import GapKernel.PermList
import GapKernel.Plist

/-!
This module contains the records of ordered partitions. A cell is a segment of `points`, given by
its first position and its length, and `cellno` gives for every point the number of its cell.
-/

structure PartitionRec where
  points : List Nat
  cellno : List Nat
  firsts : List Nat
  lengths : List Int
  deriving DecidableEq, Repr

namespace PartitionRec

def InCell (P : PartitionRec) (cell pos : Nat) : Prop :=
  0 < cell ∧ cell ≤ P.firsts.length ∧ entryPlist P.firsts cell ≤ pos
    ∧ (pos : Int) < entryPlist P.firsts cell + entryPlist P.lengths cell

def cell (P : PartitionRec) (c : Nat) : Set Nat :=
  { pt | ∃ pos, P.InCell c pos ∧ entryPlist P.points pos = pt }

/--
The partition is consistent: `points` is a rearrangement of `points0`, the cells are not empty,
they are disjoint and cover all positions, and `cellno` gives the cell of each point.
-/
structure IsConsistent (P : PartitionRec) (points0 : List Nat) : Prop where
  perm : P.points.Perm points0
  nodup : points0.Nodup
  length_eq : P.lengths.length = P.firsts.length
  first_pos : ∀ c, 0 < c → c ≤ P.firsts.length → 0 < entryPlist P.firsts c
  length_pos : ∀ c, 0 < c → c ≤ P.firsts.length → 0 < entryPlist P.lengths c
  within : ∀ c, 0 < c → c ≤ P.firsts.length →
    (entryPlist P.firsts c + entryPlist P.lengths c : Int) ≤ P.points.length + 1
  cellno_eq : ∀ pos c, 0 < pos → pos ≤ P.points.length → 0 < c →
    (entryPlist P.cellno (entryPlist P.points pos) = c ↔ P.InCell c pos)
  covered : ∀ pos, 0 < pos → pos ≤ P.points.length →
    0 < entryPlist P.cellno (entryPlist P.points pos)
  hole : ∀ pt, pt ∉ P.points → entryPlist P.cellno pt = 0
  point_bounds : ∀ pt ∈ P.points, 0 < pt ∧ pt ≤ P.cellno.length

end PartitionRec

/-- The argument `Q` of `SplitCell`, a partition is given by its cell numbers. -/
inductive SplitArg where
  | partition (cellno : List Nat)
  | cell (points : List Nat)
  deriving DecidableEq, Repr

inductive MaxOut where
  | all
  | max (n : Nat)
  deriving DecidableEq, Repr

/-!
This section contains the functions for ordered partitions: `Partition`, `SplitCell` with its kernel
function `SPLIT_PARTITION`, `IsolatePoint` and `UndoRefinement`.
-/

def imagePoint (g : List Nat) (pt : Nat) : Nat :=
  PermList.image g (pt - 1) + 1

/-- `SplitCellTestfun1` and `SplitCellTestfun2` -/
def SplitArg.test (Q : SplitArg) (pt no : Nat) : Result Bool := do
  match Q with
  | partition cellno => return (← elmPlist cellno pt) = no
  | cell points => return if no = 1 then pt ∈ points else pt ∉ points

def MaxOut.maxmov (out : MaxOut) (length : Int) : Int :=
  match out with
  | max n => n
  | all => length - 1

namespace PartitionRec

def setCellno (cellno points : List Nat) (m : Nat) : Result (List Nat) :=
  points.foldlM (fun cellno pt => setElmPlist cellno pt m) cellno

def slice (points : List Nat) (lo hi : Nat) : Result (List Nat) :=
  if 0 < lo ∧ hi ≤ points.length then
    return (points.take hi).drop (lo - 1)
  else
    throw .access

def swap (points : List Nat) (a b : Nat) : Result (List Nat) := do
  let tmp ← elmPlist points a
  let points ← setElmPlist points a (← elmPlist points b)
  setElmPlist points b tmp

def scanDown (test : Nat → Result Bool) (points : List Nat) (B : Int) (b : Nat)
    : Result (Option Nat) := do
  match b with
  | 0 => throw .access
  | b + 1 =>
    if (b : Int) < B then
      return none
    else if ← test (← elmPlist points b) then
      scanDown test points B b
    else
      return some b

def scanUp (test : Nat → Result Bool) (points : List Nat) (lim a : Nat) : Result Nat := do
  if a + 1 ≥ lim then
    return a + 1
  else if ← test (← elmPlist points (a + 1)) then
    return a + 1
  else
    scanUp test points lim (a + 1)
termination_by lim - a

/--
The loop that `SplitCell` and `SPLIT_PARTITION` share. The library stops to increase `a` behind `b`,
the kernel at `b`. The limit `fuel` on the number of rounds is large enough if it is the first `b`.
-/
def splitLoop (kernel : Bool) (test : Nat → Result Bool) (B : Int) (fuel : Nat) (points : List Nat)
    (a b : Nat) : Result (List Nat × Option (Nat × Nat)) := do
  if a < b then
    match fuel with
    | 0 => throw .fuel
    | fuel + 1 =>
      match ← scanDown test points B b with
      | none => return (points, none)
      | some b =>
        let a ← scanUp test points (if kernel then b else b + 1) a
        let points ← if a < b then swap points a b else pure points
        splitLoop kernel test B fuel points a b
  else
    return (points, some (a, b))

/-- The first position of the points that move out, as the kernel function returns it. -/
def splitPartition (test : Nat → Result Bool) (points : List Nat) (first l : Nat) (max : Int)
    : Result (List Nat × Option Nat) := do
  let blim := l + 1 - max - 1
  let (points, res) ← splitLoop true test blim (l + 1) points (first - 1) (l + 1)
  return (points, res.map fun (_, b) => b + 1)

def splitLibrary (test : Nat → Result Bool) (points : List Nat) (first l : Nat) (maxmov : Int)
    : Result (List Nat × Option Nat) := do
  let B := l - maxmov
  let (points, res) ← splitLoop false test B (l + 1) points (first - 1) (l + 1)
  return (points, res.map fun (a, _) => a)

def collect (Q : SplitArg) (internal : Bool) (test : Nat → Result Bool) (points : List Nat)
    (first l : Nat) (maxmov : Int) : Result (List Nat × Option Nat) :=
  match Q with
  | .partition _ =>
    if internal then
      splitPartition test points first l maxmov
    else
      splitLibrary test points first l maxmov
  | .cell _ => splitLibrary test points first l maxmov

def newCell (P : PartitionRec) (i a l : Nat) : Result (PartitionRec × Int) := do
  let m := P.firsts.length + 1
  let cellno ← setCellno P.cellno (← slice P.points a l) m
  let length : Int := l - a + 1
  let lengths ← setElmPlist (P.lengths ++ [length]) i ((← elmPlist P.lengths i) - length)
  return ({ P with cellno, firsts := P.firsts ++ [a], lengths }, length)

def finishSplit (P : PartitionRec) (i l : Nat) (a : Option Nat)
    : Result (PartitionRec × Option Int) := do
  match a with
  | none => return (P, none)
  | some a =>
    if a > l then
      -- No point moved out.
      return (P, none)
    else
      let (P, length) ← P.newCell i a l
      return (P, some length)

/--
`SplitCell`, the second component is nothing for `false`. The flag tells that `P.points` is a plain
list and `g` is internal.
-/
def splitCell (P : PartitionRec) (i : Nat) (Q : SplitArg) (j : Nat) (g : List Nat) (out : MaxOut)
    (internal : Bool) : Result (PartitionRec × Option Int) := do
  let first ← elmPlist P.firsts i
  let length ← elmPlist P.lengths i
  let l := (first + length - 1).toNat
  let test := fun pt => Q.test (imagePoint g pt) j
  let (points, a) ← collect Q internal test P.points first l (out.maxmov length)
  finishSplit { P with points } i l a

def position (points : List Nat) (pt start : Nat) : Result Nat :=
  match (points.drop start).idxOf? pt with
  | some k => return start + k + 1
  | none => throw .access

def isolatePoint (P : PartitionRec) (pt : Nat) : Result (PartitionRec × Option Nat) := do
  let i ← elmPlist P.cellno pt
  let length ← elmPlist P.lengths i
  if length = 1 then
    return (P, none)
  else
    let first ← elmPlist P.firsts i
    let pos ← position P.points pt (first - 1)
    let l := (first + length - 1).toNat
    let points ← setElmPlist P.points pos (← elmPlist P.points l)
    let points ← setElmPlist points l pt
    let m := P.firsts.length + 1
    let cellno ← setElmPlist P.cellno pt m
    let lengths ← setElmPlist (P.lengths ++ [1]) i (length - 1)
    return ({ points, cellno, firsts := P.firsts ++ [l], lengths }, some i)

def undoRefinement (P : PartitionRec) : Result (PartitionRec × Option Nat) := do
  let M := P.firsts.length
  let pfm ← elmPlist P.firsts M
  if pfm = 1 then
    return (P, none)
  else
    let plm ← elmPlist P.lengths M
    let m ← elmPlist P.cellno (← elmPlist P.points (pfm - 1))
    let lengths ← setElmPlist P.lengths m ((← elmPlist P.lengths m) + plm)
    let cellno ← setCellno P.cellno (← slice P.points pfm (pfm + plm - 1).toNat) m
    return ({ P with cellno, firsts := P.firsts.dropLast, lengths := lengths.dropLast }, some m)

def initialCellno (list : List (List Nat)) : Result (List Nat) :=
  match list with
  | [] => return []
  | _ =>
    match list.flatten.max? with
    | some max => return List.replicate max 0
    | none => throw .access

/-- `Partition` -/
def ofCells (list : List (List Nat)) : Result PartitionRec := do
  let cellno ← initialCellno list
  go list { points := list.flatten, cellno, firsts := [], lengths := [] } 1
where
  go (list : List (List Nat)) (P : PartitionRec) (i : Nat) : Result PartitionRec := do
    match list with
    | [] => return P
    | cell :: list =>
      if cell.length = 0 then
        throw (.quit "Partition: cells must not be empty" 0 0)
      else
        let firsts := P.firsts ++ [i]
        let cellno ← setCellno P.cellno cell firsts.length
        go list { P with cellno, firsts, lengths := P.lengths ++ [(cell.length : Int)] }
          (i + cell.length)

end PartitionRec
