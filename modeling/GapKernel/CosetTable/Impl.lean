import GapKernel.ForLoop
import GapKernel.IntObj
import GapKernel.Plist

/-!
This module contains coset tables. The columns `2 * i - 1` and `2 * i` belong to a generator and its
inverse, an entry is `0` where the table is not defined. The functions that standardize a table and
make a relator canonical are at the end.
-/

abbrev CosetTable := List (List Nat)

namespace CosetTable

def elm (t : CosetTable) (a p : Nat) : Result Nat := do
  let col ← elmPlist t a
  elmPlist col p

def setElm (t : CosetTable) (a p q : Nat) : Result CosetTable := do
  let col ← elmPlist t a
  let col ← setElmPlist col p q
  setElmPlist t a col

def invCol (a : Nat) : Nat :=
  if a % 2 = 1 then
    a + 1
  else
    a - 1

end CosetTable

/-!
This section contains the scans of the low index procedure. A relator is a bag with its length, and
then its letters, which are numbers of columns.
-/

/-- The stack entries `s1` and `s2`. `len` is the length of the plain lists, which can be smaller than
the size of their bags. -/
structure ScanStack where
  s1 : List Nat
  s2 : List Nat
  len : Nat
  deriving DecidableEq, Repr

/-- What `RelatorScan` returns: `0`, `1`, or `2` with the new table, `ret1` and `ret2`. -/
inductive ScanResult where
  | conflict
  | closed
  | deduction (t : CosetTable) (ret1 ret2 : Nat)
  deriving DecidableEq, Repr

namespace CosetTable

def scanForward (t : CosetTable) (r : List Nat) (m : Nat)
    : (rounds p pa i : Nat) → Result (Nat × Nat × Nat)
  | 0, _, _, _ => throw .fuel
  | n + 1, p, pa, i =>
    if p ≠ 0 ∧ i ≤ m + 1 then do
      let a ← elmPlist r i
      let q ← t.elm a p
      scanForward t r m n q p (if q ≠ 0 then i + 1 else i)
    else
      return (p, pa, i)

def scanBackward (t : CosetTable) (r : List Nat) (i : Nat)
    : (rounds p pb j : Nat) → Result (Nat × Nat × Nat)
  | 0, _, _, _ => throw .fuel
  | n + 1, p, pb, j =>
    if p ≠ 0 ∧ i ≤ j then do
      let a ← elmPlist r j
      let q ← t.elm (if a % 2 = 1 then a + 1 else a - 1) p
      scanBackward t r i n q p (if q ≠ 0 then j - 1 else j)
    else
      return (p, pb, j)

def relatorScan (t : CosetTable) (di : Nat) (r : List Nat) : Result ScanResult := do
  let m ← elmPlist r 1
  let (p, pa, i) ← scanForward t r m (m + 2) di 0 2
  if m + 1 < i then
    if p = di then
      return .closed
    else
      return .conflict
  else
    let (p, pb, j) ← scanBackward t r i (m + 2) di 0 (m + 1)
    if j < i then
      if p = pa then
        return .closed
      else
        return .conflict
    else if j = i then
      let a ← elmPlist r i
      if a % 2 = 0 then
        let p := a - 1
        let t ← t.setElm a pa pb
        let t ← t.setElm p pb pa
        return .deduction t pb p
      else
        let p := a + 1
        let t ← t.setElm a pa pb
        let t ← t.setElm p pb pa
        return .deduction t pa a
    else
      return .closed

end CosetTable

namespace ScanStack

def push (s : ScanStack) (setLen : Bool) (j sd d x : Nat) : Result (ScanStack × Nat) := do
  if sd < j then
    let sd := 2 * sd
    let s1 ← setElmPlist (s.s1 ++ List.replicate (sd - s.s1.length) 0) j d
    let s2 ← setElmPlist (s.s2 ++ List.replicate (sd - s.s2.length) 0) j x
    return ({ s1 := s1, s2 := s2, len := if setLen then sd else s.len }, sd)
  else
    let s1 ← setElmPlist s.s1 j d
    let s2 ← setElmPlist s.s2 j x
    return ({ s with s1 := s1, s2 := s2 }, sd)

def clear (s : ScanStack) (sd : Nat) : Result ScanStack :=
  if sd ≤ s.s1.length ∧ sd ≤ s.s2.length then
    return { s with
      s1 := List.replicate sd 0 ++ s.s1.drop sd
      s2 := List.replicate sd 0 ++ s.s2.drop sd }
  else
    throw .access

end ScanStack

structure ScanState where
  t : CosetTable
  stack : ScanStack
  j : Nat
  sd : Nat
  deriving DecidableEq, Repr

namespace CosetTable

/-- The relators `rx[i]`, …, `rx[i + n - 1]` at the coset `d`. Only the first one of the two loops sets
the lengths of the stacks. -/
def scanRelators (setLen : Bool) (rx : List (List Nat)) (d : Nat)
    : (n i : Nat) → ScanState → Result (Bool × ScanState)
  | 0, _, st => return (true, st)
  | n + 1, i, st => do
    let r ← elmPlist rx i
    match ← relatorScan st.t d r with
    | .conflict => return (false, st)
    | .closed => scanRelators setLen rx d n (i + 1) st
    | .deduction t ret1 ret2 =>
      let (stack, sd) ← st.stack.push setLen (st.j + 1) st.sd ret1 ret2
      scanRelators setLen rx d n (i + 1) { t := t, stack := stack, j := st.j + 1, sd := sd }

def scanStack (r : List (List (List Nat))) : (rounds : Nat) → ScanState → Result (Bool × ScanState)
  | 0, _ => throw .fuel
  | n + 1, st =>
    if st.j = 0 then
      return (true, st)
    else do
      let d ← elmPlist st.stack.s1 st.j
      let x ← elmPlist st.stack.s2 st.j
      let rx ← elmPlist r x
      let l := rx.length
      let (ok, st) ← scanRelators true rx d l 1 { st with j := st.j - 1 }
      let e ← st.t.elm x d
      let rx ← elmPlist r (x + 1)
      if ok then
        let (ok, st) ← scanRelators false rx e l 1 st
        if ok then
          scanStack r n st
        else
          return (false, st)
      else
        return (false, st)

def size (t : CosetTable) : Nat :=
  (t.map List.length).sum

def lowindexCosetScan (t : CosetTable) (r : List (List (List Nat))) (stack : ScanStack)
    : Result (Bool × CosetTable × ScanStack) := do
  let (ok, st) ← scanStack r (t.size + 2) { t := t, stack := stack, j := 1, sd := stack.len }
  let stack ← st.stack.clear st.sd
  return (ok, st.t, stack)

end CosetTable

/-!
This section contains the queue of the deductions. The table is a list of columns whose entries can
be negative, positions in the queue start at 0.
-/

structure DeductionQueue where
  dedgen : List Nat
  dedcos : List Nat
  dedfst : Nat
  dedlst : Int
  dedSize : Nat
  dedprint : Bool
  output : List String
  deriving DecidableEq, Repr

namespace DeductionQueue

def tableEntry (t : List (List Int)) (gen cos : Nat) : Result Int := do
  let col ← elmPlist t gen
  elmPlist col cos

def compressRound (t : List (List Int)) (i : Nat)
    : List Nat × List Nat × Nat → Result (List Nat × List Nat × Nat)
  | (dedgen, dedcos, j) => do
    let gen ← readAt dedgen i
    let cos ← readAt dedcos i
    let entry ← tableEntry t gen cos
    if 0 < entry ∧ j < i then
      let dedgen ← writeAt dedgen j gen
      let dedcos ← writeAt dedcos j cos
      return (dedgen, dedcos, j + 1)
    else
      return (dedgen, dedcos, j)

def compressDeductionList (q : DeductionQueue) (t : List (List Int)) : Result DeductionQueue := do
  if q.dedlst ≠ q.dedSize then
    throw (.quit "invalid call of CompressDeductionList" 0 0)
  else
    let (dedgen, dedcos, j) ← forLoop (compressRound t) (q.dedlst.toNat - q.dedfst) q.dedfst
      (q.dedgen, q.dedcos, 0)
    let q := { q with dedgen := dedgen, dedcos := dedcos, dedfst := 0, dedlst := j }
    if q.dedlst = q.dedSize then
      let q := if q.dedprint then q else { q with
        output := q.output ++ ["#I  WARNING: deductions being discarded\n"]
        dedprint := true }
      return { q with dedlst := q.dedlst - 1 }
    else
      return q

end DeductionQueue

namespace CosetTable

def cancelEnds (ptRel : List Int) : (leng1 i : Nat) → Result (Nat × Nat)
  | 0, i => return (i, 0)
  | leng1 + 1, i =>
    if i < leng1 + 1 then do
      let x ← readAt ptRel i
      let y ← readAt ptRel (leng1 + 1)
      if x = -y then
        cancelEnds ptRel leng1 (i + 1)
      else
        return (i, leng1 + 1)
    else
      return (i, leng1 + 1)

def cyclicallyReduce (ptRel : List Int) : Result (List Int × Nat) := do
  let (i, leng1) ← cancelEnds ptRel (ptRel.length - 1) 0
  if i > 0 then
    let ptRel ← forLoop (fun j ptRel => do
      let x ← readAt ptRel j
      writeAt ptRel (j - i) x) (leng1 + 1 - i) i ptRel
    return (ptRel, leng1 + 1 - i)
  else
    return (ptRel, ptRel.length)

/-- `max` is at the position `i` for the first time, `min` at the position `j` for the last time. -/
structure Extrema where
  max : Int
  min : Int
  i : Nat
  j : Nat
  deriving DecidableEq, Repr

def findExtrema (ptRel : List Int) (leng : Nat) : Result Extrema := do
  let first ← readAt ptRel 0
  forLoop (fun k s => do
    let next ← readAt ptRel k
    if next > s.max then
      return { s with max := next, i := k }
    else if next ≤ s.min then
      return { s with min := next, j := k }
    else
      return s) (leng - 1) 1 { max := first, min := first, i := 0, j := 0 }

/--
The loops over `l`, they go on from `ii` and `kk` as long as the entries are equal. `cmp` compares
the entry at `kk` with the one at `ii`.
-/
def compareWords (cmp : Int → Int → Ordering) (ptRel : List Int) (leng stepI stepK : Nat)
    : (rounds ii kk : Nat) → Result Ordering
  | 0, _, _ => return .eq
  | n + 1, ii, kk => do
    let y ← readAt ptRel ii
    let x ← readAt ptRel kk
    match cmp x y with
    | .lt => return .lt
    | .gt => return .gt
    | .eq => compareWords cmp ptRel leng stepI stepK n ((ii + stepI) % leng) ((kk + stepK) % leng)

def searchLast (cmpAt : Nat → Nat → Result Ordering) : (ks : List Nat) → (i : Nat) → Result Nat
  | [], i => return i
  | k :: ks, i => do
    match ← cmpAt i k with
    | .lt => searchLast cmpAt ks i
    | .gt => searchLast cmpAt ks k
    | .eq => return i

def lastRotation (ptRel : List Int) (leng : Nat) (s : Extrema) : Result Nat :=
  if s.max < -s.min then
    return leng
  else
    searchLast (fun i k => compareWords (fun x y => compare x y) ptRel leng 1 1 leng i k)
      (List.range' (s.i + 1) (leng - (s.i + 1))) s.i

def lastInverse (ptRel : List Int) (leng : Nat) (s : Extrema) : Result Nat :=
  if -s.max < s.min then
    return leng
  else
    searchLast
      (fun j k => compareWords (fun x y => compare y x) ptRel leng (leng - 1) (leng - 1) leng j k)
      (List.range s.j).reverse s.j

def chooseWord (ptRel : List Int) (leng : Nat) (s : Extrema) : Result (Nat × Nat) := do
  let i ← lastRotation ptRel leng s
  let j ← lastInverse ptRel leng s
  if -s.min = s.max then
    match ← compareWords (fun x y => compare (-x) y) ptRel leng 1 (leng - 1) leng i j with
    | .gt => return (leng, j)
    | _ => return (i, j)
  else
    return (i, j)

def invertRelator (w : IntSize) (ptRel : List Int) (leng : Nat) : Result (List Int) := do
  let ptRel ← forLoop (fun k ptRel => do
    let next ← readAt ptRel k
    let x ← readAt ptRel (leng - 1 - k)
    let ptRel ← writeAt ptRel k (w.intobj (-x))
    writeAt ptRel (leng - 1 - k) (w.intobj (-next))) (leng / 2) 0 ptRel
  if leng % 2 = 1 then
    let x ← readAt ptRel ((leng - 1) / 2)
    writeAt ptRel ((leng - 1) / 2) (w.intobj (-x))
  else
    return ptRel

def invertChosen (w : IntSize) (ptRel : List Int) (leng i j : Nat) : Result (List Int × Nat) :=
  if i = leng then do
    let ptRel ← invertRelator w ptRel leng
    return (ptRel, leng - 1 - j)
  else
    return (ptRel, i)

structure RotateState where
  ptRel : List Int
  jj : Nat
  obj1 : Int
  deriving DecidableEq, Repr

def rotateCycle (ptRel : List Int) (leng i l j : Nat) : Result (List Int) := do
  let jj := (j + i) % leng
  let obj1 ← readAt ptRel jj
  let s ← forLoop (fun _ (s : RotateState) => do
    let jj := (s.jj + (leng - i)) % leng
    let obj2 ← readAt s.ptRel jj
    let ptRel ← writeAt s.ptRel jj s.obj1
    return { ptRel := ptRel, jj := jj, obj1 := obj2 }) l 0
    { ptRel := ptRel, jj := jj, obj1 := obj1 }
  return s.ptRel

def rotateRelator (ptRel : List Int) (leng i : Nat) : Result (List Int) :=
  if i > 0 then
    let k := Nat.gcd i leng
    forLoop (fun j ptRel => rotateCycle ptRel leng i (leng / k) j) k 0 ptRel
  else
    return ptRel

def makeCanonical (w : IntSize) (rel : List Int) : Result (List Int) := do
  if rel.length = 0 then
    return rel
  else
    let (ptRel, leng) ← cyclicallyReduce rel
    let s ← findExtrema ptRel leng
    let (i, j) ← chooseWord ptRel leng s
    let (ptRel, i) ← invertChosen w ptRel leng i j
    let ptRel ← rotateRelator ptRel leng i
    return ptRel.take leng

example : makeCanonical .int8 [1, 2, -3, -2, -1] = .ok [3] := by
  decide

end CosetTable

inductive ColPair (α : Type) where
  | two (h i : List α)
  | one (h : List α)
  deriving DecidableEq, Repr

namespace ColPair

variable {α : Type}

def fst (p : ColPair α) : List α :=
  match p with
  | two h _ => h
  | one h => h

def snd (p : ColPair α) : List α :=
  match p with
  | two _ i => i
  | one h => h

def isTwo (p : ColPair α) : Bool :=
  match p with
  | two _ _ => true
  | one _ => false

def map (f : List α → List α) (p : ColPair α) : ColPair α :=
  match p with
  | two h i => two (f h) (f i)
  | one h => one (f h)

end ColPair

namespace CosetTable

/-- `objTable2` is only there for an augmented coset table. -/
structure StanState (α : Type) where
  table : List (ColPair Nat)
  table2 : Option (List (ColPair α))
  lcos : Nat
  deriving DecidableEq, Repr

variable {α : Type}

/-- `if ( c != 0 )  i[c] = INTOBJ_INT( d );` -/
def renameEntry (i : List Nat) (c d : Nat) : Result (List Nat) :=
  if c ≠ 0 then setElmPlist i c d else return i

def swapEntries {β : Type} (h : List β) (lcos mcos : Nat) : Result (List β) := do
  let tmp ← elmPlist h lcos
  let x ← elmPlist h mcos
  let h ← setElmPlist h lcos x
  setElmPlist h mcos tmp

def swapPair (lcos mcos : Nat) (p : ColPair Nat) : Result (ColPair Nat) :=
  match p with
  | .two h i => do
    let c1 ← elmPlist h lcos
    let c2 ← elmPlist h mcos
    let i ← renameEntry i c1 mcos
    let i ← renameEntry i c2 lcos
    let h ← swapEntries h lcos mcos
    let c1 ← elmPlist i lcos
    let c2 ← elmPlist i mcos
    let h ← renameEntry h c1 mcos
    let h ← renameEntry h c2 lcos
    let i ← swapEntries i lcos mcos
    return .two h i
  | .one h => do
    let c1 ← elmPlist h lcos
    let c2 ← elmPlist h mcos
    let h ← renameEntry h c1 mcos
    let h ← renameEntry h c2 lcos
    let h ← swapEntries h lcos mcos
    return .one h

def swapPair2 (lcos mcos : Nat) (two : Bool) (p : ColPair α) : Result (ColPair α) :=
  match p with
  | .two h2 i2 => do
    let h2 ← swapEntries h2 lcos mcos
    if two then
      let i2 ← swapEntries i2 lcos mcos
      return .two h2 i2
    else
      return .two h2 i2
  | .one h2 => do
    let h2 ← swapEntries h2 lcos mcos
    if two then
      let h2 ← swapEntries h2 lcos mcos
      return .one h2
    else
      return .one h2

def swapRows2 (lcos mcos : Nat)
    : (table : List (ColPair Nat)) → (table2 : List (ColPair α)) → Result (List (ColPair α))
  | [], table2 => return table2
  | _ :: _, [] => throw .access
  | p :: table, p2 :: table2 => do
    let p2 ← swapPair2 lcos mcos p.isTwo p2
    let table2 ← swapRows2 lcos mcos table table2
    return p2 :: table2

def swapRows (s : StanState α) (lcos mcos : Nat) : Result (StanState α) := do
  let table ← s.table.mapM (swapPair lcos mcos)
  match s.table2 with
  | none => return { s with table := table, lcos := lcos }
  | some table2 => do
    let table2 ← swapRows2 lcos mcos s.table table2
    return { table := table, table2 := some table2, lcos := lcos }

def columnAt (table : List (ColPair Nat)) (k : Nat) : Result (List Nat) := do
  let p ← elmPlist table ((k + 1) / 2)
  return if k % 2 = 1 then p.fst else p.snd

def visitEntry (acos k : Nat) (s : StanState α) : Result (StanState α) := do
  let g ← columnAt s.table k
  let c ← elmPlist g acos
  if s.lcos + 1 < c then
    swapRows s (s.lcos + 1) c
  else if s.lcos < c then
    return { s with lcos := s.lcos + 1 }
  else
    return s

def scanRow (nrgen nloop acos : Nat) (s : StanState α) : Result (StanState α) :=
  forLoop (fun j s => visitEntry acos (if nloop = nrgen then 2 * j - 1 else j) s) nloop 1 s

def standardizeLoop (nrgen nloop : Nat)
    : (rounds acos : Nat) → (s : StanState α) → Result (StanState α)
  | 0, _, _ => throw .fuel
  | n + 1, acos, s =>
    if acos ≤ s.lcos then do
      let s ← scanRow nrgen nloop acos s
      standardizeLoop nrgen nloop n (acos + 1) s
    else
      return s

def nrRows (table : List (ColPair Nat)) : Nat :=
  match table with
  | [] => 0
  | p :: _ => p.fst.length

def standardize (table : List (ColPair Nat)) (table2 : Option (List (ColPair α))) (stan : Int)
    : Result (StanState α) :=
  let nrgen := table.length
  let nloop := if stan = 1 then nrgen else nrgen * 2
  standardizeLoop nrgen nloop (nrRows table + 2) 1 { table := table, table2 := table2, lcos := 1 }

def shrink {β : Type} (table : List (ColPair β)) (nrgen lcos : Nat) : List (ColPair β) :=
  (table.take nrgen).map (fun p => p.map fun h => h.take lcos) ++ table.drop nrgen

def funcStandardizeTableC (table : List (ColPair Nat)) (stan : Int)
    : Result (List (ColPair Nat)) := do
  let s : StanState Nat ← standardize table none stan
  return shrink s.table table.length s.lcos

def funcStandardizeTable2C (table : List (ColPair Nat)) (table2 : List (ColPair α)) (stan : Int)
    : Result (List (ColPair Nat) × List (ColPair α)) := do
  let s ← standardize table (some table2) stan
  return (shrink s.table table.length s.lcos, shrink (s.table2.getD []) table.length s.lcos)

example : funcStandardizeTableC [.two [3, 1, 4, 2] [2, 4, 1, 3]] 0
    = .ok [.two [2, 4, 1, 3] [3, 1, 4, 2]] := by
  decide

end CosetTable
