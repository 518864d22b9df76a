import GapKernel.VecGF2.Impl.Coeffs
import Mathlib.Data.List.DropRight

/-!
This module contains the compressed matrices over the field with two elements as lists that can be
changed, where a row is an object `E` and the entries of a plain list can be holes, and their
Kronecker product and transposed, where all rows have the length of the first one.
-/

/-- `bag` has the rows, without the type and the length `len` in front of them. -/
inductive MatObj (E : Type) where
  | gf2mat (len : Nat) (bag : List (Option E))
  | plist (entries : List (Option E))
  deriving DecidableEq, Repr

namespace GF2MatImpl

variable {E : Type}

def resizeBag (bag : List (Option E)) (size : Nat) : List (Option E) :=
  bag.take size ++ List.replicate (size - bag.length) none

def elmGF2Mat (bag : List (Option E)) (pos : Nat) : Result E :=
  match bag.getD (pos - 1) none with
  | some elm => return elm
  | none => throw .access

def setElmGF2Mat (bag : List (Option E)) (pos : Nat) (elm : E) : Result (List (Option E)) :=
  if pos - 1 < bag.length then
    return bag.set (pos - 1) (some elm)
  else
    throw .access

def plainGF2Mat (len : Nat) (bag : List (Option E)) : List (Option E) :=
  bag.take len

def assPlist (list : List (Option E)) (pos : Nat) (val : E) : List (Option E) :=
  (list ++ List.replicate (pos - list.length) none).set (pos - 1) (some val)

def dropHoles (list : List (Option E)) : List (Option E) :=
  list.rdropWhile Option.isNone

def unbPlist (list : List (Option E)) (pos : Nat) : List (Option E) :=
  if pos < list.length then
    list.set (pos - 1) none
  else if pos = list.length then
    dropHoles (list.set (pos - 1) none)
  else
    list

section

/-! `vecLen` is the length of a GF2 vector. The types that lock the rows are left out. -/

variable (vecLen : E → Option Nat)

def funcAssGF2Mat (len : Nat) (bag : List (Option E)) (p : Nat) (elm : E) : Result (MatObj E) :=
  match vecLen elm with
  | none => return .plist (assPlist (plainGF2Mat len bag) p elm)
  | some lenElm => do
    if p = 1 ∧ 1 ≥ len then
      let bag ← setElmGF2Mat (resizeBag bag p) p elm
      return .gf2mat len bag
    else if p > len + 1 then
      return .plist (assPlist (plainGF2Mat len bag) p elm)
    else
      let row ← elmGF2Mat bag 1
      match vecLen row with
      | none => throw .access
      | some lenRow =>
        if lenElm = lenRow then
          if len + 1 = p then
            let bag ← setElmGF2Mat (resizeBag bag p) p elm
            return .gf2mat p bag
          else
            let bag ← setElmGF2Mat bag p elm
            return .gf2mat len bag
        else
          return .plist (assPlist (plainGF2Mat len bag) p elm)

end

def funcUnbGF2Mat (len : Nat) (bag : List (Option E)) (p : Nat) : MatObj E :=
  if p > 1 ∧ len < p then
    .gf2mat len bag
  else if len = p then
    .gf2mat (p - 1) (resizeBag bag (p - 1))
  else
    .plist (unbPlist (plainGF2Mat len bag) p)

def funcSwapRowsGF2Mat (m : Nat) (bag : List (Option E)) (r1 r2 : Nat) : Result (MatObj E) := do
  if m < r1 then
    throw (.quit "row index %d exceeds %d, the number of rows" r1 m)
  if m < r2 then
    throw (.quit "row index %d exceeds %d, the number of rows" r2 m)
  let a ← elmGF2Mat bag r1
  let b ← elmGF2Mat bag r2
  let bag ← setElmGF2Mat bag r1 b
  let bag ← setElmGF2Mat bag r2 a
  return .gf2mat m bag

end GF2MatImpl

open GF2Vec

namespace GF2Impl

variable {w : Nat}

section Kronecker

/-! A copy of a row of `matr` that is shifted by `i` has one more block. -/

def copyRow (row : GF2Vec w) (ncolr : Nat) (data : List (BitVec w)) : Result (List (BitVec w)) := do
  let data ← forLoop (fun k data => do
    let x ← readAt row.blocks k
    writeAt data k x) ((ncolr + w - 1) / w) 0 data
  writeAt data ((ncolr + w - 1) / w) 0#w

def shiftRow (row : GF2Vec w) (ncolr i : Nat) (data : List (BitVec w))
    : Result (List (BitVec w)) := do
  let x ← readAt row.blocks 0
  let x ← shlWord x i
  let data ← writeAt data 0 x
  let data ← forLoop (fun k data => do
    let x ← readAt row.blocks k
    let y ← readAt row.blocks (k - 1)
    let x ← shlWord x i
    let y ← shrWord y (w - i)
    writeAt data k (x ||| y)) ((ncolr + w - 1) / w - 1) 1 data
  -- the value of `k` after the loop
  let k := max 1 ((ncolr + w - 1) / w)
  let y ← readAt row.blocks (k - 1)
  let y ← shrWord y (w - i)
  writeAt data k y

def shiftRows (row : GF2Vec w) (ncolr : Nat) (shift : List (List (BitVec w)))
    : Result (List (List (BitVec w))) := do
  let data ← readAt shift 0
  let data ← copyRow row ncolr data
  let shift ← writeAt shift 0 data
  forLoop (fun i shift => do
    let data ← readAt shift i
    let data ← shiftRow row ncolr i data
    writeAt shift i data) (w - 1) 1 shift

def copyBlocks (datar : List (BitVec w)) (ncolr l : Nat) (data : List (BitVec w)) (p q : Nat)
    : Result (List (BitVec w) × Nat × Nat) :=
  stepLoop (fun _ (data, p, q) => do
    let x ← readAt datar q
    let data ← writeAt data p x
    return (data, p + 1, q + 1)) w ncolr (ncolr + 1) l (data, p, q)

def appendShift (datar : List (BitVec w)) (ncolr ncol : Nat) (data : List (BitVec w)) (p : Nat)
    : Result (List (BitVec w) × Nat) := do
  if ncol % w ≠ 0 then
    if p = 0 then
      throw .access
    let x ← readAt datar 0
    let data ← xorAt data (p - 1) x
    let (data, p, _) ← copyBlocks datar ncolr (w - ncol % w) data p 1
    return (data, p)
  else
    let (data, p, _) ← copyBlocks datar ncolr 0 data p 0
    return (data, p)

/-- `data` points into `blocks` with `p`. -/
def kroneckerEntry (rowl : GF2Vec w) (shift : List (List (BitVec w))) (ncolr k : Nat)
    : List (BitVec w) × Nat × Nat → Result (List (BitVec w) × Nat × Nat)
  | (data, p, ncol) => do
    let block ← readAt rowl.blocks ((k - 1) / w)
    let mask ← shlWord 1#w ((k - 1) % w)
    if block &&& mask ≠ 0#w then
      let datar ← readAt shift (ncol % w)
      let (data, p) ← appendShift datar ncolr ncol data p
      return (data, p, ncol + ncolr)
    else
      let l := if ncol % w ≠ 0 then w - ncol % w else 0
      return (data, p + (ncolr + w - 1 - l) / w, ncol + ncolr)

def kroneckerRow (rowl : GF2Vec w) (shift : List (List (BitVec w))) (ncoll ncolr : Nat)
    (row : GF2Vec w) : Result (GF2Vec w) := do
  let (data, _) ← forLoop (kroneckerEntry rowl shift ncolr) ncoll 1 (row.blocks, 0, 0)
  return { row with blocks := data }

def kroneckerRows (matl : GF2Mat w) (shift : List (List (BitVec w))) (nrowr ncoll ncolr j : Nat)
    (rows : List (GF2Vec w)) : Result (List (GF2Vec w)) :=
  forLoop (fun i rows => do
    let row ← readAt rows ((i - 1) * nrowr + j - 1)
    let rowl ← matl.elm i
    let row ← kroneckerRow rowl shift ncoll ncolr row
    writeAt rows ((i - 1) * nrowr + j - 1) row) matl.len 1 rows

/-- The products of the numbers of rows and columns are computed with words. -/
def funcKroneckerProductGF2MatGF2Mat (matl matr : GF2Mat w) : Result (GF2Mat w) := do
  let nrowr := matr.len
  let nrowp := matl.len * nrowr % 2 ^ w
  let rowl1 ← matl.elm 1
  let ncoll := rowl1.len
  let rowr1 ← matr.elm 1
  let ncolr := rowr1.len
  let ncolp := ncoll * ncolr % 2 ^ w
  let rows := List.replicate nrowp (GF2Vec.new ncolp)
  -- the bags of the shifts are used without the type and the length
  let shift := List.replicate w (List.replicate (2 + (ncolr + 2 * w + w - 1) / w) 0#w)
  let (rows, _) ← forLoop (fun j (rows, shift) => do
    let row ← matr.elm j
    let shift ← shiftRows row ncolr shift
    let rows ← kroneckerRows matl shift nrowr ncoll ncolr j rows
    return (rows, shift)) nrowr 1 (rows, shift)
  return { rows := rows }

end Kronecker

section Transposed

def tileVals (mat : GF2Mat w) (l i n : Nat) : Result (List (BitVec w)) :=
  (List.range w).mapM (fun j =>
    if i + j > l then
      return 0#w
    else do
      let row ← mat.elm (i + j)
      readAt row.blocks n)

/-- `s` has `val` and `bit`. -/
def addTransposedBit (mask : BitVec w) (s : BitVec w × BitVec w) (x : BitVec w)
    : BitVec w × BitVec w :=
  (if mask = x &&& mask then s.1 ||| s.2 else s.1, s.2 <<< 1)

def transposedVal (vals : List (BitVec w)) (mask : BitVec w) : BitVec w :=
  (vals.foldl (addTransposedBit mask) (0#w, 1#w)).1

def writeTile (vals : List (BitVec w)) (wd imod n : Nat) (rows : List (GF2Vec w))
    : Result (List (GF2Vec w) × BitVec w) :=
  forLoop (fun j (rows, mask) => do
    if n * w + 1 + j ≤ wd then
      let row ← readAt rows (n * w + j)
      let blocks ← writeAt row.blocks imod (transposedVal vals mask)
      let rows ← writeAt rows (n * w + j) { row with blocks := blocks }
      return (rows, mask <<< 1)
    else
      return (rows, mask)) w 0 (rows, 1#w)

def funcTransposedGF2Mat (mat : GF2Mat w) : Result (GF2Mat w) := do
  let r1 ← mat.elm 1
  let l := mat.len
  let wd := r1.len
  let nrb := r1.numberBlocks
  let rows := List.replicate wd (GF2Vec.new l)
  let rows ← stepLoop (fun i rows =>
    forLoop (fun n rows => do
      let vals ← tileVals mat l i n
      let (rows, _) ← writeTile vals wd ((i - 1) / w) n rows
      return rows) nrb 0 rows) w (l + 1) (l + 1) 1 rows
  return { rows := rows }

end Transposed

end GF2Impl
