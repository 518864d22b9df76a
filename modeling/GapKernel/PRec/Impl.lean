import GapKernel.Plist
import GapKernel.IntObj

/-!
This module contains plain records. The names of the components that are sorted are stored with a
minus sign.
-/

structure PRec (V : Type) where
  immutable : Bool
  entries : List (Int × V)
  deriving DecidableEq, Repr

structure RNam (w : IntSize) where
  val : Nat
  pos : 0 < val
  lt : val < 2 ^ (w.bits - 1)
  deriving Repr

theorem RNam.eq_iff {w : IntSize} {a b : RNam w} : a.val = b.val ↔ a = b := by
  cases a
  cases b
  rw [RNam.mk.injEq]

instance {w : IntSize} : DecidableEq (RNam w) :=
  fun _ _ => decidable_of_iff _ RNam.eq_iff

namespace IntSize

def asUInt (w : IntSize) (x : Int) : Nat :=
  (x % 2 ^ w.bits).toNat

end IntSize

namespace PRec

variable {V : Type}

def len (rec : PRec V) : Nat :=
  rec.entries.length

def getRNam (rec : PRec V) (i : Nat) : Result Int := do
  let entry ← elmPlist rec.entries i
  return entry.1

def getElm (rec : PRec V) (i : Nat) : Result V := do
  let entry ← elmPlist rec.entries i
  return entry.2

end PRec

/-!
This section contains the functions for plain records that sort the names, search for a name, and
change components.
-/

namespace PRec

variable {V : Type}

def precComparer (w : IntSize) (a b : Int × V) : Int :=
  if w.asUInt a.1 < w.asUInt b.1 then
    -1
  else if w.asUInt a.1 = w.asUInt b.1 then
    0
  else
    1

/-- The loop that looks for the first positive name, from position `i` down, and for two neighbours
that are out of order. -/
def unsortedPart (rec : PRec V) : (i : Nat) → (issorted : Bool) → Result (Nat × Bool)
  | 0, issorted => return (0, issorted)
  | i + 1, issorted => do
    let cur ← rec.getRNam (i + 1)
    if 0 < cur then
      let next ← rec.getRNam (i + 2)
      unsortedPart rec i (issorted && !(next < cur))
    else
      return (i + 1, issorted)

def negate (entry : Int × V) : Int × V :=
  (-entry.1, entry.2)

def mergeParts : List (Int × V) → List (Int × V) → List (Int × V)
  | [], tail => tail.map negate
  | entry :: part, [] => entry :: part
  | entry :: part, next :: tail =>
    if -entry.1 < next.1 then
      entry :: mergeParts part (next :: tail)
    else
      negate next :: mergeParts (entry :: part) tail

def sortPRecRNam (w : IntSize) (rec : PRec V) : Result (PRec V) := do
  let len := rec.len
  if len = 0 then
    return rec
  let last ← rec.getRNam len
  if last < 0 then
    return rec
  let (i, issorted) ← rec.unsortedPart (len - 1) true
  let save := i + 1
  let part := rec.entries.take (save - 1)
  let tail := rec.entries.drop (save - 1)
  let tail :=
    if ¬issorted ∧ len - save + 1 > 1 then
      tail.mergeSort (fun a b => precComparer w a b ≤ 0)
    else
      tail
  let sorted : PRec V := { rec with entries := part ++ tail }
  if save = 1 then
    return { rec with entries := part ++ tail.map negate }
  let prev ← sorted.getRNam (save - 1)
  let cur ← sorted.getRNam save
  if -prev < cur then
    return { rec with entries := part ++ tail.map negate }
  else
    return { rec with entries := mergeParts part tail }

/-- The search in the part that is not sorted, from position `i` down. It ends with a position where
`rnam` is stored, or with the number of the sorted entries. -/
def searchTail (w : IntSize) (rec : PRec V) (rnam : Nat) : (i : Nat) → Result (Bool × Nat)
  | 0 => return (false, 0)
  | i + 1 => do
    let rnam2 ← rec.getRNam (i + 1)
    if rnam = w.asUInt rnam2 then
      return (true, i + 1)
    else if rnam2 < 0 then
      return (false, i + 1)
    else
      searchTail w rec rnam i

def searchSorted (w : IntSize) (rec : PRec V) (rnam : Nat) : (rounds low high : Nat) → Result Nat
  | 0, _, _ => throw .fuel
  | n + 1, low, high =>
    if low < high then do
      let i := (low + high) / 2
      let rnam2 ← rec.getRNam i
      if w.asUInt rnam2 > rnam then
        searchSorted w rec rnam n (i + 1) high
      else if w.asUInt rnam2 < rnam then
        searchSorted w rec rnam n low i
      else
        return i
    else
      return 0

def positionPRec (w : IntSize) (rec : PRec V) (rnam : Nat) (cleanup : Bool)
    : Result (PRec V × Nat) := do
  let high := rec.len
  let dirty ← (if high > 0 then do
      let last ← rec.getRNam high
      return decide (last > 0)
    else
      return false : Result Bool)
  if dirty then
    if cleanup then
      let rec ← rec.sortPRecRNam w
      let i ← rec.searchSorted w (w.asUInt (-rnam)) (high + 1) 1 (high + 1)
      return (rec, i)
    else
      let (found, i) ← rec.searchTail w rnam high
      if found then
        return (rec, i)
      else if i = 0 then
        return (rec, 0)
      else
        let i ← rec.searchSorted w (w.asUInt (-rnam)) (i + 1) 1 (i + 1)
        return (rec, i)
  else
    let i ← rec.searchSorted w (w.asUInt (-rnam)) (high + 1) 1 (high + 1)
    return (rec, i)

def isbPRec (w : IntSize) (rec : PRec V) (rnam : Nat) : Result (PRec V × Bool) := do
  let (rec, i) ← rec.positionPRec w rnam true
  return (rec, i ≠ 0)

def elmPRec (w : IntSize) (rec : PRec V) (rnam : Nat) : Result (PRec V × Result V) := do
  let (rec, i) ← rec.positionPRec w rnam true
  if i ≠ 0 then
    let val ← rec.getElm i
    return (rec, .ok val)
  else
    return (rec, .error
      (.quit "Record Element: '<rec>.%g' must have an assigned value" rnam 0))

def moveForward (entries : List (Int × V)) : (n i : Nat) → Result (List (Int × V))
  | 0, _ => return entries
  | n + 1, i => do
    let entry ← elmPlist entries (i + 1)
    let entries ← setElmPlist entries i entry
    moveForward entries n (i + 1)

def unbPRec (w : IntSize) (rec : PRec V) (rnam : Nat) : Result (PRec V) := do
  if rec.immutable then
    throw (.quit "Record Unbind: <rec> must be a mutable record" 0 0)
  let (rec, i) ← rec.positionPRec w rnam true
  if i ≠ 0 then
    let len := rec.len
    let entries ← moveForward rec.entries (len - i) i
    return { rec with entries := entries.take (len - 1) }
  else
    return rec

def assPRec (w : IntSize) (rec : PRec V) (rnam : Nat) (val : V) : Result (PRec V) := do
  if rec.immutable then
    throw (.quit "Record Assignment: <rec> must be a mutable record" 0 0)
  let len := rec.len
  let rec ← (if len % 1000 = 0 then rec.sortPRecRNam w else return rec : Result (PRec V))
  let (rec, i) ← rec.positionPRec w rnam false
  if i = 0 then
    return { rec with entries := rec.entries ++ [((rnam : Int), val)] }
  else
    let entry ← elmPlist rec.entries i
    let entries ← setElmPlist rec.entries i (entry.1, val)
    return { rec with entries := entries }

def recNames (w : IntSize) (rec : PRec V) : Result (PRec V × List Nat) := do
  let rec ← rec.sortPRecRNam w
  return (rec, rec.entries.map (fun entry => w.asUInt (-entry.1)))

end PRec

/-!
This section contains the functions that compare, copy and freeze records, and the operations on a
heap of records.
-/

abbrev PRecHeap (V : Type) := List (PRec V)

inductive PRecOut (V : Type) where
  | done
  | bool (b : Bool)
  | val (v : V)
  | names (rnams : List Nat)
  | ref (rec : Nat)
  deriving DecidableEq, Repr

namespace PRec

variable {V : Type}

def eqComponents (EQ : V → V → Bool) (left right : PRec V) : (n i : Nat) → Result Bool
  | 0, _ => return true
  | n + 1, i => do
    let nameL ← left.getRNam i
    let nameR ← right.getRNam i
    if nameL ≠ nameR then
      return false
    let valL ← left.getElm i
    let valR ← right.getElm i
    if !EQ valL valR then
      return false
    eqComponents EQ left right n (i + 1)

/-- The loop of `LtPRec`. The names of components are compared as strings by `ltName`. -/
def ltComponents (w : IntSize) (EQ LT : V → V → Bool) (ltName : Nat → Nat → Bool)
    (left right : PRec V) : (n i : Nat) → Result Bool
  | 0, _ => return false
  | n + 1, i => do
    if left.len < i then
      return true
    let nameL ← left.getRNam i
    let nameR ← right.getRNam i
    if nameL ≠ nameR then
      return !ltName (w.asUInt (-nameL)) (w.asUInt (-nameR))
    let valL ← left.getElm i
    let valR ← right.getElm i
    if !EQ valL valR then
      return LT valL valR
    ltComponents w EQ LT ltName left right n (i + 1)

end PRec

namespace PRecHeap

variable {V : Type}

def get (h : PRecHeap V) (rec : Nat) : Result (PRec V) :=
  match h[rec]? with
  | some bag => return bag
  | none => throw .access

def sortPRecRNam (w : IntSize) (h : PRecHeap V) (rec : Nat) : Result (PRecHeap V) := do
  let bag ← get h rec
  let bag ← bag.sortPRecRNam w
  return h.set rec bag

def eqPRec (w : IntSize) (EQ : V → V → Bool) (h : PRecHeap V) (left right : Nat)
    : Result (PRecHeap V × Bool) := do
  let bagL ← get h left
  let bagR ← get h right
  if bagL.len ≠ bagR.len then
    return (h, false)
  let h ← sortPRecRNam w h left
  let h ← sortPRecRNam w h right
  let bagL ← get h left
  let bagR ← get h right
  let b ← bagL.eqComponents EQ bagR bagR.len 1
  return (h, b)

def ltPRec (w : IntSize) (EQ LT : V → V → Bool) (ltName : Nat → Nat → Bool) (h : PRecHeap V)
    (left right : Nat) : Result (PRecHeap V × Bool) := do
  let h ← sortPRecRNam w h left
  let h ← sortPRecRNam w h right
  let bagL ← get h left
  let bagR ← get h right
  let b ← bagL.ltComponents w EQ LT ltName bagR bagR.len 1
  return (h, b)

/-- `MakeImmutablePRec`. The components are made immutable as well, that does not change what they
are. -/
def makeImmutablePRec (w : IntSize) (h : PRecHeap V) (rec : Nat) : Result (PRecHeap V) := do
  let bag ← get h rec
  sortPRecRNam w (h.set rec { bag with immutable := true }) rec

/-- `COPY_OBJ` for a plain record, `copyObj` is what it does for the components. Immutable records are
not copied. -/
def copyPRec (h : PRecHeap V) (rec : Nat) (isMut : Bool) (copyObj : V → V)
    : Result (PRecHeap V × Nat) := do
  let bag ← get h rec
  if bag.immutable then
    return (h, rec)
  let copy : PRec V := {
    immutable := !isMut
    entries := bag.entries.map (fun entry => (entry.1, copyObj entry.2)) }
  return (h ++ [copy], h.length)

end PRecHeap

/-- The operations on records. The comparisons of the components can be different each time. -/
inductive PRecOp (w : IntSize) (V : Type) where
  | new
  | ass (rec : Nat) (rnam : RNam w) (val : V)
  | unb (rec : Nat) (rnam : RNam w)
  | isb (rec : Nat) (rnam : RNam w)
  | elm (rec : Nat) (rnam : RNam w)
  | names (rec : Nat)
  | eq (left right : Nat) (EQ : V → V → Bool)
  | lt (left right : Nat) (EQ LT : V → V → Bool) (ltName : Nat → Nat → Bool)
  | sort (rec : Nat)
  | makeImmutable (rec : Nat)
  | copy (rec : Nat) (isMut : Bool) (copyObj : V → V)

namespace PRecHeap

variable {V : Type} {w : IntSize}

def onRecord (h : PRecHeap V) (rec : Nat) {α : Type} (f : PRec V → Result (PRec V × α))
    : Result (PRecHeap V × α) := do
  let bag ← get h rec
  let (bag, x) ← f bag
  return (h.set rec bag, x)

def stepOk (h : PRecHeap V) (op : PRecOp w V) : Result (PRecHeap V × Result (PRecOut V)) := do
  match op with
  | .new => return (h ++ [{ immutable := false, entries := [] }], .ok (.ref h.length))
  | .ass rec rnam val =>
    onRecord h rec fun bag => do
      let bag ← bag.assPRec w rnam.val val
      return (bag, .ok .done)
  | .unb rec rnam =>
    onRecord h rec fun bag => do
      let bag ← bag.unbPRec w rnam.val
      return (bag, .ok .done)
  | .isb rec rnam =>
    onRecord h rec fun bag => do
      let (bag, b) ← bag.isbPRec w rnam.val
      return (bag, .ok (.bool b))
  | .elm rec rnam =>
    onRecord h rec fun bag => do
      let (bag, val) ← bag.elmPRec w rnam.val
      return (bag, val.map .val)
  | .names rec =>
    onRecord h rec fun bag => do
      let (bag, rnams) ← bag.recNames w
      return (bag, .ok (.names rnams))
  | .eq left right EQ => do
    let (h, b) ← eqPRec w EQ h left right
    return (h, .ok (.bool b))
  | .lt left right EQ LT ltName => do
    let (h, b) ← ltPRec w EQ LT ltName h left right
    return (h, .ok (.bool b))
  | .sort rec => do
    let h ← sortPRecRNam w h rec
    return (h, .ok .done)
  | .makeImmutable rec => do
    let h ← makeImmutablePRec w h rec
    return (h, .ok .done)
  | .copy rec isMut copyObj => do
    let (h, copy) ← copyPRec h rec isMut copyObj
    return (h, .ok (.ref copy))

/-- An error that is signalled before anything is changed leaves the heap as it was. -/
def step (h : PRecHeap V) (op : PRecOp w V) : PRecHeap V × Result (PRecOut V) :=
  match stepOk h op with
  | .ok (h, out) => (h, out)
  | .error e => (h, .error e)

def run (h : PRecHeap V) : List (PRecOp w V) → PRecHeap V × List (Result (PRecOut V))
  | [] => (h, [])
  | op :: ops =>
    let (h1, out) := step h op
    let (h2, outs) := run h1 ops
    (h2, out :: outs)

end PRecHeap
