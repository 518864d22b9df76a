import GapKernel.BitBlocks
import GapKernel.PlainSet.Impl

/-!
This module contains the compact representation of boolean lists. A block has `w` bits, positions
start at 1. All lists are mutable.
-/

inductive BlistTnum where
  | blist
  | blistNsort
  | blistSsort
  deriving DecidableEq, Repr

inductive BlistFilter where
  | isSsort
  | isNsort
  deriving DecidableEq, Repr

/-- `blocks` is the whole bag after the length. -/
structure Blist (w : Nat) where
  tnum : BlistTnum
  len : Nat
  blocks : List (BitVec w)
  deriving DecidableEq, Repr

inductive BoolList (w : Nat) where
  | blist (list : Blist w)
  | plist (entries : List (Option Bool))
  deriving DecidableEq, Repr

namespace Blist

variable {w : Nat}

def clearFiltsTab (tnum : BlistTnum) : BlistTnum :=
  match tnum with
  | .blist => .blist
  | .blistNsort => .blist
  | .blistSsort => .blist

-- `none` is the entry `-1`, it is an error to set the filter.
def setFiltTab (tnum : BlistTnum) (filter : BlistFilter) : Option BlistTnum :=
  match tnum, filter with
  | .blist, .isSsort => some .blistSsort
  | .blist, .isNsort => some .blistNsort
  | .blistNsort, .isSsort => none
  | .blistNsort, .isNsort => some .blistNsort
  | .blistSsort, .isSsort => some .blistSsort
  | .blistSsort, .isNsort => none

def clearFiltsList (list : Blist w) : Blist w :=
  { list with tnum := clearFiltsTab list.tnum }

def setFiltList (list : Blist w) (filter : BlistFilter) : Blist w :=
  match setFiltTab list.tnum filter with
  | some tnum => { list with tnum := tnum }
  | none => list

def plenBlocks (w plen : Nat) : Nat :=
  (plen + w - 1) / w

def numberBlocks (list : Blist w) : Nat :=
  plenBlocks w list.len

def elmBlock (blocks : List (BitVec w)) (ptr : Nat) : Result (BitVec w) :=
  match blocks[ptr]? with
  | some block => return block
  | none => throw .access

def setBlock (blocks : List (BitVec w)) (ptr : Nat) (block : BitVec w)
    : Result (List (BitVec w)) :=
  if ptr < blocks.length then
    return blocks.set ptr block
  else
    throw .access

def maskPos (w pos : Nat) : BitVec w :=
  1#w <<< ((pos - 1) % w)

def testBit (list : Blist w) (pos : Nat) : Result Bool := do
  let block ← elmBlock list.blocks ((pos - 1) / w)
  return block &&& maskPos w pos != 0#w

def setBit (list : Blist w) (pos : Nat) : Result (Blist w) := do
  let block ← elmBlock list.blocks ((pos - 1) / w)
  let blocks ← setBlock list.blocks ((pos - 1) / w) (block ||| maskPos w pos)
  return { list with blocks := blocks }

def clearBit (list : Blist w) (pos : Nat) : Result (Blist w) := do
  let block ← elmBlock list.blocks ((pos - 1) / w)
  let blocks ← setBlock list.blocks ((pos - 1) / w) (block &&& ~~~(maskPos w pos))
  return { list with blocks := blocks }

def resizeBag (list : Blist w) (n : Nat) : Blist w :=
  { list with
    blocks := list.blocks.take n ++ List.replicate (n - list.blocks.length) 0#w }

end Blist

/-!
This section contains the operations for boolean lists. The second operand of a function is `none`
if both arguments are the same object.
-/

namespace BlistImpl

open Blist

variable {w : Nat}

-- The entries of the plain list are written from the end on, so no bit is lost.
def plainLoop (list : Blist w) : Nat → List (Option Bool) → Result (List (Option Bool))
  | 0, entries => return entries
  | i + 1, entries => do
    let bit ← list.testBit (i + 1)
    plainLoop list i (some bit :: entries)

def plainBlist (list : Blist w) : Result (List (Option Bool)) :=
  plainLoop list list.len []

/-- `AssBlist` for a boolean value. -/
def assBlist (list : Blist w) (pos : Nat) (val : Bool) : Result (BoolList w) := do
  if pos ≤ list.len ∧ val = true then
    let list ← list.setBit pos
    return .blist list.clearFiltsList
  else if pos ≤ list.len ∧ val = false then
    let list ← list.clearBit pos
    return .blist list.clearFiltsList
  else if pos = list.len + 1 ∧ val = true then
    let list := if list.blocks.length < plenBlocks w pos then
      list.resizeBag (plenBlocks w pos) else list
    let list := { list with len := pos }
    let list ← list.setBit pos
    return .blist list.clearFiltsList
  else if pos = list.len + 1 ∧ val = false then
    let list := if list.blocks.length < plenBlocks w pos then
      list.resizeBag (plenBlocks w pos) else list
    let list := { list with len := pos }
    let list ← list.clearBit pos
    return .blist list.clearFiltsList
  else
    let entries ← plainBlist list
    let entries := entries ++ List.replicate (pos - entries.length) none
    return .plist (entries.set (pos - 1) (some val))

def unbBlist (blist : Blist w) (pos : Nat) : Result (BoolList w) := do
  let len := blist.len
  if len = pos then
    let blist := blist.clearFiltsList
    let blist ← blist.clearBit pos
    return .blist { blist with len := len - 1 }
  else if pos < len then
    let entries ← plainBlist blist
    -- `pos` is not the last position
    return .plist (entries.set (pos - 1) none)
  else
    return .blist blist

def isSSortBlist (list : Blist w) : Result (Blist w × Bool) := do
  let isSort ← (if list.len ≤ 1 then
    return true
  else if list.len = 2 then do
    let bit1 ← list.testBit 1
    let bit2 ← list.testBit 2
    return bit1 && !bit2
  else
    return false : Result Bool)
  return (list.setFiltList (if isSort then .isSsort else .isNsort), isSort)

def isSSortList (list : Blist w) : Result (Blist w × Bool) :=
  match list.tnum with
  | .blist => isSSortBlist list
  | .blistNsort => return (list, false)
  | .blistSsort => return (list, true)

def requireSameLength (funcname name1 name2 : String) (len1 len2 : Nat) : Result Unit :=
  if len1 ≠ len2 then
    throw (.quit (funcname ++ ": <" ++ name1 ++ "> must have the same length as <" ++ name2
      ++ "> (lengths are %d and %d)") len1 len2)
  else
    return ()

def blockLoop (op : Nat → BitVec w → Result (BitVec w))
    : Nat → Nat → List (BitVec w) → Result (List (BitVec w))
  | 0, _, blocks => return blocks
  | i + 1, ptr, blocks => do
    let block ← elmBlock blocks ptr
    let block ← op ptr block
    let blocks ← setBlock blocks ptr block
    blockLoop op i (ptr + 1) blocks

def combineBlist (funcname : String) (op : BitVec w → BitVec w → BitVec w) (blist1 : Blist w)
    (blist2 : Option (Blist w)) : Result (Blist w) := do
  requireSameLength funcname "blist1" "blist2" blist1.len (blist2.getD blist1).len
  let blocks ← blockLoop (fun ptr block =>
    match blist2 with
    | some blist2 => do
      let block2 ← elmBlock blist2.blocks ptr
      return op block block2
    | none => return op block block) blist1.numberBlocks 0 blist1.blocks
  return { blist1 with blocks := blocks }

def uniteBlist (blist1 : Blist w) (blist2 : Option (Blist w)) : Result (Blist w) :=
  combineBlist "UNITE_BLIST" (fun b1 b2 => b1 ||| b2) blist1 blist2

def interBlist (blist1 : Blist w) (blist2 : Option (Blist w)) : Result (Blist w) :=
  combineBlist "INTER_BLIST" (fun b1 b2 => b1 &&& b2) blist1 blist2

def subtrBlist (blist1 : Blist w) (blist2 : Option (Blist w)) : Result (Blist w) :=
  combineBlist "SUBTR_BLIST" (fun b1 b2 => b1 &&& ~~~b2) blist1 blist2

def maskLastBlock (blist : Blist w) (blocks : List (BitVec w)) : Result (List (BitVec w)) := do
  let mask := ~~~0#w >>> (w * blist.numberBlocks - blist.len)
  let ptr := (blist.len - 1) / w
  let block ← elmBlock blocks ptr
  setBlock blocks ptr (block &&& mask)

def flipBlist (blist : Blist w) : Result (Blist w) := do
  if blist.len = 0 then
    return blist
  else
    let blocks ← blockLoop (fun _ block => return ~~~block) blist.numberBlocks 0 blist.blocks
    let blocks ← maskLastBlock blist blocks
    return { blist with blocks := blocks }

def clearAllBlist (blist : Blist w) : Result (Blist w) := do
  if blist.len = 0 then
    return blist
  else
    let blocks ← blockLoop (fun _ _ => return 0#w) blist.numberBlocks 0 blist.blocks
    return { blist with blocks := blocks }

def setAllBlist (blist : Blist w) : Result (Blist w) := do
  if blist.len = 0 then
    return blist
  else
    let blocks ← blockLoop (fun _ _ => return ~~~0#w) blist.numberBlocks 0 blist.blocks
    let blocks ← maskLastBlock blist blocks
    return { blist with blocks := blocks }

end BlistImpl

/-!
This section contains `UNITE_BLIST_LIST`, which sets the entries of a boolean list at the positions
of a list whose elements are in another list.
-/

structure ObjFuncs (E : Type) where
  eq : E → E → Bool
  lt : E → E → Bool
  -- `INTOBJ_INT`, and `INT_INTOBJ` for what `IS_INTOBJ` holds
  ofInt : Int → E
  toInt : E → Option Int
  ofBool : Bool → E

inductive ListArg (E : Type) where
  | plist (entries : List (Option E))
  | range (low inc : Int) (len : Nat)
  | other (entries : List (Option E))
  -- The boolean list that is changed.
  | blist
  deriving DecidableEq, Repr

namespace ListArg

variable {w : Nat} {E : Type}

def entries (f : ObjFuncs E) (blist : Blist w) (list : ListArg E) : Result (List (Option E)) :=
  match list with
  | plist entries => return entries
  | range low inc len =>
    return (List.range len).map (fun i : Nat => some (f.ofInt (low + i * inc)))
  | other entries => return entries
  | .blist => do
    let entries ← BlistImpl.plainBlist blist
    return entries.map (fun entry => entry.map f.ofBool)

def isSSort (f : ObjFuncs E) (blist : Blist w) (list : ListArg E) : Result (Blist w × Bool) :=
  match list with
  | plist entries => return (blist, PlainSetImpl.isSSortPlist f.lt entries)
  | range _ inc _ => return (blist, decide (0 < inc))
  | other entries => return (blist, PlainSetImpl.isSSortPlist f.lt entries)
  | .blist => BlistImpl.isSSortList blist

end ListArg

namespace BlistImpl

open Blist PlainSetImpl

variable {w : Nat} {E : Type} [DecidableEq E] (f : ObjFuncs E)

def orBit (blocks : List (BitVec w)) (k : Nat) : Result (List (BitVec w)) := do
  let block ← elmBlock blocks (k / w)
  setBlock blocks (k / w) (block ||| 1#w <<< (k % w))

def rangeFirstLoop (j : Int) : Nat → List (BitVec w) → Nat → Result (List (BitVec w) × Nat)
  | 0, _, _ => throw .fuel
  | fuel + 1, blocks, k => do
    if (k : Int) < j ∧ k % w ≠ 0 then
      let blocks ← orBit blocks k
      rangeFirstLoop j fuel blocks (k + 1)
    else
      return (blocks, k)

def rangeBlockLoop (j : Int) : Nat → List (BitVec w) → Nat → Result (List (BitVec w) × Nat)
  | 0, _, _ => throw .fuel
  | fuel + 1, blocks, k => do
    if (k : Int) + w < j then
      let blocks ← setBlock blocks (k / w) (~~~0#w)
      rangeBlockLoop j fuel blocks (k + w)
    else
      return (blocks, k)

def rangeLastLoop (j : Int) : Nat → List (BitVec w) → Nat → Result (List (BitVec w))
  | 0, _, _ => throw .fuel
  | fuel + 1, blocks, k => do
    if (k : Int) < j then
      let blocks ← orBit blocks k
      rangeLastLoop j fuel blocks (k + 1)
    else
      return blocks

def uniteRangeRange (s t : Int) (lenList lenSub : Nat) (blocks : List (BitVec w))
    : Result (List (BitVec w)) := do
  let i := t - s
  let j := lenSub + i
  let i := if i < 0 then 0 else i
  let j := if j > lenList then (lenList : Int) else j
  let (blocks, k) ← rangeFirstLoop j (lenList + 1) blocks i.toNat
  let (blocks, k) ← rangeBlockLoop j (lenList + 1) blocks k
  rangeLastLoop j (lenList + 1) blocks k

def uniteRangePlist (s : Int) (lenList : Nat) (sub : List (Option E)) (blocks : List (BitVec w))
    : Result (List (BitVec w)) :=
  match sub with
  | [] => return blocks
  | none :: sub => uniteRangePlist s lenList sub blocks
  | some elm :: sub => do
    match f.toInt elm with
    | some n =>
      let t := n - s + 1
      if 0 < t ∧ t ≤ lenList then
        let blocks ← orBit blocks (t - 1).toNat
        uniteRangePlist s lenList sub blocks
      else
        uniteRangePlist s lenList sub blocks
    | none => uniteRangePlist s lenList sub blocks

def uniteSearch (h : PlistHeap E) (list lenList : Nat) (sub : List (Option E)) (blist : Blist w)
    : Result (Blist w) :=
  match sub with
  | [] => return blist
  | none :: sub => uniteSearch h list lenList sub blist
  | some elm :: sub => do
    let k ← positionLoop f.lt h list elm (lenList + 1) 0 (lenList + 1)
    let found ← (if k ≤ lenList then do
      let e ← h.elm list k
      return f.eq e elm
    else
      return false : Result Bool)
    if found then
      let blist ← blist.setBit k
      uniteSearch h list lenList sub blist
    else
      uniteSearch h list lenList sub blist

/-- `while (k <= lenSub && LT(ELM_PLIST(sub, k), elm)) k++;` -/
def advanceLoop (h : PlistHeap E) (sub lenSub : Nat) (elm : E) : Nat → Nat → Result Nat
  | 0, _ => throw .fuel
  | fuel + 1, k => do
    if k ≤ lenSub then
      let e ← h.elm sub k
      if f.lt e elm then
        advanceLoop h sub lenSub elm fuel (k + 1)
      else
        return k
    else
      return k

/--
The loop over the elements of `list`, which looks for them in the set `sub`. If `list` is not a set,
the search can have to start again; `prev` is `none` for the first element.
-/
def uniteListLoop (isSet : Bool) (h : PlistHeap E) (list sub lenList lenSub : Nat)
    : Nat → List (BitVec w) → Nat → Nat → BitVec w → BitVec w → Option E → Result (List (BitVec w))
  | 0, _, _, _, _, _, _ => throw .fuel
  | fuel + 1, blocks, l, k, block, bit, prev => do
    if l ≤ lenList then
      let elm ← h.elm list l
      let k ← (if isSet || prev.all (fun prev => f.lt prev elm) then
        advanceLoop f h sub lenSub elm (lenSub + 1) k
      else
        positionLoop f.lt h sub elm (lenSub + 1) 0 (lenSub + 1))
      let found ← (if k ≤ lenSub then do
        let e ← h.elm sub k
        return f.eq e elm
      else
        return false : Result Bool)
      let block := if found then block ||| bit else block
      let k := if found then k + 1 else k
      -- If the block is full it is added to the boolean list.
      let bit := bit <<< 1
      if bit = 0#w ∨ l = lenList then
        let old ← elmBlock blocks ((l - 1) / w)
        let blocks ← setBlock blocks ((l - 1) / w) (old ||| block)
        uniteListLoop isSet h list sub lenList lenSub fuel blocks (l + 1) k 0#w 1#w (some elm)
      else
        uniteListLoop isSet h list sub lenList lenSub fuel blocks (l + 1) k block bit (some elm)
    else
      return blocks

/-- `if (!IS_PLIST(sub) || !IS_SSORT_LIST(sub)) sub = SetList(sub);` -/
def subAsSet (sub : ListArg E) (entries : List (Option E)) : Result (List (Option E)) :=
  match sub with
  | .plist _ => if isSSortPlist f.lt entries then return entries else setList f.eq f.lt entries
  | _ => setList f.eq f.lt entries

/--
If an argument is the boolean list itself, its entries are read before they change: the loops read
an entry before they change its block.
-/
def uniteBlistList (list : ListArg E) (blist : Blist w) (sub : ListArg E) : Result (Blist w) := do
  let listEntries ← list.entries f blist
  let subEntries ← sub.entries f blist
  requireSameLength "UNITE_BLIST_LIST" "blist" "list" blist.len listEntries.length
  let lenList := listEntries.length
  let lenSub := subEntries.length
  if lenList = 0 ∨ lenSub = 0 then
    return blist
  else
    match list, sub with
    | .range s 1 _, .range t 1 _ =>
      let blocks ← uniteRangeRange s t lenList lenSub blist.blocks
      return { blist with blocks := blocks }
    | .range s 1 _, .plist sub =>
      let blocks ← uniteRangePlist f s lenList sub blist.blocks
      return { blist with blocks := blocks }
    | list, sub =>
      let (blist, isSet) ← list.isSSort f blist
      if isSet && bitLength w lenList * lenSub < 2 * lenList then
        uniteSearch f ⟨[⟨true, listEntries⟩]⟩ 0 lenList subEntries blist
      else
        let subEntries ← subAsSet f sub subEntries
        let blocks ← uniteListLoop f isSet ⟨[⟨true, listEntries⟩, ⟨true, subEntries⟩]⟩ 0 1 lenList
          subEntries.length (lenList + 1) blist.blocks 1 1 0#w 1#w none
        return { blist with blocks := blocks }

end BlistImpl

/-!
This section contains the search for a value in a boolean list. The position `start` is a small
integer.
-/

namespace BlistImpl

open Blist

variable {w : Nat}

def wordOfInt (w : Nat) (n : Int) : Nat :=
  (n % (2 ^ w : Nat)).toNat

def readBlock (list : Blist w) (i : Nat) : Result (BitVec w) :=
  if i < list.numberBlocks then
    elmBlock list.blocks i
  else
    throw .access

def posBits (val : Bool) (x : BitVec w) (i : Nat) : (rounds j : Nat) → Option Nat
  | 0, _ => none
  | n + 1, j =>
    if (x &&& 1#w <<< j != 0#w) = val then
      some (w * i + j + 1)
    else
      posBits val x i n (j + 1)

/--
The bits are looked at if the block is not `0` for `true`, or not `ALL_BITS_UINT` for `false`.
-/
def posBlock (val : Bool) (x : BitVec w) (i rounds j : Nat) : Option Nat :=
  if x ≠ (if val then 0#w else ~~~0#w) then
    posBits val x i rounds j
  else
    none

def posMiddle (val : Bool) (list : Blist w) : (rounds i : Nat) → Result (Option Nat)
  | 0, _ => return none
  | n + 1, i => do
    let x ← readBlock list i
    match posBlock val x i w 0 with
    | some pos => return some pos
    | none => posMiddle val list n (i + 1)

def posBool (val : Bool) (list : Blist w) (firstblock lastblock firstoffset lastoffset : Nat)
    : Result (Option Nat) := do
  let x ← readBlock list firstblock
  if firstblock = lastblock then
    return posBlock val x firstblock (lastoffset + 1 - firstoffset) firstoffset
  else
    match posBlock val x firstblock (w - firstoffset) firstoffset with
    | some pos => return some pos
    | none =>
      match ← posMiddle val list (lastblock - (firstblock + 1)) (firstblock + 1) with
      | some pos => return some pos
      | none =>
        let x ← readBlock list lastblock
        return posBlock val x lastblock (lastoffset + 1) 0

variable {E : Type}

/-- `none` is the value `fail`. -/
def posBlist [DecidableEq E] (f : ObjFuncs E) (list : Blist w) (val : E) (start : Nat)
    : Result (Option Nat) :=
  let len : Int := list.len
  if len = start then
    return none
  else
    let firstblock := start / w
    let lastblock := wordOfInt w ((len - 1).tdiv w)
    let firstoffset := start % w
    let lastoffset := wordOfInt w ((len - 1).tmod w)
    if val = f.ofBool true then
      posBool true list firstblock lastblock firstoffset lastoffset
    else if val = f.ofBool false then
      posBool false list firstblock lastblock firstoffset lastoffset
    else
      return none

def elmv0List (list : List (Option E)) (pos : Nat) : Option E :=
  list.getD (pos - 1) none

def posListLoop (eq : E → E → Bool) (list : List (Option E)) (obj : E)
    : (rounds i : Nat) → Option Nat
  | 0, _ => none
  | n + 1, i =>
    if (elmv0List list i).any (fun elm => eq elm obj) then
      some i
    else
      posListLoop eq list obj n (i + 1)

def posListDefault (eq : E → E → Bool) (list : List (Option E)) (obj : E) (start : Nat)
    : Option Nat :=
  posListLoop eq list obj (list.length - start) (start + 1)

end BlistImpl
