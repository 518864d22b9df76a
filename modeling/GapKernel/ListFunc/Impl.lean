import GapKernel.ForLoop
import GapKernel.IntObj
import GapKernel.Plist
import GapKernel.PlistKTNum

/-!
This module contains the kernel function that copies entries of a plain list to another one, or to
other positions of the same list, and the one that finds the strongly connected components of a
directed graph.
-/

structure SlotBag (α : Type) where
  tnum : PlistKTNum
  isMutable : Bool
  len : Nat
  slots : List (Option α)
  deriving DecidableEq, Repr

abbrev SlotHeap (α : Type) : Type :=
  Nat → SlotBag α

variable {α : Type}

namespace SlotBag

def readSlot (list : SlotBag α) (pos : Int) : Result (Option α) :=
  if 0 < pos ∧ pos ≤ list.slots.length then
    return list.slots.getD (pos - 1).toNat none
  else
    throw .access

def writeSlot (list : SlotBag α) (pos : Int) (elm : Option α) : Result (SlotBag α) :=
  if 0 < pos ∧ pos ≤ list.slots.length then
    return { list with slots := list.slots.set (pos - 1).toNat elm }
  else
    throw .access

def growPlist (w : IntSize) (list : SlotBag α) (need : Nat) : Result (SlotBag α) := do
  if w.intIntobjMax < need then
    throw (.quit "GrowPlist: List size too large" 0 0)
  let capacity := list.slots.length
  let good := min (5 * capacity / 4 + 4) w.intIntobjMax.toNat
  let plen := if need < good then good else need
  return { list with slots := list.slots ++ List.replicate (plen - capacity) none }

def grow (w : IntSize) (list : SlotBag α) (plen : Int) : Result (SlotBag α) :=
  if list.slots.length < plen then
    list.growPlist w plen.toNat
  else
    return list

end SlotBag

namespace ListFunc

-- `*dptr = *sptr`
def copySlot (h : SlotHeap α) (src dst : Nat) (sptr dptr : Int) : Result (SlotHeap α) := do
  let elm ← (h src).readSlot sptr
  let list ← (h dst).writeSlot dptr elm
  return Function.update h dst list

def copyUp (src dst : Nat) (srcinc dstinc : Int)
    : Nat → Int → Int → SlotHeap α → Result (SlotHeap α)
  | 0, _, _, h => return h
  | number + 1, sptr, dptr, h => do
    let h ← copySlot h src dst sptr dptr
    copyUp src dst srcinc dstinc number (sptr + srcinc) (dptr + dstinc) h

def copyDown (src dst : Nat) (srcinc dstinc : Int)
    : Nat → Int → Int → SlotHeap α → Result (SlotHeap α)
  | 0, _, _, h => return h
  | number + 1, sptr, dptr, h => do
    let h ← copySlot h src dst (sptr - srcinc) (dptr - dstinc)
    copyDown src dst srcinc dstinc number (sptr - srcinc) (dptr - dstinc) h

def readSlots (list : SlotBag α) (inc : Int) : Nat → Int → Result (List (Option α))
  | 0, _ => return []
  | number + 1, ptr => do
    let elm ← list.readSlot ptr
    let elms ← readSlots list inc number (ptr + inc)
    return elm :: elms

def writeSlots (inc : Int) : List (Option α) → Int → SlotBag α → Result (SlotBag α)
  | [], _, list => return list
  | elm :: elms, ptr, list => do
    let list ← list.writeSlot ptr elm
    writeSlots inc elms (ptr + inc) list

/-- All entries are read before one is written, as `SyMemmove` and a temporary list do. -/
def copyTmp (src dst : Nat) (srcinc dstinc : Int) (number : Nat) (srcstart dststart : Int)
    (h : SlotHeap α) : Result (SlotHeap α) := do
  let elms ← readSlots (h src) srcinc number srcstart
  let list ← writeSlots dstinc elms dststart (h dst)
  return Function.update h dst list

-- The bags where the length is not set again do not come here.
def copyEntries (src dst : Nat) (srcstart srcinc dststart dstinc : Int) (number : Nat)
    (h : SlotHeap α) : Result (SlotHeap α) :=
  if srcinc = 1 ∧ dstinc = 1 then
    copyTmp src dst 1 1 number srcstart dststart h
  else if src ≠ dst then
    copyUp src dst srcinc dstinc number srcstart dststart h
  else if srcinc = dstinc then
    if srcstart > dststart ↔ srcinc > 0 then
      copyUp src src srcinc srcinc number srcstart dststart h
    else
      copyDown src src srcinc srcinc number (srcstart + number * srcinc)
        (dststart + number * srcinc) h
  else
    copyTmp src dst srcinc dstinc number srcstart dststart h

-- `while (!*sptr) { ct--; sptr--; }`. At position 0 there is the length, in front of it no slot.
def lastBound (list : SlotBag α) : Nat → Result Nat
  | 0 => if list.len ≠ 0 then return 0 else throw .access
  | ct + 1 => do
    match ← list.readSlot (ct + 1 : Nat) with
    | none => lastBound list ct
    | some _ => return ct + 1

def setLength (h : SlotHeap α) (dst dstmax : Nat) : Result (SlotHeap α) := do
  let list := h dst
  let len ← (if list.len ≤ dstmax then lastBound list dstmax else return list.len : Result Nat)
  let tnum := if 0 < len then .plist else .empty
  return Function.update h dst { list with len := len, tnum := tnum }

def copyAndSetLength (src dst : Nat) (srcstart srcinc dststart dstinc : Int) (number dstmax : Nat)
    (h : SlotHeap α) : Result (SlotHeap α) := do
  let h ← copyEntries src dst srcstart srcinc dststart dstinc number h
  setLength h dst dstmax

def lastIndex (w : IntSize) (start inc : Int) (number : Nat) : Int :=
  (start + (number - 1) * inc) % 2 ^ w.bits

-- `GROW_PLIST` for both lists, the heap is the one after the calls.
def growLists (w : IntSize) (h : SlotHeap α) (src dst : Nat) (srcmax dstmax : Int)
    : SlotHeap α × Result Unit :=
  match (h dst).grow w (w.wrap dstmax) with
  | .error e => (h, .error e)
  | .ok list =>
    let h := Function.update h dst list
    match (h src).grow w (w.wrap srcmax) with
    | .error e => (h, .error e)
    | .ok list => (Function.update h src list, .ok ())

def funcCopyListEntries (w : IntSize) (h : SlotHeap α) (src : Nat) (srcstart srcinc : Int)
    (dst : Nat) (dststart dstinc : Int) (number : Nat) : SlotHeap α × Result Unit :=
  if ¬(h dst).isMutable then
    (h, .error (.argument "COPY_LIST_ENTRIES" "<tolst>" "must be a mutable plain list"))
  else if number = 0 then
    (h, .ok ())
  else
    let srclast := lastIndex w srcstart srcinc number
    let dstlast := lastIndex w dststart dstinc number
    if srcstart ≤ 0 ∨ dststart ≤ 0 ∨ srclast ≤ 0 ∨ dstlast ≤ 0 then
      (h, .error (.quit "CopyListEntries: list indices must be positive integers" 0 0))
    else
      let srcmax := if srcinc > 0 then srclast else srcstart
      let dstmax := if dstinc > 0 then dstlast else dststart
      match growLists w h src dst srcmax dstmax with
      | (h, .error e) => (h, .error e)
      | (h, .ok ()) =>
        if ¬(srcinc = 1 ∧ dstinc = 1) ∧ src = dst ∧ srcinc = dstinc ∧ srcstart = dststart then
          (h, .ok ())
        else
          match copyAndSetLength src dst srcstart srcinc dststart dstinc number dstmax.toNat h with
          | .error e => (h, .error e)
          | .ok h => (h, .ok ())

end ListFunc

namespace ListFunc

structure Frame where
  vertex : Nat
  low : Nat
  next : Nat
  adj : List Nat
  deriving DecidableEq, Repr

-- The words of `val` begin with the one of vertex 1. The frame at `fptr` is the first one.
structure ComponentsState where
  val : List Nat
  stack : List Nat
  comps : List (List Nat)
  now : Nat
  frames : List Frame
  deriving DecidableEq, Repr

-- Append to a list with room for `n` entries.
def pushEntry {α : Type} (n : Nat) (list : List α) (elm : α) : Result (List α) :=
  if list.length < n then return list ++ [elm] else throw .access

def pushFrame (n : Nat) (frames : List Frame) (frame : Frame) : Result (List Frame) :=
  if frames.length < n then return frame :: frames else throw .access

def visitVertex (digraph : List (List Nat)) (t : Nat) (s : ComponentsState)
    : Result ComponentsState := do
  let adj ← elmPlist digraph t
  let now := s.now + 1
  let val ← setElmPlist s.val t now
  let stack ← pushEntry digraph.length s.stack t
  let frames ← pushFrame digraph.length s.frames ⟨t, now, 1, adj⟩
  return { s with val := val, stack := stack, now := now, frames := frames }

-- `do { x = stack[i]; val[x] = n + 1; i--; } while (x != vertex)`
def markComponent (n vertex : Nat) (stack : List Nat) : Nat → List Nat → Result (Nat × List Nat)
  | 0, _ => throw .access
  | i + 1, val => do
    let x ← elmPlist stack (i + 1)
    let val ← setElmPlist val x (n + 1)
    if x ≠ vertex then
      markComponent n vertex stack i val
    else
      return (i, val)

def popComponent (n : Nat) (fptr : Frame) (s : ComponentsState) : Result ComponentsState := do
  if fptr.low = (← elmPlist s.val fptr.vertex) then
    let (i, val) ← markComponent n fptr.vertex s.stack s.stack.length s.val
    let comps ← pushEntry n s.comps (s.stack.drop i)
    return { s with val := val, stack := s.stack.take i, comps := comps }
  else
    return s

-- `level--; fptr -= 4; if (level > 0 && fptr[5] < fptr[1]) fptr[1] = fptr[5];`
def popFrame (fptr : Frame) (frames : List Frame) : List Frame :=
  match frames with
  | [] => []
  | parent :: frames =>
    (if fptr.low < parent.low then { parent with low := fptr.low } else parent) :: frames

def componentsRound (digraph : List (List Nat)) (fptr : Frame) (frames : List Frame)
    (s : ComponentsState) : Result ComponentsState := do
  if fptr.next > fptr.adj.length then
    let s ← popComponent digraph.length fptr s
    return { s with frames := popFrame fptr frames }
  else
    let t ← elmPlist fptr.adj fptr.next
    let fptr := { fptr with next := fptr.next + 1 }
    let m ← elmPlist s.val t
    if m = 0 then
      visitVertex digraph t { s with frames := fptr :: frames }
    else
      let fptr := if m < fptr.low then { fptr with low := m } else fptr
      return { s with frames := fptr :: frames }

-- `while (level > 0)`
def componentsLoop (digraph : List (List Nat)) : Nat → ComponentsState → Result ComponentsState
  | 0, _ => throw .fuel
  | fuel + 1, s =>
    match s.frames with
    | [] => return s
    | fptr :: frames => do
      let s ← componentsRound digraph fptr frames s
      componentsLoop digraph fuel s

def componentsFrom (digraph : List (List Nat)) (k : Nat) (s : ComponentsState)
    : Result ComponentsState := do
  if (← elmPlist s.val k) = 0 then
    let s ← visitVertex digraph k s
    componentsLoop digraph (digraph.flatten.length + digraph.length + 1) s
  else
    return s

def funcStronglyConnectedComponentsDigraph (digraph : List (List Nat))
    : Result (List (List Nat)) := do
  let n := digraph.length
  if n = 0 then
    return []
  let s ← forLoop (componentsFrom digraph) n 1 ⟨List.replicate n 0, [], [], 0, []⟩
  return s.comps

end ListFunc
