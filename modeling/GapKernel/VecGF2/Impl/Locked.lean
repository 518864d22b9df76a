import GapKernel.CopyBits.Impl
import GapKernel.VecGF2.Impl.Matrix

/-!
This module contains the functions that change the length of a vector over the field with two
elements. The vector is mutable.
-/

/-- The objects that are assigned, `ffe` is not in the field with two elements. -/
inductive FieldElm (E : Type) where
  | zero
  | one
  -- An element of a bigger field with `q` elements, where `q` is at most 256
  | ffe (q : Nat) (elm : E)
  | other (elm : E)

inductive Converted (E : Type) where
  | plist (entries : List (Option (FieldElm E)))
  | vec8bit (q : Nat) (entries : List (FieldElm E))

namespace GF2Impl

open GF2Vec CopyBits GF2MatImpl

variable {w : Nat} {E : Type}

/-- `sum` is the state. -/
def addCoeffsGF2VecGF2Vec (vec : GF2Vec w) : ChangeM w Nat := do
  ChangeM.update (fun sum =>
    if sum.len < vec.len then
      return { sum with len := vec.len, blocks := resizeBlocks sum.blocks vec.len }
    else
      return sum)
  ChangeM.update (fun sum => do
    let blocks ← addGF2VecToGF2Vec sum.blocks (readAt vec.blocks) vec.len
    return { sum with blocks := blocks })
  let sum ← get
  ChangeM.ofResult (rightMostOneGF2Vec sum.toGF2Vec)

def funcAddCoeffsGF2VecGF2Vec (vr : GF2Vec w) : ChangeM w Nat :=
  addCoeffsGF2VecGF2Vec vr

/-- The result is `none` for `TRY_NEXT_METHOD`. -/
def funcAddCoeffsGF2VecGF2VecMult (vr : GF2Vec w) (mul : FieldElm E) : ChangeM w (Option Nat) := do
  match mul with
  | .zero =>
    let vl ← get
    let last ← ChangeM.ofResult (rightMostOneGF2Vec vl.toGF2Vec)
    return some last
  | .one =>
    let last ← addCoeffsGF2VecGF2Vec vr
    return some last
  | _ => return none

def copySectionGF2Vecs (src : GF2Vec w) (dest : List (BitVec w)) (smin dmin nelts : Nat)
    : Result (List (BitVec w)) :=
  copyBits src.blocks ((smin - 1) / w) ((smin - 1) % w) dest ((dmin - 1) / w) ((dmin - 1) % w) nelts

/-- `vecr` is a different vector. -/
def funcAppendGF2Vec (vecr : GF2Vec w) : ChangeM w Unit :=
  ChangeM.update (fun vecl => do
    if vecl.locked = true ∧ vecr.len > 0 then
      throw (.quit "Append to locked compressed vector is forbidden" 0 0)
    else
      let blocks := resizeBlocks vecl.blocks (vecl.len + vecr.len)
      let blocks ← copySectionGF2Vecs vecr blocks 1 (vecl.len + 1) vecr.len
      return { vecl with len := vecl.len + vecr.len, blocks := blocks })

def funcResizeGF2Vec (newlen : Nat) : ChangeM w Unit :=
  ChangeM.update (fun vec => resizeGF2Vec vec newlen)

def shiftLeftRound (blocks : List (BitVec w)) (amount i : Nat) : Result (List (BitVec w)) := do
  let x ← readAt blocks (amount / w + i)
  let y ← readAt blocks (amount / w + i + 1)
  writeAt blocks i ((x >>> (amount % w)) ||| (y <<< (w - amount % w)))

def shiftLeftBlocks (vec : GF2Obj w) (amount : Nat) : Result (GF2Obj w) := do
  let n := (vec.len - amount + w - 1) / w
  if amount % w = 0 then
    let blocks ← forLoop (fun i blocks => do
      let x ← readAt blocks (amount / w + i)
      writeAt blocks i x) n 0 vec.blocks
    return { vec with blocks := blocks }
  else
    let blocks ← forLoop (fun i blocks => shiftLeftRound blocks amount i) (n - 1) 0 vec.blocks
    -- The last block is handled separately.
    if amount / w + (n - 1) + 1 < vec.numberBlocks then
      let blocks ← shiftLeftRound blocks amount (n - 1)
      return { vec with blocks := blocks }
    else
      let x ← readAt blocks (amount / w + (n - 1))
      let blocks ← writeAt blocks (n - 1) (x >>> (amount % w))
      return { vec with blocks := blocks }

def shiftLeftGF2Vec (amount : Nat) : ChangeM w Unit := do
  if amount = 0 then
    return ()
  else
    let vec ← get
    if amount ≥ vec.len then
      ChangeM.update (fun vec => resizeGF2Vec vec 0)
    else
      ChangeM.update (fun vec => shiftLeftBlocks vec amount)
      ChangeM.update (fun vec => resizeGF2Vec vec (vec.len - amount))

def moveDown (amount : Nat) : (n ptr : Nat) → (blocks : List (BitVec w)) → Result (List (BitVec w))
  | 0, _, blocks => return blocks
  | n + 1, ptr, blocks => do
    let x ← readAt blocks (ptr - amount / w)
    let blocks ← writeAt blocks ptr x
    moveDown amount n (ptr - 1) blocks

def shiftDown (amount : Nat) : (ptr2 ptr1 : Nat) → (blocks : List (BitVec w))
    → Result (List (BitVec w) × Nat)
  | 0, ptr1, blocks => do
    let x ← readAt blocks 0
    let blocks ← writeAt blocks ptr1 (x <<< (amount % w))
    return (blocks, ptr1)
  | ptr2 + 1, ptr1, blocks => do
    let x ← readAt blocks (ptr2 + 1)
    let y ← readAt blocks ptr2
    let blocks ← writeAt blocks ptr1 ((x <<< (amount % w)) ||| (y >>> (w - amount % w)))
    shiftDown amount ptr2 (ptr1 - 1) blocks

/-- `len` is the old length. -/
def shiftRightBlocks (vec : GF2Obj w) (len amount : Nat) : Result (GF2Obj w) := do
  let ptr1 := (len + amount - 1) / w
  if amount % w = 0 then
    let n := (len + w - 1) / w
    let blocks ← moveDown amount n ptr1 vec.blocks
    let blocks ← clearBlocks blocks (ptr1 + 1 - n) 0
    return { vec with blocks := blocks }
  else
    let (blocks, left) ← shiftDown amount (ptr1 - amount / w) ptr1 vec.blocks
    let blocks ← clearBlocks blocks left 0
    return { vec with blocks := blocks }

def shiftRightGF2Vec (amount : Nat) : ChangeM w Unit := do
  if amount = 0 then
    return ()
  else
    let vec ← get
    ChangeM.update (fun vec => resizeGF2Vec vec (vec.len + amount))
    ChangeM.update (fun resized => shiftRightBlocks resized vec.len amount)

def elmGF2Vec (vec : GF2Vec w) (pos : Nat) : Result (FieldElm E) := do
  let block ← readAt vec.blocks ((pos - 1) / w)
  return if block &&& maskPos w pos ≠ 0#w then .one else .zero

def elmsGF2Vec (vec : GF2Vec w) : Result (List (FieldElm E)) :=
  (List.range vec.len).mapM (fun i => elmGF2Vec vec (i + 1))

def plainGF2Vec (list : GF2Obj w) : Result (List (Option (FieldElm E))) :=
  if list.locked then
    throw (.quit "Cannot convert a locked GF2 vector into a plain list" 0 0)
  else do
    let elms ← elmsGF2Vec list.toGF2Vec
    return elms.map some

def rewriteGF2Vec (list : GF2Obj w) (q : Nat) : Result (List (FieldElm E)) :=
  if list.locked then
    throw (.quit "Cannot convert a locked vector compressed over GF(2) to GF(%d)" q 0)
  else
    elmsGF2Vec list.toGF2Vec

def extendGF2Vec (p : Nat) (list : GF2Obj w) : Result (GF2Obj w) :=
  if list.len + 1 = p then
    if list.locked then
      throw (.quit "Assignment forbidden beyond the end of locked GF2 vector" 0 0)
    else
      return { list with len := p, blocks := resizeBlocks list.blocks p }
  else
    return list

def setBlockElm (p : Nat) (one : Bool) (list : GF2Obj w) : Result (GF2Obj w) := do
  let block ← readAt list.blocks ((p - 1) / w)
  let blocks ← writeAt list.blocks ((p - 1) / w)
    (if one then block ||| maskPos w p else block &&& ~~~maskPos w p)
  return { list with blocks := blocks }

/-- The result is `none` if the list is still a GF2 vector. -/
def funcAssGF2Vec (p : Nat) (elm : FieldElm E) : ChangeM w (Option (Converted E)) := do
  let list ← get
  if p ≤ list.len + 1 then
    ChangeM.update (extendGF2Vec p)
    match elm with
    | .one =>
      ChangeM.update (setBlockElm p true)
      return none
    | .zero =>
      ChangeM.update (setBlockElm p false)
      return none
    | .ffe q _ =>
      let list ← get
      let elms ← ChangeM.ofResult (rewriteGF2Vec list q)
      return some (.vec8bit q (elms.set (p - 1) elm))
    | .other _ =>
      let list ← get
      let elms ← ChangeM.ofResult (plainGF2Vec list)
      return some (.plist (assPlist elms p elm))
  else
    let elms ← ChangeM.ofResult (plainGF2Vec list)
    return some (.plist (assPlist elms p elm))

def funcUnbGF2Vec (p : Nat) : ChangeM w (Option (Converted E)) := do
  let list ← get
  if list.locked then
    throw (.quit "Unbind forbidden on locked GF2 vector" 0 0)
  else if list.len < p then
    return none
  else if list.len = p then
    ChangeM.update (fun list =>
      return { list with len := p - 1, blocks := resizeBlocks list.blocks (p - 1) })
    return none
  else
    let elms ← ChangeM.ofResult (plainGF2Vec list)
    return some (.plist (unbPlist elms p))

end GF2Impl
