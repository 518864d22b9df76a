import GapKernel.VecGF2.Impl

/-!
This module contains the arithmetic of vectors over the field with two elements as polynomials.
-/

/-- `locked` is `IsLockedRepresentationVector`. -/
structure GF2Obj (w : Nat) extends GF2Vec w where
  locked : Bool
  deriving DecidableEq, Repr

/-- A function that changes a vector. An error keeps the changes before it. -/
abbrev ChangeM (w : Nat) := EStateM Fault (GF2Obj w)

namespace ChangeM

variable {w : Nat} {α : Type}

def ofResult (res : Result α) : ChangeM w α :=
  match res with
  | .ok a => pure a
  | .error e => throw e

def update (f : GF2Obj w → Result (GF2Obj w)) : ChangeM w Unit := do
  let vec ← get
  let vec ← ofResult (f vec)
  set vec

end ChangeM

namespace GF2Impl

variable {w : Nat}

def allBits : BitVec w :=
  ~~~0#w

def maskPos (w pos : Nat) : BitVec w :=
  1#w <<< ((pos - 1) % w)

def rightMostLoop (blocks : List (BitVec w)) : (rounds len : Nat) → Result Nat
  | 0, len => if 0 < len then throw .fuel else return len
  | n + 1, len =>
    if 0 < len then do
      let block ← readAt blocks ((len - 1) / w)
      if block = 0#w then
        rightMostLoop blocks n (w * ((len - 1) / w))
      else if block &&& maskPos w len ≠ 0#w then
        return len
      else
        rightMostLoop blocks n (len - 1)
    else
      return len

def rightMostOne (blocks : List (BitVec w)) (len : Nat) : Result Nat :=
  rightMostLoop blocks len len

def rightMostOneGF2Vec (vec : GF2Vec w) : Result Nat :=
  rightMostOne vec.blocks vec.len

def resizeBlocks (blocks : List (BitVec w)) (len : Nat) : List (BitVec w) :=
  blocks.take ((len + w - 1) / w) ++ List.replicate ((len + w - 1) / w - blocks.length) 0#w

def cleanBlock (blocks : List (BitVec w)) (len : Nat) : Result (List (BitVec w)) := do
  let off := w - ((len - 1) % w + 1)
  let block ← readAt blocks ((len - 1) / w)
  writeAt blocks ((len - 1) / w) (block &&& (allBits >>> off))

def cleanLast (blocks : List (BitVec w)) (len : Nat) : Result (List (BitVec w)) :=
  if len % w ≠ 0 then cleanBlock blocks len else return blocks

def clearBlocks (blocks : List (BitVec w)) (n i : Nat) : Result (List (BitVec w)) :=
  forLoop (fun i blocks => writeAt blocks i 0#w) n i blocks

def resizeGF2Vec (vec : GF2Obj w) (newlen : Nat) : Result (GF2Obj w) := do
  if vec.len = newlen then
    return vec
  else if vec.locked then
    throw (.quit "Resize of locked compressed vector is forbidden" 0 0)
  else if newlen > vec.len then
    let blocks := resizeBlocks vec.blocks newlen
    let nptr := (newlen - 1) / w
    if vec.len = 0 then
      let blocks ← clearBlocks blocks (nptr + 1) 0
      return { vec with len := newlen, blocks := blocks }
    else
      let blocks ← cleanBlock blocks vec.len
      let ptr := (vec.len - 1) / w + 1
      let blocks ← clearBlocks blocks (nptr + 1 - ptr) ptr
      return { vec with len := newlen, blocks := blocks }
  else
    let blocks ← cleanLast vec.blocks newlen
    return { vec with len := newlen, blocks := resizeBlocks blocks newlen }

def xorAt (blocks : List (BitVec w)) (i : Nat) (x : BitVec w) : Result (List (BitVec w)) := do
  let block ← readAt blocks i
  writeAt blocks i (block ^^^ x)

/-- `vec2` is a different vector. -/
def addShiftedVecGF2VecGF2 (vec1 : GF2Obj w) (vec2 : GF2Vec w) (len2 off : Nat)
    : Result (GF2Obj w) := do
  if off % w = 0 then
    let last := subWord w len2 1
    let blocks ← forLoop (fun i blocks => do
      let x ← readAt vec2.blocks i
      xorAt blocks (off / w + i) x) (last / w) 0 vec1.blocks
    let block ← readAt vec2.blocks (last / w)
    let block := block &&& (allBits >>> (w - last % w - 1))
    let blocks ← xorAt blocks (off / w + last / w) block
    return { vec1 with blocks := blocks }
  else
    let shift1 := off % w
    let shift2 := w - off % w
    let blocks ← forLoop (fun i blocks => do
      let x ← readAt vec2.blocks i
      let blocks ← xorAt blocks (off / w + i) (x <<< shift1)
      xorAt blocks (off / w + i + 1) (x >>> shift2)) (len2 / w) 0 vec1.blocks
    if len2 % w ≠ 0 then
      let block ← readAt vec2.blocks (len2 / w)
      let block := block &&& (allBits >>> (w - (len2 - 1) % w - 1))
      let ptr1 := off / w + len2 / w
      let blocks ← xorAt blocks ptr1 (block <<< shift1)
      if len2 % w + off % w > w then
        if ¬ptr1 + 1 < (vec1.len + w - 1) / w then
          throw .undefined
        let blocks ← xorAt blocks (ptr1 + 1) (block >>> shift2)
        return { vec1 with blocks := blocks }
      else
        return { vec1 with blocks := blocks }
    else
      return { vec1 with blocks := blocks }

def funcAddGF2VecGF2VecShifted (vec1 : GF2Obj w) (vec2 : GF2Vec w) (len2 off : Nat)
    : Result (GF2Obj w) := do
  if len2 ≥ vec2.len then
    throw (.quit ("ADD_GF2VEC_GF2VEC_SHIFTED: <len2> must be a non-negative "
      ++ "integer less than the actual length of the vector") 0 0)
  let vec1 ← if len2 + off > vec1.len then resizeGF2Vec vec1 (len2 + off) else pure vec1
  addShiftedVecGF2VecGF2 vec1 vec2 len2 off

def newGF2Vec (len : Nat) : GF2Obj w :=
  { GF2Vec.new len with locked := false }

structure ProductState (w : Nat) where
  prod : GF2Obj w
  ptr : Nat
  block : BitVec w
  e : Nat

def loadBlock (vec1 : GF2Vec w) (s : ProductState w) : Result (ProductState w) :=
  if s.e = w then do
    let block ← readAt vec1.blocks s.ptr
    return { s with ptr := s.ptr + 1, block := block, e := 0 }
  else
    return s

def productRound (vec1 vec2 : GF2Vec w) (len2 i : Nat) (s : ProductState w)
    : Result (ProductState w) := do
  let s ← loadBlock vec1 s
  if s.block &&& (1#w <<< s.e) ≠ 0#w then
    let prod ← addShiftedVecGF2VecGF2 s.prod vec2 len2 i
    return { s with prod := prod, e := s.e + 1 }
  else
    return { s with e := s.e + 1 }

def productCoeffsGF2Vec (vec1 : GF2Vec w) (len1 : Nat) (vec2 : GF2Vec w) (len2 : Nat)
    : Result (GF2Obj w) := do
  let len := if len1 = 0 ∧ len2 = 0 then 0 else len1 + len2 - 1
  let (vec1, len1, vec2, len2) :=
    if len2 < len1 then (vec2, len2, vec1, len1) else (vec1, len1, vec2, len2)
  let s ← forLoop (productRound vec1 vec2 len2) len1 0
    { prod := newGF2Vec len, ptr := 0, block := 0#w, e := w }
  return s.prod

def funcProdCoeffsGF2Vec (vec1 : GF2Vec w) (len1 : Nat) (vec2 : GF2Vec w) (len2 : Nat)
    : Result (GF2Obj w) := do
  if len2 > vec2.len then
    throw (.quit ("PROD_COEFFS_GF2VEC: <len2> must not be more than the "
      ++ "actual\nlength of the vector") 0 0)
  if len1 > vec1.len then
    throw (.quit ("PROD_COEFFS_GF2VEC: <len1> must be not more than the "
      ++ "actual\nlength of the vector") 0 0)
  let prod ← productCoeffsGF2Vec vec1 len1 vec2 len2
  let last ← rightMostOneGF2Vec prod.toGF2Vec
  if last < prod.len then
    resizeGF2Vec prod last
  else
    return prod

def readSigned (blocks : List (BitVec w)) (ptr : Int) : Result (BitVec w) :=
  if ptr < 0 then throw .access else readAt blocks ptr.toNat

def setQuotBit (quotient : Option (List (BitVec w))) (j : Nat)
    : Result (Option (List (BitVec w))) :=
  match quotient with
  | none => return none
  | some qptr => do
    let block ← readAt qptr ((j - 1) / w)
    let qptr ← writeAt qptr ((j - 1) / w) (block ||| maskPos w j)
    return some qptr

def reduceRound (vec1 : GF2Obj w) (vec2 : GF2Vec w) (len2 : Nat)
    (quotient : Option (List (BitVec w))) (i e : Nat) (ptr : Int) (j : Nat)
    : Result (GF2Obj w × Option (List (BitVec w))) := do
  let block ← readSigned vec1.blocks ptr
  if block &&& (1#w <<< e) ≠ 0#w then
    let vec1 ← addShiftedVecGF2VecGF2 vec1 vec2 len2 ((subWord w i len2 + 1) % 2 ^ w)
    let quotient ← setQuotBit quotient j
    return (vec1, quotient)
  else
    return (vec1, quotient)

/-- `i` is unsigned and goes below zero. -/
def reduceLoop (vec2 : GF2Vec w) (len2 : Nat)
    : (rounds : Nat) → (vec1 : GF2Obj w) → (quotient : Option (List (BitVec w)))
      → (i e : Nat) → (ptr : Int) → (j : Nat)
      → Result (GF2Obj w × Option (List (BitVec w)))
  | 0, _, _, _, _, _, _ => throw .fuel
  | n + 1, vec1, quotient, i, e, ptr, j =>
    if (i + 1) % 2 ^ w ≥ len2 then do
      let (vec1, quotient) ← reduceRound vec1 vec2 len2 quotient i e ptr j
      let block ← readSigned vec1.blocks ptr
      if block &&& (1#w <<< e) ≠ 0#w then
        throw .undefined
      if e = 0 then
        reduceLoop vec2 len2 n vec1 quotient (subWord w i 1) (w - 1) (ptr - 1) (j - 1)
      else
        reduceLoop vec2 len2 n vec1 quotient (subWord w i 1) (e - 1) ptr (j - 1)
    else
      return (vec1, quotient)

def reduceCoeffsGF2Vec (vec1 : GF2Obj w) (vec2 : GF2Vec w) (len2 : Nat)
    (quotient : Option (List (BitVec w))) : Result (GF2Obj w × Option (List (BitVec w))) :=
  if len2 > vec1.len then
    return (vec1, quotient)
  else
    let i := subWord w vec1.len 1
    reduceLoop vec2 len2 (vec1.len + 1) vec1 quotient i (i % w) (i / w : Nat) (vec1.len - len2 + 1)

def funcReduceCoeffsGF2Vec (len1 : Nat) (vec2 : GF2Vec w) (len2 : Nat) : ChangeM w Nat := do
  let vec1 ← get
  if len1 > vec1.len then
    throw (.quit ("ReduceCoeffs: given length <len1> of left argt "
      ++ "(%d)\nis longer than the argt (%d)") len1 vec1.len)
  else if len2 > vec2.len then
    throw (.quit ("ReduceCoeffs: given length <len2> of right argt "
      ++ "(%d)\nis longer than the argt (%d)") len2 vec2.len)
  else
    ChangeM.update (fun vec1 => resizeGF2Vec vec1 len1)
    let len2 ← ChangeM.ofResult (rightMostOne vec2.blocks len2)
    if len2 = 0 then
      throw (.quit "ReduceCoeffs: second argument must not be zero" 0 0)
    else
      ChangeM.update (fun vec1 => do
        let (vec1, _) ← reduceCoeffsGF2Vec vec1 vec2 len2 none
        return vec1)
      let vec1 ← get
      let last ← ChangeM.ofResult (rightMostOneGF2Vec vec1.toGF2Vec)
      ChangeM.update (fun vec1 => resizeGF2Vec vec1 last)
      return last

structure QuotRem (w : Nat) where
  quotLen : Int
  quotBlocks : List (BitVec w)
  remv : GF2Vec w

/--
`NEW_GF2VEC` for a length that can be negative. With less than no blocks there is no room for the
length, or the size wraps around.
-/
def newBlocks (len : Int) : Result (List (BitVec w)) :=
  let n := (len + w - 1).tdiv w
  if n < 0 then throw .access else return List.replicate n.toNat 0#w

def funcQuotremCoeffsGF2Vec (vec1 : GF2Vec w) (len1 : Nat) (vec2 : GF2Vec w) (len2 : Nat)
    : Result (QuotRem w) := do
  if len1 > vec1.len then
    throw (.quit ("QuotremCoeffs: given length <len1> of left argt "
      ++ "(%d)\nis longer than the argt (%d)") len1 vec1.len)
  if len2 > vec2.len then
    throw (.quit ("QuotremCoeffs: given length <len2> of right argt "
      ++ "(%d)\nis longer than the argt (%d)") len2 vec2.len)
  let len2 ← rightMostOne vec2.blocks len2
  if len2 = 0 then
    throw (.quit "QuotremCoeffs: second argument must not be zero" 0 0)
  if (len1 + w - 1) / w > vec1.blocks.length then
    throw .access
  let remv : GF2Obj w :=
    { len := len1, blocks := vec1.blocks.take ((len1 + w - 1) / w), locked := false }
  let quotLen : Int := len1 - len2 + 1
  let quotv ← newBlocks quotLen
  let (remv, quotv) ← reduceCoeffsGF2Vec remv vec2 len2 (some quotv)
  return { quotLen := quotLen, quotBlocks := quotv.getD [], remv := remv.toGF2Vec }

end GF2Impl
