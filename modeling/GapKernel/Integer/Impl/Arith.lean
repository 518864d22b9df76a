import GapKernel.Integer.Basic
import GapKernel.SquareMultiply

/-!
This module contains the functions for immediate integers, which work on the words of the objects,
the conversions between integer objects and the numbers of the library, the product of an integer
and an object, and the power of an object and an integer.
-/

namespace Integer

def INT_INTOBJ (o : Int) : Int :=
  o >>> (2 : Nat)

def INTOBJ_INT (w : IntSize) (i : Int) : IntegerObj :=
  .intobj (w.wrap (4 * i + 1))

-- Whether the sign bit and the guard bit are different.
def detectIntobjOverflow (w : IntSize) (o : Int) : Bool :=
  let topBits := (o % 2 ^ w.bits).toNat / 2 ^ (w.bits - 2)
  (topBits + 2 ^ w.bits - 1) % 2 ^ w.bits ≤ 1

def sumIntobjs (w : IntSize) (l r : Int) : Option Int :=
  let tmp := w.wrap (l + r - 1)
  if detectIntobjOverflow w tmp then none else some tmp

def diffIntobjs (w : IntSize) (l r : Int) : Option Int :=
  let tmp := w.wrap (l - r + 1)
  if detectIntobjOverflow w tmp then none else some tmp

-- `x ^ 1`
def flipBit0 (x : Int) : Int :=
  if x % 2 = 0 then x + 1 else x - 1

/--
`prod_intobjs`, `none` is the null pointer.
-/
def prodIntobjs (w : IntSize) (haveBuiltinMulOverflow : Bool) (l r : Int) : Option Int :=
  if haveBuiltinMulOverflow then
    let prod := (l >>> (1 : Nat)) * flipBit0 r
    if w.IsInt prod then some (flipBit0 (prod >>> (1 : Nat))) else none
  else if l = 1 ∨ r = 1 then
    some 1
  else if l = 5 then
    some r
  else if r = 5 then
    some l
  else
    let prod := w.wrap ((l % 2 ^ w.bits / 4) * (r - 1) + 1)
    if detectIntobjOverflow w prod then
      none
    else if isHalfInt w l ∧ isHalfInt w r then
      some prod
    else if (prod - 1).tdiv (l >>> (2 : Nat)) = r - 1 then
      some prod
    else
      none
where
  isHalfInt (w : IntSize) (x : Int) : Bool :=
    -2 ^ (w.bits / 2 - 1) ≤ x ∧ x < 2 ^ (w.bits / 2 - 1)

def objIntUInt (w : IntSize) (i : Nat) : IntegerObj :=
  if i ≤ w.intIntobjMax then INTOBJ_INT w i else .intpos [i]

def objIntUIntInv (w : IntSize) (i : Nat) : IntegerObj :=
  if i ≤ w.minusIntobjMin then INTOBJ_INT w (-i) else .intneg [i]

-- The number of limbs that the loop of `gmpNormalize` keeps.
def normalizedSize (limbs : List Nat) (size : Nat) : Nat :=
  match size with
  | 0 => 0
  | 1 => 1
  | size + 2 => if limbs.getD (size + 1) 0 ≠ 0 then size + 2 else normalizedSize limbs (size + 1)

def gmpNormalize (w : IntSize) (op : IntegerObj) : IntegerObj :=
  match op with
  | .intobj o => .intobj o
  | .intpos limbs =>
    let limbs := limbs.take (normalizedSize limbs limbs.length)
    if limbs.length = 1 ∧ limbs.getD 0 0 ≤ w.intIntobjMax then
      INTOBJ_INT w (limbs.getD 0 0)
    else
      .intpos limbs
  | .intneg limbs =>
    let limbs := limbs.take (normalizedSize limbs limbs.length)
    if limbs.length = 1
        ∧ (limbs.getD 0 0 ≤ w.intIntobjMax ∨ limbs.getD 0 0 = w.minusIntobjMin) then
      INTOBJ_INT w (-(limbs.getD 0 0 : Int))
    else
      .intneg limbs

-- `FAKEMPZ_GMPorINTOBJ`
def fakeMpzOfObj (op : IntegerObj) : Mpz :=
  match op with
  | .intobj o =>
    let i := INT_INTOBJ o
    if i ≥ 0 then
      { size := if i ≠ 0 then 1 else 0, limbs := [i.toNat] }
    else
      { size := -1, limbs := [(-i).toNat] }
  | .intpos limbs => { size := limbs.length, limbs := limbs }
  | .intneg limbs => { size := -limbs.length, limbs := limbs }

/--
`GMPorINTOBJ_FAKEMPZ` for a result that `NEW_FAKEMPZ` has set up with `alloc` limbs. One limb is
stored in the `fake_mpz_t`, more limbs in a bag.
-/
def objOfFakeMpz (w : IntSize) (alloc : Nat) (v : Mpz) : IntegerObj :=
  if v.size = 0 then
    INTOBJ_INT w 0
  else if alloc ≠ 1 then
    gmpNormalize w (if v.size < 0 then .intneg v.limbs else .intpos v.limbs)
  else if v.size = 1 then
    objIntUInt w (v.limbs.getD 0 0)
  else
    objIntUIntInv w (v.limbs.getD 0 0)

-- `SIZE_INT_OR_INTOBJ`
def sizeInt (op : IntegerObj) : Nat :=
  match op with
  | .intobj _ => 1
  | .intpos limbs => limbs.length
  | .intneg limbs => limbs.length

end Integer

namespace Integer

variable {w : IntSize}

def INTOBJ_MIN (w : IntSize) : IntegerObj :=
  INTOBJ_INT w w.intIntobjMin

-- The large integer `-INT_INTOBJ_MIN`.
def isMinusIntobjMin (w : IntSize) (op : IntegerObj) : Bool :=
  match op with
  | .intpos limbs => limbs.length = 1 ∧ limbs.getD 0 0 = w.minusIntobjMin
  | _ => false

def eqInt (P : Platform w) (opL opR : IntegerObj) : Bool :=
  match opL, opR with
  | .intpos l, .intpos r => l.length = r.length ∧ P.mpnCmp l r = 0
  | .intneg l, .intneg r => l.length = r.length ∧ P.mpnCmp l r = 0
  -- An immediate integer, or different types.
  | _, _ => opL = opR

def ltInt (P : Platform w) (opL opR : IntegerObj) : Bool :=
  match opL, opR with
  | .intobj l, .intobj r => l < r
  | .intobj _, .intpos _ => true
  | .intobj _, .intneg _ => false
  | .intpos _, .intobj _ => false
  | .intneg _, .intobj _ => true
  | .intpos _, .intneg _ => false
  | .intneg _, .intpos _ => true
  | .intpos l, .intpos r => compare l r < 0
  | .intneg l, .intneg r => -compare l r < 0
where
  compare (l r : List Nat) : Int :=
    if l.length < r.length then -1 else if l.length > r.length then 1 else P.mpnCmp l r

def aInvInt (w : IntSize) (op : IntegerObj) : IntegerObj :=
  match op with
  | .intobj o =>
    if .intobj o = INTOBJ_MIN w then
      .intpos [w.minusIntobjMin]
    else
      INTOBJ_INT w (-INT_INTOBJ o)
  | .intpos limbs => if isMinusIntobjMin w (.intpos limbs) then INTOBJ_MIN w else .intneg limbs
  | .intneg limbs => .intpos limbs

def absInt (w : IntSize) (op : IntegerObj) : IntegerObj :=
  match op with
  | .intobj o =>
    if o > 0 then
      .intobj o
    else if .intobj o = INTOBJ_MIN w then
      .intpos [w.minusIntobjMin]
    else
      .intobj (w.wrap (2 - o))
  | .intpos limbs => .intpos limbs
  | .intneg limbs => .intpos limbs

def sumOrDiffInt (P : Platform w) (opL opR : IntegerObj) (sign : Int) : IntegerObj :=
  if opR = INTOBJ_INT w 0 then
    opL
  else if opL = INTOBJ_INT w 0 then
    if sign = 1 then opR else aInvInt w opR
  else
    let sizeL := sizeInt opL
    let sizeR := sizeInt opR
    let alloc := if sizeL > sizeR then sizeL + 1 else sizeR + 1
    if sign = 1 then
      objOfFakeMpz w alloc (P.mpzAdd alloc (fakeMpzOfObj opL) (fakeMpzOfObj opR))
    else
      objOfFakeMpz w alloc (P.mpzSub alloc (fakeMpzOfObj opL) (fakeMpzOfObj opR))

def sumInt (P : Platform w) (opL opR : IntegerObj) : IntegerObj :=
  match opL, opR with
  | .intobj l, .intobj r =>
    match sumIntobjs w l r with
    | some sum => .intobj sum
    | none => sumOrDiffInt P opL opR 1
  | _, _ => sumOrDiffInt P opL opR 1

def diffInt (P : Platform w) (opL opR : IntegerObj) : IntegerObj :=
  match opL, opR with
  | .intobj l, .intobj r =>
    match diffIntobjs w l r with
    | some dif => .intobj dif
    | none => sumOrDiffInt P opL opR (-1)
  | _, _ => sumOrDiffInt P opL opR (-1)

def prodInt (P : Platform w) (opL opR : IntegerObj) : IntegerObj :=
  match opL, opR with
  | .intobj l, .intobj r =>
    match prodIntobjs w P.haveBuiltinMulOverflow l r with
    | some prd => .intobj prd
    | none => large opL opR
  | _, _ => large opL opR
where
  -- The product when it is not known to be small.
  large (opL opR : IntegerObj) : IntegerObj :=
    if opL = INTOBJ_INT w 0 ∨ opR = INTOBJ_INT w 1 then
      opL
    else if opR = INTOBJ_INT w 0 ∨ opL = INTOBJ_INT w 1 then
      opR
    else if opR = INTOBJ_INT w (-1) then
      aInvInt w opL
    else if opL = INTOBJ_INT w (-1) then
      aInvInt w opR
    else
      let alloc := sizeInt opL + sizeInt opR
      objOfFakeMpz w alloc (P.mpzMul alloc (fakeMpzOfObj opL) (fakeMpzOfObj opR))

def requireNonzero (w : IntSize) (op : IntegerObj) : Result Unit :=
  if op = INTOBJ_INT w 0 then
    throw (.argument "Integer operations" "<divisor>" "must be a nonzero integer")
  else
    pure ()

-- The limbs of a bag with `n` limbs, the first of which have been written.
def bagOf (n : Nat) (limbs : List Nat) : List Nat :=
  limbs ++ List.replicate (n - limbs.length) 0

-- The remainder of a large integer by a small one, without its sign.
def smallRemainder (P : Platform w) (limbs : List Nat) (i : Int) : Nat :=
  let i := i.natAbs
  if i &&& (i - 1) = 0 then
    limbs.getD 0 0 &&& (i - 1)
  else
    P.mpnMod1 limbs i

def modInt (P : Platform w) (opL opR : IntegerObj) : Result IntegerObj := do
  requireNonzero w opR
  match opL, opR with
  | .intobj l, .intobj r =>
    let k := INT_INTOBJ r
    let i := (INT_INTOBJ l).tmod k
    pure (INTOBJ_INT w (if i < 0 then i + (if k > 0 then k else -k) else i))
  | .intobj l, _ =>
    if opL = INTOBJ_MIN w ∧ isMinusIntobjMin w opR then
      pure (INTOBJ_INT w 0)
    else if 0 ≤ INT_INTOBJ l then
      pure opL
    else
      pure (makePositive opL opR)
  | .intpos limbs, .intobj r =>
    pure (INTOBJ_INT w (smallRemainder P limbs (INT_INTOBJ r)))
  | .intneg limbs, .intobj r =>
    let c := smallRemainder P limbs (INT_INTOBJ r)
    if c = 0 then
      pure (INTOBJ_INT w c)
    else
      pure (INTOBJ_INT w ((INT_INTOBJ r).natAbs - c))
  | .intpos l, .intpos r => large l r .intpos
  | .intpos l, .intneg r => large l r .intpos
  | .intneg l, .intpos r => large l r .intneg
  | .intneg l, .intneg r => large l r .intneg
where
  -- A negative remainder is made positive.
  makePositive (mod opR : IntegerObj) : IntegerObj :=
    match opR with
    | .intpos _ => sumOrDiffInt P mod opR 1
    | _ => sumOrDiffInt P mod opR (-1)
  isNegInt (op : IntegerObj) : Bool :=
    match op with
    | .intobj o => o < 0
    | .intpos _ => false
    | .intneg _ => true
  large (l r : List Nat) (mk : List Nat → IntegerObj) : Result IntegerObj :=
    if l.length < r.length then
      match opL with
      | .intpos _ => pure opL
      | _ => pure (makePositive opL opR)
    else
      let mod := gmpNormalize w (mk (bagOf (l.length + 1) (P.mpnTdivQr l r).2))
      if isNegInt mod then
        pure (makePositive mod opR)
      else
        pure mod

def quoInt (P : Platform w) (opL opR : IntegerObj) : Result IntegerObj := do
  requireNonzero w opR
  match opL, opR with
  | .intobj l, .intobj r =>
    if opL = INTOBJ_MIN w ∧ opR = INTOBJ_INT w (-1) then
      pure (.intpos [w.minusIntobjMin])
    else
      pure (gmpNormalize w (INTOBJ_INT w ((INT_INTOBJ l).tdiv (INT_INTOBJ r))))
  | .intobj _, _ =>
    if opL = INTOBJ_MIN w ∧ isMinusIntobjMin w opR then
      pure (INTOBJ_INT w (-1))
    else
      pure (INTOBJ_INT w 0)
  | .intpos l, .intobj r =>
    let k := INT_INTOBJ r
    pure (small l k (if k < 0 then .intneg else .intpos))
  | .intneg l, .intobj r =>
    let k := INT_INTOBJ r
    pure (small l k (if k < 0 then .intpos else .intneg))
  | .intpos l, .intpos r => pure (large l r .intpos)
  | .intpos l, .intneg r => pure (large l r .intneg)
  | .intneg l, .intpos r => pure (large l r .intneg)
  | .intneg l, .intneg r => pure (large l r .intpos)
where
  small (l : List Nat) (k : Int) (mk : List Nat → IntegerObj) : IntegerObj :=
    gmpNormalize w (mk (P.mpnDivrem1 l k.natAbs))
  large (l r : List Nat) (mk : List Nat → IntegerObj) : IntegerObj :=
    if l.length < r.length then
      INTOBJ_INT w 0
    else
      gmpNormalize w (mk (P.mpnTdivQr l r).1)

def remInt (P : Platform w) (opL opR : IntegerObj) : Result IntegerObj := do
  requireNonzero w opR
  match opL, opR with
  | .intobj l, .intobj r => pure (INTOBJ_INT w ((INT_INTOBJ l).tmod (INT_INTOBJ r)))
  | .intobj _, _ =>
    if opL = INTOBJ_MIN w ∧ isMinusIntobjMin w opR then
      pure (INTOBJ_INT w 0)
    else
      pure opL
  | .intpos limbs, .intobj r =>
    pure (INTOBJ_INT w (smallRemainder P limbs (INT_INTOBJ r)))
  | .intneg limbs, .intobj r =>
    pure (INTOBJ_INT w (-(smallRemainder P limbs (INT_INTOBJ r) : Int)))
  | .intpos l, .intpos r => pure (large l r .intpos)
  | .intpos l, .intneg r => pure (large l r .intpos)
  | .intneg l, .intpos r => pure (large l r .intneg)
  | .intneg l, .intneg r => pure (large l r .intneg)
where
  large (l r : List Nat) (mk : List Nat → IntegerObj) : IntegerObj :=
    if l.length < r.length then
      opL
    else
      gmpNormalize w (mk (bagOf (l.length + 1) (P.mpnTdivQr l r).2))

def absOfSmallInt (op : IntegerObj) : Nat :=
  match op with
  | .intobj o => (INT_INTOBJ o).natAbs
  | .intpos limbs => limbs.getD 0 0
  | .intneg limbs => limbs.getD 0 0

def gcdInt (P : Platform w) (opL opR : IntegerObj) : IntegerObj :=
  if opL = INTOBJ_INT w 0 then
    absInt w opR
  else if opR = INTOBJ_INT w 0 then
    absInt w opL
  else
    let sizeL := sizeInt opL
    let sizeR := sizeInt opR
    if sizeL = 1 ∨ sizeR = 1 then
      let (opL, opR) := if sizeR ≠ 1 then (opR, opL) else (opL, opR)
      objIntUInt w (P.mpzGcdUi (fakeMpzOfObj opL) (absOfSmallInt opR))
    else
      let alloc := if sizeL < sizeR then sizeL else sizeR
      objOfFakeMpz w alloc (P.mpzGcd alloc (fakeMpzOfObj opL) (fakeMpzOfObj opR))

def isIntobj (op : IntegerObj) : Bool :=
  match op with
  | .intobj _ => true
  | _ => false

def lcmInt (P : Platform w) (opL opR : IntegerObj) : Result IntegerObj :=
  if opL = INTOBJ_INT w 0 ∨ opR = INTOBJ_INT w 0 then
    pure (INTOBJ_INT w 0)
  else if isIntobj opL ∨ isIntobj opR then do
    let (opL, opR) := if ¬isIntobj opR then (opR, opL) else (opL, opR)
    let gcd := gcdInt P opL opR
    let opR ← quoInt P opR gcd
    pure (absInt w (prodInt P opL opR))
  else
    let alloc := sizeInt opL + sizeInt opR
    pure (objOfFakeMpz w alloc (P.mpzLcm alloc (fakeMpzOfObj opL) (fakeMpzOfObj opR)))

end Integer

/--
The operations of an object with an addition. `none` is `fail`.
-/
structure AdditiveOps (α : Type) where
  isMutable : α → Bool
  zeroSamemut : α → α
  sum : α → α → α
  ainvSamemut : α → Option α

/--
The operations of an object with a multiplication. `copyObj` makes a mutable copy.
-/
structure MultiplicativeOps (α : Type) where
  copyObj : α → α
  oneSamemut : α → α
  prod : α → α → α
  invSamemut : α → Option α

namespace Integer

variable {α : Type}

/--
The loop for a small integer, where `k` is halved. `none` is the null pointer.
-/
def doubleSmall (sum : α → α → α) (op : α) (k l : Nat) (res : Option α) : Option α :=
  if k = 0 then
    res
  else
    let res := SquareMultiply.square sum res
    if k ≤ l then
      doubleSmall sum op (k / 2) (l - k) (SquareMultiply.times sum res op)
    else
      doubleSmall sum op (k / 2) l res
termination_by k

-- The loop over the bits of the limb `l`.
def doubleLimb (sum : α → α → α) (op : α) (l : Nat) : Nat → Option α → Option α
  | 0, res => res
  | k + 1, res =>
    let res := SquareMultiply.square sum res
    doubleLimb sum op l k (if l.testBit k then SquareMultiply.times sum res op else res)

-- The loop over the limbs of a large integer.
def doubleLarge (w : IntSize) (sum : α → α → α) (op : α) (limbs : List Nat)
    : Nat → Option α → Option α
  | 0, res => res
  | i + 1, res =>
    doubleLarge w sum op limbs i (doubleLimb sum op (limbs.getD i 0) w.bits res)

/--
The positive integers. The other functions do not get here with another integer.
-/
def doublePositive (w : IntSize) (sum : α → α → α) (n : IntegerObj) (op : α) : Result (Option α) :=
  match n with
  | .intobj o =>
    if INT_INTOBJ o > 1 then
      object (doubleSmall sum op (2 ^ w.nrSmallIntBits) (INT_INTOBJ o).toNat none)
    else
      throw .access
  | .intpos limbs => object (doubleLarge w sum op limbs limbs.length none)
  | .intneg _ => throw .access
where
  object (res : Option α) : Result (Option α) :=
    match res with
    | some r => return some r
    | none => throw .access

def isNegInt (op : IntegerObj) : Bool :=
  match op with
  | .intobj o => o < 1
  | .intpos _ => false
  | .intneg _ => true

/--
`ProdIntObj`, with the function that `PROD` calls for an integer and an object.
-/
def prodIntObjBy (w : IntSize) (O : AdditiveOps α) (PROD : IntegerObj → α → Result (Option α))
    (n : IntegerObj) (op : α) : Result (Option α) :=
  if n = INTOBJ_INT w 0 then
    return some (O.zeroSamemut op)
  else if n = INTOBJ_INT w 1 then
    if O.isMutable op then
      return some (O.sum (O.zeroSamemut op) op)
    else
      return some op
  else if n = INTOBJ_INT w (-1) then
    return O.ainvSamemut op
  else if isNegInt n then
    match O.ainvSamemut op with
    | none => throw (.quit "Operations: <obj> must have an additive inverse" 0 0)
    | some res => PROD (aInvInt w n) res
  else
    doublePositive w O.sum n op

def prodIntObj (w : IntSize) (O : AdditiveOps α) (n : IntegerObj) (op : α) : Result (Option α) :=
  prodIntObjBy w O (prodIntObjBy w O (fun _ _ => throw .fuel)) n op

/--
`PowObjInt`, with the function that `POW` calls for an object and an integer.
-/
def powObjIntBy (w : IntSize) (O : MultiplicativeOps α) (POW : α → IntegerObj → Result (Option α))
    (op : α) (n : IntegerObj) : Result (Option α) :=
  if n = INTOBJ_INT w 0 then
    return some (O.oneSamemut op)
  else if n = INTOBJ_INT w 1 then
    return some (O.copyObj op)
  else if n = INTOBJ_INT w (-1) then
    return O.invSamemut op
  else if isNegInt n then
    match O.invSamemut op with
    | none => throw (.quit "Operations: <obj> must have an inverse" 0 0)
    | some res => POW res (aInvInt w n)
  else
    doublePositive w O.prod n op

def powObjInt (w : IntSize) (O : MultiplicativeOps α) (op : α) (n : IntegerObj)
    : Result (Option α) :=
  powObjIntBy w O (powObjIntBy w O (fun _ _ => throw .fuel)) op n

end Integer
