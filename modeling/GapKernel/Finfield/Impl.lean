import GapKernel.Fault
import GapKernel.ForLoop
import GapKernel.IntObj

/-!
This module contains the small finite fields and their elements. An element is a zero or a power of
the primitive root of the field over which it is written.
-/

structure FFData where
  numShortFiniteFields : Nat
  sizeFF : Nat → Nat
  charFF : Nat → Nat
  degrFF : Nat → Nat
  succFF : Nat → List Nat

structure FFE where
  fld : Nat
  val : Nat
  deriving DecidableEq, Repr

namespace Finfield

section Values

-- `f[i]`
def succAt (f : List Nat) (i : Nat) : Result Nat :=
  match f[i]? with
  | some v => pure v
  | none => throw .access

def prodFFV (a b : Nat) (f : List Nat) : Result Nat := do
  if a = 0 ∨ b = 0 then
    pure 0
  else
    let q1 ← succAt f 0
    let a1 := a - 1
    let b1 := q1 - b
    if a1 ≤ b1 then pure (a1 + b) else pure (a1 - b1)

def sumFFV (a b : Nat) (f : List Nat) : Result Nat := do
  if a = 0 then
    pure b
  else if b = 0 then
    pure a
  else
    let (a, b) := if b > a then (b, a) else (a, b)
    prodFFV b (← succAt f (a - b + 1)) f

def negFFV (a : Nat) (f : List Nat) : Result Nat := do
  let q1 ← succAt f 0
  if a = 0 then
    pure 0
  else if q1 % 2 ≠ 0 then
    pure a
  else if a ≤ q1 / 2 then
    pure (a + q1 / 2)
  else
    pure (a - q1 / 2)

def quoFFV (a b : Nat) (f : List Nat) : Result Nat := do
  if a = 0 then
    pure 0
  else if b ≤ a then
    pure (a - b + 1)
  else
    pure (a + ((← succAt f 0) - b) + 1)

def powFFV (a n : Nat) (f : List Nat) : Result Nat := do
  if n = 0 then
    pure 1
  else if a = 0 then
    pure 0
  else
    let a1 := a - 1
    pure ((a1 * n) % (← succAt f 0) + 1)

end Values

section Fields

variable (t : FFData)

def lookupPrimePower (q : Nat) : Result Nat := do
  let ff ← search (t.numShortFiniteFields + 1) 1 t.numShortFiniteFields 0
  if ff < 1 ∨ t.numShortFiniteFields < ff then
    pure 0
  else if t.sizeFF ff ≠ q then
    pure 0
  else
    pure ff
where
  search : Nat → Nat → Nat → Nat → Result Nat
    | 0, _, _, _ => throw .fuel
    | fuel + 1, l, n, ff => do
      if l ≤ n ∧ t.sizeFF l ≤ q ∧ q ≤ t.sizeFF n then
        let e := (q - t.sizeFF l + 1) * (n - l) / (t.sizeFF n - t.sizeFF l + 1)
        let ff := l + e
        if t.sizeFF ff = q then
          pure ff
        else if t.sizeFF ff < q then
          search fuel (ff + 1) n ff
        else
          search fuel l (ff - 1) ff
      else
        pure ff

def finiteFieldBySize (q : Nat) : Result Nat :=
  lookupPrimePower t q

-- The power can be too large for an `UInt`.
def fieldSize (w : IntSize) (p : Nat) : Nat → Nat
  | 0 => 1
  | d + 1 => fieldSize w p d * p % 2 ^ w.bits

def finiteField (w : IntSize) (p d : Nat) : Result Nat := do
  let ff ← finiteFieldBySize t (fieldSize w p d)
  if ff ≠ 0 ∧ t.charFF ff ≠ p then pure 0 else pure ff

-- `while ( d % d2 != 0 ) d += d1;`
def commonDegree (d1 d2 : Nat) : Nat → Nat → Result Nat
  | 0, _ => throw .fuel
  | fuel + 1, d => if d % d2 ≠ 0 then commonDegree d1 d2 fuel (d + d1) else pure d

def commonFF (w : IntSize) (f1 d1 f2 d2 : Nat) : Result Nat := do
  if f1 = f2 then
    pure f1
  else
    let p := t.charFF f1
    if p ≠ t.charFF f2 then
      pure 0
    else if t.degrFF f1 % d2 = 0 then
      pure f1
    else if t.degrFF f2 % d1 = 0 then
      pure f2
    else
      let d ← commonDegree d1 d2 d2 d1
      finiteField t w p d

/--
The loop that looks for the minimal field with the element that has the value `val` over a field
with `q` elements. `m` is the size of the field and `d` its degree.
-/
def minimalField (q p val : Nat) : Nat → Nat → Nat → Result (Nat × Nat)
  | 0, _, _ => throw .fuel
  | fuel + 1, m, d =>
    if (q - 1) % (m - 1) ≠ 0 ∨ (val - 1) % ((q - 1) / (m - 1)) ≠ 0 then
      minimalField q p val fuel (m * p) (d + 1)
    else
      pure (m, d)

def degreeFFE (ffe : FFE) : Result Nat := do
  let q := t.sizeFF ffe.fld
  let p := t.charFF ffe.fld
  if ffe.val = 0 then
    pure 1
  else
    let (_, d) ← minimalField q p ffe.val q p 1
    pure d

end Fields

section Comparison

variable (t : FFData)

-- The sizes of the minimal fields are compared first, and then the exponents in these fields.
def compareMinimal (opL opR : FFE) (other : Nat → Nat → Bool) (same : Nat → Nat → Bool)
    : Result Bool := do
  let qL := t.sizeFF opL.fld
  let pL := t.charFF opL.fld
  let (mL, _) ← minimalField qL pL opL.val qL pL 1
  let qR := t.sizeFF opR.fld
  let pR := t.charFF opR.fld
  let (mR, _) ← minimalField qR pR opR.val qR pR 1
  if mL ≠ mR then
    pure (other mL mR)
  else
    pure (same ((opL.val - 1) / ((qL - 1) / (mL - 1))) ((opR.val - 1) / ((qR - 1) / (mR - 1))))

def eqFFE (opL opR : FFE) : Result Bool := do
  let vL := opL.val
  let vR := opR.val
  if opL.fld = opR.fld then
    pure (vL == vR)
  else if t.charFF opL.fld ≠ t.charFF opR.fld then
    pure false
  else if vL = 0 ∨ vR = 0 then
    pure (vL == 0 && vR == 0)
  else
    compareMinimal t opL opR (fun _ _ => false) (fun kL kR => kL == kR)

-- `none` stands for a call of the operation `LtOper`.
def ltFFE (opL opR : FFE) : Result (Option Bool) := do
  let vL := opL.val
  let vR := opR.val
  let pL := t.charFF opL.fld
  let pR := t.charFF opR.fld
  if pL ≠ pR then
    pure none
  else if vL = 0 ∨ vR = 0 then
    pure (some (vL == 0 && vR != 0))
  else if t.sizeFF opL.fld = pL ∧ t.sizeFF opR.fld = pR then
    pure (some (decide (vL < vR)))
  else
    let res ← compareMinimal t opL opR (fun mL mR => decide (mL < mR))
      (fun kL kR => decide (kL < kR))
    pure (some res)

end Comparison

section Operations

variable (t : FFData) (w : IntSize)

/--
The two operands are brought into a common field, which is returned with the values of the operands
in it. There is none if `CommonFF` returns 0.
-/
def bringIntoCommonField (opL opR : FFE) : Result (Option (Nat × Nat × Nat)) := do
  let vL := opL.val
  let vR := opR.val
  let fL := opL.fld
  let qL := t.sizeFF fL
  let fR := opR.fld
  let qR := t.sizeFF fR
  if qL = qR then
    pure (some (fL, vL, vR))
  else if qL % qR = 0 ∧ (qL - 1) % (qR - 1) = 0 then
    pure (some (fL, vL, if vR ≠ 0 then (qL - 1) / (qR - 1) * (vR - 1) + 1 else vR))
  else if qR % qL = 0 ∧ (qR - 1) % (qL - 1) = 0 then
    pure (some (fR, if vL ≠ 0 then (qR - 1) / (qL - 1) * (vL - 1) + 1 else vL, vR))
  else
    let fX ← commonFF t w fL (← degreeFFE t opL) fR (← degreeFFE t opR)
    if fX = 0 then
      pure none
    else
      let qX := t.sizeFF fX
      pure (some (fX,
        if vL ≠ 0 then ((qX - 1) * (vL - 1)) / (qL - 1) + 1 else vL,
        if vR ≠ 0 then ((qX - 1) * (vR - 1)) / (qR - 1) + 1 else vR))

-- An operation on the values in the common field. `none` stands for a call of a library function.
def inCommonField (opL opR : FFE) (op : Nat → Nat → List Nat → Result Nat)
    : Result (Option FFE) := do
  match ← bringIntoCommonField t w opL opR with
  | none => pure none
  | some (fX, vL, vR) =>
    let vX ← op vL vR (t.succFF fX)
    pure (some { fld := fX, val := vX })

def sumFFEFFE (opL opR : FFE) : Result (Option FFE) :=
  inCommonField t w opL opR sumFFV

def diffFFEFFE (opL opR : FFE) : Result (Option FFE) :=
  inCommonField t w opL opR (fun vL vR f => do sumFFV vL (← negFFV vR f) f)

def prodFFEFFE (opL opR : FFE) : Result (Option FFE) :=
  inCommonField t w opL opR prodFFV

def quoFFEFFE (opL opR : FFE) : Result (Option FFE) :=
  inCommonField t w opL opR (fun vL vR f => do
    if vR = 0 then
      throw (.quit "FFE operations: <divisor> must not be zero" 0 0)
    else
      quoFFV vL vR f)

-- The power with an exponent that is not negative, which is reduced modulo the order first.
def powValue (fX vL vR : Nat) (sX : List Nat) : Result FFE :=
  if vL = 0 then
    pure { fld := fX, val := if vR = 0 then 1 else 0 }
  else do
    let order ← succAt sX 0
    let vX ← powFFV vL (vR % order) sX
    pure { fld := fX, val := vX }

def powFFEInt (opL : FFE) (opR : Int) : Result FFE :=
  let fX := opL.fld
  let sX := t.succFF fX
  if opR < 0 then
    if opL.val = 0 then
      throw (.quit "FFE operations: <divisor> must not be zero" 0 0)
    else do
      let vL ← quoFFV 1 opL.val sX
      powValue fX vL opR.natAbs sX
  else
    powValue fX opL.val opR.natAbs sX

-- The loop that solves `a * (vR - 1) = c % (qX - 1)`.
def logLoop (a b : Int) (c d : Nat) : Int × Nat :=
  if d = 0 then
    (a, c)
  else
    logLoop b (a - (c / d : Nat) * b) d (c - c / d * d)
termination_by d
decreasing_by
  rw [Nat.mul_comm, ← Nat.mod_eq_sub]
  exact Nat.mod_lt c (Nat.pos_of_ne_zero ‹_›)

-- `while (a < 0) a += step;`
def makeNonnegative (step : Nat) : Nat → Int → Result Int
  | 0, _ => throw .fuel
  | fuel + 1, a => if a < 0 then makeNonnegative step fuel (a + step) else pure a

inductive LogResult where
  | fail
  | log (l : Int)
  -- `LOG_FFE_LARGE`
  | large
  deriving DecidableEq, Repr

def logFFEDefault (opZ opR : FFE) : Result LogResult := do
  if opZ.val = 0 then
    throw (.quit "LogFFE: <z> must be a nonzero finite field element" 0 0)
  else if opR.val = 0 then
    throw (.quit "LogFFE: <r> must be a nonzero finite field element" 0 0)
  else
    match ← bringIntoCommonField t w opZ opR with
    | none => pure .large
    | some (fX, vZ, vR) =>
      let qX := t.sizeFF fX
      let (a, c) := logLoop 1 0 (vR - 1) (qX - 1)
      if (vZ - 1) % c ≠ 0 then
        pure .fail
      else
        let a ← makeNonnegative ((qX - 1) / c) (a.natAbs + 1) a
        pure (.log (((vZ - 1) / c : Nat) * a % (qX - 1 : Nat)))

end Operations

end Finfield

/-!
This section contains the construction of the successor table of a small finite field, and the
operations on values with the types that they have in C. A number that does not fit into its type is
reduced there, here it is a fault.
-/

inductive FFVSize where
  | ffv2
  | ffv4
  deriving DecidableEq, Repr

def FFVSize.bits (v : FFVSize) : Nat :=
  match v with
  | ffv2 => 16
  | ffv4 => 32

namespace FinfieldTable

open Finfield (succAt)

def fits (bits x : Nat) : Result Nat :=
  if x < 2 ^ bits then pure x else throw .undefined

def minus (x y : Nat) : Result Nat :=
  if y ≤ x then pure (x - y) else throw .undefined

def quo (x y : Nat) : Result Nat :=
  if y = 0 then throw .undefined else pure (x / y)

def rem (x y : Nat) : Result Nat :=
  if y = 0 then throw .undefined else pure (x % y)

section Values

variable (w : IntSize) (v : FFVSize)

def prodFFV (a b : Nat) (f : List Nat) : Result Nat := do
  if a = 0 ∨ b = 0 then
    return 0
  else
    let q1 ← succAt f 0
    let a1 ← minus a 1
    let b1 ← minus q1 b
    if a1 ≤ b1 then fits v.bits (a1 + b) else minus a1 b1

def sumFFV (a b : Nat) (f : List Nat) : Result Nat := do
  if a = 0 then
    return b
  else if b = 0 then
    return a
  else
    let (a, b) := if b > a then (b, a) else (a, b)
    let i ← fits v.bits ((← minus a b) + 1)
    prodFFV v b (← succAt f i) f

def negFFV (a : Nat) (f : List Nat) : Result Nat := do
  let q1 ← succAt f 0
  if a = 0 then
    return 0
  else if q1 % 2 ≠ 0 then
    return a
  else if a ≤ q1 / 2 then
    fits v.bits (a + q1 / 2)
  else
    minus a (q1 / 2)

def quoFFV (a b : Nat) (f : List Nat) : Result Nat := do
  if a = 0 then
    return 0
  else if b ≤ a then
    fits v.bits ((← minus a b) + 1)
  else
    let c ← fits v.bits (a + (← minus (← succAt f 0) b))
    fits v.bits (c + 1)

-- The product is an `UInt`.
def powFFV (a n : Nat) (f : List Nat) : Result Nat := do
  if n = 0 then
    return 1
  else if a = 0 then
    return 0
  else
    let a1 ← minus a 1
    let c ← rem (← fits w.bits (a1 * n)) (← succAt f 0)
    fits v.bits (c + 1)

end Values

structure FieldTables extends FFData where
  polsFF : List Nat
  typeFF0 : Nat → Bool

section Root

variable (w : IntSize) (p : Nat)

-- `for (f = e, i = 1; f != 1; ++i) f = (f * e) % p;`
def orderLoop (e : Nat) : Nat → Nat → Nat → Result Nat
  | 0, _, _ => throw .fuel
  | fuel + 1, f, i => do
    if f ≠ 1 then
      orderLoop e fuel (← rem (← fits w.bits (f * e)) p) (i + 1)
    else
      return i

-- `for (e = 1, i = 1; i != p - 1; ++e)`
def rootLoop : Nat → Nat → Nat → Result Nat
  | 0, _, _ => throw .fuel
  | fuel + 1, e, i => do
    if i ≠ p - 1 then
      rootLoop fuel (e + 1) (← orderLoop w p e p e 1)
    else
      return e

/-- One more than the root that is used, `primitiveRootMod` is the function of the library. -/
def findRoot (primitiveRootMod : Nat → Nat) : Result Nat :=
  if p < 65537 then rootLoop w p (p + 1) 1 1 else fits w.bits (primitiveRootMod p + 1)

def groundPoly (primitiveRootMod : Nat → Nat) : Result Nat := do
  let e ← findRoot w p primitiveRootMod
  minus p (← minus e 1)

end Root

-- `for (i = 0; PolsFF[i] != q; i += 2);`
def findPoly (q : Nat) : List Nat → Result Nat
  | q' :: poly :: pols => if q' ≠ q then findPoly q pols else return poly
  | _ => throw .access

section Table

variable (w : IntSize) (v : FFVSize) (q p poly : Nat)

-- `for (i = 1; i < q; i *= p) e = e + i * ((f / i + l * (poly / i)) % p);`
def digitLoop (f l : Nat) : Nat → Nat → Nat → Result Nat
  | 0, _, _ => throw .fuel
  | fuel + 1, i, e => do
    if i < q then
      let s ← fits w.bits (l * (← quo poly i))
      let c ← rem (← fits w.bits ((← quo f i) + s)) p
      let e ← fits w.bits (e + (← fits w.bits (i * c)))
      digitLoop f l fuel (← fits w.bits (i * p)) e
    else
      return e

def timesX (e : Nat) : Result Nat := do
  if p ≠ 2 then
    let f ← fits w.bits (p * (← rem e (← quo q p)))
    let l ← rem (← fits w.bits ((← minus p 1) * (← quo e (← quo q p)))) p
    digitLoop w q p poly f l (q + 1) 1 0
  else
    let t ← fits w.bits (2 * e)
    if t &&& q ≠ 0 then return t ^^^ poly ^^^ q else return t

def setFFV (l : List Nat) (i x : Nat) : Result (List Nat) := do
  if i < l.length then
    return l.set i (← fits v.bits x)
  else
    throw .access

-- The state is the index table and the polynomial `e`.
def indexRound (n : Nat) (s : List Nat × Nat) : Result (List Nat × Nat) := do
  let indx ← setFFV v s.1 s.2 (n + 1)
  return (indx, ← timesX w q p poly s.2)

def indexTable : Result (List Nat) := do
  let indx ← setFFV v (List.replicate q 0) 0 0
  let s ← forLoop (indexRound w v q p poly) (q - 1) 0 (indx, 1)
  return s.1

-- The state is the successor table and `f`.
def succRound (indx : List Nat) (e : Nat) (s : List Nat × Nat) : Result (List Nat × Nat) := do
  if e < s.2 then
    return (← setFFV v s.1 (← succAt indx e) (← succAt indx (e + 1)), s.2)
  else
    let succ ← setFFV v s.1 (← succAt indx e) (← succAt indx (← minus (e + 1) p))
    return (succ, ← fits w.bits (s.2 + p))

def succTable (indx : List Nat) : Result (List Nat) := do
  let succ ← setFFV v (List.replicate q 0) 0 (q - 1)
  let s ← forLoop (succRound w v p indx) (q - 1) 1 (succ, ← minus p 1)
  return s.1

end Table

def fieldPoly (w : IntSize) (primitiveRootMod : Nat → Nat) (t : FieldTables) (q ff : Nat)
    : Result Nat :=
  if t.degrFF ff = 1 then groundPoly w (t.charFF ff) primitiveRootMod else findPoly q t.polsFF

def finiteFieldBySize (w : IntSize) (v : FFVSize) (primitiveRootMod : Nat → Nat) (t : FieldTables)
    (q : Nat) : Result (FieldTables × Nat) := do
  let ff ← Finfield.lookupPrimePower t.toFFData q
  if ff = 0 then
    return (t, 0)
  else if t.typeFF0 ff then
    return (t, ff)
  else
    let p := t.charFF ff
    let poly ← fieldPoly w primitiveRootMod t q ff
    let indx ← indexTable w v q p poly
    let succ ← succTable w v q p indx
    return ({ t with
      succFF := Function.update t.succFF ff succ
      typeFF0 := Function.update t.typeFF0 ff true }, ff)

end FinfieldTable
