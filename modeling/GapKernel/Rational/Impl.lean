import GapKernel.Fault
import Mathlib.Algebra.Order.Field.Rat
import Mathlib.Data.Rat.Lemmas

/-!
This module contains the arithmetic of the rationals. The integer operations are exact, they are
`GcdInt`, `QuoInt`, which truncates, and the operations of `Int`.
-/

-- `T_INT`, `T_INTPOS` and `T_INTNEG` are `int`, `T_RAT` is `rat`.
inductive RatObj where
  | int (i : Int)
  | rat (num den : Int)
  deriving DecidableEq, Repr

namespace RatObj

def num : RatObj → Int
  | int i => i
  | rat num _ => num

def den : RatObj → Int
  | int _ => 1
  | rat _ den => den

def value (x : RatObj) : ℚ :=
  x.num / x.den

def IsCanonical : RatObj → Prop
  | int _ => True
  | rat num den => 1 < den ∧ Int.gcd num den = 1

instance : DecidablePred IsCanonical := fun x =>
  match x with
  | int _ => inferInstanceAs (Decidable True)
  | rat _ _ => inferInstanceAs (Decidable (_ ∧ _))

end RatObj

structure CanonicalRat where
  obj : RatObj
  canonical : obj.IsCanonical

namespace CanonicalRat

def value (x : CanonicalRat) : ℚ :=
  x.obj.value

end CanonicalRat

namespace Rational

open RatObj

def gcdInt (a b : Int) : Int :=
  Int.gcd a b

-- Make the fraction or, if possible, the integer.
def makeRat (num den : Int) : RatObj :=
  if den ≠ 1 then rat num den else int num

-- Integers are compared with `EqInt`, and objects of different types are not equal.
def eqRat : RatObj → RatObj → Bool
  | int i, int k => i == k
  | rat numL denL, rat numR denR => if numL ≠ numR then false else denL == denR
  | _, _ => false

def ltRat (opL opR : RatObj) : Bool :=
  opL.num * opR.den < opR.num * opL.den

-- `sumInt` is `SumInt` or `DiffInt`.
def sumOrDiffRat (sumInt : Int → Int → Int) (opL opR : RatObj) : RatObj :=
  let gcd1 := gcdInt opL.den opR.den
  if gcd1 = 1 then
    makeRat (sumInt (opL.num * opR.den) (opR.num * opL.den)) (opL.den * opR.den)
  else
    let num := sumInt (opL.num * opR.den.tdiv gcd1) (opR.num * opL.den.tdiv gcd1)
    let gcd2 := gcdInt num gcd1
    makeRat (num.tdiv gcd2) (opL.den.tdiv gcd1 * opR.den.tdiv gcd2)

def sumRat : RatObj → RatObj → RatObj :=
  sumOrDiffRat (fun x y => x + y)

def diffRat : RatObj → RatObj → RatObj :=
  sumOrDiffRat (fun x y => x - y)

-- `AInvInt` for integers
def aInvRat : RatObj → RatObj
  | int i => int (-i)
  | rat num den => rat (-num) den

-- `AbsInt` for integers. `|num|` is the same object as `num` if it is not negative.
def absRat : RatObj → RatObj
  | int i => int |i|
  | rat num den => if |num| = num then rat num den else rat |num| den

-- The fraction `numL / denL` times `numR / denR`.
def prodFractions (numL denL numR denR : Int) : RatObj :=
  let gcd1 := gcdInt numL denR
  let gcd2 := gcdInt numR denL
  if gcd1 = 1 ∧ gcd2 = 1 then
    makeRat (numL * numR) (denL * denR)
  else
    makeRat (numL.tdiv gcd1 * numR.tdiv gcd2) (denL.tdiv gcd2 * denR.tdiv gcd1)

def prodRat (opL opR : RatObj) : RatObj :=
  prodFractions opL.num opL.den opR.num opR.den

-- The denominator of the right operand gets its sign.
def quoRat (opL opR : RatObj) : Result RatObj :=
  if opR.num = 0 then
    throw (.quit "Rational operations: <divisor> must not be zero" 0 0)
  else if opR.num < 0 then
    pure (prodFractions opL.num opL.den (-opR.den) (-opR.num))
  else
    pure (prodFractions opL.num opL.den opR.den opR.num)

-- `none` is `Fail`.
def invRat (op : RatObj) : Result (Option RatObj) :=
  if op = int 0 then
    pure none
  else do
    return some (← quoRat (int 1) op)

-- The extended Euclidean algorithm, `aL` and `bL` are the cofactors of `a` and `b`.
def inverseLoop (a b aL bL : Int) : Int × Int :=
  if b = 0 then
    (a, aL)
  else
    let hdQ := a.tdiv b
    inverseLoop b (a - hdQ * b) bL (aL - hdQ * bL)
termination_by b.natAbs
decreasing_by
  rw [Int.mul_comm, ← Int.tmod_def, Int.natAbs_tmod]
  exact Nat.mod_lt _ (Int.natAbs_pos.mpr ‹_›)

def inverseModInt (base mod : Int) : Option Int :=
  if mod = 1 ∨ mod = -1 then
    some 0
  else if base = 0 ∨ mod = 0 then
    none
  else
    let (a, aL) := inverseLoop mod.natAbs (base % mod) 0 1
    if a ≠ 1 then none else some (aL % mod)

def modRat (opL : RatObj) (n : Int) : Result Int :=
  match inverseModInt opL.den n with
  | none => throw (.quit
      "ModRat: for <r>/<s> mod <n>, <s>/gcd(<r>,<s>) and <n> must be coprime" 0 0)
  | some d => pure (opL.num * d % n)

-- `num` and `den` are the two parts of the left operand.
def powRat (num den : Int) (opR : Int) : RatObj :=
  if opR = 0 then
    int 1
  else if opR = 1 then
    rat num den
  else if 0 < opR then
    rat (num ^ opR.toNat) (den ^ opR.toNat)
  else if num = 1 then
    int (den ^ (-opR).toNat)
  else if num = -1 then
    int (num ^ (-opR).toNat * den ^ (-opR).toNat)
  else
    let numP := den ^ (-opR).toNat
    let denP := num ^ (-opR).toNat
    if denP < 0 then rat (-numP) (-denP) else rat numP denP

end Rational
