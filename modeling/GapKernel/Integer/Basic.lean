import GapKernel.Fault
import GapKernel.IntObj
import GapKernel.BitNumber

/-!
This module contains the integer objects: immediate integers, which are stored in the word that
refers to an object, and bags of limbs for positive and negative large integers.
-/

inductive IntegerObj where
  -- The word is `4 * i + 1` for the immediate integer `i`.
  | intobj (o : Int)
  | intpos (limbs : List Nat)
  | intneg (limbs : List Nat)
  deriving DecidableEq, Repr

namespace IntSize

def limbBase (w : IntSize) : Nat :=
  2 ^ w.bits

def ofLimbs (w : IntSize) (limbs : List Nat) : Nat :=
  Nat.ofDigits w.limbBase limbs

def minusIntobjMin (w : IntSize) : Nat :=
  2 ^ w.nrSmallIntBits

end IntSize

structure Mpz where
  size : Int
  limbs : List Nat
  deriving DecidableEq, Repr

namespace Mpz

def val (w : IntSize) (v : Mpz) : Int :=
  v.size.sign * w.ofLimbs v.limbs

def ofInt (w : IntSize) (alloc : Nat) (x : Int) : Mpz where
  size := x.sign * (w.limbBase.digits x.natAbs).length
  limbs := Nat.digitsAppend w.limbBase alloc x.natAbs

structure IsMpz (w : IntSize) (v : Mpz) : Prop where
  areLimbs : Limbs.AreLimbs w.limbBase v.limbs
  isNormal : v.size ≠ 0 → Limbs.IsNormal w.limbBase v.limbs ∧ v.limbs.length = v.size.natAbs
  zero : v.size = 0 → v.limbs.length = 1

end Mpz

/--
The functions of the library for large numbers that the kernel calls, with what they do. The result
of an `mpz` function is stored in `alloc` new limbs, which are enough for it.
-/
structure Gmp (w : IntSize) where
  mpzAdd : Nat → Mpz → Mpz → Mpz
  mpzSub : Nat → Mpz → Mpz → Mpz
  mpzMul : Nat → Mpz → Mpz → Mpz
  mpzGcd : Nat → Mpz → Mpz → Mpz
  mpzLcm : Nat → Mpz → Mpz → Mpz
  mpzGcdUi : Mpz → Nat → Nat
  mpnCmp : List Nat → List Nat → Int
  mpnMod1 : List Nat → Nat → Nat
  mpnDivrem1 : List Nat → Nat → List Nat
  mpnTdivQr : List Nat → List Nat → List Nat × List Nat
  mpzAdd_eq : ∀ alloc a b, a.IsMpz w → b.IsMpz w
    → max a.limbs.length b.limbs.length + 1 ≤ alloc
    → mpzAdd alloc a b = Mpz.ofInt w alloc (a.val w + b.val w)
  mpzSub_eq : ∀ alloc a b, a.IsMpz w → b.IsMpz w
    → max a.limbs.length b.limbs.length + 1 ≤ alloc
    → mpzSub alloc a b = Mpz.ofInt w alloc (a.val w - b.val w)
  mpzMul_eq : ∀ alloc a b, a.IsMpz w → b.IsMpz w → a.limbs.length + b.limbs.length ≤ alloc
    → mpzMul alloc a b = Mpz.ofInt w alloc (a.val w * b.val w)
  mpzGcd_eq : ∀ alloc a b, a.IsMpz w → b.IsMpz w → a.size ≠ 0 → b.size ≠ 0
    → min a.limbs.length b.limbs.length ≤ alloc
    → mpzGcd alloc a b = Mpz.ofInt w alloc (Int.gcd (a.val w) (b.val w))
  mpzLcm_eq : ∀ alloc a b, a.IsMpz w → b.IsMpz w → a.limbs.length + b.limbs.length ≤ alloc
    → mpzLcm alloc a b = Mpz.ofInt w alloc (Int.lcm (a.val w) (b.val w))
  mpzGcdUi_eq : ∀ a d, a.IsMpz w → 0 < d → d < w.limbBase
    → mpzGcdUi a d = Nat.gcd (a.val w).natAbs d
  mpnCmp_lt : ∀ a b, Limbs.AreLimbs w.limbBase a → Limbs.AreLimbs w.limbBase b
    → a.length = b.length
    → (mpnCmp a b < 0 ↔ w.ofLimbs a < w.ofLimbs b)
  mpnCmp_eq : ∀ a b, Limbs.AreLimbs w.limbBase a → Limbs.AreLimbs w.limbBase b
    → a.length = b.length
    → (mpnCmp a b = 0 ↔ w.ofLimbs a = w.ofLimbs b)
  mpnMod1_eq : ∀ a d, Limbs.AreLimbs w.limbBase a → 0 < d → d < w.limbBase
    → mpnMod1 a d = w.ofLimbs a % d
  -- As many limbs as `a` has.
  mpnDivrem1_eq : ∀ a d, Limbs.AreLimbs w.limbBase a → 0 < d → d < w.limbBase
    → mpnDivrem1 a d
        = Nat.digitsAppend w.limbBase a.length (w.ofLimbs a / d)
  -- `a` has at least as many limbs as `b`, and the most significant limb of `b` is not zero.
  mpnTdivQr_eq : ∀ a b, Limbs.AreLimbs w.limbBase a → Limbs.IsNormal w.limbBase b
    → 0 < b.length → b.length ≤ a.length
    → mpnTdivQr a b
        = (Nat.digitsAppend w.limbBase (a.length - b.length + 1)
            (w.ofLimbs a / w.ofLimbs b),
          Nat.digitsAppend w.limbBase b.length
            (w.ofLimbs a % w.ofLimbs b))

structure Platform (w : IntSize) extends Gmp w where
  haveBuiltinMulOverflow : Bool
