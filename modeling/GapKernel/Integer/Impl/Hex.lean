import GapKernel.Integer.Impl.Arith
import GapKernel.Bytes

/-!
This module contains the conversion between integer objects and strings of hexadecimal digits. A
string is the list of its bytes, it is followed by a null byte.
-/

namespace Integer

def hexFault : Fault :=
  .quit "IntHexString: invalid character in hex-string" 0 0

-- How `hexstr2int` decodes one byte.
def hexDecode (a : UInt8) : UInt8 :=
  if a ≥ 'a'.toUInt8 then
    a - ('a'.toUInt8 - 10)
  else if a ≥ 'A'.toUInt8 then
    a - ('A'.toUInt8 - 10)
  else
    a - '0'.toUInt8

def hexstr2int (w : IntSize) (p : List UInt8) (len : Nat) (n : Nat) : Result Nat :=
  match len with
  | 0 => return n
  | len + 1 =>
    match p with
    | [] => throw .access
    | a :: p =>
      let a := hexDecode a
      if a > 15 then
        throw hexFault
      else
        hexstr2int w p len ((n * 2 ^ 4 + a.toNat) % w.limbBase)

-- `2 * sizeof(UInt)`
def hexPerLimb (w : IntSize) : Nat :=
  2 * (w.bits / 8)

-- `while (p[i] == '0' && i < len)`
def skipZeros (chars : List UInt8) (len i : Nat) : Nat :=
  if chars.getD i 0 = '0'.toUInt8 ∧ i < len then skipZeros chars len (i + 1) else i
termination_by len - i

def readLimbs (w : IntSize) (p : List UInt8) (len : Int) (limbs : List Nat) (nd : Int)
    : Nat → Result (List Nat)
  | 0 => throw .fuel
  | fuel + 1 =>
    if len = 0 then
      return limbs
    else do
      let n ← hexstr2int w p (hexPerLimb w) 0
      let limbs ← writeLimb limbs nd n
      readLimbs w (p.drop (hexPerLimb w)) (len - hexPerLimb w) limbs (nd - 1) fuel
where
  writeLimb (limbs : List Nat) (nd : Int) (n : Nat) : Result (List Nat) :=
    if 0 ≤ nd ∧ nd < limbs.length then return limbs.set nd.toNat n else throw .access

def intHexString (w : IntSize) (str : List UInt8) : Result IntegerObj :=
  let len := str.length
  if len = 0 then
    return INTOBJ_INT w 0
  else
    let p := str ++ [0]
    let sign : Int := if p.getD 0 0 = '-'.toUInt8 then -1 else 1
    let i := skipZeros p len (if p.getD 0 0 = '-'.toUInt8 then 1 else 0)
    let len := len - i
    if len * 4 ≤ w.nrSmallIntBits then do
      let n ← hexstr2int w (p.drop i) len 0
      return INTOBJ_INT w (w.wrap (sign * n))
    else do
      let nd := (len - 1) / hexPerLimb w
      let limbs := List.replicate (nd + 1) 0
      let diff := len - nd * hexPerLimb w
      let limbs ← large w (p.drop i) len limbs nd diff
      return gmpNormalize w (if sign = 1 then .intpos limbs else .intneg limbs)
where
  -- The leading limb has only `diff` digits.
  large (w : IntSize) (p : List UInt8) (len : Nat) (limbs : List Nat) (nd diff : Nat)
      : Result (List Nat) :=
    if diff ≠ 0 then do
      let n ← hexstr2int w p diff 0
      let limbs ← readLimbs.writeLimb limbs nd n
      readLimbs w (p.drop diff) (len - diff) limbs (nd - 1) (nd + 2)
    else
      readLimbs w p len limbs nd (nd + 2)

def upperDigit (d : Nat) : UInt8 :=
  if d < 10 then '0'.toUInt8 + d.toUInt8 else 'A'.toUInt8 + (d - 10).toUInt8

-- The digits of a number from the most significant one on, with the sign in front.
def signedDigits (base : Nat) (x : Int) : List UInt8 :=
  (if x < 0 then ['-'.toUInt8] else []) ++ ((base.digits x.natAbs).reverse.map upperDigit)

end Integer

/--
The functions of the library for large numbers that convert to strings. `mpz_get_str` with a
negative base writes upper case letters and a null byte at the end. `mpz_sizeinbase` is exact for a
power of two.
-/
structure GmpRadix (w : IntSize) where
  mpzSizeinbase : Mpz → Nat → Nat
  mpzGetStr : Int → Mpz → List UInt8
  mpzSizeinbase_eq : ∀ v, v.IsMpz w → v.size ≠ 0
    → mpzSizeinbase v 16 = (Nat.digits 16 (v.val w).natAbs).length
  mpzGetStr_eq : ∀ v (base : Nat), v.IsMpz w → v.size ≠ 0 → 2 ≤ base → base ≤ 36
    → mpzGetStr (-base) v = Integer.signedDigits base (v.val w)

namespace Integer

-- The memory of a new string: the bytes and a null byte.
def newString (w : IntSize) (len : Int) : Result (List UInt8) :=
  if len < 0 then
    throw .undefined
  else if len > w.intIntobjMax then
    throw (.quit "NEW_STRING: length must be a small integer" 0 0)
  else
    return List.replicate (len.toNat + 1) 0

-- The library writes a string and a null byte.
def writeCStr (mem chars : List UInt8) : Result (List UInt8) :=
  if chars.length + 1 ≤ mem.length then
    return chars ++ 0 :: mem.drop (chars.length + 1)
  else
    throw .access

def strlen (mem : List UInt8) : Nat :=
  (mem.takeWhile (· ≠ 0)).length

def stringIntBase {w : IntSize} (G : GmpRadix w) (op : IntegerObj) (base : Nat)
    : Result (List UInt8) :=
  if op = INTOBJ_INT w 0 then
    return ['0'.toUInt8]
  else do
    let v := fakeMpzOfObj op
    let len := toInt32 (G.mpzSizeinbase v base + 2)
    let res ← newString w len
    let res ← writeCStr res (G.mpzGetStr (-base) v)
    let realLen := toInt32 (strlen res)
    return res.take realLen.toNat

def hexStringInt {w : IntSize} (G : GmpRadix w) (n : IntegerObj) : Result (List UInt8) :=
  stringIntBase G n 16

end Integer
