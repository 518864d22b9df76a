import GapKernel.ForLoop
import GapKernel.IntObj
import GapKernel.Plist
import Mathlib.Data.Rat.Defs

/-!
This module contains the conversion of a cyclotomic into the base of its field. The list has the
coefficients of the powers of the root, from the power 0 on.
-/

namespace CycImpl

def subUInt (w : IntSize) (a b : Nat) : Nat :=
  (a + (2 ^ w.bits - b % 2 ^ w.bits)) % 2 ^ w.bits

-- `DIFF_INTOBJS`, or `DIFF` where one of the numbers is not immediate
def diffCoef (res : List ℚ) (l k : Nat) : Result (List ℚ) := do
  let sum := (← readAt res l) - (← readAt res k)
  writeAt res l sum

-- `q = p; while (nn % (p * q) == 0) q = p * q;`
def maximalPower (w : IntSize) (nn p : Nat) : Nat → Nat → Result Nat
  | 0, _ => throw .fuel
  | fuel + 1, q => do
    let pq := p * q % 2 ^ w.bits
    if pq = 0 then
      throw .undefined
    else if nn % pq = 0 then
      maximalPower w nn p fuel pq
    else
      return q

def eliminateTwo (n k : Nat) (res : List ℚ) : Result (List ℚ) := do
  if (← readAt res k) ≠ 0 then
    let res ← diffCoef res ((k + n / 2) % n) k
    writeAt res k 0
  else
    return res

def eliminateOdd (n p k : Nat) (res : List ℚ) : Result (List ℚ) := do
  if (← readAt res k) ≠ 0 then
    let res ← stepLoop (fun l res => diffCoef res (l % n) k) (n / p) (k + n) (n + 1) (k + n / p) res
    writeAt res k 0
  else
    return res

-- `for (; k < stop; k += d)`, with the last `k`
def strideLoop (body : Nat → List ℚ → Result (List ℚ)) (d stop : Nat)
    : Nat → Nat → List ℚ → Result (Nat × List ℚ)
  | 0, _, _ => throw .fuel
  | fuel + 1, k, res => do
    if k < stop then
      let res ← body k res
      strideLoop body d stop fuel (k + d) res
    else
      return (k, res)

def removeTwo (n q i : Nat) (res : List ℚ) : Result (List ℚ) := do
  let t := i + n / q * (q - 1) + n / q
  let k := i + n / q * (q / 2)
  let (k, res) ← strideLoop (eliminateTwo n) (n / q) n (n + 1) k res
  let t := t - n
  let k := k - n
  let (_, res) ← strideLoop (eliminateTwo n) (n / q) t (n + 1) k res
  return res

def removeOdd (w : IntSize) (n p q i : Nat) (res : List ℚ) : Result (List ℚ) := do
  let half := (n / p - n / q) / 2
  let (t, k) :=
    if n ≤ i + half then
      (i + half, subUInt w i half)
    else
      (i + half + n, (subUInt w i half + n) % 2 ^ w.bits)
  let (k, res) ← strideLoop (eliminateOdd n p) (n / q) n (n + 1) k res
  let t := t - n
  let k := k - n
  let (_, res) ← strideLoop (eliminateOdd n p) (n / q) (t + 1) (n + 1) k res
  return res

-- `for (p = 3; p <= nn; p += 2)`
def oddPrimesLoop (w : IntSize) (n : Nat) : Nat → Nat → Nat → List ℚ → Result (List ℚ)
  | 0, _, _, _ => throw .fuel
  | fuel + 1, p, nn, res => do
    if p ≤ nn then
      if nn % p ≠ 0 then
        oddPrimesLoop w n fuel (p + 2) nn res
      else
        let q ← maximalPower w nn p (nn + 1) p
        let res ← stepLoop (removeOdd w n p q) q n (n + 1) 0 res
        oddPrimesLoop w n fuel (p + 2) (nn / q) res
    else
      return res

def convertToBase (w : IntSize) (n : Nat) (res : List ℚ) : Result (List ℚ) := do
  if n % 2 = 0 then
    let q ← maximalPower w n 2 (n + 1) 2
    let res ← stepLoop (removeTwo n q) q n (n + 1) 0 res
    oddPrimesLoop w n (n + 1) 3 (n / q) res
  else
    oddPrimesLoop w n (n + 1) 3 n res

end CycImpl
