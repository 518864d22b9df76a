import GapKernel.VecGF2.Impl

/-!
This module contains the copying of bits between blocks. The blocks of the source and of the
destination do not overlap.
-/

namespace CopyBits

variable {w : Nat}

def maskForCopyBits (w fromBit toBit : Nat) : Result (BitVec w) := do
  let high ← if toBit = w - 1 then pure 0#w else shlWord 1#w (toBit + 1)
  let low ← shlWord 1#w fromBit
  return high - low

def copyInWord (toBlock : BitVec w) (startbit endbit : Nat) (fromBlock : BitVec w) (shift : Int)
    : Result (BitVec w) := do
  let m ← maskForCopyBits w (startbit + shift).toNat (endbit + shift).toNat
  let x ← if 0 ≤ shift then shlWord fromBlock shift.toNat else shrWord fromBlock (-shift).toNat
  return (toBlock &&& ~~~m) ||| (x &&& m)

/-- `CopyInWord` with the numbers of the blocks. -/
def copyBlock (src dst : List (BitVec w)) (toblock startbit endbit fromblock : Nat) (shift : Int)
    : Result (List (BitVec w)) := do
  let fromBlock ← readAt src fromblock
  let toBlock ← readAt dst toblock
  let block ← copyInWord toBlock startbit endbit fromBlock shift
  writeAt dst toblock block

def copyAligned (src : List (BitVec w)) (fromblock frombit : Nat) (dst : List (BitVec w))
    (toblock nbits : Nat) : Result (List (BitVec w)) := do
  if frombit + nbits < w then
    copyBlock src dst toblock frombit (frombit + nbits - 1) fromblock 0
  else
    -- The first block can be a partial one.
    let part := if frombit ≠ 0 then 1 else 0
    let dst ← if frombit ≠ 0 then copyBlock src dst toblock frombit (w - 1) fromblock 0 else pure dst
    let nbits := if frombit ≠ 0 then nbits - (w - frombit) else nbits
    let wholeblocks := nbits / w
    let dst ← forLoop (fun i dst => do
      let block ← readAt src (fromblock + part + i)
      writeAt dst (toblock + part + i) block) wholeblocks 0 dst
    if nbits % w ≠ 0 then
      copyBlock src dst (toblock + part + wholeblocks) 0 (nbits % w - 1)
        (fromblock + part + wholeblocks) 0
    else
      return dst

def copyFirst (src : List (BitVec w)) (fromblock frombit : Nat) (dst : List (BitVec w))
    (toblock tobit tailbits : Nat) : Result (List (BitVec w) × Nat × Nat) := do
  let shift : Int := (tobit : Int) - frombit
  if frombit + tailbits ≤ w then
    let dst ← copyBlock src dst toblock frombit (frombit + tailbits - 1) fromblock shift
    return (dst, fromblock, frombit + tailbits)
  else
    let dst ← copyBlock src dst toblock frombit (w - 1) fromblock shift
    let dst ← copyBlock src dst toblock 0 (tailbits + frombit - 1 - w) (fromblock + 1)
      ((tobit : Int) + w - frombit)
    return (dst, fromblock + 1, frombit + tailbits - w)

def copyRest (src : List (BitVec w)) (fromblock frombit : Nat) (dst : List (BitVec w))
    (toblock nbits : Nat) : Result (List (BitVec w)) := do
  -- The mask is not computed here, its value is not used without a whole block.
  let m1 : Result (BitVec w) := maskForCopyBits w frombit (w - 1)
  let dst ← forLoop (fun i dst => do
    let m ← m1
    let x ← readAt src (fromblock + i)
    let low ← shrWord (x &&& m) frombit
    let y ← readAt src (fromblock + i + 1)
    let high ← shlWord (y &&& ~~~m) (w - frombit)
    writeAt dst (toblock + i) (low ||| high)) (nbits / w) 0 dst
  let fromblock := fromblock + nbits / w
  let toblock := toblock + nbits / w
  let nbits := nbits % w
  if nbits ≠ 0 then
    if frombit + nbits ≤ w then
      copyBlock src dst toblock frombit (frombit + nbits - 1) fromblock (-(frombit : Int))
    else
      let dst ← copyBlock src dst toblock frombit (w - 1) fromblock (-(frombit : Int))
      copyBlock src dst toblock 0 (nbits - (w - frombit) - 1) (fromblock + 1) ((w : Int) - frombit)
  else
    return dst

def copyBits (src : List (BitVec w)) (fromblock frombit : Nat) (dst : List (BitVec w))
    (toblock tobit nbits : Nat) : Result (List (BitVec w)) := do
  if nbits = 0 then
    return dst
  else if frombit = tobit then
    copyAligned src fromblock frombit dst toblock nbits
  else if tobit ≠ 0 then
    let tailbits := if tobit + nbits ≤ w then nbits else w - tobit
    let (dst, fromblock, frombit) ← copyFirst src fromblock frombit dst toblock tobit tailbits
    copyRest src fromblock frombit dst (toblock + 1) (nbits - tailbits)
  else
    copyRest src fromblock frombit dst toblock nbits

end CopyBits
