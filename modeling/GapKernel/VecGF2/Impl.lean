import GapKernel.BitBlocks
import GapKernel.ForLoop
import GapKernel.Integer.Impl.Arith
import GapKernel.Plist

/-!
This module contains the vectors and matrices over the field with two elements, with their products,
comparisons and numbers. A block has `w` bits, positions start at 1.
-/

/-- `blocks` is the whole bag after the length. -/
structure GF2Vec (w : Nat) where
  len : Nat
  blocks : List (BitVec w)
  deriving DecidableEq, Repr

structure GF2Mat (w : Nat) where
  rows : List (GF2Vec w)
  deriving DecidableEq, Repr

/-- `1 << n` for `int`, which has 32 bits. -/
def oneShl (n : Nat) : Result Nat :=
  if n < 31 then
    return 2 ^ n
  else
    throw .undefined

section

variable {w : Nat}

def subWord (w a b : Nat) : Nat :=
  (a + (2 ^ w - b)) % 2 ^ w

def shlWord (word : BitVec w) (n : Nat) : Result (BitVec w) :=
  if n < w then
    return word <<< n
  else
    throw .undefined

def shrWord (word : BitVec w) (n : Nat) : Result (BitVec w) :=
  if n < w then
    return word >>> n
  else
    throw .undefined

end

namespace GF2Vec

variable {w : Nat}

def numberBlocks (vec : GF2Vec w) : Nat :=
  (vec.len + w - 1) / w

def new (len : Nat) : GF2Vec w :=
  { len := len, blocks := List.replicate ((len + w - 1) / w) 0#w }

/-- The second pointer is only read, it is given by the function that reads from it. -/
def addGF2VecToGF2Vec (ptS : List (BitVec w)) (ptV : Nat → Result (BitVec w)) (len : Nat)
    : Result (List (BitVec w)) :=
  forLoop (fun i ptS => do
    let x ← readAt ptS i
    let y ← ptV i
    writeAt ptS i (x ^^^ y)) ((len + w - 1) / w) 0 ptS

end GF2Vec

namespace GF2Mat

variable {w : Nat}

def len (mat : GF2Mat w) : Nat :=
  mat.rows.length

def elm (mat : GF2Mat w) (pos : Nat) : Result (GF2Vec w) :=
  readAt mat.rows (pos - 1)

end GF2Mat

section Product

/-!
This section contains the products of matrices over the field with two elements. Bags have the size
that they need, the memory is not limited.
-/

open GF2Vec

namespace GF2Impl

variable {w : Nat}

def bitsLoop (block : BitVec w) (vr : GF2Mat w) (col i stop : Nat) (start : List (BitVec w))
    : Result (BitVec w × List (BitVec w)) :=
  forLoop (fun i (mask, start) => do
    if block &&& mask ≠ 0#w then
      let row ← vr.elm i
      let start ← addGF2VecToGF2Vec start (readAt row.blocks) col
      return (mask <<< 1, start)
    else
      return (mask <<< 1, start)) (stop + 1 - i) i (1#w, start)

def vecMatLoop (vl : GF2Vec w) (vr : GF2Mat w) (len col : Nat)
    : Nat → Nat → Nat → List (BitVec w) → Result (List (BitVec w))
  | 0, _, _, _ => throw .fuel
  | fuel + 1, ptL, i, start => do
    if i ≤ len then
      let block ← readAt vl.blocks ptL
      if block = 0#w then
        vecMatLoop vl vr len col fuel (ptL + 1) (i + w) start
      else
        let stop := i + w - 1
        let stop := if len < stop then len else stop
        let (_, start) ← bitsLoop block vr col i stop start
        vecMatLoop vl vr len col fuel (ptL + 1) (stop + 1) start
    else
      return start

def prodGF2VecGF2Mat (vl : GF2Vec w) (vr : GF2Mat w) : Result (GF2Vec w) := do
  let len := if vl.len > vr.len then vr.len else vl.len
  let row1 ← vr.elm 1
  let col := row1.len
  let blocks ← vecMatLoop vl vr len col (len + 1) 0 1 (GF2Vec.new col : GF2Vec w).blocks
  return { len := col, blocks := blocks }

def prodGF2MatGF2MatSimple (ml mr : GF2Mat w) : Result (GF2Mat w) := do
  let rows ← ml.rows.mapM (fun row => prodGF2VecGF2Mat row mr)
  return { rows := rows }

def getbits (vptr : List (BitVec w)) (pos nbits : Nat) : Result (BitVec w) := do
  let wno := (pos - 1) / w
  let word1 ← readAt vptr wno
  let shift1 := (pos - 1) % w
  let lbit := (shift1 + nbits) % 2 ^ w
  if lbit ≤ w then
    -- The range is all in one word.
    let word1 ← shlWord word1 (w - lbit)
    shrWord word1 (subWord w w nbits)
  else
    -- The range is split across two words.
    let word1 ← shrWord word1 shift1
    let lbit := lbit - w
    let word2 ← readAt vptr (wno + 1)
    let word2 ← shlWord word2 (subWord w w lbit)
    let word2 ← shrWord word2 (subWord w shift1 lbit)
    return word1 ||| word2

inductive RowPtr where
  | row (i : Nat)
  | buf (pos : Nat)
  deriving DecidableEq, Repr

structure GreaseInfo (w : Nat) where
  tags : List Nat
  buf : List (BitVec w)
  rows : List (GF2Vec w)
  pgtags : Nat
  pgbuf : Nat
  nblocks : Nat
  pgrules : List Nat
  prrows : Nat
  deriving DecidableEq, Repr

def readPtr (rows : List (GF2Vec w)) (buf : List (BitVec w)) (ptr : RowPtr) (i : Nat)
    : Result (BitVec w) :=
  match ptr with
  | .row r => do
    let row ← readAt rows r
    readAt row.blocks i
  | .buf pos => readAt buf (pos + i)

def getgreasedata : Nat → GreaseInfo w → BitVec w → Result (GreaseInfo w × RowPtr)
  | 0, _, _ => throw .fuel
  | fuel + 1, g, bits => do
    let tag ← readAt g.tags (g.pgtags + bits.toNat)
    match tag with
    | 0 =>
      -- Row `x` is added to the grease row for the other bits.
      let x ← readAt g.pgrules bits.toNat
      let mask ← oneShl x
      let ps := RowPtr.row (g.prrows + x)
      let (g, ps2) ← getgreasedata fuel g (bits ^^^ BitVec.ofNat w mask)
      let pd := g.pgbuf + (bits.toNat - 3) * g.nblocks
      let buf ← forLoop (fun i buf => do
        let block ← readPtr g.rows buf ps i
        let block2 ← readPtr g.rows buf ps2 i
        writeAt buf (pd + i) (block ^^^ block2)) g.nblocks 0 g.buf
      let tags ← writeAt g.tags (g.pgtags + bits.toNat) 1
      return ({ g with tags := tags, buf := buf }, .buf pd)
    | 1 => return (g, .buf (g.pgbuf + (bits.toNat - 3) * g.nblocks))
    | 2 =>
      let x ← readAt g.pgrules bits.toNat
      return (g, .row (g.prrows + x))
    | _ => throw .access

def ruleLoop (j : Nat) : Nat → Nat → List Nat → Result (List Nat)
  | 0, _, rules => return rules
  | n + 1, i, rules => do
    let mask ← oneShl i
    if j &&& mask ≠ 0 then
      writeAt rules j i
    else
      ruleLoop j n (i + 1) rules

def makeRules (greasesize glen : Nat) : Result (List Nat) := do
  let rules ← forLoop (fun j rules => ruleLoop j greasesize 0 rules) (glen - 3) 3
    (List.replicate glen 0)
  forLoop (fun j rules => do
    let mask ← oneShl j
    writeAt rules mask j) greasesize 0 rules

def resetTags (greasesize glen bs : Nat) (tags : List Nat) : Result (List Nat) :=
  forLoop (fun k tags => do
    let n ← oneShl greasesize
    let tags ← forLoop (fun j tags => writeAt tags (k * glen + j) 0) n 0 tags
    forLoop (fun j tags => do
      let mask ← oneShl j
      writeAt tags (k * glen + mask) 2) greasesize 0 tags) bs 0 tags

def unitStep (greasesize glen ilen rlen b : Nat) (rptr : List (BitVec w)) (i : Nat)
    (s : GreaseInfo w × List (BitVec w)) : Result (GreaseInfo w × List (BitVec w)) := do
  let (g, pprow) := s
  let k := (b + i * greasesize) % 2 ^ w
  -- The last unit of the last block can be short.
  let gs := if (k + greasesize) % 2 ^ w > ilen then subWord w (ilen + 1) k else greasesize
  let g := if gs > 1 then
    { g with pgtags := glen * i, pgbuf := (glen - 3) * g.nblocks * i, prrows := k - 1 } else g
  let bits ← getbits rptr k gs
  if bits = 0#w then
    return (g, pprow)
  else if bits = 1#w then
    let pprow ← addGF2VecToGF2Vec pprow (readPtr g.rows g.buf (.row (k - 1))) rlen
    return (g, pprow)
  else
    let (g, v) ← getgreasedata (bits.toNat + 1) g bits
    let pprow ← addGF2VecToGF2Vec pprow (readPtr g.rows g.buf v) rlen
    return (g, pprow)

def rowStep (ml : GF2Mat w) (greasesize glen ilen rlen b bs j : Nat)
    (s : GreaseInfo w × List (GF2Vec w)) : Result (GreaseInfo w × List (GF2Vec w)) := do
  let (g, prod) := s
  let rptr ← readAt ml.rows (j - 1)
  let row ← readAt prod (j - 1)
  let (g, pprow) ← forLoop (unitStep greasesize glen ilen rlen b rptr.blocks) bs 0 (g, row.blocks)
  let prod ← writeAt prod (j - 1) { row with blocks := pprow }
  return (g, prod)

/-- The loop over the blocks, `blocksize * greasesize` can be more than a word holds. -/
def blocksLoop (ml : GF2Mat w) (greasesize glen blocksize ilen rlen : Nat)
    : Nat → Nat → GreaseInfo w → List (GF2Vec w) → Result (List (GF2Vec w))
  | 0, _, _, _ => throw .fuel
  | fuel + 1, b, g, prod => do
    if b ≤ ilen then
      let bs := if (b + blocksize * greasesize) % 2 ^ w > ilen then
        (ilen - b + greasesize) / greasesize else blocksize
      let tags ← (if greasesize > 1 then resetTags greasesize glen bs g.tags else return g.tags)
      let (g, prod) ← forLoop (rowStep ml greasesize glen ilen rlen b bs) ml.len 1
        ({ g with tags := tags }, prod)
      blocksLoop ml greasesize glen blocksize ilen rlen fuel
        ((b + blocksize * greasesize) % 2 ^ w) g prod
    else
      return prod

def prodGF2MatGF2MatAdvanced (ml mr : GF2Mat w) (greasesize blocksize : Nat)
    : Result (GF2Mat w) := do
  let row ← mr.elm 1
  let rlen := row.len
  let ilen := mr.len
  let nwords := row.numberBlocks
  let prod := List.replicate ml.len (GF2Vec.new rlen)
  let greasesize := if ilen < greasesize then ilen else greasesize
  let blocksize := if ilen < greasesize * blocksize % 2 ^ w then
    (ilen + greasesize - 1) / greasesize else blocksize
  let glen ← oneShl greasesize
  let g : GreaseInfo w := ⟨[], [], mr.rows, 0, 0, nwords, [], 0⟩
  let g ← (if greasesize ≥ 2 then do
    let rules ← makeRules greasesize glen
    return { g with
      tags := List.replicate (glen * blocksize) 0
      buf := List.replicate (nwords * (glen - 3) * blocksize) 0#w
      pgrules := rules }
  else
    return g : Result (GreaseInfo w))
  let rows ← blocksLoop ml greasesize glen blocksize ilen rlen (ilen + 1) 1 g prod
  return { rows := rows }

def prodGF2MatGF2Mat (ml mr : GF2Mat w) : Result (GF2Mat w) := do
  if ml.len ≥ 128 then
    let rowl ← ml.elm 1
    let lenm := rowl.len
    let rowr ← mr.elm 1
    if lenm ≥ 128 ∧ lenm = mr.len ∧ rowr.len ≥ 128 then
      prodGF2MatGF2MatAdvanced ml mr 8 ((lenm + 255) / 256)
    else
      prodGF2MatGF2MatSimple ml mr
  else
    prodGF2MatGF2MatSimple ml mr

end GF2Impl

end Product

open Integer

namespace GF2Impl

def revertlist : List Nat := [
  0, 128, 64, 192, 32, 160, 96, 224, 16, 144, 80, 208, 48, 176, 112, 240,
  8, 136, 72, 200, 40, 168, 104, 232, 24, 152, 88, 216, 56, 184, 120, 248,
  4, 132, 68, 196, 36, 164, 100, 228, 20, 148, 84, 212, 52, 180, 116, 244,
  12, 140, 76, 204, 44, 172, 108, 236, 28, 156, 92, 220, 60, 188, 124, 252,
  2, 130, 66, 194, 34, 162, 98, 226, 18, 146, 82, 210, 50, 178, 114, 242,
  10, 138, 74, 202, 42, 170, 106, 234, 26, 154, 90, 218, 58, 186, 122, 250,
  6, 134, 70, 198, 38, 166, 102, 230, 22, 150, 86, 214, 54, 182, 118, 246,
  14, 142, 78, 206, 46, 174, 110, 238, 30, 158, 94, 222, 62, 190, 126, 254,
  1, 129, 65, 193, 33, 161, 97, 225, 17, 145, 81, 209, 49, 177, 113, 241,
  9, 137, 73, 201, 41, 169, 105, 233, 25, 153, 89, 217, 57, 185, 121, 249,
  5, 133, 69, 197, 37, 165, 101, 229, 21, 149, 85, 213, 53, 181, 117, 245,
  13, 141, 77, 205, 45, 173, 109, 237, 29, 157, 93, 221, 61, 189, 125, 253,
  3, 131, 67, 195, 35, 163, 99, 227, 19, 147, 83, 211, 51, 179, 115, 243,
  11, 139, 75, 203, 43, 171, 107, 235, 27, 155, 91, 219, 59, 187, 123, 251,
  7, 135, 71, 199, 39, 167, 103, 231, 23, 151, 87, 215, 55, 183, 119, 247,
  15, 143, 79, 207, 47, 175, 111, 239, 31, 159, 95, 223, 63, 191, 127, 255]

section

variable {w : Nat}

def revertByte (a : BitVec w) : BitVec w :=
  BitVec.ofNat w (revertlist.getD (a &&& BitVec.ofNat w 255).toNat 0)

def revertLoop : (n : Nat) → (a b : BitVec w) → BitVec w
  | n + 9, a, b => revertLoop (n + 1) (a >>> 8) ((b <<< 8) + revertByte a)
  -- The last `n` bits.
  | n, a, b => (b <<< n) + (revertByte a >>> (8 - n))

def revertbits (a : BitVec w) (n : Nat) : BitVec w :=
  revertLoop n a 0#w

def cmpBlocks (bl br : List (BitVec w)) : (n i : Nat) → Result (Option Int)
  | 0, _ => return none
  | n + 1, i => do
    let x ← readAt bl i
    let y ← readAt br i
    if x ≠ y then
      if revertbits x w < revertbits y w then
        return some (-1)
      else
        return some 1
    else
      cmpBlocks bl br n (i + 1)

def cmpGF2VecGF2Vec (vl vr : GF2Vec w) : Result Int := do
  let nb := if vr.numberBlocks < vl.numberBlocks then vr.numberBlocks else vl.numberBlocks
  match ← cmpBlocks vl.blocks vr.blocks (nb - 1) 0 with
  | some c => return c
  | none =>
    let len := if vl.len > vr.len then vr.len else vl.len
    if len = 0 then
      return 0
    else
      let x ← readAt vl.blocks (nb - 1)
      let y ← readAt vr.blocks (nb - 1)
      let len := if len % w = 0 then w else len % w
      let a := revertbits x len
      let b := revertbits y len
      if a < b then
        return -1
      else if a > b then
        return 1
      else if vr.len > vl.len then
        return -1
      else if vl.len > vr.len then
        return 1
      else
        return 0

def eqGF2VecGF2Vec (vl vr : GF2Vec w) : Result Bool := do
  if vl.len ≠ vr.len then
    return false
  else
    let c ← cmpGF2VecGF2Vec vl vr
    return c = 0

def ltGF2VecGF2Vec (vl vr : GF2Vec w) : Result Bool := do
  let c ← cmpGF2VecGF2Vec vl vr
  return c < 0

def cmpRows (ml mr : GF2Mat w) : (n i : Nat) → Result (Option Int)
  | 0, _ => return none
  | n + 1, i => do
    let rowl ← ml.elm i
    let rowr ← mr.elm i
    let c ← cmpGF2VecGF2Vec rowl rowr
    if c ≠ 0 then
      return some c
    else
      cmpRows ml mr n (i + 1)

def cmpGF2MatGF2Mat (ml mr : GF2Mat w) : Result Int := do
  let l := if ml.len < mr.len then ml.len else mr.len
  match ← cmpRows ml mr l 1 with
  | some c => return c
  | none =>
    if ml.len < mr.len then
      return -1
    else if ml.len > mr.len then
      return 1
    else
      return 0

def eqGF2MatGF2Mat (ml mr : GF2Mat w) : Result Bool := do
  if ml.len ≠ mr.len then
    return false
  else
    let c ← cmpGF2MatGF2Mat ml mr
    return 0 = c

def ltGF2MatGF2Mat (ml mr : GF2Mat w) : Result Bool := do
  let c ← cmpGF2MatGF2Mat ml mr
  return c < 0

end

section

variable (w : IntSize)

def numberShifted (blocks : List (BitVec w.bits)) (off off2 : Nat)
    : (n num vp : Nat) → BitVec w.bits → List Nat → Result (List Nat)
  | 0, _, vp, head, zahl => writeAt zahl vp head.toNat
  | n + 1, num, vp, head, zahl => do
    let num := num - 1
    let a ← readAt blocks num
    let a := revertbits a w.bits
    let zahl ← writeAt zahl vp (head ||| (a <<< off)).toNat
    numberShifted blocks off off2 n num (vp + 1) (a >>> off2) zahl

def numberFull (blocks : List (BitVec w.bits)) : (n num vp : Nat) → List Nat → Result (List Nat)
  | 0, _, _, zahl => return zahl
  | n + 1, num, vp, zahl => do
    let a ← readAt blocks num
    let zahl ← writeAt zahl vp (revertbits a w.bits).toNat
    numberFull blocks n (num - 1) (vp + 1) zahl

def numberGF2Vec (vec : GF2Vec w.bits) : Result (GF2Vec w.bits × IntegerObj) := do
  let len := vec.len
  if len = 0 then
    return (vec, INTOBJ_INT w 1)
  else
    let num2 := (len - 1) / w.bits
    let off := (len - 1) % w.bits + 1
    let off2 := w.bits - off
    let x ← readAt vec.blocks num2
    let x := x &&& (~~~0#w.bits >>> off2)
    let blocks ← writeAt vec.blocks num2 x
    let vec := { vec with blocks := blocks }
    if len ≤ w.nrSmallIntBits then
      return (vec, INTOBJ_INT w (revertbits x len).toNat)
    else
      let nd := (len - 1) / w.bits + 1
      let zahl := List.replicate nd 0
      let zahl ← (if off ≠ w.bits then
        numberShifted w blocks off off2 (nd - 1) num2 0 (revertbits x off) zahl
      else
        numberFull w blocks nd num2 0 zahl)
      return (vec, gmpNormalize w (.intpos zahl))

end

end GF2Impl
