import GapKernel.ForLoop
import GapKernel.IntObj
import GapKernel.Plist

/-!
This module contains the Tietze stack: a presentation with its relators as lists of generator
numbers, the list of inverses, and the checks that each routine makes at its start. Then there are
the hash tables of `TzSearchC`, a key that is not in them belongs to no subword that was added.
-/

structure TietzeStack where
  -- `TZ_NUMGENS`
  numgens : Nat
  -- `TZ_NUMRELS`
  numrels : Nat
  -- `TZ_TOTAL`
  total : Int
  -- `TZ_INVERSES`
  inverses : List Int
  -- `TZ_RELATORS`
  relators : List (List Int)
  -- `TZ_LENGTHS`
  lengths : List Nat
  -- `TZ_FLAGS`
  flags : List Int
  deriving DecidableEq, Repr

namespace TietzeStack

def checkTietzeRelators (tietze : TietzeStack) : Result Unit :=
  if tietze.relators.length ≠ tietze.numrels then
    throw (.quit "invalid Tietze relators list" 0 0)
  else
    return ()

def checkTietzeInverses (tietze : TietzeStack) : Result Unit :=
  if tietze.inverses.length ≠ 2 * tietze.numgens + 1 then
    throw (.quit "invalid Tietze inverses list" 0 0)
  else
    return ()

def checkTietzeLengths (tietze : TietzeStack) : Result Unit :=
  if tietze.lengths.length ≠ tietze.numrels then
    throw (.quit "invalid Tietze lengths list" 0 0)
  else
    return ()

def checkTietzeFlags (tietze : TietzeStack) : Result Unit :=
  if tietze.flags.length ≠ tietze.numrels then
    throw (.quit "invalid Tietze flags list" 0 0)
  else
    return ()

def checkTietzeRelLengths (tietze : TietzeStack) : Result Int := do
  let total ← forLoop (fun i (total : Int) => do
    let len ← elmPlist tietze.lengths i
    let rel ← elmPlist tietze.relators i
    if len ≠ rel.length then
      throw (.quit "inconsistent Tietze lengths list" 0 0)
    return total + len) tietze.numrels 1 0
  if total ≠ tietze.total then
    throw (.quit "inconsistent total length" 0 0)
  return total

def invGen (tietze : TietzeStack) (gen : Int) : Result Int :=
  elmPlist tietze.inverses (tietze.numgens + 1 + gen).toNat

end TietzeStack

/-- `ADDR_OBJ(list)[pos]`. Before the entries is the length of the list, which is not tagged. -/
def addrObj (list : List Int) (pos : Int) : Result Int :=
  if pos < 0 then
    throw .access
  else if pos = 0 then
    return list.length / 4
  else
    elmPlist list pos.toNat

structure TzKeys where
  keys1 : Nat → Nat
  keys2 : Nat → Nat
  keys3 : Nat → Nat

namespace TzKeys

variable {n : Nat}

def empty : TzKeys where
  keys1 _ := 0
  keys2 _ := 0
  keys3 _ := 0

def slot (key : BitVec n) (shift : Nat) : Nat :=
  ((key >>> shift) &&& 8191).toNat

def bit (key : BitVec n) (shift : Nat) : Nat :=
  1 <<< ((key >>> shift) &&& 7).toNat

def add (keys : TzKeys) (key : BitVec n) : TzKeys where
  keys1 := Function.update keys.keys1 (slot key 0) 1
  keys2 := Function.update keys.keys2 (slot key 11) (keys.keys2 (slot key 11) ||| bit key 8)
  keys3 := Function.update keys.keys3 (slot key 19) (keys.keys3 (slot key 19) ||| bit key 16)

def isMatch (keys : TzKeys) (key : BitVec n) : Bool :=
  keys.keys1 (slot key 0) ≠ 0
    && (keys.keys2 (slot key 11) &&& bit key 8) ≠ 0
    && (keys.keys3 (slot key 19) &&& bit key 16) ≠ 0

end TzKeys

section Words

variable {n : Nat}

def genKey (n : Nat) (gen : Int) : BitVec n :=
  BitVec.ofInt n (4 * gen + 1) >>> 2

def keyFactor (n : Nat) (mlen : Nat) : BitVec n :=
  (fun inv => 109109 * inv)^[mlen] 1

def firstKey (letter : Nat → Result (BitVec n)) (mlen : Nat) : Result (BitVec n) :=
  forLoop (fun i key => do
    let a ← letter i
    return 109109 * key + a) mlen 0 0

def addKeys (letter : Nat → Result (BitVec n)) (mlen ylen : Nat) (keys : TzKeys)
    : Result TzKeys := do
  let key ← firstKey letter mlen
  let (_, _, keys) ← forLoop (fun i (key, w, keys) => do
    let keys := keys.add key
    let w := if i = ylen - mlen then 0 else w
    let a ← letter i
    let b ← letter w
    return (109109 * key - keyFactor n mlen * a + b, w + 1, keys)) ylen 0 (key, mlen, keys)
  return keys

end Words

/-!
This section contains the loops of `TzSearchC` over the letters of two relators: the search for a
match, the removal of what cancels, and the moves in the relator that is changed.
-/

def nextPos (last i : Nat) : Nat :=
  if i = last then 0 else i + 1

def prevPos (last i : Nat) : Nat :=
  if i = 0 then last else i - 1

/--
How the given relator takes part in a match: as it is, or as its inverse. Its letters are read from
the position `start i` on, and before that position is `before i`.
-/
structure TzReading where
  start : Nat → Nat
  before : Nat → Nat
  forward : Nat → Nat
  backward : Nat → Nat
  -- The letter that has to be in the other relator.
  letter : Int → Result Int
  -- The letter that is put there.
  invLetter : Int → Result Int

namespace TzReading

def readX (r : TzReading) (ptx : List Int) (i : Nat) : Result Int := do
  r.letter (← elmPlist ptx (i + 1))

def readInv (r : TzReading) (ptx : List Int) (i : Nat) : Result Int := do
  r.invLetter (← elmPlist ptx (i + 1))

end TzReading

def readY (pty : List Int) (j : Nat) : Result Int :=
  elmPlist pty (j + 1)

namespace TietzeStack

def relatorReading (tietze : TietzeStack) (xlen1 : Nat) : TzReading where
  start i := i
  before i := if i = 0 then xlen1 else i - 1
  forward := nextPos xlen1
  backward := prevPos xlen1
  letter gen := return gen
  invLetter := tietze.invGen

def inverseReading (tietze : TietzeStack) (xlen1 : Nat) : TzReading where
  start i := xlen1 - i
  before i := if i = 0 then 0 else xlen1 + 1 - i
  forward := prevPos xlen1
  backward := nextPos xlen1
  letter := tietze.invGen
  invLetter gen := return gen

end TietzeStack

section Loops

variable (readX readY : Nat → Result Int) (stepX stepY : Nat → Nat)

def matchLetters : Nat → Nat → Nat → Nat → Result (Nat × Nat × Nat)
  | 0, n, i, j => return (n, i, j)
  | k + 1, n, i, j => do
    let a ← readX i
    let b ← readY j
    if a ≠ b then
      return (n, i, j)
    else
      matchLetters k (n + 1) (stepX i) (stepY j)

def writeLetters : Nat → Nat → Nat → List Int → Result (Nat × List Int)
  | 0, i, _, pty => return (i, pty)
  | n + 1, i, j, pty => do
    let a ← readX i
    let pty ← setElmPlist pty (j + 1) a
    writeLetters n (stepX i) (stepY j) pty

end Loops

def moveLetters : Nat → Nat → Nat → List Int → Result (List Int)
  | 0, _, _, pty => return pty
  | n + 1, jj, j2, pty => do
    let a ← elmPlist pty (j2 + 1)
    let pty ← setElmPlist pty (jj + 1) a
    moveLetters n (jj + 1) (j2 + 1) pty

def cancelLetters (tietze : TietzeStack) (pty : List Int) (ylen1 : Nat)
    : Nat → Nat → Nat → Result (Nat × Nat × Nat)
  | m + 2, j1, j2 => do
    let a ← elmPlist pty (j1 + 1)
    let b ← elmPlist pty (j2 + 1)
    let b ← tietze.invGen b
    if a ≠ b then
      return (m + 2, j1, j2)
    else
      cancelLetters tietze pty ylen1 m (prevPos ylen1 j1) (nextPos ylen1 j2)
  | m, j1, j2 => return (m, j1, j2)

/-!
This section contains `TzSearchC`, which looks for parts that a relator has in common with a shorter
one, or with the inverse of it, and shortens the relator by them.
-/

structure TzSearch (w : IntSize) where
  tietze : TietzeStack
  pos1 : Nat
  pos2 : Nat
  lmin : Nat
  lmax : Nat
  mlen : Nat
  newflag : Int
  equal : Bool
  -- What `*w >> 2` is for the words behind the end of a relator, after so many alterations.
  stale : Nat → Nat → BitVec w.bits

structure TzState where
  relators : List (List Int)
  lengths : List Nat
  flags : List Int
  total : Int
  count : Nat
  keys : TzKeys
  len1 : Nat
  flag1 : Int
  xmax : Nat
  lasty : Nat
  y : Nat
  altered : Bool

inductive TzMatch where
  | none
  -- A part of the relator is replaced by another one of the same length.
  | replaced (rel : List Int)
  | shortened (rel : List Int)

def replaceOccurrences (tietze : TietzeStack) (ptx : List Int) (xlen ylen n i : Nat)
    : Nat → Nat → List Int → Result (List Int)
  | 0, _, _ => throw .fuel
  | rounds + 1, jj, pty =>
    if ylen - n < jj then
      return pty
    else do
      let r := tietze.relatorReading (xlen - 1)
      let (m, _, _) ← matchLetters (r.readX ptx) (readY pty) r.forward (nextPos (ylen - 1)) n 0 i jj
      if m < n then
        replaceOccurrences tietze ptx xlen ylen n i rounds (jj + 1) pty
      else
        let i1 := r.before i
        let i3 := (i + n) % xlen
        let a1 ← readY ptx i1
        let b1 ← readY pty ((jj + (ylen - 1)) % ylen)
        let a3 ← readY ptx i3
        let b3 ← readY pty ((jj + n) % ylen)
        if a1 = b1 ∨ a3 = b3 then
          replaceOccurrences tietze ptx xlen ylen n i rounds (jj + 1) pty
        else
          let (_, pty) ←
            writeLetters (r.readInv ptx) r.backward (nextPos (ylen - 1)) n i1 jj pty
          -- `jj = -1`
          replaceOccurrences tietze ptx xlen ylen n i rounds 0 pty

def moveParts (pty : List Int) (ylen m n j1 j2 : Nat) : Result (Nat × List Int) :=
  if 0 < j2 then
    if j2 ≤ j1 then do
      let pty ← moveLetters (j1 + 1 - j2) 0 j2 pty
      return (m - 1, pty)
    else do
      let pty ← moveLetters (ylen - j2) (j1 + n + 1) j2 pty
      return (j1, pty)
  else
    return (j1, pty)

def modifyRelator (r : TzReading) (ptx pty : List Int) (ylen m n i1 j1 j2 : Nat)
    : Result (List Int) := do
  let (j1, pty) ← moveParts pty ylen m n j1 j2
  let (_, pty) ← writeLetters (r.readInv ptx) r.backward (· + 1) n i1 (j1 + 1) pty
  return pty.take (m + n)

def findFactors (tietze : TietzeStack) (pty : List Int) (ylen1 m n j1 j2 : Nat)
    : Result (Nat × Nat × Nat) :=
  if n = 0 then cancelLetters tietze pty ylen1 m j1 j2 else return (m, j1, j2)

namespace TzSearch

variable {w : IntSize}

def tryPosition (a : TzSearch w) (r : TzReading) (inverse : Bool) (ptx pty : List Int)
    (xlen ylen j i : Nat) : Result TzMatch := do
  let ylen1 := ylen - 1
  -- search forward for a match of length at least mlen
  let (n, _, j2) ←
    matchLetters (r.readX ptx) (readY pty) r.forward (nextPos ylen1) xlen 0 (r.start i) j
  if n < a.mlen then
    return .none
  else
    -- search backward to find the whole match
    let (n, i1, j1) ←
      matchLetters (r.readX ptx) (readY pty) r.backward (prevPos ylen1) (xlen - n) n (r.before i)
        (prevPos ylen1 j)
    if n = xlen - n then
      let (_, pty) ← writeLetters (r.readInv ptx) r.backward (nextPos ylen1) n i1 j pty
      if inverse then
        return .replaced pty
      else
        -- No more rounds are made, the word gets smaller for an order of the letters.
        let rounds := 2 ^ ylen * (ylen + 2)
        let pty ← replaceOccurrences a.tietze ptx xlen ylen n i rounds 0 pty
        return .replaced pty
    else
      let m := ylen - n
      let n := xlen - n
      let (m, j1, j2) ← findFactors a.tietze pty ylen1 m n j1 j2
      let pty ← modifyRelator r ptx pty ylen m n i1 j1 j2
      return .shortened pty

def alter (a : TzSearch w) (s : TzState) : TzMatch → Result TzState
  | .none => return s
  | .replaced rel => do
    let relators ← setElmPlist s.relators s.y rel
    let flags ← setElmPlist s.flags s.y a.newflag
    return { s with
      relators := relators
      flags := flags
      altered := true
      count := s.count + 1 }
  | .shortened rel => do
    let ylen ← elmPlist s.lengths s.y
    let relators ← setElmPlist s.relators s.y rel
    let lengths ← setElmPlist s.lengths s.y rel.length
    let flags ← setElmPlist s.flags s.y a.newflag
    return { s with
      relators := relators
      lengths := lengths
      flags := flags
      total := s.total - ylen + rel.length
      altered := true
      count := s.count + 1
      y := s.y - 1 }

def tryPositions (a : TzSearch w) (r : TzReading) (inverse : Bool) (ptx pty : List Int)
    (xlen ylen j : Nat) (s : TzState) : Result TzState :=
  breakLoop (fun i s => do
    let result ← a.tryPosition r inverse ptx pty xlen ylen j i
    let s ← a.alter s result
    return (s, s.altered)) xlen 0 s

def tryRelators (a : TzSearch w) (lo : List Int) (ylen : Nat) (yflag : Int) (j : Nat) (s : TzState)
    : Result TzState :=
  breakLoop (fun x s => do
    let wo ← elmPlist s.relators x
    let xlen ← elmPlist s.lengths x
    let xflag ← elmPlist s.flags x
    if xlen < s.len1 ∨ a.lmax < xlen ∨ ylen < xlen ∨ 1 < xflag
        ∨ (a.equal = false ∧ xflag + yflag = 0) then
      return (s, false)
    else
      let s ← a.tryPositions (a.tietze.relatorReading (xlen - 1)) false wo lo xlen ylen j s
      if s.altered then
        return (s, true)
      else
        let s ← a.tryPositions (a.tietze.inverseReading (xlen - 1)) true wo lo xlen ylen j s
        return (s, s.altered)) (s.xmax + 1 - a.pos1) a.pos1 s

def tryKey (a : TzSearch w) (lo : List Int) (ylen : Nat) (yflag : Int) (j : Nat)
    (key : BitVec w.bits) (s : TzState) : Result TzState :=
  if s.keys.isMatch key then a.tryRelators lo ylen yflag j s else return s

def searchRelator (a : TzSearch w) (lo : List Int) (ylen : Nat) (yflag : Int) (s : TzState)
    : Result TzState := do
  let letter j := (lo.map (genKey w.bits)).getD j (a.stale s.count j)
  let key ← firstKey (fun j => return letter j) a.mlen
  let (_, s) ← breakLoop (fun j (key, s) => do
    let s ← a.tryKey lo ylen yflag j key s
    let key := 109109 * key - keyFactor w.bits a.mlen * letter j + letter ((j + a.mlen) % ylen)
    return ((key, s), s.altered)) ylen 0 (key, s)
  return s

def addRelator (a : TzSearch w) (s : TzState) : Result TzState := do
  let word ← elmPlist s.relators s.y
  let ylen ← elmPlist s.lengths s.y
  let yflag ← elmPlist s.flags s.y
  if s.y ≤ a.pos2 ∧ a.lmin ≤ ylen ∧ ylen ≤ a.lmax ∧ yflag ≤ 1 then
    let keys ← addKeys (fun i => do
      let gen ← elmPlist word (i + 1)
      return genKey w.bits gen) a.mlen ylen s.keys
    let keys ← addKeys (fun i => do
      let gen ← elmPlist word (ylen - i)
      let gen ← a.tietze.invGen gen
      return genKey w.bits gen) a.mlen ylen keys
    return { s with
      keys := keys
      len1 := if ylen < s.len1 then ylen else s.len1
      flag1 := if s.flag1 < yflag then yflag else s.flag1
      xmax := s.y }
  else
    return s

def searchRound (a : TzSearch w) (s : TzState) : Result TzState := do
  let s ← a.addRelator s
  let s := { s with y := s.y + 1, altered := false }
  let lo ← elmPlist s.relators s.y
  let ylen ← elmPlist s.lengths s.y
  let yflag ← elmPlist s.flags s.y
  if s.lasty < s.y
      ∧ (ylen < s.len1 ∨ 1 < yflag ∨ (a.equal = false ∧ yflag + s.flag1 = 0)) then
    return s
  else
    a.searchRelator lo ylen yflag { s with lasty := s.y }

def searchLoop (a : TzSearch w) : Nat → TzState → Result TzState
  | 0, _ => throw .fuel
  | rounds + 1, s =>
    if s.y < a.tietze.numrels then do
      let s ← a.searchRound s
      a.searchLoop rounds s
    else
      return s

end TzSearch

namespace TietzeStack

def isInconvenient (tietze : TietzeStack) (equal : Bool) (pos : Int) : Result Bool := do
  let len ← addrObj (tietze.lengths.map Nat.cast) pos
  if len < 2 then
    return true
  else
    let flag ← addrObj tietze.flags pos
    return 1 < flag || (equal && (len < 4 || len % 2 = 1))

def skipRelators (tietze : TietzeStack) (equal : Bool) (pos2 : Int) : Nat → Int → Result Int
  | 0, pos1 => return pos1
  | n + 1, pos1 => do
    let skip ← tietze.isInconvenient equal pos1
    if skip then
      tietze.skipRelators equal pos2 n (pos1 + 1)
    else
      return pos1

def startSearch (w : IntSize) (stale : Nat → Nat → BitVec w.bits)
    (tietze : TietzeStack) (pos1 pos2 : Nat) (equal : Bool) (total : Int)
    : Result (TietzeStack × Nat) := do
  let len1 ← elmPlist tietze.lengths pos1
  let flag1 ← elmPlist tietze.flags pos1
  let lmin := len1 - len1 % 2
  let a : TzSearch w :=
    { tietze := tietze
      pos1 := pos1
      pos2 := pos2
      lmin := lmin
      lmax := if equal then lmin else lmin + 1
      mlen := if equal then (lmin + 1) / 2 else lmin / 2 + 1
      newflag := if equal then 1 else 2
      equal := equal
      stale := stale }
  -- No more rounds are made, each of them goes on to the next relator or shortens one.
  let rounds := tietze.numrels + total.toNat + 1
  let s ← a.searchLoop rounds
    { relators := tietze.relators
      lengths := tietze.lengths
      flags := tietze.flags
      total := total
      count := 0
      keys := .empty
      len1 := len1
      flag1 := flag1
      xmax := pos1 - 1
      lasty := 0
      y := pos1
      altered := false }
  return ({ tietze with
    relators := s.relators
    lengths := s.lengths
    flags := s.flags
    total := s.total }, s.count)

def tzSearchC (w : IntSize) (stale : Nat → Nat → BitVec w.bits)
    (tietze : TietzeStack) (pos1 pos2 : Int) (equal : Bool) : Result (TietzeStack × Nat) := do
  tietze.checkTietzeRelators
  tietze.checkTietzeLengths
  tietze.checkTietzeFlags
  let total ← tietze.checkTietzeRelLengths
  tietze.checkTietzeInverses
  if pos1 > tietze.numrels then
    throw (.quit "<pos1> out of range: %d" pos1 0)
  if pos2 > tietze.numrels then
    throw (.quit "<pos2> out of range: %d" pos2 0)
  let pos1 ← tietze.skipRelators equal pos2 (pos2 + 1 - pos1).toNat pos1
  if pos1 > pos2 ∨ pos1 = tietze.numrels then
    return (tietze, 0)
  else
    startSearch w stale tietze pos1.toNat pos2.toNat equal total

end TietzeStack
