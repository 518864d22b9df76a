import GapKernel.ForLoop
import GapKernel.IntObj
import GapKernel.PermList

/-!
This module contains the bags of permutations, and their construction from lists of cycles. The
entries of a bag are 16 or 32 bits wide, and a bag can refer to a bag with the inverse permutation.
-/

inductive PermTnum where
  | perm2
  | perm4
  deriving DecidableEq, Repr

namespace PermTnum

def bits (T : PermTnum) : Nat :=
  match T with
  | perm2 => 16
  | perm4 => 32

def maxDegPerm4 (w : IntSize) : Nat :=
  match w with
  | .int4 => 2 ^ 28 - 1
  | .int8 => 2 ^ 32 - 1

def maxDeg (w : IntSize) (T : PermTnum) : Nat :=
  match T with
  | perm2 => 65536
  | perm4 => maxDegPerm4 w

def resultType (TL TR : PermTnum) : PermTnum :=
  match TL, TR with
  | perm2, perm2 => perm2
  | _, _ => perm4

def cast (T : PermTnum) (v : Nat) : Nat :=
  v % 2 ^ T.bits

-- `v + 1` for an entry, 16 bit entries are promoted to `int`.
def plusOne (T : PermTnum) (v : Nat) : Nat :=
  match T with
  | perm2 => v + 1
  | perm4 => (v + 1) % 2 ^ 32

end PermTnum

structure PermBag where
  tnum : PermTnum
  entries : List Nat
  storedInv : Option Nat
  deriving DecidableEq, Repr

/--
The bags of permutations, and the global variables that the functions use. The threshold is `none`
when it is not an immediate integer.
-/
structure PermHeap where
  bags : List PermBag
  identityPerm : Nat
  permInverseThreshold : Option Int
  deriving DecidableEq, Repr

namespace PermHeap

def bag (h : PermHeap) (perm : Nat) : Result PermBag :=
  match h.bags[perm]? with
  | some bag => pure bag
  | none => throw .access

-- The entries of a bag, which has to be of the type `T`.
def constAddrPerm (T : PermTnum) (h : PermHeap) (perm : Nat) : Result (List Nat) := do
  let bag ← h.bag perm
  if bag.tnum = T then pure bag.entries else throw .access

-- A bag that has been filled is added to the heap.
def newPerm (T : PermTnum) (h : PermHeap) (entries : List Nat) : PermHeap × Nat :=
  ({ h with bags := h.bags ++ [{ tnum := T, entries := entries, storedInv := none }] },
    h.bags.length)

def setStoredInvPerm (h : PermHeap) (perm inv : Nat) : Result PermHeap := do
  let permBag ← h.bag perm
  let invBag ← h.bag inv
  if invBag.tnum = permBag.tnum then
    let bags := h.bags.set perm { permBag with storedInv := some inv }
    let h := { h with bags := bags }
    let invBag ← h.bag inv
    pure { h with bags := h.bags.set inv { invBag with storedInv := some perm } }
  else
    pure h

end PermHeap

def readEntry (pt : List Nat) (i : Nat) : Result Nat :=
  match pt[i]? with
  | some v => pure v
  | none => throw .access

def writeEntry (T : PermTnum) (pt : List Nat) (i v : Nat) : Result (List Nat) :=
  if i < pt.length then pure (pt.set i (T.cast v)) else throw .access

-- The macro `IMAGE`
def IMAGE (i : Nat) (pt : List Nat) (dg : Nat) : Result Nat :=
  if i < dg then readEntry pt i else pure i

def scatter (T : PermTnum) (lo hi : Nat) (idx val : Nat → Result Nat) (pt : List Nat)
    : Result (List Nat) :=
  (List.range' lo (hi - lo)).foldlM (fun pt p => do writeEntry T pt (← idx p) (← val p)) pt

/-!
This section contains the operations for permutations. The types of the entries are parameters of
the functions, as in the source; the functions of `PermOps` choose them from the operands.
-/

namespace PermImpl

def prodPerm (TL TR : PermTnum) (h : PermHeap) (opL opR : Nat) : Result (PermHeap × Nat) := do
  let res := TL.resultType TR
  let ptL ← h.constAddrPerm TL opL
  let ptR ← h.constAddrPerm TR opR
  let degL := ptL.length
  let degR := ptR.length
  if degL = 0 then
    pure (h, opR)
  else if degR = 0 then
    pure (h, opL)
  else
    let degP := if degL < degR then degR else degL
    let ptP := List.replicate degP 0
    if degL ≤ degR then
      let ptP ← scatter res 0 degL pure (fun p => do readEntry ptR (← readEntry ptL p)) ptP
      let ptP ← scatter res degL degR pure (fun p => readEntry ptR p) ptP
      pure (h.newPerm res ptP)
    else
      let ptP ← scatter res 0 degL pure (fun p => do IMAGE (← readEntry ptL p) ptR degR) ptP
      pure (h.newPerm res ptP)

def invPerm (T : PermTnum) (h : PermHeap) (perm : Nat) : Result (PermHeap × Nat) := do
  match (← h.bag perm).storedInv with
  | some inv => pure (h, inv)
  | none =>
    let ptPerm ← h.constAddrPerm T perm
    let deg := ptPerm.length
    let ptInv ← scatter T 0 deg (fun p => readEntry ptPerm p) pure (List.replicate deg 0)
    let (h, inv) := h.newPerm T ptInv
    let h ← h.setStoredInvPerm perm inv
    pure (h, inv)

def lQuoPerm (TL TR : PermTnum) (h : PermHeap) (opL opR : Nat) : Result (PermHeap × Nat) := do
  let res := TL.resultType TR
  let ptL ← h.constAddrPerm TL opL
  let ptR ← h.constAddrPerm TR opR
  let degL := ptL.length
  let degR := ptR.length
  if degL = 0 then
    pure (h, opR)
  else if degR = 0 then
    invPerm TL h opL
  else
    let degM := if degL < degR then degR else degL
    let ptM := List.replicate degM 0
    if degL ≤ degR then
      let ptM ← scatter res 0 degL (fun p => readEntry ptL p) (fun p => readEntry ptR p) ptM
      let ptM ← scatter res degL degR pure (fun p => readEntry ptR p) ptM
      pure (h.newPerm res ptM)
    else
      let ptM ← scatter res 0 degR (fun p => readEntry ptL p) (fun p => readEntry ptR p) ptM
      let ptM ← scatter res degR degL (fun p => readEntry ptL p) pure ptM
      pure (h.newPerm res ptM)

def powPerm (TL TR : PermTnum) (h : PermHeap) (opL opR : Nat) : Result (PermHeap × Nat) := do
  let res := TL.resultType TR
  let ptL ← h.constAddrPerm TL opL
  let ptR ← h.constAddrPerm TR opR
  let degL := ptL.length
  let degR := ptR.length
  if degL = 0 then
    pure (h, h.identityPerm)
  else if degR = 0 then
    pure (h, opL)
  else
    let degC := if degL < degR then degR else degL
    let ptC := List.replicate degC 0
    if degL = degR then
      let ptC ← scatter res 0 degC (fun p => readEntry ptR p)
        (fun p => do readEntry ptR (← readEntry ptL p)) ptC
      pure (h.newPerm res ptC)
    else
      let ptC ← scatter res 0 degC (fun p => IMAGE p ptR degR)
        (fun p => do IMAGE (← IMAGE p ptL degL) ptR degR) ptC
      pure (h.newPerm res ptC)

def commPerm (TL TR : PermTnum) (h : PermHeap) (opL opR : Nat) : Result (PermHeap × Nat) := do
  let res := TL.resultType TR
  let ptL ← h.constAddrPerm TL opL
  let ptR ← h.constAddrPerm TR opR
  let degL := ptL.length
  let degR := ptR.length
  if degL = 0 ∨ degR = 0 then
    pure (h, h.identityPerm)
  else
    let degC := if degL < degR then degR else degL
    let ptC := List.replicate degC 0
    if degL = degR then
      let ptC ← scatter res 0 degC (fun p => do readEntry ptL (← readEntry ptR p))
        (fun p => do readEntry ptR (← readEntry ptL p)) ptC
      pure (h.newPerm res ptC)
    else
      let ptC ← scatter res 0 degC (fun p => do IMAGE (← IMAGE p ptR degR) ptL degL)
        (fun p => do IMAGE (← IMAGE p ptL degL) ptR degR) ptC
      pure (h.newPerm res ptC)

-- The values at the first `p` of the list where `l` and `r` differ.
def difference (l r : Nat → Result Nat) (ps : List Nat) : Result (Option (Nat × Nat)) :=
  match ps with
  | [] => pure none
  | p :: ps => do
    let x ← l p
    let y ← r p
    if x ≠ y then pure (some (x, y)) else difference l r ps

def eqPerm (TL TR : PermTnum) (h : PermHeap) (opL opR : Nat) : Result Bool := do
  let ptL ← h.constAddrPerm TL opL
  let ptR ← h.constAddrPerm TR opR
  let degL := ptL.length
  let degR := ptR.length
  if degL ≤ degR then
    match ← difference (readEntry ptL) (readEntry ptR) (List.range' 0 degL) with
    | some _ => pure false
    | none =>
      match ← difference pure (readEntry ptR) (List.range' degL (degR - degL)) with
      | some _ => pure false
      | none => pure true
  else
    match ← difference (readEntry ptL) (readEntry ptR) (List.range' 0 degR) with
    | some _ => pure false
    | none =>
      match ← difference (readEntry ptL) pure (List.range' degR (degL - degR)) with
      | some _ => pure false
      | none => pure true

def ltPerm (TL TR : PermTnum) (h : PermHeap) (opL opR : Nat) : Result Bool := do
  let ptL ← h.constAddrPerm TL opL
  let ptR ← h.constAddrPerm TR opR
  let degL := ptL.length
  let degR := ptR.length
  if degL ≤ degR then
    match ← difference (readEntry ptL) (readEntry ptR) (List.range' 0 degL) with
    | some (x, y) => pure (x < y)
    | none =>
      match ← difference pure (readEntry ptR) (List.range' degL (degR - degL)) with
      | some (x, y) => pure (x < y)
      | none => pure false
  else
    match ← difference (readEntry ptL) (readEntry ptR) (List.range' 0 degR) with
    | some (x, y) => pure (x < y)
    | none =>
      match ← difference (readEntry ptL) pure (List.range' degR (degL - degR)) with
      | some (x, y) => pure (x < y)
      | none => pure false

def powIntPerm (w : IntSize) (T : PermTnum) (h : PermHeap) (opL : Int) (opR : Nat)
    : Result Int := do
  if w.intIntobjMax < opL then
    pure opL
  else if ¬0 < opL then
    throw (.argument "PowIntPerm" "<point>" "must be a positive integer")
  else
    let pt ← h.constAddrPerm T opR
    if opL ≤ pt.length then
      pure (T.plusOne (← readEntry pt (opL.toNat - 1)))
    else
      pure opL

-- The last point of the cycle before `img`, there are at most `fuel` points on the cycle.
def preimage (T : PermTnum) (pt : List Nat) (img fuel pre : Nat) : Result Nat :=
  match fuel with
  | 0 => throw .access
  | fuel + 1 => do
    let next ← readEntry pt pre
    if next ≠ T.cast img then preimage T pt img fuel next else pure pre

def quoIntPerm (w : IntSize) (T : PermTnum) (h : PermHeap) (opL : Int) (opR : Nat)
    : Result (PermHeap × Int) := do
  if w.intIntobjMax < opL then
    pure (h, opL)
  else if ¬0 < opL then
    throw (.argument "QuoIntPerm" "<point>" "must be a positive integer")
  else
    let pt ← h.constAddrPerm T opR
    let img := opL.toNat - 1
    match (← h.bag opR).storedInv with
    | some inv => viaInverse h inv img
    | none =>
      if isBelowThreshold w h pt.length then
        let (h, inv) ← invPerm T h opR
        viaInverse h inv img
      else if opL ≤ pt.length then
        let pre ← preimage T pt img pt.length (T.cast img)
        pure (h, T.plusOne pre)
      else
        pure (h, opL)
where
  viaInverse (h : PermHeap) (inv img : Nat) : Result (PermHeap × Int) := do
    let ptInv ← h.constAddrPerm T inv
    let pre ← IMAGE img ptInv ptInv.length
    pure (h, pre + 1)
  -- The degree is a `UInt`, so the threshold is converted to a `UInt`.
  isBelowThreshold (w : IntSize) (h : PermHeap) (deg : Nat) : Bool :=
    match h.permInverseThreshold with
    | none => false
    | some threshold => deg ≤ (threshold % 2 ^ w.bits).toNat

end PermImpl

namespace PermOps

open PermImpl

-- The entries of the tables of functions, for two permutations and for one.
def dispatch2 {α : Type} (op : PermTnum → PermTnum → PermHeap → Nat → Nat → Result α)
    (h : PermHeap) (opL opR : Nat) : Result α := do
  op (← h.bag opL).tnum (← h.bag opR).tnum h opL opR

def prod : PermHeap → Nat → Nat → Result (PermHeap × Nat) :=
  dispatch2 prodPerm

def lquo : PermHeap → Nat → Nat → Result (PermHeap × Nat) :=
  dispatch2 lQuoPerm

def pow : PermHeap → Nat → Nat → Result (PermHeap × Nat) :=
  dispatch2 powPerm

def comm : PermHeap → Nat → Nat → Result (PermHeap × Nat) :=
  dispatch2 commPerm

def eq : PermHeap → Nat → Nat → Result Bool :=
  dispatch2 eqPerm

def lt : PermHeap → Nat → Nat → Result Bool :=
  dispatch2 ltPerm

def inv (h : PermHeap) (op : Nat) : Result (PermHeap × Nat) := do
  invPerm (← h.bag op).tnum h op

def quo (h : PermHeap) (opL opR : Nat) : Result (PermHeap × Nat) := do
  let (h, opR) ← inv h opR
  prod h opL opR

def powInt (w : IntSize) (h : PermHeap) (opL : Int) (opR : Nat) : Result Int := do
  powIntPerm w (← h.bag opR).tnum h opL opR

def quoInt (w : IntSize) (h : PermHeap) (opL : Int) (opR : Nat) : Result (PermHeap × Int) := do
  quoIntPerm w (← h.bag opR).tnum h opL opR

end PermOps

def getPositiveSmallIntEx (w : IntSize) (funcname : String) (op : Int) (argname : String)
    : Result Nat :=
  if 0 < op ∧ w.IsSmall op then
    pure op.toNat
  else
    throw (.argument funcname argname "must be a positive small integer")

-- `ResizeBag`, for the entries of a permutation
def resizePerm (pt : List Nat) (deg : Nat) : List Nat :=
  pt.take deg ++ List.replicate (deg - pt.length) 0

namespace PermImpl

def degreeFault : Fault :=
  .quit "Permutation literal exceeds maximum permutation degree" 0 0

def disjointFault : Fault :=
  .quit "Permutation: cycles must be disjoint and duplicate-free" 0 0

/--
The variables of `ScanPermCycle`: the entries of the permutation, the largest entry of the cycles so
far, the previous entry of the cycle and the last one. The last two are 0 at the beginning.
-/
structure CycleScan where
  pt : List Nat
  m : Nat
  p : Nat
  l : Nat
  deriving DecidableEq, Repr

-- If necessary the permutation is resized, in blocks of 1024 entries.
def growPerm (pt : List Nat) (m c : Nat) : Result (List Nat) :=
  if pt.length < c then
    let deg := (c + 1023) / 1024 * 1024
    forLoop (fun k pt => writeEntry .perm4 pt k k) (deg - m) m (resizePerm pt deg)
  else
    pure pt

def scanEntry (w : IntSize) (val : Int) (s : CycleScan) : Result CycleScan := do
  let c ← getPositiveSmallIntEx w "Permutation" val "<expr>"
  if PermTnum.maxDegPerm4 w < c then
    throw degreeFault
  else
    let pt ← growPerm s.pt s.m c
    let m := if s.m < c then c else s.m
    let entry ← readEntry pt (c - 1)
    if (s.p ≠ 0 ∧ s.p = c) ∨ entry ≠ c - 1 then
      throw disjointFault
    else if s.p ≠ 0 then
      let pt ← writeEntry .perm4 pt (c - 1) (s.p - 1)
      pure { pt := pt, m := m, p := c, l := s.l }
    else
      pure { pt := pt, m := m, p := c, l := c }

-- The entries `len`, …, 1 of a cycle.
def scanEntries (w : IntSize) (readElm : Nat → Result Int) : Nat → CycleScan → Result CycleScan
  | 0, s => pure s
  | j + 1, s => do
    let s ← scanEntry w (← readElm (j + 1)) s
    scanEntries w readElm j s

def scanPermCycle (w : IntSize) (pt : List Nat) (m len : Nat) (readElm : Nat → Result Int)
    : Result (List Nat × Nat) := do
  if len = 0 then
    throw .access
  else
    let s ← scanEntries w readElm len { pt := pt, m := m, p := 0, l := 0 }
    let entry ← readEntry s.pt (s.l - 1)
    if entry ≠ s.l - 1 then
      throw disjointFault
    else
      let pt ← writeEntry .perm4 s.pt (s.l - 1) (s.p - 1)
      pure (pt, s.m)

def clearStoredInvPerm (h : PermHeap) (perm : Nat) : Result PermHeap := do
  match (← h.bag perm).storedInv with
  | none => pure h
  | some inv =>
    let h := { h with bags := h.bags.set inv { ← h.bag inv with storedInv := none } }
    pure { h with bags := h.bags.set perm { ← h.bag perm with storedInv := none } }

-- The entries of a `T_PERM4` bag as the memory of a `T_PERM2` bag, the low half of an entry first.
def halves (pt : List Nat) : List Nat :=
  pt.flatMap (fun v => [v % 2 ^ 16, v / 2 ^ 16])

-- `ptr2[k] = ptr4[k]`, where `ptr2` and `ptr4` point to the same memory
def narrowEntry (k : Nat) (ptr2 : List Nat) : Result (List Nat) := do
  let low ← readEntry ptr2 (2 * k)
  let high ← readEntry ptr2 (2 * k + 1)
  writeEntry .perm2 ptr2 k (low + 2 ^ 16 * high)

def trimBag (bag : PermBag) (m : Nat) : Result PermBag := do
  if bag.tnum = .perm2 then
    pure { bag with entries := resizePerm bag.entries m }
  else if m ≤ 65536 then
    let ptr2 ← forLoop narrowEntry m 0 (halves bag.entries)
    pure { bag with tnum := .perm2, entries := resizePerm ptr2 m }
  else
    pure { bag with entries := resizePerm bag.entries m }

def trimPerm (h : PermHeap) (perm m : Nat) : Result PermHeap := do
  let h ← clearStoredInvPerm h perm
  let bag ← trimBag (← h.bag perm) m
  pure { h with bags := h.bags.set perm bag }

-- The cycles are scanned one after the other.
def scanPermCycles (w : IntSize) (pt : List Nat) (m : Nat)
    : List (Nat × (Nat → Result Int)) → Result (List Nat × Nat)
  | [] => pure (pt, m)
  | (len, readElm) :: cycles => do
    let (pt, m) ← scanPermCycle w pt m len readElm
    scanPermCycles w pt m cycles

/--
The permutation for a list of cycles, of which the lengths and the functions that read the entries
are given.
-/
def permOfCycles (w : IntSize) (h : PermHeap) (cycles : List (Nat × (Nat → Result Int)))
    : Result (PermHeap × Nat) := do
  if cycles.length = 0 then
    pure (h, h.identityPerm)
  else
    let (pt, m) ← scanPermCycles w [] 0 cycles
    let (h, perm) := h.newPerm .perm4 pt
    let h ← trimPerm h perm m
    pure (h, perm)

end PermImpl

namespace PermOps

open PermImpl

def elmList (cycle : List Int) (j : Nat) : Result Int :=
  match cycle[j - 1]? with
  | some val => pure val
  | none => throw .access

def array2Perm (w : IntSize) (h : PermHeap) (array : List (List Int))
    : Result (PermHeap × Nat) :=
  permOfCycles w h (array.map (fun cycle => (cycle.length, elmList cycle)))

-- An expression stands for what its evaluation returns.
def getFromExpr (cycle : List (Result Int)) (j : Nat) : Result Int :=
  match cycle[j - 1]? with
  | some expr => expr
  | none => throw .access

def evalPermExpr (w : IntSize) (h : PermHeap) (expr : List (List (Result Int)))
    : Result (PermHeap × Nat) :=
  permOfCycles w h (expr.map (fun cycle => (cycle.length, getFromExpr cycle)))

end PermOps
