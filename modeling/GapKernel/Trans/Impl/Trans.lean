import GapKernel.Bytes
import GapKernel.Permutat.Impl.Perm
import GapKernel.PlistKTNum

/-!
This module contains the bags of transformations. The entries of a bag are 16 or 32 bits wide. The
image set, the flat kernel and the degree are stored in the bag when they have been computed.
-/

inductive TransTnum where
  | trans2
  | trans4
  deriving DecidableEq, Repr

-- `T_TRANS`, permutations and transformations have the same types of entries.
def PermTnum.transTnum (T : PermTnum) : TransTnum :=
  match T with
  | .perm2 => .trans2
  | .perm4 => .trans4

def TransTnum.dataType (tnum : TransTnum) : PermTnum :=
  match tnum with
  | .trans2 => .perm2
  | .trans4 => .perm4

def PermTnum.sizeof (T : PermTnum) : Nat :=
  match T with
  | .perm2 => 2
  | .perm4 => 4

structure IntPlist where
  tnum : PlistKTNum
  entries : List Nat
  deriving DecidableEq, Repr

structure TransBag where
  tnum : TransTnum
  img : Option IntPlist
  ker : Option IntPlist
  ext : Option Nat
  entries : List Nat
  deriving DecidableEq, Repr

def newTrans (T : PermTnum) (entries : List Nat) : TransBag where
  tnum := T.transTnum
  img := none
  ker := none
  ext := none
  entries := entries

def constAddrTrans (T : PermTnum) (f : TransBag) : Result (List Nat) :=
  if f.tnum = T.transTnum then return f.entries else throw .access

-- `CONST_ADDR_PERM`
def constAddrPermBag (T : PermTnum) (p : PermBag) : Result (List Nat) :=
  if p.tnum = T then return p.entries else throw .access

/-!
This section contains the degree of a transformation, the reduction of a bag to the degree, and the
hash value, which is computed after such a reduction.
-/

namespace TransImpl

-- The largest point that is moved or is the image of another point.
def degreeLoop (T : PermTnum) (ptf : List Nat) : Nat → Nat → Nat → Result Nat :=
  forLoop fun i deg => do
    let img ← readEntry ptf i
    if img > i ∧ T.plusOne img > deg then
      return T.plusOne img
    else if img < i ∧ i + 1 > deg then
      return i + 1
    else
      return deg

/--
The entry before the first one is a part of the slot for the degree, which is `NULL` here.
-/
def lastEntry (ptf : List Nat) (n : Nat) : Result Nat :=
  if n = 0 then return 0 else readEntry ptf (n - 1)

-- `n - 1` for a `UInt`.
def uintPred (w : IntSize) (n : Nat) : Nat :=
  if n = 0 then 2 ^ w.bits - 1 else n - 1

def funcDegreeOfTransformation (w : IntSize) (f : TransBag) : Result (TransBag × Nat) := do
  match f.ext with
  | some deg => return (f, deg)
  | none =>
    let n := f.entries.length
    let ptf ← constAddrTrans f.tnum.dataType f
    if (← lastEntry ptf n) ≠ uintPred w n then
      return ({ f with ext := some n }, n)
    else
      let deg ← degreeLoop f.tnum.dataType ptf n 0 0
      return ({ f with ext := some deg }, deg)

-- The entries with 32 bits become entries with 16 bits at the same place.
def narrow (o : ByteOrder) (deg : Nat) (mem : List Nat) : Result (List Nat) :=
  forLoop (fun i mem => do
    let v ← Bytes.readMem o 4 mem (4 * i)
    Bytes.writeMem o 2 mem (2 * i) (PermTnum.perm2.cast v)) deg 0 mem

def funcTrimTrans (o : ByteOrder) (f : TransBag) (deg : Nat) : Result TransBag := do
  if deg > f.entries.length then
    return f
  else
    match f.tnum with
    | .trans2 =>
      return { tnum := .trans2, img := none, ker := none, ext := none, entries := f.entries.take deg }
    | .trans4 =>
      if deg > 65536 then
        return { tnum := .trans4, img := none, ker := none, ext := none,
                 entries := f.entries.take deg }
      else
        let mem ← narrow o deg (Bytes.ofEntries o 4 f.entries)
        return { tnum := .trans2, img := none, ker := none, ext := none,
                 entries := Bytes.entries o 2 deg (mem.take (2 * deg)) }

def hashFuncForTrans (w : IntSize) (o : ByteOrder) (hashkeyMem : List Nat → Nat → Int)
    (f : TransBag) : Result (TransBag × Int) := do
  let (f, deg) ← funcDegreeOfTransformation w f
  match f.tnum with
  | .trans4 =>
    if deg ≤ 65536 then
      let f ← funcTrimTrans o f deg
      return (f, ← hashBag f (2 * deg))
    else
      return (f, ← hashBag f (4 * deg))
  | .trans2 => return (f, ← hashBag f (2 * deg))
where
  -- `HASHKEY_BAG_NC` behind the three slots, the number of bytes is an `int`
  hashBag (f : TransBag) (read : Nat) : Result Int :=
    hashkeyBagNC hashkeyMem (Bytes.ofEntries o f.tnum.dataType.sizeof f.entries) 255 0
      (toInt32 (read % 2 ^ w.bits))

end TransImpl

/-!
This section contains the comparisons and the products of transformations, and the products with
permutations. The types of the entries are parameters of the functions, as in the source; the
functions of `TransOps` choose them from the operands.
-/

namespace TransImpl

open PermImpl (difference)

-- `EqTrans22` and `EqTrans44`
def eqTrans (o : ByteOrder) (T : PermTnum) (opL opR : TransBag) : Result Bool := do
  let ptL ← constAddrTrans T opL
  let ptR ← constAddrTrans T opR
  let degL := ptL.length
  let degR := ptR.length
  if ← lastDiffers ptL ptR then
    return false
  else if degL ≤ degR then
    match ← difference (readEntry ptR) pure (List.range' degL (degR - degL)) with
    | some _ => return false
    | none => return (← memcmp ptL ptR degL) = 0
  else
    match ← difference (readEntry ptL) pure (List.range' degR (degL - degR)) with
    | some _ => return false
    | none => return (← memcmp ptL ptR degR) = 0
where
  -- The early check of the last entry of the longer bag.
  lastDiffers (ptL ptR : List Nat) : Result Bool := do
    if ptL.length < ptR.length then
      return (← readEntry ptR (ptR.length - 1)) ≠ ptR.length - 1
    else if ptR.length < ptL.length then
      return (← readEntry ptL (ptL.length - 1)) ≠ ptL.length - 1
    else
      return false
  memcmp (ptL ptR : List Nat) (deg : Nat) : Result Int :=
    Bytes.memcmp (Bytes.ofEntries o T.sizeof ptL) (Bytes.ofEntries o T.sizeof ptR) (deg * T.sizeof)

def eqTrans22 (o : ByteOrder) : TransBag → TransBag → Result Bool :=
  eqTrans o .perm2

def eqTrans44 (o : ByteOrder) : TransBag → TransBag → Result Bool :=
  eqTrans o .perm4

def eqTrans24 (f g : TransBag) : Result Bool := do
  let ptf ← constAddrTrans .perm2 f
  let ptg ← constAddrTrans .perm4 g
  let degF := ptf.length
  let degG := ptg.length
  if degF ≤ degG then
    match ← difference (readEntry ptf) (readEntry ptg) (List.range' 0 degF) with
    | some _ => return false
    | none =>
      match ← difference (readEntry ptg) pure (List.range' degF (degG - degF)) with
      | some _ => return false
      | none => return true
  else
    match ← difference (readEntry ptf) (readEntry ptg) (List.range' 0 degG) with
    | some _ => return false
    | none =>
      match ← difference (readEntry ptf) pure (List.range' degG (degF - degG)) with
      | some _ => return false
      | none => return true

def eqTrans42 (f g : TransBag) : Result Bool :=
  eqTrans24 g f

def ltTrans (TF TG : PermTnum) (f g : TransBag) : Result Bool := do
  let ptf ← constAddrTrans TF f
  let ptg ← constAddrTrans TG g
  let degF := ptf.length
  let degG := ptg.length
  if degF ≤ degG then
    match ← difference (readEntry ptf) (readEntry ptg) (List.range' 0 degF) with
    | some (x, y) => return x < y
    | none =>
      match ← difference pure (readEntry ptg) (List.range' degF (degG - degF)) with
      | some (x, y) => return x < y
      | none => return false
  else
    match ← difference (readEntry ptf) (readEntry ptg) (List.range' 0 degG) with
    | some (x, y) => return x < y
    | none =>
      match ← difference (readEntry ptf) pure (List.range' degG (degF - degG)) with
      | some (x, y) => return x < y
      | none => return false

def prodTrans (TF TG : PermTnum) (f g : TransBag) : Result TransBag := do
  let res := TF.resultType TG
  let ptf ← constAddrTrans TF f
  let ptg ← constAddrTrans TG g
  let degF := ptf.length
  let degG := ptg.length
  let ptfg := List.replicate (max degF degG) 0
  if degF ≤ degG then
    let ptfg ← scatter res 0 degF pure (fun i => do readEntry ptg (← readEntry ptf i)) ptfg
    let ptfg ← scatter res degF degG pure (fun i => readEntry ptg i) ptfg
    return newTrans res ptfg
  else
    let ptfg ← scatter res 0 degF pure (fun i => do IMAGE (← readEntry ptf i) ptg degG) ptfg
    return newTrans res ptfg

def prodTransPerm (TF TP : PermTnum) (f : TransBag) (p : PermBag) : Result TransBag := do
  let res := TF.resultType TP
  let ptp ← constAddrPermBag TP p
  let ptf ← constAddrTrans TF f
  let degP := ptp.length
  let degF := ptf.length
  let ptfp := List.replicate (max degF degP) 0
  if degF ≤ degP then
    let ptfp ← scatter res 0 degF pure (fun i => do readEntry ptp (← readEntry ptf i)) ptfp
    let ptfp ← scatter res degF degP pure (fun i => readEntry ptp i) ptfp
    return newTrans res ptfp
  else
    let ptfp ← scatter res 0 degF pure (fun i => do IMAGE (← readEntry ptf i) ptp degP) ptfp
    return newTrans res ptfp

def prodPermTrans (TP TF : PermTnum) (p : PermBag) (f : TransBag) : Result TransBag := do
  let res := TF.resultType TP
  let ptp ← constAddrPermBag TP p
  let ptf ← constAddrTrans TF f
  let degP := ptp.length
  let degF := ptf.length
  let ptpf := List.replicate (max degF degP) 0
  if degP ≤ degF then
    let ptpf ← scatter res 0 degP pure (fun i => do readEntry ptf (← readEntry ptp i)) ptpf
    let ptpf ← scatter res degP degF pure (fun i => readEntry ptf i) ptpf
    return newTrans res ptpf
  else
    let ptpf ← scatter res 0 degP pure (fun i => do IMAGE (← readEntry ptp i) ptf degF) ptpf
    return newTrans res ptpf

def powTransPerm (TF TP : PermTnum) (f : TransBag) (p : PermBag) : Result TransBag := do
  let res := TF.resultType TP
  let ptp ← constAddrPermBag TP p
  let ptf ← constAddrTrans TF f
  let degP := ptp.length
  let degF := ptf.length
  let decnj := max degP degF
  let ptcnj := List.replicate decnj 0
  if degF = degP then
    let ptcnj ← scatter res 0 decnj (fun i => readEntry ptp i)
      (fun i => do readEntry ptp (← readEntry ptf i)) ptcnj
    return newTrans res ptcnj
  else
    let ptcnj ← scatter res 0 decnj (fun i => IMAGE i ptp degP)
      (fun i => do IMAGE (← IMAGE i ptf degF) ptp degP) ptcnj
    return newTrans res ptcnj

def lQuoPermTrans (TL TR : PermTnum) (opL : PermBag) (opR : TransBag) : Result TransBag := do
  let res := TL.resultType TR
  let ptL ← constAddrPermBag TL opL
  let ptR ← constAddrTrans TR opR
  let degL := ptL.length
  let degR := ptR.length
  let degM := if degL < degR then degR else degL
  let ptM := List.replicate degM 0
  if degL ≤ degR then
    let ptM ← scatter res 0 degL (fun p => readEntry ptL p) (fun p => readEntry ptR p) ptM
    let ptM ← scatter res degL degR pure (fun p => readEntry ptR p) ptM
    return newTrans res ptM
  else
    let ptM ← scatter res 0 degR (fun p => readEntry ptL p) (fun p => readEntry ptR p) ptM
    let ptM ← scatter res degR degL (fun p => readEntry ptL p) pure ptM
    return newTrans res ptM

end TransImpl

namespace TransOps

open TransImpl

def eq (o : ByteOrder) (f g : TransBag) : Result Bool :=
  match f.tnum, g.tnum with
  | .trans2, .trans2 => eqTrans22 o f g
  | .trans2, .trans4 => eqTrans24 f g
  | .trans4, .trans2 => eqTrans42 f g
  | .trans4, .trans4 => eqTrans44 o f g

def lt (f g : TransBag) : Result Bool :=
  ltTrans f.tnum.dataType g.tnum.dataType f g

def prod (f g : TransBag) : Result TransBag :=
  prodTrans f.tnum.dataType g.tnum.dataType f g

def prodPerm (f : TransBag) (p : PermBag) : Result TransBag :=
  prodTransPerm f.tnum.dataType p.tnum f p

def permProd (p : PermBag) (f : TransBag) : Result TransBag :=
  prodPermTrans p.tnum f.tnum.dataType p f

def pow (f : TransBag) (p : PermBag) : Result TransBag :=
  powTransPerm f.tnum.dataType p.tnum f p

def permLquo (p : PermBag) (f : TransBag) : Result TransBag :=
  lQuoPermTrans p.tnum f.tnum.dataType p f

end TransOps
