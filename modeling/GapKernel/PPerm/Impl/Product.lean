import GapKernel.Plist
import GapKernel.Trans.Impl.Trans

/-!
This module contains the bags of partial permutations. A bag has the codegree and the images, an
image is `0` where the partial permutation is not defined. The domain and the image set are stored
in the bag when they have been computed.
-/

inductive PPermTnum where
  | pperm2
  | pperm4
  deriving DecidableEq, Repr

def PPermTnum.dataType (tnum : PPermTnum) : PermTnum :=
  match tnum with
  | .pperm2 => .perm2
  | .pperm4 => .perm4

-- `T_PPERM`, permutations and partial permutations have the same types of entries.
def PermTnum.ppermTnum (T : PermTnum) : PPermTnum :=
  match T with
  | .perm2 => .pperm2
  | .perm4 => .pperm4

structure PPermBag where
  tnum : PPermTnum
  img : Option (List Nat)
  dom : Option (List Nat)
  codeg : Nat
  entries : List Nat
  deriving DecidableEq, Repr

namespace PPermImpl

-- A bag that has been filled, with `SET_CODEG_PPERM`.
def newPPerm (T : PermTnum) (entries : List Nat) (codeg : Nat) : PPermBag where
  tnum := T.ppermTnum
  img := none
  dom := none
  codeg := T.cast codeg
  entries := entries

-- The slots of the global variable are not used.
def emptyPartialPerm : PPermBag :=
  newPPerm .perm2 [] 0

def constAddrPPerm (T : PermTnum) (f : PPermBag) : Result (List Nat) :=
  if f.tnum = T.ppermTnum then return f.entries else throw .access

/--
The codegree is computed for the empty partial permutation only, for which the same value is stored
again.
-/
def codegPPerm (f : PPermBag) : Nat :=
  if f.codeg ≠ 0 then f.codeg else f.entries.foldl max 0

-- The points where `f` is defined, the points of an entry are counted from 1.
def initLoop (ptf : List Nat) : Nat → Nat → List Nat × List Nat → Result (List Nat × List Nat) :=
  forLoop fun i s => do
    let img ← readEntry ptf i
    if img ≠ 0 then
      return (s.1 ++ [i + 1], s.2 ++ [img])
    else
      return s

def initPPerm (f : PPermBag) : Result (PPermBag × Nat) := do
  let deg := f.entries.length
  if deg = 0 then
    return ({ f with dom := some [], img := some [] }, deg)
  else
    let s ← initLoop f.entries deg 0 ([], [])
    return ({ f with dom := some s.1, img := some s.2 }, s.1.length)

def rankPPerm (f : PPermBag) : Result (PPermBag × Nat) :=
  match f.img with
  | none => initPPerm f
  | some img => return (f, img.length)

-- `v - 1` as an index, which may not be negative.
def index (v : Nat) : Result Nat :=
  if v = 0 then throw .access else return v - 1

-- The macro `IMAGEPP`
def imagePP (i : Nat) (ptf : List Nat) (deg : Nat) : Result Nat := do
  if i ≤ deg then readEntry ptf (← index i) else return 0

-- A loop over the domain, of which the length has been read as the rank.
def domLoop {σ : Type} (dom : List Nat) (rank : Nat) (body : Nat → σ → Result σ)
    : σ → Result σ :=
  forLoop (fun i s => do body (← index (← elmPlist dom i)) s) rank 1

/--
The loop over the points where `f` is defined: over all points if the domain is not known, and over
the domain otherwise. The second argument of `body` is the image.
-/
def eachPoint {σ : Type} (f : PPermBag) (ptf : List Nat) (body : Nat → Nat → σ → Result σ) (s : σ)
    : Result σ := do
  match f.dom with
  | none =>
    forLoop (fun i s => do
      let v ← readEntry ptf i
      if v ≠ 0 then body i v s else return s) ptf.length 0 s
  | some dom =>
    let (_, rank) ← rankPPerm f
    domLoop dom rank (fun j s => do
      let v ← readEntry ptf j
      body j v s) s

def domBreakLoop {σ : Type} (dom : List Nat) (len : Nat) (body : Nat → σ → Result (σ × Bool))
    : σ → Result σ :=
  breakLoop (fun i s => do body (← index (← elmPlist dom i)) s) len 1

structure FillState where
  entries : List Nat
  codeg : Nat

-- An entry is written, and its value is compared to the codegree.
def store (T : PermTnum) (s : FillState) (i v : Nat) : Result FillState := do
  let entries ← writeEntry T s.entries i v
  let v ← readEntry entries i
  return ⟨entries, if v > s.codeg then v else s.codeg⟩

-- An entry is written, and `img` is compared to the codegree.
def storeImg (T : PermTnum) (s : FillState) (i img : Nat) : Result FillState := do
  let entries ← writeEntry T s.entries i img
  return ⟨entries, if img > s.codeg then img else s.codeg⟩

end PPermImpl

/-!
This section contains the comparisons of partial permutations and their hash value. The types of the
entries are parameters of the functions, as in the source.
-/

namespace PPermImpl

-- The rounds end at the first entries that differ.
def differLoop (ptf ptg : List Nat) : Nat → Nat → Option (Nat × Nat) → Result (Option (Nat × Nat)) :=
  breakLoop (differRound ptf ptg)
where
  differRound (ptf ptg : List Nat) (i : Nat) (_ : Option (Nat × Nat))
      : Result (Option (Nat × Nat) × Bool) := do
    let x ← readEntry ptf i
    let y ← readEntry ptg i
    if x ≠ y then return (some (x, y), true) else return (none, false)

def eqPPerm (TF TG : PermTnum) (f g : PPermBag) : Result Bool := do
  let ptf ← constAddrPPerm TF f
  let ptg ← constAddrPPerm TG g
  let deg := ptf.length
  if deg ≠ ptg.length ∨ codegPPerm f ≠ codegPPerm g then
    return false
  else
    match f.dom, g.dom with
    | some dom, some _ =>
      let (_, rankf) ← rankPPerm f
      let (_, rankg) ← rankPPerm g
      if rankf ≠ rankg then
        return false
      else
        return (← domBreakLoop dom rankf (differLoop.differRound ptf ptg) none).isNone
    | _, _ => return (← differLoop ptf ptg deg 0 none).isNone

def ltPPerm (TF TG : PermTnum) (f g : PPermBag) : Result Bool := do
  let ptf ← constAddrPPerm TF f
  let ptg ← constAddrPPerm TG g
  let deg := ptf.length
  if deg ≠ ptg.length then
    return deg < ptg.length
  else
    match ← differLoop ptf ptg deg 0 none with
    | some (x, y) => return x < y
    | none => return false

-- The codegree and the entries become entries with 16 bits at the same place.
def funcTrimPPerm (o : ByteOrder) (f : PPermBag) : Result PPermBag := do
  if f.tnum ≠ .pperm4 ∨ codegPPerm f > 65535 then
    return f
  else
    let deg := f.entries.length
    let mem ← TransImpl.narrow o (deg + 1) (Bytes.ofEntries o 4 (f.codeg :: f.entries))
    match Bytes.entries o 2 (deg + 1) (mem.take (2 * (deg + 1))) with
    | codeg :: entries => return { f with tnum := .pperm2, codeg := codeg, entries := entries }
    | [] => throw .access

def hashFuncForPPerm (w : IntSize) (o : ByteOrder) (hashkeyMem : List Nat → Nat → Int)
    (f : PPermBag) : Result (PPermBag × Int) := do
  match f.tnum with
  | .pperm4 =>
    if codegPPerm f < 65536 then
      let f ← funcTrimPPerm o f
      return (f, ← hashBag f (2 * f.entries.length))
    else
      return (f, ← hashBag f (4 * f.entries.length))
  | .pperm2 => return (f, ← hashBag f (2 * f.entries.length))
where
  -- `HASHKEY_BAG_NC` behind the slots and the codegree, the number of bytes is an `int`
  hashBag (f : PPermBag) (read : Nat) : Result Int :=
    hashkeyBagNC hashkeyMem (Bytes.ofEntries o f.tnum.dataType.sizeof f.entries) 255 0
      (toInt32 (read % 2 ^ w.bits))

end PPermImpl

namespace PPermImpl

-- The loop that finds the degree of a product. The image under the second factor is read with
-- `IMAGEPP`.
def prodDegree (ptf ptg : List Nat) (degg : Nat) : Nat → Result Nat
  | 0 => return 0
  | deg + 1 => do
    let v ← readEntry ptf deg
    if v = 0 then
      prodDegree ptf ptg degg deg
    else if (← imagePP v ptg degg) = 0 then
      prodDegree ptf ptg degg deg
    else
      return deg + 1

-- The rounds of a product over the domain, and over all points.
def prodDomRound (T : PermTnum) (ptf ptg : List Nat) (deg degg j : Nat) (s : FillState)
    : Result FillState := do
  if j < deg then
    let v ← readEntry ptf j
    if v ≤ degg then store T s j (← readEntry ptg (← index v)) else return s
  else
    return s

def prodDegRound (T : PermTnum) (ptf ptg : List Nat) (degg i : Nat) (s : FillState)
    : Result FillState := do
  let v ← readEntry ptf i
  if v ≠ 0 ∧ v ≤ degg then store T s i (← readEntry ptg (← index v)) else return s

def prodFill (T : PermTnum) (f : PPermBag) (ptf ptg : List Nat) (deg degg : Nat)
    : Result FillState := do
  match f.dom with
  | some dom =>
    let (_, rank) ← rankPPerm f
    domLoop dom rank (prodDomRound T ptf ptg deg degg) ⟨List.replicate deg 0, 0⟩
  | none =>
    forLoop (prodDegRound T ptf ptg degg) deg 0 ⟨List.replicate deg 0, 0⟩

def prodPPerm (TF TG : PermTnum) (f g : PPermBag) : Result PPermBag := do
  let ptf ← constAddrPPerm TF f
  let ptg ← constAddrPPerm TG g
  let degg := ptg.length
  if ptf.length = 0 ∨ degg = 0 then
    return emptyPartialPerm
  else
    let deg ← prodDegree ptf ptg degg ptf.length
    if deg = 0 then
      return emptyPartialPerm
    else
      let s ← prodFill TG f ptf ptg deg degg
      return newPPerm TG s.entries s.codeg

-- The loops of the products with a permutation. The images are below the degree of the permutation,
-- and the codegree is computed.
def permFill (T : PermTnum) (f : PPermBag) (ptf ptp : List Nat) : Result FillState :=
  eachPoint f ptf (fun j v s => do
    let img ← readEntry ptp (← index v)
    store T s j (img + 1)) ⟨List.replicate ptf.length 0, 0⟩

-- The images may be fixed points beyond the degree of the permutation.
def permFillImage (T : PermTnum) (f : PPermBag) (ptf ptp : List Nat) : Result (List Nat) :=
  eachPoint f ptf (fun j v pt => do
    let img ← IMAGE (← index v) ptp ptp.length
    writeEntry T pt j (img + 1)) (List.replicate ptf.length 0)

def prodPPerm2Perm2 (f : PPermBag) (p : PermBag) : Result PPermBag := do
  let ptf ← constAddrPPerm .perm2 f
  let ptp ← constAddrPermBag .perm2 p
  let dep := ptp.length
  let codeg := codegPPerm f
  if dep < 65536 then
    if codeg ≤ dep then
      let s ← permFill .perm2 f ptf ptp
      return newPPerm .perm2 s.entries s.codeg
    else
      let ptfp ← permFillImage .perm2 f ptf ptp
      return newPPerm .perm2 ptfp codeg
  else
    let s ← permFill .perm4 f ptf ptp
    return newPPerm .perm4 s.entries s.codeg

def prodPPerm4Perm4 (f : PPermBag) (p : PermBag) : Result PPermBag := do
  let ptf ← constAddrPPerm .perm4 f
  let ptp ← constAddrPermBag .perm4 p
  let dep := ptp.length
  let codeg := codegPPerm f
  if codeg ≤ dep then
    let s ← permFill .perm4 f ptf ptp
    return newPPerm .perm4 s.entries s.codeg
  else
    let ptfp ← permFillImage .perm4 f ptf ptp
    return newPPerm .perm4 ptfp codeg

-- The codegree is not compared to the degree of the permutation.
def prodPPerm2Perm4 (f : PPermBag) (p : PermBag) : Result PPermBag := do
  let ptf ← constAddrPPerm .perm2 f
  let ptp ← constAddrPermBag .perm4 p
  let s ← permFill .perm4 f ptf ptp
  return newPPerm .perm4 s.entries s.codeg

-- The codegree is the one of `f`.
def prodPPerm4Perm2 (f : PPermBag) (p : PermBag) : Result PPermBag := do
  let ptf ← constAddrPPerm .perm4 f
  let ptp ← constAddrPermBag .perm2 p
  let codeg := codegPPerm f
  let ptfp ← permFillImage .perm4 f ptf ptp
  return newPPerm .perm4 ptfp codeg

-- The loop that finds the degree of a product with a permutation on the left. It has no test for
-- the first point.
def permProdDegree (ptp ptf : List Nat) (degf : Nat) : Nat → Result Nat
  | 0 => throw .access
  | degp + 1 => do
    let j ← readEntry ptp degp
    if j ≥ degf then
      permProdDegree ptp ptf degf degp
    else if (← readEntry ptf j) = 0 then
      permProdDegree ptp ptf degf degp
    else
      return degp + 1

def prodPermPPerm (TP TF : PermTnum) (p : PermBag) (f : PPermBag) : Result PPermBag := do
  let ptf ← constAddrPPerm TF f
  let ptp ← constAddrPermBag TP p
  let degf := ptf.length
  let degp := ptp.length
  if degf = 0 then
    return emptyPartialPerm
  else if degp < degf then
    let ptpf ← forLoop (fun i pt => do writeEntry TF pt i (← readEntry ptf (← readEntry ptp i)))
      degp 0 (List.replicate degf 0)
    let ptpf ← forLoop (fun i pt => do writeEntry TF pt i (← readEntry ptf i))
      (degf - degp) degp ptpf
    return newPPerm TF ptpf (codegPPerm f)
  else
    let degp ← permProdDegree ptp ptf degf degp
    let ptpf ← forLoop (fun i pt => do
      let j ← readEntry ptp i
      if j < degf then writeEntry TF pt i (← readEntry ptf j) else return pt)
      degp 0 (List.replicate degp 0)
    return newPPerm TF ptpf (codegPPerm f)

end PPermImpl
