import GapKernel.PPerm.Impl.Components
import GapKernel.Trans.Impl.Kernel

/-!
This module contains the index and the period of a transformation, and its components and cycles as
a functional digraph. The entries of the temporary bag are labels of the points, 0 is for the points
that have not been seen. There are also an inverse of a transformation, and the functions that
compare the images and the kernels of transformations up to a permutation.
-/

namespace TransImpl

section Loops

variable {σ : Type}

-- `for (...; seen[pt] == label; pt = ptf[pt])`
def labelLoop (ptf : List Nat) (label : Nat) (body : Nat → List Nat × σ → Result (List Nat × σ))
    : Nat → Nat → List Nat × σ → Result (Nat × List Nat × σ)
  | 0, _, _ => throw .fuel
  | fuel + 1, pt, s => do
    if (← readEntry s.1 pt) = label then
      let s ← body pt s
      labelLoop ptf label body fuel (← readEntry ptf pt) s
    else
      return (pt, s)

-- `do { ...; pt = ptf[pt]; } while (seen[pt] == label);`
def doLabelLoop (ptf : List Nat) (label : Nat) (body : Nat → List Nat × σ → Result (List Nat × σ))
    (fuel pt : Nat) (s : List Nat × σ) : Result (Nat × List Nat × σ) := do
  let s ← body pt s
  labelLoop ptf label body fuel (← readEntry ptf pt) s

-- `seen[pt] = v`, and what else is done for the point.
def setLabel (v : Nat) (upd : Nat → σ → σ) (pt : Nat) (s : List Nat × σ)
    : Result (List Nat × σ) := do
  return (← writeEntry .perm4 s.1 pt v, upd pt s.2)

end Loops

structure PeriodState where
  seen : List Nat
  pow : Nat
  ord : Nat

-- The distance from the cycle plus one of the point where a walk with `len` points begins.
def periodDist (ptf : List Nat) (deg pt len ord : Nat) (seen : List Nat)
    : Result (Nat × List Nat × Nat) := do
  let label ← readEntry seen pt
  if label ≤ deg then
    return (label + len, seen, ord)
  else
    let (_, seen, cyc) ← labelLoop ptf (deg + 1) (setLabel 1 fun _ cyc => cyc + 1) (deg + 1) pt
      (seen, 0)
    return (len - cyc + 1, seen, ord.lcm cyc)

-- `for (pt = i; pt != last_pt; pt = ptf[pt]) seen[pt] = dist--;`
def distLoop (ptf : List Nat) (lastPt : Nat) : Nat → Nat → List Nat → Nat → Result (List Nat)
  | 0, _, _, _ => throw .fuel
  | fuel + 1, pt, seen, dist => do
    if pt ≠ lastPt then
      let seen ← writeEntry .perm4 seen pt dist
      distLoop ptf lastPt fuel (← readEntry ptf pt) seen (dist - 1)
    else
      return seen

def periodRound (ptf : List Nat) (deg i : Nat) (s : PeriodState) : Result PeriodState := do
  if (← readEntry s.seen i) = 0 then
    let (pt, seen, len) ← labelLoop ptf 0 (setLabel (deg + 1) fun _ len => len + 1) (deg + 1) i
      (s.seen, 0)
    let (dist, seen, ord) ← periodDist ptf deg pt len s.ord seen
    let pow := if dist > s.pow then dist else s.pow
    return ⟨← distLoop ptf pt (deg + 1) i seen dist, pow, ord⟩
  else
    return s

def funcIndexPeriodOfTransformation (w : IntSize) (f : TransBag)
    : Result (TransBag × Nat × Nat) := do
  let (f, deg) ← funcDegreeOfTransformation w f
  if deg = 0 then
    return (f, 1, 1)
  else
    let ptf ← constAddrTrans f.tnum.dataType f
    let s ← forLoop (periodRound ptf deg) deg 0 ⟨resizeInitTmpTrans deg, 2, 1⟩
    return (f, s.pow - 1, s.ord)

-- The loop is the one for partial permutations.
def funcSmallestIdemPowTrans (w : IntSize) (f : TransBag) : Result (TransBag × Nat) := do
  let (f, ind, per) ← funcIndexPeriodOfTransformation w f
  let pow ← PPermImpl.idemLoop ind per (ind + 1) per
  return (f, pow)

-- The state is the temporary bag, `m` and `nr`.
def nrRound (ptf : List Nat) (deg i : Nat) (s : List Nat × Nat × Nat)
    : Result (List Nat × Nat × Nat) := do
  if (← readEntry s.1 i) = 0 then
    let m := s.2.1 + 1
    let (j, seen, _) ← labelLoop ptf 0 (setLabel m fun _ _ => ()) (deg + 1) i (s.1, ())
    return (seen, m, if (← readEntry seen j) = m then s.2.2 + 1 else s.2.2)
  else
    return s

def funcNrComponentsTrans (w : IntSize) (f : TransBag) : Result (TransBag × Nat) := do
  let (f, deg) ← funcDegreeOfTransformation w f
  let ptf ← constAddrTrans f.tnum.dataType f
  let s ← forLoop (nrRound ptf deg) deg 0 (resizeInitTmpTrans deg, 0, 0)
  return (f, s.2.2)

-- The points are put on the list `comp` from the position `pos` on.
def listPoint (index pt : Nat) (s : List Nat × List Nat × Nat)
    : Result (List Nat × List Nat × Nat) := do
  let comp ← setElmPlist s.2.1 s.2.2 (pt + 1)
  return (← writeEntry .perm4 s.1 pt index, comp, s.2.2 + 1)

-- The state is the temporary bag and the components, there are `nr` of them.
def componentsRound (ptf : List Nat) (deg i : Nat) (s : List Nat × List (List Nat))
    : Result (List Nat × List (List Nat)) := do
  if (← readEntry s.1 i) = 0 then
    let (pt, seen, csize) ← doLabelLoop ptf 0 (setLabel (deg + 1) fun _ csize => csize + 1)
      (deg + 1) i (s.1, 0)
    let label ← readEntry seen pt
    if label ≤ deg then
      let comp ← elmPlist s.2 label
      let (_, seen, comp, _) ← labelLoop ptf (deg + 1) (listPoint label) (deg + 1) i
        (seen, comp ++ List.replicate csize 0, comp.length + 1)
      return (seen, ← setElmPlist s.2 label comp)
    else
      let (_, seen, comp, _) ← labelLoop ptf (deg + 1) (listPoint (s.2.length + 1)) (deg + 1) i
        (seen, List.replicate csize 0, 1)
      return (seen, s.2 ++ [comp])
  else
    return s

def funcComponentsTrans (w : IntSize) (f : TransBag) : Result (TransBag × List (List Nat)) := do
  let (f, deg) ← funcDegreeOfTransformation w f
  if deg = 0 then
    return (f, [])
  else
    let ptf ← constAddrTrans f.tnum.dataType f
    let s ← forLoop (componentsRound ptf deg) deg 0 (resizeInitTmpTrans deg, [])
    return (f, s.2)

-- The cycle that a walk has come to, if it has not been seen before.
def newCycle (ptf : List Nat) (deg pt : Nat) (s : List Nat × List (List Nat))
    : Result (List Nat × List (List Nat)) := do
  if (← readEntry s.1 pt) = 1 then
    let (_, seen, comp) ← labelLoop ptf 1 (setLabel 2 fun pt comp => comp ++ [pt + 1]) (deg + 1) pt
      (s.1, [])
    return (seen, s.2 ++ [comp])
  else
    return s

-- A round of `FuncCYCLES_TRANS` and of `FuncCYCLES_TRANS_LIST`, for a point below the degree.
def cyclesRound (ptf : List Nat) (deg j : Nat) (s : List Nat × List (List Nat))
    : Result (List Nat × List (List Nat)) := do
  if (← readEntry s.1 j) = 0 then
    let (pt, seen, _) ← labelLoop ptf 0 (setLabel 1 fun _ _ => ()) (deg + 1) j (s.1, ())
    let (seen, out) ← newCycle ptf deg pt (seen, s.2)
    let (_, seen, _) ← labelLoop ptf 1 (setLabel 2 fun _ _ => ()) (deg + 1) j (seen, ())
    return (seen, out)
  else
    return s

def funcCyclesTrans (w : IntSize) (f : TransBag) : Result (TransBag × List (List Nat)) := do
  let (f, deg) ← funcDegreeOfTransformation w f
  if deg = 0 then
    return (f, [])
  else
    let ptf ← constAddrTrans f.tnum.dataType f
    let s ← forLoop (cyclesRound ptf deg) deg 0 (resizeInitTmpTrans deg, [])
    return (f, s.2)

def cyclesListRound (w : IntSize) (ptf : List Nat) (deg : Nat) (list : List Int) (i : Nat)
    (s : List Nat × List (List Nat)) : Result (List Nat × List (List Nat)) := do
  let j := (← getPositiveListEntry w "CYCLES_TRANS_LIST" list i) - 1
  if j ≥ deg then
    return (s.1, s.2 ++ [[j + 1]])
  else
    cyclesRound ptf deg j s

def funcCyclesTransList (w : IntSize) (f : TransBag) (list : List Int)
    : Result (TransBag × List (List Nat)) := do
  let (f, deg) ← funcDegreeOfTransformation w f
  if list.length = 0 then
    return (f, [])
  else
    let ptf ← constAddrTrans f.tnum.dataType f
    let s ← forLoop (cyclesListRound w ptf deg list) list.length 1 (resizeInitTmpTrans deg, [])
    return (f, s.2)

/-!
This section contains the representatives of the components. Here the temporary bag is also read and
written behind the degree, so it is needed what the bag was before.
-/

section Reps

-- `ResizeInitTmpTrans`, a bag that is large enough is not shrunk.
def resizeInitTmp (tmp : List Nat) (len : Nat) : List Nat :=
  List.replicate len 0 ++ tmp.drop len

-- `INIT_TRANS` uses the temporary bag if the image set is not stored.
def imageSetTmp (tmp : List Nat) (f : TransBag) : Result (TransBag × IntPlist × List Nat) := do
  let (f', img) ← funcUnsortedImageSetTrans f
  match f.img with
  | some _ => return (f', img, tmp)
  | none =>
    let n := f.entries.length
    let s ← initLoop f.entries n 0 ⟨resizeInitTmpTrans n, 0, [], []⟩
    return (f', img, s.pttmp ++ tmp.drop n)

def markImages (img : List Nat) (seen : List Nat) : Result (List Nat) :=
  forLoop (fun i seen => do
    let x ← elmPlist img i
    writeEntry .perm4 seen (x - 1) 1) img.length 1 seen

-- A walk from a point that is not an image. The components are numbered from 1, with labels from 2.
def repsRound (ptf : List Nat) (deg i : Nat) (s : List Nat × List (List Nat))
    : Result (List Nat × List (List Nat)) := do
  if (← readEntry s.1 i) = 0 then
    let nr := s.2.length + 1
    let (pt, seen, _) ← doLabelLoop ptf 1 (setLabel (nr + 1) fun _ _ => ()) (deg + 1) i (s.1, ())
    let label ← readEntry seen pt
    if label ≠ nr + 1 then
      let (pt, seen, _) ← doLabelLoop ptf (nr + 1) (setLabel label fun _ _ => ()) (deg + 1) i
        (seen, ())
      let pos := (← readEntry seen pt) - 1
      let comp ← elmPlist s.2 pos
      return (seen, ← setElmPlist s.2 pos (comp ++ [i + 1]))
    else
      return (seen, s.2 ++ [[i + 1]])
  else
    return s

def repsCycleRound (ptf : List Nat) (deg i : Nat) (s : List Nat × List (List Nat))
    : Result (List Nat × List (List Nat)) := do
  if (← readEntry s.1 i) = 1 then
    let (_, seen, _) ← labelLoop ptf 1 (setLabel 0 fun _ _ => ()) (deg + 1) i (s.1, ())
    return (seen, s.2 ++ [[i + 1]])
  else
    return s

def funcComponentRepsTrans (w : IntSize) (tmp : List Nat) (f : TransBag)
    : Result (TransBag × List (List Nat)) := do
  let (f, deg) ← funcDegreeOfTransformation w f
  if deg = 0 then
    return (f, [])
  else
    let (f, img, tmp) ← imageSetTmp tmp f
    let seen ← markImages img.entries (resizeInitTmp tmp deg)
    let ptf ← constAddrTrans f.tnum.dataType f
    let s ← forLoop (repsRound ptf deg) deg 0 (seen, [])
    let s ← forLoop (repsCycleRound ptf deg) deg 0 s
    return (f, s.2)

end Reps

end TransImpl

-- A loop that writes `val p` at the position `idx p` for `p` from `hi - 1` down to `lo`.
def scatterDown (T : PermTnum) (lo hi : Nat) (idx val : Nat → Result Nat) (pt : List Nat)
    : Result (List Nat) :=
  (List.range' lo (hi - lo)).reverse.foldlM
    (fun pt p => do writeEntry T pt (← idx p) (← val p)) pt

namespace TransImpl

-- The old entries of the bag stay, `ResizeBag` adds zeros.
def resizeTmpTrans (tmp : List Nat) (len : Nat) : List Nat :=
  tmp ++ List.replicate (len - tmp.length) 0

def isIdTransLoop (ptf : List Nat) : Nat → Nat → Result Bool
  | 0, _ => return true
  | n + 1, i => do
    if (← readEntry ptf i) ≠ i then
      return false
    else
      isIdTransLoop ptf n (i + 1)

def funcIsIdTrans (f : TransBag) : Result Bool :=
  isIdTransLoop f.entries f.entries.length 0

def funcInverseOfTransformation (f : TransBag) : Result TransBag := do
  if ← funcIsIdTrans f then
    return f
  else
    let T := f.tnum.dataType
    let deg := f.entries.length
    let ptf := f.entries
    let ptg := List.replicate deg 0
    let ptg ← scatterDown T 1 deg (readEntry ptf) pure ptg
    let j ← readEntry ptf 0
    let ptg ← writeEntry T ptg j 0
    return newTrans T ptg

structure ImgConjState where
  ptsrc : List Nat
  ptdst : List Nat
  ptp : List Nat

-- `src i` is mapped to `dst i`.
def imgConjRound (markSrc : Bool) (src dst : Nat → Result Nat) (i : Nat) (s : ImgConjState)
    : Result ImgConjState := do
  let x ← src i
  let y ← dst i
  let ptsrc ← if markSrc then writeEntry .perm4 s.ptsrc x 1 else pure s.ptsrc
  let ptdst ← writeEntry .perm4 s.ptdst y 1
  let ptp ← writeEntry .perm4 s.ptp x y
  return ⟨ptsrc, ptdst, ptp⟩

-- `while (ptdst[j] != 0) j++;`
def unusedLoop (ptdst : List Nat) : Nat → Nat → Result Nat
  | 0, _ => throw .fuel
  | fuel + 1, j => do
    if (← readEntry ptdst j) ≠ 0 then
      unusedLoop ptdst fuel (j + 1)
    else
      return j

-- The state is the permutation and `j`.
def completeRound (ptsrc ptdst : List Nat) (i : Nat) (s : List Nat × Nat)
    : Result (List Nat × Nat) := do
  if (← readEntry ptsrc i) = 0 then
    let j ← unusedLoop ptdst (ptdst.length + 1) s.2
    let ptp ← writeEntry .perm4 s.1 i j
    return (ptp, j + 1)
  else
    return s

def funcTransImgConj (f g : TransBag) : Result PermBag := do
  let ptf := f.entries
  let ptg := g.entries
  let degF := ptf.length
  let degG := ptg.length
  let max := if degF < degG then degG else degF
  let min := if degF < degG then degF else degG
  let zeros := resizeInitTmpTrans max
  let s ← forLoop (imgConjRound true (readEntry ptf) (readEntry ptg)) min 0 ⟨zeros, zeros, zeros⟩
  let s ← forLoop (imgConjRound false pure (readEntry ptg)) (degG - min) min s
  let s ← forLoop (imgConjRound true (readEntry ptf) pure) (degF - degG) degG s
  let (ptp, _) ← forLoop (completeRound s.ptsrc s.ptdst) degF 0 (s.ptp, 0)
  return { tnum := .perm4, entries := ptp, storedInv := none }

-- The state is the lookup, the rank and the new kernel.
def lookupRound (ptcnj : List Nat) (i : Nat) (s : List Nat × Nat × List Nat)
    : Result (List Nat × Nat × List Nat) := do
  let x ← readEntry ptcnj i
  if (← readEntry s.1 x) = 0 then
    let ptlkp ← writeEntry .perm4 s.1 x s.2.1
    return (ptlkp, s.2.1 + 1, s.2.2 ++ [← readEntry ptlkp x])
  else
    return (s.1, s.2.1, s.2.2 ++ [← readEntry s.1 x])

-- `INT_INTOBJ(ELM_LIST(ker, i + 1)) - 1`
def kerPoint (ker : IntPlist) (i : Nat) : Result Nat := do
  return (← elmPlist ker.entries (i + 1)) - 1

-- The entries of the conjugate by the permutation.
def conjTable (len : Nat) (ker : IntPlist) (ptp ptcnj : List Nat) : Result (List Nat) :=
  let dep := ptp.length
  if dep ≤ len then do
    let ptcnj ← scatter .perm4 0 dep (readEntry ptp)
      (fun i => do readEntry ptp (← kerPoint ker i)) ptcnj
    scatter .perm4 dep len pure (fun i => do IMAGE (← kerPoint ker i) ptp dep) ptcnj
  else
    scatter .perm4 0 len (readEntry ptp) (fun i => do readEntry ptp (← kerPoint ker i)) ptcnj

/-- `tmp` is the temporary bag, its second half is the lookup. -/
def funcPowKerPerm (tmp : List Nat) (ker : IntPlist) (p : PermBag) : Result IntPlist := do
  let len := ker.entries.length
  if len = 0 then
    return ⟨.empty, []⟩
  else
    let tmp := resizeTmpTrans tmp (2 * len)
    let ptcnj ← conjTable len ker p.entries (tmp.take len)
    let ptlkp ← scatter .perm4 0 len pure (fun _ => pure 0) ((tmp.drop len).take len)
    let (_, _, out) ← forLoop (lookupRound ptcnj) len 0 (ptlkp, 1, [])
    return ⟨.cyc, out⟩

-- A transversal of the kernel of the product.
def transversal (len : Nat) (X : IntPlist) (ptf pttmp : List Nat) : Result (List Nat) :=
  let deg := ptf.length
  if deg ≥ len then
    scatter .perm4 0 len (fun i => do kerPoint X (← readEntry ptf i)) pure pttmp
  else do
    let pttmp ← scatter .perm4 0 deg (fun i => do kerPoint X (← readEntry ptf i)) pure pttmp
    scatter .perm4 deg len (kerPoint X) pure pttmp

def invKerTrans (TG : PermTnum) (tmp : List Nat) (X : IntPlist) (f : TransBag)
    : Result TransBag := do
  let len := X.entries.length
  let pttmp ← transversal len X f.entries (resizeTmpTrans tmp len)
  let ptg ← scatterDown TG 0 len pure (fun i => do readEntry pttmp (← kerPoint X i))
    (List.replicate len 0)
  return newTrans TG ptg

def funcInvKerTrans (tmp : List Nat) (X : IntPlist) (f : TransBag) : Result TransBag :=
  if X.entries.length ≤ 65536 then
    invKerTrans .perm2 tmp X f
  else
    invKerTrans .perm4 tmp X f

end TransImpl
