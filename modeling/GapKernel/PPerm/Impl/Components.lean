import GapKernel.PPerm.Impl.Product

/-!
This module contains the index and the period of a partial permutation, and its components as a
functional digraph. The entries of the temporary bag are 1 for the points of the image, they are
overwritten by 2 on the chains and by 0 on the cycles.
-/

namespace PPermImpl

-- `ptseen[k - 1] = v`
def setSeen (seen : List Nat) (k v : Nat) : Result (List Nat) := do
  writeEntry .perm4 seen (← index k) v

def findImg (n rank : Nat) (img : List Nat) : Result (List Nat) :=
  forLoop (fun i seen => do
    let pt ← elmPlist img i
    setSeen seen pt 1) rank 1 (List.replicate n 0)

-- `ptf[k - 1]`
def elmPtf (ptf : List Nat) (k : Nat) : Result Nat := do
  readEntry ptf (← index k)

section Loops

variable {σ : Type}

-- `for (...; k <= deg && ptf[k - 1] != 0; k = ptf[k - 1])`
def chainLoop (ptf : List Nat) (body : Nat → σ → Result σ) : Nat → Nat → σ → Result (Nat × σ)
  | 0, _, _ => throw .fuel
  | fuel + 1, k, s => do
    if k ≤ ptf.length then
      let img ← elmPtf ptf k
      if img ≠ 0 then
        let s ← body k s
        chainLoop ptf body fuel img s
      else
        return (k, s)
    else
      return (k, s)

-- `for (...; k != stop; k = next(k))`
def untilLoop (next : Nat → Result Nat) (stop : Nat) (body : Nat → σ → Result σ)
    : Nat → Nat → σ → Result σ
  | 0, _, _ => throw .fuel
  | fuel + 1, k, s => do
    if k ≠ stop then
      let s ← body k s
      let k ← next k
      untilLoop next stop body fuel k s
    else
      return s

-- `do { ...; k = next(k); } while (k != stop);`
def doUntilLoop (next : Nat → Result Nat) (stop : Nat) (body : Nat → σ → Result σ)
    (fuel k : Nat) (s : σ) : Result σ := do
  let s ← body k s
  let k ← next k
  untilLoop next stop body fuel k s

-- The loop over the domain, a walk begins at every point that has the label.
def startLoop (dom : List Nat) (rank label : Nat)
    (walk : Nat → List Nat × σ → Result (List Nat × σ))
    : List Nat × σ → Result (List Nat × σ) :=
  domLoop dom rank fun j s => do
    let seen ← readEntry s.1 j
    if seen = label then walk j s else return s

end Loops

-- `DOM_PPERM` and `IMG_PPERM` after `RANK_PPERM`
def slots (f : PPermBag) : Result (List Nat × List Nat) :=
  match f.dom, f.img with
  | some dom, some img => return (dom, img)
  | _, _ => throw .access

-- `n = MAX(DEG_PPERM(f), CODEG_PPERM(f))`
def maxDegree (f : PPermBag) : Nat :=
  max f.entries.length (codegPPerm f)

section Walks

variable (ptf : List Nat) (fuel j : Nat)

-- A chain, the length of the longest one is `s.2`.
def indexChain (s : List Nat × Nat) : Result (List Nat × Nat) := do
  let seen ← setSeen s.1 (j + 1) 2
  let k ← elmPtf ptf (j + 1)
  let (k, seen, len) ← chainLoop ptf (fun k s => do
    let seen ← setSeen s.1 k 2
    return (seen, s.2 + 1)) fuel k (seen, 1)
  let seen ← setSeen seen k 2
  return (seen, if len > s.2 then len else s.2)

-- A cycle, its first point is not marked. The order so far is `s.2`.
def indexCycle (s : List Nat × Nat) : Result (List Nat × Nat) := do
  let k ← elmPtf ptf (j + 1)
  let (seen, len) ← untilLoop (elmPtf ptf) (j + 1) (fun k s => do
    let seen ← setSeen s.1 k 0
    return (seen, s.2 + 1)) fuel k (s.1, 1)
  return (seen, s.2.lcm len)

def markChain (seen : List Nat) : Result (List Nat) := do
  let (k, seen) ← chainLoop ptf (fun k seen => setSeen seen k 2) fuel (j + 1) seen
  setSeen seen k 2

def markCycle (seen : List Nat) : Result (List Nat) := do
  let seen ← setSeen seen (j + 1) 0
  let k ← elmPtf ptf (j + 1)
  untilLoop (elmPtf ptf) (j + 1) (fun k seen => setSeen seen k 0) fuel k seen

-- `SET_ELM_PLIST(out, ++nr, elm)` for a list with `cap` places
def pushElm {α : Type} (cap : Nat) (out : List α) (elm : α) : Result (List α) :=
  if out.length < cap then return out ++ [elm] else throw .access

-- The points of a component are put on a new list.
def listBody (v k : Nat) (s : List Nat × List Nat) : Result (List Nat × List Nat) := do
  let seen ← setSeen s.1 k v
  return (seen, s.2 ++ [k])

def listChain (cap : Nat) (s : List Nat × List (List Nat))
    : Result (List Nat × List (List Nat)) := do
  let (seen, comp) ← doUntilLoop (fun k => imagePP k ptf ptf.length) 0 (listBody 2) fuel (j + 1)
    (s.1, [])
  return (seen, ← pushElm cap s.2 comp)

def listCycle (cap : Nat) (s : List Nat × List (List Nat))
    : Result (List Nat × List (List Nat)) := do
  let (seen, comp) ← doUntilLoop (elmPtf ptf) (j + 1) (listBody 0) fuel (j + 1) (s.1, [])
  return (seen, ← pushElm cap s.2 comp)

end Walks

def funcIndexPeriodPPerm (f : PPermBag) : Result (PPermBag × Nat × Nat) := do
  let n := maxDegree f
  let (f, rank) ← rankPPerm f
  let (dom, img) ← slots f
  let seen ← findImg n rank img
  let ptf ← constAddrPPerm f.tnum.dataType f
  let (seen, pow) ← startLoop dom rank 0 (indexChain ptf (n + 1)) (seen, 0)
  let (_, ord) ← startLoop dom rank 1 (indexCycle ptf (n + 1)) (seen, 1)
  return (f, pow + 1, ord)

-- `while (LtInt(pow, ind)) pow = SumInt(pow, per);`
def idemLoop (ind per : Nat) : Nat → Nat → Result Nat
  | 0, _ => throw .fuel
  | fuel + 1, pow => if pow < ind then idemLoop ind per fuel (pow + per) else return pow

def funcSmallestIdemPowPPerm (f : PPermBag) : Result (PPermBag × Nat) := do
  let (f, ind, per) ← funcIndexPeriodPPerm f
  let pow ← idemLoop ind per (ind + 1) per
  return (f, pow)

def funcComponentRepsPPerm (f : PPermBag) : Result (PPermBag × List Nat) := do
  let n := maxDegree f
  if n = 0 then
    return (f, [])
  else
    let deg := f.entries.length
    let (f, rank) ← rankPPerm f
    let (dom, img) ← slots f
    let seen ← findImg n rank img
    let ptf ← constAddrPPerm f.tnum.dataType f
    let s ← startLoop dom rank 0 (fun j s => do
      let seen ← markChain ptf (n + 1) j s.1
      return (seen, ← pushElm deg s.2 (j + 1))) (seen, [])
    let (_, out) ← startLoop dom rank 1 (fun j s => do
      let seen ← markCycle ptf (n + 1) j s.1
      return (seen, ← pushElm deg s.2 (j + 1))) s
    return (f, out)

def funcNrComponentsPPerm (f : PPermBag) : Result (PPermBag × Nat) := do
  let n := maxDegree f
  let (f, rank) ← rankPPerm f
  let (dom, img) ← slots f
  let seen ← findImg n rank img
  let ptf ← constAddrPPerm f.tnum.dataType f
  let s ← startLoop dom rank 0 (fun j s => do
    let seen ← markChain ptf (n + 1) j s.1
    return (seen, s.2 + 1)) (seen, 0)
  let (_, nr) ← startLoop dom rank 1 (fun j s => do
    let seen ← markCycle ptf (n + 1) j s.1
    return (seen, s.2 + 1)) s
  return (f, nr)

def funcComponentsPPerm (f : PPermBag) : Result (PPermBag × List (List Nat)) := do
  let n := maxDegree f
  if n = 0 then
    return (f, [])
  else
    let (f, rank) ← rankPPerm f
    let (dom, img) ← slots f
    let seen ← findImg n rank img
    let ptf ← constAddrPPerm f.tnum.dataType f
    let s ← startLoop dom rank 0 (fun j s => listChain ptf (n + 1) j rank s) (seen, [])
    let (_, out) ← startLoop dom rank 1 (fun j s => listCycle ptf (n + 1) j rank s) s
    return (f, out)

end PPermImpl
