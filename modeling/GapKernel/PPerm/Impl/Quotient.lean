import GapKernel.PPerm.Impl.Product

/-!
This module contains the inverses, the quotients and the conjugates of partial permutations.
-/

namespace PPermImpl

-- The loops that write `j + 1` at the image of each point `j`.
def invert (T : PermTnum) (f : PPermBag) (ptf : List Nat) (codeg : Nat) : Result (List Nat) :=
  eachPoint f ptf (fun j v pt => do
    let i ← index v
    writeEntry T pt i (j + 1)) (List.replicate codeg 0)

def invPPerm (res T : PermTnum) (f : PPermBag) : Result PPermBag := do
  let ptf ← constAddrPPerm T f
  let deg := ptf.length
  let ptinv ← invert res f ptf (codegPPerm f)
  return newPPerm res ptinv deg

def invPPerm2 (f : PPermBag) : Result PPermBag :=
  if f.entries.length < 65536 then invPPerm .perm2 .perm2 f else invPPerm .perm4 .perm2 f

def invPPerm4 (f : PPermBag) : Result PPermBag :=
  if f.entries.length < 65536 then invPPerm .perm2 .perm4 f else invPPerm .perm4 .perm4 f

/-- The slots of `f` are filled. -/
def powPPermPerm (res TF TP : PermTnum) (f : PPermBag) (p : PermBag)
    : Result (PPermBag × PPermBag) := do
  let ptf ← constAddrPPerm TF f
  let ptp ← constAddrPermBag TP p
  let deg := ptf.length
  if deg = 0 then
    return (f, emptyPartialPerm)
  else
    let dep := ptp.length
    let (f, rank) ← rankPPerm f
    match f.dom with
    | none => throw .access
    | some dom =>
      let degconj ← (if deg > dep then
        return deg
      else
        domLoop dom rank (fun j degconj => do
          let v ← readEntry ptp j
          if v ≥ degconj then return TP.plusOne v else return degconj) 0 : Result Nat)
      let codeg := codegPPerm f
      if codeg > dep then
        let ptconj ← domLoop dom rank (fun j pt => do
          writeEntry res pt (← IMAGE j ptp dep)
            ((← IMAGE (← index (← readEntry ptf j)) ptp dep) + 1)) (List.replicate degconj 0)
        return (f, newPPerm res ptconj codeg)
      else
        let s ← domLoop dom rank (fun j s => do
          let k := TP.plusOne (← readEntry ptp (← index (← readEntry ptf j)))
          storeImg res s (← IMAGE j ptp dep) k) ⟨List.replicate degconj 0, 0⟩
        return (f, newPPerm res s.entries s.codeg)

def powPPerm2Perm2 (f : PPermBag) (p : PermBag) : Result (PPermBag × PPermBag) :=
  if p.entries.length = 65536 then
    powPPermPerm .perm4 .perm2 .perm2 f p
  else
    powPPermPerm .perm2 .perm2 .perm2 f p

-- The image of an image of `f` under `g`, which is read with `IMAGEPP` if `f` has a large codegree.
def powImage (codegf : Nat) (ptg : List Nat) (deg v : Nat) : Result Nat := do
  if codegf ≤ deg then readEntry ptg (← index v) else imagePP v ptg deg

-- The loops of a conjugate over the points below both degrees
def powDegRound (codegf codeg : Nat) (ptf ptg : List Nat) (deg i dec : Nat)
    : Result (Nat × Bool) := do
  let v ← readEntry ptf i
  if v = 0 then
    return (dec, false)
  else
    let x ← readEntry ptg i
    if x > dec then
      if (← powImage codegf ptg deg v) ≠ 0 then return (x, x == codeg) else return (dec, false)
    else
      return (dec, false)

def powFillRound (T : PermTnum) (codegf : Nat) (ptf ptg : List Nat) (deg i : Nat) (s : FillState)
    : Result FillState := do
  let v ← readEntry ptf i
  if v = 0 then
    return s
  else
    let x ← readEntry ptg i
    if x = 0 then
      return s
    else
      let img ← powImage codegf ptg deg v
      if img ≠ 0 then storeImg T s (← index x) img else return s

-- The loops of a conjugate over the domain. If `def` is larger than `deg`, the image of a point
-- under `g` is read with `IMAGEPP`.
def domImage (large : Bool) (ptg : List Nat) (deg j : Nat) : Result Nat :=
  if large then imagePP (j + 1) ptg deg else readEntry ptg j

def powDomRound (large : Bool) (codegf codeg : Nat) (ptf ptg : List Nat) (deg j dec : Nat)
    : Result (Nat × Bool) := do
  if (← domImage large ptg deg j) > dec then
    if (← powImage codegf ptg deg (← readEntry ptf j)) ≠ 0 then
      let dec ← readEntry ptg j
      return (dec, dec == codeg)
    else
      return (dec, false)
  else
    return (dec, false)

def powDomFillRound (T : PermTnum) (large : Bool) (codegf : Nat) (ptf ptg : List Nat) (deg j : Nat)
    (s : FillState) : Result FillState := do
  if (← domImage large ptg deg j) ≠ 0 then
    let img ← powImage codegf ptg deg (← readEntry ptf j)
    if img ≠ 0 then
      storeImg T s (← index (← readEntry ptg j)) img
    else
      return s
  else
    return s

def powPPerm (TF TG : PermTnum) (f g : PPermBag) : Result PPermBag := do
  let res := TF.resultType TG
  let ptf ← constAddrPPerm TF f
  let ptg ← constAddrPPerm TG g
  let degf := ptf.length
  let deg := ptg.length
  if degf = 0 ∨ deg = 0 then
    return emptyPartialPerm
  else
    let codeg := codegPPerm g
    let codegf := codegPPerm f
    match f.dom with
    | none =>
      let min := if degf < deg then degf else deg
      let dec ← breakLoop (powDegRound codegf codeg ptf ptg deg) min 0 0
      if dec = 0 then
        return emptyPartialPerm
      else
        let s ← forLoop (powFillRound res codegf ptf ptg deg) min 0 ⟨List.replicate dec 0, 0⟩
        return newPPerm res s.entries s.codeg
    | some dom =>
      let large : Bool := degf > deg
      let len := dom.length
      let dec ← domBreakLoop dom len (powDomRound large codegf codeg ptf ptg deg) 0
      let s ← domLoop dom len (powDomFillRound res large codegf ptf ptg deg)
        ⟨List.replicate dec 0, 0⟩
      return newPPerm res s.entries s.codeg

-- The inverse of `g` is written to the buffer `TmpPPerm`.
def quoPPerm (TF TG : PermTnum) (f g : PPermBag) : Result PPermBag := do
  let ptf ← constAddrPPerm TF f
  let ptg ← constAddrPPerm TG g
  if ptg.length = 0 ∨ ptf.length = 0 then
    return emptyPartialPerm
  else
    let deginv := codegPPerm g
    let pttmp ← invert .perm4 g ptg deginv
    let deg ← prodDegree ptf pttmp deginv ptf.length
    if deg = 0 then
      return emptyPartialPerm
    else
      let s ← prodFill .perm4 f ptf pttmp deg deginv
      return newPPerm .perm4 s.entries s.codeg

-- The loops that find the degree of a left quotient by a permutation
def lquoPermDegree (TP : PermTnum) (ptp : List Nat) (dep j del : Nat) : Result (Nat × Bool) := do
  let v ← readEntry ptp j
  if v ≥ del then return (TP.plusOne v, TP.plusOne v == dep) else return (del, false)

def lQuoPermPPerm (TP TF : PermTnum) (p : PermBag) (f : PPermBag) : Result PPermBag := do
  let ptf ← constAddrPPerm TF f
  let ptp ← constAddrPermBag TP p
  let degf := ptf.length
  if degf = 0 then
    return emptyPartialPerm
  else
    let dep := ptp.length
    if dep < degf then
      let pt := List.replicate degf 0
      match f.dom with
      | none =>
        let pt ← forLoop (fun i pt => do
          writeEntry TF pt (← readEntry ptp i) (← readEntry ptf i)) dep 0 pt
        let pt ← forLoop (fun i pt => do writeEntry TF pt i (← readEntry ptf i))
          (degf - dep) dep pt
        return newPPerm TF pt (codegPPerm f)
      | some dom =>
        let pt ← domLoop dom dom.length (fun j pt => do
          writeEntry TF pt (← IMAGE j ptp dep) (← readEntry ptf j)) pt
        return newPPerm TF pt (codegPPerm f)
    else
      match f.dom with
      | none =>
        let del ← breakLoop (fun i del => do
          if (← readEntry ptf i) ≠ 0 then lquoPermDegree TP ptp dep i del else return (del, false))
          degf 0 0
        let pt ← forLoop (fun i pt => do
          let v ← readEntry ptf i
          if v ≠ 0 then writeEntry TF pt (← readEntry ptp i) v else return pt)
          degf 0 (List.replicate del 0)
        return newPPerm TF pt (codegPPerm f)
      | some dom =>
        let del ← domBreakLoop dom dom.length (lquoPermDegree TP ptp dep) 0
        let pt ← domLoop dom dom.length (fun j pt => do
          writeEntry TF pt (← readEntry ptp j) (← readEntry ptf j)) (List.replicate del 0)
        return newPPerm TF pt (codegPPerm f)

-- The rounds of a left quotient over the domain of `g`. If `deg` is larger than `def`, the image of
-- a point under `f` is read with `IMAGEPP`.
def lquoDomRound (large : Bool) (codef : Nat) (ptf : List Nat) (degf j del : Nat)
    : Result (Nat × Bool) := do
  if (← domImage large ptf degf j) > del then
    let del ← readEntry ptf j
    return (del, del == codef)
  else
    return (del, false)

def lquoDomFillRound (T : PermTnum) (large : Bool) (ptf ptg : List Nat) (degf j : Nat)
    (s : FillState) : Result FillState := do
  if (← domImage large ptf degf j) ≠ 0 then
    storeImg T s (← index (← readEntry ptf j)) (← readEntry ptg j)
  else
    return s

def lQuoPPerm (TF TG : PermTnum) (f g : PPermBag) : Result PPermBag := do
  let ptf ← constAddrPPerm TF f
  let ptg ← constAddrPPerm TG g
  let degf := ptf.length
  let deg := ptg.length
  if degf = 0 ∨ deg = 0 then
    return emptyPartialPerm
  else
    let codef := codegPPerm f
    match g.dom with
    | none =>
      let min := if degf < deg then degf else deg
      let del ← breakLoop (fun i del => do
        if (← readEntry ptg i) ≠ 0 then
          let v ← readEntry ptf i
          if v > del then return (v, v == codef) else return (del, false)
        else
          return (del, false)) min 0 0
      if del = 0 then
        return emptyPartialPerm
      else
        let s ← forLoop (fun i s => do
          let v ← readEntry ptf i
          if v = 0 then
            return s
          else
            let x ← readEntry ptg i
            if x ≠ 0 then storeImg TG s (← index v) x else return s)
          min 0 ⟨List.replicate del 0, 0⟩
        return newPPerm TG s.entries s.codeg
    | some dom =>
      let large : Bool := deg > degf
      let del ← domBreakLoop dom dom.length (lquoDomRound large codef ptf degf) 0
      let s ← domLoop dom dom.length (lquoDomFillRound TG large ptf ptg degf)
        ⟨List.replicate del 0, 0⟩
      return newPPerm TG s.entries s.codeg

end PPermImpl

namespace PPermOps

open PPermImpl

-- `EqFuncs`, `LtFuncs`
def eq (f g : PPermBag) : Result Bool :=
  eqPPerm f.tnum.dataType g.tnum.dataType f g

def lt (f g : PPermBag) : Result Bool :=
  ltPPerm f.tnum.dataType g.tnum.dataType f g

-- `ProdFuncs`
def prod (f g : PPermBag) : Result PPermBag :=
  prodPPerm f.tnum.dataType g.tnum.dataType f g

def prodPerm (f : PPermBag) (p : PermBag) : Result PPermBag :=
  match f.tnum, p.tnum with
  | .pperm2, .perm2 => prodPPerm2Perm2 f p
  | .pperm4, .perm4 => prodPPerm4Perm4 f p
  | .pperm2, .perm4 => prodPPerm2Perm4 f p
  | .pperm4, .perm2 => prodPPerm4Perm2 f p

def permProd (p : PermBag) (f : PPermBag) : Result PPermBag :=
  prodPermPPerm p.tnum f.tnum.dataType p f

-- `PowFuncs`
def powPerm (f : PPermBag) (p : PermBag) : Result (PPermBag × PPermBag) :=
  match f.tnum, p.tnum with
  | .pperm2, .perm2 => powPPerm2Perm2 f p
  | .pperm2, .perm4 => powPPermPerm .perm4 .perm2 .perm4 f p
  | .pperm4, .perm2 => powPPermPerm .perm4 .perm4 .perm2 f p
  | .pperm4, .perm4 => powPPermPerm .perm4 .perm4 .perm4 f p

def pow (f g : PPermBag) : Result PPermBag :=
  powPPerm f.tnum.dataType g.tnum.dataType f g

-- `QuoFuncs` and `LQuoFuncs`
def quo (f g : PPermBag) : Result PPermBag :=
  quoPPerm f.tnum.dataType g.tnum.dataType f g

def permLquo (p : PermBag) (f : PPermBag) : Result PPermBag :=
  lQuoPermPPerm p.tnum f.tnum.dataType p f

def lquo (f g : PPermBag) : Result PPermBag :=
  lQuoPPerm f.tnum.dataType g.tnum.dataType f g

-- `InvFuncs`
def inv (f : PPermBag) : Result PPermBag :=
  match f.tnum with
  | .pperm2 => invPPerm2 f
  | .pperm4 => invPPerm4 f

end PPermOps
