import GapKernel.PPerm.Impl.Quotient

/-!
This module contains the restrictions of partial permutations and permutations to sets of points,
and the unions and intersections of partial permutations. A set is a list of positive integers that
is strictly sorted.
-/

namespace PPermImpl

def elmList (list : List Nat) (pos : Nat) : Result Nat :=
  if pos ≤ list.length then
    elmPlist list pos
  else
    throw (.quit "List Element: <list>[%d] must have an assigned value" pos 0)

def setLoop {σ : Type} (set : List Nat) (n : Nat) (body : Nat → σ → Result σ) : σ → Result σ :=
  forLoop (fun i s => do body (← index (← elmList set i)) s) n 1

-- The images may be fixed points beyond the degree of the permutation.
def asImages (T : PermTnum) (ptp set : List Nat) (deg : Nat) : Result (List Nat) :=
  setLoop set set.length (fun j pt => do
    let img ← IMAGE j ptp ptp.length
    writeEntry T pt j (img + 1)) (List.replicate deg 0)

def asEntries (T : PermTnum) (ptp set : List Nat) (deg : Nat) : Result (List Nat) :=
  setLoop set set.length (fun j pt => do writeEntry T pt j ((← readEntry ptp j) + 1))
    (List.replicate deg 0)

def asFill (T : PermTnum) (ptp set : List Nat) (deg codeg : Nat) : Result FillState :=
  setLoop set set.length (fun j s => do store T s j ((← readEntry ptp j) + 1))
    ⟨List.replicate deg 0, codeg⟩

-- The loop that finds the codegree, `i` is the position in the set.
def findCodeg (ptp set : List Nat) : (i codeg : Nat) → Result Nat
  | 0, codeg => return codeg
  | i + 1, codeg =>
    if codeg < 65536 then do
      let j ← readEntry ptp (← index (← elmList set (i + 1)))
      findCodeg ptp set i (if j + 1 > codeg then j + 1 else codeg)
    else
      return codeg

def funcAsPPermPerm (p : PermBag) (set : List Nat) : Result PPermBag := do
  let n := set.length
  if n = 0 then
    return emptyPartialPerm
  else
    let deg ← elmList set n
    let ptp := p.entries
    let dep := ptp.length
    match p.tnum with
    | .perm2 =>
      if deg < 65536 then
        if dep < deg then
          return newPPerm .perm2 (← asImages .perm2 ptp set deg) deg
        else
          let s ← asFill .perm2 ptp set deg 0
          return newPPerm .perm2 s.entries s.codeg
      else
        return newPPerm .perm4 (← asImages .perm4 ptp set deg) deg
    | .perm4 =>
      if dep < deg then
        return newPPerm .perm4 (← asImages .perm4 ptp set deg) deg
      else
        -- The degree is used as the last position.
        let codeg ← findCodeg ptp set deg 0
        if codeg < 65536 then
          return newPPerm .perm2 (← asEntries .perm2 ptp set deg) codeg
        else
          -- The codegree that the loop computes is not used.
          let s ← asFill .perm4 ptp set deg codeg
          return newPPerm .perm4 s.entries deg

def funcImageSetPPerm (f : PPermBag) : Result (PPermBag × List Nat) := do
  let (f, _) ← rankPPerm f
  match f.img with
  | none => throw .access
  | some img =>
    let set := if img.Pairwise (· < ·) then img else img.insertionSort (· ≤ ·)
    return ({ f with img := some set }, set)

-- `none` is `Fail`.
def funcAsPermPPerm (f : PPermBag) : Result (PPermBag × Option PermBag) := do
  let (f, img) ← funcImageSetPPerm f
  match f.dom with
  | none => throw .access
  | some dom =>
    if img ≠ dom then
      return (f, none)
    else
      let T := f.tnum.dataType
      let deg := f.entries.length
      let pt ← forLoop (fun i pt => writeEntry T pt i i) deg 0 (List.replicate deg 0)
      let (_, rank) ← rankPPerm f
      let pt ← domLoop dom rank (fun j pt => do
        writeEntry T pt j (← index (← readEntry f.entries j))) pt
      return (f, some { tnum := T, entries := pt, storedInv := none })

-- The entries of `g` when they are read with the type `TG`, also if it is not the type of `g`.
def readAs (o : ByteOrder) (TG : PermTnum) (g : PPermBag) (i : Nat) : Result Nat :=
  if g.tnum = TG.ppermTnum then
    readEntry g.entries i
  else
    Bytes.readMem o TG.sizeof
      (Bytes.ofEntries o g.tnum.dataType.sizeof (g.codeg :: g.entries)) (TG.sizeof * (i + 1))

-- The entry of `f`, or the one of `g` if it is 0.
def joinEntry (o : ByteOrder) (TG : PermTnum) (ptf : List Nat) (g : PPermBag) (i : Nat)
    : Result Nat := do
  let v ← readEntry ptf i
  if v ≠ 0 then return v else readAs o TG g i

def joinIdemPPerms (o : ByteOrder) (TF TG : PermTnum) (f g : PPermBag) : Result PPermBag := do
  let res := PermTnum.resultType TF TG
  let ptf ← constAddrPPerm TF f
  let def' := ptf.length
  let deg := g.entries.length
  let pt ← forLoop (fun i pt => do writeEntry res pt i (← joinEntry o TG ptf g i)) def' 0
    (List.replicate deg 0)
  let pt ← forLoop (fun i pt => do writeEntry res pt i (← readAs o TG g i)) (deg - def') def' pt
  return newPPerm res pt deg

def funcJoinIdemPPerms (o : ByteOrder) (f g : PPermBag) : Result PPermBag := do
  if ← PPermOps.eq f g then
    return f
  else
    let (f, g) := if f.entries.length > g.entries.length then (g, f) else (f, g)
    match f.tnum, g.tnum with
    | .pperm2, .pperm2 => joinIdemPPerms o .perm2 .perm2 f g
    | .pperm2, .pperm4 => joinIdemPPerms o .perm2 .perm4 f g
    | _, _ => joinIdemPPerms o .perm4 .perm4 f g

/-- `seen` is the buffer, in which the images are marked. -/
structure JoinState where
  entries : List Nat
  seen : List Nat

-- An image `v` is written without a test.
def joinSet (T : PermTnum) (j v : Nat) (s : JoinState) : Result JoinState := do
  let entries ← writeEntry T s.entries j v
  let seen ← writeEntry .perm4 s.seen (← index v) 1
  return ⟨entries, seen⟩

-- `none` is returned if the union is not injective.
def joinRound (T : PermTnum) (j v : Nat) (s : JoinState) : Result (Option JoinState) := do
  let img ← readEntry s.entries j
  if img = 0 then
    if (← readEntry s.seen (← index v)) = 0 then
      return some (← joinSet T j v s)
    else
      return none
  else if img ≠ v then
    return none
  else
    return some s

-- The loop over the domain, if it is known.
def joinDom (T : PermTnum) (g : PPermBag) (ptg : List Nat) (s : JoinState)
    : Result (Option JoinState) := do
  match g.dom with
  | none => return some s
  | some dom =>
    let (_, rank) ← rankPPerm g
    failLoop (fun i s => do
      let j ← index (← elmPlist dom i)
      joinRound T j (← readEntry ptg j) s) rank 1 s

-- The loop over all points, if the domain is not known.
def joinPoints (T : PermTnum) (g : PPermBag) (ptg : List Nat) (s : JoinState)
    : Result (Option JoinState) := do
  match g.dom with
  | some _ => return some s
  | none =>
    failLoop (fun i s => do
      let v ← readEntry ptg i
      if v ≠ 0 then joinRound T i v s else return some s) ptg.length 0 s

def joinPPerms (TF TG : PermTnum) (f g : PPermBag) : Result (Option PPermBag) := do
  let res := PermTnum.resultType TF TG
  let codeg := max (codegPPerm f) (codegPPerm g)
  let ptf ← constAddrPPerm TF f
  let ptg ← constAddrPPerm TG g
  let deg := max ptf.length ptg.length
  let s := ⟨List.replicate deg 0, List.replicate codeg 0⟩
  let s ← match f.dom with
    | none => pure s
    | some dom => do
      let (_, rank) ← rankPPerm f
      domLoop dom rank (fun j s => do joinSet res j (← readEntry ptf j) s) s
  match ← joinDom res g ptg s with
  | none => return none
  | some s =>
    match ← joinPoints res f ptf s with
    | none => return none
    | some s =>
      match ← joinPoints res g ptg s with
      | none => return none
      | some s => return some (newPPerm res s.entries codeg)

def funcJoinPPerms (f g : PPermBag) : Result (Option PPermBag) := do
  if ← PPermOps.eq f g then
    return some f
  else
    joinPPerms f.tnum.dataType g.tnum.dataType f g

def meetDegree (ptf ptg : List Nat) : Nat → Result Nat
  | 0 => return 0
  | deg + 1 => do
    let j ← imagePP (deg + 1) ptf ptf.length
    if j ≠ 0 ∧ j = (← imagePP (deg + 1) ptg ptg.length) then
      return deg + 1
    else
      meetDegree ptf ptg deg

-- The result has 32 bits if both operands have.
def funcMeetPPerms (f g : PPermBag) : Result PPermBag := do
  let T := match f.tnum, g.tnum with
    | .pperm4, .pperm4 => PermTnum.perm4
    | _, _ => PermTnum.perm2
  let ptf := f.entries
  let ptg := g.entries
  let deg ← meetDegree ptf ptg (min ptf.length ptg.length)
  let s ← forLoop (fun i s => do
    let j ← imagePP (i + 1) ptf ptf.length
    if (← imagePP (i + 1) ptg ptg.length) = j then storeImg T s i j else return s)
    deg 0 ⟨List.replicate deg 0, 0⟩
  return newPPerm T s.entries s.codeg

-- The last position in the set with a point that is at most `deg`.
def lastPosition (set : List Nat) (deg : Nat) : Nat → Result Nat
  | 0 => return 0
  | n + 1 => do
    if (← elmList set (n + 1)) > deg then lastPosition set deg n else return n + 1

-- The last position with a point where the partial permutation is defined.
def lastDefined (set ptf : List Nat) : Nat → Result Nat
  | 0 => return 0
  | n + 1 => do
    let v ← readEntry ptf (← index (← elmList set (n + 1)))
    if v = 0 then lastDefined set ptf n else return n + 1

def funcRestrictedPPerm (f : PPermBag) (set : List Nat) : Result PPermBag := do
  let T := f.tnum.dataType
  let ptf := f.entries
  let n ← lastPosition set ptf.length set.length
  let n ← lastDefined set ptf n
  if n = 0 then
    return emptyPartialPerm
  else
    let deg ← elmList set n
    let s ← setLoop set n (fun j s => do store T s j (← readEntry ptf j))
      ⟨List.replicate deg 0, 0⟩
    return newPPerm T s.entries s.codeg

end PPermImpl
