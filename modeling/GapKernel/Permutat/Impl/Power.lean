import GapKernel.Integer.Impl.Arith
import GapKernel.Permutat.Impl.Perm

/-!
This module contains the powers of permutations.
-/

/--
The loop `for ( q = pt[p]; q != p; q = pt[q] )`. A cycle has at most `fuel` points.
-/
def cycleLoop {σ : Type} (pt : List Nat) (p : Nat) (body : Nat → σ → Result σ)
    : Nat → Nat → σ → Result σ
  | 0, _, _ => throw .fuel
  | fuel + 1, q, s => do
    if q = p then
      pure s
    else
      let s ← body q s
      cycleLoop pt p body fuel (← readEntry pt q) s

-- `exp` steps `r = pt[r]`
def repeatMap (pt : List Nat) : Nat → Nat → Result Nat
  | 0, r => pure r
  | exp + 1, r => do repeatMap pt exp (← readEntry pt r)

-- `ptKnown[q] = 1`
def setKnown (known : List Nat) (q : Nat) : Result (List Nat) :=
  if q < known.length then pure (known.set q 1) else throw .access

namespace PermImpl

open Integer

-- `len++; ptKnown[q] = 1;`
def countPoint (q : Nat) (s : Nat × List Nat) : Result (Nat × List Nat) := do
  pure (s.1 + 1, ← setKnown s.2 q)

-- The length of the cycle of `p`. All points of the cycle but `p` are marked.
def cycleLength (ptL : List Nat) (p : Nat) (known : List Nat) : Result (Nat × List Nat) := do
  cycleLoop ptL p countPoint ptL.length (← readEntry ptL p) (1, known)

def storeNext (ptL : List Nat) (store : List Nat → Nat → Nat → Result (List Nat)) (q : Nat)
    (s : List Nat × Nat) : Result (List Nat × Nat) := do
  let ptP ← store s.1 q s.2
  pure (ptP, ← readEntry ptL s.2)

def raiseCycle (ptL : List Nat) (store : List Nat → Nat → Nat → Result (List Nat)) (exp p : Nat)
    (ptP : List Nat) : Result (List Nat) := do
  let r ← repeatMap ptL exp p
  let ptP ← store ptP p r
  let r ← readEntry ptL r
  let s ← cycleLoop ptL p (storeNext ptL store) ptL.length (← readEntry ptL p) (ptP, r)
  pure s.1

def raiseCycles (ptL : List Nat) (store : List Nat → Nat → Nat → Result (List Nat))
    (expOf : Nat → Result Nat) (ptP : List Nat) : Result (List Nat) := do
  let s ← forLoop round ptL.length 0 (List.replicate ptL.length 0, ptP)
  pure s.2
where
  round (p : Nat) (s : List Nat × List Nat) : Result (List Nat × List Nat) := do
    if (← readEntry s.1 p) = 0 then
      let (len, known) ← cycleLength ptL p s.1
      let ptP ← raiseCycle ptL store (← expOf len) p s.2
      pure (known, ptP)
    else
      pure s

-- `INT_INTOBJ( ModInt( opR, INTOBJ_INT(len) ) )`
def modLength {w : IntSize} (P : Platform w) (opR : IntegerObj) (len : Nat) : Result Nat := do
  match ← modInt P opR (INTOBJ_INT w len) with
  | .intobj o => pure (INT_INTOBJ o).toNat
  | _ => throw .access

-- The entries of the power, for an exponent other than 0, 1 and -1.
def powEntries {w : IntSize} (P : Platform w) (T : PermTnum) (ptL : List Nat) (opR : IntegerObj)
    : Result (List Nat) :=
  let deg := ptL.length
  let ptP := List.replicate deg 0
  let storeImage (ptP : List Nat) (q r : Nat) := writeEntry T ptP q r
  let storePreimage (ptP : List Nat) (q r : Nat) := writeEntry T ptP r q
  match opR with
  | .intobj o =>
    let exp := INT_INTOBJ o
    if 2 ≤ exp ∧ exp < 8 then
      scatter T 0 deg pure (fun p => repeatMap ptL exp.toNat p) ptP
    else if 8 ≤ exp then
      raiseCycles ptL storeImage (fun len => pure (exp.toNat % len)) ptP
    else if -8 < exp ∧ exp < 0 then
      scatter T 0 deg (fun p => repeatMap ptL (-exp).toNat p) pure ptP
    else if exp ≤ -8 then
      raiseCycles ptL storePreimage (fun len => pure ((-exp).toNat % len)) ptP
    else
      pure ptP
  | .intpos _ => raiseCycles ptL storeImage (modLength P opR) ptP
  | .intneg _ =>
    let opR := aInvInt w opR
    raiseCycles ptL storePreimage (fun len => do pure ((← modLength P opR len) % len)) ptP

def powPermInt {w : IntSize} (P : Platform w) (T : PermTnum) (h : PermHeap) (opL : Nat)
    (opR : IntegerObj) : Result (PermHeap × Nat) := do
  if opR = INTOBJ_INT w 0 then
    pure (h, h.identityPerm)
  else if opR = INTOBJ_INT w 1 then
    pure (h, opL)
  else if opR = INTOBJ_INT w (-1) then
    invPerm T h opL
  else
    let ptL ← h.constAddrPerm T opL
    if ptL.length = 0 then
      pure (h, h.identityPerm)
    else
      let ptP ← powEntries P T ptL opR
      pure (h.newPerm T ptP)

end PermImpl

namespace PermOps

def powPermInt {w : IntSize} (P : Platform w) (h : PermHeap) (opL : Nat) (opR : IntegerObj)
    : Result (PermHeap × Nat) := do
  PermImpl.powPermInt P (← h.bag opL).tnum h opL opR

end PermOps

namespace PermImpl

open Integer

-- `while ( s != 0 ) { t = s;  s = gcd % s;  gcd = t; }`
def gcdLoop (gcd s : Nat) : Nat :=
  if s = 0 then gcd else gcdLoop s (gcd % s)
termination_by s
decreasing_by exact Nat.mod_lt gcd (Nat.pos_of_ne_zero ‹_›)

structure SmallestImage where
  q : Nat
  min : Nat
  n : Nat

/--
The smallest element in the cycle of `p` at a position that is `x` modulo `gcd` and coprime to the
length of the cycle.
-/
def smallestImage (ptPerm : List Nat) (p len gcd x : Nat) : Result SmallestImage :=
  forLoop round len 0 { q := p, min := ptPerm.length - 1, n := 0 }
where
  round (l : Nat) (s : SmallestImage) : Result SmallestImage := do
    let gcd2 := gcdLoop len l
    let q ← readEntry ptPerm s.q
    if l % gcd = x ∧ gcd2 = 1 ∧ s.q ≤ s.min then
      pure { q := q, min := s.q, n := l }
    else
      pure { s with q := q }

def storeMin (T : PermTnum) (ptPerm : List Nat) (q : Nat) (s : List Nat × Nat)
    : Result (List Nat × Nat) := do
  let min ← readEntry ptPerm s.2
  let ptSmall ← writeEntry T s.1 q min
  pure (ptSmall, min)

-- The cycle of `p` is raised to the power that maps `p` to `min`, and put into the result.
def putCycle (T : PermTnum) (ptPerm : List Nat) (p min : Nat) (ptSmall : List Nat)
    : Result (List Nat) := do
  let ptSmall ← writeEntry T ptSmall p min
  let s ← cycleLoop ptPerm p (storeMin T ptPerm) ptPerm.length (← readEntry ptPerm p) (ptSmall, min)
  pure s.1

-- The order is added to the power until the power is `n` modulo `len`.
def newPower {w : IntSize} (P : Platform w) (ord : IntegerObj) (len n : Nat)
    : Nat → IntegerObj → Result IntegerObj
  | 0, _ => throw .fuel
  | fuel + 1, pow => do
    if (← modLength P pow len) = n then
      pure pow
    else
      newPower P ord len n fuel (sumInt P pow ord)

structure SmallestState where
  ptKnown : List Nat
  ptSmall : List Nat
  ord : IntegerObj
  pow : IntegerObj

def smallestCycle {w : IntSize} (P : Platform w) (T : PermTnum) (ptPerm : List Nat) (p : Nat)
    (s : SmallestState) : Result SmallestState := do
  if (← readEntry s.ptKnown p) = 0 then
    let (len, ptKnown) ← cycleLength ptPerm p s.ptKnown
    let gcd := gcdLoop len (← modLength P s.ord len)
    let x ← modLength P s.pow gcd
    let image ← smallestImage ptPerm p len gcd x
    let ptSmall ← putCycle T ptPerm p image.min s.ptSmall
    let pow ← newPower P s.ord len image.n len s.pow
    let ord := prodInt P s.ord (INTOBJ_INT w (len / gcd : Nat))
    pure { ptKnown, ptSmall, ord, pow }
  else
    pure s

def smallestGeneratorPerm {w : IntSize} (P : Platform w) (T : PermTnum) (h : PermHeap) (perm : Nat)
    : Result (PermHeap × Nat) := do
  let ptPerm ← h.constAddrPerm T perm
  let deg := ptPerm.length
  let s ← forLoop (smallestCycle P T ptPerm) deg 0
    { ptKnown := List.replicate deg 0
      ptSmall := List.replicate deg 0
      ord := INTOBJ_INT w 1
      pow := INTOBJ_INT w 0 }
  pure (h.newPerm T s.ptSmall)

end PermImpl

namespace PermOps

def smallestGeneratorPerm {w : IntSize} (P : Platform w) (h : PermHeap) (perm : Nat)
    : Result (PermHeap × Nat) := do
  PermImpl.smallestGeneratorPerm P (← h.bag perm).tnum h perm

end PermOps
