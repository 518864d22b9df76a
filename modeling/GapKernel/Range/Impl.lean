import GapKernel.Progression
import GapKernel.Integer.Impl.Arith

/-!
This module contains the bags of ranges. A range stores its length, its first element and its
increment, and its type number tells whether it is strictly sorted.
-/

inductive RangeTnum where
  | nsort
  | ssort
  deriving DecidableEq, Repr

structure RangeBag where
  tnum : RangeTnum
  len : Int
  low : Int
  inc : Int
  deriving DecidableEq, Repr

namespace RangeBag

def elms (r : RangeBag) : List Int :=
  (List.range r.len.toNat).map fun (pos : Nat) => r.low + pos * r.inc

def last (r : RangeBag) : Int :=
  r.low + (r.len - 1) * r.inc

@[simp]
theorem mem_elms {r : RangeBag} {z : Int}
    : z ∈ r.elms ↔ ∃ pos : Nat, pos < r.len.toNat ∧ r.low + pos * r.inc = z := by
  simp [elms]

theorem pairwise_elms {r : RangeBag} (h : 0 < r.inc) : r.elms.Pairwise (· < ·) := by
  unfold elms
  rw [List.pairwise_map]
  apply List.Pairwise.imp _ List.pairwise_lt_range
  intro i j hij
  have : (i : Int) * r.inc < j * r.inc := Int.mul_lt_mul_of_pos_right (by omega) h
  omega

/--
What the functions for ranges rely on, see `SET_LEN_RANGE` and `NEW_RANGE`.
-/
structure IsRange (r : RangeBag) : Prop where
  two_le_len : 2 ≤ r.len
  ssort_iff : r.tnum = .ssort ↔ 0 < r.inc

end RangeBag

structure Range (w : IntSize) extends RangeBag where
  isRange : toRangeBag.IsRange
  inc_ne : inc ≠ 0
  len_small : w.IsSmall len
  low_small : w.IsSmall low
  inc_small : w.IsSmall inc
  last_small : w.IsSmall toRangeBag.last

namespace Range

variable {w : IntSize}

def progression (r : Range w) : Progression :=
  if h : r.inc < 0 then
    { low := r.last, inc := -r.inc, last := r.low, inc_pos := by omega }
  else
    { low := r.low, inc := r.inc, last := r.last, inc_pos := by have := r.inc_ne; omega }

theorem mem_progression (r : Range w) (z : Int) : z ∈ r.progression ↔ z ∈ r.elms := by
  have hlen := r.isRange.two_le_len
  rw [Progression.mem_def, RangeBag.mem_elms]
  unfold progression
  split
  . next h =>
    have hlow : r.low = r.last + (r.len - 1) * -r.inc := by
      unfold RangeBag.last
      ring
    have hcount : (∃ pos : Nat, pos < r.len.toNat ∧ r.low + pos * r.inc = z)
        ↔ ∃ pos : Nat, pos < r.len.toNat ∧ r.last + pos * -r.inc = z := by
      constructor
      . intro ⟨pos, hlt, hz⟩
        refine ⟨r.len.toNat - 1 - pos, by omega, ?_⟩
        have : ((r.len.toNat - 1 - pos : Nat) : Int) = r.len - 1 - pos := by omega
        rw [this, ← hz, RangeBag.last]
        ring
      . intro ⟨pos, hlt, hz⟩
        refine ⟨r.len.toNat - 1 - pos, by omega, ?_⟩
        have : ((r.len.toNat - 1 - pos : Nat) : Int) = r.len - 1 - pos := by omega
        rw [this, ← hz, RangeBag.last]
        ring
    rw [hcount, Progression.exists_lt_iff (by omega), ← hlow]
  . next h =>
    have hinc : 0 < r.inc := by
      have := r.inc_ne
      omega
    rw [Progression.exists_lt_iff hinc]
    rfl

end Range

inductive ListBag where
  | plistEmpty
  | range (r : RangeBag)
  deriving DecidableEq, Repr

namespace ListBag

def elms (l : ListBag) : List Int :=
  match l with
  | plistEmpty => []
  | range r => r.elms

def IsValid (l : ListBag) : Prop :=
  match l with
  | plistEmpty => True
  | range r => r.IsRange

end ListBag

/-!
This section contains the intersection of two ranges, `INTER_RANGE`. Every machine operation whose
exact result could leave the `Int` range is wrapped. Sums and products of lengths are computed in
`UInt`, they are wrapped once, when they are assigned to an `Int`.
-/

def egcd (w : IntSize) (a b : Int) : Int × Int × Int :=
  go w a b 1 0 0 1
where
  go (w : IntSize) (a b lastx lasty x y : Int) : Int × Int × Int :=
    if b ≠ 0 then
      let q := a.tdiv b
      go w b (a.tmod b) x y (w.wrap (lastx - w.wrap (q * x))) (w.wrap (lasty - w.wrap (q * y)))
    else
      (a, lastx, lasty)
  termination_by b.natAbs
  decreasing_by
    rw [Int.natAbs_tmod]
    apply Nat.mod_lt
    omega

/--
`FuncINTER_RANGE` on a mutable range `r1` and a range `r2`, the result is the bag `r1`.
-/
def interRange (w : IntSize) (r1 r2 : RangeBag) : ListBag :=
  let (low1, inc1) := upwards w r1
  let (low2, inc2) := upwards w r2
  if low1 > low2 then
    inter w r1 low2 inc2 r2.len low1 inc1 r1.len
  else
    inter w r1 low1 inc1 r1.len low2 inc2 r2.len
where
  -- The first element and the increment, from below if the increment is negative.
  upwards (w : IntSize) (r : RangeBag) : Int × Int :=
    if r.inc < 0 then
      (w.wrap (r.low + (r.len - 1) * r.inc), w.wrap (-r.inc))
    else
      (r.low, r.inc)
  -- The rest of the function, after the ranges have been exchanged where `low1 > low2`.
  inter (w : IntSize) (r1 : RangeBag) (low1 inc1 len1 low2 inc2 len2 : Int) : ListBag :=
    let (g, _, y) := egcd w inc1 inc2
    let inci := w.wrap (inc1.tdiv g * inc2)
    if inci.tdiv inc2 ≠ inc1.tdiv g then
      .plistEmpty
    else if (w.wrap (low2 - low1)).tmod g ≠ 0 then
      .plistEmpty
    else
      let x := (w.wrap (w.wrap (-y) * (w.wrap (low2 - low1)).tdiv g)).tmod (inc1.tdiv g)
      let x := if x < 0 then w.wrap (x + inc1.tdiv g) else x
      let lowi := w.wrap (low2 + w.wrap (inc2 * x))
      let x := w.wrap (low1 + (len1 - 1) * inc1 - lowi)
      let y := w.wrap (low2 + (len2 - 1) * inc2 - lowi)
      if x < 0 ∨ y < 0 then
        .plistEmpty
      else
        let leni := if x > y then w.wrap (1 + y.tdiv inci) else w.wrap (1 + x.tdiv inci)
        .range { r1 with low := w.intobj lowi, len := w.intobj leni, inc := w.intobj inci }

/-!
This section contains the functions that build a range from its bounds: `Range2Check` and
`Range3Check` for compiled code, `EvalRangeExpr` for the executor.
-/

inductive PlistTnum where
  | plist
  | plistEmpty
  | plistCycSsort
  deriving DecidableEq, Repr

inductive RangeExpr where
  | plist (tnum : PlistTnum) (elms : List Int)
  | range (r : RangeBag)
  deriving DecidableEq, Repr

-- The entries of the bag are immediate integers, `INT_INTOBJ` reads them again.
def newRange (w : IntSize) (len low inc : Int) : RangeBag where
  tnum := if 0 < inc then .ssort else .nsort
  len := w.intobj len
  low := w.intobj low
  inc := w.intobj inc

def range2Check (w : IntSize) (f l : Int) : Result RangeExpr :=
  if f > l then
    return .plist .plist []
  else if f = l then
    return .plist .plist [f]
  else
    return .range (newRange w (w.wrap (w.wrap (l - f) + 1)) f 1)

def range3Check (w : IntSize) (f second l : Int) : Result RangeExpr :=
  if f = second then
    throw (.quit "Range: <second> must not be equal to <first> (%d)" f 0)
  else
    let i := w.wrap (second - f)
    if (w.wrap (l - f)).tmod i ≠ 0 then
      throw (.quit "Range: <last>-<first> (%d) must be divisible by <inc> (%d)" (w.wrap (l - f)) i)
    else if (0 < i ∧ f > l) ∨ (i < 0 ∧ f < l) then
      return .plist .plist []
    else if f = l then
      return .plist .plist [f]
    else
      return .range (newRange w (w.wrap ((w.wrap (l - f)).tdiv i + 1)) f i)

def rangeCheck (w : IntSize) (first : Int) (second : Option Int) (last : Int) : Result RangeExpr :=
  match second with
  | none => range2Check w first last
  | some second => range3Check w first second last

def evalRangeExpr (w : IntSize) (low : Int) (second : Option Int) (high : Int)
    : Result RangeExpr := do
  let inc ← evalInc w low second
  if (w.wrap (high - low)).tmod inc ≠ 0 then
    throw (.quit "Range: <last>-<first> (%d) must be divisible by <inc> (%d)" (w.wrap (high - low))
      inc)
  else if (0 < inc ∧ high < low) ∨ (inc < 0 ∧ low < high) then
    return .plist .plistEmpty []
  else if low = high then
    return .plist .plistCycSsort [low]
  else if w.wrap ((w.wrap (high - low)).tdiv inc + 1) > w.intIntobjMax then
    throw (.quit "Range: the length of a range must be a small integer" 0 0)
  else
    return .range (newRange w (w.wrap ((w.wrap (high - low)).tdiv inc + 1)) low inc)
where
  evalInc (w : IntSize) (low : Int) (second : Option Int) : Result Int :=
    match second with
    | none => return 1
    | some ival =>
      if ival = low then
        throw (.quit "Range: <second> must not be equal to <first> (%d)" low 0)
      else
        return w.wrap (ival - low)

section Conv

/-!
This section contains the test for ranges, which converts plain lists to ranges, and the access to
the elements of a range. An object is the word that refers to it: an odd number for an immediate
integer, and `0` for an entry that is not bound.
-/

open Integer (INT_INTOBJ)

-- The word that `INTOBJ_INT` computes for a C integer.
def intobjWord (w : IntSize) (i : Int) : Int :=
  w.wrap (4 * i + 1)

def isIntobj (o : Int) : Bool :=
  o % 2 = 1

structure PlainWords (w : IntSize) where
  words : List Int
  isObj : ∀ o ∈ words, isIntobj o = true → ∃ i, w.IsSmall i ∧ o = 4 * i + 1
  len_small : w.IsSmall words.length

inductive ListObj (w : IntSize) where
  | plist (list : PlainWords w)
  | range (r : RangeBag)

-- The first position from `i` on whose entry is not the expected one.
def scanRange (w : IntSize) (words : List Int) (low inc : Int) : Nat → Nat → Nat
  | 0, i => i
  | n + 1, i =>
    if words.getD (i - 1) 0 ≠ intobjWord w (w.wrap (low + w.wrap (((i : Int) - 1) * inc))) then
      i
    else
      scanRange w words low inc n (i + 1)

def isRange (w : IntSize) (list : ListObj w) : Bool × ListObj w :=
  match list with
  | .range r => (true, .range r)
  | .plist l =>
    if l.words.length = 0 then
      (true, .plist l)
    else if l.words.length = 1 ∧ isIntobj (l.words.getD 0 0) then
      (true, .plist l)
    else if l.words.getD 0 0 = 0 ∨ !isIntobj (l.words.getD 0 0) then
      (false, .plist l)
    else if l.words.getD 1 0 = 0 ∨ !isIntobj (l.words.getD 1 0) then
      (false, .plist l)
    else if l.words.getD 0 0 = l.words.getD 1 0 then
      (false, .plist l)
    else
      let len := l.words.length
      let low := INT_INTOBJ (l.words.getD 0 0)
      let inc := w.wrap (INT_INTOBJ (l.words.getD 1 0) - low)
      let i := scanRange w l.words low inc (len - 2) 3
      if len < i then
        (true, .range (newRange w len low inc))
      else
        (false, .plist l)

def getElmRange (w : IntSize) (r : RangeBag) (pos : Int) : Int :=
  intobjWord w (w.wrap (r.low + w.wrap ((pos - 1) * r.inc)))

/--
`PosRange`, `none` is `fail`. The value and the start are objects.
-/
def posRange (w : IntSize) (r : RangeBag) (val start : Int) : Option Int :=
  if !isIntobj start then
    none
  else
    let istart := INT_INTOBJ start
    let first := w.wrap (r.low + w.wrap (istart * r.inc))
    let last := w.wrap (r.low + w.wrap ((r.len - 1) * r.inc))
    let v := INT_INTOBJ val
    let diff := w.wrap (v - r.low)
    let k :=
      if isIntobj val ∧ istart < r.len then
        if 0 < r.inc ∧ first ≤ v ∧ v ≤ last ∧ diff.tmod r.inc = 0 then
          w.wrap (diff.tdiv r.inc + 1)
        else if r.inc < 0 ∧ last ≤ v ∧ v ≤ first ∧ diff.tmod r.inc = 0 then
          w.wrap (diff.tdiv r.inc + 1)
        else
          0
      else
        0
    if k = 0 then none else some (intobjWord w k)

inductive PlainRangeTnum where
  | plistEmpty
  | plistCycSsort
  | plistCycNsort
  deriving DecidableEq, Repr

def plainRange (w : IntSize) (r : RangeBag) : PlainRangeTnum × List Int :=
  let tnum :=
    if r.len = 0 then
      .plistEmpty
    else if r.inc > 0 then
      .plistCycSsort
    else
      .plistCycNsort
  (tnum, (List.range r.len.toNat).map (fun (k : Nat) =>
    intobjWord w (w.wrap (r.low + w.wrap ((((k : Int) + 1) - 1) * r.inc)))))

end Conv
