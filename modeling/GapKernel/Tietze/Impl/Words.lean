import GapKernel.PlistKTNum
import GapKernel.Tietze.Impl.Search

/-!
This module contains the routine that counts how often the generators of a Tietze stack occur, and
the reduction of a word by a system of rewriting rules.
-/

structure TzCounts where
  cnts : List Nat
  mins : List (Option Nat)
  lens : List (Option Nat)
  deriving DecidableEq, Repr

structure SingleState where
  nr : Nat
  nrm : Nat
  min : Nat

-- An entry that is `0` in the source is not bound.
structure GeneralState where
  ptCnts : List Nat
  ptMins : List (Option Nat)
  ptLens : List (Option Nat)
  ptAux : List Nat

def countLetters (ptRel : List Int) (num : Int) : Result Nat :=
  forLoop (fun k nr1 => do
    let next ← elmPlist ptRel k
    return if next = num ∨ next = -num then nr1 + 1 else nr1) ptRel.length 1 0

def isBetter (ptRels : List (List Int)) (leng nr1 : Nat) (s : SingleState) : Result Bool :=
  if s.nrm = 0 ∨ 0 < nr1 ∧ nr1 < s.nrm then
    return true
  else if nr1 = s.nrm then do
    let rel ← elmPlist ptRels s.min
    return leng < rel.length
  else
    return false

def singleRound (ptRels : List (List Int)) (num : Int) (i : Nat) (s : SingleState)
    : Result SingleState := do
  let rel ← elmPlist ptRels i
  let nr1 ← countLetters rel num
  if ← isBetter ptRels rel.length nr1 s then
    return ⟨s.nr + nr1, nr1, i⟩
  else
    return ⟨s.nr + nr1, s.nrm, s.min⟩

def singleOccurrences (ptRels : List (List Int)) (numrels : Nat) (num : Int) : Result TzCounts := do
  let s ← forLoop (singleRound ptRels num) numrels 1 ⟨0, 0, 0⟩
  if s.nr ≠ 0 then
    return ⟨[s.nr], [some s.min], [some s.nrm]⟩
  else
    return ⟨[s.nr], [], []⟩

def countGens (ptRel : List Int) (numgens i : Nat) (ptAux : List Nat) : Result (List Nat) :=
  forLoop (fun k ptAux => do
    let next := (← elmPlist ptRel k).natAbs
    if next = 0 ∨ numgens < next then
      throw (.quit "invalid entry [%d][%d] in Tietze rels list" i k)
    let c ← elmPlist ptAux next
    setElmPlist ptAux next (c + 1)) ptRel.length 1 ptAux

def isLess (ptRels : List (List Int)) (leng c : Nat) (min len : Option Nat) : Result Bool :=
  match len with
  | none => return true
  | some len =>
    if c < len then
      return true
    else if c = len then
      match min with
      | none => throw .access
      | some min => do
        let rel ← elmPlist ptRels min
        return leng < rel.length
    else
      return false

-- The counts of the relator `i` are added.
def collectRound (w : IntSize) (ptRels : List (List Int)) (leng i k : Nat) (s : GeneralState)
    : Result GeneralState := do
  let c ← elmPlist s.ptAux k
  if c = 0 then
    return s
  else
    let ptAux ← setElmPlist s.ptAux k 0
    let cnt ← elmPlist s.ptCnts k
    if w.intIntobjMax < cnt + c then
      throw (.quit "integer overflow" 0 0)
    let ptCnts ← setElmPlist s.ptCnts k (cnt + c)
    if ← isLess ptRels leng c (← elmPlist s.ptMins k) (← elmPlist s.ptLens k) then
      let ptLens ← setElmPlist s.ptLens k (some c)
      let ptMins ← setElmPlist s.ptMins k (some i)
      return ⟨ptCnts, ptMins, ptLens, ptAux⟩
    else
      return ⟨ptCnts, s.ptMins, s.ptLens, ptAux⟩

def generalRound (w : IntSize) (ptRels : List (List Int)) (numgens i : Nat) (s : GeneralState)
    : Result GeneralState := do
  let rel ← elmPlist ptRels i
  let ptAux ← countGens rel numgens i s.ptAux
  forLoop (collectRound w ptRels rel.length i) numgens 1 { s with ptAux := ptAux }

-- `while (ptMins[k] == 0) k--;`. At position 0 there is the length, which is still 0.
def lastBound (ptMins : List (Option Nat)) : Nat → Result Nat
  | 0 => throw .access
  | k + 1 => do
    match ← elmPlist ptMins (k + 1) with
    | none => lastBound ptMins k
    | some _ => return k + 1

def generalOccurrences (w : IntSize) (ptRels : List (List Int)) (numrels numgens : Nat)
    : Result TzCounts := do
  let zeros := List.replicate numgens 0
  let unbound := List.replicate numgens none
  let s ← forLoop (generalRound w ptRels numgens) numrels 1 ⟨zeros, unbound, unbound, zeros⟩
  let k ← lastBound s.ptMins numgens
  return ⟨s.ptCnts, s.ptMins.take k, s.ptLens.take k⟩

namespace TietzeStack

def funcTzOccurrences (w : IntSize) (tietze : TietzeStack) (args : List Int) : Result TzCounts := do
  if 1 < args.length then
    throw (.quit "usage: TzOccurrences( <Tietze stack>[, <gen no.> ] )" 0 0)
  checkTietzeRelators tietze
  match args with
  | num :: _ =>
    if num ≤ 0 ∨ tietze.numgens < num then
      throw (.quit "given generator number out of range" 0 0)
    singleOccurrences tietze.relators tietze.numrels num
  | [] =>
    if tietze.numgens = 1 then
      singleOccurrences tietze.relators tietze.numrels tietze.numgens
    else
      generalOccurrences w tietze.relators tietze.numrels tietze.numgens

end TietzeStack

structure LetterRep where
  tnum : PlistKTNum
  entries : List Int
  deriving DecidableEq, Repr

abbrev TzRule : Type :=
  List Int × List Int

namespace LetterRep

def compareLoop (w rul : List Int) : Nat → Nat → Result (Bool × Nat)
  | 0, p => return (true, p)
  | j + 1, p => do
    if (← elmPlist w p) = (← elmPlist rul (j + 1)) then
      compareLoop w rul j (p - 1)
    else
      return (false, p - 1)

def findRule (w : List Int) (i : Nat) : List TzRule → Result (Option (TzRule × Nat))
  | [] => return none
  | rule :: tzrules => do
    let lrul := rule.1.length
    if lrul ≤ i then
      let (eq, p) ← compareLoop w rule.1 lrul i
      if eq then
        return some (rule, p)
      else
        findRule w i tzrules
    else
      findRule w i tzrules

def replace (w : LetterRep) (rul : List Int) (p i : Nat) : LetterRep :=
  let entries := w.entries.take p ++ rul ++ w.entries.drop i
  if entries.length = 0 then
    ⟨.empty, []⟩
  else
    ⟨w.tnum, entries⟩

def reduceLoop (tzrules : List TzRule) : Nat → Nat → LetterRep → Result LetterRep
  | 0, _, _ => throw .fuel
  | fuel + 1, i, w => do
    if i ≤ w.entries.length then
      match ← findRule w.entries i tzrules with
      | none => reduceLoop tzrules fuel (i + 1) w
      | some (rule, p) =>
        reduceLoop tzrules fuel (i - rule.1.length + 1) (w.replace rule.2 p i)
    else
      return w

def funcReduceLetrepWordsRewSys (fuel : Nat) (tzrules : List TzRule) (w : LetterRep)
    : Result LetterRep :=
  reduceLoop tzrules fuel 1 w

end LetterRep
