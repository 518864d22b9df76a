import GapKernel.IntObj
import GapKernel.Plist

/-!
This module contains the tables that give every name its number: the tables of the global
variables, of the record names and of the names of files.
-/

structure SymbolTable where
  count : Nat
  -- The ids in the slots, `0` for a free slot
  table : List Nat
  -- The names of the ids, which `newSymbolFunc` stores and `nameFunc` reads
  names : List (List UInt8)
  deriving DecidableEq, Repr

namespace SymbolTable

-- `InitSymbolTableKernel` and `InitSymbolTableLibrary`
def init (initialSize : Nat) : SymbolTable :=
  ⟨0, List.replicate initialSize 0, []⟩

-- A `Char` has a sign.
def hashString (w : IntSize) (name : List UInt8) : BitVec w.bits :=
  name.foldl (fun hash c => 65599 * hash + c.toBitVec.signExtend w.bits) 0

variable (w : IntSize)

def startPos (sizeTable : Nat) (name : List UInt8) : Result Nat :=
  if sizeTable = 0 then
    throw .undefined
  else
    return (hashString w name).toNat % sizeTable + 1

def nextPos (sizeTable pos : Nat) : Nat :=
  pos % sizeTable + 1

-- The condition of the `while` loop, with the id where the loop ends.
def probe (s : SymbolTable) (name : List UInt8) (pos : Nat) : Result (Option Nat) := do
  let id ← elmPlist s.table pos
  if id = 0 then
    return some 0
  else if (← elmPlist s.names id) = name then
    return some id
  else
    return none

def findSymbol (s : SymbolTable) (name : List UInt8) : Nat → Nat → Result (Nat × Nat)
  | 0, _ => throw .fuel
  | fuel + 1, pos => do
    match ← s.probe name pos with
    | some id => return (pos, id)
    | none => s.findSymbol name fuel (nextPos s.table.length pos)

def findFree (table : List Nat) : Nat → Nat → Result Nat
  | 0, _ => throw .fuel
  | fuel + 1, pos => do
    if (← elmPlist table pos) = 0 then
      return pos
    else
      findFree table fuel (nextPos table.length pos)

def rehash (names : List (List UInt8)) (table : List Nat) : List Nat → Result (List Nat)
  | [] => return table
  | id :: ids => do
    if id = 0 then
      rehash names table ids
    else
      let pos ← startPos w table.length (← elmPlist names id)
      let pos ← findFree table table.length pos
      rehash names (← setElmPlist table pos id) ids

-- Entry `id` of the list of names, which is made longer before
def newSymbolFunc (names : List (List UInt8)) (id : Nat) (name : List UInt8)
    : Result (List (List UInt8)) :=
  setElmPlist (names ++ List.replicate (id - names.length) []) id name

-- What `LookupSymbol` does with the free slot that it has found
def newSymbol (s : SymbolTable) (pos : Nat) (name : List UInt8) : Result SymbolTable := do
  let id := s.count + 1
  let table ← setElmPlist s.table pos id
  let names ← newSymbolFunc s.names id name
  if table.length < 3 * id / 2 then
    return ⟨id, ← rehash w names (List.replicate (2 * table.length + 1) 0) table, names⟩
  else
    return ⟨id, table, names⟩

-- The check of the length, and the search
def search (s : SymbolTable) (name : List UInt8) : Result (Nat × Nat) := do
  if name.length > 1023 then
    throw (.quit "Symbol names must consist of at most 1023 characters" 0 0)
  let pos ← startPos w s.table.length name
  s.findSymbol name s.table.length pos

def lookupSymbol (s : SymbolTable) (name : List UInt8) : Result (Nat × SymbolTable) := do
  let (pos, id) ← s.search w name
  if id ≠ 0 then
    return (id, s)
  else
    let s ← s.newSymbol w pos name
    return (s.count, s)

end SymbolTable
