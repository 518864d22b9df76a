import GapKernel.ForLoop
import GapKernel.FreeWord.Reduction
import GapKernel.Plist

/-!
This module contains the tree of subgroup generators that the modified Todd-Coxeter method builds,
and the word of a coset factor. The tree type is 2, the general case. `FuncTreeEntry` is the copy of
`TreeEntryC` that checks the tree and freely reduces the word.
-/

/--
`objTree`, `objTree1`, `objTree2`. An entry of `tree1` is zero for a primary generator, otherwise
the generator is the product of the entries in `tree1` and `tree2`.
-/
structure TreeBag where
  tree1 : List Int
  tree2 : List Int
  numgens : Nat
  deriving DecidableEq, Repr

namespace TreeBag

structure IsTree (tree : TreeBag) : Prop where
  numgens_le : tree.numgens ≤ tree.tree1.length
  length_eq : tree.tree2.length = tree.tree1.length
  smaller : ∀ k, 0 < k → k ≤ tree.numgens → entryPlist tree.tree1 k ≠ 0 →
    (entryPlist tree.tree1 k).natAbs < k ∧ (entryPlist tree.tree2 k).natAbs < k

def table (tree : TreeBag) : ProductTable where
  entry k :=
    let t1 := entryPlist tree.tree1 k
    let t2 := entryPlist tree.tree2 k
    if k ≤ tree.numgens ∧ t1 ≠ 0 ∧ t1.natAbs < k ∧ t2.natAbs < k then
      some (t1, t2)
    else
      none
  smaller := by
    intro k u v h
    simp only [Option.ite_none_right_eq_some, Option.some.injEq, Prod.mk.injEq] at h
    obtain ⟨⟨_, _, h1, h2⟩, rfl, rfl⟩ := h
    exact ⟨h1, h2⟩

def IsLetter (tree : TreeBag) (u : Int) : Prop :=
  u.natAbs ≤ tree.numgens

instance (tree : TreeBag) (u : Int) : Decidable (tree.IsLetter u) :=
  inferInstanceAs (Decidable (_ ≤ _))

variable {tree : TreeBag}

theorem entry_of_eq_zero {k : Nat} (h : entryPlist tree.tree1 k = 0)
    : tree.table.entry k = none := by
  simp [table, h]

theorem entry_of_ne_zero (htree : tree.IsTree) {k : Nat} (hk : 0 < k) (hle : k ≤ tree.numgens)
    (h : entryPlist tree.tree1 k ≠ 0)
    : tree.table.entry k = some (entryPlist tree.tree1 k, entryPlist tree.tree2 k) := by
  have hsmaller := htree.smaller k hk hle h
  simp only [table]
  rw [if_pos ⟨hle, h, hsmaller⟩]

end TreeBag

def wordSize : Nat :=
  1023

/-- `wordList`, with `wordList[0]` as `leng`. -/
structure WordList where
  leng : Nat
  buffer : List Int
  deriving DecidableEq, Repr

namespace WordList

structure IsWord (w : WordList) : Prop where
  length_eq : w.buffer.length = wordSize
  leng_le : w.leng ≤ wordSize

def letters (w : WordList) : List Int :=
  w.buffer.take w.leng

end WordList

structure FactorState where
  tree : TreeBag
  wordList : WordList
  deriving DecidableEq, Repr

/-!
This section contains the functions that collect the factors of a coset and enter them into the
tree: `InitializeCosetFactorWord`, `TreeEntryC` and `AddCosetFactor2`.
-/

namespace TreeBag

def components (tree : TreeBag) (u : Int) : Result (Option (Int × Int)) := do
  let t1 ← elmPlist tree.tree1 u.natAbs
  if t1 ≠ 0 then
    let t2 ← elmPlist tree.tree2 u.natAbs
    if u > 0 then
      return some (t1, t2)
    else
      return some (-t2, -t1)
  else
    return none

def search (tree : TreeBag) (t1 t2 : Int) (k : Nat) : Result Nat := do
  if k ≤ tree.numgens then
    if (← elmPlist tree.tree1 k) = t1 ∧ (← elmPlist tree.tree2 k) = t2 then
      return k
    else
      search tree t1 t2 (k + 1)
  else
    return tree.numgens + 1
termination_by tree.numgens + 1 - k

def grow (tree : TreeBag) (treesize : Nat) : TreeBag where
  tree1 := tree.tree1 ++ List.replicate (treesize - tree.tree1.length) 0
  tree2 := tree.tree2 ++ List.replicate (treesize - tree.tree2.length) 0
  numgens := tree.numgens

def ensure (tree : TreeBag) (numgens : Nat) : TreeBag :=
  if tree.tree1.length < numgens then
    tree.grow (2 * tree.tree1.length)
  else
    tree

def extend (tree : TreeBag) (t1 t2 : Int) : Result TreeBag := do
  let numgens := tree.numgens + 1
  let tree1 ← setElmPlist (tree.ensure numgens).tree1 numgens t1
  let tree2 ← setElmPlist (tree.ensure numgens).tree2 numgens t2
  return { tree1, tree2, numgens }

def enter (tree : TreeBag) (u v : Int) : Result (Int × TreeBag) := do
  let (t1, t2) := if u < -v then (u, v) else (-v, -u)
  let k ← tree.search t1 t2 (max u.natAbs v.natAbs + 1)
  let tree ← if k > tree.numgens then tree.extend t1 t2 else pure tree
  return (if u > -v then -k else k, tree)

def multiply (tree : TreeBag) (u v : Int) : Result (Int × TreeBag) :=
  go tree (u.natAbs + 1) u v
where
  go (tree : TreeBag) (fuel : Nat) (u v : Int) : Result (Int × TreeBag) := do
    match fuel with
    | 0 => throw .fuel
    | fuel + 1 =>
      if u = 0 ∨ v = 0 ∨ u + v = 0 then
        return (u + v, tree)
      else
        match ← tree.components u, ← tree.components v with
        | some (u1, u2), some (v1, v2) =>
          if u2 = -v then
            return (u1, tree)
          else if v1 = -u then
            return (v2, tree)
          else if u1 ≠ 0 ∧ v1 = -u2 then
            go tree fuel u1 v2
          else
            tree.enter u v
        | some (u1, u2), none => if u2 = -v then return (u1, tree) else tree.enter u v
        | none, some (v1, v2) => if v1 = -u then return (v2, tree) else tree.enter u v
        | none, none => tree.enter u v

def treeEntryC (tree : TreeBag) (word : List Int) : Result (Int × TreeBag) :=
  match word with
  | [] => return (0, tree)
  | gen :: rest => rest.foldlM (fun (gen, tree) v => tree.multiply gen v) (gen, tree)

end TreeBag

namespace FactorState

def initializeCosetFactorWord (s : FactorState) : FactorState :=
  { s with wordList := { s.wordList with leng := 0 } }

def push (s : FactorState) (factor : Int) : Result FactorState := do
  let buffer ← setElmPlist s.wordList.buffer (s.wordList.leng + 1) factor
  return { s with wordList := { leng := s.wordList.leng + 1, buffer } }

def addCosetFactor2 (s : FactorState) (factor : Int) : Result FactorState := do
  if s.wordList.leng = 0 then
    s.push factor
  else if (← elmPlist s.wordList.buffer s.wordList.leng) = -factor then
    return { s with wordList := { s.wordList with leng := s.wordList.leng - 1 } }
  else if s.wordList.leng < wordSize then
    s.push factor
  else
    -- The comparison comes before the inner assignment, `wordList[1]` is 0 or 1.
    let (gen, tree) ← s.tree.treeEntryC s.wordList.letters
    let isZero : Int := if gen = 0 then 1 else 0
    let buffer ← setElmPlist s.wordList.buffer 1 isZero
    addCosetFactor2 { tree, wordList := { leng := if isZero ≠ 0 then 0 else 1, buffer } } factor
termination_by s.wordList.leng
decreasing_by
  unfold wordSize at *
  split
  . simp
    omega
  . simp
    omega

def addCosetFactors (s : FactorState) (factors : List Int) : Result FactorState :=
  factors.foldlM addCosetFactor2 s

end FactorState

namespace TreeBag

def checkComponents (tree : TreeBag) (i : Nat) : Result Unit := do
  let t1 ← elmPlist tree.tree1 i
  let t2 ← elmPlist tree.tree2 i
  if t1 ≤ -i ∨ t1 ≥ i ∨ t2 ≤ -i ∨ t2 ≥ i then
    throw (.quit "invalid <tree> components" 0 0)
  else
    return ()

def cancelsLast (ptWord : List Int) (j : Nat) (gen : Int) : Result Bool :=
  if j > 0 then do
    let last ← elmPlist ptWord j
    return gen = -last
  else
    return false

def appendLetter (ptWord : List Int) (j : Nat) (gen : Int) : Result (List Int × Nat) := do
  if ← cancelsLast ptWord j gen then
    return (ptWord, j - 1)
  else
    let ptWord ← setElmPlist ptWord (j + 1) gen
    return (ptWord, j + 1)

def reduceRound (numgens i : Nat) (s : List Int × Nat) : Result (List Int × Nat) := do
  let gen ← elmPlist s.1 i
  if gen = 0 then
    return s
  else if gen > numgens ∨ gen < -numgens then
    throw (.quit "invalid <word> entry [%d]" i 0)
  else
    appendLetter s.1 s.2 gen

def reduceWord (numgens : Nat) (word : List Int) : Result (List Int × Nat) := do
  let (ptWord, j) ← forLoop (reduceRound numgens) word.length 1 (word, 0)
  let ptWord ← forLoop (fun i ptWord => setElmPlist ptWord i 0) (word.length - j) (j + 1) ptWord
  return (ptWord, j)

def firstLetter (ptWord : List Int) (leng : Nat) : Result Int :=
  if leng = 0 then return 0 else elmPlist ptWord 1

def funcTreeEntry (tree : TreeBag) (word : List Int) : Result (Int × List Int × TreeBag) :=
  if tree.tree1.length ≠ tree.tree2.length then
    throw (.quit "inconsistent <tree> components" 0 0)
  else do
    forLoop (fun i _ => tree.checkComponents i) tree.numgens 1 ()
    let (ptWord, leng) ← reduceWord tree.numgens word
    let gen ← firstLetter ptWord leng
    let (gen, tree) ← forLoop (fun i (gen, tree) => do
      let v ← elmPlist ptWord i
      multiply tree gen v) (leng - 1) 2 (gen, tree)
    return (gen, ptWord, tree)

end TreeBag
