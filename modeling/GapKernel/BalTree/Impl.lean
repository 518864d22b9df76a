import GapKernel.Fault
import Mathlib.Algebra.Group.Int.Defs
import Mathlib.Logic.Function.Basic

/-!
This module contains the memory of a balanced tree: nodes with two pointers and an item, and the
places that hold a pointer to a node.
-/

abbrev Ptr :=
  Nat

-- The local variable of `Rebalance`, pointers to allocated nodes are positive.
def pseudoroot : Ptr :=
  0

structure Node (E : Type) where
  left : Option Ptr
  right : Option Ptr
  -- `none` if the item is not initialized.
  item : Option E

structure BalTree (E : Type) where
  nodes : Int
  maxnodes : Int
  root : Option Ptr
  heap : Ptr → Option (Node E)
  next : Ptr

inductive NodeAddr where
  | root
  | left (p : Ptr)
  | right (p : Ptr)

namespace BalTree

variable {E : Type}

def node (s : BalTree E) (p : Ptr) : Result (Node E) :=
  match s.heap p with
  | some n => return n
  | none => throw .access

def deref (p : Option Ptr) : Result Ptr :=
  match p with
  | some p => return p
  | none => throw .access

def setNode (s : BalTree E) (p : Ptr) (n : Node E) : BalTree E :=
  { s with heap := Function.update s.heap p (some n) }

def dealloc (s : BalTree E) (p : Ptr) : BalTree E :=
  { s with heap := Function.update s.heap p none }

def alloc (s : BalTree E) (n : Node E) : BalTree E × Ptr :=
  ({ s.setNode s.next n with next := s.next + 1 }, s.next)

def setLeft (s : BalTree E) (p : Ptr) (q : Option Ptr) : Result (BalTree E) := do
  let n ← s.node p
  return s.setNode p { n with left := q }

def setRight (s : BalTree E) (p : Ptr) (q : Option Ptr) : Result (BalTree E) := do
  let n ← s.node p
  return s.setNode p { n with right := q }

def setItem (s : BalTree E) (p : Ptr) (item : E) : Result (BalTree E) := do
  let n ← s.node p
  return s.setNode p { n with item := some item }

def item (s : BalTree E) (p : Ptr) : Result E := do
  match (← s.node p).item with
  | some item => return item
  | none => throw .access

def read (s : BalTree E) (addr : NodeAddr) : Result (Option Ptr) := do
  match addr with
  | .root => return s.root
  | .left p => return (← s.node p).left
  | .right p => return (← s.node p).right

def write (s : BalTree E) (addr : NodeAddr) (q : Option Ptr) : Result (BalTree E) :=
  match addr with
  | .root => return { s with root := q }
  | .left p => s.setLeft p q
  | .right p => s.setRight p q

end BalTree

/-!
This section contains the functions for scapegoat trees from `baltree.h`. The number of rounds of a
recursion over pointers is limited by `fuel`.
-/

namespace BalTree

variable {E : Type}

def deleteNodes (fuel : Nat) (s : BalTree E) (node : Option Ptr) : Result (BalTree E) := do
  match fuel with
  | 0 => throw .fuel
  | fuel + 1 =>
    match node with
    | none => return s
    | some p =>
      let s ← deleteNodes fuel s (← s.node p).left
      let s ← deleteNodes fuel s (← s.node p).right
      return s.dealloc p

def linearize (fuel : Nat) (s : BalTree E) (subtree : Option Ptr) (list : Ptr)
    : Result (BalTree E × Ptr) := do
  match fuel with
  | 0 => throw .fuel
  | fuel + 1 =>
    match subtree with
    | none => return (s, list)
    | some p =>
      let (s, right) ← linearize fuel s (← s.node p).right list
      let s ← s.setRight p (some right)
      linearize fuel s (← s.node p).left p

def treeify (s : BalTree E) (list : Option Ptr) (n : Nat) : Result (BalTree E × Ptr) := do
  match n with
  | 0 =>
    let p ← deref list
    let s ← s.setLeft p none
    return (s, p)
  | n + 1 =>
    let n2 := n / 2
    let n1 := n - n2
    let (s, root) ← treeify s list n1
    let (s, tail) ← treeify s (← s.node root).right n2
    let s ← s.setRight root (← s.node tail).left
    let s ← s.setLeft tail (some root)
    return (s, tail)
termination_by n

/-- A fuel that is large enough: no more nodes than pointers have been allocated. -/
def fuel (s : BalTree E) : Nat :=
  s.next + 1

def rebalance (s : BalTree E) (nodeaddr : NodeAddr) (size : Int) : Result (BalTree E) := do
  let subtree ← s.read nodeaddr
  let s := s.setNode pseudoroot { left := none, right := none, item := none }
  let (s, linearized) ← linearize s.fuel s subtree pseudoroot
  let (s, tail) ← treeify s (some linearized) size.toNat
  let s ← s.write nodeaddr (← s.node tail).left
  return s.dealloc pseudoroot

def countAux (fuel : Nat) (s : BalTree E) (node : Option Ptr) : Result Int := do
  match fuel with
  | 0 => throw .fuel
  | fuel + 1 =>
    match node with
    | none => return 0
    | some p =>
      let n ← s.node p
      return 1 + (← countAux fuel s n.left) + (← countAux fuel s n.right)

def minNodesForHeight (d : Nat) : Int :=
  3 ^ (d + 1) / 2 ^ (d + 1)

section

variable (compare : E → E → Int)

def findAux (fuel : Nat) (s : BalTree E) (node : Option Ptr) (item : E) : Result (Option Ptr) := do
  match fuel with
  | 0 => throw .fuel
  | fuel + 1 =>
    match node with
    | none => return none
    | some p =>
      let c := compare item (← s.item p)
      if c < 0 then
        findAux fuel s (← s.node p).left item
      else if c > 0 then
        findAux fuel s (← s.node p).right item
      else
        return some p

def checkWeight (s : BalTree E) (nodeaddr : NodeAddr) (lsize rsize : Int)
    : Result (BalTree E × Int) := do
  let size := lsize + rsize + 1
  if 3 * lsize ≤ 2 * size ∧ 3 * rsize ≤ 2 * size then
    return (s, size)
  else
    return (← s.rebalance nodeaddr size, 0)

def insertAux (minNodesForHeight : Nat → Int) (fuel : Nat) (s : BalTree E) (nodeaddr : NodeAddr)
    (item : E) (d : Nat) : Result (BalTree E × Int) := do
  match fuel with
  | 0 => throw .fuel
  | fuel + 1 =>
    match ← s.read nodeaddr with
    | none =>
      let (s, node) := s.alloc { left := none, right := none, item := some item }
      let s ← s.write nodeaddr (some node)
      let s := { s with nodes := s.nodes + 1 }
      return (s, if minNodesForHeight d > s.nodes then 1 else 0)
    | some node =>
      let c := compare item (← s.item node)
      if c < 0 then
        let (s, lsize) ← insertAux minNodesForHeight fuel s (.left node) item (d + 1)
        if lsize = 0 then
          return (s, 0)
        else
          let rsize ← countAux s.fuel s (← s.node node).right
          s.checkWeight nodeaddr lsize rsize
      else if c > 0 then
        let (s, rsize) ← insertAux minNodesForHeight fuel s (.right node) item (d + 1)
        if rsize = 0 then
          return (s, 0)
        else
          let lsize ← countAux s.fuel s (← s.node node).left
          s.checkWeight nodeaddr lsize rsize
      else
        return (← s.setItem node item, 0)

def successor (fuel : Nat) (s : BalTree E) (succ : NodeAddr) : Result NodeAddr := do
  match fuel with
  | 0 => throw .fuel
  | fuel + 1 =>
    let p ← deref (← s.read succ)
    if (← s.node p).left ≠ none then
      successor fuel s (.left p)
    else
      return succ

def finishRemove (s : BalTree E) (del : Ptr) : Result (BalTree E) := do
  let s := s.dealloc del
  let s := { s with nodes := s.nodes - 1 }
  if 3 * s.nodes ≤ 2 * s.maxnodes then
    let s ← if s.root ≠ none then s.rebalance .root s.nodes else pure s
    return { s with maxnodes := s.nodes }
  else
    return s

def removeNode (fuel : Nat) (s : BalTree E) (nodeaddr : NodeAddr) : Result (BalTree E) := do
  match fuel with
  | 0 => throw .fuel
  | fuel + 1 =>
    let p ← deref (← s.read nodeaddr)
    let n ← s.node p
    if n.left ≠ none then
      if n.right ≠ none then
        let succ ← successor s.fuel s (.right p)
        let s ← s.setItem p (← s.item (← deref (← s.read succ)))
        removeNode fuel s succ
      else
        (← s.write nodeaddr n.left).finishRemove p
    else
      (← s.write nodeaddr n.right).finishRemove p

def removeAux (fuel : Nat) (s : BalTree E) (nodeaddr : NodeAddr) (item : E)
    : Result (BalTree E) := do
  match fuel with
  | 0 => throw .fuel
  | fuel + 1 =>
    match ← s.read nodeaddr with
    | none => return s
    | some node =>
      let c := compare item (← s.item node)
      if c < 0 then
        removeAux fuel s (.left node) item
      else if c > 0 then
        removeAux fuel s (.right node) item
      else
        removeNode s.fuel s nodeaddr

def make : BalTree E where
  nodes := 0
  maxnodes := 0
  root := none
  heap := fun _ => none
  next := 1

def insert (minNodesForHeight : Nat → Int) (s : BalTree E) (item : E) : Result (BalTree E) := do
  let (s, rebalance) ← insertAux compare minNodesForHeight s.fuel s .root item 0
  let s ← if rebalance > 0 then s.rebalance .root rebalance else pure s
  return if s.nodes > s.maxnodes then { s with maxnodes := s.nodes } else s

def find (s : BalTree E) (item : E) : Result (Option Ptr) :=
  findAux compare s.fuel s s.root item

def remove (s : BalTree E) (item : E) : Result (BalTree E) :=
  removeAux compare s.fuel s .root item

end

def clear (s : BalTree E) : Result (BalTree E) := do
  let s ← deleteNodes s.fuel s s.root
  return { s with root := none, nodes := 0, maxnodes := 0 }

end BalTree
