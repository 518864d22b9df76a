import Mathlib.Data.Nat.Bitwise

/-!
This module contains powers that are computed from the most significant bit of the exponent on.
There need not be a neutral element to start with.
-/

namespace SquareMultiply

variable {α : Type} {G : Type*}

def square (prod : α → α → α) (res : Option α) : Option α :=
  res.map (fun r => prod r r)

def times (prod : α → α → α) (res : Option α) (op : α) : Option α :=
  match res with
  | none => some op
  | some r => some (prod r op)

def IsPower [Monoid G] (elt : α → G) (x : G) (res : Option α) (m : Nat) : Prop :=
  match res with
  | none => m = 0
  | some r => 0 < m ∧ elt r = x ^ m

variable [Monoid G] {elt : α → G} {x : G} {prod : α → α → α} {res : Option α} {m : Nat}

namespace IsPower

theorem none_zero : IsPower elt x none 0 := by
  unfold IsPower
  dsimp only

theorem square (hprod : ∀ a b, elt (prod a b) = elt a * elt b) (h : IsPower elt x res m)
    : IsPower elt x (square prod res) (2 * m) := by
  cases res with
  | none =>
    unfold IsPower at h
    dsimp only at h
    rw [h]
    apply none_zero
  | some r =>
    unfold IsPower at h
    dsimp only at h
    unfold SquareMultiply.square IsPower
    dsimp only [Option.map_some]
    constructor
    . omega
    . rw [hprod]
      rw [h.2]
      rw [← pow_add]
      rw [Nat.two_mul]

theorem times {op : α} (hprod : ∀ a b, elt (prod a b) = elt a * elt b)
    (h : IsPower elt (elt op) res m)
    : IsPower elt (elt op) (times prod res op) (m + 1) := by
  cases res with
  | none =>
    unfold IsPower at h
    dsimp only at h
    unfold SquareMultiply.times IsPower
    dsimp only
    rw [h]
    constructor
    . omega
    . rw [pow_one]
  | some r =>
    unfold IsPower at h
    dsimp only at h
    unfold SquareMultiply.times IsPower
    dsimp only
    constructor
    . omega
    . rw [hprod]
      rw [h.2]
      rw [pow_succ]

theorem exists_of_pos (h : IsPower elt x res m) (hm : 0 < m)
    : ∃ r, res = some r ∧ elt r = x ^ m := by
  cases res with
  | none =>
    unfold IsPower at h
    dsimp only at h
    omega
  | some r => exact ⟨r, rfl, h.2⟩

end IsPower

end SquareMultiply
