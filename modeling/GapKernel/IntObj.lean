import Mathlib.Tactic.Positivity

/-!
This module contains the machine integers of the kernel: the size of an `Int`, its arithmetic in
two's complement, and the range of the immediate integers.
-/

inductive IntSize where
  | int4
  | int8
  deriving DecidableEq, Repr

namespace IntSize

def bits (w : IntSize) : Nat :=
  match w with
  | int4 => 32
  | int8 => 64

def wrap (w : IntSize) (x : Int) : Int :=
  x.bmod (2 ^ w.bits)

def nrSmallIntBits (w : IntSize) : Nat :=
  w.bits - 4

def intIntobjMin (w : IntSize) : Int :=
  -2 ^ w.nrSmallIntBits

def intIntobjMax (w : IntSize) : Int :=
  2 ^ w.nrSmallIntBits - 1

def IsSmall (w : IntSize) (x : Int) : Prop :=
  w.intIntobjMin ≤ x ∧ x ≤ w.intIntobjMax

instance (w : IntSize) (x : Int) : Decidable (w.IsSmall x) :=
  inferInstanceAs (Decidable (_ ∧ _))

def IsInt (w : IntSize) (x : Int) : Prop :=
  -2 ^ (w.bits - 1) ≤ x ∧ x < 2 ^ (w.bits - 1)

instance (w : IntSize) (x : Int) : Decidable (w.IsInt x) :=
  inferInstanceAs (Decidable (_ ∧ _))

theorem isInt_wrap (w : IntSize) (x : Int) : w.IsInt (w.wrap x) := by
  have hle := Int.le_bmod (x := x) (m := 2 ^ w.bits) (by positivity)
  have hlt := Int.bmod_lt (x := x) (m := 2 ^ w.bits) (by positivity)
  unfold IsInt wrap
  cases w with
  | int4 =>
    simp only [bits] at *
    omega
  | int8 =>
    simp only [bits] at *
    omega

variable {x : Int}

theorem wrap_of_isInt (w : IntSize) (h : w.IsInt x) : w.wrap x = x := by
  unfold IsInt at h
  unfold wrap
  rw [Int.bmod_eq_iff (by positivity)]
  cases w with
  | int4 =>
    simp only [bits] at *
    omega
  | int8 =>
    simp only [bits] at *
    omega

variable {w : IntSize}

theorem isInt_of_isSmall (h : w.IsSmall x) : w.IsInt x := by
  unfold IsSmall intIntobjMin intIntobjMax nrSmallIntBits at h
  unfold IsInt
  cases w with
  | int4 =>
    simp only [bits] at *
    omega
  | int8 =>
    simp only [bits] at *
    omega

@[simp]
theorem wrap_sub_wrap (w : IntSize) (x y : Int) : w.wrap (x - w.wrap y) = w.wrap (x - y) := by
  apply Int.sub_bmod_bmod

def intobj (w : IntSize) (x : Int) : Int :=
  x.bmod (2 ^ (w.bits - 2))

theorem intobj_of_bounds (h1 : -2 * 2 ^ w.nrSmallIntBits ≤ x) (h2 : x < 2 * 2 ^ w.nrSmallIntBits)
    : w.intobj x = x := by
  unfold nrSmallIntBits at h1 h2
  unfold intobj
  rw [Int.bmod_eq_iff (by positivity)]
  cases w with
  | int4 =>
    simp only [bits] at *
    omega
  | int8 =>
    simp only [bits] at *
    omega

theorem intobj_of_isSmall (h : w.IsSmall x) : w.intobj x = x := by
  unfold IsSmall intIntobjMin intIntobjMax at h
  have : (0 : Int) < 2 ^ w.nrSmallIntBits := by positivity
  apply intobj_of_bounds
  . omega
  . omega

theorem isInt_iff
    : w.IsInt x ↔ -8 * 2 ^ w.nrSmallIntBits ≤ x ∧ x < 8 * 2 ^ w.nrSmallIntBits := by
  unfold IsInt nrSmallIntBits
  cases w with
  | int4 =>
    simp only [bits]
    omega
  | int8 =>
    simp only [bits]
    omega

theorem isSmall_iff
    : w.IsSmall x ↔ -2 ^ w.nrSmallIntBits ≤ x ∧ x < 2 ^ w.nrSmallIntBits := by
  unfold IsSmall intIntobjMin intIntobjMax
  omega

end IntSize
