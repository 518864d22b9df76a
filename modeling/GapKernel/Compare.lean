import Mathlib.Data.Set.Basic
import Mathlib.Data.List.Basic

/-!
This module contains the theory of comparisons with three outcomes and of the sets whose elements
are told apart by such a comparison.
-/

open List

variable {E : Type}

/-- A comparison of a total order on keys, two elements with the same key may be different. -/
structure IsCompare (compare : E → E → Int) : Prop where
  swap : ∀ a b, 0 < compare a b ↔ compare b a < 0
  trans : ∀ a b x, compare a b ≤ 0 → compare b x ≤ 0 → compare a x ≤ 0

namespace IsCompare

variable {compare : E → E → Int} (hcompare : IsCompare compare)

include hcompare

theorem lt_of_le_of_lt {a b x : E} (hab : compare a b ≤ 0) (hbx : compare b x < 0)
    : compare a x < 0 := by
  by_contra hax
  rcases Int.lt_or_eq_of_le (Int.not_lt.mp hax) with hlt | heq
  . have := hcompare.trans x a b (by rw [hcompare.swap] at hlt; omega) hab
    rw [← hcompare.swap] at hbx
    omega
  . have hxa : compare x a ≤ 0 := by
      by_contra h
      rw [Int.not_le, hcompare.swap] at h
      omega
    have := hcompare.trans x a b hxa hab
    rw [← hcompare.swap] at hbx
    omega

theorem lt_of_lt_of_le {a b x : E} (hab : compare a b < 0) (hbx : compare b x ≤ 0)
    : compare a x < 0 := by
  by_contra hax
  have hxa : compare x a ≤ 0 := by
    by_contra h
    rw [Int.not_le, hcompare.swap] at h
    omega
  have hba := hcompare.trans b x a hbx hxa
  rw [← hcompare.swap] at hab
  omega

theorem self (a : E) : compare a a = 0 := by
  have := hcompare.swap a a
  omega

theorem eq_zero_comm (a b : E) : compare a b = 0 ↔ compare b a = 0 := by
  have hab := hcompare.swap a b
  have hba := hcompare.swap b a
  omega

end IsCompare

def insertKey (compare : E → E → Int) (x : E) (S : Set E) : Set E :=
  { y | y = x ∨ y ∈ S ∧ compare x y ≠ 0 }

def removeKey (compare : E → E → Int) (x : E) (S : Set E) : Set E :=
  { y | y ∈ S ∧ compare x y ≠ 0 }

def Increasing (compare : E → E → Int) (l : List E) : Prop :=
  l.Pairwise (fun a b => compare a b < 0)

namespace Increasing

variable {compare : E → E → Int}

theorem append_cons {l r : List E} {x : E}
    : Increasing compare (l ++ x :: r) ↔
        Increasing compare l ∧ Increasing compare r ∧ (∀ y ∈ l, compare y x < 0) ∧
          (∀ z ∈ r, compare x z < 0) ∧ ∀ y ∈ l, ∀ z ∈ r, compare y z < 0 := by
  unfold Increasing
  rw [pairwise_append, pairwise_cons]
  grind

theorem of_lt (hcompare : IsCompare compare) {l r : List E} {x : E} (hl : Increasing compare l)
    (hr : Increasing compare r) (hlx : ∀ y ∈ l, compare y x < 0) (hxr : ∀ z ∈ r, compare x z < 0)
    : Increasing compare (l ++ x :: r) := by
  rw [append_cons]
  refine ⟨hl, hr, hlx, hxr, ?_⟩
  intro y hy z hz
  apply hcompare.lt_of_lt_of_le (hlx y hy)
  apply Int.le_of_lt
  exact hxr z hz

section

variable {x : E} {l m r : List E} (hl : ∀ y ∈ l, 0 < compare x y) (hm : ∀ y ∈ m, compare x y = 0)
  (hr : ∀ y ∈ r, compare x y < 0)

include hl hm hr

theorem filter_compare_ne : (l ++ m ++ r).filter (fun y => compare x y ≠ 0) = l ++ r := by
  rw [filter_append, filter_append, filter_eq_self.mpr, filter_eq_nil_iff.mpr,
    filter_eq_self.mpr, append_nil]
  . intro y hy
    simpa using Int.ne_of_lt (hr y hy)
  . intro y hy
    simpa using hm y hy
  . intro y hy
    simpa using Int.ne_of_gt (hl y hy)

theorem replace (hcompare : IsCompare compare) (hinc : Increasing compare (l ++ m ++ r))
    : Increasing compare (l ++ x :: r) ∧
        ∀ z, z ∈ l ++ x :: r ↔ z = x ∨ z ∈ l ++ m ++ r ∧ compare x z ≠ 0 := by
  constructor
  . have hl' := pairwise_append.mp (pairwise_append.mp hinc).1
    apply of_lt hcompare hl'.1 (pairwise_append.mp hinc).2.1 _ hr
    intro y hy
    rw [← hcompare.swap]
    exact hl y hy
  . intro z
    have hlz := hl z
    have hmz := hm z
    have hrz := hr z
    grind

end

end Increasing
