import Mathlib.Data.List.Basic
import Mathlib.Data.Nat.Find

/-!
This module contains linear probing in a table of slots.
-/

namespace LinearProbe

variable {α : Type}

def next (n pos : Nat) : Nat :=
  if pos + 1 ≥ n then 0 else pos + 1

def dist (n pos i : Nat) : Nat :=
  if pos ≤ i then i - pos else i + n - pos

variable {n pos : Nat}

theorem next_lt (h : pos < n) : next n pos < n := by
  unfold next
  split <;> omega

variable {i : Nat}

theorem dist_lt (hpos : pos < n) (hi : i < n) : dist n pos i < n := by
  unfold dist
  split <;> omega

@[simp]
theorem dist_self (n pos : Nat) : dist n pos pos = 0 := by
  simp [dist]

theorem dist_inj {j : Nat} (hpos : pos < n) (hi : i < n) (hj : j < n)
    (h : dist n pos i = dist n pos j)
    : i = j := by
  unfold dist at h
  split at h <;> split at h <;> omega

theorem dist_next (hpos : pos < n) (hi : i < n) (hne : i ≠ pos)
    : dist n (next n pos) i + 1 = dist n pos i := by
  unfold dist next
  split <;> split <;> split <;> omega

structure IsFirst (stop : α → Prop) (slots : List α) (pos i : Nat) : Prop where
  lt : i < slots.length
  stops : stop slots[i]
  before : ∀ j (hj : j < slots.length),
    dist slots.length pos j < dist slots.length pos i → ¬stop slots[j]

variable {stop : α → Prop} {slots : List α}

theorem IsFirst.next (hpos : pos < slots.length) (h : IsFirst stop slots pos i) (hne : i ≠ pos)
    : IsFirst stop slots (next slots.length pos) i := by
  constructor
  . apply h.stops
  . intro j hj hlt
    have hi := dist_next hpos h.lt hne
    by_cases hjpos : j = pos
    . subst hjpos
      apply h.before j hj
      rw [dist_self]
      omega
    . have := dist_next hpos hj hjpos
      apply h.before j hj
      omega

theorem exists_isFirst [DecidablePred stop] (pos : Nat) (h : ∃ s ∈ slots, stop s)
    : ∃ i, IsFirst stop slots pos i := by
  -- Of the positions where the probe stops take the one that is nearest to `pos`.
  have hdist : ∃ d, ∃ i, ∃ (hi : i < slots.length), stop slots[i] ∧ dist slots.length pos i = d := by
    obtain ⟨s, hmem, hs⟩ := h
    obtain ⟨i, hi, heq⟩ := List.getElem_of_mem hmem
    refine ⟨_, i, hi, ?_, rfl⟩
    rwa [heq]
  classical
  obtain ⟨i, hi, hstop, heq⟩ := Nat.find_spec hdist
  refine ⟨i, hi, hstop, ?_⟩
  intro j hj hlt hstopj
  rw [heq] at hlt
  exact Nat.find_min hdist hlt ⟨j, hj, hstopj, rfl⟩

theorem IsFirst.loop {β : Type} (go : Nat → Nat → β)
    (hskip : ∀ fuel pos (hpos : pos < slots.length), ¬stop slots[pos]
      → go (fuel + 1) pos = go fuel (LinearProbe.next slots.length pos)) (fuel pos : Nat)
    (hpos : pos < slots.length) (h : IsFirst stop slots pos i)
    (hfuel : dist slots.length pos i < fuel)
    : ∃ rest, go fuel pos = go (rest + 1) i := by
  induction fuel generalizing pos with
  | zero => omega
  | succ fuel ih =>
    by_cases hi : i = pos
    . subst hi
      exact ⟨fuel, rfl⟩
    . have hdist := dist_next hpos h.lt hi
      rw [hskip fuel pos hpos]
      . apply ih
        . apply next_lt hpos
        . apply h.next hpos hi
        . omega
      . apply h.before pos hpos
        rw [dist_self]
        omega

def Reachable (free : α → Prop) (slots : List α) (pos i : Nat) : Prop :=
  ∀ j (hj : j < slots.length), dist slots.length pos j < dist slots.length pos i → ¬free slots[j]

variable {free : α → Prop}

theorem IsFirst.reachable (h : IsFirst stop slots pos i) (hfree : ∀ s, free s → stop s)
    : Reachable free slots pos i := by
  intro j hj hlt hf
  exact h.before j hj hlt (hfree _ hf)

theorem Reachable.set {k : Nat} {a : α} (h : Reachable free slots pos i) (ha : ¬free a)
    : Reachable free (slots.set k a) pos i := by
  intro j hj hlt
  rw [List.length_set] at hj hlt
  rw [List.getElem_set]
  split
  . apply ha
  . apply h j hj hlt

-- A probe that stops at a reachable position gets there, or it stops before at a slot in use.
theorem IsFirst.eq_or_not_free {j : Nat} (h : IsFirst stop slots pos i) (hpos : pos < slots.length)
    (hj : j < slots.length) (hreach : Reachable free slots pos j) (hstop : stop slots[j])
    : i = j ∨ ¬free (slots.get ⟨i, h.lt⟩) := by
  by_cases hij : i = j
  . left
    apply hij
  . right
    apply hreach i h.lt
    have hle : ¬dist slots.length pos j < dist slots.length pos i :=
      fun hlt => h.before j hj hlt hstop
    have hne : dist slots.length pos i ≠ dist slots.length pos j :=
      fun heq => hij (dist_inj hpos h.lt hj heq)
    omega

end LinearProbe
