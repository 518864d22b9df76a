import GapKernel.CyclicWord

/-!
This module contains tables of generators of a free group: a generator is either primary or the
product of two earlier letters. A letter is a signed generator number, zero is the empty word. Words
in these letters are reduced freely.
-/

open List

structure ProductTable where
  entry : Nat → Option (Int × Int)
  smaller : ∀ {k u v}, entry k = some (u, v) → u.natAbs < k ∧ v.natAbs < k

namespace ProductTable

def gen (t : ProductTable) (k : Nat) : FreeGroup Nat :=
  match h : t.entry k with
  | none => .of k
  | some (u, v) =>
    have := t.smaller h
    t.gen u.natAbs ^ u.sign * t.gen v.natAbs ^ v.sign
termination_by k

def letter (t : ProductTable) (u : Int) : FreeGroup Nat :=
  t.gen u.natAbs ^ u.sign

def word (t : ProductTable) (us : List Int) : FreeGroup Nat :=
  (us.map t.letter).prod

variable {t : ProductTable}

variable {k : Nat}

theorem gen_of_none (h : t.entry k = none) : t.gen k = .of k := by
  rw [gen]
  split
  . rfl
  . next h' =>
    rw [h] at h'
    contradiction

variable {u : Int}

theorem gen_of_some {v : Int} (h : t.entry k = some (u, v))
    : t.gen k = t.letter u * t.letter v := by
  rw [gen]
  split
  . next h' =>
    rw [h] at h'
    contradiction
  . next h' =>
    rw [h] at h'
    cases h'
    rfl

@[simp]
theorem letter_zero : t.letter 0 = 1 := by
  simp [letter]

@[simp]
theorem letter_neg (u : Int) : t.letter (-u) = (t.letter u)⁻¹ := by
  simp [letter]

theorem letter_natCast (h : 0 < k) : t.letter k = t.gen k := by
  unfold letter
  rw [Int.sign_eq_one_of_pos (by omega)]
  simp

theorem letter_of_pos (h : 0 < u) : t.letter u = t.gen u.natAbs := by
  unfold letter
  rw [Int.sign_eq_one_of_pos h]
  simp

theorem letter_of_neg (h : u < 0) : t.letter u = (t.gen u.natAbs)⁻¹ := by
  unfold letter
  rw [Int.sign_eq_neg_one_of_neg h]
  simp

theorem letter_of_some {v1 v2 : Int} (h : t.entry u.natAbs = some (v1, v2)) (hu : u ≠ 0)
    : t.letter u
        = if 0 < u then t.letter v1 * t.letter v2 else t.letter (-v2) * t.letter (-v1) := by
  split
  . next hpos => rw [letter_of_pos hpos, gen_of_some h]
  . next hneg =>
    rw [letter_of_neg (by omega), gen_of_some h]
    simp

@[simp]
theorem word_nil : t.word [] = 1 :=
  rfl

@[simp]
theorem word_cons (u : Int) (us : List Int) : t.word (u :: us) = t.letter u * t.word us := by
  simp [word]

@[simp]
theorem word_append (us vs : List Int) : t.word (us ++ vs) = t.word us * t.word vs := by
  simp [word]

def Extends (t t' : ProductTable) (n : Nat) : Prop :=
  ∀ k, k ≤ n → t'.entry k = t.entry k

namespace Extends

variable {t' : ProductTable} {n : Nat}

theorem gen_eq (h : Extends t t' n) {k : Nat} (hk : k ≤ n) : t'.gen k = t.gen k := by
  induction k using Nat.strongRecOn with
  | ind k ih =>
    cases hentry : t.entry k with
    | none =>
      rw [gen_of_none hentry]
      rw [gen_of_none (by rw [h k hk, hentry])]
    | some uv =>
      obtain ⟨u, v⟩ := uv
      have hlt := t.smaller hentry
      rw [gen_of_some hentry]
      rw [gen_of_some (by rw [h k hk, hentry])]
      unfold letter
      rw [ih _ hlt.1 (by omega)]
      rw [ih _ hlt.2 (by omega)]

theorem letter_eq (h : Extends t t' n) {u : Int} (hu : u.natAbs ≤ n)
    : t'.letter u = t.letter u := by
  unfold letter
  rw [h.gen_eq hu]

theorem word_eq (h : Extends t t' n) {us : List Int} (hus : ∀ u ∈ us, u.natAbs ≤ n)
    : t'.word us = t.word us := by
  unfold word
  congr 1
  apply map_congr_left
  intro u hu
  apply h.letter_eq
  apply hus u hu

end Extends

theorem word_replicate_ne_one {n : Nat} (hk : 0 < k) (h : t.entry k = none) (hn : n ≠ 0)
    : t.word (replicate n (k : Int)) ≠ 1 := by
  intro hone
  have hpow : t.word (replicate n (k : Int)) = FreeGroup.of k ^ n := by
    simp [word, letter_natCast hk, gen_of_none h]
  -- Count the letters.
  have hcount := congrArg (FreeGroup.lift fun _ => Multiplicative.ofAdd (1 : Int)) (hpow ▸ hone)
  simp only [map_pow, FreeGroup.lift_apply_of, map_one] at hcount
  rw [← ofAdd_nsmul] at hcount
  have : n • (1 : Int) = 0 := hcount
  simp at this
  contradiction

end ProductTable

namespace SignedWord

structure IsReduced (w : List Int) : Prop where
  ne_zero : ∀ u ∈ w, u ≠ 0
  reduced : CyclicWord.IsReduced Neg.neg w

def mulLetter (w : List Int) (u : Int) : List Int :=
  if u = 0 then
    w
  else if w.getLast? = some (-u) then
    w.dropLast
  else
    w ++ [u]

def reduce (w : List Int) : List Int :=
  w.foldl mulLetter []

variable {w : List Int} {u : Int}

theorem isReduced_nil : IsReduced [] :=
  ⟨fun _ hu => (nomatch hu), isChain_nil⟩

theorem IsReduced.left {v : List Int} (h : IsReduced (w ++ v)) : IsReduced w :=
  ⟨fun u hu => h.ne_zero u (mem_append_left _ hu), List.IsChain.left_of_append h.reduced⟩

theorem IsReduced.mulLetter (h : IsReduced w) (u : Int) : IsReduced (mulLetter w u) := by
  unfold SignedWord.mulLetter
  split
  . exact h
  . next hu =>
    split
    . exact ⟨fun x hx => h.ne_zero x (mem_of_mem_dropLast hx), List.IsChain.dropLast h.reduced⟩
    . next hlast =>
      constructor
      . intro x hx
        rcases mem_append.mp hx with hx | hx
        . exact h.ne_zero x hx
        . rw [mem_singleton.mp hx]
          exact hu
      . apply List.IsChain.append h.reduced (isChain_singleton u)
        intro x hx y hy hxy
        obtain rfl : u = y := by simpa using hy
        apply hlast
        rw [Option.mem_def.mp hx, hxy, Int.neg_neg]

theorem mulLetter_of_isReduced (h : IsReduced (w ++ [u])) : mulLetter w u = w ++ [u] := by
  unfold mulLetter
  rw [if_neg (h.ne_zero u (by simp)), if_neg]
  intro hlast
  obtain ⟨w', hw⟩ := getLast?_eq_some_iff.mp hlast
  have hchain := h.reduced
  rw [hw, append_assoc] at hchain
  have hpair := (isChain_append.mp hchain).2.1
  rw [singleton_append, isChain_cons_cons] at hpair
  exact hpair.1 (Int.neg_neg u).symm

theorem reduce_concat (w : List Int) (u : Int)
    : reduce (w ++ [u]) = mulLetter (reduce w) u := by
  unfold reduce
  rw [foldl_append]
  rfl

theorem isReduced_reduce (w : List Int) : IsReduced (reduce w) := by
  induction w using reverseRecOn with
  | nil => exact isReduced_nil
  | append_singleton w u ih =>
    rw [reduce_concat]
    exact ih.mulLetter u

theorem reduce_of_isReduced (h : IsReduced w) : reduce w = w := by
  induction w using reverseRecOn with
  | nil => rfl
  | append_singleton w u ih =>
    rw [reduce_concat, ih h.left, mulLetter_of_isReduced h]

theorem mem_mulLetter {x : Int} (hx : x ∈ mulLetter w u) : x ∈ w ∨ x = u := by
  unfold mulLetter at hx
  split at hx
  . exact .inl hx
  . split at hx
    . exact .inl (mem_of_mem_dropLast hx)
    . rw [mem_append, mem_singleton] at hx
      exact hx

theorem mem_of_mem_reduce {x : Int} (hx : x ∈ reduce w) : x ∈ w := by
  induction w using reverseRecOn with
  | nil => exact hx
  | append_singleton w u ih =>
    rw [reduce_concat] at hx
    rw [mem_append, mem_singleton]
    exact (mem_mulLetter hx).imp_left ih

variable {t : ProductTable}

theorem word_mulLetter (w : List Int) (u : Int)
    : t.word (mulLetter w u) = t.word w * t.letter u := by
  unfold mulLetter
  split
  . next hu => rw [hu, ProductTable.letter_zero, mul_one]
  . split
    . next hlast =>
      obtain ⟨w', rfl⟩ := getLast?_eq_some_iff.mp hlast
      rw [dropLast_concat, ProductTable.word_append]
      simp
    . rw [ProductTable.word_append]
      simp

theorem word_reduce (w : List Int) : t.word (reduce w) = t.word w := by
  induction w using reverseRecOn with
  | nil => rfl
  | append_singleton w u ih =>
    rw [reduce_concat, word_mulLetter, ih, ProductTable.word_append]
    simp

end SignedWord
