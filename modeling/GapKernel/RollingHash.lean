import Mathlib.Data.List.GetD
import Mathlib.Data.List.Rotate
import Mathlib.Tactic.Ring

/-!
This module contains the theory of hash keys of words that are polynomials in a fixed element of a
ring, and the step from the key of one cyclic subword to the key of the next one.
-/

open List Nat

namespace RollingHash

variable {R : Type} [CommRing R] (c : R)

def hash (l : List R) : R :=
  l.foldl (fun key a => c * key + a) 0

theorem hash_concat (l : List R) (a : R)
    : hash c (l ++ [a]) = c * hash c l + a := by
  unfold hash
  rw [foldl_append]
  rfl

theorem hash_cons (a : R) (l : List R)
    : hash c (a :: l) = c ^ l.length * a + hash c l := by
  induction l using List.reverseRecOn with
  | nil =>
    unfold hash
    simp
  | append_singleton l b ih =>
    rw [← cons_append, hash_concat, hash_concat, ih, length_append, length_singleton]
    ring

variable {l : List R} {m i : Nat}

theorem hash_rotate_succ (hm : 0 < m) (hle : m ≤ l.length) (hi : i < l.length)
    : hash c ((l.rotate (i + 1)).take m)
      = c * hash c ((l.rotate i).take m) - c ^ m * l.getD i 0 + l.getD ((i + m) % l.length) 0 := by
  have hrot := rotate_rotate l i 1
  have hnext : (l.rotate i)[m % l.length]? = some (l.getD ((i + m) % l.length) 0) := by
    have hlt := mod_lt m (show 0 < l.length by omega)
    rw [getElem?_rotate hlt, mod_add_mod, Nat.add_comm m i,
      getElem?_eq_getElem (mod_lt _ (by omega)), getD_eq_getElem]
  have hfirst : (l.rotate i)[0]? = some (l.getD i 0) := by
    rw [getElem?_rotate (by omega), Nat.zero_add, mod_eq_of_lt hi,
      getElem?_eq_getElem hi, getD_eq_getElem]
  have hlen := length_rotate l i
  rw [← hrot]
  cases hword : l.rotate i with
  | nil =>
    rw [hword, length_nil] at hlen
    omega
  | cons a t =>
    rw [hword] at hnext hfirst hlen
    rw [length_cons] at hlen
    rw [getElem?_cons_zero, Option.some_inj] at hfirst
    obtain ⟨k, rfl⟩ : ∃ k, m = k + 1 := ⟨m - 1, by omega⟩
    have hlast : (t ++ [a])[k]? = some (l.getD ((i + (k + 1)) % l.length) 0) := by
      by_cases hk : k < t.length
      . rw [mod_eq_of_lt (by omega), getElem?_cons_succ] at hnext
        rw [getElem?_append_left hk]
        exact hnext
      . obtain rfl : k = t.length := by omega
        rw [getElem?_concat_length, hlen]
        rwa [hlen, mod_self, getElem?_cons_zero] at hnext
    rw [rotate_cons_succ, rotate_zero, take_add_one, hlast,
      take_append_of_le_length (by omega), Option.toList_some, hash_concat, take_succ_cons,
      hash_cons, length_take, Nat.min_eq_left (by omega), ← hfirst]
    ring

end RollingHash
