import Mathlib.Data.List.Basic

/-!
This module contains the theory of lists of bits that are stored in blocks of `w` bits. The number
of a bit starts at 0.
-/

open List Nat

variable {w : Nat}

namespace BitBlocks

def bitAt (blocks : List (BitVec w)) (i : Nat) : Bool :=
  (blocks.getD (i / w) 0#w).getLsbD (i % w)

structure Represents (blocks : List (BitVec w)) (l : List Bool) : Prop where
  enough : l.length ≤ blocks.length * w
  bits : ∀ i, bitAt blocks i = l.getD i false

section

variable {blocks : List (BitVec w)} {i j k : Nat} {b : BitVec w}

theorem lt_of_div_lt {n : Nat} (hw : 0 < w) (h : i / w < n) : i < n * w :=
  (Nat.div_lt_iff_lt_mul hw).mp h

theorem div_lt_of_lt {n : Nat} (hw : 0 < w) (h : i < n * w) : i / w < n :=
  (Nat.div_lt_iff_lt_mul hw).mpr h

theorem eq_of_div_eq (hdiv : i / w = j / w) (hmod : i % w = j % w) : i = j := by
  rw [← div_add_mod i w, ← div_add_mod j w, hdiv, hmod]

theorem succ_mod_of_eq (h : i % w + 1 = w) : (i + 1) % w = 0 := by
  have hdm := div_add_mod i w
  have hsucc : i + 1 = w * (i / w) + w := by
    omega
  rw [hsucc, mul_add_mod, mod_self]

theorem succ_eq_div_add_mod : i + 1 = w * (i / w) + (i % w + 1) := by
  have hdm := div_add_mod i w
  omega

theorem succ_mod_of_lt (h : i % w + 1 < w) : (i + 1) % w = i % w + 1 := by
  rw [succ_eq_div_add_mod (w := w), mul_add_mod, mod_eq_of_lt h]

theorem succ_div_of_lt (h : i % w + 1 < w) : (i + 1) / w = i / w := by
  rw [succ_eq_div_add_mod (w := w), mul_add_div (by omega), div_eq_of_lt h, Nat.add_zero]

theorem bitAt_mul_add (hi : i < w) : bitAt blocks (w * k + i) = (blocks.getD k 0#w).getLsbD i := by
  unfold bitAt
  rw [mul_add_div (by omega), div_eq_of_lt hi, Nat.add_zero]
  rw [mul_add_mod, mod_eq_of_lt hi]

theorem bitAt_of_length_le (hw : 0 < w) (h : blocks.length * w ≤ i) : bitAt blocks i = false := by
  unfold bitAt
  rw [getD_eq_getElem?_getD, getElem?_eq_none]
  . simp
  . rw [Nat.le_div_iff_mul_le hw]
    exact h

theorem bitAt_set (hk : k < blocks.length)
    : bitAt (blocks.set k b) i = if i / w = k then b.getLsbD (i % w) else bitAt blocks i := by
  unfold bitAt
  rw [getD_eq_getElem?_getD, getElem?_set]
  by_cases h : i / w = k
  . rw [if_pos h.symm, if_pos hk, if_pos h]
    rfl
  . rw [if_neg (fun heq => h heq.symm), if_neg h, getD_eq_getElem?_getD]

theorem bitAt_set_of_bit {v : Bool} (hw : 0 < w) (hi : i / w < blocks.length)
    (hbit : ∀ k, k < w → b.getLsbD k = if k = i % w then v else (blocks.getD (i / w) 0#w).getLsbD k)
    : bitAt (blocks.set (i / w) b) j = if j = i then v else bitAt blocks j := by
  rw [bitAt_set hi]
  split
  next hdiv =>
    rw [hbit _ (mod_lt j hw)]
    by_cases hj : j = i
    . rw [if_pos hj, if_pos (by rw [hj])]
    . rw [if_neg hj, if_neg (fun hmod => hj (eq_of_div_eq hdiv hmod))]
      unfold bitAt
      rw [hdiv]
  next hdiv =>
    rw [if_neg]
    intro hj
    rw [hj] at hdiv
    exact hdiv rfl

theorem getLsbD_mask (hk : k < w) : (1#w <<< i).getLsbD k = decide (k = i) := by
  rw [BitVec.getLsbD_shiftLeft]
  simp only [hk, decide_true, Bool.true_and, BitVec.getLsbD_one]
  by_cases hki : k = i
  . simp [hki]
    omega
  . by_cases hlt : k < i
    . simp [hlt, hki]
    . simp only [hlt, hki, decide_false, Bool.not_false, Bool.true_and]
      have : k - i ≠ 0 := by
        omega
      simp [this]

theorem and_mask_ne_zero (block : BitVec w) (hk : k < w)
    : (block &&& 1#w <<< k != 0#w) = block.getLsbD k := by
  rw [Bool.eq_iff_iff, bne_iff_ne]
  constructor
  . intro hne
    by_contra hbit
    apply hne
    apply BitVec.eq_of_getLsbD_eq
    intro j hj
    rw [BitVec.getLsbD_and, getLsbD_mask hj]
    by_cases hjk : j = k
    . rw [hjk]
      simp only [Bool.not_eq_true] at hbit
      simp [hbit]
    . simp [hjk]
  . intro hbit heq
    have := congrArg (fun v => v.getLsbD k) heq
    simp only [BitVec.getLsbD_and, getLsbD_mask hk, hbit] at this
    simp at this

theorem bitAt_setBit (hw : 0 < w) (hi : i / w < blocks.length)
    : bitAt (blocks.set (i / w) (blocks.getD (i / w) 0#w ||| 1#w <<< (i % w))) j
        = if j = i then true else bitAt blocks j := by
  apply bitAt_set_of_bit hw hi
  intro k hk
  rw [BitVec.getLsbD_or, getLsbD_mask hk]
  split
  next h => simp [h]
  next h => simp [h]

theorem bitAt_clearBit (hw : 0 < w) (hi : i / w < blocks.length)
    : bitAt (blocks.set (i / w) (blocks.getD (i / w) 0#w &&& ~~~(1#w <<< (i % w)))) j
        = if j = i then false else bitAt blocks j := by
  apply bitAt_set_of_bit hw hi
  intro k hk
  rw [BitVec.getLsbD_and, BitVec.getLsbD_not, getLsbD_mask hk]
  split
  next h => simp [h]
  next h => simp [h, hk]

theorem bitAt_append_zero (n : Nat)
    : bitAt (blocks ++ List.replicate n 0#w) i = bitAt blocks i := by
  unfold bitAt
  simp only [getD_eq_getElem?_getD, getElem?_append, getElem?_replicate]
  split
  next => rfl
  next h =>
    rw [getElem?_eq_none (by omega)]
    split
    next => rfl
    next => rfl

theorem getLsbD_ones_shiftRight (n : Nat) : (~~~0#w >>> n).getLsbD k = decide (k + n < w) := by
  rw [BitVec.getLsbD_ushiftRight, BitVec.getLsbD_not]
  simp [Nat.add_comm]

end

namespace Represents

variable {blocks : List (BitVec w)} {l : List Bool} {i : Nat}

theorem div_lt (h : Represents blocks l) (hw : 0 < w) (hi : i < l.length)
    : i / w < blocks.length :=
  div_lt_of_lt hw (Nat.lt_of_lt_of_le hi h.enough)

theorem bit_eq (h : Represents blocks l) (hi : i < l.length) : bitAt blocks i = l[i] := by
  rw [h.bits]
  simp [hi]

theorem of_bits {blocks' : List (BitVec w)} {l' : List Bool} (h : Represents blocks l)
    (hblocks : blocks'.length = blocks.length) (hlen : l'.length = l.length)
    (hbits : ∀ i, bitAt blocks' i = l'.getD i false) : Represents blocks' l' where
  enough := by
    rw [hlen, hblocks]
    exact h.enough
  bits := hbits

end Represents

end BitBlocks
