import Mathlib.RingTheory.RootsOfUnity.PrimitiveRoots

/-!
This module contains the finite subfields of a field of characteristic `p`, with a primitive root
for each of them. The root of a smaller field is a power of that of a larger one.
-/

open Nat

namespace CompatibleRoots

variable {K : Type} [Field K] {p d e : Nat} {x y : K}

section Subfields

def InField (p e : Nat) (x : K) : Prop :=
  x ^ p ^ e = x

theorem inField_zero (hp : 1 < p) : InField p e (0 : K) := by
  unfold InField
  rw [zero_pow]
  exact Nat.ne_of_gt (Nat.pow_pos (by omega))

theorem inField_iff (hp : 1 < p) (hx : x ≠ 0) : InField p e x ↔ x ^ (p ^ e - 1) = 1 := by
  have hpos : 0 < p ^ e := Nat.pow_pos (by omega)
  unfold InField
  constructor
  . intro h
    apply mul_right_cancel₀ hx
    rw [one_mul, ← pow_succ, Nat.sub_add_cancel hpos]
    exact h
  . intro h
    rw [← Nat.sub_add_cancel hpos, pow_succ, h, one_mul]

theorem InField.of_dvd (h : InField p e x) (hed : e ∣ d) : InField p d x := by
  obtain ⟨k, rfl⟩ := hed
  unfold InField at h ⊢
  induction k with
  | zero => rw [Nat.mul_zero, pow_zero, pow_one]
  | succ k ih => rw [mul_succ, pow_add, pow_mul, ih, h]

theorem InField.gcd (hp : 1 < p) (hd : InField p d x) (he : InField p e x)
    : InField p (Nat.gcd d e) x := by
  by_cases hx : x = 0
  . rw [hx]
    exact inField_zero hp
  . rw [inField_iff hp hx] at hd he ⊢
    rw [← pow_sub_one_gcd_pow_sub_one]
    exact pow_gcd_eq_one.mpr ⟨hd, he⟩

theorem InField.mul (hx : InField p e x) (hy : InField p e y) : InField p e (x * y) := by
  unfold InField at *
  rw [mul_pow, hx, hy]

theorem InField.div (hx : InField p e x) (hy : InField p e y) : InField p e (x / y) := by
  unfold InField at *
  rw [div_pow, hx, hy]

section

variable [Fact p.Prime] [CharP K p] (hx : InField p e x) (hy : InField p e y)

include hx hy

theorem InField.add
    : InField p e (x + y) := by
  unfold InField at *
  rw [add_pow_char_pow, hx, hy]

theorem InField.sub
    : InField p e (x - y) := by
  unfold InField at *
  rw [sub_pow_char_pow, hx, hy]

end

open Classical in
noncomputable def degree (p : Nat) (x : K) : Nat :=
  sInf { e | 0 < e ∧ InField p e x }

theorem degree_spec (hd : 0 < d) (h : InField p d x)
    : 0 < degree p x ∧ InField p (degree p x) x :=
  sInf_mem (s := { e | 0 < e ∧ InField p e x }) ⟨d, hd, h⟩

theorem degree_le (he : 0 < e) (h : InField p e x) : degree p x ≤ e :=
  Nat.sInf_le ⟨he, h⟩

theorem inField_iff_degree_dvd (hp : 1 < p) (hd : 0 < d) (h : InField p d x)
    : InField p e x ↔ degree p x ∣ e := by
  have hdegree := degree_spec hd h
  constructor
  . intro he
    -- The greatest common divisor would be a smaller degree.
    have hpos : 0 < Nat.gcd (degree p x) e := gcd_pos_of_pos_left _ hdegree.1
    have hle := degree_le hpos (hdegree.2.gcd hp he)
    have hdvd := Nat.gcd_dvd_left (degree p x) e
    rw [← Nat.le_antisymm (Nat.le_of_dvd hdegree.1 hdvd) hle]
    exact Nat.gcd_dvd_right _ _
  . intro hdvd
    exact hdegree.2.of_dvd hdvd

theorem pow_sub_one_dvd_iff (hp : 1 < p) : p ^ e - 1 ∣ p ^ d - 1 ↔ e ∣ d := by
  constructor
  . intro h
    have hgcd : p ^ Nat.gcd e d - 1 = p ^ e - 1 := by
      rw [← pow_sub_one_gcd_pow_sub_one]
      exact gcd_eq_left h
    have hpos : ∀ n, 0 < p ^ n := fun n => Nat.pow_pos (by omega)
    have hpow : p ^ Nat.gcd e d = p ^ e := by
      have := hpos (Nat.gcd e d)
      have := hpos e
      omega
    rw [← Nat.pow_right_injective hp hpow]
    exact Nat.gcd_dvd_right _ _
  . intro h
    exact Nat.pow_sub_one_dvd_pow_sub_one p h

end Subfields

/--
The primitive roots `Z d` of the fields with `p ^ d` elements, for the degrees in `D`.
-/
structure IsCompatible (p : Nat) (D : Nat → Prop) (Z : Nat → K) : Prop where
  pos : ∀ d, D d → 0 < d
  of_dvd : ∀ d e, D d → 0 < e → e ∣ d → D e
  isPrimitiveRoot : ∀ d, D d → IsPrimitiveRoot (Z d) (p ^ d - 1)
  pow_eq : ∀ d e, D d → 0 < e → e ∣ d → Z d ^ ((p ^ d - 1) / (p ^ e - 1)) = Z e

noncomputable def log (Z : Nat → K) (e : Nat) (x : K) : Nat :=
  sInf { k | Z e ^ k = x }

noncomputable def rank (p : Nat) (Z : Nat → K) (x : K) : Nat ×ₗ Nat :=
  open Classical in if x = 0 then toLex (0, 0) else toLex (degree p x, log Z (degree p x) x)

namespace IsCompatible

variable {D : Nat → Prop} {Z : Nat → K} {i j k : Nat}

variable (h : IsCompatible p D Z)

include h

section

variable (hp : 1 < p) (hd : D d)

include hp hd

theorem order_pos : 0 < p ^ d - 1 := by
  have := one_lt_pow (Nat.ne_of_gt (h.pos d hd)) hp
  omega

theorem ne_zero : Z d ≠ 0 :=
  (h.isPrimitiveRoot d hd).ne_zero (Nat.ne_of_gt (h.order_pos hp hd))

theorem root_pow_ne_zero (i : Nat)
    : Z d ^ i ≠ 0 :=
  pow_ne_zero i (h.ne_zero hp hd)

theorem inField_pow (i : Nat)
    : InField p d (Z d ^ i) := by
  rw [inField_iff hp (h.root_pow_ne_zero hp hd i), ← pow_mul, mul_comm, pow_mul,
    (h.isPrimitiveRoot d hd).pow_eq_one, one_pow]

theorem inField_pow_iff (he : 0 < e) (hed : e ∣ d)
    : InField p e (Z d ^ i) ↔ (p ^ d - 1) / (p ^ e - 1) ∣ i := by
  have hpos := h.order_pos hp (h.of_dvd d e hd he hed)
  obtain ⟨k, hk⟩ := (pow_sub_one_dvd_iff hp).mpr hed
  rw [inField_iff hp (h.root_pow_ne_zero hp hd i), ← pow_mul,
    (h.isPrimitiveRoot d hd).pow_eq_one_iff_dvd, hk, Nat.mul_div_cancel_left k hpos, mul_comm i]
  exact Nat.mul_dvd_mul_iff_left hpos

end

theorem pow_mul_eq (hd : D d) (he : 0 < e) (hed : e ∣ d) (k : Nat)
    : Z d ^ ((p ^ d - 1) / (p ^ e - 1) * k) = Z e ^ k := by
  rw [pow_mul, h.pow_eq d e hd he hed]

theorem pow_inj (hd : D d) (hi : i < p ^ d - 1) (hj : j < p ^ d - 1) (heq : Z d ^ i = Z d ^ j)
    : i = j :=
  (h.isPrimitiveRoot d hd).pow_inj hi hj heq

theorem exists_pow (hp : 1 < p) (hd : D d) (hx : x ≠ 0) (hfield : InField p d x)
    : ∃ i, i < p ^ d - 1 ∧ Z d ^ i = x := by
  have : NeZero (p ^ d - 1) := ⟨Nat.ne_of_gt (h.order_pos hp hd)⟩
  exact (h.isPrimitiveRoot d hd).eq_pow_of_pow_eq_one ((inField_iff hp hx).mp hfield)

theorem log_eq (hd : D d) (hi : i < p ^ d - 1) (hx : Z d ^ i = x)
    : log Z d x = i := by
  have hmem : Z d ^ log Z d x = x := sInf_mem (s := { k | Z d ^ k = x }) ⟨i, hx⟩
  have hle : log Z d x ≤ i := Nat.sInf_le hx
  exact h.pow_inj hd (by omega) hi (hmem.trans hx.symm)

theorem eq_of_rank_eq (hp : 1 < p) (hd : D d) (hx : InField p d x) (he : D e) (hy : InField p e y)
    (heq : rank p Z x = rank p Z y)
    : x = y := by
  have hlog : ∀ {z : K} {n : Nat}, D n → InField p n z → z ≠ 0 → 0 < degree p z
      ∧ Z (degree p z) ^ log Z (degree p z) z = z := by
    intro z n hn hz hne
    have hdegree := degree_spec (h.pos n hn) hz
    have hmem := h.of_dvd n _ hn hdegree.1 ((inField_iff_degree_dvd hp (h.pos n hn) hz).mp hz)
    obtain ⟨i, hi, hpow⟩ := h.exists_pow hp hmem hne hdegree.2
    rw [h.log_eq hmem hi hpow]
    exact ⟨hdegree.1, hpow⟩
  unfold rank at heq
  by_cases hx0 : x = 0
  . by_cases hy0 : y = 0
    . rw [hx0, hy0]
    . rw [if_pos hx0, if_neg hy0] at heq
      have := (hlog he hy hy0).1
      have hfst := congrArg (fun r => (ofLex r).1) heq
      dsimp only [ofLex_toLex] at hfst
      omega
  . by_cases hy0 : y = 0
    . rw [if_neg hx0, if_pos hy0] at heq
      have := (hlog hd hx hx0).1
      have hfst := congrArg (fun r => (ofLex r).1) heq
      dsimp only [ofLex_toLex] at hfst
      omega
    . rw [if_neg hx0, if_neg hy0] at heq
      have hpair := Prod.mk.inj (toLex.injective heq)
      rw [← (hlog hd hx hx0).2, ← (hlog he hy hy0).2, hpair.2, hpair.1]

end IsCompatible

end CompatibleRoots
