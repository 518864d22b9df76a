import Mathlib.RingTheory.Coprime.Basic
import Mathlib.Tactic.LinearCombination
import Mathlib.Tactic.Linarith
import Mathlib.Tactic.Positivity

/-!
This module contains finite arithmetic progressions of integers and their intersections.
-/

open Int

structure Progression where
  low : Int
  inc : Int
  last : Int
  inc_pos : 0 < inc

namespace Progression

instance : Membership Int Progression where
  mem p z := p.low ≤ z ∧ z ≤ p.last ∧ p.inc ∣ z - p.low

theorem mem_def {p : Progression} {z : Int}
    : z ∈ p ↔ p.low ≤ z ∧ z ≤ p.last ∧ p.inc ∣ z - p.low := by
  rfl

structure IsCofactor (a b g y : Int) : Prop where
  pos : 0 < g
  dvd_left : g ∣ a
  dvd_right : g ∣ b
  bezout : ∃ x, x * a + y * b = g

namespace IsCofactor

variable {a b g y : Int}

section

variable (h : IsCofactor a b g y)

include h

theorem left_eq : a / g * g = a := by
  apply Int.ediv_mul_cancel
  apply h.dvd_left

theorem right_eq : b / g * g = b := by
  apply Int.ediv_mul_cancel
  apply h.dvd_right

theorem left_pos (ha : 0 < a) : 0 < a / g := by
  apply ediv_pos_of_pos_of_dvd
  . apply ha
  . apply le_of_lt
    apply h.pos
  . apply h.dvd_left

theorem reduced : ∃ x, x * (a / g) + y * (b / g) = 1 := by
  obtain ⟨x, hx⟩ := h.bezout
  use x
  apply mul_right_cancel₀ (ne_of_gt h.pos)
  calc
    (x * (a / g) + y * (b / g)) * g = x * (a / g * g) + y * (b / g * g) := by ring
    _ = 1 * g := by rw [h.left_eq, h.right_eq, hx, one_mul]

end

variable {d k : Int}

theorem dvd_add_iff (h : IsCofactor a b g y) (hd : g ∣ d)
    : a ∣ d + b * k ↔ a / g ∣ k + y * (d / g) := by
  obtain ⟨x, hx⟩ := h.reduced
  have hdiv : d / g * g = d := Int.ediv_mul_cancel hd
  have hscale : d + b * k = (d / g + b / g * k) * g := by
    calc
      d + b * k = d / g * g + b / g * g * k := by rw [hdiv, h.right_eq]
      _ = (d / g + b / g * k) * g := by ring
  have hreduce : a ∣ d + b * k ↔ a / g ∣ d / g + b / g * k := by
    rw [hscale]
    conv =>
      lhs
      rw [← h.left_eq]
    apply Int.mul_dvd_mul_iff_right
    apply ne_of_gt h.pos
  rw [hreduce]
  constructor
  . intro ⟨c, hc⟩
    use y * c + x * k
    linear_combination y * hc - k * hx
  . intro ⟨c, hc⟩
    use b / g * c + x * (d / g)
    linear_combination b / g * hc - d / g * hx

theorem dvd_add_iff_emod (h : IsCofactor a b g y) (hd : g ∣ d) (h0 : 0 ≤ k) (hk : k < a / g)
    : a ∣ d + b * k ↔ k = (-y * (d / g)) % (a / g) := by
  rw [h.dvd_add_iff hd]
  have hneg : k + y * (d / g) = k - -y * (d / g) := by ring
  rw [hneg, dvd_iff_emod_eq_zero, ← emod_eq_emod_iff_emod_sub_eq_zero]
  rw [emod_eq_of_lt h0 hk]

theorem exists_offset (h : IsCofactor a b g y) (ha : 0 < a) (hd : g ∣ d) (h0 : 0 ≤ k)
    (hdvd : a ∣ d + b * k)
    : ∃ j : Nat, k = (-y * (d / g)) % (a / g) + j * (a / g) := by
  have hpos := h.left_pos ha
  rw [h.dvd_add_iff hd] at hdvd
  have hneg : k + y * (d / g) = k - -y * (d / g) := by ring
  rw [hneg, dvd_iff_emod_eq_zero, ← emod_eq_emod_iff_emod_sub_eq_zero] at hdvd
  have hnonneg : 0 ≤ k / (a / g) := ediv_nonneg h0 (le_of_lt hpos)
  use (k / (a / g)).toNat
  rw [toNat_of_nonneg hnonneg, ← hdvd, Int.mul_comm]
  symm
  apply emod_add_mul_ediv

end IsCofactor

def meet (p q : Progression) (g y : Int) : Int :=
  q.low + q.inc * ((-y * ((q.low - p.low) / g)) % (p.inc / g))

variable {p q : Progression} {g y : Int}

theorem not_mem_of_not_dvd (h : IsCofactor p.inc q.inc g y) (hd : ¬g ∣ q.low - p.low) (z : Int)
    : ¬(z ∈ p ∧ z ∈ q) := by
  intro ⟨hp, hq⟩
  apply hd
  have hzp := Int.dvd_trans h.dvd_left hp.2.2
  have hzq := Int.dvd_trans h.dvd_right hq.2.2
  have := Int.dvd_sub hzp hzq
  have heq : z - p.low - (z - q.low) = q.low - p.low := by ring
  rwa [heq] at this

-- The common elements, as a progression whose increment is the least common multiple.
theorem mem_and_mem_iff (h : IsCofactor p.inc q.inc g y) (hd : g ∣ q.low - p.low)
    (hle : p.low ≤ q.low) (z : Int)
    : (z ∈ p ∧ z ∈ q)
        ↔
      ∃ j : Nat, z = p.meet q g y + j * (p.inc / g * q.inc) ∧ z ≤ p.last ∧ z ≤ q.last := by
  have hpos := h.left_pos p.inc_pos
  have hqpos := q.inc_pos
  constructor
  . intro ⟨hp, hq⟩
    obtain ⟨k, hk⟩ := hq.2.2
    have hz : z - p.low = q.low - p.low + q.inc * k := by
      rw [← hk]
      ring
    have hk0 : 0 ≤ k := by
      have hlow := hq.1
      have hmul : 0 ≤ q.inc * k := by omega
      apply nonneg_of_mul_nonneg_right hmul hqpos
    have hdvd := hp.2.2
    rw [hz] at hdvd
    obtain ⟨j, hj⟩ := h.exists_offset p.inc_pos hd hk0 hdvd
    refine ⟨j, ?_, hp.2.1, hq.2.1⟩
    unfold meet
    linear_combination hk + q.inc * hj
  . intro ⟨j, hz, hlastp, hlastq⟩
    unfold meet at hz
    generalize hx : (-y * ((q.low - p.low) / g)) % (p.inc / g) = x at hz
    have hx0 : 0 ≤ x := by
      rw [← hx]
      apply emod_nonneg
      apply ne_of_gt hpos
    have hzq : z - q.low = q.inc * (x + j * (p.inc / g)) := by
      rw [hz]
      ring
    have hnonneg : 0 ≤ q.inc * (x + j * (p.inc / g)) := by positivity
    have hdvd : p.inc ∣ z - p.low := by
      have heq : z - p.low = q.low - p.low + q.inc * (x + j * (p.inc / g)) := by
        rw [← hzq]
        ring
      rw [heq, h.dvd_add_iff hd]
      have hsub : p.inc / g ∣ x - -y * ((q.low - p.low) / g) := by
        rw [← hx]
        apply dvd_emod_sub_self
      have hsum : x + j * (p.inc / g) + y * ((q.low - p.low) / g)
          = x - -y * ((q.low - p.low) / g) + j * (p.inc / g) := by
        ring
      rw [hsum]
      apply Int.dvd_add hsub
      apply Int.dvd_mul_left
    refine ⟨⟨?_, hlastp, hdvd⟩, ⟨?_, hlastq, ?_⟩⟩
    . omega
    . omega
    . rw [hzq]
      apply Int.dvd_mul_right

theorem exists_lt_iff {low inc len z : Int} (hinc : 0 < inc)
    : (∃ pos : Nat, pos < len.toNat ∧ low + pos * inc = z)
        ↔
      low ≤ z ∧ z ≤ low + (len - 1) * inc ∧ inc ∣ z - low := by
  constructor
  . intro ⟨pos, hlt, hz⟩
    have hpos : 0 ≤ (pos : Int) * inc := by positivity
    have hle : (pos : Int) * inc ≤ (len - 1) * inc := by
      apply Int.mul_le_mul_of_nonneg_right
      . omega
      . omega
    refine ⟨by omega, by omega, pos, ?_⟩
    rw [← hz]
    ring
  . intro ⟨hlow, hlast, k, hk⟩
    have hk0 : 0 ≤ k := by
      apply nonneg_of_mul_nonneg_right (a := inc)
      . omega
      . apply hinc
    have hklt : k ≤ len - 1 := by
      apply Int.le_of_mul_le_mul_left (a := inc)
      . rw [← hk, Int.mul_comm]
        omega
      . apply hinc
    refine ⟨k.toNat, by omega, ?_⟩
    rw [toNat_of_nonneg hk0, Int.mul_comm, ← hk]
    omega

end Progression
