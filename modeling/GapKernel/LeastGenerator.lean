import GapKernel.PermList
import Mathlib.Data.ZMod.Units
import Mathlib.Order.PiLex
import Mathlib.Tactic.LinearCombination

/-!
This module contains the smallest generator of a cyclic group of permutations of the natural
numbers. An exponent for it is found by looking at one point after the other.
-/

open Nat

section Remainders

variable {len g k m n : Nat}

theorem exists_coprime_modEq (hlen : 0 < len) (hg : g ∣ len) (hk : Nat.Coprime k g)
    : ∃ l, l < len ∧ l ≡ k [MOD g] ∧ Nat.Coprime l len := by
  have : NeZero len := ⟨by omega⟩
  rcases ZMod.unitsMap_surjective hg (ZMod.unitOfCoprime k hk) with ⟨u, hu⟩
  refine ⟨(u : ZMod len).val, ZMod.val_lt _, ?_, ZMod.val_coe_unit_coprime u⟩
  have hcast : ((u : ZMod len).cast : ZMod g) = (k : ZMod g) := by
    rw [← ZMod.unitsMap_val hg, hu, ZMod.coe_unitOfCoprime]
  rw [← ZMod.natCast_eq_natCast_iff, ← hcast, ZMod.natCast_val]

theorem exists_add_mul_mod (hlen : 0 < len) (hn : n < len) (hmod : k ≡ n [MOD Nat.gcd len m])
    : ∃ j, j < len ∧ (k + j * m) % len = n := by
  rcases Nat.modEq_iff_dvd.mp hmod with ⟨t, ht⟩
  have hbezout := gcd_eq_gcd_ab len m
  generalize gcdA len m = a at hbezout
  generalize gcdB len m = b at hbezout
  have hnonneg := Int.emod_nonneg (b * t) (show (len : ℤ) ≠ 0 by omega)
  have hlt := Int.emod_lt_of_pos (b * t) (show (0 : ℤ) < len by omega)
  have hdiv := Int.mul_ediv_add_emod (b * t) len
  have hj : (((b * t % len).toNat : Nat) : ℤ) = b * t - len * (b * t / len) := by
    rw [Int.toNat_of_nonneg hnonneg]
    omega
  refine ⟨(b * t % len).toNat, by omega, ?_⟩
  have hmodEq : k + (b * t % len).toNat * m ≡ n [MOD len] := by
    rw [modEq_iff_dvd]
    refine ⟨a * t + (b * t / len) * m, ?_⟩
    push_cast
    rw [hj]
    rw [hbezout] at ht
    linear_combination ht
  unfold Nat.ModEq at hmodEq
  rw [hmodEq, mod_eq_of_lt hn]

end Remainders

namespace PermList

open Function Equiv.Perm

variable {σ τ : Equiv.Perm Nat} {n p x y : Nat}

section Iterates

theorem iterate_eq_iff (hσ : ∀ i, n ≤ i → σ i = i) {i j : Nat}
    : σ^[i] x = σ^[j] x ↔ i ≡ j [MOD minimalPeriod σ x] := by
  have hpos := minimalPeriod_pos hσ x
  rw [← iterate_mod_minimalPeriod_eq (n := i), ← iterate_mod_minimalPeriod_eq (n := j)]
  exact iterate_eq_iterate_iff_of_lt_minimalPeriod (mod_lt _ hpos) (mod_lt _ hpos)

theorem iterate_eq_of_sameCycle (hσ : ∀ i, n ≤ i → σ i = i) (h : SameCycle σ x y) {i j : Nat}
    (heq : σ^[i] x = σ^[j] x)
    : σ^[i] y = σ^[j] y := by
  rw [iterate_eq_iff hσ] at heq ⊢
  rw [minimalPeriod_eq_of_sameCycle hσ h]
  exact heq

theorem minimalPeriod_dvd_orderOf (σ : Equiv.Perm Nat) (x : Nat)
    : minimalPeriod σ x ∣ orderOf σ := by
  apply IsPeriodicPt.minimalPeriod_dvd
  unfold IsPeriodicPt IsFixedPt
  rw [iterate_eq_pow, pow_orderOf_eq_one]
  rfl

end Iterates

structure IsSmallestGenerator (τ σ : Equiv.Perm Nat) : Prop where
  zpowers_eq : Subgroup.zpowers σ = Subgroup.zpowers τ
  le : ∀ σ', Subgroup.zpowers σ' = Subgroup.zpowers τ → toLex ⇑σ ≤ toLex ⇑σ'

structure IsLeastExponent (σ : Equiv.Perm Nat) (p ord pow : Nat) : Prop where
  ord_pos : 0 < ord
  coprime : Nat.Coprime pow ord
  modEq_iff : ∀ i j, i ≡ j [MOD ord] ↔ ∀ x, x < p → σ^[i] x = σ^[j] x
  least : ∀ k, Nat.Coprime k (orderOf σ) → (∀ x, x < p → σ^[k] x = σ^[pow] x)
    ∨ ∃ q, q < p ∧ (∀ x, x < q → σ^[pow] x = σ^[k] x) ∧ σ^[pow] q < σ^[k] q

structure IsLeastChoice (σ : Equiv.Perm Nat) (p ord pow n : Nat) : Prop where
  modEq : n ≡ pow [MOD Nat.gcd (minimalPeriod σ p) ord]
  coprime : Nat.Coprime n (minimalPeriod σ p)
  le : ∀ l, l ≡ pow [MOD Nat.gcd (minimalPeriod σ p) ord] → Nat.Coprime l (minimalPeriod σ p)
    → σ^[n] p ≤ σ^[l] p

namespace IsLeastExponent

variable {ord pow : Nat}

theorem zero (σ : Equiv.Perm Nat) : IsLeastExponent σ 0 1 0 := by
  constructor
  . exact Nat.one_pos
  . exact coprime_one_right 0
  . intro i j
    simp [modEq_one]
  . intro k _
    left
    intro x hx
    omega

variable (hσ : ∀ i, n ≤ i → σ i = i)

include hσ

-- The images of the points of a cycle are known from one of its points.
theorem skip (h : IsLeastExponent σ p ord pow) {p' : Nat} (hp' : p' < p) (hsame : SameCycle σ p' p)
    : IsLeastExponent σ (p + 1) ord pow := by
  have hsucc : ∀ i j, (∀ x, x < p → σ^[i] x = σ^[j] x) → ∀ x, x < p + 1 → σ^[i] x = σ^[j] x := by
    intro i j heq x hx
    by_cases hxp : x = p
    . rw [hxp]
      apply iterate_eq_of_sameCycle hσ hsame (heq p' hp')
    . apply heq
      omega
  constructor
  . exact h.ord_pos
  . exact h.coprime
  . intro i j
    rw [h.modEq_iff]
    exact ⟨hsucc i j, fun heq x hx => heq x (by omega)⟩
  . intro k hk
    cases h.least k hk with
    | inl heq => exact Or.inl (hsucc k pow heq)
    | inr hex =>
      right
      obtain ⟨q, hq, hless⟩ := hex
      exact ⟨q, by omega, hless⟩

theorem succ (h : IsLeastExponent σ p ord pow) {l pow' : Nat} (hl : IsLeastChoice σ p ord pow l)
    (hpow : pow' ≡ pow [MOD ord]) (hpow' : pow' ≡ l [MOD minimalPeriod σ p])
    : IsLeastExponent σ (p + 1) (Nat.lcm ord (minimalPeriod σ p)) pow' := by
  have hpos := minimalPeriod_pos hσ p
  have hagree := (h.modEq_iff pow' pow).mp hpow
  have himage : σ^[pow'] p = σ^[l] p := (iterate_eq_iff hσ).mpr hpow'
  constructor
  . exact lcm_pos h.ord_pos hpos
  . have hord : Nat.Coprime pow' ord := by
      unfold Nat.Coprime
      rw [hpow.gcd_eq]
      exact h.coprime
    have hlen : Nat.Coprime pow' (minimalPeriod σ p) := by
      unfold Nat.Coprime
      rw [hpow'.gcd_eq]
      exact hl.coprime
    exact (hord.mul_right hlen).coprime_dvd_right (Nat.lcm_dvd_mul _ _)
  . intro i j
    constructor
    . intro hij x hx
      by_cases hxp : x = p
      . rw [hxp, iterate_eq_iff hσ]
        exact hij.of_dvd (Nat.dvd_lcm_right _ _)
      . exact (h.modEq_iff i j).mp (hij.of_dvd (Nat.dvd_lcm_left _ _)) x (by omega)
    . intro heq
      apply mod_lcm
      . rw [h.modEq_iff]
        exact fun x hx => heq x (by omega)
      . rw [← iterate_eq_iff hσ]
        exact heq p (by omega)
  . intro k hk
    cases h.least k hk with
    | inl heq =>
      -- The exponent `k` has been possible for the cycle of `p`, too.
      have hkord : k ≡ pow [MOD ord] := (h.modEq_iff k pow).mpr heq
      have hle := hl.le k (hkord.of_dvd (Nat.gcd_dvd_right _ _))
        (hk.coprime_dvd_right (minimalPeriod_dvd_orderOf σ p))
      by_cases himages : σ^[k] p = σ^[pow'] p
      . left
        intro x hx
        by_cases hxp : x = p
        . rw [hxp, himages]
        . rw [heq x (by omega), hagree x (by omega)]
      . right
        refine ⟨p, by omega, ?_, by omega⟩
        intro x hx
        rw [heq x hx, hagree x hx]
    | inr hex =>
      right
      obtain ⟨q, hq, hbelow, hless⟩ := hex
      refine ⟨q, by omega, ?_, ?_⟩
      . intro x hx
        rw [hagree x (by omega), hbelow x hx]
      . rw [hagree q hq]
        exact hless

variable (h : IsLeastExponent σ n ord pow)

include h

theorem pow_ord
    : σ ^ ord = 1 := by
  ext x
  by_cases hx : x < n
  . have := (h.modEq_iff ord 0).mp (by rw [Nat.ModEq, mod_self, zero_mod]) x hx
    rw [iterate_eq_pow] at this
    exact this
  . exact pow_apply_eq_self_of_apply_eq_self (hσ x (by omega)) ord

theorem coprime_orderOf
    : Nat.Coprime pow (orderOf σ) :=
  h.coprime.coprime_dvd_right (orderOf_dvd_of_pow_eq_one (h.pow_ord hσ))

theorem isSmallestGenerator
    : IsSmallestGenerator σ (σ ^ pow) := by
  have hgenerates : ∀ k, Subgroup.zpowers (σ ^ k) = Subgroup.zpowers σ
      ↔ Nat.Coprime k (orderOf σ) := by
    intro k
    unfold Nat.Coprime
    rw [← mem_zpowers_pow_iff, le_antisymm_iff, Subgroup.zpowers_le, Subgroup.zpowers_le]
    exact and_iff_right (Subgroup.npow_mem_zpowers σ k)
  have hfinite : IsOfFinOrder σ :=
    isOfFinOrder_iff_pow_eq_one.mpr ⟨ord, h.ord_pos, h.pow_ord hσ⟩
  constructor
  . exact (hgenerates pow).mpr (h.coprime_orderOf hσ)
  . intro σ' hσ'
    have hmem : σ' ∈ Submonoid.powers σ := by
      rw [hfinite.mem_powers_iff_mem_zpowers, ← hσ']
      exact Subgroup.mem_zpowers σ'
    obtain ⟨k, rfl⟩ := hmem
    cases h.least k ((hgenerates k).mp hσ') with
    | inl heq =>
      apply le_of_eq
      apply congrArg
      ext x
      rw [← iterate_eq_pow, ← iterate_eq_pow]
      by_cases hx : x < n
      . exact (heq x hx).symm
      . rw [iterate_fixed (hσ x (by omega)), iterate_fixed (hσ x (by omega))]
    | inr hex =>
      apply le_of_lt
      obtain ⟨q, _, hbelow, hless⟩ := hex
      rw [iterate_eq_pow, iterate_eq_pow] at hless
      refine ⟨q, ?_, hless⟩
      intro x hx
      rw [← iterate_eq_pow, ← iterate_eq_pow]
      exact hbelow x hx

end IsLeastExponent

end PermList
