import Mathlib.GroupTheory.Perm.Cycle.Basic

/-!
This module contains the permutations of the natural numbers that are given by the list of their
images, the numbers beyond the list are fixed, and their cycles.
-/

open Nat Finset

namespace PermList

def image (l : List Nat) (i : Nat) : Nat :=
  l.getD i i

def Acts (l : List Nat) (σ : Equiv.Perm Nat) : Prop :=
  ∀ i, image l i = σ i

variable {l l' : List Nat} {σ τ : Equiv.Perm Nat}

variable {i : Nat}

theorem image_of_lt (h : i < l.length) : image l i = l[i] := by
  simp [image, h]

theorem image_of_le (h : l.length ≤ i) : image l i = i := by
  simp [image, h]

theorem acts_nil : Acts [] 1 := by
  intro i
  rw [image_of_le (Nat.zero_le i)]
  rfl

namespace Acts

theorem unique (h : Acts l σ) (h' : Acts l τ) : σ = τ := by
  ext i
  rw [← h i, ← h' i]

variable {i : Nat}

variable (h : Acts l σ)

include h

theorem fix (hi : l.length ≤ i) : σ i = i := by
  rw [← h i, image_of_le hi]

theorem lt (hi : i < l.length) : σ i < l.length := by
  by_contra hlt
  have hfix := h.fix (Nat.le_of_not_lt hlt)
  have := σ.injective hfix
  omega

theorem symm_fix (hi : l.length ≤ i) : σ.symm i = i := by
  rw [Equiv.symm_apply_eq, h.fix hi]

theorem getElem?_eq (hi : i < l.length) : l[i]? = some (σ i) := by
  rw [← h i, image_of_lt hi, List.getElem?_eq_getElem hi]

theorem eq_one (hl : l.length = 0) : σ = 1 := by
  ext i
  rw [h.fix (by omega)]
  rfl

end Acts

variable {n : Nat}

theorem symm_lt (hσ : ∀ i, n ≤ i → σ i = i) (hi : i < n) : σ.symm i < n := by
  by_contra hlt
  have := hσ _ (Nat.le_of_not_lt hlt)
  rw [Equiv.apply_symm_apply] at this
  omega

theorem apply_lt (hσ : ∀ i, n ≤ i → σ i = i) (hi : i < n) : σ i < n := by
  by_contra hlt
  have := σ.injective (hσ _ (Nat.le_of_not_lt hlt))
  omega

theorem acts_of_getElem? {l : List Nat} {α β : Equiv.Perm Nat} (hlen : l.length = n)
    (hc : ∀ p, p < n → l[α p]? = some (β p)) (hα : ∀ i, n ≤ i → α i = i) (hβ : ∀ i, n ≤ i → β i = i)
    : Acts l (α.symm.trans β) := by
  intro i
  rw [Equiv.trans_apply]
  by_cases hi : i < n
  . have := hc (α.symm i) (symm_lt hα hi)
    rw [Equiv.apply_symm_apply] at this
    simp [image, this]
  . have hle : n ≤ i := Nat.le_of_not_lt hi
    have hsymm : α.symm i = i := by
      rw [Equiv.symm_apply_eq, hα i hle]
    rw [image_of_le (by omega), hsymm, hβ i hle]

theorem exists_acts {l : List Nat} (hlt : ∀ i, i < l.length → image l i < l.length)
    (hinj : ∀ i j, i < l.length → j < l.length → image l i = image l j → i = j)
    : ∃ σ, Acts l σ := by
  have hbound : ∀ i, image l i < l.length ↔ i < l.length := by
    intro i
    constructor
    . intro h
      by_contra hge
      rw [image_of_le (by omega)] at h
      omega
    . apply hlt
  have hinjective : Function.Injective (image l) := by
    intro i j heq
    have hi := hbound i
    have hj := hbound j
    by_cases hil : i < l.length
    . apply hinj i j hil _ heq
      rw [← hj, ← heq, hi]
      exact hil
    . have hjl : ¬j < l.length := by
        rw [← hj, ← heq, hi]
        exact hil
      rw [image_of_le (by omega), image_of_le (by omega)] at heq
      exact heq
  have hsurjective : Function.Surjective (image l) := by
    intro y
    by_cases hy : y < l.length
    . have hmaps : Set.MapsTo (image l) (Finset.range l.length) (Finset.range l.length) := by
        intro i hi
        rw [mem_coe, mem_range] at hi ⊢
        exact hlt i hi
      have hsurj := surjOn_of_injOn_of_card_le (image l) hmaps hinjective.injOn (Nat.le_refl _)
      have hmem : y ∈ (Finset.range l.length : Set Nat) := by
        rw [mem_coe, mem_range]
        exact hy
      cases hsurj hmem with
      | intro i hi => exact ⟨i, hi.2⟩
    . exact ⟨y, image_of_le (by omega)⟩
  exact ⟨Equiv.ofBijective (image l) ⟨hinjective, hsurjective⟩, fun _ => rfl⟩

theorem exists_iterate_eq (hσ : ∀ i, n ≤ i → σ i = i) (hi : i < n)
    : ∃ k, k < n ∧ σ^[k + 1] i = i := by
  have hmaps : ∀ k, σ^[k] i < n := by
    intro k
    induction k with
    | zero => exact hi
    | succ k ih =>
      rw [Function.iterate_succ_apply']
      apply apply_lt hσ ih
  have hnotInj : ∃ a ∈ Finset.range (n + 1), ∃ b ∈ Finset.range (n + 1), a ≠ b
      ∧ σ^[a] i = σ^[b] i := by
    apply exists_ne_map_eq_of_card_lt_of_maps_to (t := Finset.range n)
    . simp
    . intro k _
      simpa using hmaps k
  have hlt : ∃ a b, a < b ∧ b < n + 1 ∧ σ^[a] i = σ^[b] i := by
    obtain ⟨a, ha, b, hb, hne, heq⟩ := hnotInj
    rw [mem_range] at ha hb
    by_cases hab : a < b
    . exact ⟨a, b, hab, hb, heq⟩
    . exact ⟨b, a, by omega, ha, heq.symm⟩
  obtain ⟨a, b, hab, hb, heq⟩ := hlt
  refine ⟨b - a - 1, by omega, ?_⟩
  rw [show b = a + (b - a - 1 + 1) by omega, Function.iterate_add_apply] at heq
  exact (σ.injective.iterate a heq).symm

end PermList

namespace PermList

open Function Equiv.Perm

variable {σ : Equiv.Perm Nat} {n x y : Nat}

section

variable (hσ : ∀ i, n ≤ i → σ i = i)

include hσ

theorem isPeriodicPt_of_fix (x : Nat)
    : ∃ k, 0 < k ∧ k ≤ max 1 n ∧ IsPeriodicPt σ k x := by
  by_cases hx : x < n
  . cases exists_iterate_eq hσ hx with
    | intro k hk => exact ⟨k + 1, by omega, by omega, hk.2⟩
  . refine ⟨1, by omega, by omega, ?_⟩
    apply hσ
    omega

theorem minimalPeriod_pos (x : Nat) : 0 < minimalPeriod σ x := by
  cases isPeriodicPt_of_fix hσ x with
  | intro k hk => apply hk.2.2.minimalPeriod_pos hk.1

theorem mem_periodicPts_of_fix (x : Nat) : x ∈ periodicPts σ :=
  minimalPeriod_pos_iff_mem_periodicPts.mp (minimalPeriod_pos hσ x)

theorem minimalPeriod_le (hx : x < n) : minimalPeriod σ x ≤ n := by
  rcases isPeriodicPt_of_fix hσ x with ⟨k, hk⟩
  have := hk.2.2.minimalPeriod_le hk.1
  omega

theorem iterate_lt (hx : x < n) (j : Nat) : σ^[j] x < n := by
  induction j with
  | zero => exact hx
  | succ j ih =>
    rw [iterate_succ_apply']
    apply apply_lt hσ ih

end

theorem iterate_ne (hlt : j < minimalPeriod σ x) (hpos : 0 < j) : σ^[j] x ≠ x :=
  not_isPeriodicPt_of_pos_of_lt_minimalPeriod (by omega) hlt

theorem sameCycle_iterate (σ : Equiv.Perm Nat) (x j : Nat) : SameCycle σ x (σ^[j] x) := by
  refine ⟨j, ?_⟩
  rw [zpow_natCast, iterate_eq_pow]

variable (hσ : ∀ i, n ≤ i → σ i = i)

include hσ

theorem zpow_apply_eq_iterate (i : ℤ) (x : Nat)
    : ∃ j, j < minimalPeriod σ x ∧ (σ ^ i) x = σ^[j] x ∧ (j : ℤ) = i % minimalPeriod σ x := by
  have hpos := minimalPeriod_pos hσ x
  have hmod : (σ ^ (i % (minimalPeriod σ x : ℤ))) x = (σ ^ i) x :=
    MulAction.zpow_smul_mod_minimalPeriod σ x i
  have hnonneg := Int.emod_nonneg i (show (minimalPeriod σ x : ℤ) ≠ 0 by omega)
  have hlt := Int.emod_lt_of_pos i (show (0 : ℤ) < minimalPeriod σ x by omega)
  refine ⟨(i % (minimalPeriod σ x : ℤ)).toNat, by omega, ?_, by omega⟩
  rw [← hmod, iterate_eq_pow, ← zpow_natCast, Int.toNat_of_nonneg hnonneg]

theorem sameCycle_iff
    : SameCycle σ x y ↔ ∃ j, j < minimalPeriod σ x ∧ σ^[j] x = y := by
  constructor
  . intro h
    rcases h with ⟨i, hi⟩
    cases zpow_apply_eq_iterate hσ i x with
    | intro j hj => exact ⟨j, hj.1, by rw [← hj.2.1, hi]⟩
  . intro h
    rcases h with ⟨j, hj⟩
    rw [← hj.2]
    apply sameCycle_iterate

theorem minimalPeriod_eq_of_sameCycle (h : SameCycle σ x y)
    : minimalPeriod σ y = minimalPeriod σ x := by
  rcases (sameCycle_iff hσ).mp h with ⟨j, hj⟩
  rw [← hj.2]
  apply minimalPeriod_apply_iterate (mem_periodicPts_of_fix hσ x)

end PermList

def cyclePos (n i j r : Nat) : Nat :=
  (j + i + r * (n - i)) % n

section

variable {n i j r r' x : Nat}

theorem cyclePos_lt (hn : 0 < n) (j r : Nat) : cyclePos n i j r < n :=
  mod_lt _ hn

theorem cyclePos_succ (n i j r : Nat)
    : cyclePos n i j (r + 1) = (cyclePos n i j r + (n - i)) % n := by
  unfold cyclePos
  rw [mod_add_mod, succ_mul, Nat.add_assoc (j + i)]

theorem cyclePos_succ_add (hi : i ≤ n) (hn : 0 < n)
    : (cyclePos n i j (r + 1) + i) % n = cyclePos n i j r := by
  rw [cyclePos_succ, mod_add_mod, Nat.add_assoc, Nat.sub_add_cancel hi, add_mod_right]
  exact mod_eq_of_lt (cyclePos_lt hn j r)

theorem cyclePos_injOn (hi : i ≤ n) (hn : 0 < n)
    : Set.InjOn (cyclePos n i j) (Finset.Icc 1 (n / i.gcd n)) := by
  intro r hr r' hr' heq
  rw [mem_coe, mem_Icc] at hr hr'
  have hmod : r * (n - i) ≡ r' * (n - i) [MOD n] := Nat.ModEq.add_left_cancel' (j + i) heq
  have hcancel := Nat.ModEq.cancel_right_div_gcd hn hmod
  rw [gcd_self_sub_right hi, Nat.gcd_comm] at hcancel
  have hpred : r - 1 ≡ r' - 1 [MOD n / i.gcd n] := by
    apply Nat.ModEq.add_right_cancel' 1
    rw [Nat.sub_add_cancel hr.1, Nat.sub_add_cancel hr'.1]
    exact hcancel
  have hsame := Nat.ModEq.eq_of_lt_of_lt hpred (by omega) (by omega)
  omega

theorem cyclePos_mod_gcd (hj : j < i.gcd n) : cyclePos n i j r % i.gcd n = j := by
  unfold cyclePos
  have hgi : i.gcd n ∣ i := Nat.gcd_dvd_left i n
  have hgn : i.gcd n ∣ n := Nat.gcd_dvd_right i n
  have hdvd : i.gcd n ∣ i + r * (n - i) :=
    Nat.dvd_add hgi (Nat.dvd_mul_left_of_dvd (Nat.dvd_sub hgn hgi) r)
  rw [mod_mod_of_dvd _ hgn, Nat.add_assoc, add_mod, mod_eq_zero_of_dvd hdvd,
    Nat.add_zero, mod_mod, mod_eq_of_lt hj]

theorem mem_cycle_iff (hi : i ≤ n) (hn : 0 < n) (hj : j < i.gcd n) (hx : x < n)
    : (∃ r, 1 ≤ r ∧ r ≤ n / i.gcd n ∧ cyclePos n i j r = x) ↔ x % i.gcd n = j := by
  have hgn : i.gcd n ∣ n := Nat.gcd_dvd_right i n
  constructor
  . rintro ⟨r, -, -, rfl⟩
    exact cyclePos_mod_gcd hj
  . intro hmod
    have hdiv {y : Nat} (hy : y < n) : y / i.gcd n < n / i.gcd n := by
      apply Nat.div_lt_of_lt_mul
      rw [Nat.mul_div_cancel' hgn]
      exact hy
    have hmaps : Set.MapsTo (fun r => cyclePos n i j r / i.gcd n)
        (Finset.Icc 1 (n / i.gcd n)) (Finset.range (n / i.gcd n)) := by
      intro r _
      rw [mem_coe, mem_range]
      exact hdiv (cyclePos_lt hn j r)
    have hinj : Set.InjOn (fun r => cyclePos n i j r / i.gcd n) (Finset.Icc 1 (n / i.gcd n)) := by
      intro r hr r' hr' heq
      apply cyclePos_injOn hi hn hr hr'
      rw [← div_add_mod (cyclePos n i j r) (i.gcd n),
        ← div_add_mod (cyclePos n i j r') (i.gcd n), cyclePos_mod_gcd hj,
        cyclePos_mod_gcd hj, show cyclePos n i j r / _ = cyclePos n i j r' / _ from heq]
    have hsurj := surjOn_of_injOn_of_card_le _ hmaps hinj (by simp)
    obtain ⟨r, hr, heq⟩ := hsurj (Finset.mem_coe.mpr (Finset.mem_range.mpr (hdiv hx)))
    rw [mem_coe, mem_Icc] at hr
    refine ⟨r, hr.1, hr.2, ?_⟩
    rw [← div_add_mod (cyclePos n i j r) (i.gcd n), ← div_add_mod x (i.gcd n),
      cyclePos_mod_gcd hj, hmod, show cyclePos n i j r / _ = x / _ from heq]

end
