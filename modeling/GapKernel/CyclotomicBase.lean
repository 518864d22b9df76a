import Mathlib.Data.Int.ModEq
import Mathlib.RingTheory.RootsOfUnity.PrimitiveRoots

/-!
This module contains the elimination of roots of unity from a sum, with the relation between the
roots that differ by a root of prime order, until only a system of residues is left.
-/

open Finset Int

namespace CyclotomicBase

structure IsMaximalPower (n p q : Nat) : Prop where
  prime : p.Prime
  pow : ∃ a, q = p ^ (a + 1)
  dvd : q ∣ n
  not_dvd : ¬p * q ∣ n

def InWindow (n q : Nat) (lo len : Int) (k : Nat) : Prop :=
  ∃ b : Int, lo ≤ b ∧ b < lo + len ∧ (k : Int) ≡ (n / q : Nat) * b [ZMOD q]

structure IsCleared {R : Type} [Zero R] [Sub R] (n p k : Nat) (f f' : Nat → R) : Prop where
  self : f' k = 0
  sub : ∀ x, x < n → x ≠ k → x ≡ k [MOD n / p] → f' x = f x - f k
  other : ∀ x, n ≤ x ∨ ¬x ≡ k [MOD n / p] → f' x = f x

variable {n p q : Nat}

namespace IsMaximalPower

section

variable (h : IsMaximalPower n p q)

include h

theorem mul_div : p * (q / p) = q := by
  obtain ⟨a, rfl⟩ := h.pow
  rw [pow_succ, Nat.mul_div_cancel _ h.prime.pos, Nat.mul_comm]

theorem div_mul : n / q * (q / p) = n / p := by
  obtain ⟨m, rfl⟩ := h.dvd
  have hq : q ≠ 0 := by
    obtain ⟨a, rfl⟩ := h.pow
    exact pow_ne_zero _ h.prime.ne_zero
  rw [Nat.mul_div_cancel_left m (Nat.pos_of_ne_zero hq)]
  conv_rhs => rw [← h.mul_div, Nat.mul_assoc, Nat.mul_div_cancel_left _ h.prime.pos]
  exact Nat.mul_comm _ _

theorem prime_dvd : p ∣ n :=
  (Dvd.intro _ h.mul_div).trans h.dvd

theorem not_dvd_div : ¬p ∣ n / q := by
  intro hdvd
  apply h.not_dvd
  rw [← Nat.div_mul_cancel h.dvd]
  exact Nat.mul_dvd_mul_right hdvd q

theorem odd_div (hne : p ≠ 2) : q / p % 2 = 1 := by
  obtain ⟨a, rfl⟩ := h.pow
  rw [pow_succ, Nat.mul_div_cancel _ h.prime.pos, ← Nat.odd_iff]
  exact (h.prime.odd_of_ne_two hne).pow

theorem coprime : (n / q).Coprime q := by
  obtain ⟨a, ha⟩ := h.pow
  have hcop : (n / q).Coprime (p ^ (a + 1)) :=
    (Nat.Coprime.pow_left _ ((Nat.Prime.coprime_iff_not_dvd h.prime).mpr h.not_dvd_div)).symm
  rwa [← ha] at hcop

end

theorem unique {q' : Nat} (h : IsMaximalPower n p q) (h' : IsMaximalPower n p q') : q = q' := by
  have : ∀ {a b : Nat}, p ^ (b + 1) ∣ n → ¬p * p ^ (a + 1) ∣ n → b ≤ a := by
    intro a b hdvd hnot
    by_contra hlt
    apply hnot
    rw [← pow_succ']
    exact (pow_dvd_pow p (by omega)).trans hdvd
  obtain ⟨a, rfl⟩ := h.pow
  obtain ⟨b, rfl⟩ := h'.pow
  rw [Nat.le_antisymm (this h.dvd h'.not_dvd) (this h'.dvd h.not_dvd)]

theorem dvd_div_of_ne {p' : Nat} (h : IsMaximalPower n p q) (hp' : p'.Prime) (hdvd : p' ∣ n)
    (hne : p ≠ p') : q ∣ n / p' := by
  obtain ⟨a, ha⟩ := h.pow
  have hcop : q.Coprime p' := by
    rw [ha]
    exact Nat.Coprime.pow_left _ ((Nat.coprime_primes h.prime hp').mpr hne)
  apply hcop.dvd_of_dvd_mul_left
  rw [Nat.mul_div_cancel' hdvd]
  exact h.dvd

end IsMaximalPower

variable {lo : Int} {x : Nat}

theorem inWindow_congr {len : Int} {k : Nat} (h : x ≡ k [MOD q])
    : InWindow n q lo len x ↔ InWindow n q lo len k := by
  have h := natCast_modEq_iff.mpr h
  constructor
  . rintro ⟨b, hle, hlt, hb⟩
    exact ⟨b, hle, hlt, h.symm.trans hb⟩
  . rintro ⟨b, hle, hlt, hb⟩
    exact ⟨b, hle, hlt, h.trans hb⟩

theorem eq_of_inWindow {k : Nat} (h : IsMaximalPower n p q) (hx : x < n) (hk : k < n)
    (hwx : InWindow n q lo (q / p : Nat) x) (hwk : InWindow n q lo (q / p : Nat) k)
    (hmod : x ≡ k [MOD n / p]) : x = k := by
  obtain ⟨b, hle, hlt, hb⟩ := hwx
  obtain ⟨c, hle', hlt', hc⟩ := hwk
  have hqp : q / p ∣ q := ⟨p, by rw [Nat.mul_comm, h.mul_div]⟩
  have hmod' : x ≡ k [MOD q / p] := hmod.of_dvd ⟨n / q, by rw [Nat.mul_comm, h.div_mul]⟩
  have hbc : (n / q : Nat) * b ≡ (n / q : Nat) * c [ZMOD (q / p : Nat)] :=
    ((hb.of_dvd (natCast_dvd_natCast.mpr hqp)).symm.trans
      (natCast_modEq_iff.mpr hmod')).trans (hc.of_dvd (natCast_dvd_natCast.mpr hqp))
  have hgcd : Int.gcd ((q / p : Nat) : Int) ((n / q : Nat) : Int) = 1 := by
    rw [Int.gcd_natCast_natCast]
    exact (h.coprime.coprime_dvd_right hqp).symm
  have hdvd : ((q / p : Nat) : Int) ∣ (n / q : Nat) * (c - b) := by
    rw [mul_sub]
    exact hbc.dvd
  have hbceq : b = c := by
    obtain ⟨z, hz⟩ := dvd_of_dvd_mul_right_of_gcd_one hdvd hgcd
    by_cases hz0 : z = 0
    . rw [hz0, mul_zero] at hz
      omega
    . exfalso
      rcases Int.lt_or_gt_of_ne hz0 with hneg | hpos
      . have : ((q / p : Nat) : Int) * z ≤ ((q / p : Nat) : Int) * (-1) :=
          Int.mul_le_mul_of_nonneg_left (by omega) (by omega)
        omega
      . have : ((q / p : Nat) : Int) * 1 ≤ ((q / p : Nat) : Int) * z :=
          Int.mul_le_mul_of_nonneg_left (by omega) (by omega)
        omega
  rw [← hbceq] at hc
  have hq : x ≡ k [MOD q] := natCast_modEq_iff.mp (hb.trans hc.symm)
  have hm : x ≡ k [MOD n / q] := hmod.of_dvd ⟨q / p, h.div_mul.symm⟩
  have hn : x ≡ k [MOD n / q * q] := (Nat.modEq_and_modEq_iff_modEq_mul h.coprime).mp ⟨hm, hq⟩
  rw [Nat.div_mul_cancel h.dvd] at hn
  exact hn.eq_of_lt_of_lt hx hk

theorem exists_start {len : Nat} (hq : q ∣ n) (hn : 0 < n) (hx : InWindow n q lo len x)
    : ∃ i < n, q ∣ i ∧ ∃ c < len, (x : Int) ≡ i + (n / q : Nat) * (lo + (c : Nat)) [ZMOD n] := by
  obtain ⟨b, hle, hlt, hb⟩ := hx
  have hpos : (0 : Int) < n := by
    omega
  let r : Int := ((x : Int) - (n / q : Nat) * b) % n
  have hr0 : 0 ≤ r := emod_nonneg _ (by omega)
  have hrn : r < n := emod_lt_of_pos _ hpos
  have hqr : (q : Int) ∣ r := by
    apply dvd_of_emod_eq_zero
    rw [emod_emod_of_dvd _ (natCast_dvd_natCast.mpr hq)]
    exact emod_eq_zero_of_dvd hb.symm.dvd
  refine ⟨r.toNat, by omega, ?_, (b - lo).toNat, by omega, ?_⟩
  . rw [← natCast_dvd_natCast, toNat_of_nonneg hr0]
    exact hqr
  . rw [toNat_of_nonneg hr0, toNat_of_nonneg (by omega), add_sub_cancel]
    have hmod : r ≡ (x : Int) - (n / q : Nat) * b [ZMOD n] := mod_modEq _ _
    have := hmod.add_right ((n / q : Nat) * b)
    rw [sub_add_cancel] at this
    exact this.symm

theorem inWindow_of_start {len i c : Nat} (hq : q ∣ n) (hi : q ∣ i) (hc : c < len)
    (hx : (x : Int) ≡ i + (n / q : Nat) * (lo + (c : Nat)) [ZMOD n]) : InWindow n q lo len x := by
  refine ⟨lo + c, by omega, by omega, ?_⟩
  have hmod := hx.of_dvd (natCast_dvd_natCast.mpr hq)
  have hzero : (i : Int) ≡ 0 [ZMOD q] := modEq_zero_iff_dvd.mpr (natCast_dvd_natCast.mpr hi)
  have := hmod.trans (hzero.add_right _)
  rwa [zero_add] at this

section Value

variable {R K : Type} [CommRing R] [CommRing K] (φ : R →+* K) (ζ : K)

def value (n : Nat) (f : Nat → R) : K :=
  ∑ x ∈ Finset.range n, φ (f x) * ζ ^ x

theorem sum_residue (g : Nat → K) {d r : Nat} (hr : r < d) (p : Nat)
    : ∑ x ∈ Finset.range (p * d), (if x % d = r then g x else 0)
        = ∑ j ∈ Finset.range p, g (j * d + r) := by
  induction p with
  | zero => simp
  | succ p ih =>
    rw [Nat.succ_mul, sum_range_add, ih, sum_range_succ]
    congr 1
    have heq : ∀ x ∈ Finset.range d, (if (p * d + x) % d = r then g (p * d + x) else 0)
        = if x = r then g (p * d + x) else 0 := by
      intro x hx
      rw [Nat.mul_add_mod_of_lt (mem_range.mp hx)]
    rw [sum_congr rfl heq, sum_ite_eq', if_pos (mem_range.mpr hr)]

theorem value_cleared {k : Nat} {f f' : Nat → R} (hp : p ∣ n) (hk : k < n)
    (hsum : ∑ j ∈ Finset.range p, (ζ ^ (n / p)) ^ j = 0) (h : IsCleared n p k f f')
    : value φ ζ n f' = value φ ζ n f := by
  have hd : 0 < n / p :=
    Nat.div_pos (Nat.le_of_dvd (by omega) hp) (Nat.pos_of_dvd_of_pos hp (by omega))
  have hterm : ∀ x ∈ Finset.range n, φ (f' x) * ζ ^ x
      = φ (f x) * ζ ^ x - φ (f k) * if x % (n / p) = k % (n / p) then ζ ^ x else 0 := by
    intro x hx
    split
    next hmod =>
      have hval : f' x = f x - f k := by
        by_cases heq : x = k
        . rw [heq, h.self, sub_self]
        . exact h.sub x (mem_range.mp hx) heq hmod
      rw [hval, map_sub, sub_mul]
    next hmod => rw [h.other x (Or.inr hmod), mul_zero, sub_zero]
  unfold value
  rw [sum_congr rfl hterm, sum_sub_distrib, ← mul_sum]
  have hres := sum_residue (fun x => ζ ^ x) (Nat.mod_lt k hd) p
  rw [Nat.mul_div_cancel' hp] at hres
  have hzero : ∑ j ∈ Finset.range p, ζ ^ (j * (n / p) + k % (n / p)) = 0 := by
    have : ∀ j ∈ Finset.range p, ζ ^ (j * (n / p) + k % (n / p))
        = (ζ ^ (n / p)) ^ j * ζ ^ (k % (n / p)) := by
      intro j _
      rw [pow_add, ← pow_mul, Nat.mul_comm]
    rw [sum_congr rfl this, ← sum_mul, hsum, zero_mul]
  rw [hres, hzero, mul_zero, sub_zero]

end Value

def Reduces {R : Type} [Zero R] [Sub R] (n : Nat) : (Nat → R) → (Nat → R) → Prop :=
  Relation.ReflTransGen fun f f' => ∃ p k, p.Prime ∧ p ∣ n ∧ k < n ∧ IsCleared n p k f f'

theorem Reduces.value_eq {R K : Type} [CommRing R] [CommRing K] [IsDomain K] {ζ : K}
    (hζ : IsPrimitiveRoot ζ n) (φ : R →+* K) {f f' : Nat → R} (h : Reduces n f f')
    : value φ ζ n f' = value φ ζ n f := by
  induction h with
  | refl => rfl
  | tail _ hstep ih =>
    obtain ⟨p, k, hp, hdvd, hk, hclear⟩ := hstep
    have hroot := hζ.pow (by omega) (Nat.div_mul_cancel hdvd).symm
    rw [value_cleared φ ζ hdvd hk (hroot.geom_sum_eq_zero hp.one_lt) hclear, ih]

theorem Reduces.eq_of_le {R : Type} [Zero R] [Sub R] {f f' : Nat → R} (h : Reduces n f f')
    (hx : n ≤ x) : f' x = f x := by
  induction h with
  | refl => rfl
  | tail _ hstep ih =>
    obtain ⟨p, k, hp, hdvd, hk, hclear⟩ := hstep
    rw [hclear.other x (Or.inl hx), ih]

section Clean

variable {R : Type} [AddGroup R] {lo : Nat → Nat → Int} {k : Nat} {f f' : Nat → R}

def Clean (lo : Nat → Nat → Int) (n p : Nat) (f : Nat → R) : Prop :=
  ∀ q, IsMaximalPower n p q → ∀ x < n, f x ≠ 0 → ¬InWindow n q (lo p q) (q / p : Nat) x

theorem Clean.of_cleared {p' : Nat} (h : Clean lo n p f) (hp' : p'.Prime) (hdvd : p' ∣ n)
    (hne : p ≠ p') (hk : k < n) (hclear : IsCleared n p' k f f') : Clean lo n p f' := by
  intro q hq x hx hfx hwin
  by_cases hmod : x ≡ k [MOD n / p']
  . have hiff : InWindow n q (lo p q) (q / p : Nat) x ↔ InWindow n q (lo p q) (q / p : Nat) k :=
      inWindow_congr (hmod.of_dvd (hq.dvd_div_of_ne hp' hdvd hne))
    by_cases hxk : x = k
    . rw [hxk] at hfx
      exact hfx hclear.self
    . have hfk : f k = 0 := by
        by_contra hfk
        exact h q hq k hk hfk (hiff.mp hwin)
      rw [hclear.sub x hx hxk hmod, hfk, sub_zero] at hfx
      exact h q hq x hx hfx hwin
  . rw [hclear.other x (Or.inr hmod)] at hfx
    exact h q hq x hx hfx hwin

theorem eq_zero_of_cleared {x : Nat} {lo : Int} (h : IsMaximalPower n p q) (hx : x < n)
    (hk : k < n) (hwx : InWindow n q lo (q / p : Nat) x) (hwk : InWindow n q lo (q / p : Nat) k)
    (hclear : IsCleared n p k f f') (hfx : f x = 0) : f' x = 0 := by
  by_cases hmod : x ≡ k [MOD n / p]
  . rw [eq_of_inWindow h hx hk hwx hwk hmod]
    exact hclear.self
  . rw [hclear.other x (Or.inr hmod), hfx]

end Clean

end CyclotomicBase
