import Mathlib.Algebra.CharP.Algebra
import Mathlib.Algebra.Field.ZMod
import Mathlib.Data.Nat.Bitwise
import Mathlib.RingTheory.AdjoinRoot
import Mathlib.RingTheory.RootsOfUnity.PrimitiveRoots

/-!
This module contains polynomials over a prime field as numbers, the coefficients are the digits.
They are evaluated at a point of a ring of the characteristic.
-/

open Polynomial Finset

namespace PackedPoly

variable {R : Type*} [CommRing R] {p d e : Nat} {x : R}

/-- The value at `x` of the polynomial with the first `d` digits of `e` as its coefficients. -/
def eval (p d : Nat) (x : R) (e : Nat) : R :=
  ∑ i ∈ Finset.range d, ((e / p ^ i % p : Nat) : R) * x ^ i

section Digits

theorem eval_zero (p d : Nat) (x : R) : eval p d x 0 = 0 := by
  unfold eval
  apply sum_eq_zero
  intro i _
  rw [Nat.zero_div, Nat.zero_mod, Nat.cast_zero, zero_mul]

theorem eval_succ (p d : Nat) (x : R) (e : Nat)
    : eval p (d + 1) x e = eval p d x e + ((e / p ^ d % p : Nat) : R) * x ^ d :=
  sum_range_succ _ d

theorem eval_succ' (p d : Nat) (x : R) (e : Nat)
    : eval p (d + 1) x e = x * eval p d x (e / p) + ((e % p : Nat) : R) := by
  unfold eval
  rw [sum_range_succ', pow_zero, pow_zero, Nat.div_one, mul_one, mul_sum]
  congr 1
  apply sum_congr rfl
  intro i _
  rw [pow_succ' p, ← Nat.div_div_eq_div_mul, pow_succ' x, mul_left_comm]

theorem eval_one (hp : 1 < p) (d : Nat) (x : R) : eval p (d + 1) x 1 = 1 := by
  rw [eval_succ', Nat.div_eq_of_lt hp, eval_zero, mul_zero, zero_add, Nat.mod_eq_of_lt hp,
    Nat.cast_one]

theorem eval_mul (hp : 0 < p) (d : Nat) (x : R) (e : Nat)
    : eval p (d + 1) x (p * e) = x * eval p d x e := by
  rw [eval_succ', Nat.mul_div_cancel_left e hp, Nat.mul_mod_right, Nat.cast_zero, add_zero]

theorem eval_mod (p d : Nat) (x : R) (e : Nat) : eval p d x (e % p ^ d) = eval p d x e := by
  unfold eval
  apply sum_congr rfl
  intro i hi
  have hlt := mem_range.mp hi
  obtain ⟨k, rfl⟩ : ∃ k, d = i + (k + 1) := ⟨d - i - 1, by omega⟩
  rw [pow_add, Nat.mod_mul_right_div_self, pow_succ', Nat.mod_mul_right_mod]

def ofDigits (p d : Nat) (c : Nat → Nat) : Nat :=
  ∑ i ∈ Finset.range d, p ^ i * c i

theorem ofDigits_succ' (p d : Nat) (c : Nat → Nat)
    : ofDigits p (d + 1) c = p * ofDigits p d (fun i => c (i + 1)) + c 0 := by
  unfold ofDigits
  rw [sum_range_succ', pow_zero, one_mul, mul_sum]
  congr 1
  apply sum_congr rfl
  intro i _
  rw [pow_succ', mul_assoc]

theorem ofDigits_lt {c : Nat → Nat} (hc : ∀ i, c i < p) : ofDigits p d c < p ^ d := by
  induction d generalizing c with
  | zero => exact Nat.one_pos
  | succ d ih =>
    have hlt := ih (c := fun i => c (i + 1)) (fun i => hc (i + 1))
    have h0 := hc 0
    rw [ofDigits_succ', pow_succ']
    have hmul := Nat.mul_le_mul_left p (Nat.succ_le_of_lt hlt)
    rw [Nat.mul_succ] at hmul
    omega

theorem eval_ofDigits (x : R) {c : Nat → Nat} (hc : ∀ i, c i < p)
    : eval p d x (ofDigits p d c) = ∑ i ∈ Finset.range d, (c i : R) * x ^ i := by
  induction d generalizing c with
  | zero => rfl
  | succ d ih =>
    have hp := Nat.zero_lt_of_lt (hc 0)
    rw [eval_succ', ofDigits_succ', Nat.mul_add_div hp, Nat.div_eq_of_lt (hc 0), Nat.add_zero,
      ih (fun i => hc (i + 1)), Nat.mul_add_mod, Nat.mod_eq_of_lt (hc 0), sum_range_succ',
      pow_zero, mul_one, mul_sum]
    congr 1
    apply sum_congr rfl
    intro i _
    rw [pow_succ', mul_left_comm]

end Digits

section Char

variable [CharP R p]

theorem cast_mod (n : Nat) : ((n % p : Nat) : R) = n := by
  have h : ((p * (n / p) + n % p : Nat) : R) = n := by
    rw [Nat.div_add_mod]
  rwa [Nat.cast_add, Nat.cast_mul, CharP.cast_eq_zero R p, zero_mul, zero_add] at h

theorem eval_add_one (d : Nat) (x : R) (h : e % p + 1 < p)
    : eval p (d + 1) x (e + 1) = eval p (d + 1) x e + 1 := by
  have hdiv : (e + 1) / p = e / p := by
    apply Nat.succ_div_of_not_dvd
    intro hdvd
    have hmod := Nat.mod_eq_zero_of_dvd hdvd
    rw [Nat.add_mod, Nat.mod_eq_of_lt (show 1 < p by omega), Nat.mod_eq_of_lt h] at hmod
    omega
  rw [eval_succ', eval_succ', hdiv, cast_mod, cast_mod, Nat.cast_add, Nat.cast_one, add_assoc]

theorem eval_add_one_sub (d : Nat) (x : R) (h : e % p + 1 = p)
    : eval p (d + 1) x (e + 1 - p) = eval p (d + 1) x e + 1 := by
  have hp : 0 < p := by omega
  have he := Nat.div_add_mod e p
  have hsub : e + 1 - p = p * (e / p) := by omega
  rw [hsub, eval_mul hp, eval_succ', add_assoc, ← Nat.cast_add_one, h, CharP.cast_eq_zero, add_zero]

def timesDigit (p m f l i : Nat) : Nat :=
  (f / p ^ i + l * (m / p ^ i)) % p

theorem timesDigit_lt (hp : 0 < p) (m f l i : Nat) : timesDigit p m f l i < p :=
  Nat.mod_lt _ hp

def times (p d m e : Nat) : Nat :=
  ofDigits p d (timesDigit p m (p * (e % p ^ (d - 1))) ((p - 1) * (e / p ^ (d - 1)) % p))

theorem times_lt (hp : 0 < p) (d m e : Nat) : times p d m e < p ^ d :=
  ofDigits_lt (timesDigit_lt hp _ _ _)

theorem eval_times (hp : 0 < p) {m : Nat} (hm : x ^ (d + 1) = -eval p (d + 1) x m)
    (he : e < p ^ (d + 1)) : eval p (d + 1) x (times p (d + 1) m e) = x * eval p (d + 1) x e := by
  have htop : e / p ^ d < p := by
    rw [Nat.div_lt_iff_lt_mul (Nat.pow_pos hp), ← pow_succ']
    exact he
  have hl : (((p - 1) * (e / p ^ d) % p : Nat) : R) = -((e / p ^ d : Nat) : R) := by
    rw [cast_mod, Nat.cast_mul, Nat.cast_sub hp, CharP.cast_eq_zero, Nat.cast_one, zero_sub,
      neg_one_mul]
  have hsum : ∀ f l : Nat, ∑ i ∈ Finset.range (d + 1), (timesDigit p m f l i : R) * x ^ i
      = eval p (d + 1) x f + l * eval p (d + 1) x m := by
    intro f l
    unfold eval timesDigit
    rw [mul_sum, ← sum_add_distrib]
    apply sum_congr rfl
    intro i _
    rw [cast_mod, cast_mod, cast_mod, Nat.cast_add, Nat.cast_mul]
    ring
  unfold times
  rw [eval_ofDigits x (timesDigit_lt hp _ _ _), hsum, Nat.add_sub_cancel, eval_mul hp, eval_mod,
    hl, neg_mul_comm, ← hm, eval_succ, Nat.mod_eq_of_lt htop]
  ring

end Char

section Two

variable [CharP R 2]

theorem eval_xor (d : Nat) (x : R) (a b : Nat)
    : eval 2 d x (a ^^^ b) = eval 2 d x a + eval 2 d x b := by
  unfold eval
  rw [← sum_add_distrib]
  apply sum_congr rfl
  intro i _
  rw [cast_mod, cast_mod, cast_mod, ← add_mul, ← Nat.cast_add]
  congr 1
  have hxor : (a ^^^ b) / 2 ^ i % 2 = (a / 2 ^ i + b / 2 ^ i) % 2 := by
    rw [← Nat.shiftRight_eq_div_pow, ← Nat.shiftRight_eq_div_pow, ← Nat.shiftRight_eq_div_pow,
      Nat.shiftRight_xor_distrib]
    rw [Nat.xor_mod_two_eq]
  rw [← @cast_mod R _ 2, hxor, cast_mod]

def times2 (q m e : Nat) : Nat :=
  if 2 * e &&& q ≠ 0 then 2 * e ^^^ m ^^^ q else 2 * e

theorem testBit_two_mul (he : e < 2 ^ (d + 1)) : (2 * e).testBit (d + 1) = true ↔ 2 ^ d ≤ e := by
  have hdiv : e / 2 ^ d < 2 := by
    rw [Nat.div_lt_iff_lt_mul (Nat.two_pow_pos d), ← pow_succ']
    exact he
  have hle : 1 ≤ e / 2 ^ d ↔ 1 * 2 ^ d ≤ e := Nat.le_div_iff_mul_le (Nat.two_pow_pos d)
  rw [Nat.one_mul] at hle
  rw [Nat.testBit_succ, Nat.mul_div_cancel_left _ Nat.two_pos, Nat.testBit_eq_decide_div_mod_eq,
    decide_eq_true_iff, ← hle]
  generalize e / 2 ^ d = t at hdiv ⊢
  omega

theorem and_two_pow_ne_zero (he : e < 2 ^ (d + 1))
    : 2 * e &&& 2 ^ (d + 1) ≠ 0 ↔ 2 ^ d ≤ e := by
  rw [← testBit_two_mul he, Nat.and_two_pow]
  cases (2 * e).testBit (d + 1) with
  | false => simp
  | true => simp

theorem times2_lt {m : Nat} (hm : m < 2 ^ (d + 1)) (he : e < 2 ^ (d + 1))
    : times2 (2 ^ (d + 1)) m e < 2 ^ (d + 1) := by
  unfold times2
  split
  . next hne =>
    rw [and_two_pow_ne_zero he] at hne
    have hbit := (testBit_two_mul he).mpr hne
    rw [Nat.xor_right_comm]
    apply Nat.xor_lt_two_pow _ hm
    apply Nat.lt_pow_two_of_testBit
    intro i hi
    rw [Nat.testBit_xor, Nat.testBit_two_pow]
    by_cases heq : d + 1 = i
    . rw [← heq, hbit]
      simp
    . have hlt : 2 * e < 2 ^ i := by
        have hpow := Nat.pow_le_pow_right Nat.two_pos (show d + 2 ≤ i by omega)
        rw [pow_succ'] at hpow
        omega
      rw [Nat.testBit_lt_two_pow hlt, decide_eq_false heq]
      rfl
  . next heq =>
    rw [and_two_pow_ne_zero he] at heq
    rw [pow_succ']
    omega

theorem eval_times2 {m : Nat} (hm : x ^ (d + 1) = -eval 2 (d + 1) x m) (he : e < 2 ^ (d + 1))
    : eval 2 (d + 1) x (times2 (2 ^ (d + 1)) m e) = x * eval 2 (d + 1) x e := by
  have hpow : eval 2 (d + 1) x (2 ^ (d + 1)) = 0 := by
    rw [← eval_mod, Nat.mod_self, eval_zero]
  rw [CharTwo.neg_eq] at hm
  unfold times2
  split
  . next hne =>
    rw [and_two_pow_ne_zero he] at hne
    have hdigit : e / 2 ^ d = 1 := by
      rw [Nat.div_eq_iff (Nat.two_pow_pos d)]
      rw [pow_succ'] at he
      omega
    rw [eval_xor, eval_xor, hpow, add_zero, eval_mul Nat.two_pos, ← hm, eval_succ, hdigit,
      Nat.mod_eq_of_lt Nat.one_lt_two, Nat.cast_one]
    ring
  . next heq =>
    rw [and_two_pow_ne_zero he] at heq
    rw [eval_mul Nat.two_pos, eval_succ, Nat.div_eq_of_lt (by omega), Nat.zero_mod, Nat.cast_zero,
      zero_mul, add_zero]

end Two

theorem exists_power [Nontrivial R] {q : Nat} {v : Nat → R} {E : Nat → Nat}
    (hx : IsPrimitiveRoot x (q - 1)) (h0 : v 0 = 0) (hE : ∀ n, v (E n) = x ^ n)
    (hlt : ∀ n, E n < q) (he : 0 < e) (heq : e < q) : ∃ n, n < q - 1 ∧ E n = e := by
  have hunit := hx.isUnit (by omega)
  have hsub : (Finset.range (q - 1)).image E ⊆ Finset.Ioo 0 q := by
    intro e' he'
    obtain ⟨n, _, rfl⟩ := mem_image.mp he'
    refine mem_Ioo.mpr ⟨Nat.pos_of_ne_zero ?_, hlt n⟩
    intro hzero
    have hpow := hE n
    rw [hzero, h0] at hpow
    exact (hunit.pow n).ne_zero hpow.symm
  have hcard : (Finset.Ioo 0 q).card ≤ ((Finset.range (q - 1)).image E).card := by
    rw [card_image_of_injOn, Nat.card_Ioo, card_range, Nat.sub_zero]
    intro n hn m hm hnm
    apply hx.pow_inj (mem_range.mp hn) (mem_range.mp hm)
    rw [← hE, ← hE, hnm]
  have hmem := mem_Ioo.mpr ⟨he, heq⟩
  rw [← eq_of_subset_of_card_le hsub hcard] at hmem
  obtain ⟨n, hn, hne⟩ := mem_image.mp hmem
  exact ⟨n, mem_range.mp hn, hne⟩

section Quotient

open AdjoinRoot

variable [Fact p.Prime] {P g : (ZMod p)[X]}

def pack (p d : Nat) (g : (ZMod p)[X]) : Nat :=
  ofDigits p d fun i => (g.coeff i).val

theorem pack_lt (g : (ZMod p)[X]) : pack p d g < p ^ d :=
  ofDigits_lt fun i => ZMod.val_lt (g.coeff i)

theorem eval_pack (P g : (ZMod p)[X])
    : eval p d (root P) (pack p d g) = ∑ i ∈ Finset.range d, of P (g.coeff i) * root P ^ i := by
  unfold pack
  rw [eval_ofDigits _ fun i => ZMod.val_lt (g.coeff i)]
  apply sum_congr rfl
  intro i _
  rw [← map_natCast (of P), ZMod.natCast_zmod_val]

theorem eval_pack_of_natDegree_lt (P : (ZMod p)[X]) (hg : g.natDegree < d)
    : eval p d (root P) (pack p d g) = mk P g := by
  rw [eval_pack, ← aeval_eq, aeval_eq_sum_range' hg]
  apply sum_congr rfl
  intro i _
  rw [Algebra.smul_def]
  rfl

theorem root_pow (hP : P.Monic) (hd : P.natDegree = d)
    : root P ^ d = -eval p d (root P) (pack p d P) := by
  rw [eval_pack, eq_neg_iff_add_eq_zero]
  have hroot := eval₂_root P
  rw [eval₂_eq_sum_range, hd, sum_range_succ, ← hd, hP.coeff_natDegree, map_one, one_mul,
    add_comm] at hroot
  rwa [← hd]

theorem exists_eval (hP : P.Monic) (hd : P.natDegree = d) (hpos : 0 < d) (y : AdjoinRoot P)
    : ∃ e, e < p ^ d ∧ eval p d (root P) e = y := by
  induction y using AdjoinRoot.induction_on with
  | ih g =>
    refine ⟨pack p d (g %ₘ P), pack_lt _, ?_⟩
    have hlt : (g %ₘ P).natDegree < d := by
      rw [← hd]
      apply natDegree_modByMonic_lt g hP
      intro h
      rw [h, natDegree_one] at hd
      omega
    rw [eval_pack_of_natDegree_lt P hlt, mk_eq_mk]
    have hdiv := modByMonic_add_div g P
    refine ⟨-(g /ₘ P), ?_⟩
    rw [mul_neg, eq_neg_iff_add_eq_zero, sub_add_eq_add_sub, hdiv, sub_self]

theorem nontrivial_quotient (hd : P.natDegree = d) (hpos : 0 < d) : Nontrivial (AdjoinRoot P) := by
  apply AdjoinRoot.nontrivial
  intro h
  rw [natDegree, h] at hd
  exact Nat.ne_of_gt hpos hd.symm

theorem charP_quotient [Nontrivial (AdjoinRoot P)] : CharP (AdjoinRoot P) p :=
  charP_of_injective_ringHom (of P).injective p

end Quotient

end PackedPoly
