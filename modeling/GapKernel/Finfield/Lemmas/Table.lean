import GapKernel.Finfield.Impl
import GapKernel.Finfield.Lemmas.Field
import GapKernel.PackedPoly
import Mathlib.FieldTheory.Finite.Basic

open List Function

namespace FinfieldTable

open Finfield (succAt succAt_eq power power_of_pos power_zero IsSuccTable HasValue)

section Arithmetic

variable {bits x y : Nat}

theorem fits_eq (h : x < 2 ^ bits) : fits bits x = .ok x := by
  unfold fits
  rw [if_pos h]
  rfl

theorem minus_eq (h : y ≤ x) : minus x y = .ok (x - y) := by
  unfold minus
  rw [if_pos h]
  rfl

theorem quo_eq (h : 0 < y) : quo x y = .ok (x / y) := by
  unfold quo
  rw [if_neg (Nat.ne_of_gt h)]
  rfl

theorem rem_eq (h : 0 < y) : rem x y = .ok (x % y) := by
  unfold rem
  rw [if_neg (Nat.ne_of_gt h)]
  rfl

end Arithmetic

section Values

variable {K : Type} [Field K] {q a b n : Nat} {ζ : K} {f : List Nat} {w : IntSize} {v : FFVSize}

theorem prodFFV_eq (h : f[0]? = some (q - 1)) (hq : q ≤ 2 ^ v.bits) (ha : a < q) (hb : b < q)
    : prodFFV v a b f = Finfield.prodFFV a b f := by
  unfold prodFFV Finfield.prodFFV
  split
  . rfl
  . next hne =>
    rw [succAt_eq h, ok_bind, ok_bind, minus_eq (by omega), ok_bind, minus_eq (by omega), ok_bind]
    dsimp only
    split
    . rw [fits_eq (by omega)]
      rfl
    . rw [minus_eq (by omega)]
      rfl

theorem sumFFV_eq (h : IsSuccTable q ζ f) (hq : q ≤ 2 ^ v.bits) (ha : a < q) (hb : b < q)
    : sumFFV v a b f = Finfield.sumFFV a b f := by
  have hsum : ∀ a b, 0 < b → b ≤ a → a < q → (do
      let i ← fits v.bits ((← minus a b) + 1)
      prodFFV v b (← succAt f i) f) = (do Finfield.prodFFV b (← succAt f (a - b + 1)) f) := by
    intro a b hpos hle hlt
    obtain ⟨m, hm, hmlt, _⟩ := h.succ_eq (a - b + 1) (Nat.succ_pos _) (by omega)
    rw [minus_eq hle, ok_bind, fits_eq (by omega), ok_bind, succAt_eq hm, ok_bind, ok_bind]
    exact prodFFV_eq h.order_eq hq (by omega) hmlt
  unfold sumFFV Finfield.sumFFV
  split
  . rfl
  . split
    . rfl
    . by_cases hlt : b > a
      . rw [if_pos hlt]
        exact hsum b a (by omega) (by omega) hb
      . rw [if_neg hlt]
        exact hsum a b (by omega) (by omega) ha

variable (h : f[0]? = some (q - 1)) (hq : q ≤ 2 ^ v.bits)

include h hq

theorem negFFV_eq (ha : a < q)
    : negFFV v a f = Finfield.negFFV a f := by
  unfold negFFV Finfield.negFFV
  rw [succAt_eq h, ok_bind, ok_bind]
  split
  . rfl
  . split
    . rfl
    . split
      . rw [fits_eq (by omega)]
        rfl
      . rw [minus_eq (by omega)]
        rfl

theorem quoFFV_eq (ha : a < q) (hb : b < q) (hpos : 0 < b)
    : quoFFV v a b f = Finfield.quoFFV a b f := by
  unfold quoFFV Finfield.quoFFV
  split
  . rfl
  . split
    . next hle =>
      rw [minus_eq hle, ok_bind, fits_eq (by omega)]
      rfl
    . rw [succAt_eq h, ok_bind, ok_bind, minus_eq (by omega), ok_bind, fits_eq (by omega), ok_bind,
        fits_eq (by omega)]
      rfl

theorem powFFV_eq (hw : 2 * v.bits ≤ w.bits) (ha : a < q) (hn : n < q)
    : powFFV w v a n f = Finfield.powFFV a n f := by
  unfold powFFV Finfield.powFFV
  split
  . rfl
  . split
    . rfl
    . have hmul : (a - 1) * n < 2 ^ w.bits := by
        apply Nat.lt_of_lt_of_le (Nat.mul_lt_mul'' (show a - 1 < 2 ^ v.bits by omega)
          (show n < 2 ^ v.bits by omega))
        rw [← pow_add]
        exact Nat.pow_le_pow_right Nat.two_pos (by omega)
      have hmod := Nat.mod_lt ((a - 1) * n) (show 0 < q - 1 by omega)
      rw [minus_eq (by omega), ok_bind, fits_eq hmul, ok_bind, succAt_eq h, ok_bind, ok_bind,
        rem_eq (by omega), ok_bind, fits_eq (by omega)]
      rfl

end Values

section Root

variable {w : IntSize} {p : Nat}

theorem bits_le (w : IntSize) : 32 ≤ w.bits := by
  cases w <;> decide

theorem pow_mod_eq_one_iff (hp : 1 < p) (e i : Nat) : e ^ i % p = 1 ↔ ((e : ZMod p)) ^ i = 1 := by
  have h := ZMod.natCast_eq_natCast_iff (e ^ i) 1 p
  rw [Nat.cast_pow, Nat.cast_one, Nat.ModEq, Nat.mod_eq_of_lt hp] at h
  exact h.symm

variable {e : Nat}

theorem orderLoop_spec (hp : 1 < p) (hlt : p < 65537) (he : e < p) {fuel i : Nat} (hpos : 0 < i)
    (hi : i ≤ orderOf (e : ZMod p)) (hfuel : orderOf (e : ZMod p) < i + fuel)
    : orderLoop w p e fuel (e ^ i % p) i = .ok (orderOf (e : ZMod p)) := by
  induction fuel generalizing i with
  | zero => omega
  | succ fuel ih =>
    unfold orderLoop
    split
    . next hne =>
      rw [Ne, pow_mod_eq_one_iff hp] at hne
      have hord : i ≠ orderOf (e : ZMod p) := by
        intro h
        rw [h] at hne
        exact hne (pow_orderOf_eq_one _)
      have hmod := Nat.mod_lt (e ^ i) (show 0 < p by omega)
      have hmul : e ^ i % p * e < 2 ^ w.bits := by
        apply Nat.lt_of_lt_of_le _ (Nat.pow_le_pow_right Nat.two_pos (bits_le w))
        apply Nat.mul_lt_mul'' (show _ < 2 ^ 16 by omega) (show _ < 2 ^ 16 by omega)
      rw [fits_eq hmul, ok_bind, rem_eq (by omega), ok_bind, Nat.mod_mul_mod, ← pow_succ]
      exact ih (Nat.succ_pos i) (by omega) (by omega)
    . next heq =>
      rw [not_not, pow_mod_eq_one_iff hp] at heq
      rw [Nat.le_antisymm hi (orderOf_le_of_pow_eq_one hpos heq)]
      rfl

def IsLeastRoot (p r : Nat) : Prop :=
  IsLeast {r : Nat | IsPrimitiveRoot (r : ZMod p) (p - 1)} r

variable [Fact p.Prime] {r : Nat}

theorem IsLeastRoot.pos (hp : 2 < p) (h : IsLeastRoot p r) : 0 < r := by
  apply Nat.pos_of_ne_zero
  intro h0
  have hroot := h.1
  rw [h0] at hroot
  exact hroot.ne_zero (by omega) Nat.cast_zero

theorem IsLeastRoot.lt (h : IsLeastRoot p r) : r < p := by
  have hp := (Fact.out : p.Prime).pos
  apply Nat.lt_of_le_of_lt _ (Nat.mod_lt r hp)
  apply h.2
  change IsPrimitiveRoot ((r % p : Nat) : ZMod p) (p - 1)
  rw [ZMod.natCast_mod]
  exact h.1

theorem orderOf_pos' (hpos : 0 < e) (he : e < p)
    : 0 < orderOf (e : ZMod p) ∧ orderOf (e : ZMod p) ≤ p - 1 := by
  have hne : (e : ZMod p) ≠ 0 := by
    rw [Ne, ZMod.natCast_eq_zero_iff]
    exact Nat.not_dvd_of_pos_of_lt hpos he
  have hpow := ZMod.pow_card_sub_one_eq_one hne
  have hp := (Fact.out : p.Prime).two_le
  have hdvd := orderOf_dvd_of_pow_eq_one hpow
  exact ⟨Nat.pos_of_dvd_of_pos hdvd (by omega), Nat.le_of_dvd (by omega) hdvd⟩

theorem rootLoop_spec (hlt : p < 65537) (h : IsLeastRoot p r) {fuel i : Nat} (hi : i ≠ p - 1)
    (hpos : 0 < e) (he : e ≤ r) (hfuel : r + 1 < e + fuel)
    : rootLoop w p fuel e i = .ok (r + 1) := by
  have hp := (Fact.out : p.Prime).one_lt
  have hrlt := h.lt
  induction fuel generalizing e i with
  | zero => omega
  | succ fuel ih =>
    have helt : e < p := by omega
    obtain ⟨hordpos, hordle⟩ := orderOf_pos' hpos helt
    have hrun := orderLoop_spec (w := w) hp hlt helt Nat.one_pos hordpos
      (show orderOf (e : ZMod p) < 1 + p by omega)
    rw [pow_one, Nat.mod_eq_of_lt helt] at hrun
    unfold rootLoop
    rw [if_pos hi, hrun, ok_bind]
    by_cases heq : e = r
    . rw [heq, ← h.1.eq_orderOf]
      obtain ⟨fuel, rfl⟩ : ∃ m, fuel = m + 1 := ⟨fuel - 1, by omega⟩
      unfold rootLoop
      rw [if_neg (not_not_intro rfl)]
      rfl
    . apply ih _ (Nat.succ_pos e) (by omega) (by omega)
      intro hord
      have hle := h.2 (show IsPrimitiveRoot (e : ZMod p) (p - 1) from by
        rw [← hord]
        exact IsPrimitiveRoot.orderOf _)
      omega

theorem findRoot_spec (hp : 2 < p) (hle : p < 2 ^ w.bits) {primitiveRootMod : Nat → Nat}
    (hlib : 65537 ≤ p → IsLeastRoot p (primitiveRootMod p)) (h : IsLeastRoot p r)
    : findRoot w p primitiveRootMod = .ok (r + 1) := by
  have hrlt := h.lt
  unfold findRoot
  split
  . next hlt =>
    exact rootLoop_spec hlt h (by omega) Nat.one_pos (h.pos hp) (by omega)
  . next hge => rw [(hlib (Nat.le_of_not_lt hge)).unique h, fits_eq (by omega)]

theorem findRoot_two (w : IntSize) (primitiveRootMod : Nat → Nat)
    : findRoot w 2 primitiveRootMod = .ok 1 :=
  rfl

theorem groundPoly_spec (hp : 2 < p) (hle : p < 2 ^ w.bits) {primitiveRootMod : Nat → Nat}
    (hlib : 65537 ≤ p → IsLeastRoot p (primitiveRootMod p)) (h : IsLeastRoot p r)
    : groundPoly w p primitiveRootMod = .ok (p - r) := by
  have hrlt := h.lt
  unfold groundPoly
  rw [findRoot_spec hp hle hlib h, ok_bind, minus_eq (show 1 ≤ r + 1 by omega), ok_bind,
    minus_eq (by omega), Nat.add_sub_cancel]

end Root

section Times

open PackedPoly

variable {w : IntSize} {v : FFVSize} {q p d poly e : Nat}

structure IsBounded (w : IntSize) (v : FFVSize) (p d poly : Nat) : Prop where
  prime : p.Prime
  size_le : p ^ (d + 1) ≤ 2 ^ v.bits
  words : 2 * v.bits ≤ w.bits
  poly_lt : poly < p ^ (d + 1)

theorem le_size (p d : Nat) : p ≤ p ^ (d + 1) :=
  Nat.le_pow (Nat.succ_pos d)

section

variable (h : IsBounded w v p d poly)

include h

theorem IsBounded.mul_lt {a b : Nat} (ha : a ≤ p ^ (d + 1)) (hb : b < p ^ (d + 1))
    : a * b < 2 ^ w.bits := by
  have hpos := Nat.pow_pos (n := d + 1) h.prime.pos
  calc
    a * b < p ^ (d + 1) * p ^ (d + 1) := Nat.mul_lt_mul_of_le_of_lt ha hb hpos
    _ ≤ 2 ^ v.bits * 2 ^ v.bits := Nat.mul_le_mul h.size_le h.size_le
    _ ≤ 2 ^ w.bits := by
      rw [← pow_add]
      exact Nat.pow_le_pow_right Nat.two_pos (by have := h.words; omega)

theorem IsBounded.lt_word {a : Nat} (ha : a ≤ p ^ (d + 1))
    : a < 2 ^ w.bits := by
  have hmul := h.mul_lt ha (Nat.one_lt_pow (Nat.succ_ne_zero d) h.prime.one_lt)
  rwa [Nat.mul_one] at hmul

theorem IsBounded.two_mul_le : 2 * p ^ (d + 1) ≤ 2 ^ w.bits := by
  have hwords := h.words
  have hbits : 1 ≤ v.bits := by
    cases v <;> decide
  calc
    2 * p ^ (d + 1) ≤ 2 * 2 ^ v.bits := Nat.mul_le_mul_left 2 h.size_le
    _ = 2 ^ (v.bits + 1) := by rw [pow_succ']
    _ ≤ 2 ^ w.bits := Nat.pow_le_pow_right Nat.two_pos (by omega)

end

theorem ofDigits_succ (p j : Nat) (c : Nat → Nat)
    : ofDigits p (j + 1) c = ofDigits p j c + p ^ j * c j :=
  Finset.sum_range_succ _ j

theorem digitLoop_spec (h : IsBounded w v p d poly) {f l : Nat} (hf : f < p ^ (d + 1))
    (hl : l < p) {fuel j : Nat} (hj : j ≤ d + 1) (hfuel : d + 1 < j + fuel)
    : digitLoop w (p ^ (d + 1)) p poly f l fuel (p ^ j) (ofDigits p j (timesDigit p poly f l))
        = .ok (ofDigits p (d + 1) (timesDigit p poly f l)) := by
  have hp := h.prime.pos
  have hdigit := timesDigit_lt hp poly f l
  induction fuel generalizing j with
  | zero => omega
  | succ fuel ih =>
    unfold digitLoop
    split
    . next hlt =>
      have hjlt : j < d + 1 := (Nat.pow_lt_pow_iff_right h.prime.one_lt).mp hlt
      have hpow := Nat.pow_pos (n := j) hp
      have hpoly := Nat.div_le_self poly (p ^ j)
      have hfdiv := Nat.div_le_self f (p ^ j)
      have hpolylt := h.poly_lt
      have hsum : f / p ^ j + l * (poly / p ^ j) < 2 ^ w.bits := by
        have hmul := Nat.mul_le_mul (show l ≤ p - 1 by omega)
          (show poly / p ^ j ≤ p ^ (d + 1) - 1 by omega)
        have hbound := h.mul_lt (le_size p d) (show p ^ (d + 1) - 1 < p ^ (d + 1) by omega)
        have hsucc := Nat.succ_mul (p - 1) (p ^ (d + 1) - 1)
        rw [Nat.succ_eq_add_one, Nat.sub_add_cancel hp] at hsucc
        omega
      have hnext : ofDigits p (j + 1) (timesDigit p poly f l) < p ^ (d + 1) :=
        Nat.lt_of_lt_of_le (ofDigits_lt hdigit) (Nat.pow_le_pow_right hp hjlt)
      have hstep := ofDigits_succ p j (timesDigit p poly f l)
      have hc : (f / p ^ j + l * (poly / p ^ j)) % p = timesDigit p poly f l j := rfl
      have hpowle : p ^ (j + 1) ≤ p ^ (d + 1) := Nat.pow_le_pow_right hp hjlt
      rw [quo_eq hpow, ok_bind, fits_eq (Nat.lt_of_le_of_lt (Nat.le_add_left _ _) hsum), ok_bind,
        quo_eq hpow, ok_bind, fits_eq hsum, ok_bind, rem_eq hp, ok_bind, hc,
        fits_eq (h.lt_word (by omega)), ok_bind, ← hstep, fits_eq (h.lt_word (by omega)), ok_bind,
        ← pow_succ, fits_eq (h.lt_word hpowle), ok_bind]
      exact ih hjlt (by omega)
    . next hge =>
      have hjeq : j = d + 1 := by
        apply Nat.le_antisymm hj
        apply Nat.le_of_not_lt
        exact fun hlt => hge (Nat.pow_lt_pow_right h.prime.one_lt hlt)
      rw [hjeq]
      rfl

def next (p d poly e : Nat) : Nat :=
  if p ≠ 2 then times p (d + 1) poly e else times2 (2 ^ (d + 1)) poly e

theorem next_lt (h : IsBounded w v p d poly) (he : e < p ^ (d + 1))
    : next p d poly e < p ^ (d + 1) := by
  unfold next
  split
  . exact times_lt h.prime.pos (d + 1) poly e
  . next h2 =>
    have hpoly := h.poly_lt
    rw [not_not] at h2
    rw [h2] at he hpoly ⊢
    exact times2_lt hpoly he

theorem timesX_spec (h : IsBounded w v p d poly) (he : e < p ^ (d + 1))
    : timesX w (p ^ (d + 1)) p poly e = .ok (next p d poly e) := by
  have hp := h.prime.pos
  have htwo := h.prime.two_le
  have hpow := Nat.pow_pos (n := d) hp
  unfold timesX next
  split
  . have hs : p ^ (d + 1) / p = p ^ d := by
      rw [pow_succ, Nat.mul_div_cancel _ hp]
    have htop : e / p ^ d < p := by
      rw [Nat.div_lt_iff_lt_mul hpow, ← pow_succ']
      exact he
    have hf : p * (e % p ^ d) < p ^ (d + 1) := by
      rw [pow_succ']
      exact Nat.mul_lt_mul_of_pos_left (Nat.mod_lt e hpow) hp
    have hmul : (p - 1) * (e / p ^ d) < 2 ^ w.bits := by
      have := le_size p d
      exact h.mul_lt (by omega) (by omega)
    have hloop := digitLoop_spec h hf (Nat.mod_lt ((p - 1) * (e / p ^ d)) hp) (Nat.zero_le (d + 1))
      (show d + 1 < 0 + (p ^ (d + 1) + 1) by
        have := Nat.lt_pow_self (n := d + 1) h.prime.one_lt
        omega)
    rw [quo_eq hp, hs, ok_bind, rem_eq hpow, ok_bind, fits_eq (h.lt_word (by omega)), ok_bind,
      minus_eq (by omega), ok_bind, ok_bind, quo_eq hpow, ok_bind, fits_eq hmul, ok_bind, rem_eq hp,
      ok_bind]
    exact hloop
  . next h2 =>
    rw [not_not] at h2
    have hmul := h.mul_lt (show 2 ≤ p ^ (d + 1) by have := le_size p d; omega) he
    rw [fits_eq hmul, ok_bind, h2]
    unfold times2
    split
    . rfl
    . rfl

variable {R : Type} [CommRing R] [CharP R p] {x : R}

theorem eval_next (h : IsBounded w v p d poly) (hx : x ^ (d + 1) = -eval p (d + 1) x poly)
    (he : e < p ^ (d + 1)) : eval p (d + 1) x (next p d poly e) = x * eval p (d + 1) x e := by
  unfold next
  split
  . exact eval_times h.prime.pos hx he
  . next h2 =>
    rw [not_not] at h2
    subst h2
    exact eval_times2 hx he

end Times

section Tables

open PackedPoly

variable {R : Type} [CommRing R] {w : IntSize} {v : FFVSize} {p d poly : Nat} {x : R}

def elm (x : R) (a : Nat) : R :=
  if a = 0 then 0 else x ^ (a - 1)

theorem elm_zero (x : R) : elm x 0 = 0 :=
  if_pos rfl

theorem elm_succ (x : R) (n : Nat) : elm x (n + 1) = x ^ n := by
  unfold elm
  rw [if_neg (Nat.succ_ne_zero n), Nat.add_sub_cancel]

structure IsGenerator (p d poly : Nat) (x : R) : Prop where
  root : x ^ (d + 1) = -eval p (d + 1) x poly
  primitive : IsPrimitiveRoot x (p ^ (d + 1) - 1)

def powers (p d poly n : Nat) : Nat :=
  (next p d poly)^[n] 1

theorem powers_succ (p d poly n : Nat)
    : powers p d poly (n + 1) = next p d poly (powers p d poly n) :=
  iterate_succ_apply' _ n 1

theorem powers_lt (h : IsBounded w v p d poly) (n : Nat) : powers p d poly n < p ^ (d + 1) := by
  induction n with
  | zero => exact Nat.one_lt_pow (Nat.succ_ne_zero d) h.prime.one_lt
  | succ n ih =>
    rw [powers_succ]
    exact next_lt h ih

variable [CharP R p]

theorem eval_powers (h : IsBounded w v p d poly) (hx : IsGenerator p d poly x) (n : Nat)
    : eval p (d + 1) x (powers p d poly n) = x ^ n := by
  induction n with
  | zero => exact (eval_one h.prime.one_lt d x).trans (pow_zero x).symm
  | succ n ih => rw [powers_succ, eval_next h hx.root (powers_lt h n), ih, pow_succ']

variable {n : Nat}

theorem powers_inj (h : IsBounded w v p d poly) (hx : IsGenerator p d poly x) {m : Nat}
    (hn : n < p ^ (d + 1) - 1) (hm : m < p ^ (d + 1) - 1)
    (heq : powers p d poly n = powers p d poly m) : n = m := by
  apply hx.primitive.pow_inj hn hm
  rw [← eval_powers h hx, ← eval_powers h hx, heq]

structure IsTable (q : Nat) (x : R) (succ : List Nat) : Prop where
  length : succ.length = q
  order : succ[0]? = some (q - 1)
  succ_eq : ∀ n, 0 < n → n < q → ∃ m, succ[n]? = some m ∧ m < q ∧ elm x m = elm x n + 1

structure IsSuccState (p d poly : Nat) (x : R) (e : Nat) (s : List Nat × Nat) : Prop where
  length : s.1.length = p ^ (d + 1)
  order : s.1[0]? = some (p ^ (d + 1) - 1)
  last : s.2 = p * (e / p) + (p - 1)
  succ_eq : ∀ n, n < p ^ (d + 1) - 1 → powers p d poly n < e
    → ∃ m, s.1[n + 1]? = some m ∧ m < p ^ (d + 1) ∧ elm x m = elm x (n + 1) + 1

variable {e : Nat} {s : List Nat × Nat}

theorem IsSuccState.step (h : IsBounded w v p d poly) (hx : IsGenerator p d poly x) {m f : Nat}
    (hs : IsSuccState p d poly x e s) (hn : n < p ^ (d + 1) - 1) (hne : powers p d poly n = e)
    (hm : m < p ^ (d + 1)) (hsucc : elm x m = elm x (n + 1) + 1)
    (hf : f = p * ((e + 1) / p) + (p - 1))
    : IsSuccState p d poly x (e + 1) (s.1.set (n + 1) m, f) := by
  have hlen := hs.length
  refine ⟨?_, ?_, hf, ?_⟩
  . rw [length_set, hlen]
  . rw [getElem?_set_ne (Nat.succ_ne_zero n)]
    exact hs.order
  . intro n' hn' hlt
    by_cases heq : n' = n
    . rw [heq, getElem?_set_self (by omega)]
      exact ⟨m, rfl, hm, hsucc⟩
    . rw [getElem?_set_ne (by omega)]
      apply hs.succ_eq n' hn'
      apply Nat.lt_of_le_of_ne (Nat.le_of_lt_succ hlt)
      intro hpow
      exact heq (powers_inj h hx hn' hn (hpow.trans hne.symm))

variable [Nontrivial R]

theorem powers_pos (h : IsBounded w v p d poly) (hx : IsGenerator p d poly x) (n : Nat)
    : 0 < powers p d poly n := by
  apply Nat.pos_of_ne_zero
  intro h0
  have hone : 1 < p ^ (d + 1) := Nat.one_lt_pow (Nat.succ_ne_zero d) h.prime.one_lt
  have hpow := eval_powers h hx n
  rw [h0, eval_zero] at hpow
  exact ((hx.primitive.isUnit (by omega)).pow n).ne_zero hpow.symm

theorem exists_powers (h : IsBounded w v p d poly) (hx : IsGenerator p d poly x) (hpos : 0 < e)
    (he : e < p ^ (d + 1)) : ∃ n, n < p ^ (d + 1) - 1 ∧ powers p d poly n = e :=
  exists_power hx.primitive (eval_zero p (d + 1) x) (eval_powers h hx) (powers_lt h) hpos he

theorem setFFV_eq {l : List Nat} {i a : Nat} (hi : i < l.length) (ha : a < 2 ^ v.bits)
    : setFFV v l i a = .ok (l.set i a) := by
  unfold setFFV
  rw [if_pos hi, fits_eq ha]
  rfl

structure IsIndexTable (p d poly : Nat) (indx : List Nat) : Prop where
  length : indx.length = p ^ (d + 1)
  zero : indx[0]? = some 0
  index : ∀ n, n < p ^ (d + 1) - 1 → indx[powers p d poly n]? = some (n + 1)

structure IsIndexState (p d poly n : Nat) (s : List Nat × Nat) : Prop where
  length : s.1.length = p ^ (d + 1)
  zero : s.1[0]? = some 0
  index : ∀ m, m < n → s.1[powers p d poly m]? = some (m + 1)
  poly : s.2 = powers p d poly n

theorem indexRound_spec (h : IsBounded w v p d poly) (hx : IsGenerator p d poly x)
    (hn : n < p ^ (d + 1) - 1) (hs : IsIndexState p d poly n s)
    : ∃ s', indexRound w v (p ^ (d + 1)) p poly n s = .ok s'
        ∧ IsIndexState p d poly (n + 1) s' := by
  have hsize := h.size_le
  have hlt := powers_lt h n
  have hpos := powers_pos h hx n
  have hlen := hs.length
  unfold indexRound
  rw [hs.poly, setFFV_eq (by omega) (by omega), ok_bind, timesX_spec h hlt]
  refine ⟨_, rfl, ?_, ?_, ?_, (powers_succ p d poly n).symm⟩
  . rw [length_set, hs.length]
  . dsimp only
    rw [getElem?_set_ne (by omega)]
    exact hs.zero
  . intro m hm
    by_cases heq : m = n
    . rw [heq, getElem?_set_self (by omega)]
    . rw [getElem?_set_ne]
      . exact hs.index m (by omega)
      . intro hpow
        exact heq (powers_inj h hx hn (by omega) hpow).symm

theorem indexTable_spec (h : IsBounded w v p d poly) (hx : IsGenerator p d poly x)
    : ∃ indx, indexTable w v (p ^ (d + 1)) p poly = .ok indx ∧ IsIndexTable p d poly indx := by
  have hpos := Nat.pow_pos (n := d + 1) h.prime.pos
  have hset := setFFV_eq (v := v) (l := replicate (p ^ (d + 1)) 0) (i := 0)
    (by rwa [length_replicate]) (Nat.two_pow_pos _)
  have hinit : IsIndexState p d poly 0 ((replicate (p ^ (d + 1)) 0).set 0 0, 1) := by
    refine ⟨?_, ?_, fun m hm => absurd hm (Nat.not_lt_zero m), rfl⟩
    . rw [length_set, length_replicate]
    . exact getElem?_set_self (by rwa [length_replicate])
  obtain ⟨s, hrun, hs⟩ := forLoop_spec (n := p ^ (d + 1) - 1) (IsIndexState p d poly)
    (fun n s _ hn hs => indexRound_spec h hx (by omega) hs) hinit
  rw [Nat.zero_add] at hs
  unfold indexTable
  rw [hset, ok_bind, hrun]
  exact ⟨s.1, rfl, hs.length, hs.zero, hs.index⟩

variable {indx : List Nat}

variable (h : IsBounded w v p d poly) (hx : IsGenerator p d poly x)
  (hindx : IsIndexTable p d poly indx)

include h hx hindx

theorem IsIndexTable.exists_elm (he : e < p ^ (d + 1))
    : ∃ m, succAt indx e = .ok m ∧ m < p ^ (d + 1) ∧ elm x m = eval p (d + 1) x e := by
  by_cases h0 : e = 0
  . rw [h0, eval_zero]
    exact ⟨0, succAt_eq hindx.zero, by omega, elm_zero x⟩
  . obtain ⟨n, hn, hne⟩ := exists_powers h hx (Nat.pos_of_ne_zero h0) he
    rw [← hne, eval_powers h hx]
    exact ⟨n + 1, succAt_eq (hindx.index n hn), by omega, elm_succ x n⟩

theorem succRound_spec (hpos : 0 < e) (he : e < p ^ (d + 1)) (hs : IsSuccState p d poly x e s)
    : ∃ s', succRound w v p indx e s = .ok s' ∧ IsSuccState p d poly x (e + 1) s' := by
  have hp := h.prime.pos
  have hsize := h.size_le
  have hlen := hs.length
  have hdiv := Nat.div_add_mod e p
  have hmod := Nat.mod_lt e hp
  obtain ⟨n, hn, hne⟩ := exists_powers h hx hpos he
  have hindex := hindx.index n hn
  rw [hne] at hindex
  have hval := eval_powers h hx n
  rw [hne, ← elm_succ x n] at hval
  unfold succRound
  rw [succAt_eq hindex, hs.last]
  by_cases hlt : e < p * (e / p) + (p - 1)
  . have hndvd : ¬p ∣ e + 1 := by
      intro hdvd
      have hzero := Nat.mod_eq_zero_of_dvd hdvd
      rw [Nat.add_mod, Nat.mod_eq_of_lt h.prime.one_lt, Nat.mod_eq_of_lt (by omega)] at hzero
      omega
    have hnext : e + 1 < p ^ (d + 1) := by
      apply Nat.lt_of_le_of_ne he
      intro heq
      change e + 1 = p ^ (d + 1) at heq
      exact hndvd (heq ▸ dvd_pow_self p (Nat.succ_ne_zero d))
    obtain ⟨m, hread, hm, heval⟩ := hindx.exists_elm h hx hnext
    rw [eval_add_one d x (by omega), hval] at heval
    rw [if_pos hlt, ok_bind, hread, ok_bind, setFFV_eq (by omega) (by omega)]
    refine ⟨_, rfl, hs.step h hx hn hne hm heval ?_⟩
    rw [Nat.succ_div_of_not_dvd hndvd]
  . have hlast : e % p + 1 = p := by omega
    obtain ⟨m, hread, hm, heval⟩ :=
      hindx.exists_elm h hx (show e + 1 - p < p ^ (d + 1) by omega)
    rw [eval_add_one_sub d x hlast, hval] at heval
    have hfits : p * (e / p) + (p - 1) + p < 2 ^ w.bits := by
      have := h.two_mul_le
      have := le_size p d
      omega
    rw [if_neg hlt, ok_bind, minus_eq (by omega), ok_bind, hread, ok_bind,
      setFFV_eq (by omega) (by omega), ok_bind, fits_eq hfits]
    refine ⟨_, rfl, hs.step h hx hn hne hm heval ?_⟩
    have hdvd : p ∣ e + 1 := ⟨e / p + 1, by rw [Nat.mul_succ]; omega⟩
    rw [Nat.succ_div_of_dvd hdvd, Nat.mul_succ]
    omega

theorem succTable_spec
    : ∃ succ, succTable w v (p ^ (d + 1)) p indx = .ok succ ∧ IsTable (p ^ (d + 1)) x succ := by
  have hp := h.prime.one_lt
  have hone : 1 < p ^ (d + 1) := Nat.one_lt_pow (Nat.succ_ne_zero d) hp
  have hsize := h.size_le
  have hset := setFFV_eq (v := v) (l := replicate (p ^ (d + 1)) 0) (i := 0)
    (a := p ^ (d + 1) - 1) (by rw [length_replicate]; omega) (by omega)
  have hinit : IsSuccState p d poly x 1
      ((replicate (p ^ (d + 1)) 0).set 0 (p ^ (d + 1) - 1), p - 1) := by
    refine ⟨?_, ?_, ?_, ?_⟩
    . rw [length_set, length_replicate]
    . exact getElem?_set_self (by rw [length_replicate]; omega)
    . rw [Nat.div_eq_of_lt hp, Nat.mul_zero, Nat.zero_add]
    . intro n _ hlt
      have := powers_pos h hx n
      omega
  obtain ⟨s, hrun, hs⟩ := forLoop_spec (n := p ^ (d + 1) - 1) (IsSuccState p d poly x)
    (fun e s hpos he hs => succRound_spec h hx hindx hpos (by omega) hs) hinit
  unfold succTable
  rw [hset, ok_bind, minus_eq (by omega), ok_bind, hrun]
  refine ⟨s.1, rfl, hs.length, hs.order, ?_⟩
  intro n hpos hn
  obtain ⟨n, rfl⟩ := Nat.exists_eq_succ_of_ne_zero (Nat.ne_of_gt hpos)
  have hlt := powers_lt h n
  exact hs.succ_eq n (by omega) (by omega)

end Tables

section Operations

variable {w : IntSize} {v : FFVSize} {q : Nat}

structure IsOperations (w : IntSize) (v : FFVSize) (q : Nat) {R : Type} [CommRing R] (x : R)
    (f : List Nat) : Prop where
  sum : ∀ a b, a < q → b < q → ∃ c, sumFFV v a b f = .ok c ∧ c < q ∧ elm x c = elm x a + elm x b
  neg : ∀ a, a < q → ∃ c, negFFV v a f = .ok c ∧ c < q ∧ elm x c = -elm x a
  prod : ∀ a b, a < q → b < q → ∃ c, prodFFV v a b f = .ok c ∧ c < q ∧ elm x c = elm x a * elm x b
  quo : ∀ a b, a < q → b < q → 0 < b
    → ∃ c, quoFFV v a b f = .ok c ∧ c < q ∧ elm x c * elm x b = elm x a
  pow : ∀ a n, a < q → n < q → ∃ c, powFFV w v a n f = .ok c ∧ c < q ∧ elm x c = elm x a ^ n

theorem isOperations_of_isSuccTable {K : Type} [Field K] {x : K} {f : List Nat}
    (h : IsSuccTable q x f) (hq : q ≤ 2 ^ v.bits) (hw : 2 * v.bits ≤ w.bits)
    : IsOperations w v q x f where
  sum := by
    intro a b ha hb
    rw [sumFFV_eq h hq ha hb]
    exact h.sumFFV_spec ha hb
  neg := by
    intro a ha
    rw [negFFV_eq h.order_eq hq ha]
    exact h.negFFV_spec ha
  prod := by
    intro a b ha hb
    rw [prodFFV_eq h.order_eq hq ha hb]
    exact h.prodFFV_spec ha hb
  quo := by
    intro a b ha hb hpos
    rw [quoFFV_eq h.order_eq hq ha hb hpos]
    obtain ⟨c, hrun, hc, hval⟩ := h.quoFFV_spec ha hb hpos
    refine ⟨c, hrun, hc, ?_⟩
    change power x c * power x b = power x a
    rw [hval, div_mul_cancel₀ _ (h.power_ne_zero hpos)]
  pow := by
    intro a n ha hn
    rw [powFFV_eq h.order_eq hq hw ha hn]
    by_cases ha0 : a = 0
    . have hone := h.size_pos
      unfold Finfield.powFFV
      rw [ha0, elm_zero]
      split
      . next hn0 =>
        rw [hn0, pow_zero]
        exact ⟨1, rfl, hone, (elm_succ x 0).trans (pow_zero x)⟩
      . next hn0 =>
        rw [zero_pow hn0, if_pos rfl]
        exact ⟨0, rfl, by omega, elm_zero x⟩
    . exact h.powFFV_spec (Nat.pos_of_ne_zero ha0) n

structure IsFieldOfValues (w : IntSize) (v : FFVSize) (q : Nat) {R : Type} [CommRing R] (x : R)
    (f : List Nat) : Prop extends IsOperations w v q x f where
  isField : IsField R
  bijOn : Set.BijOn (elm x) (Set.Iio q) Set.univ

theorem isFieldOfValues {R : Type} [CommRing R] [Nontrivial R] {x : R} {f : List Nat}
    (ht : IsTable q x f) (hprim : IsPrimitiveRoot x (q - 1)) (hone : 1 < q)
    (hneg : (q - 1) % 2 ≠ 0 → (-1 : R) = 1) (hall : ∀ y : R, ∃ a, a < q ∧ elm x a = y)
    (hq : q ≤ 2 ^ v.bits) (hw : 2 * v.bits ≤ w.bits) : IsFieldOfValues w v q x f := by
  have hunit := hprim.isUnit (by omega)
  have helm : ∀ a, a < q → (elm x a = 0 ↔ a = 0) := by
    intro a _
    constructor
    . intro h
      by_contra hne
      obtain ⟨n, rfl⟩ := Nat.exists_eq_succ_of_ne_zero hne
      rw [Nat.succ_eq_add_one, elm_succ] at h
      exact (hunit.pow n).ne_zero h
    . intro h
      rw [h, elm_zero]
  have hfield : IsField R := by
    refine ⟨⟨0, 1, zero_ne_one⟩, mul_comm, ?_⟩
    intro y hy
    obtain ⟨a, ha, rfl⟩ := hall y
    obtain ⟨n, rfl⟩ := Nat.exists_eq_succ_of_ne_zero fun h0 => hy ((helm a ha).mpr h0)
    rw [Nat.succ_eq_add_one, elm_succ]
    exact (hunit.pow n).exists_right_inv
  have hsucc : @IsSuccTable R hfield.toField q x f := @IsSuccTable.mk R hfield.toField q x f hone
    hprim hneg ht.order ht.succ_eq
  refine ⟨@isOperations_of_isSuccTable w v q R hfield.toField x f hsucc hq hw, hfield, ?_, ?_, ?_⟩
  . exact fun a _ => Set.mem_univ _
  . intro a ha b hb heq
    exact @Finfield.power_inj R hfield.toField q x f hsucc a b ha hb heq
  . intro y _
    exact hall y

end Operations

section Construction

open Polynomial AdjoinRoot PackedPoly

variable {w : IntSize} {v : FFVSize} {t : FieldTables} {p d ff : Nat} [Fact p.Prime]
  {P : (ZMod p)[X]} {primitiveRootMod : Nat → Nat}

structure IsNewField (t : FieldTables) (p d ff : Nat) : Prop
    extends Finfield.IsField t.toFFData p d ff where
  sorted : Finfield.IsSorted t.toFFData
  size : t.sizeFF ff = p ^ d
  degree_pos : 0 < d
  type : t.typeFF0 ff = false

def IsEntry (pols : List Nat) (q poly : Nat) : Prop :=
  ∃ before after : List (Nat × Nat), (∀ entry ∈ before, entry.1 ≠ q)
    ∧ pols = (before ++ (q, poly) :: after).flatMap (fun entry => [entry.1, entry.2])

structure IsFieldPoly (t : FieldTables) (p d : Nat) [Fact p.Prime] (P : (ZMod p)[X]) : Prop where
  monic : P.Monic
  degree : P.natDegree = d
  primitive : IsPrimitiveRoot (root P) (p ^ d - 1)
  table : d ≠ 1 → IsEntry t.polsFF (p ^ d) (pack p d P)
  ground : d = 1 → ∃ r : Nat, IsLeastRoot p r ∧ P = X - C (r : ZMod p)

theorem findPoly_spec {pols : List Nat} {q poly : Nat} (h : IsEntry pols q poly)
    : findPoly q pols = .ok poly := by
  obtain ⟨before, after, hbefore, rfl⟩ := h
  induction before with
  | nil =>
    change (if q ≠ q then _ else _) = _
    rw [if_neg (not_not_intro rfl)]
    rfl
  | cons entry before ih =>
    change (if entry.1 ≠ q then _ else _) = _
    rw [if_pos (hbefore entry mem_cons_self)]
    exact ih fun e he => hbefore e (mem_cons_of_mem _ he)

theorem pack_ground {r : Nat} (hpos : 0 < r) (hlt : r < p)
    : pack p 1 (X - C (r : ZMod p)) = p - r := by
  have hne : (r : ZMod p) ≠ 0 := by
    rw [Ne, ZMod.natCast_eq_zero_iff]
    exact Nat.not_dvd_of_pos_of_lt hpos hlt
  have : NeZero (r : ZMod p) := ⟨hne⟩
  unfold pack ofDigits
  dsimp only
  rw [Finset.sum_range_one, pow_zero, one_mul, coeff_sub, coeff_X_zero, coeff_C_zero, zero_sub,
    ZMod.val_neg_of_ne_zero, ZMod.val_natCast_of_lt hlt]

theorem fieldPoly_spec (hff : IsNewField t p d ff) (hP : IsFieldPoly t p d P)
    (hlib : d = 1 → 65537 ≤ p → IsLeastRoot p (primitiveRootMod p)) (hne : ¬(p = 2 ∧ d = 1))
    (hw : p < 2 ^ w.bits) : fieldPoly w primitiveRootMod t (p ^ d) ff = .ok (pack p d P) := by
  unfold fieldPoly
  rw [hff.degr_eq, hff.char_eq]
  split
  . next h1 =>
    have htwo := (Fact.out : p.Prime).two_le
    obtain ⟨r, hr, rfl⟩ := hP.ground h1
    have hp : 2 < p := by omega
    rw [groundPoly_spec hp hw (hlib h1) hr, h1, pack_ground (hr.pos hp) hr.lt]
  . next h1 => exact findPoly_spec (hP.table h1)

structure IsConstructed (w : IntSize) (v : FFVSize) (primitiveRootMod : Nat → Nat) (t : FieldTables)
    (p d ff : Nat) [Fact p.Prime] (P : (ZMod p)[X]) : Prop where
  search : d = 1 → p < 65537 → ∃ r, findRoot w p primitiveRootMod = .ok (r + 1) ∧ IsLeastRoot p r
  table : ∃ t', finiteFieldBySize w v primitiveRootMod t (p ^ d) = .ok (t', ff)
    ∧ (∀ i, i ≠ ff → t'.succFF i = t.succFF i) ∧ IsTable (p ^ d) (root P) (t'.succFF ff)
    ∧ IsFieldOfValues w v (p ^ d) (root P) (t'.succFF ff)

theorem finiteFieldBySize_spec (hff : IsNewField t p d ff) (hP : IsFieldPoly t p d P)
    (hlib : d = 1 → 65537 ≤ p → IsLeastRoot p (primitiveRootMod p)) (hne : ¬(p = 2 ∧ d = 1))
    (hq : p ^ d ≤ 2 ^ v.bits) (hw : 2 * v.bits ≤ w.bits)
    : ∃ t', finiteFieldBySize w v primitiveRootMod t (p ^ d) = .ok (t', ff)
      ∧ (∀ i, i ≠ ff → t'.succFF i = t.succFF i) ∧ IsTable (p ^ d) (root P) (t'.succFF ff)
      ∧ IsFieldOfValues w v (p ^ d) (root P) (t'.succFF ff) := by
  have hprime := (Fact.out : p.Prime)
  have hpos := hff.degree_pos
  obtain ⟨k, rfl⟩ : ∃ k, d = k + 1 := ⟨d - 1, by omega⟩
  have hbounded : IsBounded w v p k (pack p (k + 1) P) := ⟨hprime, hq, hw, pack_lt P⟩
  have := nontrivial_quotient hP.degree hpos
  have := charP_quotient (P := P)
  have hgen : IsGenerator p k (pack p (k + 1) P) (root P) :=
    ⟨root_pow hP.monic hP.degree, hP.primitive⟩
  have hword : p < 2 ^ w.bits := hbounded.lt_word (le_size p k)
  have hone : 1 < p ^ (k + 1) := Nat.one_lt_pow (Nat.succ_ne_zero k) hprime.one_lt
  obtain ⟨indx, hindexrun, hindex⟩ := indexTable_spec hbounded hgen
  obtain ⟨succ, hsuccrun, hsucc⟩ := succTable_spec hbounded hgen hindex
  obtain ⟨ff', hlookup, _, hfind⟩ := Finfield.lookupPrimePower_spec hff.sorted (p ^ (k + 1))
  rw [hfind ff ⟨hff.pos, hff.le, hff.size⟩] at hlookup
  have hvalues : IsFieldOfValues w v (p ^ (k + 1)) (root P) succ := by
    apply isFieldOfValues hsucc hgen.primitive hone _ _ hbounded.size_le hw
    . intro hodd
      -- If the order is odd then the characteristic is 2.
      have h2 : p = 2 := by
        apply (hprime.eq_two_or_odd).resolve_right
        intro hpodd
        have := Nat.odd_iff.mp ((Nat.odd_iff.mpr hpodd).pow (n := k + 1))
        omega
      subst h2
      exact CharTwo.neg_eq 1
    . intro y
      obtain ⟨e, he, rfl⟩ := exists_eval hP.monic hP.degree hpos y
      obtain ⟨m, _, hm, hval⟩ := hindex.exists_elm hbounded hgen he
      exact ⟨m, hm, hval⟩
  unfold finiteFieldBySize
  rw [hlookup, ok_bind, if_neg (Nat.ne_of_gt hff.pos), hff.type, if_neg Bool.false_ne_true]
  rw [fieldPoly_spec hff hP hlib hne hword, ok_bind, hff.char_eq, hindexrun, ok_bind, hsuccrun]
  refine ⟨_, rfl, ?_, ?_, ?_⟩
  . intro i hi
    exact update_of_ne hi succ t.succFF
  . dsimp only
    rw [update_self]
    exact hsucc
  . dsimp only
    rw [update_self]
    exact hvalues

theorem isConstructed_iff (hff : IsNewField t p d ff) (hP : IsFieldPoly t p d P)
    (hlib : d = 1 → 65537 ≤ p → IsLeastRoot p (primitiveRootMod p))
    (hq : p ^ d ≤ 2 ^ v.bits) (hw : 2 * v.bits ≤ w.bits)
    : IsConstructed w v primitiveRootMod t p d ff P ↔ ¬(p = 2 ∧ d = 1) := by
  have hle : p ≤ p ^ d := Nat.le_pow hff.degree_pos
  constructor
  . intro h ⟨h2, h1⟩
    subst h2
    obtain ⟨r, hrun, hr⟩ := h.search h1 (by decide)
    rw [findRoot_two] at hrun
    have hr0 : r = 0 := (Nat.succ.inj (Except.ok.inj hrun)).symm
    rw [hr0] at hr
    have hroot := hr.1.pow_eq_one
    rw [Nat.cast_zero, zero_pow (by decide)] at hroot
    exact zero_ne_one hroot
  . intro hne
    refine ⟨?_, finiteFieldBySize_spec hff hP hlib hne hq hw⟩
    intro h1 hlt
    have htwo := (Fact.out : p.Prime).two_le
    obtain ⟨r, hr, _⟩ := hP.ground h1
    have hword : p < 2 ^ w.bits := by
      have := Nat.pow_le_pow_right Nat.two_pos (bits_le w)
      omega
    exact ⟨r, findRoot_spec (by omega) hword (hlib h1) hr, hr⟩

theorem isFieldPoly_ground {r : Nat} (t : FieldTables) (hr : IsLeastRoot p r)
    : IsFieldPoly t p 1 (X - C (r : ZMod p)) where
  monic := monic_X_sub_C _
  degree := natDegree_X_sub_C _
  primitive := by
    have hroot := eval₂_root (X - C (r : ZMod p))
    rw [eval₂_sub, eval₂_X, eval₂_C, sub_eq_zero] at hroot
    have := nontrivial_quotient (natDegree_X_sub_C (r : ZMod p)) Nat.one_pos
    rw [hroot, pow_one]
    exact hr.1.map_of_injective (of (X - C (r : ZMod p))).injective
  table := fun h => absurd rfl h
  ground := fun _ => ⟨r, hr, rfl⟩

def exampleTables (p : Nat) : FieldTables where
  numShortFiniteFields := 1
  sizeFF := fun _ => p
  charFF := fun _ => p
  degrFF := fun _ => 1
  succFF := fun _ => []
  polsFF := []
  typeFF0 := fun _ => false

theorem isNewField_exampleTables (p : Nat) : IsNewField (exampleTables p) p 1 1 where
  pos := Nat.one_pos
  le := Nat.le_refl 1
  char_eq := rfl
  degr_eq := rfl
  sorted := by
    intro i j hi hij hj
    change j ≤ 1 at hj
    omega
  size := (pow_one p).symm
  degree_pos := Nat.one_pos
  type := rfl

theorem isLeastRoot_three : IsLeastRoot 3 2 := by
  constructor
  . have horder : orderOf ((2 : Nat) : ZMod 3) = 2 := orderOf_eq_prime (by decide) (by decide)
    have hroot := IsPrimitiveRoot.orderOf ((2 : Nat) : ZMod 3)
    rwa [horder] at hroot
  . intro r hr
    apply Nat.le_of_not_lt
    intro hlt
    have hdvd := hr.dvd_of_pow_eq_one
    interval_cases r
    . exact absurd (hr.pow_eq_one) (by decide)
    . exact absurd (hdvd 1 (by decide)) (by decide)

theorem isLeastRoot_two : IsLeastRoot 2 1 := by
  constructor
  . change IsPrimitiveRoot ((1 : Nat) : ZMod 2) 1
    rw [Nat.cast_one]
    exact IsPrimitiveRoot.one
  . intro r hr
    apply Nat.pos_of_ne_zero
    intro h0
    rw [h0] at hr
    exact absurd (hr.pow_eq_one) (by decide)

theorem isConstructed_three
    : IsConstructed .int8 .ffv2 (fun _ => 0) (exampleTables 3) 3 1 1 (X - C ((2 : Nat) : ZMod 3)) :=
  (isConstructed_iff (isNewField_exampleTables 3) (isFieldPoly_ground _ isLeastRoot_three)
    (fun _ h => absurd h (by decide)) (by decide) (by decide)).mpr (by decide)

/-- The search for the prime 2 ends before the first round. -/
theorem not_isConstructed_two
    : IsNewField (exampleTables 2) 2 1 1
      ∧ IsFieldPoly (exampleTables 2) 2 1 (X - C ((1 : Nat) : ZMod 2))
      ∧ ¬IsConstructed .int8 .ffv2 (fun _ => 0) (exampleTables 2) 2 1 1
        (X - C ((1 : Nat) : ZMod 2)) := by
  refine ⟨isNewField_exampleTables 2, isFieldPoly_ground _ isLeastRoot_two, ?_⟩
  intro h
  obtain ⟨r, hrun, hr⟩ := h.search rfl (by decide)
  rw [findRoot_two] at hrun
  have hr0 : r = 0 := (Nat.succ.inj (Except.ok.inj hrun)).symm
  rw [hr0] at hr
  exact absurd hr.1.pow_eq_one (by decide)

end Construction

end FinfieldTable
