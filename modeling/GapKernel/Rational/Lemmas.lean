import GapKernel.Rational.Impl
import Mathlib.Algebra.Order.Field.Basic
import Mathlib.Data.Int.ModEq
import Mathlib.RingTheory.Int.Basic
import Mathlib.Tactic.FieldSimp
import Mathlib.Tactic.LinearCombination

open Int

namespace RatObj

variable {x : RatObj}

theorem IsCanonical.den_pos (h : x.IsCanonical) : 0 < x.den := by
  cases x with
  | int i => exact Int.one_pos
  | rat num den => exact Int.lt_trans Int.one_pos h.1

theorem IsCanonical.isCoprime (h : x.IsCanonical) : IsCoprime x.num x.den := by
  cases x with
  | int i => exact isCoprime_one_right
  | rat num den => exact Int.isCoprime_iff_gcd_eq_one.mpr h.2

theorem IsCanonical.eq_of_den_eq_one (h : x.IsCanonical) (hden : x.den = 1) : x = int x.num := by
  cases x with
  | int i => rfl
  | rat num den => exact absurd hden (Int.ne_of_gt h.1)

end RatObj

namespace Rational

open RatObj

section Fractions

variable {nL dL nR dR : Int}

theorem makeRat_spec {num den : Int} (hden : 0 < den) (h : IsCoprime num den)
    : ∃ z : CanonicalRat, makeRat num den = z.obj ∧ z.value = num / den := by
  unfold makeRat
  split
  . next hne => exact ⟨⟨rat num den, by omega, Int.isCoprime_iff_gcd_eq_one.mp h⟩, rfl, rfl⟩
  . next heq =>
    refine ⟨⟨int num, trivial⟩, rfl, ?_⟩
    rw [not_not.mp heq]
    rfl

theorem exists_cancel (a : Int) {b : Int} (hb : 0 < b)
    : ∃ g a' b' : Int, gcdInt a b = g ∧ 0 < g ∧ a = a' * g ∧ b = b' * g ∧ a.tdiv g = a'
        ∧ b.tdiv g = b' ∧ 0 < b' ∧ IsCoprime a' b' := by
  have hpos : 0 < Int.gcd a b := gcd_pos_of_ne_zero_right a (Int.ne_of_gt hb)
  obtain ⟨a', b', hgcd, ha, hb'⟩ := exists_gcd_one hpos
  have hg : (0 : Int) < Int.gcd a b := Int.natCast_pos.mpr hpos
  refine ⟨Int.gcd a b, a', b', rfl, hg, ha, hb', ?_, ?_, ?_, Int.isCoprime_iff_gcd_eq_one.mpr hgcd⟩
  . exact Int.tdiv_eq_of_eq_mul_left (Int.ne_of_gt hg) ha
  . exact Int.tdiv_eq_of_eq_mul_left (Int.ne_of_gt hg) hb'
  . rw [hb'] at hb
    exact pos_of_mul_pos_left hb (Int.le_of_lt hg)

theorem isCoprime_sum {a b s : Int} (hL : IsCoprime nL a) (hR : IsCoprime nR b)
    (hab : IsCoprime a b) (hs : IsUnit s) : IsCoprime (nL * b + s * (nR * a)) (a * b) := by
  apply IsCoprime.mul_right
  . rw [show nL * b + s * (nR * a) = nL * b + a * (s * nR) by ring]
    exact (hL.mul_left hab.symm).add_mul_left_left _
  . rw [show nL * b + s * (nR * a) = s * (nR * a) + b * nL by ring]
    apply IsCoprime.add_mul_left_left
    rw [isCoprime_mul_unit_left_left hs]
    exact hR.mul_left hab

theorem prodFractions_spec (hL : IsCoprime nL dL) (hR : IsCoprime nR dR) (hdL : 0 < dL)
    (hdR : 0 < dR)
    : ∃ z : CanonicalRat, prodFractions nL dL nR dR = z.obj
        ∧ z.value = (nL / dL : ℚ) * (nR / dR) := by
  obtain ⟨g1, a, d, hg1, hpos1, rfl, rfl, hqa, hqd, hd, had⟩ := exists_cancel nL hdR
  obtain ⟨g2, b, c, hg2, hpos2, rfl, rfl, hqb, hqc, hc, hbc⟩ := exists_cancel nR hdL
  have hac : IsCoprime a c := hL.of_mul_left_left.of_mul_right_left
  have hbd : IsCoprime b d := hR.of_mul_left_left.of_mul_right_left
  have hcop : IsCoprime (a * b) (c * d) :=
    IsCoprime.mul_left (hac.mul_right had) (hbc.mul_right hbd)
  obtain ⟨z, hz, hval⟩ := makeRat_spec (Int.mul_pos hc hd) hcop
  refine ⟨z, ?_, ?_⟩
  . unfold prodFractions
    dsimp only
    rw [hg1, hg2, hqa, hqb, hqc, hqd, ← hz]
    split
    . next h =>
      rw [h.1, h.2]
      simp only [Int.mul_one]
    . rfl
  . have h1 : (g1 : ℚ) ≠ 0 := Int.cast_ne_zero.mpr (Int.ne_of_gt hpos1)
    have h2 : (g2 : ℚ) ≠ 0 := Int.cast_ne_zero.mpr (Int.ne_of_gt hpos2)
    have hc' : (c : ℚ) ≠ 0 := Int.cast_ne_zero.mpr (Int.ne_of_gt hc)
    have hd' : (d : ℚ) ≠ 0 := Int.cast_ne_zero.mpr (Int.ne_of_gt hd)
    rw [hval]
    push_cast
    field_simp

end Fractions

section Operations

variable (x y : CanonicalRat)

theorem sumOrDiffRat_spec {sumInt : Int → Int → Int} {s : Int} (hs : IsUnit s)
    (hsum : ∀ a b, sumInt a b = a + s * b)
    : ∃ z : CanonicalRat, sumOrDiffRat sumInt x.obj y.obj = z.obj
        ∧ z.value = x.value + s * y.value := by
  have hL := x.canonical.isCoprime
  have hR := y.canonical.isCoprime
  have hval : ∀ z : CanonicalRat, z.value = z.obj.num / z.obj.den := fun _ => rfl
  obtain ⟨g, a, b, hg, hpos, hdL, hdR, hqa, hqb, hb, hab⟩ :=
    exists_cancel x.obj.den y.canonical.den_pos
  have ha : 0 < a := by
    have := x.canonical.den_pos
    rw [hdL] at this
    exact pos_of_mul_pos_left this (Int.le_of_lt hpos)
  rw [hdL] at hL
  rw [hdR] at hR
  have hS := isCoprime_sum hL.of_mul_right_left hR.of_mul_right_left hab hs
  generalize hSdef : x.obj.num * b + s * (y.obj.num * a) = S at hS
  obtain ⟨g2, S', g', hg2, hpos2, hSeq, hgeq, hqS, hqg, hg', hcop⟩ := exists_cancel S hpos
  have hcop2 : IsCoprime S' (a * (b * g')) := by
    rw [hSeq] at hS
    rw [← mul_assoc]
    exact hS.of_mul_left_left.mul_right hcop
  obtain ⟨z, hz, hzval⟩ := makeRat_spec (Int.mul_pos ha (Int.mul_pos hb hg')) hcop2
  refine ⟨z, ?_, ?_⟩
  . unfold sumOrDiffRat
    dsimp only
    rw [hg, hsum, hsum, hqa, hqb, hSdef, hg2, hqS, ← hz]
    split
    . next h1 =>
      -- Nothing can cancel if the denominators are coprime.
      have hg21 : g2 = 1 := by
        rw [h1] at hgeq
        exact eq_one_of_mul_eq_one_left (Int.le_of_lt hpos2) hgeq.symm
      rw [hg21, Int.mul_one] at hSeq hgeq
      rw [← hSeq, ← hSdef, ← hgeq, hdL, hdR, h1]
      simp only [Int.mul_one]
    . have hqR : y.obj.den.tdiv g2 = b * g' := by
        apply Int.tdiv_eq_of_eq_mul_left (Int.ne_of_gt hpos2)
        rw [hdR, hgeq, mul_assoc]
      rw [hqR]
  . have h1 : (g' : ℚ) ≠ 0 := Int.cast_ne_zero.mpr (Int.ne_of_gt hg')
    have h2 : (g2 : ℚ) ≠ 0 := Int.cast_ne_zero.mpr (Int.ne_of_gt hpos2)
    have h3 : (a : ℚ) ≠ 0 := Int.cast_ne_zero.mpr (Int.ne_of_gt ha)
    have h4 : (b : ℚ) ≠ 0 := Int.cast_ne_zero.mpr (Int.ne_of_gt hb)
    have hSq : (x.obj.num * b + s * (y.obj.num * a) : ℚ) = S' * g2 := by
      exact_mod_cast hSdef.trans hSeq
    rw [hzval, hval, hval, hdL, hdR, hgeq]
    push_cast
    field_simp
    linear_combination -hSq

theorem sumRat_spec : ∃ z : CanonicalRat, sumRat x.obj y.obj = z.obj
    ∧ z.value = x.value + y.value := by
  obtain ⟨z, hz, hval⟩ := sumOrDiffRat_spec x y isUnit_one
    (show ∀ a b : Int, a + b = a + 1 * b by simp)
  exact ⟨z, hz, by simpa using hval⟩

theorem diffRat_spec : ∃ z : CanonicalRat, diffRat x.obj y.obj = z.obj
    ∧ z.value = x.value - y.value := by
  obtain ⟨z, hz, hval⟩ := sumOrDiffRat_spec x y isUnit_one.neg
    (show ∀ a b : Int, a - b = a + -1 * b by intro a b; ring)
  exact ⟨z, hz, by simpa [← sub_eq_add_neg] using hval⟩

theorem prodRat_spec : ∃ z : CanonicalRat, prodRat x.obj y.obj = z.obj
    ∧ z.value = x.value * y.value :=
  prodFractions_spec x.canonical.isCoprime y.canonical.isCoprime x.canonical.den_pos
    y.canonical.den_pos

theorem value_eq_zero_iff : x.value = 0 ↔ x.obj.num = 0 := by
  have hden : (x.obj.den : ℚ) ≠ 0 := Int.cast_ne_zero.mpr (Int.ne_of_gt x.canonical.den_pos)
  unfold CanonicalRat.value RatObj.value
  rw [div_eq_zero_iff, or_iff_left hden, cast_eq_zero]

theorem quoRat_zero (hy : y.value = 0)
    : quoRat x.obj y.obj
        = .error (.quit "Rational operations: <divisor> must not be zero" 0 0) :=
  if_pos ((value_eq_zero_iff y).mp hy)

theorem quoRat_spec (hy : y.value ≠ 0)
    : ∃ z : CanonicalRat, quoRat x.obj y.obj = .ok z.obj ∧ z.value = x.value / y.value := by
  have hnum : y.obj.num ≠ 0 := mt (value_eq_zero_iff y).mpr hy
  have hL := x.canonical.isCoprime
  have hR := y.canonical.isCoprime.symm
  unfold quoRat
  rw [if_neg hnum]
  split
  . next hneg =>
    obtain ⟨z, hz, hval⟩ := prodFractions_spec hL hR.neg_neg x.canonical.den_pos
      (Int.neg_pos_of_neg hneg)
    refine ⟨z, congrArg Except.ok hz, ?_⟩
    rw [hval]
    push_cast
    rw [neg_div_neg_eq, ← mul_div_assoc]
    exact (div_div_eq_mul_div _ _ _).symm
  . next hpos =>
    obtain ⟨z, hz, hval⟩ := prodFractions_spec hL hR x.canonical.den_pos (by omega)
    refine ⟨z, congrArg Except.ok hz, ?_⟩
    rw [hval, ← mul_div_assoc]
    exact (div_div_eq_mul_div _ _ _).symm

theorem invRat_spec
    : (x.value = 0 → invRat x.obj = .ok none)
        ∧ (x.value ≠ 0 → ∃ z : CanonicalRat, invRat x.obj = .ok (some z.obj)
          ∧ z.value = x.value⁻¹) := by
  have hzero : x.obj = int 0 ↔ x.value = 0 := by
    rw [value_eq_zero_iff]
    constructor
    . intro h
      rw [h]
      rfl
    . intro hnum
      have hden : x.obj.den = 1 := by
        have hcop := x.canonical.isCoprime
        rw [hnum, isCoprime_zero_left, isUnit_iff] at hcop
        have := x.canonical.den_pos
        omega
      rw [x.canonical.eq_of_den_eq_one hden, hnum]
  unfold invRat
  constructor
  . intro h
    rw [if_pos (hzero.mpr h)]
    rfl
  . intro h
    obtain ⟨z, hz, hval⟩ := quoRat_spec ⟨int 1, trivial⟩ x h
    refine ⟨z, ?_, ?_⟩
    . rw [if_neg (mt hzero.mp h), hz]
      rfl
    . rw [hval, inv_eq_one_div]
      congr 1
      norm_num [CanonicalRat.value, RatObj.value, RatObj.num, RatObj.den]

theorem aInvRat_spec : ∃ z : CanonicalRat, aInvRat x.obj = z.obj ∧ z.value = -x.value := by
  obtain ⟨obj, h⟩ := x
  cases obj with
  | int i =>
    refine ⟨⟨int (-i), trivial⟩, rfl, ?_⟩
    simp [CanonicalRat.value, RatObj.value, RatObj.num, RatObj.den]
  | rat num den =>
    refine ⟨⟨rat (-num) den, h.1, (Int.neg_gcd).trans h.2⟩, rfl, ?_⟩
    simp [CanonicalRat.value, RatObj.value, RatObj.num, RatObj.den, neg_div]

theorem absRat_spec : ∃ z : CanonicalRat, absRat x.obj = z.obj ∧ z.value = |x.value| := by
  obtain ⟨obj, h⟩ := x
  cases obj with
  | int i =>
    refine ⟨⟨int |i|, trivial⟩, rfl, ?_⟩
    simp [CanonicalRat.value, RatObj.value, RatObj.num, RatObj.den]
  | rat num den =>
    have hden : (0 : ℚ) < den := Int.cast_pos.mpr (Int.lt_trans Int.one_pos h.1)
    have habs : absRat (rat num den) = rat |num| den := by
      unfold absRat
      dsimp only
      split
      . next heq => rw [heq]
      . rfl
    refine ⟨⟨rat |num| den, h.1, ?_⟩, habs, ?_⟩
    . rw [gcd_eq_natAbs, natAbs_abs, ← gcd_eq_natAbs]
      exact h.2
    . simp only [CanonicalRat.value, RatObj.value, RatObj.num, RatObj.den, cast_abs]
      rw [abs_div, abs_of_pos hden]

theorem obj_eq_iff : x.obj = y.obj ↔ x.value = y.value := by
  constructor
  . intro h
    unfold CanonicalRat.value
    rw [h]
  . intro h
    obtain ⟨hnum, hden⟩ := Rat.div_int_inj x.canonical.den_pos y.canonical.den_pos
      (Int.isCoprime_iff_nat_coprime.mp x.canonical.isCoprime)
      (Int.isCoprime_iff_nat_coprime.mp y.canonical.isCoprime) h
    obtain ⟨objL, hL⟩ := x
    obtain ⟨objR, hR⟩ := y
    cases objL with
    | int i => exact (congrArg int hnum).trans (hR.eq_of_den_eq_one hden.symm).symm
    | rat numL denL =>
      cases objR with
      | int k => exact absurd hden (Int.ne_of_gt hL.1)
      | rat numR denR => exact congrArg₂ rat hnum hden

theorem eqRat_spec : eqRat x.obj y.obj = true ↔ x.value = y.value := by
  rw [← obj_eq_iff]
  cases x.obj with
  | int i => cases y.obj <;> simp [eqRat]
  | rat numL denL => cases y.obj <;> simp [eqRat]

theorem ltRat_spec : ltRat x.obj y.obj = true ↔ x.value < y.value := by
  have hL : (0 : ℚ) < x.obj.den := Int.cast_pos.mpr x.canonical.den_pos
  have hR : (0 : ℚ) < y.obj.den := Int.cast_pos.mpr y.canonical.den_pos
  unfold ltRat CanonicalRat.value RatObj.value
  rw [decide_eq_true_iff, div_lt_div_iff₀ hL hR]
  exact_mod_cast Iff.rfl

end Operations

section Remainder

theorem inverseLoop_spec {base m a b aL bL : Int} (ha : 0 ≤ a) (hb : 0 ≤ b)
    (hcofA : m ∣ base * aL - a) (hcofB : m ∣ base * bL - b)
    : (inverseLoop a b aL bL).1 = Int.gcd a b
        ∧ m ∣ base * (inverseLoop a b aL bL).2 - (inverseLoop a b aL bL).1 := by
  fun_induction inverseLoop a b aL bL with
  | case1 a aL bL =>
    rw [Int.gcd_zero_right, natAbs_of_nonneg ha]
    exact ⟨rfl, hcofA⟩
  | case2 a b aL bL hne hdQ ih =>
    have hmod : a - hdQ * b = a % b := by
      rw [Int.mul_comm, ← tmod_def, tmod_eq_emod_of_nonneg ha]
    have hcof : m ∣ base * (aL - hdQ * bL) - (a - hdQ * b) := by
      have h := hcofA.sub (hcofB.mul_left hdQ)
      rwa [show base * aL - a - hdQ * (base * bL - b)
        = base * (aL - hdQ * bL) - (a - hdQ * b) by ring] at h
    obtain ⟨h1, h2⟩ := ih hb (hmod ▸ emod_nonneg a hne) hcofB hcof
    refine ⟨?_, h2⟩
    rw [h1, hmod, Int.gcd_comm, gcd_emod]

theorem inverseModInt_spec (base : Int) {mod : Int} (hmod : mod ≠ 0)
    : (inverseModInt base mod = none ↔ ¬IsCoprime base mod)
        ∧ ∀ d, inverseModInt base mod = some d → base * d ≡ 1 [ZMOD mod] := by
  unfold inverseModInt
  split
  . next hunit =>
    have hu : IsUnit mod := Int.isUnit_iff.mpr hunit
    refine ⟨⟨(fun h => nomatch h), fun h => absurd ?_ h⟩, ?_⟩
    . exact isCoprime_one_right.of_isCoprime_of_dvd_right hu.dvd
    . exact fun d _ => Int.modEq_iff_dvd.mpr hu.dvd
  . next hunit =>
    split
    . next hzero =>
      refine ⟨⟨fun _ hcop => hunit ?_, fun _ => rfl⟩, fun d hd => nomatch hd⟩
      rw [hzero.resolve_right hmod, isCoprime_zero_left] at hcop
      exact Int.isUnit_iff.mp hcop
    . obtain ⟨h1, h2⟩ := @inverseLoop_spec base mod mod.natAbs (base % mod) 0 1
        (natCast_nonneg _) (emod_nonneg base hmod) (by simp)
        (by rw [Int.mul_one]; exact dvd_self_sub_emod)
      have hgcd : Int.gcd mod.natAbs (base % mod) = Int.gcd base mod := by
        rw [Int.gcd_comm, gcd_eq_natAbs_gcd_natAbs, natAbs_natCast,
          ← gcd_eq_natAbs_gcd_natAbs, gcd_emod]
      rw [hgcd] at h1
      dsimp only
      rw [isCoprime_iff_gcd_eq_one]
      split
      . next hne =>
        rw [h1] at hne
        exact ⟨⟨fun _ h => hne (by rw [h]; rfl), fun _ => rfl⟩, fun d hd => nomatch hd⟩
      . next hone =>
        rw [not_not] at hone
        rw [hone] at h2
        refine ⟨⟨(fun h => nomatch h), fun h => ?_⟩, ?_⟩
        . rw [hone] at h1
          exact absurd (Int.natCast_inj.mp h1.symm) h
        . intro d hd
          rw [← Option.some.inj hd]
          exact ((mod_modEq _ _).mul_left base).trans (Int.modEq_iff_dvd.mpr h2).symm

variable (x : CanonicalRat)

theorem modRat_spec {n : Int} (hn : n ≠ 0)
    : (IsCoprime x.obj.den n → ∃ k, modRat x.obj n = .ok k ∧ 0 ≤ k ∧ k < |n|
          ∧ k * x.obj.den ≡ x.obj.num [ZMOD n])
        ∧ (¬IsCoprime x.obj.den n → modRat x.obj n = .error (.quit
          "ModRat: for <r>/<s> mod <n>, <s>/gcd(<r>,<s>) and <n> must be coprime" 0 0)) := by
  obtain ⟨hnone, hsome⟩ := inverseModInt_spec x.obj.den hn
  unfold modRat
  constructor
  . intro hcop
    cases hinv : inverseModInt x.obj.den n with
    | none => exact absurd hcop (hnone.mp hinv)
    | some d =>
      refine ⟨_, rfl, emod_nonneg _ hn, emod_lt_abs _ hn, ?_⟩
      have h := (hsome d hinv).mul_left x.obj.num
      rw [Int.mul_one] at h
      refine ((mod_modEq _ _).mul_right _).trans ?_
      rwa [mul_assoc, Int.mul_comm d]
  . intro hcop
    rw [hnone.mpr hcop]
    rfl

end Remainder

section Power

variable {num den : Int}

theorem value_rat (num den : Int) : (rat num den).value = (num / den : ℚ) :=
  rfl

theorem value_int (i : Int) : (int i).value = i := by
  unfold RatObj.value
  rw [RatObj.den, cast_one, div_one]
  rfl

theorem zpow_eq_of_neg (num den : Int) {n : Int} (hn : n < 0)
    : (num / den : ℚ) ^ n = ((den ^ (-n).toNat : Int) : ℚ) / ((num ^ (-n).toNat : Int) : ℚ) := by
  obtain ⟨k, hk⟩ := eq_ofNat_of_zero_le (show 0 ≤ -n by omega)
  rw [hk, toNat_natCast, show n = -(k : Int) by omega, zpow_neg, zpow_natCast, ← inv_pow,
    inv_div, div_pow, cast_pow, cast_pow]

theorem one_lt_abs_pow {k : Nat} (hk : k ≠ 0) (h0 : num ≠ 0) (h1 : num ≠ 1) (hneg : num ≠ -1)
    : 1 < |num ^ k| := by
  rw [abs_pow]
  apply one_lt_pow₀ _ hk
  rw [abs_eq_natAbs]
  omega

theorem powRat_spec (h : (rat num den).IsCanonical) (n : Int)
    : ∃ z : CanonicalRat, powRat num den n = z.obj ∧ z.value = (num / den : ℚ) ^ n := by
  have hcop : IsCoprime num den := h.isCoprime
  have hden : 1 < den := h.1
  have hpow {k : Nat} : IsCoprime (num ^ k) (den ^ k) := hcop.pow
  unfold powRat
  split
  . next h0 =>
    refine ⟨⟨int 1, trivial⟩, rfl, (value_int 1).trans ?_⟩
    rw [h0, zpow_zero, cast_one]
  . next h0 =>
    split
    . next h1 =>
      refine ⟨⟨rat num den, h⟩, rfl, ?_⟩
      rw [h1, zpow_one]
      rfl
    . next h1 =>
      split
      . next hpos =>
        have hlt : 1 < den ^ n.toNat := one_lt_pow₀ hden (by omega)
        refine ⟨⟨rat _ _, hlt, Int.isCoprime_iff_gcd_eq_one.mp hpow⟩, rfl, ?_⟩
        obtain ⟨k, rfl⟩ := eq_ofNat_of_zero_le (Int.le_of_lt hpos)
        rw [zpow_natCast, div_pow]
        exact (value_rat _ _).trans (by push_cast [toNat_natCast]; rfl)
      . next hpos =>
        have hneg : n < 0 := by omega
        have hk : (-n).toNat ≠ 0 := by omega
        rw [zpow_eq_of_neg num den hneg]
        generalize (-n).toNat = k at hk
        split
        . next hone =>
          refine ⟨⟨int _, trivial⟩, rfl, (value_int _).trans ?_⟩
          rw [hone, one_pow, cast_one, div_one]
        . next hone =>
          split
          . next hminus =>
            refine ⟨⟨int _, trivial⟩, rfl, (value_int _).trans ?_⟩
            rw [hminus]
            rcases neg_one_pow_eq_or Int k with heq | heq
            . rw [heq, one_mul, cast_one, div_one]
            . rw [heq, neg_one_mul, cast_neg, cast_neg, cast_one, div_neg, div_one]
          . next hminus =>
            have hnum : num ≠ 0 := by
              intro hzero
              rw [hzero, isCoprime_zero_left, isUnit_iff] at hcop
              omega
            have habs := one_lt_abs_pow hk hnum hone hminus
            dsimp only
            split
            . next hlt =>
              rw [abs_of_neg hlt] at habs
              refine ⟨⟨rat _ _, habs, ?_⟩, rfl, ?_⟩
              . exact Int.isCoprime_iff_gcd_eq_one.mp hpow.symm.neg_neg
              . refine (value_rat _ _).trans ?_
                rw [cast_neg, cast_neg, neg_div_neg_eq]
            . next hle =>
              rw [abs_of_nonneg (Int.not_lt.mp hle)] at habs
              exact ⟨⟨rat _ _, habs, Int.isCoprime_iff_gcd_eq_one.mp hpow.symm⟩, rfl,
                value_rat _ _⟩

end Power

theorem rational_spec (x y : CanonicalRat)
    : (∃ z : CanonicalRat, sumRat x.obj y.obj = z.obj ∧ z.value = x.value + y.value)
        ∧ (∃ z : CanonicalRat, diffRat x.obj y.obj = z.obj ∧ z.value = x.value - y.value)
        ∧ (∃ z : CanonicalRat, prodRat x.obj y.obj = z.obj ∧ z.value = x.value * y.value)
        ∧ (y.value ≠ 0 → ∃ z : CanonicalRat, quoRat x.obj y.obj = .ok z.obj
          ∧ z.value = x.value / y.value)
        ∧ (y.value = 0 → quoRat x.obj y.obj
          = .error (.quit "Rational operations: <divisor> must not be zero" 0 0))
        ∧ (∃ z : CanonicalRat, aInvRat x.obj = z.obj ∧ z.value = -x.value)
        ∧ (x.value ≠ 0 → ∃ z : CanonicalRat, invRat x.obj = .ok (some z.obj) ∧ z.value = x.value⁻¹)
        ∧ (x.value = 0 → invRat x.obj = .ok none)
        ∧ (∃ z : CanonicalRat, absRat x.obj = z.obj ∧ z.value = |x.value|)
        ∧ (∀ num den, x.obj = rat num den → ∀ n, ∃ z : CanonicalRat, powRat num den n = z.obj
          ∧ z.value = x.value ^ n)
        ∧ (eqRat x.obj y.obj = true ↔ x.value = y.value)
        ∧ (ltRat x.obj y.obj = true ↔ x.value < y.value)
        ∧ ∀ n, n ≠ 0
          → (IsCoprime x.obj.den n → ∃ k, modRat x.obj n = .ok k ∧ 0 ≤ k ∧ k < |n|
              ∧ k * x.obj.den ≡ x.obj.num [ZMOD n])
            ∧ (¬IsCoprime x.obj.den n → modRat x.obj n = .error (.quit
              "ModRat: for <r>/<s> mod <n>, <s>/gcd(<r>,<s>) and <n> must be coprime" 0 0)) := by
  refine ⟨sumRat_spec x y, diffRat_spec x y, prodRat_spec x y, quoRat_spec x y, quoRat_zero x y,
    aInvRat_spec x, (invRat_spec x).2, (invRat_spec x).1, absRat_spec x, ?_, eqRat_spec x y,
    ltRat_spec x y, fun n hn => modRat_spec x hn⟩
  intro num den hobj n
  have hcan := x.canonical
  rw [hobj] at hcan
  obtain ⟨z, hz, hval⟩ := powRat_spec hcan n
  refine ⟨z, hz, hval.trans ?_⟩
  unfold CanonicalRat.value
  rw [hobj]
  rfl

theorem rational_spec_half
    : (∃ z : CanonicalRat, powRat 1 2 (-3) = z.obj ∧ z.value = (CanonicalRat.mk (rat 1 2)
          (by decide)).value ^ (-3 : Int))
        ∧ ∃ k, modRat (rat 1 2) 5 = .ok k ∧ 0 ≤ k ∧ k < |(5 : Int)| ∧ k * 2 ≡ 1 [ZMOD 5] := by
  obtain ⟨-, -, -, -, -, -, -, -, -, hpow, -, -, hmod⟩ :=
    rational_spec ⟨rat 1 2, by decide⟩ ⟨rat 1 2, by decide⟩
  exact ⟨hpow 1 2 rfl (-3),
    (hmod 5 (by decide)).1 (Int.isCoprime_iff_gcd_eq_one.mpr (by decide))⟩

end Rational
