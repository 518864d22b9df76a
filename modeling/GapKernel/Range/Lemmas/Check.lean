import GapKernel.Range.Impl

open Int

namespace RangeExpr

def value (l : RangeExpr) : List Int ⊕ RangeBag :=
  match l with
  | plist _ elms => .inl elms
  | range r => .inr r

end RangeExpr

structure RangeBag.IsSmall (w : IntSize) (r : RangeBag) : Prop where
  len : w.IsSmall r.len
  low : w.IsSmall r.low
  elms : ∀ z ∈ r.elms, w.IsSmall z

def SmallResult (w : IntSize) (res : Result RangeExpr) : Prop :=
  ∀ r, res = .ok (.range r) → r.IsSmall w

/--
Compiled code and the executor return the same value or the same error, and every range that they
return is small.
-/
structure RangesAgree (w : IntSize) (first : Int) (second : Option Int) (last : Int) : Prop where
  same : (rangeCheck w first second last).map RangeExpr.value
    = (evalRangeExpr w first second last).map RangeExpr.value
  compiled : SmallResult w (rangeCheck w first second last)
  executor : SmallResult w (evalRangeExpr w first second last)

def rangeInc (first : Int) (second : Option Int) : Int :=
  match second with
  | none => 1
  | some second => second - first

def LengthFits (w : IntSize) (first : Int) (second : Option Int) (last : Int) : Prop :=
  second ≠ some first → rangeInc first second ∣ last - first →
    (last - first) / rangeInc first second + 1 ≤ w.intIntobjMax

namespace RangesAgree

variable {w : IntSize} {first last : Int} {second : Option Int}

theorem wrap_sub {x y : Int} (hx : w.IsSmall x) (hy : w.IsSmall y) : w.wrap (x - y) = x - y := by
  apply w.wrap_of_isInt
  rw [IntSize.isSmall_iff] at hx hy
  rw [IntSize.isInt_iff]
  omega

theorem rangeInc_eq_zero_iff : rangeInc first second = 0 ↔ second = some first := by
  unfold rangeInc
  cases second with
  | none => simp
  | some second =>
    simp only [Option.some.injEq]
    omega

theorem rangeInc_bounds (hfirst : w.IsSmall first) (hsecond : ∀ x ∈ second, w.IsSmall x)
    : -2 * 2 ^ w.nrSmallIntBits ≤ rangeInc first second
        ∧ rangeInc first second < 2 * 2 ^ w.nrSmallIntBits := by
  have : (1 : Int) ≤ 2 ^ w.nrSmallIntBits := one_le_pow₀ (by omega)
  rw [IntSize.isSmall_iff] at hfirst
  unfold rangeInc
  cases second with
  | none =>
    simp only
    omega
  | some second =>
    have hx := hsecond second rfl
    rw [IntSize.isSmall_iff] at hx
    simp only
    omega

theorem wrap_len (hfirst : w.IsSmall first) (hlast : w.IsSmall last) (inc : Int)
    : w.wrap ((last - first).tdiv inc + 1) = (last - first).tdiv inc + 1 := by
  apply w.wrap_of_isInt
  have : (1 : Int) ≤ 2 ^ w.nrSmallIntBits := one_le_pow₀ (by omega)
  have := natAbs_tdiv_le_natAbs (last - first) inc
  rw [IntSize.isSmall_iff] at hfirst hlast
  rw [IntSize.isInt_iff]
  omega

def IsEmptyRange (first inc last : Int) : Prop :=
  (0 < inc ∧ last < first) ∨ (inc < 0 ∧ first < last)

instance (first inc last : Int) : Decidable (IsEmptyRange first inc last) :=
  inferInstanceAs (Decidable (_ ∨ _))

def outline (first inc last : Int) (empty one range : Result RangeExpr) : Result RangeExpr :=
  if inc = 0 then
    throw (.quit "Range: <second> must not be equal to <first> (%d)" first 0)
  else if ¬inc ∣ last - first then
    throw (.quit "Range: <last>-<first> (%d) must be divisible by <inc> (%d)" (last - first) inc)
  else if IsEmptyRange first inc last then
    empty
  else if first = last then
    one
  else
    range

section

variable (hfirst : w.IsSmall first) (hsecond : ∀ x ∈ second, w.IsSmall x) (hlast : w.IsSmall last)

include hfirst hsecond hlast

theorem rangeCheck_eq
    : rangeCheck w first second last
        =
      outline first (rangeInc first second) last (.ok (.plist .plist []))
        (.ok (.plist .plist [first]))
        (.ok (.range (newRange w ((last - first).tdiv (rangeInc first second) + 1) first
          (rangeInc first second)))) := by
  have hdist := wrap_sub hlast hfirst
  cases second with
  | none =>
    have hlen := wrap_len hfirst hlast 1
    rw [Int.tdiv_one] at hlen
    unfold rangeCheck range2Check outline rangeInc
    simp [hdist, hlen, IsEmptyRange]
    rfl
  | some second =>
    have hinc := wrap_sub (hsecond second rfl) hfirst
    have hlen := wrap_len hfirst hlast (second - first)
    unfold rangeCheck range3Check outline rangeInc
    simp only [hdist, hinc, hlen, dvd_iff_tmod_eq_zero, IsEmptyRange, sub_eq_zero, gt_iff_lt,
      eq_comm (a := first) (b := second)]
    rfl

theorem evalRangeExpr_eq
    : evalRangeExpr w first second last
        =
      outline first (rangeInc first second) last (.ok (.plist .plistEmpty []))
        (.ok (.plist .plistCycSsort [first]))
        (if (last - first).tdiv (rangeInc first second) + 1 > w.intIntobjMax then
          throw (.quit "Range: the length of a range must be a small integer" 0 0)
        else
          .ok (.range (newRange w ((last - first).tdiv (rangeInc first second) + 1) first
            (rangeInc first second)))) := by
  have hdist := wrap_sub hlast hfirst
  cases second with
  | none =>
    have hlen := wrap_len hfirst hlast 1
    unfold evalRangeExpr evalRangeExpr.evalInc outline rangeInc
    simp only [pure_bind, hdist, hlen, dvd_iff_tmod_eq_zero, IsEmptyRange]
    simp
    rfl
  | some second =>
    have hinc := wrap_sub (hsecond second rfl) hfirst
    have hlen := wrap_len hfirst hlast (second - first)
    unfold evalRangeExpr evalRangeExpr.evalInc outline rangeInc
    simp only [hinc, sub_eq_zero]
    split
    . rfl
    . simp only [pure_bind, hdist, hlen, dvd_iff_tmod_eq_zero, IsEmptyRange]
      rfl

end

structure IsLong (first inc last : Int) : Prop where
  inc_ne : inc ≠ 0
  dvd : inc ∣ last - first
  nonempty : ¬IsEmptyRange first inc last
  ne : first ≠ last

theorem outline_of_isLong {inc : Int} (h : IsLong first inc last)
    (empty one range : Result RangeExpr)
    : outline first inc last empty one range = range := by
  unfold outline
  simp [h.inc_ne, h.dvd, h.nonempty, h.ne]

theorem outline_of_not_isLong {inc : Int} (h : ¬IsLong first inc last)
    : (∃ e, ∀ empty one range, outline first inc last empty one range = .error e)
        ∨ (∀ empty one range, outline first inc last empty one range = empty)
        ∨ ∀ empty one range, outline first inc last empty one range = one := by
  by_cases hinc : inc = 0
  . left
    exact ⟨_, fun _ _ _ => if_pos hinc⟩
  . by_cases hdvd : inc ∣ last - first
    . right
      by_cases hempty : IsEmptyRange first inc last
      . left
        intros
        simp [outline, hinc, hdvd, hempty]
      . right
        have hone : first = last := by
          by_contra hne
          exact h ⟨hinc, hdvd, hempty, hne⟩
        intros
        unfold outline
        rw [if_neg hinc]
        rw [if_neg (not_not.mpr hdvd)]
        rw [if_neg hempty]
        rw [if_pos hone]
    . left
      exact ⟨_, fun _ _ _ => (if_neg hinc).trans (if_pos hdvd)⟩

namespace IsLong

variable {inc : Int}

theorem exists_quotient (h : IsLong first inc last) : ∃ q, 0 < q ∧ last - first = inc * q := by
  obtain ⟨q, hq⟩ := h.dvd
  have hempty := h.nonempty
  have hne := h.ne
  unfold IsEmptyRange at hempty
  refine ⟨q, ?_, hq⟩
  by_contra hq
  cases Int.lt_or_gt_of_ne h.inc_ne with
  | inl hneg =>
    have : 0 ≤ inc * q := Int.mul_nonneg_of_nonpos_of_nonpos (by omega) (by omega)
    omega
  | inr hpos =>
    have : inc * q ≤ 0 := Int.mul_nonpos_of_nonneg_of_nonpos (by omega) (by omega)
    omega

theorem isSmall_add {q pos : Int} (hfirst : w.IsSmall first) (hlast : w.IsSmall last)
    (hq : last - first = inc * q) (hpos : 0 ≤ pos) (hle : pos ≤ q)
    : w.IsSmall (first + pos * inc) := by
  rw [IntSize.isSmall_iff] at *
  rw [mul_comm]
  cases Int.le_total inc 0 with
  | inl hneg =>
    have : inc * q ≤ inc * pos := Int.mul_le_mul_of_nonpos_left hneg hle
    have : inc * pos ≤ 0 := Int.mul_nonpos_of_nonpos_of_nonneg hneg hpos
    omega
  | inr hneg =>
    have : inc * pos ≤ inc * q := Int.mul_le_mul_of_nonneg_left hle hneg
    have : 0 ≤ inc * pos := Int.mul_nonneg hneg hpos
    omega

end IsLong

theorem isSmall_newRange (hfirst : w.IsSmall first) (hsecond : ∀ x ∈ second, w.IsSmall x)
    (hlast : w.IsSmall last) (hlong : IsLong first (rangeInc first second) last)
    (hfits : (last - first).tdiv (rangeInc first second) + 1 ≤ w.intIntobjMax)
    : (newRange w ((last - first).tdiv (rangeInc first second) + 1) first
        (rangeInc first second)).IsSmall w := by
  have hbounds := rangeInc_bounds hfirst hsecond
  generalize rangeInc first second = inc at *
  obtain ⟨q, hpos, hq⟩ := hlong.exists_quotient
  rw [hq, mul_tdiv_cancel_left q hlong.inc_ne] at hfits ⊢
  have hlen : w.IsSmall (q + 1) := by
    constructor
    . unfold IntSize.intIntobjMin
      have : (0 : Int) < 2 ^ w.nrSmallIntBits := by positivity
      omega
    . apply hfits
  unfold newRange
  rw [IntSize.intobj_of_isSmall hlen]
  rw [IntSize.intobj_of_isSmall hfirst]
  rw [IntSize.intobj_of_bounds hbounds.1 hbounds.2]
  refine ⟨hlen, hfirst, ?_⟩
  intro z hz
  rw [RangeBag.mem_elms] at hz
  obtain ⟨pos, hlt, rfl⟩ := hz
  simp only at hlt
  apply IsLong.isSmall_add hfirst hlast hq
  . omega
  . omega

theorem lengthFits_of_not_isLong (h : ¬IsLong first (rangeInc first second) last)
    : LengthFits w first second last := by
  intro hne hdvd
  have hmax : 1 ≤ w.intIntobjMax := by
    cases w with
    | int4 => decide
    | int8 => decide
  have hinc : rangeInc first second ≠ 0 := by
    intro h0
    apply hne
    rwa [rangeInc_eq_zero_iff] at h0
  generalize rangeInc first second = inc at *
  obtain ⟨q, hq⟩ := hdvd
  rw [hq, mul_ediv_cancel_left q hinc]
  suffices q ≤ 0 by omega
  by_contra hpos
  apply h
  refine ⟨hinc, ⟨q, hq⟩, ?_, ?_⟩
  . rintro (⟨hinc, hlt⟩ | ⟨hinc, hlt⟩)
    . have : 0 ≤ inc * q := Int.mul_nonneg (by omega) (by omega)
      omega
    . have : inc * q ≤ 0 := Int.mul_nonpos_of_nonpos_of_nonneg (by omega) (by omega)
      omega
  . intro heq
    rw [heq, sub_self] at hq
    rcases Int.mul_eq_zero.mp hq.symm with h0 | h0
    . apply hinc h0
    . omega

theorem lengthFits_iff_of_isLong (h : IsLong first (rangeInc first second) last)
    : LengthFits w first second last
        ↔ (last - first).tdiv (rangeInc first second) + 1 ≤ w.intIntobjMax := by
  have hne : second ≠ some first := by
    intro heq
    rw [← rangeInc_eq_zero_iff] at heq
    exact h.inc_ne heq
  rw [tdiv_eq_ediv_of_dvd h.dvd]
  constructor
  . intro hfits
    exact hfits hne h.dvd
  . intro hle _ _
    exact hle

end RangesAgree

open RangesAgree in
theorem rangesAgree_iff (w : IntSize) {first last : Int} {second : Option Int}
    (hfirst : w.IsSmall first) (hsecond : ∀ x ∈ second, w.IsSmall x) (hlast : w.IsSmall last)
    : RangesAgree w first second last ↔ LengthFits w first second last := by
  have hcompiled := rangeCheck_eq hfirst hsecond hlast
  have hexecutor := evalRangeExpr_eq hfirst hsecond hlast
  by_cases hlong : IsLong first (rangeInc first second) last
  . rw [outline_of_isLong hlong] at hcompiled hexecutor
    rw [lengthFits_iff_of_isLong hlong]
    constructor
    . intro hagree
      by_contra hfits
      have hsame := hagree.same
      rw [hcompiled, hexecutor, if_pos (by omega)] at hsame
      contradiction
    . intro hfits
      have hsmall := isSmall_newRange hfirst hsecond hlast hlong hfits
      rw [if_neg (by omega)] at hexecutor
      constructor
      . rw [hcompiled, hexecutor]
      . rw [hcompiled]
        rintro r ⟨⟩
        exact hsmall
      . rw [hexecutor]
        rintro r ⟨⟩
        exact hsmall
  . apply iff_of_true
    . rcases outline_of_not_isLong hlong with ⟨e, h⟩ | h | h
      . rw [h] at hcompiled hexecutor
        constructor <;> simp [hcompiled, hexecutor, SmallResult]
      . rw [h] at hcompiled hexecutor
        constructor <;> simp [hcompiled, hexecutor, SmallResult, Except.map, RangeExpr.value]
      . rw [h] at hcompiled hexecutor
        constructor <;> simp [hcompiled, hexecutor, SmallResult, Except.map, RangeExpr.value]
    . apply lengthFits_of_not_isLong hlong

theorem rangesAgree_oneThreeSeven : RangesAgree .int8 1 (some 3) 7 := by
  rw [rangesAgree_iff .int8 (by decide) (by decide) (by decide)]
  intro _ _
  decide

/-- `[-2^60..2^60-1]`, which the executor rejects. -/
theorem not_rangesAgree_allSmallInts
    : ¬RangesAgree .int8 (-2 ^ 60) none (2 ^ 60 - 1) := by
  intro h
  have hsame := h.same
  have hexecutor : evalRangeExpr .int8 (-2 ^ 60) none (2 ^ 60 - 1)
      = .error (.quit "Range: the length of a range must be a small integer" 0 0) := by
    rfl
  have hcompiled : rangeCheck .int8 (-2 ^ 60) none (2 ^ 60 - 1)
      = .ok (.range { tnum := .ssort, len := -2 ^ 61, low := -2 ^ 60, inc := 1 }) := by
    rfl
  rw [hexecutor, hcompiled] at hsame
  contradiction
