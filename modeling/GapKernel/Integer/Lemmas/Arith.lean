import GapKernel.Integer.Lemmas.Value

open Int

namespace Integer

variable {w : IntSize} {op opL opR : IntegerObj} {a b : Int}

section

variable (h : Represents w op a)

include h

theorem Represents.eq_INTOBJ_INT_iff {i : Int} (hi : w.IsSmall i)
    : op = INTOBJ_INT w i ↔ a = i := by
  rw [Integer.eq_INTOBJ_INT_iff h.1 hi, h.2]

theorem Represents.eq_zero_iff : op = INTOBJ_INT w 0 ↔ a = 0 :=
  h.eq_INTOBJ_INT_iff (isSmall_zero w)

theorem Represents.eq_INTOBJ_MIN_iff
    : op = INTOBJ_MIN w ↔ a = -(w.minusIntobjMin : Int) := by
  rw [Integer.eq_INTOBJ_MIN_iff h.1, h.2]

theorem Represents.isMinusIntobjMin_iff
    : isMinusIntobjMin w op = true ↔ a = w.minusIntobjMin := by
  rw [Integer.isMinusIntobjMin_iff h.1, h.2]

end

theorem represents_INTOBJ_MIN (w : IntSize)
    : Represents w (INTOBJ_MIN w) (-(w.minusIntobjMin : Int)) := by
  unfold INTOBJ_MIN
  rw [← intIntobjMin_eq]
  apply represents_INTOBJ_INT
  rw [isSmall_iff_lt, intIntobjMin_eq]
  have := minusIntobjMin_pos w
  omega

theorem Represents.of_intobj {o : Int} (h : Represents w (.intobj o) a)
    : w.IsSmall a ∧ o = 4 * a + 1 := by
  obtain ⟨⟨i, hi, rfl⟩, hval⟩ := h
  simp only [val, INT_INTOBJ_eq] at hval
  rw [← hval]
  exact ⟨hi, rfl⟩

theorem Represents.natAbs_lt (h : Represents w op a) : a.natAbs < w.limbBase ^ sizeInt op := by
  rw [← h.2]
  cases op with
  | intobj o =>
    obtain ⟨hsmall, _⟩ := h.of_intobj
    rw [← h.2] at hsmall
    simpa [sizeInt] using natAbs_lt_of_isSmall hsmall
  | intpos limbs =>
    simp only [val, sizeInt]
    rw [natAbs_natCast]
    apply h.1.1.lt_pow (one_lt_limbBase w)
  | intneg limbs =>
    simp only [val, sizeInt]
    rw [natAbs_neg, natAbs_natCast]
    apply h.1.1.lt_pow (one_lt_limbBase w)

theorem represents_aInvInt (h : Represents w op a) : Represents w (aInvInt w op) (-a) := by
  cases op with
  | intobj o =>
    obtain ⟨hsmall, ho⟩ := h.of_intobj
    rw [isSmall_iff_lt] at hsmall
    unfold aInvInt
    simp only [h.eq_INTOBJ_MIN_iff]
    split
    . next hmin =>
      rw [hmin, neg_neg]
      apply represents_minusIntobjMin
    . next hmin =>
      rw [ho, INT_INTOBJ_eq]
      apply represents_INTOBJ_INT
      rw [isSmall_iff_lt]
      omega
  | intpos limbs =>
    unfold aInvInt
    simp only [h.isMinusIntobjMin_iff]
    split
    . next hmin =>
      rw [hmin]
      apply represents_INTOBJ_MIN
    . next hmin =>
      obtain ⟨⟨hnormal, hlt⟩, hval⟩ := h
      rw [intIntobjMax_eq] at hlt
      simp only [val] at hval
      refine ⟨⟨hnormal, by omega⟩, ?_⟩
      simp only [val]
      omega
  | intneg limbs =>
    obtain ⟨⟨hnormal, hlt⟩, hval⟩ := h
    simp only [val] at hval
    refine ⟨⟨hnormal, ?_⟩, ?_⟩
    . rw [intIntobjMax_eq]
      omega
    . unfold aInvInt
      simp only [val]
      omega

theorem represents_absInt (h : Represents w op a) : Represents w (absInt w op) |a| := by
  cases op with
  | intobj o =>
    obtain ⟨hsmall, ho⟩ := h.of_intobj
    rw [isSmall_iff_lt] at hsmall
    unfold absInt
    dsimp only
    split
    . next hpos =>
      rw [abs_of_nonneg (by omega)]
      exact h
    . next hneg =>
      simp only [h.eq_INTOBJ_MIN_iff]
      rw [abs_of_neg (by omega)]
      split
      . next hmin =>
        rw [hmin, neg_neg]
        apply represents_minusIntobjMin
      . next hmin =>
        have : 2 - o = 4 * (-a) + 1 := by omega
        rw [this]
        apply represents_INTOBJ_INT
        rw [isSmall_iff_lt]
        omega
  | intpos limbs =>
    have hval := h.2
    simp only [val] at hval
    rw [abs_of_nonneg (by omega)]
    exact h
  | intneg limbs =>
    have hval := h.2
    simp only [val] at hval
    rw [abs_of_nonpos (by omega)]
    apply represents_aInvInt h

section Intobjs

theorem detectIntobjOverflow_eq_false {o : Int} (h : w.IsInt o)
    : detectIntobjOverflow w o = false
        ↔ -4 * (w.minusIntobjMin : Int) ≤ o ∧ o < 4 * (w.minusIntobjMin : Int) := by
  unfold detectIntobjOverflow
  rw [decide_eq_false_iff_not]
  cases w <;> simp only [IntSize.IsInt, IntSize.bits, IntSize.minusIntobjMin,
    IntSize.nrSmallIntBits] at * <;> omega

theorem represents_of_not_detect {x : Int} (hword : w.IsInt (4 * x + 1))
    (h : detectIntobjOverflow w (4 * x + 1) = false)
    : Represents w (.intobj (4 * x + 1)) x := by
  rw [detectIntobjOverflow_eq_false hword] at h
  apply represents_intobj
  rw [isSmall_iff_lt]
  omega

theorem represents_sumIntobjs {l r sum : Int} (hl : Represents w (.intobj l) a)
    (hr : Represents w (.intobj r) b) (h : sumIntobjs w l r = some sum)
    : Represents w (.intobj sum) (a + b) := by
  obtain ⟨hsmalll, rfl⟩ := hl.of_intobj
  obtain ⟨hsmallr, rfl⟩ := hr.of_intobj
  rw [isSmall_iff_lt] at hsmalll hsmallr
  unfold sumIntobjs at h
  have hword : w.IsInt (4 * (a + b) + 1) := by
    rw [isInt_iff_lt]
    omega
  rw [show 4 * a + 1 + (4 * b + 1) - 1 = 4 * (a + b) + 1 by ring, w.wrap_of_isInt hword] at h
  dsimp only at h
  split at h
  . contradiction
  . next hdetect =>
    rw [Option.some.injEq] at h
    rw [← h]
    apply represents_of_not_detect hword
    simpa using hdetect

theorem represents_diffIntobjs {l r dif : Int} (hl : Represents w (.intobj l) a)
    (hr : Represents w (.intobj r) b) (h : diffIntobjs w l r = some dif)
    : Represents w (.intobj dif) (a - b) := by
  obtain ⟨hsmalll, rfl⟩ := hl.of_intobj
  obtain ⟨hsmallr, rfl⟩ := hr.of_intobj
  rw [isSmall_iff_lt] at hsmalll hsmallr
  unfold diffIntobjs at h
  have hword : w.IsInt (4 * (a - b) + 1) := by
    rw [isInt_iff_lt]
    omega
  rw [show 4 * a + 1 - (4 * b + 1) + 1 = 4 * (a - b) + 1 by ring, w.wrap_of_isInt hword] at h
  dsimp only at h
  split at h
  . contradiction
  . next hdetect =>
    rw [Option.some.injEq] at h
    rw [← h]
    apply represents_of_not_detect hword
    simpa using hdetect

end Intobjs

variable (P : Platform w)

theorem natAbs_add_lt {m n : Nat} (ha : a.natAbs < w.limbBase ^ m) (hb : b.natAbs < w.limbBase ^ n)
    : (a + b).natAbs < w.limbBase ^ (max m n + 1) := by
  have hB := one_lt_limbBase w
  have hm : w.limbBase ^ m ≤ w.limbBase ^ max m n :=
    Nat.pow_le_pow_right (by omega) (le_max_left m n)
  have hn : w.limbBase ^ n ≤ w.limbBase ^ max m n :=
    Nat.pow_le_pow_right (by omega) (le_max_right m n)
  calc (a + b).natAbs ≤ a.natAbs + b.natAbs := natAbs_add_le a b
    _ < w.limbBase ^ max m n * 2 := by omega
    _ ≤ w.limbBase ^ max m n * w.limbBase := Nat.mul_le_mul_left _ hB
    _ = w.limbBase ^ (max m n + 1) := (pow_succ _ _).symm

variable (hL : Represents w opL a) (hR : Represents w opR b)

include hL hR

theorem represents_sumOrDiffInt {sign : Int} (hsign : sign = 1 ∨ sign = -1)
    : Represents w (sumOrDiffInt P opL opR sign) (a + sign * b) := by
  unfold sumOrDiffInt
  simp only [hR.eq_zero_iff, hL.eq_zero_iff]
  have halloc : (if sizeInt opL > sizeInt opR then sizeInt opL + 1 else sizeInt opR + 1)
      = max (sizeInt opL) (sizeInt opR) + 1 := by
    split
    . omega
    . omega
  rw [halloc]
  have hmpzL := isMpz_fakeMpzOfObj hL.1
  have hmpzR := isMpz_fakeMpzOfObj hR.1
  split
  . next hzero =>
    rw [hzero, mul_zero, add_zero]
    exact hL
  . split
    . next hzero =>
      rw [hzero, zero_add]
      cases hsign with
      | inl hone =>
        rw [if_pos hone, hone, one_mul]
        exact hR
      | inr hminus =>
        rw [if_neg (by omega), hminus, neg_one_mul]
        apply represents_aInvInt hR
    . cases hsign with
      | inl hone =>
        rw [if_pos hone, hone, one_mul, P.mpzAdd_eq _ _ _ hmpzL hmpzR,
          val_fakeMpzOfObj hL.1, val_fakeMpzOfObj hR.1, hL.2, hR.2]
        . apply represents_objOfFakeMpz (by omega)
          apply natAbs_add_lt hL.natAbs_lt hR.natAbs_lt
        . rw [length_fakeMpzOfObj, length_fakeMpzOfObj]
      | inr hminus =>
        rw [if_neg (by omega), hminus, neg_one_mul, P.mpzSub_eq _ _ _ hmpzL hmpzR,
          val_fakeMpzOfObj hL.1, val_fakeMpzOfObj hR.1, hL.2, hR.2, ← sub_eq_add_neg]
        . apply represents_objOfFakeMpz (by omega)
          rw [sub_eq_add_neg]
          apply natAbs_add_lt hL.natAbs_lt
          rw [natAbs_neg]
          apply hR.natAbs_lt
        . rw [length_fakeMpzOfObj, length_fakeMpzOfObj]

theorem represents_sumInt
    : Represents w (sumInt P opL opR) (a + b) := by
  have hlarge := represents_sumOrDiffInt P hL hR (Or.inl rfl)
  rw [one_mul] at hlarge
  unfold sumInt
  split
  . split
    . next hsum => apply represents_sumIntobjs hL hR hsum
    . exact hlarge
  . exact hlarge

theorem represents_diffInt
    : Represents w (diffInt P opL opR) (a - b) := by
  have hlarge := represents_sumOrDiffInt P hL hR (Or.inr rfl)
  rw [neg_one_mul, ← sub_eq_add_neg] at hlarge
  unfold diffInt
  split
  . split
    . next hdif => apply represents_diffIntobjs hL hR hdif
    . exact hlarge
  . exact hlarge

end Integer

namespace Integer

variable {w : IntSize} {opL opR : IntegerObj} {a b : Int}

theorem flipBit0_odd (x : Int) : flipBit0 (4 * x + 1) = 4 * x := by
  unfold flipBit0
  split
  . omega
  . omega

theorem flipBit0_even (x : Int) : flipBit0 (4 * x) = 4 * x + 1 := by
  unfold flipBit0
  split
  . omega
  . omega

theorem shiftRight_one (x : Int) : x >>> (1 : Nat) = x / 2 := by
  rw [shiftRight_eq_div_pow]
  norm_num

variable {l r prd : Int}

theorem represents_prodIntobjs_builtin (hl : Represents w (.intobj l) a)
    (hr : Represents w (.intobj r) b) (h : prodIntobjs w true l r = some prd)
    : Represents w (.intobj prd) (a * b) := by
  obtain ⟨hsmalll, rfl⟩ := hl.of_intobj
  obtain ⟨hsmallr, rfl⟩ := hr.of_intobj
  unfold prodIntobjs at h
  rw [if_pos rfl] at h
  have hprod : (4 * a + 1) >>> (1 : Nat) * flipBit0 (4 * b + 1) = 8 * (a * b) := by
    rw [flipBit0_odd, shiftRight_one, show (4 * a + 1) / 2 = 2 * a by omega]
    ring
  dsimp only at h
  rw [hprod] at h
  split at h
  . next hword =>
    rw [Option.some.injEq] at h
    have hshift : (8 * (a * b)) >>> (1 : Nat) = 4 * (a * b) := by
      rw [shiftRight_one]
      omega
    rw [← h, hshift, flipBit0_even]
    apply represents_intobj
    rw [isInt_iff_lt] at hword
    rw [isSmall_iff_lt]
    omega
  . contradiction

-- A product that is too large is off by a multiple of the number of words.
theorem wrap_product (w : IntSize) (a b : Int)
    : ∃ p t, w.wrap ((4 * a + 1) % 2 ^ w.bits / 4 * (4 * b + 1 - 1) + 1) = 4 * p + 1
        ∧ p = a * b + 4 * w.minusIntobjMin * t := by
  obtain ⟨u, hu⟩ : ∃ u, (4 * a + 1) % 2 ^ w.bits / 4 = a + 4 * w.minusIntobjMin * u := by
    refine ⟨-((4 * a + 1) / 2 ^ w.bits), ?_⟩
    cases w <;> simp only [IntSize.bits, IntSize.minusIntobjMin, IntSize.nrSmallIntBits] <;> omega
  have hfactor : (4 * a + 1) % 2 ^ w.bits / 4 * (4 * b + 1 - 1) + 1
      = 4 * (a * b + 4 * w.minusIntobjMin * (u * b)) + 1 := by
    rw [hu]
    ring
  rw [hfactor]
  generalize hx : a * b + 4 * w.minusIntobjMin * (u * b) = x
  obtain ⟨v, hv⟩ : ∃ v, w.wrap (4 * x + 1) = 4 * x + 1 + 16 * w.minusIntobjMin * v := by
    refine ⟨-(4 * x + 1).bdiv w.limbBase, ?_⟩
    have hdiv := bmod_add_bdiv (4 * x + 1) w.limbBase
    rw [show (w.limbBase : Int) = 16 * w.minusIntobjMin by exact_mod_cast limbBase_eq w] at hdiv
    unfold IntSize.wrap
    change (4 * x + 1).bmod w.limbBase = 4 * x + 1 + 16 * w.minusIntobjMin * -(4 * x + 1).bdiv w.limbBase
    linarith
  refine ⟨x + 4 * w.minusIntobjMin * v, u * b + v, ?_, ?_⟩
  . rw [hv]
    ring
  . rw [← hx]
    ring

theorem abs_le_of_isHalfInt (h : prodIntobjs.isHalfInt w (4 * a + 1) = true)
    : |a| ≤ 2 ^ (w.bits / 2 - 3) := by
  unfold prodIntobjs.isHalfInt at h
  rw [decide_eq_true_eq] at h
  rw [abs_le]
  cases w <;> simp only [IntSize.bits] at * <;> omega

theorem isSmall_of_half {k : Int} (h : |k| ≤ 2 ^ (w.bits / 2 - 3) * 2 ^ (w.bits / 2 - 3))
    : -(w.minusIntobjMin : Int) < k ∧ k < w.minusIntobjMin := by
  rw [abs_le] at h
  cases w <;> simp only [IntSize.bits, IntSize.minusIntobjMin, IntSize.nrSmallIntBits] at * <;> omega

-- Dividing by one of the factors finds out whether the product is too large.
theorem eq_zero_of_tdiv_eq {t M : Int} (hsmall : |a| ≤ M)
    (hne : a ≠ 0) (h : (4 * (a * b + 4 * M * t)).tdiv a = 4 * b)
    : t = 0 := by
  have hdiv := mul_tdiv_add_tmod (4 * (a * b + 4 * M * t)) a
  have hlt : ((4 * (a * b + 4 * M * t)).tmod a).natAbs < a.natAbs := by
    rw [natAbs_tmod]
    apply Nat.mod_lt
    omega
  rw [h] at hdiv
  have hrem : (4 * (a * b + 4 * M * t)).tmod a = 16 * M * t := by linarith
  rw [hrem] at hlt
  have hlt' : |16 * M * t| < |a| := by
    rw [abs_eq_natAbs, abs_eq_natAbs]
    exact_mod_cast hlt
  by_contra hne0
  have ht : 1 ≤ |t| := one_le_abs hne0
  have hM : 0 ≤ M := le_trans (abs_nonneg a) hsmall
  rw [abs_mul, abs_mul, abs_of_nonneg hM] at hlt'
  norm_num at hlt'
  nlinarith

theorem represents_prodIntobjs_fallback (hl : Represents w (.intobj l) a)
    (hr : Represents w (.intobj r) b) (h : prodIntobjs w false l r = some prd)
    : Represents w (.intobj prd) (a * b) := by
  have hsmalla := hl.of_intobj.1
  have hM := minusIntobjMin_pos w
  obtain ⟨_, rfl⟩ := hl.of_intobj
  obtain ⟨_, rfl⟩ := hr.of_intobj
  unfold prodIntobjs at h
  rw [if_neg (by simp)] at h
  split at h
  . next hzero =>
    rw [Option.some.injEq] at h
    have : a * b = 0 := by
      rw [mul_eq_zero]
      omega
    rw [← h, this]
    apply represents_intobj (isSmall_zero w)
  . next hne =>
    split at h
    . next hone =>
      rw [Option.some.injEq] at h
      rw [← h, show a = 1 by omega, one_mul]
      exact hr
    . split at h
      . next hone =>
        rw [Option.some.injEq] at h
        rw [← h, show b = 1 by omega, mul_one]
        exact hl
      . obtain ⟨p, t, hwrap, hp⟩ := wrap_product w a b
        dsimp only at h
        rw [hwrap] at h
        have hword : w.IsInt (4 * p + 1) := by
          rw [← hwrap]
          apply w.isInt_wrap
        split at h
        . contradiction
        . next hdetect =>
          have hsmallp := represents_of_not_detect hword (by simpa using hdetect)
          suffices t = 0 by
            have hmul : p = a * b := by
              rw [hp, this]
              ring
            rw [← hmul]
            split at h
            . rw [Option.some.injEq] at h
              rw [← h]
              exact hsmallp
            . split at h
              . rw [Option.some.injEq] at h
                rw [← h]
                exact hsmallp
              . contradiction
          split at h
          . next hhalf =>
            -- Both products are small, and they are congruent.
            have hle : |a * b| ≤ 2 ^ (w.bits / 2 - 3) * 2 ^ (w.bits / 2 - 3) := by
              rw [abs_mul]
              apply mul_le_mul (abs_le_of_isHalfInt hhalf.1) (abs_le_of_isHalfInt hhalf.2)
              . apply abs_nonneg
              . positivity
            have hab := isSmall_of_half hle
            have hp' := hsmallp.of_intobj.1
            rw [isSmall_iff_lt] at hp'
            by_contra hne0
            have : (w.minusIntobjMin : Int) ≤ w.minusIntobjMin * t ∨ w.minusIntobjMin * t ≤ -w.minusIntobjMin := by
              rcases lt_or_gt_of_ne hne0 with hneg | hpos
              . right
                nlinarith
              . left
                nlinarith
            rw [mul_assoc] at hp
            omega
          . split at h
            . next hdiv =>
              rw [isSmall_iff_lt] at hsmalla
              apply eq_zero_of_tdiv_eq (a := a) (b := b) (M := w.minusIntobjMin)
              . rw [abs_le]
                omega
              . omega
              . rw [← hp]
                have hshift : (4 * a + 1) >>> (2 : Nat) = a := INT_INTOBJ_eq a
                rw [hshift] at hdiv
                simpa using hdiv
            . contradiction

theorem represents_prodIntobjs {haveBuiltinMulOverflow : Bool} (hl : Represents w (.intobj l) a)
    (hr : Represents w (.intobj r) b) (h : prodIntobjs w haveBuiltinMulOverflow l r = some prd)
    : Represents w (.intobj prd) (a * b) := by
  cases haveBuiltinMulOverflow with
  | true => apply represents_prodIntobjs_builtin hl hr h
  | false => apply represents_prodIntobjs_fallback hl hr h

variable (P : Platform w)

theorem represents_prodInt_large (hL : Represents w opL a) (hR : Represents w opR b)
    : Represents w (prodInt.large P opL opR) (a * b) := by
  unfold prodInt.large
  simp only [hL.eq_zero_iff, hR.eq_zero_iff, hL.eq_INTOBJ_INT_iff (isSmall_one w),
    hR.eq_INTOBJ_INT_iff (isSmall_one w), hL.eq_INTOBJ_INT_iff (isSmall_minusOne w),
    hR.eq_INTOBJ_INT_iff (isSmall_minusOne w)]
  split
  . next htrivial =>
    have : a * b = a := by
      rcases htrivial with rfl | rfl
      . apply zero_mul
      . apply mul_one
    rw [this]
    exact hL
  . split
    . next htrivial =>
      have : a * b = b := by
        rcases htrivial with rfl | rfl
        . apply mul_zero
        . apply one_mul
      rw [this]
      exact hR
    . split
      . next hminus =>
        rw [hminus, mul_neg_one]
        apply represents_aInvInt hL
      . split
        . next hminus =>
          rw [hminus, neg_one_mul]
          apply represents_aInvInt hR
        . rw [P.mpzMul_eq _ _ _ (isMpz_fakeMpzOfObj hL.1) (isMpz_fakeMpzOfObj hR.1),
            val_fakeMpzOfObj hL.1, val_fakeMpzOfObj hR.1, hL.2, hR.2]
          . apply represents_objOfFakeMpz
            . have := hL.1.sizeInt_pos
              omega
            . rw [natAbs_mul, pow_add]
              apply Nat.mul_lt_mul'' hL.natAbs_lt hR.natAbs_lt
          . rw [length_fakeMpzOfObj, length_fakeMpzOfObj]

theorem represents_prodInt (hL : Represents w opL a) (hR : Represents w opR b)
    : Represents w (prodInt P opL opR) (a * b) := by
  have hlarge := represents_prodInt_large P hL hR
  unfold prodInt
  split
  . split
    . next hprd => apply represents_prodIntobjs hL hR hprd
    . exact hlarge
  . exact hlarge

end Integer
