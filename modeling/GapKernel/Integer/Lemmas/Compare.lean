import GapKernel.Integer.Lemmas.Arith

namespace Integer

variable {w : IntSize} {a b x : Int}

-- An operation that is exact when it succeeds, and that succeeds for every immediate result.
theorem eq_ite_of_represents {res : Option Int}
    (hexact : ∀ o, res = some o → Represents w (.intobj o) x)
    (hsucceeds : w.IsSmall x → res ≠ none)
    : res = if w.IsSmall x then some (4 * x + 1) else none := by
  cases hres : res with
  | none =>
    rw [if_neg]
    intro hsmall
    apply hsucceeds hsmall hres
  | some o =>
    have hobj := (hexact o hres).of_intobj
    rw [if_pos hobj.1]
    rw [hobj.2]

theorem detectIntobjOverflow_of_isSmall (h : w.IsSmall x)
    : detectIntobjOverflow w (4 * x + 1) = false := by
  rw [isSmall_iff_lt] at h
  rw [detectIntobjOverflow_eq_false]
  . omega
  . rw [isInt_iff_lt]
    omega

theorem sumIntobjs_ne_none (h : w.IsSmall (a + b))
    : sumIntobjs w (4 * a + 1) (4 * b + 1) ≠ none := by
  have hword : 4 * a + 1 + (4 * b + 1) - 1 = 4 * (a + b) + 1 := by ring
  have hdetect := detectIntobjOverflow_of_isSmall h
  rw [isSmall_iff_lt] at h
  unfold sumIntobjs
  rw [hword]
  rw [w.wrap_of_isInt (by rw [isInt_iff_lt]; omega)]
  simp [hdetect]

theorem diffIntobjs_ne_none (h : w.IsSmall (a - b))
    : diffIntobjs w (4 * a + 1) (4 * b + 1) ≠ none := by
  have hword : 4 * a + 1 - (4 * b + 1) + 1 = 4 * (a - b) + 1 := by ring
  have hdetect := detectIntobjOverflow_of_isSmall h
  rw [isSmall_iff_lt] at h
  unfold diffIntobjs
  rw [hword]
  rw [w.wrap_of_isInt (by rw [isInt_iff_lt]; omega)]
  simp [hdetect]

theorem prodIntobjs_builtin_ne_none (h : w.IsSmall (a * b))
    : prodIntobjs w true (4 * a + 1) (4 * b + 1) ≠ none := by
  have hprod : (4 * a + 1) >>> (1 : Nat) * flipBit0 (4 * b + 1) = 8 * (a * b) := by
    rw [flipBit0_odd]
    rw [shiftRight_one]
    rw [show (4 * a + 1) / 2 = 2 * a by omega]
    ring
  have hword : w.IsInt (8 * (a * b)) := by
    rw [isSmall_iff_lt] at h
    rw [isInt_iff_lt]
    omega
  unfold prodIntobjs
  rw [if_pos rfl]
  rw [hprod]
  rw [if_pos hword]
  simp

theorem wrap_product_of_isSmall (h : w.IsSmall (a * b))
    : w.wrap ((4 * a + 1) % 2 ^ w.bits / 4 * (4 * b + 1 - 1) + 1) = 4 * (a * b) + 1 := by
  rcases wrap_product w a b with ⟨p, t, ht⟩
  have hM := minusIntobjMin_pos w
  have hword := w.isInt_wrap ((4 * a + 1) % 2 ^ w.bits / 4 * (4 * b + 1 - 1) + 1)
  rw [ht.1] at hword
  rw [isInt_iff_lt] at hword
  rw [isSmall_iff_lt] at h
  have hzero : t = 0 := by
    have hpt := ht.2
    rw [mul_assoc] at hpt
    rcases lt_trichotomy t 0 with hneg | hzero | hpos
    . have : (w.minusIntobjMin : Int) * t ≤ -w.minusIntobjMin := by nlinarith
      omega
    . exact hzero
    . have : (w.minusIntobjMin : Int) ≤ w.minusIntobjMin * t := by nlinarith
      omega
  rw [ht.1]
  rw [ht.2]
  rw [hzero]
  ring

theorem prodIntobjs_fallback_ne_none (h : w.IsSmall (a * b))
    : prodIntobjs w false (4 * a + 1) (4 * b + 1) ≠ none := by
  unfold prodIntobjs
  rw [if_neg (by simp)]
  split
  . simp
  . next hzero =>
    split
    . simp
    . split
      . simp
      . have hdetect := detectIntobjOverflow_of_isSmall h
        dsimp only
        rw [wrap_product_of_isSmall h]
        rw [hdetect]
        rw [if_neg (by simp)]
        split
        . simp
        . -- The trial division finds the other factor.
          have hdiv : (4 * (a * b) + 1 - 1).tdiv ((4 * a + 1) >>> (2 : Nat)) = 4 * b + 1 - 1 := by
            have hshift : (4 * a + 1) >>> (2 : Nat) = a := INT_INTOBJ_eq a
            rw [hshift]
            rw [show 4 * (a * b) + 1 - 1 = a * (4 * b) by ring]
            rw [Int.mul_tdiv_cancel_left _ (by omega)]
            ring
          rw [if_pos hdiv]
          simp

section Exact

variable (ha : w.IsSmall a) (hb : w.IsSmall b)

include ha hb

theorem sumIntobjs_eq
    : sumIntobjs w (4 * a + 1) (4 * b + 1)
        = if w.IsSmall (a + b) then some (4 * (a + b) + 1) else none := by
  apply eq_ite_of_represents
  . intro o ho
    apply represents_sumIntobjs (represents_intobj ha) (represents_intobj hb) ho
  . apply sumIntobjs_ne_none

theorem diffIntobjs_eq
    : diffIntobjs w (4 * a + 1) (4 * b + 1)
        = if w.IsSmall (a - b) then some (4 * (a - b) + 1) else none := by
  apply eq_ite_of_represents
  . intro o ho
    apply represents_diffIntobjs (represents_intobj ha) (represents_intobj hb) ho
  . apply diffIntobjs_ne_none

theorem prodIntobjs_eq (haveBuiltinMulOverflow : Bool)
    : prodIntobjs w haveBuiltinMulOverflow (4 * a + 1) (4 * b + 1)
        = if w.IsSmall (a * b) then some (4 * (a * b) + 1) else none := by
  apply eq_ite_of_represents
  . intro o ho
    apply represents_prodIntobjs (represents_intobj ha) (represents_intobj hb) ho
  . intro hsmall
    cases haveBuiltinMulOverflow with
    | true => apply prodIntobjs_builtin_ne_none hsmall
    | false => apply prodIntobjs_fallback_ne_none hsmall

end Exact

def immediate (w : IntSize) (x : Int) : Option IntegerObj :=
  if w.intIntobjMin ≤ x ∧ x ≤ w.intIntobjMax then some (INTOBJ_INT w x) else none

theorem map_ite_isSmall (w : IntSize) (x : Int)
    : (if w.IsSmall x then some (4 * x + 1) else none).map IntegerObj.intobj = immediate w x := by
  unfold immediate
  change _ = if w.IsSmall x then some (INTOBJ_INT w x) else none
  split
  . next hsmall =>
    rw [INTOBJ_INT_eq hsmall]
    simp
  . simp

theorem intobjs_exact (l r : Int) (hl : IsCanonical w (.intobj l)) (hr : IsCanonical w (.intobj r))
    : (∀ haveBuiltinMulOverflow, (prodIntobjs w haveBuiltinMulOverflow l r).map IntegerObj.intobj
          = immediate w (INT_INTOBJ l * INT_INTOBJ r))
        ∧ prodIntobjs w true l r = prodIntobjs w false l r
        ∧ (sumIntobjs w l r).map IntegerObj.intobj = immediate w (INT_INTOBJ l + INT_INTOBJ r)
        ∧ (diffIntobjs w l r).map IntegerObj.intobj = immediate w (INT_INTOBJ l - INT_INTOBJ r) := by
  rcases hl with ⟨a, ha⟩
  rcases hr with ⟨b, hb⟩
  rw [ha.2]
  rw [hb.2]
  simp only [INT_INTOBJ_eq, prodIntobjs_eq ha.1 hb.1, sumIntobjs_eq ha.1 hb.1,
    diffIntobjs_eq ha.1 hb.1, map_ite_isSmall]
  simp

theorem intobjs_exact_three_minusTwo
    : (∀ haveBuiltinMulOverflow,
          (prodIntobjs .int8 haveBuiltinMulOverflow 13 (-7)).map IntegerObj.intobj
            = immediate .int8 (INT_INTOBJ 13 * INT_INTOBJ (-7)))
        ∧ prodIntobjs .int8 true 13 (-7) = prodIntobjs .int8 false 13 (-7)
        ∧ (sumIntobjs .int8 13 (-7)).map IntegerObj.intobj
            = immediate .int8 (INT_INTOBJ 13 + INT_INTOBJ (-7))
        ∧ (diffIntobjs .int8 13 (-7)).map IntegerObj.intobj
            = immediate .int8 (INT_INTOBJ 13 - INT_INTOBJ (-7)) := by
  apply intobjs_exact
  . exact ⟨3, by decide, by decide⟩
  . exact ⟨-2, by decide, by decide⟩

end Integer

namespace Integer

variable {w : IntSize} (P : Platform w) {opL opR : IntegerObj} {a b : Int}

theorem Represents.eq_iff (hL : Represents w opL a) (hR : Represents w opR b)
    : opL = opR ↔ a = b := by
  constructor
  . intro heq
    rw [← hL.2, ← hR.2, heq]
  . intro heq
    subst heq
    apply Represents.unique hL hR

variable {l r : List Nat}

theorem length_eq_and_mpnCmp_iff (hl : Limbs.IsNormal w.limbBase l)
    (hr : Limbs.IsNormal w.limbBase r)
    : (l.length = r.length ∧ P.mpnCmp l r = 0) ↔ l = r := by
  constructor
  . intro ⟨hlen, hcmp⟩
    rw [P.mpnCmp_eq l r hl.areLimbs hr.areLimbs hlen] at hcmp
    apply ofLimbs_injective hl hr hcmp
  . intro heq
    subst heq
    refine ⟨rfl, ?_⟩
    rw [P.mpnCmp_eq l l hl.areLimbs hl.areLimbs rfl]

theorem eqInt_iff (hL : Represents w opL a) (hR : Represents w opR b)
    : eqInt P opL opR = true ↔ a = b := by
  rw [← hL.eq_iff hR]
  unfold eqInt
  split
  . rw [decide_eq_true_eq, length_eq_and_mpnCmp_iff P hL.1.1 hR.1.1, IntegerObj.intpos.injEq]
  . rw [decide_eq_true_eq, length_eq_and_mpnCmp_iff P hL.1.1 hR.1.1, IntegerObj.intneg.injEq]
  . rw [decide_eq_true_eq]

section

variable (hl : Limbs.IsNormal w.limbBase l) (hr : Limbs.IsNormal w.limbBase r)

include hl hr

theorem compare_lt_iff
    : ltInt.compare P l r < 0 ↔ w.ofLimbs l < w.ofLimbs r := by
  have hB := one_lt_limbBase w
  unfold ltInt.compare
  split
  . next hlt =>
    have : w.ofLimbs l < w.ofLimbs r := hl.lt_of_length_lt hB hr hlt
    omega
  . split
    . next hgt =>
      have : w.ofLimbs r < w.ofLimbs l := hr.lt_of_length_lt hB hl hgt
      omega
    . rw [P.mpnCmp_lt l r hl.areLimbs hr.areLimbs (by omega)]

theorem compare_gt_iff
    : -ltInt.compare P l r < 0 ↔ w.ofLimbs r < w.ofLimbs l := by
  have hB := one_lt_limbBase w
  unfold ltInt.compare
  split
  . next hlt =>
    have : w.ofLimbs l < w.ofLimbs r := hl.lt_of_length_lt hB hr hlt
    omega
  . split
    . next hgt =>
      have : w.ofLimbs r < w.ofLimbs l := hr.lt_of_length_lt hB hl hgt
      omega
    . next hlt hgt =>
      have hlen : l.length = r.length := by omega
      have hlt := P.mpnCmp_lt l r hl.areLimbs hr.areLimbs hlen
      have heq := P.mpnCmp_eq l r hl.areLimbs hr.areLimbs hlen
      omega

end

theorem Represents.lt_of_intpos {limbs : List Nat} (h : Represents w (.intpos limbs) a)
    : (w.minusIntobjMin : Int) ≤ a := by
  have hlt := h.1.2
  rw [← h.2]
  rw [intIntobjMax_eq] at hlt
  simp only [val]
  omega

theorem Represents.lt_of_intneg {limbs : List Nat} (h : Represents w (.intneg limbs) a)
    : a < -(w.minusIntobjMin : Int) := by
  have hlt := h.1.2
  rw [← h.2]
  simp only [val]
  omega

theorem ltInt_iff (hL : Represents w opL a) (hR : Represents w opR b)
    : ltInt P opL opR = true ↔ a < b := by
  have hM := minusIntobjMin_pos w
  cases opL with
  | intobj l =>
    obtain ⟨ha, hl⟩ := hL.of_intobj
    rw [isSmall_iff_lt] at ha
    cases opR with
    | intobj r =>
      obtain ⟨_, hr⟩ := hR.of_intobj
      simp only [ltInt, decide_eq_true_eq]
      omega
    | intpos r =>
      have := hR.lt_of_intpos
      simp only [ltInt, true_iff]
      omega
    | intneg r =>
      have := hR.lt_of_intneg
      simp only [ltInt, Bool.false_eq_true, false_iff]
      omega
  | intpos l =>
    have ha := hL.lt_of_intpos
    cases opR with
    | intobj r =>
      obtain ⟨hb, _⟩ := hR.of_intobj
      rw [isSmall_iff_lt] at hb
      simp only [ltInt, Bool.false_eq_true, false_iff]
      omega
    | intpos r =>
      simp only [ltInt, decide_eq_true_eq]
      rw [compare_lt_iff P hL.1.1 hR.1.1, ← hL.2, ← hR.2]
      simp only [val]
      omega
    | intneg r =>
      have := hR.lt_of_intneg
      simp only [ltInt, Bool.false_eq_true, false_iff]
      omega
  | intneg l =>
    have ha := hL.lt_of_intneg
    cases opR with
    | intobj r =>
      obtain ⟨hb, _⟩ := hR.of_intobj
      rw [isSmall_iff_lt] at hb
      simp only [ltInt, true_iff]
      omega
    | intpos r =>
      have := hR.lt_of_intpos
      simp only [ltInt, true_iff]
      omega
    | intneg r =>
      simp only [ltInt, decide_eq_true_eq]
      rw [compare_gt_iff P hL.1.1 hR.1.1, ← hL.2, ← hR.2]
      simp only [val]
      omega

end Integer
