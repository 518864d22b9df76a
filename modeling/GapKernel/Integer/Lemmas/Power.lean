import GapKernel.Integer.Lemmas.Arith
import Mathlib.Algebra.Group.Action.Defs

open List Nat Bool

/--
The negation and the zero fulfil the laws of a group, `elt` is the element that an object stands
for.
-/
structure AdditiveOps.IsGroup {α : Type} {G : Type*} [AddGroup G] (O : AdditiveOps α)
    (elt : α → G) : Prop where
  sum : ∀ a b, elt (O.sum a b) = elt a + elt b
  zero : ∀ a, elt (O.zeroSamemut a) = 0
  ainv : ∀ a, ∃ b, O.ainvSamemut a = some b ∧ elt b = -elt a

structure MultiplicativeOps.IsGroup {α : Type} {G : Type*} [Group G] (O : MultiplicativeOps α)
    (elt : α → G) : Prop where
  prod : ∀ a b, elt (O.prod a b) = elt a * elt b
  one : ∀ a, elt (O.oneSamemut a) = 1
  inv : ∀ a, ∃ b, O.invSamemut a = some b ∧ elt b = (elt a)⁻¹
  copyObj : ∀ a, elt (O.copyObj a) = elt a

namespace Integer

open SquareMultiply

variable {w : IntSize} {α : Type} {G : Type*}

section Loops

theorem mod_two_pow_succ (l k : Nat)
    : l % 2 ^ (k + 1) = l % 2 ^ k + 2 ^ k * (l.testBit k).toNat := by
  rw [mod_pow_succ]
  rw [toNat_testBit]

variable [Monoid G] {elt : α → G} {prod : α → α → α} {op : α} {res : Option α} {m : Nat}

section

variable (hprod : ∀ a b, elt (prod a b) = elt a * elt b)

include hprod

theorem isPower_doubleSmall (j l : Nat) (hl : l < 2 ^ (j + 1)) (h : IsPower elt (elt op) res m)
    : IsPower elt (elt op) (doubleSmall prod op (2 ^ j) l res) (m * 2 ^ (j + 1) + l) := by
  induction j generalizing l res m with
  | zero =>
    have hdone : ∀ l res, doubleSmall prod op 0 l res = res := by
      intro l res
      unfold doubleSmall
      rw [if_pos rfl]
    unfold doubleSmall
    rw [if_neg (by omega)]
    rw [show 2 ^ 0 / 2 = 0 by decide]
    split
    . next hle =>
      rw [show l = 1 by omega]
      rw [hdone]
      have := (h.square hprod).times hprod
      rw [show m * 2 ^ (0 + 1) + 1 = 2 * m + 1 by omega]
      exact this
    . next hlt =>
      rw [show l = 0 by omega]
      rw [hdone]
      rw [show m * 2 ^ (0 + 1) + 0 = 2 * m by omega]
      exact h.square hprod
  | succ j ih =>
    have hpow : 2 ^ (j + 1) / 2 = 2 ^ j := by
      rw [Nat.pow_succ]
      omega
    have hpos := Nat.two_pow_pos (j + 1)
    unfold doubleSmall
    rw [if_neg (by omega)]
    rw [hpow]
    split
    . next hle =>
      have := ih (l - 2 ^ (j + 1)) (by rw [Nat.pow_succ] at hl; omega)
        ((h.square hprod).times hprod)
      rw [show m * 2 ^ (j + 1 + 1) + l = (2 * m + 1) * 2 ^ (j + 1) + (l - 2 ^ (j + 1)) by
        rw [Nat.pow_succ 2 (j + 1)]
        rw [Nat.add_mul]
        rw [Nat.mul_comm 2 m]
        rw [Nat.mul_assoc]
        rw [Nat.mul_comm 2 (2 ^ (j + 1))]
        omega]
      exact this
    . next hlt =>
      have := ih l (by omega) (h.square hprod)
      rw [show m * 2 ^ (j + 1 + 1) + l = 2 * m * 2 ^ (j + 1) + l by
        rw [Nat.pow_succ 2 (j + 1)]
        rw [Nat.mul_comm 2 m]
        rw [Nat.mul_assoc]
        rw [Nat.mul_comm 2 (2 ^ (j + 1))]]
      exact this

theorem isPower_doubleLimb (l k : Nat) (h : IsPower elt (elt op) res m)
    : IsPower elt (elt op) (doubleLimb prod op l k res) (m * 2 ^ k + l % 2 ^ k) := by
  induction k generalizing res m with
  | zero =>
    unfold doubleLimb
    rw [Nat.pow_zero]
    rw [mod_one]
    rw [Nat.mul_one]
    exact h
  | succ k ih =>
    unfold doubleLimb
    -- The next bit is the one above the last `k` bits.
    have hmod := mod_two_pow_succ l k
    split
    . next hbit =>
      have := ih ((h.square hprod).times hprod)
      rw [hmod]
      rw [hbit]
      rw [show m * 2 ^ (k + 1) + (l % 2 ^ k + 2 ^ k * true.toNat)
        = (2 * m + 1) * 2 ^ k + l % 2 ^ k by
        rw [Nat.pow_succ]
        rw [toNat_true]
        ring]
      exact this
    . next hbit =>
      have := ih (h.square hprod)
      rw [hmod]
      rw [not_eq_true] at hbit
      rw [hbit]
      rw [show m * 2 ^ (k + 1) + (l % 2 ^ k + 2 ^ k * false.toNat)
        = 2 * m * 2 ^ k + l % 2 ^ k by
        rw [Nat.pow_succ]
        rw [toNat_false]
        ring]
      exact this

theorem isPower_doubleLarge {limbs : List Nat} (hlimbs : Limbs.AreLimbs w.limbBase limbs) (i : Nat)
    (hi : i ≤ limbs.length) (h : IsPower elt (elt op) res m)
    : IsPower elt (elt op) (doubleLarge w prod op limbs i res)
        (m * w.limbBase ^ i + w.ofLimbs (limbs.take i)) := by
  induction i generalizing res m with
  | zero =>
    unfold doubleLarge
    rw [Nat.pow_zero]
    rw [Nat.mul_one]
    rw [take_zero]
    exact h
  | succ i ih =>
    have hget : limbs.getD i 0 = limbs[i] := by
      rw [getD_eq_getElem?_getD]
      rw [getElem?_eq_getElem (by omega)]
      rfl
    have hlt : limbs[i] < w.limbBase := hlimbs _ (getElem_mem _)
    have := ih (by omega) (isPower_doubleLimb hprod (limbs.getD i 0) w.bits h)
    unfold doubleLarge
    rw [show m * w.limbBase ^ (i + 1) + w.ofLimbs (limbs.take (i + 1))
        = (m * 2 ^ w.bits + limbs.getD i 0 % 2 ^ w.bits) * w.limbBase ^ i
          + w.ofLimbs (limbs.take i) by
      rw [hget]
      rw [show 2 ^ w.bits = w.limbBase by rfl]
      rw [mod_eq_of_lt hlt]
      rw [take_succ_eq_append_getElem (by omega)]
      unfold IntSize.ofLimbs
      rw [ofDigits_append]
      rw [length_take_of_le (by omega)]
      rw [ofDigits_singleton]
      rw [Nat.pow_succ]
      ring]
    exact this

theorem doublePositive_spec {n : IntegerObj} {x : Int} (h : Represents w n x) (hx : 1 < x)
    : ∃ r, doublePositive w prod n op = .ok (some r) ∧ elt r = elt op ^ x.toNat := by
  have hnone : IsPower elt (elt op) none 0 := IsPower.none_zero
  cases n with
  | intobj o =>
    rcases h.of_intobj with ⟨hsmall, ho⟩
    have hlt : x.toNat < 2 ^ (w.nrSmallIntBits + 1) := by
      rw [isSmall_iff_lt] at hsmall
      unfold IntSize.minusIntobjMin at hsmall
      rw [Nat.pow_succ]
      omega
    have hpower := isPower_doubleSmall hprod w.nrSmallIntBits x.toNat hlt
      hnone
    rw [Nat.zero_mul] at hpower
    rw [Nat.zero_add] at hpower
    rcases hpower.exists_of_pos (by omega) with ⟨r, hr⟩
    refine ⟨r, ?_, hr.2⟩
    unfold doublePositive
    dsimp only
    rw [ho]
    rw [INT_INTOBJ_eq]
    rw [if_pos hx]
    rw [hr.1]
    rfl
  | intpos limbs =>
    have hval := h.2
    simp only [val] at hval
    have hpower := isPower_doubleLarge hprod (h.1.1.areLimbs) limbs.length (Nat.le_refl _)
      hnone
    rw [Nat.zero_mul] at hpower
    rw [Nat.zero_add] at hpower
    rw [take_length] at hpower
    rcases hpower.exists_of_pos (by omega) with ⟨r, hr⟩
    refine ⟨r, ?_, ?_⟩
    . unfold doublePositive
      dsimp only
      rw [hr.1]
      rfl
    . rw [hr.2]
      rw [← hval]
      rw [Int.toNat_natCast]
  | intneg limbs =>
    have hval := h.2
    simp only [val] at hval
    omega

end

end Loops

theorem isNegInt_iff_of_represents {n : IntegerObj} {x : Int} (h : Represents w n x)
    : isNegInt n = true ↔ x < 0 := by
  unfold isNegInt
  cases n with
  | intobj o =>
    have ho := h.of_intobj.2
    rw [decide_eq_true_eq]
    omega
  | intpos limbs =>
    have hval := h.2
    simp only [val] at hval
    simp only [false_eq_true, false_iff]
    omega
  | intneg limbs =>
    have hval := h.2
    have hlarge := h.1.2
    simp only [val] at hval
    simp only [true_iff]
    omega

section Additive

variable [AddGroup G] {O : AdditiveOps α} {elt : α → G}

variable {n : IntegerObj} {x : Int}

theorem doublePositive_sum (hsum : ∀ a b, elt (O.sum a b) = elt a + elt b) {op : α}
    (h : Represents w n x) (hx : 1 < x)
    : ∃ r, doublePositive w O.sum n op = .ok (some r) ∧ elt r = x • elt op := by
  have hprod : ∀ a b, Multiplicative.ofAdd (elt (O.sum a b))
      = Multiplicative.ofAdd (elt a) * Multiplicative.ofAdd (elt b) := by
    intro a b
    rw [hsum]
    rw [ofAdd_add]
  have hpower : ∃ r, doublePositive w O.sum n op = .ok (some r)
      ∧ Multiplicative.ofAdd (elt r) = Multiplicative.ofAdd (elt op) ^ x.toNat := by
    apply doublePositive_spec hprod h hx
  rcases hpower with ⟨r, hr⟩
  refine ⟨r, hr.1, ?_⟩
  have helt := hr.2
  rw [← ofAdd_nsmul] at helt
  rw [Multiplicative.ofAdd.injective helt]
  rw [← natCast_zsmul]
  rw [Int.toNat_of_nonneg (by omega)]

theorem prodIntObjBy_of_nonneg (hO : O.IsGroup elt) (PROD : IntegerObj → α → Result (Option α))
    (op : α) (h : Represents w n x) (hx : 0 ≤ x)
    : ∃ r, prodIntObjBy w O PROD n op = .ok (some r) ∧ elt r = x • elt op := by
  unfold prodIntObjBy
  simp only [h.eq_INTOBJ_INT_iff (isSmall_zero w), h.eq_INTOBJ_INT_iff (isSmall_one w),
    h.eq_INTOBJ_INT_iff (isSmall_minusOne w), isNegInt_iff_of_represents h]
  split
  . next hzero =>
    refine ⟨_, rfl, ?_⟩
    rw [hO.zero]
    rw [hzero]
    rw [zero_zsmul]
  . split
    . next hone =>
      rw [hone]
      rw [one_zsmul]
      split
      . refine ⟨_, rfl, ?_⟩
        rw [hO.sum]
        rw [hO.zero]
        rw [zero_add]
      . refine ⟨_, rfl, ?_⟩
        rfl
    . rw [if_neg (by omega)]
      rw [if_neg (by omega)]
      apply doublePositive_sum hO.sum h
      omega

theorem prodIntObj_spec (hO : O.IsGroup elt) (op : α) (h : Represents w n x)
    : ∃ r, prodIntObj w O n op = .ok (some r) ∧ elt r = x • elt op := by
  by_cases hx : 0 ≤ x
  . apply prodIntObjBy_of_nonneg hO _ op h hx
  . rcases hO.ainv op with ⟨inv, hinv⟩
    unfold prodIntObj
    rw [prodIntObjBy]
    simp only [h.eq_INTOBJ_INT_iff (isSmall_zero w), h.eq_INTOBJ_INT_iff (isSmall_one w),
      h.eq_INTOBJ_INT_iff (isSmall_minusOne w), isNegInt_iff_of_represents h]
    rw [if_neg (by omega)]
    rw [if_neg (by omega)]
    rw [hinv.1]
    split
    . next hminus =>
      refine ⟨_, rfl, ?_⟩
      rw [hinv.2]
      rw [hminus]
      rw [neg_one_zsmul]
    . rw [if_pos (by omega)]
      -- The second call gets the negative of the integer, which is positive.
      rcases prodIntObjBy_of_nonneg hO (fun _ _ => throw .fuel) inv (represents_aInvInt h)
        (by omega) with ⟨r, hr⟩
      refine ⟨r, hr.1, ?_⟩
      rw [hr.2]
      rw [hinv.2]
      rw [zsmul_neg]
      rw [neg_zsmul]
      rw [neg_neg]

end Additive

section Multiplicative

variable [Group G] {O : MultiplicativeOps α} {elt : α → G}

theorem powObjIntBy_of_nonneg (hO : O.IsGroup elt) (POW : α → IntegerObj → Result (Option α))
    {n : IntegerObj} {x : Int} (op : α) (h : Represents w n x) (hx : 0 ≤ x)
    : ∃ r, powObjIntBy w O POW op n = .ok (some r) ∧ elt r = elt op ^ x := by
  unfold powObjIntBy
  simp only [h.eq_INTOBJ_INT_iff (isSmall_zero w), h.eq_INTOBJ_INT_iff (isSmall_one w),
    h.eq_INTOBJ_INT_iff (isSmall_minusOne w), isNegInt_iff_of_represents h]
  split
  . next hzero =>
    refine ⟨_, rfl, ?_⟩
    rw [hO.one]
    rw [hzero]
    rw [zpow_zero]
  . split
    . next hone =>
      refine ⟨_, rfl, ?_⟩
      rw [hO.copyObj]
      rw [hone]
      rw [zpow_one]
    . rw [if_neg (by omega)]
      rw [if_neg (by omega)]
      have hpower : ∃ r, doublePositive w O.prod n op = .ok (some r)
          ∧ elt r = elt op ^ x.toNat := by
        apply doublePositive_spec hO.prod h
        omega
      rcases hpower with ⟨r, hr⟩
      refine ⟨r, hr.1, ?_⟩
      rw [hr.2]
      rw [← zpow_natCast]
      rw [Int.toNat_of_nonneg hx]

theorem powObjInt_spec (hO : O.IsGroup elt) {n : IntegerObj} {x : Int} (op : α)
    (h : Represents w n x)
    : ∃ r, powObjInt w O op n = .ok (some r) ∧ elt r = elt op ^ x := by
  by_cases hx : 0 ≤ x
  . apply powObjIntBy_of_nonneg hO _ op h hx
  . rcases hO.inv op with ⟨inv, hinv⟩
    unfold powObjInt
    rw [powObjIntBy]
    simp only [h.eq_INTOBJ_INT_iff (isSmall_zero w), h.eq_INTOBJ_INT_iff (isSmall_one w),
      h.eq_INTOBJ_INT_iff (isSmall_minusOne w), isNegInt_iff_of_represents h]
    rw [if_neg (by omega)]
    rw [if_neg (by omega)]
    rw [hinv.1]
    split
    . next hminus =>
      refine ⟨_, rfl, ?_⟩
      rw [hinv.2]
      rw [hminus]
      rw [zpow_neg_one]
    . rw [if_pos (by omega)]
      rcases powObjIntBy_of_nonneg hO (fun _ _ => throw .fuel) inv (represents_aInvInt h)
        (by omega) with ⟨r, hr⟩
      refine ⟨r, hr.1, ?_⟩
      rw [hr.2]
      rw [hinv.2]
      rw [inv_zpow]
      rw [zpow_neg]
      rw [inv_inv]

end Multiplicative

theorem multiple_and_power_exact {β : Type} {H : Type*} [AddGroup G] [Group H]
    {A : AdditiveOps α} {eltA : α → G} {M : MultiplicativeOps β} {eltM : β → H}
    (hA : A.IsGroup eltA) (hM : M.IsGroup eltM) (n : IntegerObj) (hn : IsCanonical w n)
    : (∀ op, ∃ r, prodIntObj w A n op = .ok (some r) ∧ eltA r = val w n • eltA op)
        ∧ ∀ op, ∃ r, powObjInt w M op n = .ok (some r) ∧ eltM r = eltM op ^ val w n := by
  have h : Represents w n (val w n) := ⟨hn, rfl⟩
  constructor
  . intro op
    apply prodIntObj_spec hA op h
  . intro op
    apply powObjInt_spec hM op h

def intOps : AdditiveOps Int where
  isMutable _ := false
  zeroSamemut _ := 0
  sum a b := a + b
  ainvSamemut a := some (-a)

def multiplicativeIntOps : MultiplicativeOps (Multiplicative Int) where
  copyObj a := a
  oneSamemut _ := 1
  prod a b := a * b
  invSamemut a := some a⁻¹

theorem multiple_and_power_exact_twoLimbs
    : (∀ op, ∃ r, prodIntObj .int8 intOps (.intneg [0, 5]) op = .ok (some r)
          ∧ r = val .int8 (.intneg [0, 5]) • op)
        ∧ ∀ op, ∃ r, powObjInt .int8 multiplicativeIntOps op (.intneg [0, 5]) = .ok (some r)
          ∧ r = op ^ val .int8 (.intneg [0, 5]) := by
  have hA : intOps.IsGroup id := by
    constructor
    . intro a b
      rfl
    . intro a
      rfl
    . intro a
      exact ⟨-a, rfl, rfl⟩
  have hM : multiplicativeIntOps.IsGroup id := by
    constructor
    . intro a b
      rfl
    . intro a
      rfl
    . intro a
      exact ⟨a⁻¹, rfl, rfl⟩
    . intro a
      rfl
  apply multiple_and_power_exact hA hM
  refine ⟨⟨?_, ?_⟩, ?_⟩
  . unfold Limbs.AreLimbs
    decide
  . decide
  . decide

end Integer
