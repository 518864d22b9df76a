import GapKernel.CompatibleRoots
import GapKernel.Finfield.Impl

namespace Finfield

variable {K : Type} [Field K] {q a b : Nat} {ζ : K} {f : List Nat}

def power (ζ : K) (v : Nat) : K :=
  if v = 0 then 0 else ζ ^ (v - 1)

structure IsSuccTable (q : Nat) (ζ : K) (f : List Nat) : Prop where
  size_pos : 1 < q
  isPrimitiveRoot : IsPrimitiveRoot ζ (q - 1)
  neg_one : (q - 1) % 2 ≠ 0 → (-1 : K) = 1
  order_eq : f[0]? = some (q - 1)
  succ_eq : ∀ n, 0 < n → n < q → ∃ m, f[n]? = some m ∧ m < q ∧ power ζ m = power ζ n + 1

theorem power_of_pos (ha : 0 < a) : power ζ a = ζ ^ (a - 1) := by
  unfold power
  rw [if_neg (by omega)]

theorem power_zero (ζ : K) : power ζ 0 = 0 := by
  unfold power
  rw [if_pos rfl]

theorem succAt_eq {i v : Nat} (h : f[i]? = some v) : succAt f i = .ok v := by
  unfold succAt
  rw [h]
  rfl

def HasValue (q : Nat) (ζ x : K) (res : Result Nat) : Prop :=
  ∃ v, res = .ok v ∧ v < q ∧ power ζ v = x

theorem HasValue.mk {v : Nat} {x : K} (hv : v < q) (hx : power ζ v = x)
    : HasValue q ζ x (.ok v) :=
  ⟨v, rfl, hv, hx⟩

namespace IsSuccTable

variable (h : IsSuccTable q ζ f)

include h

theorem root_ne_zero : ζ ≠ 0 :=
  h.isPrimitiveRoot.ne_zero (by have := h.size_pos; omega)

theorem power_ne_zero (ha : 0 < a) : power ζ a ≠ 0 := by
  rw [power_of_pos ha]
  exact pow_ne_zero _ h.root_ne_zero

theorem power_eq_zero_iff : power ζ a = 0 ↔ a = 0 := by
  constructor
  . intro ha
    by_contra hne
    exact h.power_ne_zero (Nat.pos_of_ne_zero hne) ha
  . intro ha
    rw [ha, power_zero]

theorem pow_add_order (n : Nat) : ζ ^ (n + (q - 1)) = ζ ^ n := by
  rw [pow_add, h.isPrimitiveRoot.pow_eq_one, mul_one]

theorem prodFFV_spec (ha : a < q) (hb : b < q)
    : HasValue q ζ (power ζ a * power ζ b) (prodFFV a b f) := by
  have hq := h.size_pos
  unfold prodFFV
  by_cases hzero : a = 0 ∨ b = 0
  . rw [if_pos hzero]
    apply HasValue.mk (by omega)
    cases hzero with
    | inl ha0 => rw [ha0, power_zero, zero_mul]
    | inr hb0 => rw [hb0, power_zero, mul_zero]
  . rw [if_neg hzero, succAt_eq h.order_eq, ok_bind]
    have hprod : power ζ a * power ζ b = ζ ^ (a - 1 + (b - 1)) := by
      rw [power_of_pos (by omega), power_of_pos (by omega), pow_add]
    rw [hprod]
    dsimp only
    split
    . apply HasValue.mk (by omega)
      rw [power_of_pos (by omega)]
      congr 1
      omega
    . apply HasValue.mk (by omega)
      rw [power_of_pos (by omega), ← h.pow_add_order]
      congr 1
      omega

theorem sumFFV_of_le (ha : a < q) (hb : 0 < b) (hle : b ≤ a)
    : HasValue q ζ (power ζ a + power ζ b) (do prodFFV b (← succAt f (a - b + 1)) f) := by
  obtain ⟨m, hm, hlt, hsucc⟩ := h.succ_eq (a - b + 1) (Nat.succ_pos _) (by omega)
  rw [succAt_eq hm, ok_bind]
  have hsum : power ζ a + power ζ b = power ζ b * power ζ m := by
    rw [hsucc, power_of_pos (by omega), power_of_pos hb, power_of_pos (Nat.succ_pos _), mul_add,
      mul_one, ← pow_add]
    congr 2
    omega
  rw [hsum]
  exact h.prodFFV_spec (by omega) hlt

theorem sumFFV_spec (ha : a < q) (hb : b < q)
    : HasValue q ζ (power ζ a + power ζ b) (sumFFV a b f) := by
  unfold sumFFV
  split
  . next ha0 =>
    rw [ha0, power_zero, zero_add]
    exact HasValue.mk hb rfl
  . split
    . next hb0 =>
      rw [hb0, power_zero, add_zero]
      exact HasValue.mk ha rfl
    . by_cases hlt : b > a
      . rw [if_pos hlt, add_comm]
        exact h.sumFFV_of_le hb (by omega) (by omega)
      . rw [if_neg hlt]
        exact h.sumFFV_of_le ha (by omega) (by omega)

theorem pow_half (heven : (q - 1) % 2 = 0) : ζ ^ ((q - 1) / 2) = -1 := by
  have hq := h.size_pos
  have hsq : ζ ^ ((q - 1) / 2) * ζ ^ ((q - 1) / 2) = 1 := by
    rw [← pow_add, ← h.isPrimitiveRoot.pow_eq_one]
    congr 1
    omega
  cases mul_self_eq_one_iff.mp hsq with
  | inl hone =>
    have hdvd := h.isPrimitiveRoot.dvd_of_pow_eq_one _ hone
    have := Nat.le_of_dvd (by omega) hdvd
    omega
  | inr hneg => exact hneg

theorem negFFV_spec (ha : a < q)
    : HasValue q ζ (-power ζ a) (negFFV a f) := by
  have hq := h.size_pos
  unfold negFFV
  rw [succAt_eq h.order_eq, ok_bind]
  split
  . next ha0 =>
    apply HasValue.mk (by omega)
    rw [ha0, power_zero, neg_zero]
  . split
    . next hodd =>
      apply HasValue.mk ha
      rw [← one_mul (power ζ a), ← neg_mul, h.neg_one hodd, one_mul]
    . next heven =>
      have hhalf := h.pow_half (not_not.mp heven)
      have hneg : -power ζ a = ζ ^ (a - 1 + (q - 1) / 2) := by
        rw [power_of_pos (by omega), pow_add, hhalf, mul_neg, mul_one]
      rw [hneg]
      split
      . apply HasValue.mk (by omega)
        rw [power_of_pos (by omega)]
        congr 1
        omega
      . apply HasValue.mk (by omega)
        rw [power_of_pos (by omega), ← h.pow_add_order]
        congr 1
        omega

theorem quoFFV_spec (ha : a < q) (hb : b < q) (hpos : 0 < b)
    : HasValue q ζ (power ζ a / power ζ b) (quoFFV a b f) := by
  have hq := h.size_pos
  have hne := h.power_ne_zero hpos
  unfold quoFFV
  split
  . next ha0 =>
    apply HasValue.mk (by omega)
    rw [ha0, power_zero, zero_div]
  . split
    . apply HasValue.mk (by omega)
      rw [eq_div_iff hne, power_of_pos (by omega), power_of_pos (by omega),
        power_of_pos (by omega), ← pow_add]
      congr 1
      omega
    . rw [succAt_eq h.order_eq, ok_bind]
      apply HasValue.mk (by omega)
      rw [eq_div_iff hne, power_of_pos (by omega), power_of_pos (by omega),
        power_of_pos (by omega), ← pow_add, ← h.pow_add_order (a - 1)]
      congr 1
      omega

theorem powFFV_spec (ha : 0 < a) (n : Nat)
    : HasValue q ζ (power ζ a ^ n) (powFFV a n f) := by
  have hq := h.size_pos
  unfold powFFV
  split
  . next hn =>
    apply HasValue.mk hq
    rw [hn, pow_zero, power_of_pos Nat.one_pos]
    exact pow_zero ζ
  . rw [if_neg (by omega), succAt_eq h.order_eq, ok_bind]
    have hlt := Nat.mod_lt ((a - 1) * n) (show 0 < q - 1 by omega)
    apply HasValue.mk (by omega)
    rw [power_of_pos (Nat.succ_pos _), power_of_pos ha, ← pow_mul, h.isPrimitiveRoot.eq_orderOf]
    exact pow_mod_orderOf ζ _

end IsSuccTable

end Finfield
