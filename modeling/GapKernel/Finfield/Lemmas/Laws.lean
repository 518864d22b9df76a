import GapKernel.Finfield.Lemmas.Field
import Mathlib.FieldTheory.Finite.GaloisField

open CompatibleRoots Finset Int Nat

namespace Finfield

variable {K : Type} [Field K] {t : FFData} {w : IntSize} {p : Nat} {Z : Nat → K}

section Arithmetic

structure IsResult (t : FFData) (p : Nat) (Z : Nat → K) (x y z : K) (res : Result (Option FFE))
    : Prop where
  none_iff : res = .ok none ↔ ¬HasCommonField t p x y
  exists_value : HasCommonField t p x y → ∃ c : Element t p, res = .ok (some c.ffe) ∧ c.value Z = z

theorem IsField.element {d fX v : Nat} (hX : IsField t p d fX) (hv : v < p ^ d)
    {z : K} (hz : power (Z d) v = z) : ∃ c : Element t p, c.ffe = { fld := fX, val := v }
      ∧ c.value Z = z := by
  obtain ⟨hpos, hle, hchar, rfl⟩ := hX
  exact ⟨⟨⟨fX, v⟩, ⟨hpos, hle, hchar, rfl⟩, hv⟩, rfl, hz⟩

section

variable (h : IsKernel t p Z) (a b : Element t p)

include h a b

theorem inCommonField_spec {op : Nat → Nat → List Nat → Result Nat} {z : K}
    (hop : ∀ {q ζ f vL vR}, IsSuccTable q ζ f → vL < q → vR < q → power ζ vL = a.value Z → power ζ vR = b.value Z → HasValue q ζ z (op vL vR f))
    : IsResult t p Z (a.value Z) (b.value Z) z (inCommonField t w a.ffe b.ffe op) := by
  obtain ⟨o, hrun, hnone, hsome⟩ := @bringIntoCommonField_spec K _ t w p Z h a b
  unfold inCommonField
  rw [hrun, ok_bind]
  cases o with
  | none =>
    have hno := hnone.mp rfl
    exact ⟨iff_of_true rfl hno, fun hyes => absurd hyes hno⟩
  | some v =>
    obtain ⟨fX, vL, vR⟩ := v
    obtain ⟨d, hX, hltL, hltR, hL, hR⟩ := hsome fX vL vR rfl
    obtain ⟨v, hv, hlt, hvalue⟩ := hop (h.succTable d fX hX) hltL hltR hL hR
    obtain ⟨c, hc, hz⟩ := hX.element hlt hvalue
    have hyes : HasCommonField t p (a.value Z) (b.value Z) :=
      not_not.mp (fun hno => nomatch hnone.mpr hno)
    dsimp only
    rw [hv, ok_bind, ← hc]
    exact ⟨iff_of_false (fun hf => nomatch hf) (not_not.mpr hyes), fun _ => ⟨c, rfl, hz⟩⟩

theorem sumFFEFFE_spec
    : IsResult t p Z (a.value Z) (b.value Z) (a.value Z + b.value Z)
        (sumFFEFFE t w a.ffe b.ffe) := by
  apply inCommonField_spec h a b
  intro q ζ f vL vR hf hL hR heqL heqR
  rw [← heqL, ← heqR]
  exact hf.sumFFV_spec hL hR

theorem diffFFEFFE_spec
    : IsResult t p Z (a.value Z) (b.value Z) (a.value Z - b.value Z)
        (diffFFEFFE t w a.ffe b.ffe) := by
  apply inCommonField_spec h a b
  intro q ζ f vL vR hf hL hR heqL heqR
  obtain ⟨v, hv, hlt, hneg⟩ := hf.negFFV_spec hR
  rw [← heqL, ← heqR, hv, ok_bind, sub_eq_add_neg, ← hneg]
  exact hf.sumFFV_spec hL hlt

theorem prodFFEFFE_spec
    : IsResult t p Z (a.value Z) (b.value Z) (a.value Z * b.value Z)
        (prodFFEFFE t w a.ffe b.ffe) := by
  apply inCommonField_spec h a b
  intro q ζ f vL vR hf hL hR heqL heqR
  rw [← heqL, ← heqR]
  exact hf.prodFFV_spec hL hR

theorem quoFFEFFE_spec (hb : b.value Z ≠ 0)
    : IsResult t p Z (a.value Z) (b.value Z) (a.value Z / b.value Z)
        (quoFFEFFE t w a.ffe b.ffe) := by
  apply inCommonField_spec h a b
  intro q ζ f vL vR hf hL hR heqL heqR
  have hpos : vR ≠ 0 := by
    rintro rfl
    rw [power_zero] at heqR
    exact hb heqR.symm
  rw [← heqL, ← heqR, if_neg hpos]
  exact hf.quoFFV_spec hL hR (Nat.pos_of_ne_zero hpos)

end

theorem powValue_spec (h : IsKernel t p Z) {d fX vL : Nat} (hX : IsField t p d fX) (vR : Nat)
    : ∃ c : Element t p, powValue fX vL vR (t.succFF fX) = .ok c.ffe ∧ c.ffe.fld = fX
        ∧ c.value Z = power (Z d) vL ^ vR := by
  have hf := h.succTable d fX hX
  have hq := hf.size_pos
  unfold powValue
  split
  . next hzero =>
    have hvalue : power (Z d) (if vR = 0 then 1 else 0) = power (Z d) vL ^ vR := by
      rw [hzero, power_zero]
      split
      . next hvR =>
        rw [hvR, pow_zero, power_of_pos Nat.one_pos]
        exact pow_zero _
      . next hvR => rw [power_zero, zero_pow hvR]
    obtain ⟨c, hc, hz⟩ := hX.element (show (if vR = 0 then 1 else 0) < p ^ d by split <;> omega)
      hvalue
    exact ⟨c, by rw [hc]; rfl, by rw [hc], hz⟩
  . next hne =>
    have hpos := Nat.pos_of_ne_zero hne
    obtain ⟨v, hv, hlt, hvalue⟩ := hf.powFFV_spec hpos (vR % (p ^ d - 1))
    have hmod : power (Z d) vL ^ (vR % (p ^ d - 1)) = power (Z d) vL ^ vR := by
      rw [power_of_pos hpos, ← pow_mul, ← pow_mul]
      apply (hf.isPrimitiveRoot.isOfFinOrder (by omega)).pow_eq_pow_iff_modEq.mpr
      rw [← hf.isPrimitiveRoot.eq_orderOf]
      exact Nat.ModEq.mul_left _ (mod_modEq vR _)
    obtain ⟨c, hc, hz⟩ := hX.element hlt (hvalue.trans hmod)
    refine ⟨c, ?_, by rw [hc], hz⟩
    rw [succAt_eq hf.order_eq, ok_bind, hv, ok_bind, hc]
    rfl

theorem powFFEInt_spec (h : IsKernel t p Z) (a : Element t p) (n : Int)
    (hn : 0 ≤ n ∨ a.value Z ≠ 0)
    : ∃ c : Element t p, powFFEInt t a.ffe n = .ok c.ffe ∧ c.ffe.fld = a.ffe.fld
        ∧ c.value Z = a.value Z ^ n := by
  have hf := a.succTable h
  have hq := hf.size_pos
  unfold powFFEInt
  split
  . next hneg =>
    have hne : a.value Z ≠ 0 := hn.resolve_left (by omega)
    have hval : a.ffe.val ≠ 0 := fun hzero => hne ((a.value_eq_zero_iff h).mpr hzero)
    obtain ⟨v, hv, -, hvalue⟩ := hf.quoFFV_spec hq a.val_lt (Nat.pos_of_ne_zero hval)
    obtain ⟨c, hc, hfld, hpow⟩ := @powValue_spec K _ t p Z h _ _ v a.isField_deg n.natAbs
    rw [if_neg hval, hv, ok_bind]
    refine ⟨c, hc, hfld, ?_⟩
    have hone : power (Z a.deg) 1 = 1 := by
      rw [power_of_pos Nat.one_pos]
      exact pow_zero _
    have hinv : power (Z a.deg) v = (a.value Z)⁻¹ := by
      rw [hvalue, hone, one_div]
      rfl
    rw [hpow, hinv, inv_pow, ← zpow_natCast, ← zpow_neg]
    congr 1
    omega
  . next hnonneg =>
    obtain ⟨c, hc, hfld, hpow⟩ := @powValue_spec K _ t p Z h _ _ a.ffe.val a.isField_deg n.natAbs
    refine ⟨c, hc, hfld, ?_⟩
    rw [hpow, ← zpow_natCast]
    show a.value Z ^ (n.natAbs : Int) = a.value Z ^ n
    congr 1
    omega

end Arithmetic

section Logarithm

theorem logLoop_spec (r m : Int) {a b : Int} {c d : Nat} (ha : m ∣ a * r - c) (hb : m ∣ b * r - d)
    : m ∣ (logLoop a b c d).1 * r - (logLoop a b c d).2
        ∧ (logLoop a b c d).2 = Nat.gcd c d := by
  induction d using Nat.strongRecOn generalizing a b c with
  | ind d ih =>
    unfold logLoop
    split
    . next hd =>
      rw [hd, Nat.gcd_zero_right]
      exact ⟨ha, rfl⟩
    . next hd =>
      have hmod : c - c / d * d = c % d := by
        rw [Nat.mul_comm, ← mod_eq_sub]
      have hdiv : ((c % d : Nat) : Int) = c - (c / d : Nat) * d := by
        have := div_add_mod c d
        have hcast : (c : Int) = (d : Int) * (c / d : Nat) + (c % d : Nat) := by
          exact_mod_cast this.symm
        rw [hcast]
        ring
      rw [hmod]
      have hstep : m ∣ (a - (c / d : Nat) * b) * r - (c % d : Nat) := by
        rw [hdiv]
        have heq : (a - ((c / d : Nat) : Int) * b) * r - (c - (c / d : Nat) * d)
            = (a * r - c) - (c / d : Nat) * (b * r - d) := by
          ring
        rw [heq]
        exact dvd_sub ha (dvd_mul_of_dvd_right hb _)
      have hrec := ih (c % d) (mod_lt c (Nat.pos_of_ne_zero hd)) hb hstep
      rw [Nat.gcd_comm c d, gcd_rec, Nat.gcd_comm]
      exact hrec

theorem makeNonnegative_spec {step : Nat} (hstep : 0 < step) {fuel : Nat} {a : Int}
    (hfuel : 0 < fuel ∧ -a < fuel)
    : ∃ k : Nat, makeNonnegative step fuel a = .ok (a + k * step) ∧ 0 ≤ a + k * step := by
  induction fuel generalizing a with
  | zero => omega
  | succ fuel ih =>
    unfold makeNonnegative
    split
    . next hneg =>
      obtain ⟨k, hrun, hpos⟩ := @ih (a + step) (by omega)
      refine ⟨k + 1, ?_, ?_⟩
      . rw [hrun]
        congr 1
        push_cast
        ring
      . push_cast
        linarith
    . next hpos =>
      refine ⟨0, ?_, ?_⟩
      . rw [Nat.cast_zero, zero_mul, add_zero]
        rfl
      . omega

theorem zpow_eq_iff {ζ : K} {m r z : Nat} (hζ : IsPrimitiveRoot ζ m) (hm : 0 < m) (l : Int)
    : (ζ ^ r) ^ l = ζ ^ z ↔ (m : Int) ∣ r * l - z := by
  have hne : ζ ≠ 0 := hζ.ne_zero (Nat.ne_of_gt hm)
  rw [← hζ.zpow_eq_one_iff_dvd, zpow_sub₀ hne, zpow_mul, zpow_natCast, zpow_natCast,
    div_eq_one_iff_eq (pow_ne_zero z hne)]

theorem logFFEDefault_spec (h : IsKernel t p Z) (z r : Element t p) (hz : z.value Z ≠ 0)
    (hr : r.value Z ≠ 0)
    : ∃ o, logFFEDefault t w z.ffe r.ffe = .ok o
        ∧ (o = .large ↔ ¬HasCommonField t p (z.value Z) (r.value Z))
        ∧ (o = .fail → ∀ l : Int, r.value Z ^ l ≠ z.value Z)
        ∧ ∀ l, o = .log l → 0 ≤ l ∧ r.value Z ^ l = z.value Z := by
  have hzval : z.ffe.val ≠ 0 := fun hzero => hz ((z.value_eq_zero_iff h).mpr hzero)
  have hrval : r.ffe.val ≠ 0 := fun hzero => hr ((r.value_eq_zero_iff h).mpr hzero)
  obtain ⟨o, hrun, hnone, hsome⟩ := @bringIntoCommonField_spec K _ t w p Z h z r
  unfold logFFEDefault
  rw [if_neg hzval, if_neg hrval, hrun, ok_bind]
  cases o with
  | none =>
    exact ⟨.large, rfl, iff_of_true rfl (hnone.mp rfl), fun hf => (nomatch hf),
      fun _ hf => (nomatch hf)⟩
  | some v =>
    obtain ⟨fX, vZ, vR⟩ := v
    obtain ⟨d, hX, hltZ, hltR, hZ, hR⟩ := hsome fX vZ vR rfl
    have hyes : HasCommonField t p (z.value Z) (r.value Z) :=
      not_not.mp (fun hno => nomatch hnone.mpr hno)
    have hf := h.succTable d fX hX
    have hq := hf.size_pos
    have hposZ : 0 < vZ := by
      apply Nat.pos_of_ne_zero
      rintro rfl
      rw [power_zero] at hZ
      exact hz hZ.symm
    have hposR : 0 < vR := by
      apply Nat.pos_of_ne_zero
      rintro rfl
      rw [power_zero] at hR
      exact hr hR.symm
    rw [power_of_pos hposZ] at hZ
    rw [power_of_pos hposR] at hR
    have hiff (l : Int) : r.value Z ^ l = z.value Z
        ↔ ((p ^ d - 1 : Nat) : Int) ∣ (vR - 1 : Nat) * l - (vZ - 1 : Nat) := by
      rw [← hZ, ← hR, zpow_eq_iff hf.isPrimitiveRoot (by omega)]
    obtain ⟨hdvd, hgcd⟩ := @logLoop_spec (vR - 1 : Nat) (p ^ d - 1 : Nat) 1 0 (vR - 1) (p ^ d - 1)
      (by simp) (by simp)
    dsimp only
    rw [hX.size_eq h.data]
    generalize logLoop 1 0 (vR - 1) (p ^ d - 1) = s at hdvd hgcd ⊢
    obtain ⟨a, c⟩ := s
    dsimp only at hdvd hgcd ⊢
    have hcR : c ∣ vR - 1 := hgcd ▸ Nat.gcd_dvd_left _ _
    have hcm : c ∣ p ^ d - 1 := hgcd ▸ Nat.gcd_dvd_right _ _
    have hcpos : 0 < c := Nat.pos_of_dvd_of_pos hcm (by omega)
    have hmpos : 0 < p ^ d - 1 := by
      omega
    generalize p ^ d - 1 = m at *
    split
    . next hne =>
      refine ⟨.fail, rfl, iff_of_false (fun hf => nomatch hf) (not_not.mpr hyes), ?_,
        fun _ hf => (nomatch hf)⟩
      rintro - l hl
      have hdiff := (natCast_dvd_natCast.mpr hcm).trans ((hiff l).mp hl)
      have hcz := (dvd_sub_right (dvd_mul_of_dvd_left (natCast_dvd_natCast.mpr hcR) l)).mp hdiff
      exact hne (mod_eq_zero_of_dvd (natCast_dvd_natCast.mp hcz))
    . next hmod =>
      obtain ⟨y, hy⟩ := dvd_of_mod_eq_zero (not_not.mp hmod)
      obtain ⟨x, hx⟩ := hcR
      obtain ⟨n, hn⟩ := hcm
      have hquot : m / c = n := by
        rw [hn, Nat.mul_div_cancel_left n hcpos]
      have hnpos : 0 < n := by
        apply Nat.pos_of_ne_zero
        rintro rfl
        omega
      obtain ⟨k, hrunk, hnonneg⟩ := @makeNonnegative_spec n hnpos (a.natAbs + 1) a (by omega)
      rw [hquot, hrunk, ok_bind]
      refine ⟨_, rfl, iff_of_false (fun hf => nomatch hf) (not_not.mpr hyes),
        fun hf => (nomatch hf), ?_⟩
      rintro l ⟨⟩
      have hmne : (m : Int) ≠ 0 := by omega
      refine ⟨emod_nonneg _ hmne, (hiff _).mpr ?_⟩
      rw [hy, Nat.mul_div_cancel_left y hcpos, emod_def]
      obtain ⟨e, he⟩ := hdvd
      -- The multiple of `n` that has been added to `a` does not matter, since `c` divides `vR - 1`.
      have hcast : (m : Int) = c * n := by
        rw [hn, Nat.cast_mul]
      have hcastR : ((vR - 1 : Nat) : Int) = c * x := by
        rw [hx, Nat.cast_mul]
      refine ⟨y * e + y * k * x - (vR - 1 : Nat) * (y * (a + k * n) / m), ?_⟩
      have hmain : ((vR - 1 : Nat) : Int) * (y * (a + k * n)) - (c * y : Nat)
          = y * (a * (vR - 1 : Nat) - c) + y * k * (n * (vR - 1 : Nat)) := by
        push_cast
        ring
      have hnr : (n : Int) * (vR - 1 : Nat) = m * x := by
        rw [hcastR, hcast]
        ring
      rw [mul_sub, sub_right_comm, hmain, he, hnr]
      ring

end Logarithm

section Comparison

def IsEq (a b : Element t p) : Prop :=
  eqFFE t a.ffe b.ffe = .ok true

def IsLt (a b : Element t p) : Prop :=
  ltFFE t a.ffe b.ffe = .ok (some true)

theorem eq_iff (h : IsKernel t p Z) (a b : Element t p) : IsEq a b ↔ a.value Z = b.value Z := by
  obtain ⟨r, hrun, hr⟩ := eqFFE_spec h a b
  unfold IsEq
  rw [hrun, ← hr, Except.ok.injEq]

theorem lt_iff (h : IsKernel t p Z) (a b : Element t p)
    : IsLt a b ↔ rank p Z (a.value Z) < rank p Z (b.value Z) := by
  obtain ⟨r, hrun, hr⟩ := ltFFE_spec h a b
  unfold IsLt
  rw [hrun, ← hr, Except.ok.injEq, Option.some.injEq]

structure IsOrder (t : FFData) (p : Nat) : Prop where
  equivalence : Equivalence (IsEq : Element t p → Element t p → Prop)
  decides_eq : ∀ a b : Element t p, ∃ r, eqFFE t a.ffe b.ffe = .ok r
  decides_lt : ∀ a b : Element t p, ∃ r, ltFFE t a.ffe b.ffe = .ok (some r)
  trans : ∀ a b c : Element t p, IsLt a b → IsLt b c → IsLt a c
  trichotomous : ∀ a b : Element t p,
    (IsLt a b ∧ ¬IsEq a b ∧ ¬IsLt b a) ∨ (¬IsLt a b ∧ IsEq a b ∧ ¬IsLt b a) ∨
      (¬IsLt a b ∧ ¬IsEq a b ∧ IsLt b a)
  lt_congr : ∀ a a' b b' : Element t p, IsEq a a' → IsEq b b' → (IsLt a b ↔ IsLt a' b')

theorem isOrder (h : IsKernel t p Z) : IsOrder t p := by
  constructor
  . constructor
    . exact fun a => (eq_iff h a a).mpr rfl
    . exact fun {a b} hab => (eq_iff h b a).mpr ((eq_iff h a b).mp hab).symm
    . exact fun {a b c} hab hbc => (eq_iff h a c).mpr
        (((eq_iff h a b).mp hab).trans ((eq_iff h b c).mp hbc))
  . intro a b
    obtain ⟨r, hrun, -⟩ := eqFFE_spec h a b
    exact ⟨r, hrun⟩
  . intro a b
    obtain ⟨r, hrun, -⟩ := ltFFE_spec h a b
    exact ⟨r, hrun⟩
  . intro a b c
    rw [lt_iff h, lt_iff h, lt_iff h]
    exact lt_trans
  . intro a b
    rw [lt_iff h, lt_iff h, eq_iff h, ← rank_inj h]
    rcases lt_trichotomy (rank p Z (a.value Z)) (rank p Z (b.value Z)) with hlt | heq | hgt
    . exact .inl ⟨hlt, ne_of_lt hlt, not_lt_of_gt hlt⟩
    . exact .inr (.inl ⟨fun hlt => ne_of_lt hlt heq, heq, fun hlt => ne_of_lt hlt heq.symm⟩)
    . exact .inr (.inr ⟨not_lt_of_gt hgt, (ne_of_lt hgt).symm, hgt⟩)
  . intro a a' b b' ha hb
    rw [eq_iff h] at ha hb
    rw [lt_iff h, lt_iff h, ha, hb]

end Comparison

section Expressions

inductive Expr (t : FFData) (p : Nat) where
  | elem (a : Element t p)
  | sum (l r : Expr t p)
  | diff (l r : Expr t p)
  | prod (l r : Expr t p)
  | quo (l r : Expr t p)

namespace Expr

def apply (op : FFE → FFE → Result (Option FFE)) (l r : Result (Option FFE))
    : Result (Option FFE) := do
  match ← l, ← r with
  | some l, some r => op l r
  | _, _ => return none

def run (t : FFData) (w : IntSize) : Expr t p → Result (Option FFE)
  | elem a => return some a.ffe
  | sum l r => apply (sumFFEFFE t w) (l.run t w) (r.run t w)
  | diff l r => apply (diffFFEFFE t w) (l.run t w) (r.run t w)
  | prod l r => apply (prodFFEFFE t w) (l.run t w) (r.run t w)
  | quo l r => apply (quoFFEFFE t w) (l.run t w) (r.run t w)

def value (Z : Nat → K) : Expr t p → K
  | elem a => a.value Z
  | sum l r => l.value Z + r.value Z
  | diff l r => l.value Z - r.value Z
  | prod l r => l.value Z * r.value Z
  | quo l r => l.value Z / r.value Z

def IsDefined (Z : Nat → K) (d : Nat) : Expr t p → Prop
  | elem a => InField p d (a.value Z)
  | sum l r | diff l r | prod l r => l.IsDefined Z d ∧ r.IsDefined Z d
  | quo l r => l.IsDefined Z d ∧ r.IsDefined Z d ∧ r.value Z ≠ 0

theorem apply_spec {op : FFE → FFE → Result (Option FFE)} {d : Nat} (hd : IsSmallDegree t p d)
    {l r : Result (Option FFE)} {x y z : K}
    (hl : ∃ a : Element t p, l = .ok (some a.ffe) ∧ a.value Z = x)
    (hr : ∃ b : Element t p, r = .ok (some b.ffe) ∧ b.value Z = y) (hx : InField p d x)
    (hy : InField p d y)
    (hop : ∀ a b : Element t p, a.value Z = x → b.value Z = y
      → IsResult t p Z x y z (op a.ffe b.ffe))
    : ∃ c : Element t p, apply op l r = .ok (some c.ffe) ∧ c.value Z = z := by
  obtain ⟨a, rfl, ha⟩ := hl
  obtain ⟨b, rfl, hb⟩ := hr
  exact (hop a b ha hb).exists_value ⟨d, hd, hx, hy⟩

theorem run_eq_value (h : IsKernel t p Z) {d : Nat} (hd : IsSmallDegree t p d) (e : Expr t p)
    (he : e.IsDefined Z d)
    : InField p d (e.value Z)
        ∧ ∃ c : Element t p, e.run t w = .ok (some c.ffe) ∧ c.value Z = e.value Z := by
  have : Fact p.Prime := ⟨h.prime⟩
  have := h.charP
  induction e with
  | elem a => exact ⟨he, a, rfl, rfl⟩
  | sum l r ihl ihr =>
    obtain ⟨hl, hrunl⟩ := ihl he.1
    obtain ⟨hr, hrunr⟩ := ihr he.2
    refine ⟨hl.add hr, apply_spec hd hrunl hrunr hl hr ?_⟩
    rintro a b ha hb
    rw [← ha, ← hb]
    show IsResult t p Z _ _ (l.value Z + r.value Z) _
    rw [← ha, ← hb]
    exact sumFFEFFE_spec h a b
  | diff l r ihl ihr =>
    obtain ⟨hl, hrunl⟩ := ihl he.1
    obtain ⟨hr, hrunr⟩ := ihr he.2
    refine ⟨hl.sub hr, apply_spec hd hrunl hrunr hl hr ?_⟩
    rintro a b ha hb
    show IsResult t p Z _ _ (l.value Z - r.value Z) _
    rw [← ha, ← hb]
    exact diffFFEFFE_spec h a b
  | prod l r ihl ihr =>
    obtain ⟨hl, hrunl⟩ := ihl he.1
    obtain ⟨hr, hrunr⟩ := ihr he.2
    refine ⟨hl.mul hr, apply_spec hd hrunl hrunr hl hr ?_⟩
    rintro a b ha hb
    show IsResult t p Z _ _ (l.value Z * r.value Z) _
    rw [← ha, ← hb]
    exact prodFFEFFE_spec h a b
  | quo l r ihl ihr =>
    obtain ⟨hl, hrunl⟩ := ihl he.1
    obtain ⟨hr, hrunr⟩ := ihr he.2.1
    refine ⟨hl.div hr, apply_spec hd hrunl hrunr hl hr ?_⟩
    rintro a b ha hb
    have hne := he.2.2
    rw [← hb] at hne
    show IsResult t p Z _ _ (l.value Z / r.value Z) _
    rw [← ha, ← hb]
    exact quoFFEFFE_spec h a b hne

end Expr

end Expressions

section Laws

def commonField (t : FFData) (w : IntSize) (a b : Element t p) : Result Nat := do
  commonFF t w a.ffe.fld (← degreeFFE t a.ffe) b.ffe.fld (← degreeFFE t b.ffe)

theorem commonField_eq_zero_iff (h : IsKernel t p Z) (a b : Element t p)
    : commonField t w a b = .ok 0 ↔ ¬HasCommonField t p (a.value Z) (b.value Z) := by
  obtain ⟨ff, hrun, -, hiff⟩ := @commonFF_degree K _ t w p Z h a b
  unfold commonField
  rw [a.degreeFFE_eq h, ok_bind, b.degreeFFE_eq h, ok_bind, hrun, ← hiff, Except.ok.injEq]

structure IsOperation (t : FFData) (w : IntSize) (p : Nat) (Z : Nat → K) (D : Element t p → Prop)
    (op : FFE → FFE → Result (Option FFE)) (f : K → K → K) : Prop where
  fallback : ∀ a b : Element t p, D b → (op a.ffe b.ffe = .ok none ↔ commonField t w a b = .ok 0)
  value : ∀ a b : Element t p, D b → op a.ffe b.ffe = .ok none
    ∨ ∃ c : Element t p, op a.ffe b.ffe = .ok (some c.ffe) ∧ c.value Z = f (a.value Z) (b.value Z)
  congr : ∀ a a' b b' : Element t p, D b → IsEq a a' → IsEq b b'
    → (op a.ffe b.ffe = .ok none ∧ op a'.ffe b'.ffe = .ok none)
      ∨ ∃ c c' : Element t p, op a.ffe b.ffe = .ok (some c.ffe)
        ∧ op a'.ffe b'.ffe = .ok (some c'.ffe) ∧ IsEq c c'

theorem isOperation_of_isResult (h : IsKernel t p Z) {D : Element t p → Prop}
    (hD : ∀ b b', IsEq b b' → D b → D b') {op : FFE → FFE → Result (Option FFE)} {f : K → K → K}
    (hop : ∀ a b : Element t p, D b
      → IsResult t p Z (a.value Z) (b.value Z) (f (a.value Z) (b.value Z)) (op a.ffe b.ffe))
    : IsOperation t w p Z D op f := by
  have hcases (a b : Element t p) (hb : D b) : op a.ffe b.ffe = .ok none
      ∨ ∃ c : Element t p, op a.ffe b.ffe = .ok (some c.ffe)
        ∧ c.value Z = f (a.value Z) (b.value Z) := by
    by_cases hyes : HasCommonField t p (a.value Z) (b.value Z)
    . exact .inr ((hop a b hb).exists_value hyes)
    . exact .inl ((hop a b hb).none_iff.mpr hyes)
  refine ⟨fun a b hb => ?_, hcases, fun a a' b b' hb haa hbb => ?_⟩
  . rw [(hop a b hb).none_iff, commonField_eq_zero_iff h]
  . have hb' := hD b b' hbb hb
    have hnone := (hop a b hb).none_iff
    have hnone' := (hop a' b' hb').none_iff
    rw [eq_iff h] at haa hbb
    rw [← haa, ← hbb, ← hnone] at hnone'
    rcases hcases a b hb with hop1 | ⟨c, hc, hcv⟩
    . exact .inl ⟨hop1, hnone'.mpr hop1⟩
    . rcases hcases a' b' hb' with hop2 | ⟨c', hc', hcv'⟩
      . rw [hnone'.mp hop2] at hc
        cases hc
      . refine .inr ⟨c, c', hc, hc', (eq_iff h c c').mpr ?_⟩
        rw [hcv, hcv', haa, hbb]

theorem quoFFEFFE_zero (h : IsKernel t p Z) (a b : Element t p) (hb : b.ffe.val = 0)
    : quoFFEFFE t w a.ffe b.ffe
        = .error (.quit "FFE operations: <divisor> must not be zero" 0 0) := by
  have hzero := (b.value_eq_zero_iff h).mpr hb
  obtain ⟨o, hrun, hnone, hsome⟩ := @bringIntoCommonField_spec K _ t w p Z h a b
  have hyes : HasCommonField t p (a.value Z) (b.value Z) := by
    refine ⟨a.deg, a.isSmallDegree h, a.inField h, ?_⟩
    rw [hzero]
    exact inField_zero h.prime.one_lt
  unfold quoFFEFFE inCommonField
  rw [hrun, ok_bind]
  cases o with
  | none => exact absurd hyes (hnone.mp rfl)
  | some v =>
    obtain ⟨fX, vL, vR⟩ := v
    obtain ⟨d, hX, -, -, -, hR⟩ := hsome fX vL vR rfl
    rw [hzero, (h.succTable d fX hX).power_eq_zero_iff] at hR
    dsimp only
    rw [if_pos hR]
    rfl

theorem powFFEInt_zero (t : FFData) {a : FFE} (ha : a.val = 0) {n : Int} (hn : n < 0)
    : powFFEInt t a n = .error (.quit "FFE operations: <divisor> must not be zero" 0 0) := by
  unfold powFFEInt
  rw [if_pos hn, if_pos ha]
  rfl

theorem finfield_spec (h : IsKernel t p Z) (w : IntSize)
    : IsOrder t p
        ∧ (∀ a b : Element t p, IsEq a b ↔ a.value Z = b.value Z)
        ∧ IsOperation t w p Z (fun _ => True) (sumFFEFFE t w) (fun x y => x + y)
        ∧ IsOperation t w p Z (fun _ => True) (diffFFEFFE t w) (fun x y => x - y)
        ∧ IsOperation t w p Z (fun _ => True) (prodFFEFFE t w) (fun x y => x * y)
        ∧ IsOperation t w p Z (fun b => b.ffe.val ≠ 0) (quoFFEFFE t w) (fun x y => x / y)
        ∧ (∀ a b : Element t p, b.ffe.val = 0 → quoFFEFFE t w a.ffe b.ffe
          = .error (.quit "FFE operations: <divisor> must not be zero" 0 0))
        ∧ (∀ d, IsSmallDegree t p d → ∀ e e' : Expr t p, e.IsDefined Z d → e'.IsDefined Z d
          → ∃ c c' : Element t p, e.run t w = .ok (some c.ffe) ∧ e'.run t w = .ok (some c'.ffe)
            ∧ (IsEq c c' ↔ e.value Z = e'.value Z))
        ∧ (∀ (a : Element t p) (n : Int), (0 ≤ n ∨ a.ffe.val ≠ 0)
          → ∃ c : Element t p, powFFEInt t a.ffe n = .ok c.ffe ∧ c.ffe.fld = a.ffe.fld
            ∧ c.value Z = a.value Z ^ n)
        ∧ (∀ (a : Element t p) (n : Int), a.ffe.val = 0 → n < 0 → powFFEInt t a.ffe n
          = .error (.quit "FFE operations: <divisor> must not be zero" 0 0))
        ∧ ∀ z r : Element t p, z.ffe.val ≠ 0 → r.ffe.val ≠ 0
          → ∃ o, logFFEDefault t w z.ffe r.ffe = .ok o
            ∧ (o = .large ↔ commonField t w z r = .ok 0)
            ∧ (o = .fail → ∀ l : Int, r.value Z ^ l ≠ z.value Z)
            ∧ ∀ l, o = .log l → 0 ≤ l ∧ r.value Z ^ l = z.value Z := by
  have hne (a : Element t p) : a.ffe.val ≠ 0 ↔ a.value Z ≠ 0 := (a.value_eq_zero_iff h).symm.not
  refine ⟨isOrder h, eq_iff h, ?_, ?_, ?_, ?_, quoFFEFFE_zero h, ?_, ?_, ?_, ?_⟩
  . exact isOperation_of_isResult h (fun _ _ _ hb => hb) fun a b _ => sumFFEFFE_spec h a b
  . exact isOperation_of_isResult h (fun _ _ _ hb => hb) fun a b _ => diffFFEFFE_spec h a b
  . exact isOperation_of_isResult h (fun _ _ _ hb => hb) fun a b _ => prodFFEFFE_spec h a b
  . apply isOperation_of_isResult h
    . intro b b' hbb hb
      rw [eq_iff h] at hbb
      rwa [hne, ← hbb, ← hne]
    . exact fun a b hb => quoFFEFFE_spec h a b ((hne b).mp hb)
  . intro d hd e e' he he'
    obtain ⟨-, c, hrun, hc⟩ := @Expr.run_eq_value K _ t w p Z h d hd e he
    obtain ⟨-, c', hrun', hc'⟩ := @Expr.run_eq_value K _ t w p Z h d hd e' he'
    refine ⟨c, c', hrun, hrun', ?_⟩
    rw [eq_iff h, hc, hc']
  . exact fun a n hn => powFFEInt_spec h a n (hn.imp_right (hne a).mp)
  . exact fun a n ha hn => powFFEInt_zero t ha hn
  . intro z r hz hr
    obtain ⟨o, hrun, hlarge, hrest⟩ :=
      @logFFEDefault_spec K _ t w p Z h z r ((hne z).mp hz) ((hne r).mp hr)
    refine ⟨o, hrun, ?_, hrest⟩
    rw [hlarge, commonField_eq_zero_iff h]

end Laws

section Small

def smallFFData : FFData where
  numShortFiniteFields := 3
  sizeFF ff := [0, 2, 3, 4].getD ff 0
  charFF ff := [0, 2, 3, 2].getD ff 0
  degrFF ff := [0, 1, 1, 2].getD ff 0
  succFF ff := [[], [1, 0], [2, 2, 0], [3, 0, 3, 2]].getD ff []

theorem isFFData_small : IsFFData smallFFData := by
  refine ⟨?_, ?_, ?_, ?_, ?_, ?_⟩
  . intro ff h0 hle
    have hle : ff ≤ 3 := hle
    interval_cases ff
    . exact prime_two
    . exact prime_three
    . exact prime_two
  . intro ff h0 hle
    have hle : ff ≤ 3 := hle
    interval_cases ff <;> decide
  . intro ff h0 hle
    have hle : ff ≤ 3 := hle
    interval_cases ff <;> rfl
  . intro ff h0 hle
    have hle : ff ≤ 3 := hle
    interval_cases ff <;> decide
  . intro i j hi hij hj
    have hj : j ≤ 3 := hj
    interval_cases j <;> interval_cases i <;> decide
  . intro p d hp hd hle
    have hle : p ^ d ≤ 4 := hle
    have hd2 : d ≤ 2 := by
      by_contra hlt
      have h1 := Nat.pow_le_pow_left hp.two_le d
      have h2 := Nat.pow_le_pow_right Nat.two_pos (show 3 ≤ d by omega)
      omega
    have hp4 : p ≤ 4 := Nat.le_trans (Nat.le_self_pow (Nat.ne_of_gt hd) p) hle
    have hp2 := hp.two_le
    interval_cases d <;> interval_cases p
    . exact ⟨1, by decide, by decide, rfl⟩
    . exact ⟨2, by decide, by decide, rfl⟩
    . exact absurd hp (by decide)
    . exact ⟨3, by decide, by decide, rfl⟩
    . exact absurd hle (by decide)
    . exact absurd hle (by decide)

theorem exists_root : ∃ ζ : GaloisField 2 2, IsPrimitiveRoot ζ 3 := by
  obtain ⟨g, hg⟩ := IsCyclic.exists_generator (α := (GaloisField 2 2)ˣ)
  have hcard : Nat.card (GaloisField 2 2)ˣ = 3 := by
    rw [card_units, GaloisField.card 2 2 (by decide)]
    decide
  have horder : orderOf g = 3 := by
    rw [orderOf_eq_card_of_forall_mem_zpowers hg, hcard]
  refine ⟨g, IsPrimitiveRoot.coe_units_iff.mpr ?_⟩
  rw [← horder]
  exact IsPrimitiveRoot.orderOf g

theorem isKernel_small {ζ : GaloisField 2 2} (hζ : IsPrimitiveRoot ζ 3)
    : IsKernel smallFFData 2 (fun d => if d = 2 then ζ else 1) := by
  have hdegree {d : Nat} (hd : IsSmallDegree smallFFData 2 d) : d = 1 ∨ d = 2 := by
    obtain ⟨hpos, -, hle⟩ := hd
    have hle : 2 ^ d ≤ 4 := hle
    have : d ≤ 2 := by
      by_contra hlt
      have h2 := Nat.pow_le_pow_right Nat.two_pos (show 3 ≤ d by omega)
      omega
    omega
  have htwo : (2 : GaloisField 2 2) = 0 := CharP.cast_eq_zero (GaloisField 2 2) 2
  have hone : (1 : GaloisField 2 2) + 1 = 0 := by
    rw [one_add_one_eq_two, htwo]
  have hquad : ζ ^ 2 = ζ + 1 := by
    have hsum := hζ.geom_sum_eq_zero (by decide)
    rw [sum_range_succ, sum_range_succ, sum_range_one] at hsum
    linear_combination hsum - (ζ + 1) * htwo
  have hcases {d ff : Nat} (h : IsField smallFFData 2 d ff)
      : (ff = 1 ∧ d = 1) ∨ (ff = 3 ∧ d = 2) := by
    obtain ⟨hpos, hle, hchar, rfl⟩ := h
    have hle : ff ≤ 3 := hle
    interval_cases ff
    . exact .inl ⟨rfl, rfl⟩
    . cases hchar
    . exact .inr ⟨rfl, rfl⟩
  refine ⟨isFFData_small, prime_two, inferInstance, ⟨fun d hd => hd.1, ?_, ?_, ?_⟩, ?_⟩
  . intro d e hd he hed
    refine ⟨he, by decide, ?_⟩
    exact Nat.le_trans (Nat.pow_le_pow_right Nat.two_pos (le_of_dvd hd.1 hed)) hd.2.2
  . intro d hd
    rcases hdegree hd with rfl | rfl
    . exact IsPrimitiveRoot.one
    . exact hζ
  . intro d e hd he hed
    rcases hdegree hd with rfl | rfl
    . obtain rfl := Nat.dvd_one.mp hed
      exact one_pow _
    . rcases (dvd_prime prime_two).mp hed with rfl | rfl
      . exact hζ.pow_eq_one
      . exact pow_one ζ
  . intro d ff hff
    rcases hcases hff with ⟨rfl, rfl⟩ | ⟨rfl, rfl⟩
    . refine ⟨by decide, IsPrimitiveRoot.one, fun _ => by linear_combination -htwo, rfl, ?_⟩
      intro n h0 hn
      obtain rfl : n = 1 := by omega
      exact ⟨0, rfl, by decide, by simpa [power] using hone.symm⟩
    . refine ⟨by decide, hζ, fun _ => by linear_combination -htwo, rfl, ?_⟩
      intro n h0 hn
      have hn : n < 4 := hn
      interval_cases n
      . exact ⟨0, rfl, by decide, by simpa [power] using hone.symm⟩
      . exact ⟨3, rfl, by decide, by simpa [power] using hquad⟩
      . refine ⟨2, rfl, by decide, ?_⟩
        rw [if_pos rfl, power_of_pos (by decide), power_of_pos (by decide)]
        show ζ ^ 1 = ζ ^ 2 + 1
        linear_combination -hquad - htwo

theorem finfield_spec_small
    : IsOrder smallFFData 2 ∧ ∀ a b : Element smallFFData 2, b.ffe.val = 0
      → quoFFEFFE smallFFData .int8 a.ffe b.ffe
        = .error (.quit "FFE operations: <divisor> must not be zero" 0 0) := by
  obtain ⟨ζ, hζ⟩ := exists_root
  obtain ⟨h1, -, -, -, -, -, h2, -⟩ := finfield_spec (isKernel_small hζ) .int8
  exact ⟨h1, h2⟩

end Small

end Finfield
