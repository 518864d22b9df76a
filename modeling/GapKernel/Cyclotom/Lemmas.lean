import GapKernel.Cyclotom.Impl
import GapKernel.CyclotomicBase
import Mathlib.Algebra.BigOperators.Ring.Nat
import Mathlib.RingTheory.RootsOfUnity.Complex

open CyclotomicBase List Finset

namespace CycImpl

def coef (res : List ℚ) (x : Nat) : ℚ :=
  res.getD x 0

def lowEnd (p q : Nat) : Int :=
  if p = 2 then (q / 2 : Nat) else -((q / p - 1) / 2 : Nat)

def IsLeftOut (n p q k : Nat) : Prop :=
  ∃ b : Int, (if p = 2 then (q / 2 : Nat) ≤ b ∧ b ≤ q - 1
    else -((q / p - 1) / 2 : Nat) ≤ b ∧ b ≤ ((q / p - 1) / 2 : Nat))
    ∧ (k : Int) ≡ (n / q : Nat) * b [ZMOD q]

def InBase (n k : Nat) : Prop :=
  ∀ p q, IsMaximalPower n p q → ¬IsLeftOut n p q k

variable {n p q k : Nat} {w : IntSize} {res res' : List ℚ}

section Words

theorem subUInt_of_le {a b : Nat} (hle : b ≤ a) (ha : a < 2 ^ w.bits) : subUInt w a b = a - b := by
  unfold subUInt
  rw [Nat.mod_eq_of_lt (by omega : b < 2 ^ w.bits),
    show a + (2 ^ w.bits - b) = a - b + 2 ^ w.bits by omega, Nat.add_mod_right,
    Nat.mod_eq_of_lt (by omega)]

theorem subUInt_add {a b n : Nat} (hle : b ≤ n) (hlt : a + n < 2 ^ w.bits)
    : (subUInt w a b + n) % 2 ^ w.bits = a + n - b := by
  by_cases hab : b ≤ a
  . rw [subUInt_of_le hab (by omega), Nat.mod_eq_of_lt (by omega)]
    omega
  . unfold subUInt
    rw [Nat.mod_eq_of_lt (by omega : b < 2 ^ w.bits),
      Nat.mod_eq_of_lt (by omega : a + (2 ^ w.bits - b) < 2 ^ w.bits),
      show a + (2 ^ w.bits - b) + n = a + n - b + 2 ^ w.bits by omega, Nat.add_mod_right,
      Nat.mod_eq_of_lt (by omega)]

theorem not_dvd_pow_sub_one {a b e : Nat} (hodd : p % 2 = 1) (hp : 1 < p) (hlt : p ^ a < 2 ^ b)
    (he : 0 < e) (hle : e ≤ 2 * a) : ¬2 ^ (b + 2) ∣ p ^ e - 1 := by
  intro hdvd
  have hpodd : Odd p := Nat.odd_iff.mpr hodd
  have hb : 2 ^ (b + 2) = 4 * 2 ^ b := by
    rw [pow_add]
    omega
  have hpa : ∀ f, f ≤ a → p ^ f < 2 ^ b := fun f hf =>
    Nat.lt_of_le_of_lt (Nat.pow_le_pow_right (by omega) hf) hlt
  rcases Nat.even_or_odd' e with ⟨f, hf | hf⟩
  . have hx := hpa f (by omega)
    have hxodd := Nat.odd_iff.mp (hpodd.pow (n := f))
    have hx1 : 1 < p ^ f := Nat.one_lt_pow (by omega) hp
    obtain ⟨u, hu⟩ : ∃ u, p ^ f = 2 * u + 1 := ⟨p ^ f / 2, by omega⟩
    have hprod : p ^ e - 1 = 4 * (u * (u + 1)) := by
      rw [hf, Nat.mul_comm, pow_mul, hu]
      have : (2 * u + 1) ^ 2 = 4 * (u * (u + 1)) + 1 := by
        ring
      omega
    rw [hprod, hb] at hdvd
    have hdvd := Nat.dvd_of_mul_dvd_mul_left (by omega) hdvd
    have hcases : 2 ^ b ∣ u ∨ 2 ^ b ∣ u + 1 := by
      rcases Nat.even_or_odd u with heven | hodd
      . have hcop : Nat.Coprime (2 ^ b) (u + 1) :=
          Nat.Coprime.pow_left _ (Nat.coprime_two_left.mpr heven.add_one)
        exact Or.inl (hcop.dvd_of_dvd_mul_right hdvd)
      . have hcop : Nat.Coprime (2 ^ b) u :=
          Nat.Coprime.pow_left _ (Nat.coprime_two_left.mpr hodd)
        exact Or.inr (hcop.dvd_of_dvd_mul_left hdvd)
    rcases hcases with h | h
    . have := Nat.le_of_dvd (by omega) h
      omega
    . have := Nat.le_of_dvd (by omega) h
      omega
  . have hsum : (∑ i ∈ Finset.range e, p ^ i) * (p - 1) = p ^ e - 1 :=
      geom_sum_mul_of_one_le (Nat.le_of_lt hp) e
    have hoddsum : Odd (∑ i ∈ Finset.range e, p ^ i) := by
      rw [odd_sum_iff_odd_card_odd,
        filter_true_of_mem fun i _ => hpodd.pow, card_range]
      exact ⟨f, hf⟩
    have hcop : Nat.Coprime (2 ^ (b + 2)) (∑ i ∈ Finset.range e, p ^ i) :=
      Nat.Coprime.pow_left _ (Nat.coprime_two_left.mpr hoddsum)
    rw [← hsum] at hdvd
    have hle' := Nat.le_of_dvd (by omega) (hcop.dvd_of_dvd_mul_left hdvd)
    have ha : 1 ≤ a := by
      omega
    have := hpa 1 ha
    rw [pow_one] at this
    omega

theorem maximalPower_step {nn a : Nat} (hp : p.Prime) (hdvd : p ^ (a + 1) ∣ nn)
    (hfactors : ∀ p', p'.Prime → p' ∣ nn → p ≤ p') (hpos : 0 < nn) (hnn : nn ≤ w.intIntobjMax)
    : p * p ^ (a + 1) % 2 ^ w.bits ≠ 0
      ∧ (nn % (p * p ^ (a + 1) % 2 ^ w.bits) = 0 ↔ p * p ^ (a + 1) ∣ nn) := by
  obtain ⟨b, hbits, hlt⟩ : ∃ b, w.bits = b + 2 + 2 ∧ nn < 2 ^ b := by
    unfold IntSize.intIntobjMax IntSize.nrSmallIntBits IntSize.bits at hnn
    cases w with
    | int4 => exact ⟨28, rfl, by dsimp only at hnn; omega⟩
    | int8 => exact ⟨60, rfl, by dsimp only at hnn; omega⟩
  have hB : 2 ^ w.bits = 16 * 2 ^ b := by
    rw [hbits, pow_add, pow_add]
    omega
  have hq := Nat.le_of_dvd hpos hdvd
  by_cases hsmall : p * p ^ (a + 1) < 2 ^ w.bits
  . rw [Nat.mod_eq_of_lt hsmall]
    have := hp.pos
    exact ⟨by positivity, (Nat.dvd_iff_mod_eq_zero).symm⟩
  . have hodd : p % 2 = 1 := by
      apply hp.eq_two_or_odd.resolve_left
      rintro rfl
      omega
    have hpodd : Odd (p * p ^ (a + 1)) :=
      (Nat.odd_iff.mpr hodd).mul (Nat.odd_iff.mpr hodd).pow
    have hwodd : p * p ^ (a + 1) % 2 ^ w.bits % 2 = 1 := by
      rw [Nat.mod_mod_of_dvd _ (by rw [hbits]; exact ⟨2 ^ (b + 2 + 1), by ring⟩)]
      exact Nat.odd_iff.mp hpodd
    have hnot : ¬p * p ^ (a + 1) ∣ nn := by
      intro h
      have := Nat.le_of_dvd hpos h
      omega
    refine ⟨by omega, fun h => ?_, fun h => absurd h hnot⟩
    exfalso
    have heq : nn = p ^ (a + 1) := by
      obtain ⟨r, rfl⟩ := hdvd
      by_cases hr : r = 1
      . rw [hr, mul_one]
      . exfalso
        have hle := hfactors _ (Nat.minFac_prime hr) ((Nat.minFac_dvd r).mul_left _)
        have hrpos : 0 < r := Nat.pos_of_mul_pos_left hpos
        have := hle.trans (Nat.minFac_le hrpos)
        have : p * p ^ (a + 1) ≤ p ^ (a + 1) * r := by
          rw [Nat.mul_comm p]
          exact Nat.mul_le_mul_left _ this
        omega
    rw [heq] at h
    obtain ⟨j, hj, hpow⟩ := (Nat.dvd_prime_pow hp).mp (Nat.dvd_of_mod_eq_zero h)
    have hmod : p ^ j ≡ p ^ (a + 2) [MOD 2 ^ w.bits] := by
      rw [← hpow, pow_succ' p (a + 1)]
      exact Nat.mod_modEq _ _
    have hdiff := (Nat.modEq_iff_dvd' (Nat.pow_le_pow_right hp.pos (by omega))).mp hmod
    have hsplit : p ^ (a + 2) - p ^ j = p ^ j * (p ^ (a + 2 - j) - 1) := by
      rw [Nat.mul_sub, mul_one, ← pow_add]
      congr 2
      omega
    rw [hsplit] at hdiff
    have hcop : Nat.Coprime (2 ^ w.bits) (p ^ j) :=
      Nat.Coprime.pow_left _ (Nat.coprime_two_left.mpr (Nat.odd_iff.mpr hodd).pow)
    have hdiff := hcop.dvd_of_dvd_mul_left hdiff
    rw [hbits] at hdiff
    refine not_dvd_pow_sub_one hodd hp.one_lt (a := a + 1) ?_ (by omega) (by omega) hdiff
    rw [← heq, pow_add]
    omega

theorem maximalPower_spec {nn fuel : Nat} (hp : p.Prime)
    (hfactors : ∀ p', p'.Prime → p' ∣ nn → p ≤ p') (hpos : 0 < nn) (hnn : nn ≤ w.intIntobjMax)
    (hpow : ∃ a, q = p ^ (a + 1)) (hdvd : q ∣ nn) (hfuel : nn - q < fuel)
    : ∃ q', maximalPower w nn p fuel q = .ok q' ∧ IsMaximalPower nn p q' := by
  induction fuel generalizing q with
  | zero => omega
  | succ fuel ih =>
    obtain ⟨a, rfl⟩ := hpow
    obtain ⟨hne, hiff⟩ := maximalPower_step hp hdvd hfactors hpos hnn
    unfold maximalPower
    rw [if_neg hne]
    by_cases hdvd' : p * p ^ (a + 1) ∣ nn
    . have hle := Nat.le_of_dvd hpos hdvd'
      have hlt : p ^ (a + 1) < p * p ^ (a + 1) :=
        (Nat.lt_mul_iff_one_lt_left (Nat.pow_pos hp.pos)).mpr hp.one_lt
      have hword : p * p ^ (a + 1) < 2 ^ w.bits := by
        unfold IntSize.intIntobjMax IntSize.nrSmallIntBits at hnn
        unfold IntSize.bits at *
        cases w with
        | int4 => dsimp only at hnn ⊢; omega
        | int8 => dsimp only at hnn ⊢; omega
      rw [if_pos (hiff.mpr hdvd'), Nat.mod_eq_of_lt hword]
      exact ih ⟨a + 1, (pow_succ' p (a + 1)).symm⟩ hdvd' (by omega)
    . rw [if_neg fun h => hdvd' (hiff.mp h)]
      exact ⟨_, rfl, hp, ⟨a, rfl⟩, hdvd, hdvd'⟩

end Words

section Eliminate

theorem coef_set {x : Nat} {c : ℚ} (h : k < res.length)
    : coef (res.set k c) x = if x = k then c else coef res x :=
  getD_set h

theorem diffCoef_eq {l : Nat} (hl : l < res.length) (hk : k < res.length)
    : diffCoef res l k = .ok (res.set l (coef res l - coef res k)) := by
  unfold diffCoef
  rw [readAt_of_lt hl 0, ok_bind, readAt_of_lt hk 0, ok_bind]
  exact writeAt_of_lt hl _

def IsRelated (n p k x : Nat) : Prop :=
  ∃ j, 0 < j ∧ j < p ∧ x = (k + j * (n / p)) % n

theorem mod_inj {j j' : Nat} (hdvd : p ∣ n) (hn : 0 < n) (hj : j < p) (hlt : j' < j)
    : (k + j * (n / p)) % n ≠ (k + j' * (n / p)) % n := by
  intro heq
  have hle : k + j' * (n / p) ≤ k + j * (n / p) := by
    have := Nat.mul_le_mul_right (n / p) (Nat.le_of_lt hlt)
    omega
  have hdiff := (Nat.modEq_iff_dvd' hle).mp heq.symm
  rw [Nat.add_sub_add_left, ← Nat.sub_mul] at hdiff
  have hd : 0 < n / p := Nat.div_pos (Nat.le_of_dvd hn hdvd) (by omega)
  have hpos : 0 < (j - j') * (n / p) := Nat.mul_pos (by omega) hd
  have hle' := Nat.le_of_dvd hpos hdiff
  have hmul : (j - j' + 1) * (n / p) ≤ p * (n / p) := Nat.mul_le_mul_right _ (by omega)
  rw [Nat.add_mul, Nat.one_mul, Nat.mul_div_cancel' hdvd] at hmul
  omega

theorem isRelated_iff {x : Nat} (hdvd : p ∣ n) (hk : k < n) (hx : x < n)
    : IsRelated n p k x ↔ x ≠ k ∧ x ≡ k [MOD n / p] := by
  have hp : 0 < p := Nat.pos_of_dvd_of_pos hdvd (by omega)
  have hmul : p * (n / p) = n := Nat.mul_div_cancel' hdvd
  constructor
  . rintro ⟨j, hpos, hlt, rfl⟩
    constructor
    . have := mod_inj (k := k) hdvd (by omega) hlt hpos
      rwa [zero_mul, add_zero, Nat.mod_eq_of_lt hk] at this
    . have hmod : (k + j * (n / p)) % n ≡ k + j * (n / p) [MOD n / p] :=
        (Nat.mod_modEq _ _).of_dvd ⟨p, by rw [Nat.mul_comm, hmul]⟩
      exact hmod.trans (Nat.add_mul_mod_self_right k j (n / p))
  . rintro ⟨hne, hmod⟩
    by_cases hlt : k < x
    . obtain ⟨j, hj⟩ := (Nat.modEq_iff_dvd' (Nat.le_of_lt hlt)).mp hmod.symm
      rw [Nat.mul_comm] at hj
      refine ⟨j, Nat.pos_of_ne_zero ?_, ?_, ?_⟩
      . rintro rfl
        omega
      . apply Nat.lt_of_mul_lt_mul_right (a := n / p)
        omega
      . rw [← hj, Nat.add_sub_cancel' (Nat.le_of_lt hlt), Nat.mod_eq_of_lt hx]
    . obtain ⟨j, hj⟩ := (Nat.modEq_iff_dvd' (Nat.le_of_not_lt hlt)).mp hmod
      rw [Nat.mul_comm] at hj
      have hjp : j < p := by
        apply Nat.lt_of_mul_lt_mul_right (a := n / p)
        omega
      have hjpos : 0 < j := by
        apply Nat.pos_of_ne_zero
        rintro rfl
        omega
      refine ⟨p - j, by omega, by omega, ?_⟩
      rw [Nat.sub_mul, hmul, ← hj, show k + (n - (k - x)) = x + n by omega, Nat.add_mod_right,
        Nat.mod_eq_of_lt hx]

theorem isCleared_of_related {f f' : Nat → ℚ} (hdvd : p ∣ n) (hk : k < n) (hself : f' k = 0)
    (hrelated : ∀ x, x ≠ k → IsRelated n p k x → f' x = f x - f k)
    (hother : ∀ x, x ≠ k → ¬IsRelated n p k x → f' x = f x) : IsCleared n p k f f' := by
  refine ⟨hself, ?_, ?_⟩
  . intro x hx hne hmod
    exact hrelated x hne ((isRelated_iff hdvd hk hx).mpr ⟨hne, hmod⟩)
  . intro x hx
    have hne : x ≠ k := by
      rintro rfl
      rcases hx with hx | hx
      . omega
      . exact hx rfl
    apply hother x hne
    intro hrel
    rcases hx with hx | hx
    . obtain ⟨j, _, _, rfl⟩ := hrel
      have := Nat.mod_lt (k + j * (n / p)) (by omega : n > 0)
      omega
    . by_cases hlt : x < n
      . exact hx ((isRelated_iff hdvd hk hlt).mp hrel).2
      . obtain ⟨j, _, _, rfl⟩ := hrel
        exact hlt (Nat.mod_lt _ (by omega))

def IsEliminate (n p : Nat) (body : Nat → List ℚ → Result (List ℚ)) : Prop :=
  ∀ k < n, ∀ res : List ℚ, n ≤ res.length → ∃ res', body k res = .ok res'
    ∧ res'.length = res.length ∧ IsCleared n p k (coef res) (coef res')

theorem isCleared_self (h : coef res k = 0) : IsCleared n p k (coef res) (coef res) :=
  ⟨h, fun x _ _ _ => by rw [h, sub_zero], fun x _ => rfl⟩

theorem eliminateTwo_spec (hdvd : 2 ∣ n) : IsEliminate n 2 (eliminateTwo n) := by
  intro k hk res hlen
  have hl : (k + n / 2) % n < res.length :=
    Nat.lt_of_lt_of_le (Nat.mod_lt _ (by omega)) hlen
  have hk' : k < res.length := by
    omega
  unfold eliminateTwo
  rw [readAt_of_lt hk' 0, ok_bind]
  split
  next hne =>
    have hiff : ∀ x, IsRelated n 2 k x ↔ x = (k + n / 2) % n := by
      intro x
      constructor
      . rintro ⟨j, hpos, hlt, rfl⟩
        rw [show j = 1 by omega, one_mul]
      . rintro rfl
        exact ⟨1, Nat.one_pos, Nat.one_lt_two, by rw [one_mul]⟩
    have hlk : k < (res.set ((k + n / 2) % n) (coef res ((k + n / 2) % n) - coef res k)).length := by
      rw [length_set]
      exact hk'
    rw [diffCoef_eq hl hk', ok_bind, writeAt_of_lt hlk]
    refine ⟨_, rfl, by rw [length_set, length_set], ?_⟩
    apply isCleared_of_related hdvd hk
    . rw [coef_set hlk, if_pos rfl]
    . intro x hx hrel
      rw [coef_set hlk, if_neg hx, coef_set hl, if_pos ((hiff x).mp hrel), (hiff x).mp hrel]
    . intro x hx hrel
      rw [coef_set hlk, if_neg hx, coef_set hl, if_neg fun h => hrel ((hiff x).mpr h)]
  next hzero => exact ⟨res, rfl, rfl, isCleared_self (not_not.mp hzero)⟩

structure IsPartly (n p k j : Nat) (res res' : List ℚ) : Prop where
  length_eq : res'.length = res.length
  sub : ∀ x, (∃ i, 0 < i ∧ i < j ∧ x = (k + i * (n / p)) % n) → coef res' x = coef res x - coef res k
  other : ∀ x, (¬∃ i, 0 < i ∧ i < j ∧ x = (k + i * (n / p)) % n) → coef res' x = coef res x

theorem IsPartly.step {j : Nat} (hdvd : p ∣ n) (hk : k < n) (hlen : n ≤ res.length) (hj : j < p)
    (hpos : 0 < j) (h : IsPartly n p k j res res')
    : ∃ res1, diffCoef res' ((k + j * (n / p)) % n) k = .ok res1
      ∧ IsPartly n p k (j + 1) res res1 := by
  have hl : (k + j * (n / p)) % n < res'.length := by
    rw [h.length_eq]
    exact Nat.lt_of_lt_of_le (Nat.mod_lt _ (by omega)) hlen
  have hk' : k < res'.length := by
    rw [h.length_eq]
    omega
  have hself : coef res' k = coef res k := by
    apply h.other
    rintro ⟨i, hi, hij, heq⟩
    have := mod_inj (k := k) hdvd (by omega) (hij.trans hj) hi
    rw [zero_mul, add_zero, Nat.mod_eq_of_lt hk] at this
    exact this heq.symm
  have hnew : coef res' ((k + j * (n / p)) % n) = coef res ((k + j * (n / p)) % n) := by
    apply h.other
    rintro ⟨i, _, hij, heq⟩
    exact mod_inj hdvd (by omega) hj hij heq
  refine ⟨_, diffCoef_eq hl hk', length_set.trans h.length_eq, ?_, ?_⟩
  . rintro x ⟨i, hi, hij, rfl⟩
    rw [coef_set hl]
    split
    next heq => rw [heq, hnew, hself]
    next hne =>
      refine h.sub _ ⟨i, hi, ?_, rfl⟩
      by_contra hge
      rw [show i = j by omega] at hne
      exact hne rfl
  . intro x hx
    rw [coef_set hl, if_neg]
    . exact h.other x fun ⟨i, hi, hij, heq⟩ => hx ⟨i, hi, by omega, heq⟩
    . intro heq
      exact hx ⟨j, hpos, by omega, heq⟩

theorem eliminateOdd_spec (hp : 1 < p) (hdvd : p ∣ n) : IsEliminate n p (eliminateOdd n p) := by
  intro k hk res hlen
  have hk' : k < res.length := by
    omega
  have hmul : p * (n / p) = n := Nat.mul_div_cancel' hdvd
  have hd : 0 < n / p := Nat.div_pos (Nat.le_of_dvd (by omega) hdvd) (by omega)
  unfold eliminateOdd
  rw [readAt_of_lt hk' 0, ok_bind]
  split
  next hne =>
    have hloop : ∃ s, stepLoop (fun l res => diffCoef res (l % n) k) (n / p) (k + n) (n + 1)
        (k + n / p) res = .ok s ∧ IsPartly n p k p res s := by
      apply stepLoop_of_inv
        (fun l s => ∃ j, 0 < j ∧ j ≤ p ∧ l = k + j * (n / p) ∧ IsPartly n p k j res s) hd (by omega)
      . exact ⟨1, Nat.one_pos, by omega, by rw [one_mul], rfl,
          fun x ⟨i, hi, hij, _⟩ => by omega, fun x _ => rfl⟩
      . rintro l s _ hlt ⟨j, hpos, hle, rfl, hs⟩
        have hjp : j < p := by
          apply Nat.lt_of_mul_lt_mul_right (a := n / p)
          omega
        obtain ⟨s1, hrun, hs1⟩ := hs.step hdvd hk hlen hjp hpos
        exact ⟨s1, hrun, j + 1, by omega, hjp, by rw [Nat.add_mul, one_mul, Nat.add_assoc], hs1⟩
      . rintro l s hge ⟨j, _, hle, rfl, hs⟩
        have hjp : p ≤ j :=
          Nat.le_of_mul_le_mul_right (by omega : p * (n / p) ≤ j * (n / p)) hd
        rwa [show j = p by omega] at hs
    obtain ⟨s, hrun, hs⟩ := hloop
    have hks : k < s.length := by
      rw [hs.length_eq]
      exact hk'
    rw [hrun, ok_bind, writeAt_of_lt hks]
    refine ⟨_, rfl, length_set.trans hs.length_eq, ?_⟩
    apply isCleared_of_related hdvd hk
    . rw [coef_set hks, if_pos rfl]
    . intro x hx hrel
      rw [coef_set hks, if_neg hx]
      exact hs.sub x hrel
    . intro x hx hrel
      rw [coef_set hks, if_neg hx]
      exact hs.other x hrel
  next hzero => exact ⟨res, rfl, rfl, isCleared_self (not_not.mp hzero)⟩

end Eliminate

section Pass

variable {D : Nat → Prop} {res0 : List ℚ} {body : Nat → List ℚ → Result (List ℚ)}

structure IsPass (n p : Nat) (D : Nat → Prop) (res0 res : List ℚ) : Prop where
  length_eq : res.length = res0.length
  reduces : Reduces n (coef res0) (coef res)
  clean : ∀ p', p' ≠ p → Clean lowEnd n p' (coef res0) → Clean lowEnd n p' (coef res)
  done : ∀ x, D x → coef res x = 0

def IsIn (n p q : Nat) (D : Nat → Prop) : Prop :=
  ∀ x, D x → x < n ∧ InWindow n q (lowEnd p q) (q / p : Nat) x

theorem IsPass.mono {D' : Nat → Prop} (h : IsPass n p D res0 res) (hD : ∀ x, D' x → D x)
    : IsPass n p D' res0 res :=
  ⟨h.length_eq, h.reduces, h.clean, fun x hx => h.done x (hD x hx)⟩

theorem IsPass.step (hmax : IsMaximalPower n p q) (hD : IsIn n p q D) (hk : k < n)
    (hwin : InWindow n q (lowEnd p q) (q / p : Nat) k) (hbody : IsEliminate n p body)
    (hlen : n ≤ res0.length) (h : IsPass n p D res0 res)
    : ∃ res', body k res = .ok res' ∧ IsPass n p (fun x => D x ∨ x = k) res0 res' := by
  obtain ⟨res', hrun, hlen', hclear⟩ := hbody k hk res (h.length_eq ▸ hlen)
  have hdvd := hmax.prime_dvd
  refine ⟨res', hrun, hlen'.trans h.length_eq,
    h.reduces.tail ⟨p, k, hmax.prime, hdvd, hk, hclear⟩, ?_, ?_⟩
  . intro p' hne hclean
    exact (h.clean p' hne hclean).of_cleared hmax.prime hdvd hne hk hclear
  . rintro x (hx | rfl)
    . obtain ⟨hxn, hwx⟩ := hD x hx
      exact eq_zero_of_cleared hmax hxn hk hwx hwin hclear (h.done x hx)
    . exact hclear.self

theorem strideLoop_of_inv (I : Nat → List ℚ → Prop) {d stop fuel : Nat} (hd : 0 < d)
    (hfuel : stop - k < fuel) (hI : I k res)
    (hstep : ∀ j s, j < stop → I j s → ∃ s', body j s = .ok s' ∧ I (j + d) s')
    : ∃ k' res', strideLoop body d stop fuel k res = .ok (k', res') ∧ stop ≤ k' ∧ I k' res' := by
  induction fuel generalizing k res with
  | zero => omega
  | succ fuel ih =>
    unfold strideLoop
    split
    next hlt =>
      obtain ⟨s1, hrun, hs1⟩ := hstep k res hlt hI
      rw [hrun, ok_bind]
      exact ih (by omega) hs1
    next hge => exact ⟨k, res, rfl, by omega, hI⟩

def IsAt (n p q i x : Nat) : Prop :=
  x < n ∧ ∃ c < q / p, (x : Int) ≡ i + (n / q : Nat) * (lowEnd p q + (c : Nat)) [ZMOD n]

theorem isIn_isAt {i : Nat} (hmax : IsMaximalPower n p q) (hi : q ∣ i)
    : IsIn n p q (IsAt n p q i) := by
  rintro x ⟨hx, c, hc, hmod⟩
  exact ⟨hx, inWindow_of_start hmax.dvd hi hc hmod⟩

def IsUpTo (n p q start : Nat) (D : Nat → Prop) (res0 : List ℚ) (c : Nat) (res : List ℚ) : Prop :=
  c ≤ q / p ∧ IsPass n p (fun x => D x ∨ ∃ c' < c, x = (start + n / q * c') % n) res0 res

theorem strideLoops_spec {i start stop : Nat} (hmax : IsMaximalPower n p q) (hn : 0 < n)
    (hi : q ∣ i) (hbody : IsEliminate n p body)
    (hstart : (start : Int) ≡ i + (n / q : Nat) * lowEnd p q [ZMOD n])
    (hend : ∀ c, start + n / q * c < stop ↔ c < q / p) (hle : n ≤ stop) (hstop : stop ≤ 2 * n)
    (hD : IsIn n p q D) (hlen : n ≤ res0.length) (hpass : IsPass n p D res0 res)
    : ∃ k res1 k' res', strideLoop body (n / q) n (n + 1) start res = .ok (k, res1)
      ∧ strideLoop body (n / q) (stop - n) (n + 1) (k - n) res1 = .ok (k', res')
      ∧ IsPass n p (fun x => D x ∨ IsAt n p q i x) res0 res' := by
  have hd : 0 < n / q :=
    Nat.div_pos (Nat.le_of_dvd hn hmax.dvd) (Nat.pos_of_dvd_of_pos hmax.dvd hn)
  have hat : ∀ c, c < q / p → IsAt n p q i ((start + n / q * c) % n) := by
    intro c hc
    refine ⟨Nat.mod_lt _ hn, c, hc, ?_⟩
    have hmod : (((start + n / q * c) % n : Nat) : Int)
        ≡ start + (n / q : Nat) * (c : Nat) [ZMOD n] := by
      have := Int.natCast_modEq_iff.mpr (Nat.mod_modEq (start + n / q * c) n)
      rwa [Nat.cast_add, Nat.cast_mul] at this
    have := hmod.trans (hstart.add_right _)
    rwa [add_assoc, ← mul_add] at this
  have hin : ∀ c, c ≤ q / p
      → IsIn n p q fun x => D x ∨ ∃ c' < c, x = (start + n / q * c') % n := by
    rintro c hc x (hx | ⟨c', hc', rfl⟩)
    . exact hD x hx
    . exact isIn_isAt hmax hi _ (hat c' (by omega))
  have hround : ∀ c s k, c < q / p → k < n → k = (start + n / q * c) % n
      → IsUpTo n p q start D res0 c s
      → ∃ s', body k s = .ok s' ∧ IsUpTo n p q start D res0 (c + 1) s' := by
    rintro c s k hc hk hkc ⟨hcle, hs⟩
    have hwin := (isIn_isAt hmax hi _ (hat c hc)).2
    rw [← hkc] at hwin
    obtain ⟨s', hrun, hs'⟩ := hs.step hmax (hin c hcle) hk hwin hbody hlen
    refine ⟨s', hrun, hc, hs'.mono ?_⟩
    rintro x (hx | ⟨c', hc', rfl⟩)
    . exact Or.inl (Or.inl hx)
    . by_cases heq : c' = c
      . exact Or.inr (by rw [heq, hkc])
      . exact Or.inl (Or.inr ⟨c', by omega, rfl⟩)
  have hfirst : ∀ j s, j < n → (∃ c, j = start + n / q * c ∧ IsUpTo n p q start D res0 c s)
      → ∃ s', body j s = .ok s'
        ∧ ∃ c, j + n / q = start + n / q * c ∧ IsUpTo n p q start D res0 c s' := by
    rintro j s hlt ⟨c, rfl, hc⟩
    obtain ⟨s', hrun, hs'⟩ := hround c s _ ((hend c).mp (by omega)) hlt
      (Nat.mod_eq_of_lt hlt).symm hc
    exact ⟨s', hrun, c + 1, by rw [Nat.mul_succ, Nat.add_assoc], hs'⟩
  have hsecond : ∀ j s, j < stop - n
      → (∃ c, j + n = start + n / q * c ∧ IsUpTo n p q start D res0 c s)
      → ∃ s', body j s = .ok s'
        ∧ ∃ c, j + n / q + n = start + n / q * c ∧ IsUpTo n p q start D res0 c s' := by
    rintro j s hlt ⟨c, hjc, hc⟩
    obtain ⟨s', hrun, hs'⟩ := hround c s j ((hend c).mp (by omega)) (by omega)
      (by rw [← hjc, Nat.add_mod_right, Nat.mod_eq_of_lt (by omega)]) hc
    exact ⟨s', hrun, c + 1, by rw [Nat.mul_succ]; omega, hs'⟩
  obtain ⟨k, res1, hrun1, hk, c, rfl, hc⟩ := strideLoop_of_inv _ hd
    (by omega : n - start < n + 1)
    ⟨0, rfl, Nat.zero_le _, hpass.mono fun x hx => hx.resolve_right fun ⟨_, h, _⟩ => by omega⟩ hfirst
  obtain ⟨k', res', hrun2, hk', c', hkc, hc'⟩ := strideLoop_of_inv _ hd
    (by omega : stop - n - (start + n / q * c - n) < n + 1) ⟨c, by omega, hc⟩ hsecond
  refine ⟨_, res1, k', res', hrun1, hrun2, hc'.2.mono ?_⟩
  have hall : ¬c' < q / p := fun h => by
    have := (hend c').mpr h
    omega
  rintro x (hx | ⟨hxn, c, hc, hmod⟩)
  . exact Or.inl hx
  . refine Or.inr ⟨c, by omega, ?_⟩
    have hmod' : ((start + n / q * c : Nat) : Int) ≡ x [ZMOD n] := by
      rw [Nat.cast_add, Nat.cast_mul]
      have := hstart.add_right ((n / q : Nat) * (c : Int))
      rw [add_assoc, ← mul_add] at this
      exact this.trans hmod.symm
    have := Int.natCast_modEq_iff.mp hmod'
    rw [← Nat.mod_eq_of_lt hxn]
    exact this.symm

def IsRemove (n p q : Nat) (body : Nat → List ℚ → Result (List ℚ)) : Prop :=
  ∀ i < n, q ∣ i → ∀ (D : Nat → Prop) (res0 res : List ℚ), IsIn n p q D → n ≤ res0.length
    → IsPass n p D res0 res
    → ∃ res', body i res = .ok res' ∧ IsPass n p (fun x => D x ∨ IsAt n p q i x) res0 res'

theorem removeTwo_spec (hmax : IsMaximalPower n 2 q) : IsRemove n 2 q (removeTwo n q) := by
  intro i hi hqi D res0 res hD hlen hpass
  have hq : 2 * (q / 2) = q := hmax.mul_div
  have hm : n / q * q = n := Nat.div_mul_cancel hmax.dvd
  have hqpos : 0 < q := Nat.pos_of_dvd_of_pos hmax.dvd (by omega)
  have hlast : i + n / q * (q - 1) + n / q = i + n := by
    have : n / q * (q - 1) + n / q = n / q * (q - 1 + 1) := (Nat.mul_succ _ _).symm
    rw [Nat.sub_add_cancel hqpos, hm] at this
    omega
  have hhalf : n / q * (q / 2) + n / q * (q / 2) = n := by
    rw [← Nat.mul_add, show q / 2 + q / 2 = q by omega, hm]
  have hend : ∀ c, i + n / q * (q / 2) + n / q * c < i + n ↔ c < q / 2 := by
    intro c
    constructor
    . intro h
      apply Nat.lt_of_mul_lt_mul_left (a := n / q)
      omega
    . intro h
      have hd : 0 < n / q := Nat.div_pos (Nat.le_of_dvd (by omega) hmax.dvd) hqpos
      have := Nat.mul_lt_mul_of_pos_left h hd
      omega
  have hstart : ((i + n / q * (q / 2) : Nat) : Int) ≡ i + (n / q : Nat) * lowEnd 2 q [ZMOD n] := by
    unfold lowEnd
    rw [if_pos rfl, Nat.cast_add, Nat.cast_mul]
  obtain ⟨k, res1, k', res', hrun1, hrun2, hpass'⟩ := strideLoops_spec hmax (by omega) hqi
    (eliminateTwo_spec (hmax.prime_dvd)) hstart hend (by omega) (by omega) hD hlen
    hpass
  unfold removeTwo
  dsimp only
  rw [hlast, hrun1, ok_bind]
  rw [hrun2]
  exact ⟨res', rfl, hpass'⟩

theorem removeOdd_spec (hmax : IsMaximalPower n p q) (hodd : p ≠ 2)
    (hn : n ≤ w.intIntobjMax) : IsRemove n p q (removeOdd w n p q) := by
  intro i hi hqi D res0 res hD hlen hpass
  have hm : n / q * (q / p) = n / p := hmax.div_mul
  have hqp := hmax.odd_div hodd
  have hdiv : n / p ≤ n := Nat.div_le_self n p
  have hhalf : (n / p - n / q) / 2 = n / q * ((q / p - 1) / 2) := by
    obtain ⟨r, hr⟩ : ∃ r, q / p = 2 * r + 1 := ⟨q / p / 2, by omega⟩
    rw [← hm, hr, Nat.mul_succ, Nat.add_sub_cancel, Nat.mul_left_comm,
      Nat.mul_div_cancel_left _ Nat.two_pos, Nat.add_sub_cancel,
      Nat.mul_div_cancel_left _ Nat.two_pos]
  have htwice : (n / p - n / q) / 2 + (n / p - n / q) / 2 + n / q = n / p := by
    rw [hhalf, ← Nat.mul_add, ← hm]
    have : (q / p - 1) / 2 + (q / p - 1) / 2 + 1 = q / p := by
      generalize q / p = r at hqp
      omega
    conv_rhs => rw [← this, Nat.mul_succ]
  have hword : 2 * n < 2 ^ w.bits := by
    unfold IntSize.intIntobjMax IntSize.nrSmallIntBits at hn
    unfold IntSize.bits at *
    cases w with
    | int4 => dsimp only at hn ⊢; omega
    | int8 => dsimp only at hn ⊢; omega
  generalize hh : (n / p - n / q) / 2 = half at hhalf htwice
  have hlow : (n / q : Nat) * lowEnd p q = -(half : Int) := by
    unfold lowEnd
    rw [if_neg hodd, hhalf, Nat.cast_mul, mul_neg]
  have hd : 0 < n / q := Nat.div_pos (Nat.le_of_dvd (by omega) hmax.dvd)
    (Nat.pos_of_dvd_of_pos hmax.dvd (by omega))
  have hend : ∀ start c, start + n / q * c < start + half + half + 1 ↔ c < q / p := by
    intro start c
    constructor
    . intro h
      apply Nat.lt_of_mul_lt_mul_left (a := n / q)
      omega
    . intro h
      have := Nat.mul_le_mul_left (n / q) (Nat.succ_le_of_lt h)
      rw [Nat.mul_succ] at this
      omega
  have hbody := eliminateOdd_spec hmax.prime.one_lt (hmax.prime_dvd)
  unfold removeOdd
  rw [hh]
  dsimp only
  split
  next hcase =>
    have hstart : ((i - half : Nat) : Int) ≡ i + (n / q : Nat) * lowEnd p q [ZMOD n] := by
      rw [hlow, Nat.cast_sub (by omega)]
      exact Int.ModEq.refl _
    have hend' := hend (i - half)
    rw [show i - half + half + half + 1 = i + half + 1 by omega] at hend'
    obtain ⟨k, res1, k', res', hrun1, hrun2, hpass'⟩ := strideLoops_spec hmax (by omega) hqi
      hbody hstart hend' (by omega) (by omega) hD hlen hpass
    rw [subUInt_of_le (by omega) (by omega)]
    rw [hrun1, ok_bind]
    rw [show i + half - n + 1 = i + half + 1 - n by omega, hrun2]
    exact ⟨res', rfl, hpass'⟩
  next hcase =>
    have hstart : ((i + n - half : Nat) : Int) ≡ i + (n / q : Nat) * lowEnd p q [ZMOD n] := by
      rw [hlow, Nat.cast_sub (by omega), Nat.cast_add, Int.modEq_iff_dvd]
      exact ⟨-1, by ring⟩
    have hend' := hend (i + n - half)
    rw [show i + n - half + half + half + 1 = i + half + n + 1 by omega] at hend'
    obtain ⟨k, res1, k', res', hrun1, hrun2, hpass'⟩ := strideLoops_spec hmax (by omega) hqi
      hbody hstart hend' (by omega) (by omega) hD hlen hpass
    rw [subUInt_add (by omega) (by omega)]
    rw [hrun1, ok_bind]
    rw [show i + half + n - n + 1 = i + half + n + 1 - n by omega, hrun2]
    exact ⟨res', rfl, hpass'⟩

theorem removeLoop_spec (hmax : IsMaximalPower n p q) (hn : 0 < n) (hbody : IsRemove n p q body)
    (hlen : n ≤ res.length)
    : ∃ res', stepLoop body q n (n + 1) 0 res = .ok res' ∧ res'.length = res.length
      ∧ Reduces n (coef res) (coef res') ∧ Clean lowEnd n p (coef res')
      ∧ ∀ p', Clean lowEnd n p' (coef res) → Clean lowEnd n p' (coef res') := by
  have hq : 0 < q := Nat.pos_of_dvd_of_pos hmax.dvd hn
  have hin : ∀ i, IsIn n p q fun x => ∃ i' < i, q ∣ i' ∧ IsAt n p q i' x := by
    rintro i x ⟨i', _, hi', hx⟩
    exact isIn_isAt hmax hi' x hx
  have hloop : ∃ res', stepLoop body q n (n + 1) 0 res = .ok res'
      ∧ IsPass n p (fun x => ∃ i' < n, q ∣ i' ∧ IsAt n p q i' x) res res' := by
    apply stepLoop_of_inv
      (fun i s => q ∣ i ∧ IsPass n p (fun x => ∃ i' < i, q ∣ i' ∧ IsAt n p q i' x) res s) hq
      (by omega)
    . exact ⟨Nat.dvd_zero q, rfl, .refl, fun _ _ h => h, fun x ⟨_, h, _⟩ => by omega⟩
    . rintro i s _ hlt ⟨hi, hs⟩
      obtain ⟨s', hrun, hs'⟩ := hbody i hlt hi _ res s (hin i) hlen hs
      refine ⟨s', hrun, Nat.dvd_add hi (Nat.dvd_refl q), hs'.mono ?_⟩
      rintro x ⟨i', hlt', hi', hx⟩
      by_cases heq : i' = i
      . exact Or.inr (heq ▸ hx)
      . refine Or.inl ⟨i', ?_, hi', hx⟩
        obtain ⟨b, rfl⟩ := hi
        obtain ⟨b', rfl⟩ := hi'
        rw [← Nat.mul_succ] at hlt'
        have hle := Nat.lt_of_mul_lt_mul_left hlt'
        have hne : b' ≠ b := fun h => heq (by rw [h])
        exact Nat.mul_lt_mul_of_pos_left (by omega) hq
    . rintro i s hle ⟨_, hs⟩
      exact hs.mono fun x ⟨i', hlt, h⟩ => ⟨i', by omega, h⟩
  obtain ⟨res', hrun, hpass⟩ := hloop
  have hclean : Clean lowEnd n p (coef res') := by
    intro q' hq' x hx hne hwin
    rw [← hmax.unique hq'] at hwin
    obtain ⟨i, hi, hqi, c, hc, hmod⟩ := exists_start hmax.dvd hn hwin
    exact hne (hpass.done x ⟨i, hi, hqi, hx, c, hc, hmod⟩)
  refine ⟨res', hrun, hpass.length_eq, hpass.reduces, hclean, fun p' h => ?_⟩
  by_cases hne : p' = p
  . rw [hne]
    exact hclean
  . exact hpass.clean p' hne h

end Pass

section Primes

structure IsFactored (n p nn : Nat) (res0 res : List ℚ) : Prop where
  dvd : nn ∣ n
  pos : 0 < nn
  coprime : nn.Coprime (n / nn)
  factors : ∀ p', p'.Prime → p' ∣ nn → p ≤ p'
  length_eq : res.length = res0.length
  reduces : Reduces n (coef res0) (coef res)
  clean : ∀ p', p'.Prime → p' ∣ n → ¬p' ∣ nn → Clean lowEnd n p' (coef res)

variable {nn : Nat} {res0 : List ℚ} {body : Nat → List ℚ → Result (List ℚ)}

theorem IsFactored.maximal (h : IsFactored n p nn res0 res) {p' : Nat}
    (hmax : IsMaximalPower nn p' q) : IsMaximalPower n p' q := by
  refine ⟨hmax.prime, hmax.pow, hmax.dvd.trans h.dvd, fun hdvd => hmax.not_dvd ?_⟩
  have hcop : (p' * q).Coprime (n / nn) := by
    have hprime : p'.Coprime (n / nn) :=
      h.coprime.coprime_dvd_left (hmax.prime_dvd)
    exact hprime.mul_left (h.coprime.coprime_dvd_left hmax.dvd)
  apply hcop.dvd_of_dvd_mul_right
  rwa [Nat.mul_div_cancel' h.dvd]

theorem IsFactored.step (h : IsFactored n p nn res0 res) (hn : 0 < n)
    (hmax : IsMaximalPower nn p q) (hbody : IsRemove n p q body) (hlen : n ≤ res0.length)
    : ∃ res', stepLoop body q n (n + 1) 0 res = .ok res'
      ∧ IsFactored n (p + 1) (nn / q) res0 res' := by
  obtain ⟨res', hrun, hlen', hreduces, hclean, hkeep⟩ := removeLoop_spec (h.maximal hmax) hn
    hbody (by rw [h.length_eq]; exact hlen)
  have hnn : nn / q * q = nn := Nat.div_mul_cancel hmax.dvd
  have hdvd : nn / q ∣ nn := ⟨q, hnn.symm⟩
  have hpos : 0 < nn / q :=
    Nat.div_pos (Nat.le_of_dvd h.pos hmax.dvd) (Nat.pos_of_dvd_of_pos hmax.dvd h.pos)
  have hnq : n / (nn / q) = q * (n / nn) := by
    apply Nat.div_eq_of_eq_mul_right hpos
    rw [← Nat.mul_assoc, hnn, Nat.mul_div_cancel' h.dvd]
  refine ⟨res', hrun, hdvd.trans h.dvd, hpos, ?_, ?_, hlen'.trans h.length_eq,
    h.reduces.trans hreduces, ?_⟩
  . rw [hnq]
    exact hmax.coprime.mul_right (h.coprime.coprime_dvd_left hdvd)
  . intro p' hp' hdvd'
    have hle := h.factors p' hp' (hdvd'.trans hdvd)
    have hne : p ≠ p' := by
      rintro rfl
      exact hmax.not_dvd_div hdvd'
    omega
  . intro p' hp' hpn hnot
    by_cases heq : p' = p
    . rw [heq]
      exact hclean
    . apply hkeep
      apply h.clean p' hp' hpn
      intro hpnn
      rw [← hnn] at hpnn
      rcases (Nat.Prime.dvd_mul hp').mp hpnn with hleft | hright
      . exact hnot hleft
      . obtain ⟨a, rfl⟩ := hmax.pow
        exact heq ((Nat.prime_dvd_prime_iff_eq hp' hmax.prime).mp (hp'.dvd_of_dvd_pow hright))

theorem IsFactored.next_odd {d : Nat} (h : IsFactored n d nn res0 res) (hodd : nn % 2 = 1)
    (hp : p % 2 = 1) (hne : ¬p ∣ nn) (hle : p ≤ d) : IsFactored n (p + 2) nn res0 res := by
  refine ⟨h.dvd, h.pos, h.coprime, ?_, h.length_eq, h.reduces, h.clean⟩
  intro p' hp' hdvd
  have hge := h.factors p' hp' hdvd
  have hp'odd : p' % 2 = 1 := by
    obtain ⟨r, rfl⟩ := hdvd
    exact Nat.odd_iff.mp (Nat.odd_mul.mp (Nat.odd_iff.mpr hodd)).1
  have : p' ≠ p := fun heq => hne (heq ▸ hdvd)
  omega

structure IsConverted (n : Nat) (res0 res : List ℚ) : Prop where
  length_eq : res.length = res0.length
  reduces : Reduces n (coef res0) (coef res)
  clean : ∀ p, p.Prime → p ∣ n → Clean lowEnd n p (coef res)

theorem IsFactored.isConverted (h : IsFactored n p 1 res0 res) : IsConverted n res0 res :=
  ⟨h.length_eq, h.reduces, fun p' hp' hdvd =>
    h.clean p' hp' hdvd fun hone => hp'.one_lt.ne' (Nat.dvd_one.mp hone)⟩

theorem oddPrimesLoop_spec {fuel : Nat} (hn : 0 < n) (hword : n ≤ w.intIntobjMax)
    (hlen : n ≤ res0.length) (h : IsFactored n p nn res0 res) (hodd : nn % 2 = 1)
    (hp : p % 2 = 1) (hp3 : 3 ≤ p) (hfuel : n + 1 - p < fuel)
    : ∃ res', oddPrimesLoop w n fuel p nn res = .ok res' ∧ IsConverted n res0 res' := by
  induction fuel generalizing p nn res with
  | zero => omega
  | succ fuel ih =>
    have hnn := Nat.le_of_dvd hn h.dvd
    unfold oddPrimesLoop
    split
    next hle =>
      by_cases hdvd : p ∣ nn
      . have hprime : p.Prime := by
          have hfac := h.factors _ (Nat.minFac_prime (by omega)) ((Nat.minFac_dvd p).trans hdvd)
          rw [Nat.le_antisymm hfac (Nat.minFac_le (by omega))]
          exact Nat.minFac_prime (by omega)
        obtain ⟨q, hq, hmax⟩ := maximalPower_spec (w := w) hprime h.factors h.pos
          (by omega) ⟨0, (pow_one p).symm⟩ hdvd (by omega : nn - p < nn + 1)
        obtain ⟨res1, hrun, h1⟩ := h.step hn hmax (removeOdd_spec (h.maximal hmax) (by omega) hword)
          hlen
        have hodd' : nn / q % 2 = 1 := by
          have := Nat.odd_iff.mpr hodd
          rw [← Nat.div_mul_cancel hmax.dvd] at this
          exact Nat.odd_iff.mp (Nat.odd_mul.mp this).1
        have h2 := h1.next_odd hodd' hp (hmax.not_dvd_div) (Nat.le_succ p)
        obtain ⟨res', hrun', h'⟩ := ih h2 hodd' (by omega) (by omega) (by omega)
        rw [if_neg (not_not_intro (Nat.mod_eq_zero_of_dvd hdvd)), hq, ok_bind, hrun, ok_bind]
        exact ⟨res', hrun', h'⟩
      . rw [if_pos fun hmod => hdvd (Nat.dvd_of_mod_eq_zero hmod)]
        exact ih (h.next_odd hodd hp hdvd (Nat.le_refl p)) hodd (by omega) (by omega) (by omega)
    next hgt =>
      have hone : nn = 1 := by
        by_contra hne
        have := h.factors _ (Nat.minFac_prime hne) (Nat.minFac_dvd nn)
        have := Nat.minFac_le h.pos
        omega
      rw [hone] at h
      exact ⟨res, rfl, h.isConverted⟩

end Primes

theorem convertToBase_isConverted (hn : 0 < n) (hword : n ≤ w.intIntobjMax)
    (hlen : n ≤ res.length)
    : ∃ res', convertToBase w n res = .ok res' ∧ IsConverted n res res' := by
  have hinit : IsFactored n 2 n res res :=
    ⟨Nat.dvd_refl n, hn, by rw [Nat.div_self hn]; exact Nat.coprime_one_right n,
      fun p hp _ => hp.two_le, rfl, .refl, fun p _ hdvd hnot => absurd hdvd hnot⟩
  unfold convertToBase
  split
  next heven =>
    obtain ⟨q, hq, hmax⟩ := maximalPower_spec Nat.prime_two hinit.factors hn hword
      ⟨0, (pow_one 2).symm⟩ (Nat.dvd_of_mod_eq_zero heven) (by omega : n - 2 < n + 1)
    obtain ⟨res1, hrun, h1⟩ := hinit.step hn hmax (removeTwo_spec hmax) hlen
    have hodd := hmax.not_dvd_div
    obtain ⟨res', hrun', h'⟩ := oddPrimesLoop_spec hn hword hlen h1 (by omega) rfl
      (Nat.le_refl 3) (by omega : n + 1 - 3 < n + 1)
    rw [hq, ok_bind, hrun, ok_bind]
    exact ⟨res', hrun', h'⟩
  next hodd =>
    have h3 : IsFactored n 3 n res res := by
      refine { hinit with factors := fun p hp hdvd => ?_ }
      have hge := hp.two_le
      have : p ≠ 2 := by
        rintro rfl
        exact hodd (Nat.mod_eq_zero_of_dvd hdvd)
      omega
    exact oddPrimesLoop_spec hn hword hlen h3 (by omega) rfl (Nat.le_refl 3) (by omega)

theorem inBase_of_clean {f : Nat → ℚ} (h : ∀ p, p.Prime → p ∣ n → Clean lowEnd n p f)
    (hk : k < n) (hne : f k ≠ 0) : InBase n k := by
  rintro p q hmax ⟨b, hb, hmod⟩
  refine h p hmax.prime (hmax.prime_dvd) q hmax k hk hne ⟨b, ?_, ?_, hmod⟩
  . unfold lowEnd
    split at hb
    next heq =>
      rw [if_pos heq]
      exact hb.1
    next hodd =>
      rw [if_neg hodd]
      exact hb.1
  . unfold lowEnd
    split at hb
    next heq =>
      have hq := hmax.mul_div
      rw [if_pos heq, heq]
      rw [heq] at hq
      omega
    next hodd =>
      have hqp := hmax.odd_div hodd
      rw [if_neg hodd]
      generalize q / p = r at *
      omega

theorem convertToBase_spec {K : Type} [Field K] {ζ : K} (hn : 1 ≤ n)
    (hword : n ≤ w.intIntobjMax) (hlen : n ≤ res.length) (φ : ℚ →+* K) (hζ : IsPrimitiveRoot ζ n)
    : ∃ res', convertToBase w n res = .ok res' ∧ res'.length = res.length
      ∧ (∀ k, n ≤ k → res'[k]? = res[k]?)
      ∧ value φ ζ n (coef res') = value φ ζ n (coef res)
      ∧ ∀ k < n, coef res' k ≠ 0 → InBase n k := by
  obtain ⟨res', hrun, h⟩ := convertToBase_isConverted hn hword hlen
  refine ⟨res', hrun, h.length_eq, ?_, h.reduces.value_eq hζ φ,
    fun k hk hne => inBase_of_clean h.clean hk hne⟩
  intro k hk
  have hcoef := h.reduces.eq_of_le hk
  unfold coef at hcoef
  by_cases hlt : k < res.length
  . have hlt' : k < res'.length := h.length_eq.symm ▸ hlt
    rw [List.getD_eq_getElem?_getD, List.getD_eq_getElem?_getD, List.getElem?_eq_getElem hlt,
      List.getElem?_eq_getElem hlt', Option.getD_some, Option.getD_some] at hcoef
    rw [List.getElem?_eq_getElem hlt, List.getElem?_eq_getElem hlt', hcoef]
  . have hge := h.length_eq
    rw [List.getElem?_eq_none (by omega), List.getElem?_eq_none (by omega)]

def exampleCyc : List ℚ :=
  ((List.replicate 45 0).set 1 1).set 5 1

theorem convertToBase_example
    : ∃ res', convertToBase .int8 45 exampleCyc = .ok res' ∧ res'.length = exampleCyc.length
      ∧ (∀ k, 45 ≤ k → res'[k]? = exampleCyc[k]?)
      ∧ value (Rat.castHom ℂ) (Complex.exp (2 * Real.pi * Complex.I / 45)) 45 (coef res')
        = value (Rat.castHom ℂ) (Complex.exp (2 * Real.pi * Complex.I / 45)) 45 (coef exampleCyc)
      ∧ ∀ k < 45, coef res' k ≠ 0 → InBase 45 k :=
  convertToBase_spec (by decide) (by decide) (by decide) _
    (Complex.isPrimitiveRoot_exp 45 (by decide))

end CycImpl
