import GapKernel.Finfield.Lemmas.Value
import Mathlib.NumberTheory.Multiplicity

open Nat

def maxFF : Nat :=
  65536

structure IsFFData (t : FFData) : Prop where
  prime : ∀ ff, 0 < ff → ff ≤ t.numShortFiniteFields → (t.charFF ff).Prime
  degr_pos : ∀ ff, 0 < ff → ff ≤ t.numShortFiniteFields → 0 < t.degrFF ff
  size_eq : ∀ ff, 0 < ff → ff ≤ t.numShortFiniteFields → t.sizeFF ff = t.charFF ff ^ t.degrFF ff
  size_le : ∀ ff, 0 < ff → ff ≤ t.numShortFiniteFields → t.sizeFF ff ≤ maxFF
  sorted : ∀ i j, 0 < i → i < j → j ≤ t.numShortFiniteFields → t.sizeFF i < t.sizeFF j
  complete : ∀ p d, p.Prime → 0 < d → p ^ d ≤ t.sizeFF t.numShortFiniteFields
    → ∃ ff, 0 < ff ∧ ff ≤ t.numShortFiniteFields ∧ t.sizeFF ff = p ^ d

open CompatibleRoots

namespace Finfield

section Tables

variable {t : FFData} {w : IntSize} {p d ff q : Nat}

def IsSmallDegree (t : FFData) (p d : Nat) : Prop :=
  0 < d ∧ 0 < t.numShortFiniteFields ∧ p ^ d ≤ t.sizeFF t.numShortFiniteFields

structure IsField (t : FFData) (p d ff : Nat) : Prop where
  pos : 0 < ff
  le : ff ≤ t.numShortFiniteFields
  char_eq : t.charFF ff = p
  degr_eq : t.degrFF ff = d

def IsSorted (t : FFData) : Prop :=
  ∀ i j, 0 < i → i < j → j ≤ t.numShortFiniteFields → t.sizeFF i < t.sizeFF j

theorem sizeFF_le (ht : IsSorted t) {i j : Nat} (hi : 0 < i) (hij : i ≤ j)
    (hj : j ≤ t.numShortFiniteFields)
    : t.sizeFF i ≤ t.sizeFF j := by
  by_cases heq : i = j
  . rw [heq]
  . exact Nat.le_of_lt (ht i j hi (by omega) hj)

namespace IsField

variable (ht : IsFFData t) (h : IsField t p d ff)

include ht h

theorem size_eq : t.sizeFF ff = p ^ d := by
  rw [ht.size_eq ff h.pos h.le, h.char_eq, h.degr_eq]

theorem degr_pos : 0 < d := by
  rw [← h.degr_eq]
  exact ht.degr_pos ff h.pos h.le

theorem size_le : p ^ d ≤ maxFF := by
  rw [← h.size_eq ht]
  exact ht.size_le ff h.pos h.le

theorem isSmallDegree : IsSmallDegree t p d := by
  refine ⟨h.degr_pos ht, Nat.lt_of_lt_of_le h.pos h.le, ?_⟩
  rw [← h.size_eq ht]
  exact sizeFF_le ht.sorted h.pos h.le (Nat.le_refl _)

theorem prime : p.Prime := by
  rw [← h.char_eq]
  exact ht.prime ff h.pos h.le

end IsField

theorem eq_of_sizeFF_eq (ht : IsSorted t) {i j : Nat} (hi : 0 < i)
    (hile : i ≤ t.numShortFiniteFields) (hj : 0 < j) (hjle : j ≤ t.numShortFiniteFields)
    (heq : t.sizeFF i = t.sizeFF j)
    : i = j := by
  by_contra hne
  cases Nat.lt_or_gt_of_ne hne with
  | inl hlt =>
    have := ht i j hi hlt hjle
    omega
  | inr hlt =>
    have := ht j i hj hlt hile
    omega

theorem isField_of_size (ht : IsFFData t) (hp : p.Prime) (hd : 0 < d) (hpos : 0 < ff)
    (hle : ff ≤ t.numShortFiniteFields) (hsize : t.sizeFF ff = p ^ d)
    : IsField t p d ff := by
  have hprime := ht.prime ff hpos hle
  have heq := ht.size_eq ff hpos hle
  rw [hsize] at heq
  have hchar : p = t.charFF ff := by
    have hdvd : p ∣ t.charFF ff ^ t.degrFF ff := by
      rw [← heq]
      exact dvd_pow_self p (Nat.ne_of_gt hd)
    exact (Nat.prime_dvd_prime_iff_eq hp hprime).mp (hp.dvd_of_dvd_pow hdvd)
  rw [← hchar] at heq
  exact ⟨hpos, hle, hchar.symm, (Nat.pow_right_injective hp.two_le heq).symm⟩

section Lookup

def HasSize (t : FFData) (q ff : Nat) : Prop :=
  0 < ff ∧ ff ≤ t.numShortFiniteFields ∧ t.sizeFF ff = q

theorem interpolation_le {a b q k : Nat} (hb : q ≤ b)
    : (q - a + 1) * k / (b - a + 1) ≤ k := by
  apply Nat.div_le_of_le_mul
  apply Nat.mul_le_mul_right
  omega

theorem search_spec (ht : IsSorted t) (q : Nat) {fuel l n ff : Nat} (hl : 0 < l)
    (hn : n ≤ t.numShortFiniteFields) (hln : l ≤ n + 1) (hfuel : n + 1 < l + fuel)
    (hbounds : ∀ i, HasSize t q i → l ≤ i ∧ i ≤ n)
    : ∃ ff', lookupPrimePower.search t q fuel l n ff = .ok ff'
        ∧ ∀ i, HasSize t q i → HasSize t q ff' := by
  induction fuel generalizing l n ff with
  | zero => omega
  | succ fuel ih =>
    unfold lookupPrimePower.search
    split
    . next hcond =>
      obtain ⟨hle, -, hq⟩ := hcond
      have hprobe := @interpolation_le (t.sizeFF l) (t.sizeFF n) q (n - l) hq
      dsimp only
      generalize (q - t.sizeFF l + 1) * (n - l) / (t.sizeFF n - t.sizeFF l + 1) = e at hprobe ⊢
      split
      . next heq => exact ⟨_, rfl, fun _ _ => ⟨by omega, by omega, heq⟩⟩
      . next hne =>
        split
        . next hlt =>
          apply ih (by omega) hn (by omega) (by omega)
          intro i hi
          have hb := hbounds i hi
          refine ⟨Nat.lt_of_not_le fun hie => ?_, hb.2⟩
          have hsize := sizeFF_le ht hi.1 hie (by omega)
          rw [hi.2.2] at hsize
          omega
        . next hnlt =>
          apply ih hl (by omega) (by omega) (by omega)
          intro i hi
          have hb := hbounds i hi
          refine ⟨hb.1, le_sub_one_of_lt (Nat.lt_of_not_le fun hie => ?_)⟩
          have hsize := sizeFF_le ht (by omega) hie hi.2.1
          rw [hi.2.2] at hsize
          omega
    . next hcond =>
      refine ⟨ff, rfl, fun i hi => absurd ?_ hcond⟩
      have hb := hbounds i hi
      have h1 := sizeFF_le ht hl hb.1 hi.2.1
      have h2 := sizeFF_le ht hi.1 hb.2 hn
      rw [hi.2.2] at h1 h2
      exact ⟨by omega, h1, h2⟩

theorem lookupPrimePower_spec (ht : IsSorted t) (q : Nat)
    : ∃ ff, lookupPrimePower t q = .ok ff ∧ (ff ≠ 0 → HasSize t q ff)
        ∧ (∀ i, HasSize t q i → ff = i) := by
  obtain ⟨ff, hrun, hff⟩ := @search_spec t ht q (t.numShortFiniteFields + 1) 1
    t.numShortFiniteFields 0 Nat.one_pos (Nat.le_refl _) (by omega) (by omega)
    (fun i hi => ⟨hi.1, hi.2.1⟩)
  have hunique (i : Nat) (hi : HasSize t q i) : ff = i := by
    obtain ⟨h1, h2, h3⟩ := hff i hi
    exact eq_of_sizeFF_eq ht h1 h2 hi.1 hi.2.1 (h3.trans hi.2.2.symm)
  unfold lookupPrimePower
  rw [hrun, ok_bind]
  split
  . next hout =>
    refine ⟨0, rfl, fun h => absurd rfl h, fun i hi => ?_⟩
    obtain ⟨h1, h2, -⟩ := hff i hi
    omega
  . split
    . next hsize => exact ⟨0, rfl, fun h => absurd rfl h, fun i hi => absurd (hff i hi).2.2 hsize⟩
    . next hin hsize =>
      exact ⟨ff, rfl, fun _ => ⟨by omega, by omega, not_not.mp hsize⟩, hunique⟩

end Lookup

section Overflow

theorem two_pow_le_of_dvd {n k : Nat} (hp : 1 < p) (hodd : ¬2 ∣ p) (hk : 0 < k)
    (h : 2 ^ n ∣ p ^ k - 1) : 2 ^ n ≤ (p + 1) * (p - 1) * k := by
  have hdvd : 2 ^ n ∣ p ^ (2 * k) - 1 := by
    refine dvd_trans h ?_
    rw [Nat.mul_comm, pow_mul]
    exact Nat.sub_one_dvd_pow_sub_one _ 2
  have hne : p ^ (2 * k) - 1 ≠ 0 := by
    have := one_lt_pow (show 2 * k ≠ 0 by omega) hp
    omega
  have hle := (padicValNat_dvd_iff_le hne).mp hdvd
  have hlift := padicValNat.pow_two_sub_one hp hodd (show 2 * k ≠ 0 by omega) (even_two_mul k)
  have hp0 : p + 1 ≠ 0 := succ_ne_zero p
  have hp1 : p - 1 ≠ 0 := by
    omega
  have hprod : (p + 1) * (p - 1) * k ≠ 0 :=
    mul_ne_zero (mul_ne_zero hp0 hp1) (Nat.ne_of_gt hk)
  apply le_of_dvd (Nat.pos_of_ne_zero hprod)
  rw [padicValNat_dvd_iff_le hprod, padicValNat.mul (mul_ne_zero hp0 hp1)
    (Nat.ne_of_gt hk), padicValNat.mul hp0 hp1]
  rw [padicValNat.mul two_ne_zero (Nat.ne_of_gt hk), padicValNat.self Nat.one_lt_two] at hlift
  omega

theorem fieldSize_eq (w : IntSize) (p d : Nat) : fieldSize w p d = p ^ d % 2 ^ w.bits := by
  induction d with
  | zero =>
    cases w
    . rfl
    . rfl
  | succ d ih =>
    unfold fieldSize
    rw [ih, pow_succ, mod_mul_mod]

theorem pow_mod_ne {e : Nat} (hp : p.Prime) (he : p ^ e ≤ maxFF) (hd : maxFF < p ^ d)
    (hsq : p ^ 2 ≤ maxFF) (hsmall : d ≤ maxFF) : p ^ d % 2 ^ w.bits ≠ p ^ e := by
  intro heq
  have hbits : 32 ≤ w.bits := by
    cases w <;> decide
  have hed : e < d := by
    by_contra hle
    have := Nat.pow_le_pow_right hp.pos (Nat.le_of_not_lt hle)
    omega
  obtain ⟨k, rfl⟩ : ∃ k, d = e + k := ⟨d - e, by omega⟩
  have hdvd : 2 ^ w.bits ∣ p ^ e * (p ^ k - 1) := by
    rw [Nat.mul_sub_one, ← pow_add, ← heq]
    exact dvd_sub_mod _
  by_cases htwo : 2 ∣ p
  . obtain rfl : p = 2 := ((Nat.prime_dvd_prime_iff_eq prime_two hp).mp htwo).symm
    by_cases hlarge : w.bits ≤ e + k
    . rw [mod_eq_zero_of_dvd (pow_dvd_pow 2 hlarge)] at heq
      exact absurd heq.symm (Nat.ne_of_gt (Nat.pow_pos Nat.two_pos))
    . rw [mod_eq_of_lt (Nat.pow_lt_pow_right Nat.one_lt_two (by omega))] at heq
      omega
  . have hcop : Nat.Coprime (2 ^ w.bits) (p ^ e) :=
      Nat.Coprime.pow _ _ ((coprime_primes prime_two hp).mpr
        (by rintro rfl; exact htwo dvd_rfl))
    have hle := two_pow_le_of_dvd hp.one_lt htwo (by omega) (hcop.dvd_of_dvd_mul_left hdvd)
    have hpow : 2 ^ 32 ≤ 2 ^ w.bits := Nat.pow_le_pow_right Nat.two_pos hbits
    have hprod : (p + 1) * (p - 1) * k < maxFF * maxFF := by
      rw [← Nat.pow_two_sub_pow_two p 1, one_pow]
      have hsq0 := Nat.pow_pos (n := 2) hp.pos
      exact Nat.mul_lt_mul_of_lt_of_le (by omega) (by omega) (by decide)
    unfold maxFF at hprod
    omega

end Overflow

section Common

theorem finiteField_spec (ht : IsFFData t) (hp : p.Prime) (hd : 0 < d)
    (hsmall : maxFF < p ^ d → p ^ 2 ≤ maxFF ∧ d ≤ maxFF)
    : ∃ ff, finiteField t w p d = .ok ff ∧ (ff ≠ 0 → IsField t p d ff)
        ∧ (IsSmallDegree t p d → ff ≠ 0) := by
  have hbits : maxFF < 2 ^ w.bits := by
    cases w <;> decide
  obtain ⟨ff, hrun, hsize, hfind⟩ := lookupPrimePower_spec ht.sorted (fieldSize w p d)
  unfold finiteField finiteFieldBySize
  rw [hrun, ok_bind]
  rw [fieldSize_eq] at hsize hfind
  by_cases hle : p ^ d ≤ maxFF
  . rw [mod_eq_of_lt (by omega)] at hsize hfind
    have hfield (hne : ff ≠ 0) : IsField t p d ff := by
      obtain ⟨h1, h2, h3⟩ := hsize hne
      exact isField_of_size ht hp hd h1 h2 h3
    rw [if_neg (fun h => h.2 (hfield h.1).char_eq)]
    refine ⟨ff, rfl, hfield, fun hdegree => ?_⟩
    obtain ⟨i, hi⟩ := ht.complete p d hp hd hdegree.2.2
    rw [hfind i hi]
    exact Nat.ne_of_gt hi.1
  . obtain ⟨hsq, hdle⟩ := hsmall (Nat.lt_of_not_le hle)
    have hchar : ff ≠ 0 → t.charFF ff ≠ p := by
      rintro hne rfl
      obtain ⟨h1, h2, h3⟩ := hsize hne
      have hsizele := ht.size_le ff h1 h2
      rw [ht.size_eq ff h1 h2] at h3 hsizele
      exact pow_mod_ne hp hsizele (Nat.lt_of_not_le hle) hsq hdle h3.symm
    refine ⟨0, ?_, fun h => absurd rfl h, fun hdegree => absurd ?_ hle⟩
    . by_cases hne : ff = 0
      . rw [if_neg (fun h => h.1 hne), hne]
        rfl
      . rw [if_pos ⟨hne, hchar hne⟩]
        rfl
    . exact Nat.le_trans hdegree.2.2 (ht.size_le _ hdegree.2.1 (Nat.le_refl _))

theorem commonDegree_eq {d1 d2 : Nat} {fuel d : Nat} (h1 : 0 < d1) (hdvd : d1 ∣ d) (hd : 0 < d)
    (hle : d ≤ Nat.lcm d1 d2) (hfuel : Nat.lcm d1 d2 < d + d1 * fuel)
    : commonDegree d1 d2 fuel d = .ok (Nat.lcm d1 d2) := by
  induction fuel generalizing d with
  | zero => omega
  | succ fuel ih =>
    unfold commonDegree
    split
    . next hne =>
      have hlt : d < Nat.lcm d1 d2 := by
        refine Nat.lt_of_le_of_ne hle ?_
        rintro rfl
        exact hne (mod_eq_zero_of_dvd (Nat.dvd_lcm_right d1 d2))
      have hstep : d + d1 ≤ Nat.lcm d1 d2 := by
        have hdiff := le_of_dvd (by omega) (Nat.dvd_sub (Nat.dvd_lcm_left d1 d2) hdvd)
        omega
      rw [mul_succ] at hfuel
      exact ih (Nat.dvd_add hdvd dvd_rfl) (by omega) hstep (by omega)
    . next heq =>
      have hlcm := Nat.lcm_dvd hdvd (dvd_of_mod_eq_zero (not_not.mp heq))
      rw [Nat.le_antisymm hle (le_of_dvd hd hlcm)]
      rfl

theorem IsField.degree_le (ht : IsFFData t) (h : IsField t p d ff) : d ≤ 16 := by
  have hpow := Nat.pow_le_pow_left (h.prime ht).two_le d
  have hsize := h.size_le ht
  by_contra hlt
  have hlarge := Nat.pow_le_pow_right Nat.two_pos (show 17 ≤ d by omega)
  unfold maxFF at hsize
  omega

theorem commonFF_spec (ht : IsFFData t) {a b d1 d2 f1 f2 : Nat} (h1 : IsField t p a f1)
    (h2 : IsField t p b f2) (hd1 : d1 ∣ a) (hd2 : d2 ∣ b)
    : ∃ ff, commonFF t w f1 d1 f2 d2 = .ok ff
        ∧ (ff ≠ 0 → ∃ d, IsField t p d ff ∧ d1 ∣ d ∧ d2 ∣ d)
        ∧ ((∃ d, IsSmallDegree t p d ∧ d1 ∣ d ∧ d2 ∣ d) → ff ≠ 0) := by
  unfold commonFF
  have hfound {d ff : Nat} (h : IsField t p d ff) (hdvd1 : d1 ∣ d) (hdvd2 : d2 ∣ d)
      : ∃ ff', (.ok ff : Result Nat) = .ok ff'
        ∧ (ff' ≠ 0 → ∃ d, IsField t p d ff' ∧ d1 ∣ d ∧ d2 ∣ d)
        ∧ ((∃ d, IsSmallDegree t p d ∧ d1 ∣ d ∧ d2 ∣ d) → ff' ≠ 0) :=
    ⟨ff, rfl, fun _ => ⟨d, h, hdvd1, hdvd2⟩, fun _ => Nat.ne_of_gt h.pos⟩
  by_cases hsame : f1 = f2
  . rw [if_pos hsame]
    have hab : b = a := by
      rw [← h1.degr_eq, ← h2.degr_eq, hsame]
    exact hfound h1 hd1 (hab ▸ hd2)
  . rw [if_neg hsame, h1.char_eq, h2.char_eq, h1.degr_eq, h2.degr_eq]
    rw [if_neg (not_not.mpr rfl)]
    split
    . next hmod => exact hfound h1 hd1 (dvd_of_mod_eq_zero hmod)
    . next hmod1 =>
      split
      . next hmod => exact hfound h2 (dvd_of_mod_eq_zero hmod) hd2
      . next hmod2 =>
        have ha := h1.degr_pos ht
        have hb := h2.degr_pos ht
        have hd1pos := pos_of_dvd_of_pos hd1 ha
        have hd2pos := pos_of_dvd_of_pos hd2 hb
        have hlcmpos := lcm_pos hd1pos hd2pos
        have hlcmle := le_of_dvd (Nat.mul_pos hd1pos hd2pos) (Nat.lcm_dvd_mul d1 d2)
        rw [commonDegree_eq hd1pos dvd_rfl hd1pos
          (le_of_dvd hlcmpos (Nat.dvd_lcm_left d1 d2)) (by omega), ok_bind]
        have hsmall : p ^ 2 ≤ maxFF ∧ Nat.lcm d1 d2 ≤ maxFF := by
          constructor
          . have hb2 : 2 ≤ b := by
              by_contra hlt
              have hone := le_of_dvd hb hd2
              apply hmod1
              rw [show d2 = 1 by omega, mod_one]
            exact Nat.le_trans (Nat.pow_le_pow_right (h2.prime ht).pos hb2) (h2.size_le ht)
          . have hle1 := Nat.le_trans (le_of_dvd ha hd1) (h1.degree_le ht)
            have hle2 := Nat.le_trans (le_of_dvd hb hd2) (h2.degree_le ht)
            have hmul := Nat.mul_le_mul hle1 hle2
            unfold maxFF
            omega
        obtain ⟨ff, hrun, hfield, hne⟩ :=
          @finiteField_spec t w p _ ht (h1.prime ht) hlcmpos (fun _ => hsmall)
        refine ⟨ff, hrun, fun h => ⟨_, hfield h, Nat.dvd_lcm_left _ _, Nat.dvd_lcm_right _ _⟩, ?_⟩
        rintro ⟨d, hd, hdvd1, hdvd2⟩
        apply hne
        have hle := le_of_dvd hd.1 (Nat.lcm_dvd hdvd1 hdvd2)
        exact ⟨hlcmpos, hd.2.1,
          Nat.le_trans (Nat.pow_le_pow_right (h1.prime ht).pos hle) hd.2.2⟩

end Common

end Tables

section Elements

variable {K : Type} [Field K]

structure IsKernel (t : FFData) (p : Nat) (Z : Nat → K) : Prop where
  data : IsFFData t
  prime : p.Prime
  charP : CharP K p
  compatible : IsCompatible p (IsSmallDegree t p) Z
  succTable : ∀ d ff, IsField t p d ff → IsSuccTable (p ^ d) (Z d) (t.succFF ff)

structure Element (t : FFData) (p : Nat) where
  ffe : FFE
  isField : IsField t p (t.degrFF ffe.fld) ffe.fld
  val_lt : ffe.val < p ^ t.degrFF ffe.fld

namespace Element

variable {t : FFData} {p : Nat} {Z : Nat → K}

def deg (a : Element t p) : Nat :=
  t.degrFF a.ffe.fld

theorem isField_deg (a : Element t p) : IsField t p a.deg a.ffe.fld :=
  a.isField

def value (Z : Nat → K) (a : Element t p) : K :=
  power (Z a.deg) a.ffe.val

section

variable (h : IsKernel t p Z) (a : Element t p)

include h a

theorem isSmallDegree : IsSmallDegree t p a.deg :=
  a.isField.isSmallDegree h.data

theorem size_eq : t.sizeFF a.ffe.fld = p ^ a.deg :=
  a.isField.size_eq h.data

theorem one_lt : 1 < p :=
  (a.isField.prime h.data).one_lt

theorem succTable
    : IsSuccTable (p ^ a.deg) (Z a.deg) (t.succFF a.ffe.fld) :=
  h.succTable _ _ a.isField

end

theorem value_of_pos (a : Element t p) (hpos : 0 < a.ffe.val)
    : a.value Z = Z a.deg ^ (a.ffe.val - 1) :=
  power_of_pos hpos

section

variable (h : IsKernel t p Z) (a : Element t p)

include h a

theorem value_eq_zero_iff
    : a.value Z = 0 ↔ a.ffe.val = 0 :=
  (a.succTable h).power_eq_zero_iff

theorem inField : InField p a.deg (a.value Z) := by
  unfold value
  rcases Nat.eq_zero_or_pos a.ffe.val with hzero | hpos
  . rw [hzero, power_zero]
    exact inField_zero (a.one_lt h)
  . rw [power_of_pos hpos]
    exact h.compatible.inField_pow (a.one_lt h) (a.isSmallDegree h) _

theorem degree_dvd : degree p (a.value Z) ∣ a.deg :=
  (inField_iff_degree_dvd (a.one_lt h) (a.isField.degr_pos h.data) (a.inField h)).mp (a.inField h)

theorem degree_pos : 0 < degree p (a.value Z) :=
  (degree_spec (a.isField.degr_pos h.data) (a.inField h)).1

theorem isSmallDegree_degree
    : IsSmallDegree t p (degree p (a.value Z)) :=
  h.compatible.of_dvd _ _ (a.isSmallDegree h) (a.degree_pos h) (a.degree_dvd h)

theorem stops_iff (hpos : 0 < a.ffe.val) {d : Nat} (hd : 0 < d)
    : ¬((p ^ a.deg - 1) % (p ^ d - 1) ≠ 0
          ∨ (a.ffe.val - 1) % ((p ^ a.deg - 1) / (p ^ d - 1)) ≠ 0)
        ↔ d ∣ a.deg ∧ degree p (a.value Z) ∣ d := by
  have hp := a.one_lt h
  rw [not_or, not_not, not_not, ← dvd_iff_mod_eq_zero, ← dvd_iff_mod_eq_zero,
    pow_sub_one_dvd_iff hp]
  refine and_congr_right fun hdvd => ?_
  rw [← h.compatible.inField_pow_iff hp (a.isSmallDegree h) hd hdvd, ← a.value_of_pos hpos,
    inField_iff_degree_dvd hp (a.isField.degr_pos h.data) (a.inField h)]

theorem minimalField_eq (hpos : 0 < a.ffe.val) {fuel d : Nat} (hd : 0 < d)
    (hle : d ≤ degree p (a.value Z)) (hfuel : degree p (a.value Z) < d + fuel)
    : minimalField (p ^ a.deg) p a.ffe.val fuel (p ^ d) d
        = .ok (p ^ degree p (a.value Z), degree p (a.value Z)) := by
  induction fuel generalizing d with
  | zero => omega
  | succ fuel ih =>
    unfold minimalField
    have hstops := a.stops_iff h hpos hd
    split
    . next hcond =>
      have hne : d ≠ degree p (a.value Z) := by
        intro heq
        exact hstops.mpr ⟨by rw [heq]; exact a.degree_dvd h, by rw [← heq]⟩ hcond
      rw [← pow_succ]
      exact ih (succ_pos d) (by omega) (by omega)
    . next hcond =>
      rw [Nat.le_antisymm hle (le_of_dvd hd (hstops.mp hcond).2)]
      rfl

theorem minimalField_run (hpos : 0 < a.ffe.val)
    : minimalField (t.sizeFF a.ffe.fld) (t.charFF a.ffe.fld) a.ffe.val (t.sizeFF a.ffe.fld)
          (t.charFF a.ffe.fld) 1
        = .ok (p ^ degree p (a.value Z), degree p (a.value Z)) := by
  have hlt := Nat.lt_pow_self (a.one_lt h) (n := a.deg)
  have hle := le_of_dvd (a.isField.degr_pos h.data) (a.degree_dvd h)
  rw [a.size_eq h, a.isField.char_eq]
  have hrun := @minimalField_eq K _ t p Z h a hpos (p ^ a.deg) 1 Nat.one_pos (a.degree_pos h)
    (by unfold deg at *; omega)
  rw [pow_one] at hrun
  exact hrun

end

theorem degree_zero (hp : 1 < p) : degree p (0 : K) = 1 :=
  Nat.le_antisymm (degree_le Nat.one_pos (inField_zero hp))
    (degree_spec Nat.one_pos (inField_zero hp)).1

variable (h : IsKernel t p Z) (a : Element t p)

include h a

theorem degreeFFE_eq
    : degreeFFE t a.ffe = .ok (degree p (a.value Z)) := by
  unfold degreeFFE
  dsimp only
  split
  . next hzero =>
    rw [(a.value_eq_zero_iff h).mpr hzero, degree_zero (a.one_lt h)]
    rfl
  . next hne =>
    rw [a.minimalField_run h (Nat.pos_of_ne_zero hne), ok_bind]
    rfl

theorem exists_exponent (hpos : 0 < a.ffe.val)
    : ∃ k m, k < p ^ degree p (a.value Z) - 1 ∧ 0 < m ∧ a.ffe.val - 1 = m * k
        ∧ p ^ a.deg - 1 = (p ^ degree p (a.value Z) - 1) * m
        ∧ Z (degree p (a.value Z)) ^ k = a.value Z := by
  have hp := a.one_lt h
  obtain ⟨hdvd, hk⟩ :=
    not_or.mp ((a.stops_iff h hpos (a.degree_pos h)).mpr ⟨a.degree_dvd h, dvd_rfl⟩)
  obtain ⟨m, hm⟩ := dvd_of_mod_eq_zero (not_not.mp hdvd)
  obtain ⟨k, hk⟩ := dvd_of_mod_eq_zero (not_not.mp hk)
  have horder := h.compatible.order_pos hp (a.isSmallDegree_degree h)
  have hquot : (p ^ a.deg - 1) / (p ^ degree p (a.value Z) - 1) = m := by
    rw [hm, Nat.mul_div_cancel_left m horder]
  have hmpos : 0 < m := by
    apply Nat.pos_of_ne_zero
    rintro rfl
    have := h.compatible.order_pos hp (a.isSmallDegree h)
    omega
  have hvalue : Z (degree p (a.value Z)) ^ k = a.value Z := by
    rw [← h.compatible.pow_mul_eq (a.isSmallDegree h) (a.degree_pos h) (a.degree_dvd h), ← hk,
      a.value_of_pos hpos]
  rw [hquot] at hk
  refine ⟨k, m, ?_, hmpos, hk, hm, hvalue⟩
  have hval := a.val_lt
  have hmul : m * k < m * (p ^ degree p (a.value Z) - 1) := by
    rw [← hk, Nat.mul_comm m, ← hm]
    unfold deg
    omega
  exact Nat.lt_of_mul_lt_mul_left hmul

theorem log_eq (hpos : 0 < a.ffe.val)
    : (a.ffe.val - 1) / ((p ^ a.deg - 1) / (p ^ degree p (a.value Z) - 1))
        = log Z (degree p (a.value Z)) (a.value Z) := by
  have hsmall := a.isSmallDegree_degree h
  obtain ⟨k, m, hlt, hmpos, hk, hm, hvalue⟩ := a.exists_exponent h hpos
  rw [h.compatible.log_eq hsmall hlt hvalue, hk, hm,
    Nat.mul_div_cancel_left m (h.compatible.order_pos (a.one_lt h) hsmall),
    Nat.mul_div_cancel_left k hmpos]

theorem log_of_ground (hpos : 0 < a.ffe.val) (hq : t.sizeFF a.ffe.fld = p)
    : degree p (a.value Z) = 1 ∧ log Z (degree p (a.value Z)) (a.value Z) = a.ffe.val - 1 := by
  have hp := a.one_lt h
  have hdeg : a.deg = 1 := by
    apply Nat.pow_right_injective hp
    show p ^ a.deg = p ^ 1
    rw [← a.size_eq h, hq, pow_one]
  have hone : degree p (a.value Z) = 1 := by
    have hdvd := a.degree_dvd h
    rw [hdeg] at hdvd
    exact dvd_one.mp hdvd
  refine ⟨hone, ?_⟩
  rw [← a.log_eq h hpos, hone, hdeg, Nat.div_self, Nat.div_one]
  rw [pow_one]
  omega

end Element

section Comparison

variable {t : FFData} {p : Nat} {Z : Nat → K}

section

variable (h : IsKernel t p Z)

include h

theorem compareMinimal_eq (a b : Element t p) (ha : 0 < a.ffe.val) (hb : 0 < b.ffe.val)
    (other same : Nat → Nat → Bool)
    : compareMinimal t a.ffe b.ffe other same
        = .ok (if degree p (a.value Z) ≠ degree p (b.value Z) then
            other (p ^ degree p (a.value Z)) (p ^ degree p (b.value Z))
          else
            same (log Z (degree p (a.value Z)) (a.value Z))
              (log Z (degree p (b.value Z)) (b.value Z))) := by
  unfold compareMinimal
  dsimp only
  rw [a.minimalField_run h ha, ok_bind, b.minimalField_run h hb, ok_bind]
  rw [a.size_eq h, b.size_eq h, a.log_eq h ha, b.log_eq h hb]
  have hinj : p ^ degree p (a.value Z) ≠ p ^ degree p (b.value Z)
      ↔ degree p (a.value Z) ≠ degree p (b.value Z) :=
    (Nat.pow_right_injective (a.one_lt h)).ne_iff
  by_cases hne : degree p (a.value Z) ≠ degree p (b.value Z)
  . rw [if_pos hne, if_pos (hinj.mpr hne)]
    rfl
  . rw [if_neg hne, if_neg (fun hpow => hne (hinj.mp hpow))]
    rfl

theorem rank_of_pos (a : Element t p) (ha : 0 < a.ffe.val)
    : rank p Z (a.value Z)
        = toLex (degree p (a.value Z), log Z (degree p (a.value Z)) (a.value Z)) := by
  unfold rank
  rw [if_neg (fun hzero => Nat.ne_of_gt ha ((a.value_eq_zero_iff h).mp hzero))]

theorem rank_of_zero (a : Element t p) (ha : a.ffe.val = 0)
    : rank p Z (a.value Z) = toLex (0, 0) := by
  unfold rank
  rw [if_pos ((a.value_eq_zero_iff h).mpr ha)]

theorem rank_inj (a b : Element t p)
    : rank p Z (a.value Z) = rank p Z (b.value Z) ↔ a.value Z = b.value Z :=
  ⟨h.compatible.eq_of_rank_eq (a.one_lt h) (a.isSmallDegree h) (a.inField h) (b.isSmallDegree h)
    (b.inField h), fun heq => by rw [heq]⟩

end

theorem power_inj {q : Nat} {ζ : K} {f : List Nat} (h : IsSuccTable q ζ f) {v v' : Nat} (hv : v < q)
    (hv' : v' < q) (heq : power ζ v = power ζ v') : v = v' := by
  rcases Nat.eq_zero_or_pos v with rfl | hpos
  . rw [power_zero, eq_comm, h.power_eq_zero_iff] at heq
    exact heq.symm
  . rcases Nat.eq_zero_or_pos v' with rfl | hpos'
    . rw [power_zero, h.power_eq_zero_iff] at heq
      exact heq
    . rw [power_of_pos hpos, power_of_pos hpos'] at heq
      have := h.isPrimitiveRoot.pow_inj (by omega) (by omega) heq
      omega

theorem eqFFE_spec (h : IsKernel t p Z) (a b : Element t p)
    : ∃ r, eqFFE t a.ffe b.ffe = .ok r ∧ (r = true ↔ a.value Z = b.value Z) := by
  unfold eqFFE
  split
  . next hfld =>
    refine ⟨_, rfl, ?_⟩
    rw [beq_iff_eq]
    have hdeg : b.deg = a.deg := by
      unfold Element.deg
      rw [hfld]
    constructor
    . intro hval
      unfold Element.value
      rw [hval, hdeg]
    . intro heq
      unfold Element.value at heq
      rw [hdeg] at heq
      have hlt : b.ffe.val < p ^ a.deg := by
        rw [← hdeg]
        exact b.val_lt
      exact power_inj (a.succTable h) a.val_lt hlt heq
  . rw [a.isField.char_eq, b.isField.char_eq, if_neg (not_not.mpr rfl)]
    split
    . next hzero =>
      refine ⟨_, rfl, ?_⟩
      rw [Bool.and_eq_true, beq_iff_eq, beq_iff_eq, ← a.value_eq_zero_iff h,
        ← b.value_eq_zero_iff h]
      rw [← a.value_eq_zero_iff h, ← b.value_eq_zero_iff h] at hzero
      constructor
      . rintro ⟨ha, hb⟩
        rw [ha, hb]
      . intro heq
        rcases hzero with ha | hb
        . exact ⟨ha, heq ▸ ha⟩
        . exact ⟨heq ▸ hb, hb⟩
    . next hne =>
      have ha : 0 < a.ffe.val := by omega
      have hb : 0 < b.ffe.val := by omega
      rw [compareMinimal_eq h a b ha hb]
      refine ⟨_, rfl, ?_⟩
      rw [← rank_inj h a b, rank_of_pos h a ha, rank_of_pos h b hb, EmbeddingLike.apply_eq_iff_eq,
        Prod.mk.injEq]
      split
      . next hdeg => exact ⟨fun hf => (nomatch hf), fun heq => absurd heq.1 hdeg⟩
      . next hdeg =>
        exact ⟨fun hk => ⟨not_not.mp hdeg, beq_iff_eq.mp hk⟩, fun heq => beq_iff_eq.mpr heq.2⟩

theorem ltFFE_spec (h : IsKernel t p Z) (a b : Element t p)
    : ∃ r, ltFFE t a.ffe b.ffe = .ok (some r)
        ∧ (r = true ↔ rank p Z (a.value Z) < rank p Z (b.value Z)) := by
  unfold ltFFE
  rw [a.isField.char_eq, b.isField.char_eq, if_neg (not_not.mpr rfl)]
  split
  . next hzero =>
    refine ⟨_, rfl, ?_⟩
    rw [Bool.and_eq_true, beq_iff_eq, bne_iff_ne]
    rcases Nat.eq_zero_or_pos b.ffe.val with hb | hb
    . rw [rank_of_zero h b hb]
      refine ⟨fun hab => absurd hb hab.2, fun hlt => ?_⟩
      rcases Prod.Lex.lt_iff.mp hlt with hlt | hlt
      . exact absurd hlt (Nat.not_lt_zero _)
      . exact absurd hlt.2 (Nat.not_lt_zero _)
    . have ha : a.ffe.val = 0 := by omega
      refine ⟨fun _ => ?_, fun _ => ⟨ha, Nat.ne_of_gt hb⟩⟩
      rw [rank_of_zero h a ha, rank_of_pos h b hb, Prod.Lex.lt_iff]
      exact .inl (b.degree_pos h)
  . next hne =>
    have ha : 0 < a.ffe.val := by omega
    have hb : 0 < b.ffe.val := by omega
    have hlex : rank p Z (a.value Z) < rank p Z (b.value Z)
        ↔ degree p (a.value Z) < degree p (b.value Z)
          ∨ degree p (a.value Z) = degree p (b.value Z)
            ∧ log Z (degree p (a.value Z)) (a.value Z)
              < log Z (degree p (b.value Z)) (b.value Z) := by
      rw [rank_of_pos h a ha, rank_of_pos h b hb, Prod.Lex.lt_iff]
      rfl
    split
    . next hground =>
      obtain ⟨hda, hka⟩ := a.log_of_ground h ha hground.1
      obtain ⟨hdb, hkb⟩ := b.log_of_ground h hb hground.2
      refine ⟨_, rfl, ?_⟩
      rw [hlex, decide_eq_true_iff, hka, hkb, hda, hdb]
      omega
    . rw [compareMinimal_eq h a b ha hb, ok_bind]
      refine ⟨_, rfl, ?_⟩
      rw [hlex]
      split
      . next hdeg =>
        rw [decide_eq_true_iff, Nat.pow_lt_pow_iff_right (a.one_lt h)]
        exact ⟨.inl, fun hor => hor.resolve_right fun hand => hdeg hand.1⟩
      . next hdeg =>
        rw [decide_eq_true_iff]
        have heq := not_not.mp hdeg
        exact ⟨fun hk => .inr ⟨heq, hk⟩, fun hor => (hor.resolve_left (by omega)).2⟩

end Comparison

end Elements

section CommonField

variable {K : Type} [Field K] {t : FFData} {w : IntSize} {p : Nat} {Z : Nat → K}

def HasCommonField (t : FFData) (p : Nat) (x y : K) : Prop :=
  ∃ d, IsSmallDegree t p d ∧ InField p d x ∧ InField p d y

def liftValue (qX q v : Nat) : Nat :=
  if v ≠ 0 then ((qX - 1) * (v - 1)) / (q - 1) + 1 else v

namespace Element

theorem liftValue_spec (h : IsKernel t p Z) (a : Element t p) {dX fX : Nat}
    (hX : IsField t p dX fX) (hdvd : degree p (a.value Z) ∣ dX)
    : liftValue (p ^ dX) (p ^ a.deg) a.ffe.val < p ^ dX
        ∧ power (Z dX) (liftValue (p ^ dX) (p ^ a.deg) a.ffe.val) = a.value Z := by
  have hp := a.one_lt h
  have hsmallX := hX.isSmallDegree h.data
  unfold liftValue
  split
  . next hne =>
    have hpos := Nat.pos_of_ne_zero hne
    obtain ⟨k, m, hlt, hmpos, hk, hm, hvalue⟩ := a.exists_exponent h hpos
    obtain ⟨n, hn⟩ := (pow_sub_one_dvd_iff hp).mpr hdvd
    have horder := h.compatible.order_pos hp (a.isSmallDegree_degree h)
    have horderX := h.compatible.order_pos hp hsmallX
    have hquot : (p ^ dX - 1) * (a.ffe.val - 1) / (p ^ a.deg - 1) = n * k := by
      rw [hk, hm, hn]
      apply Nat.div_eq_of_eq_mul_right (Nat.mul_pos horder hmpos)
      ring
    have hnk : n * k < p ^ dX - 1 := by
      rw [hn, Nat.mul_comm _ n]
      apply Nat.mul_lt_mul_of_pos_left hlt
      apply Nat.pos_of_ne_zero
      rintro rfl
      omega
    rw [hquot, power_of_pos (by omega), Nat.add_sub_cancel]
    refine ⟨by omega, ?_⟩
    rw [← hvalue, ← h.compatible.pow_mul_eq hsmallX (a.degree_pos h) hdvd, hn,
      Nat.mul_div_cancel_left n horder]
  . next hzero =>
    have hval := not_not.mp hzero
    rw [(a.value_eq_zero_iff h).mpr hval, hval, power_zero]
    exact ⟨Nat.pow_pos (by omega), rfl⟩

theorem inField_iff_dvd (h : IsKernel t p Z) (a : Element t p) {d : Nat}
    : InField p d (a.value Z) ↔ degree p (a.value Z) ∣ d :=
  inField_iff_degree_dvd (a.one_lt h) (a.isField.degr_pos h.data) (a.inField h)

end Element

structure IsCommon (t : FFData) (p : Nat) (Z : Nat → K) (x y : K) (fX vL vR d : Nat) : Prop where
  isField : IsField t p d fX
  left_lt : vL < p ^ d
  right_lt : vR < p ^ d
  left_eq : power (Z d) vL = x
  right_eq : power (Z d) vR = y

theorem isCommon_lift (h : IsKernel t p Z) (a b : Element t p) {d fX : Nat}
    (hX : IsField t p d fX) (ha : degree p (a.value Z) ∣ d) (hb : degree p (b.value Z) ∣ d)
    : IsCommon t p Z (a.value Z) (b.value Z) fX (liftValue (p ^ d) (p ^ a.deg) a.ffe.val)
        (liftValue (p ^ d) (p ^ b.deg) b.ffe.val) d :=
  ⟨hX, (a.liftValue_spec h hX ha).1, (b.liftValue_spec h hX hb).1, (a.liftValue_spec h hX ha).2,
    (b.liftValue_spec h hX hb).2⟩

theorem liftValue_self {q v : Nat} (hq : 1 < q) : liftValue q q v = v := by
  unfold liftValue
  split
  . next hne =>
    rw [Nat.mul_div_cancel_left _ (by omega)]
    omega
  . rfl

theorem liftValue_of_dvd {qX q v : Nat} (h : q - 1 ∣ qX - 1)
    : (if v ≠ 0 then (qX - 1) / (q - 1) * (v - 1) + 1 else v) = liftValue qX q v := by
  unfold liftValue
  rw [Nat.div_mul_right_comm h]

theorem commonFF_degree (h : IsKernel t p Z) (a b : Element t p)
    : ∃ ff, commonFF t w a.ffe.fld (degree p (a.value Z)) b.ffe.fld (degree p (b.value Z)) = .ok ff
        ∧ (ff ≠ 0 → ∃ d, IsField t p d ff ∧ degree p (a.value Z) ∣ d ∧ degree p (b.value Z) ∣ d)
        ∧ (ff = 0 ↔ ¬HasCommonField t p (a.value Z) (b.value Z)) := by
  obtain ⟨ff, hrun, hne, hfound⟩ :=
    @commonFF_spec t w p h.data _ _ _ _ _ _ a.isField b.isField (a.degree_dvd h) (b.degree_dvd h)
  refine ⟨ff, hrun, hne, ?_, ?_⟩
  . rintro rfl ⟨d, hd, ha, hb⟩
    exact hfound ⟨d, hd, (a.inField_iff_dvd h).mp ha, (b.inField_iff_dvd h).mp hb⟩ rfl
  . intro hno
    by_contra hff
    obtain ⟨d, hd, ha, hb⟩ := hne hff
    exact hno ⟨d, hd.isSmallDegree h.data, (a.inField_iff_dvd h).mpr ha,
      (b.inField_iff_dvd h).mpr hb⟩

theorem bringIntoCommonField_spec (h : IsKernel t p Z) (a b : Element t p)
    : ∃ o, bringIntoCommonField t w a.ffe b.ffe = .ok o
        ∧ (o = none ↔ ¬HasCommonField t p (a.value Z) (b.value Z))
        ∧ ∀ fX vL vR, o = some (fX, vL, vR)
          → ∃ d, IsCommon t p Z (a.value Z) (b.value Z) fX vL vR d := by
  have hp := a.one_lt h
  have hsome {fX vL vR d : Nat} (hcommon : IsCommon t p Z (a.value Z) (b.value Z) fX vL vR d)
      (ha : degree p (a.value Z) ∣ d) (hb : degree p (b.value Z) ∣ d)
      : ∃ o, (.ok (some (fX, vL, vR)) : Result (Option (Nat × Nat × Nat))) = .ok o
        ∧ (o = none ↔ ¬HasCommonField t p (a.value Z) (b.value Z))
        ∧ ∀ fX vL vR, o = some (fX, vL, vR)
          → ∃ d, IsCommon t p Z (a.value Z) (b.value Z) fX vL vR d := by
    refine ⟨_, rfl, iff_of_false (fun hf => nomatch hf) (fun hno => hno ?_), ?_⟩
    . exact ⟨d, hcommon.isField.isSmallDegree h.data, (a.inField_iff_dvd h).mpr ha,
        (b.inField_iff_dvd h).mpr hb⟩
    . rintro _ _ _ ⟨⟩
      exact ⟨d, hcommon⟩
  have hmod {d e : Nat} : (p ^ d - 1) % (p ^ e - 1) = 0 ↔ e ∣ d := by
    rw [← dvd_iff_mod_eq_zero, pow_sub_one_dvd_iff hp]
  have hqa : 1 < p ^ a.deg := one_lt_pow (Nat.ne_of_gt (a.isField.degr_pos h.data)) hp
  have hqb : 1 < p ^ b.deg := one_lt_pow (Nat.ne_of_gt (b.isField.degr_pos h.data)) hp
  unfold bringIntoCommonField
  dsimp only
  rw [a.size_eq h, b.size_eq h]
  split
  . next hq =>
    have hdeg : b.deg = a.deg := (Nat.pow_right_injective hp hq).symm
    have hb := b.degree_dvd h
    rw [hdeg] at hb
    have hcommon := isCommon_lift h a b a.isField_deg (a.degree_dvd h) hb
    rw [hdeg, liftValue_self hqa, liftValue_self hqa] at hcommon
    exact hsome hcommon (a.degree_dvd h) hb
  . split
    . next hcond =>
      have hdvd := hmod.mp hcond.2
      have hb := (b.degree_dvd h).trans hdvd
      have hcommon := isCommon_lift h a b a.isField_deg (a.degree_dvd h) hb
      rw [liftValue_self hqa] at hcommon
      rw [liftValue_of_dvd ((pow_sub_one_dvd_iff hp).mpr hdvd)]
      exact hsome hcommon (a.degree_dvd h) hb
    . split
      . next hcond =>
        have hdvd := hmod.mp hcond.2
        have ha := (a.degree_dvd h).trans hdvd
        have hcommon := isCommon_lift h a b b.isField_deg ha (b.degree_dvd h)
        rw [liftValue_self hqb] at hcommon
        rw [liftValue_of_dvd ((pow_sub_one_dvd_iff hp).mpr hdvd)]
        exact hsome hcommon ha (b.degree_dvd h)
      . rw [a.degreeFFE_eq h, ok_bind, b.degreeFFE_eq h, ok_bind]
        obtain ⟨fX, hrun, hfield, hno⟩ := @commonFF_degree K _ t w p Z h a b
        rw [hrun, ok_bind]
        split
        . next hzero =>
          exact ⟨none, rfl, iff_of_true rfl (hno.mp hzero), fun _ _ _ hf => nomatch hf⟩
        . next hne =>
          obtain ⟨d, hX, ha, hb⟩ := hfield hne
          rw [hX.size_eq h.data]
          exact hsome (isCommon_lift h a b hX ha hb) ha hb

end CommonField

end Finfield
