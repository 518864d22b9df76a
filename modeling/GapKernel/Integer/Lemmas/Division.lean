import GapKernel.Integer.Lemmas.Compare

open Nat

namespace Integer

def Returns (w : IntSize) (res : Result IntegerObj) (x : Int) : Prop :=
  ∃ op, res = .ok op ∧ Represents w op x

variable {w : IntSize} (P : Platform w) {opL opR : IntegerObj} {a b : Int}

theorem returns_pure {op : IntegerObj} {x : Int} (h : Represents w op x)
    : Returns w (pure op) x :=
  ⟨op, rfl, h⟩

theorem requireNonzero_of_ne (hR : Represents w opR b) (hb : b ≠ 0)
    : requireNonzero w opR = .ok () := by
  unfold requireNonzero
  rw [if_neg]
  . rfl
  . rwa [hR.eq_zero_iff]

section Values

theorem natAbs_tmod_lt (hb : b ≠ 0) : (a.tmod b).natAbs < b.natAbs := by
  rw [Int.natAbs_tmod]
  apply mod_lt
  omega

theorem tdiv_eq_zero (h : a.natAbs < b.natAbs) : a.tdiv b = 0 := by
  rw [← Int.natAbs_eq_zero, Int.natAbs_tdiv]
  apply div_eq_of_lt h

theorem tmod_eq_self (h : a.natAbs < b.natAbs) : a.tmod b = a := by
  have := Int.mul_tdiv_add_tmod a b
  rwa [tdiv_eq_zero h, mul_zero, zero_add] at this

theorem tmod_nonpos (ha : a ≤ 0) : a.tmod b ≤ 0 := by
  have := Int.tmod_nonneg b (show 0 ≤ -a by omega)
  rw [Int.neg_tmod] at this
  omega

-- The residue is the remainder, or the remainder plus the absolute value of the divisor.
theorem emod_eq_of_tmod (a b : Int)
    : a % b = if a.tmod b < 0 then a.tmod b + |b| else a.tmod b := by
  rw [Int.emod_eq_tmod, Int.abs_eq_natAbs]
  simp only [Int.dvd_iff_tmod_eq_zero]
  have hnonneg := Int.tmod_nonneg (a := a) b
  have hnonpos := tmod_nonpos (a := a) (b := b)
  split
  . rw [if_neg (by omega), cast_zero, add_zero]
  . rw [if_pos (by omega)]

theorem emod_natAbs_lt (hb : b ≠ 0) : 0 ≤ a % b ∧ (a % b).natAbs < b.natAbs := by
  have hnonneg := Int.emod_nonneg a hb
  have hlt := Int.emod_lt_abs a hb
  rw [Int.abs_eq_natAbs] at hlt
  omega

end Values

section Sign

def HasSign (w : IntSize) (mk : List Nat → IntegerObj) (s : Int) : Prop :=
  ∀ limbs, Limbs.AreLimbs w.limbBase limbs → 0 < limbs.length
    → Represents w (gmpNormalize w (mk limbs)) (s * w.ofLimbs limbs)

theorem hasSign_intpos (w : IntSize) : HasSign w .intpos 1 := by
  intro limbs hlimbs hpos
  rw [one_mul]
  apply gmpNormalize_intpos hlimbs hpos

theorem hasSign_intneg (w : IntSize) : HasSign w .intneg (-1) := by
  intro limbs hlimbs hpos
  rw [neg_one_mul]
  apply gmpNormalize_intneg hlimbs hpos

variable {mk : List Nat → IntegerObj} {s : Int}

theorem HasSign.represents_digitsAppend (h : HasSign w mk s) {n x : Nat} (hn : 0 < n)
    (hlt : x < w.limbBase ^ n)
    : Represents w (gmpNormalize w (mk (digitsAppend w.limbBase n x))) (s * x) := by
  have := h _ (areLimbs_digitsAppend w n x) (by rwa [length_digitsAppend hlt])
  rwa [ofLimbs_digitsAppend] at this

theorem HasSign.represents_bagOf (h : HasSign w mk s) {n : Nat} (hn : 0 < n) {limbs : List Nat}
    (hlimbs : Limbs.AreLimbs w.limbBase limbs)
    : Represents w (gmpNormalize w (mk (bagOf n limbs))) (s * w.ofLimbs limbs) := by
  have hbag : Limbs.AreLimbs w.limbBase (bagOf n limbs) := by
    intro x hx
    unfold bagOf at hx
    rw [List.mem_append] at hx
    cases hx with
    | inl hx => apply hlimbs x hx
    | inr hx =>
      rw [List.eq_of_mem_replicate hx]
      have := one_lt_limbBase w
      omega
  have hlen : 0 < (bagOf n limbs).length := by
    unfold bagOf
    rw [List.length_append, List.length_replicate]
    omega
  have hval : w.ofLimbs (bagOf n limbs) = w.ofLimbs limbs := by
    unfold IntSize.ofLimbs bagOf
    rw [ofDigits_append_replicate_zero]
  have := h _ hbag hlen
  rwa [hval] at this

end Sign

section Limbs

variable {mk : List Nat → IntegerObj} {s : Int} {l r : List Nat}

theorem smallRemainder_eq (hl : Limbs.AreLimbs w.limbBase l) (hb : b ≠ 0) (hsmall : w.IsSmall b)
    : smallRemainder P l b = w.ofLimbs l % b.natAbs := by
  have hlt := natAbs_lt_of_isSmall hsmall
  unfold smallRemainder
  dsimp only
  split
  . next hpower =>
    rw [and_sub_one_eq_zero_iff_isPowerOfTwo (by omega)] at hpower
    obtain ⟨k, hk⟩ := hpower
    have hdvd : b.natAbs ∣ w.limbBase := by
      rw [hk]
      apply Nat.pow_dvd_pow
      rw [hk] at hlt
      apply Nat.le_of_lt
      apply (Nat.pow_lt_pow_iff_right (by omega)).1 hlt
    rw [hk] at hdvd ⊢
    rw [Limbs.getD_zero_eq_mod hl, and_two_pow_sub_one_eq_mod, mod_mod_of_dvd _ hdvd]
    rfl
  . apply P.mpnMod1_eq l _ hl (by omega) hlt

variable (hmk : HasSign w mk s) (hl : Limbs.IsNormal w.limbBase l)

include hmk hl

theorem represents_quoInt_small (hpos : 0 < l.length) (hb : b ≠ 0) (hsmall : w.IsSmall b)
    : Represents w (quoInt.small P l b mk) (s * (w.ofLimbs l / b.natAbs : Nat)) := by
  unfold quoInt.small
  rw [P.mpnDivrem1_eq l _ hl.areLimbs (by omega) (natAbs_lt_of_isSmall hsmall)]
  apply hmk.represents_digitsAppend hpos
  have hlt : w.ofLimbs l < w.limbBase ^ l.length := hl.lt_pow (one_lt_limbBase w)
  have := Nat.div_le_self (w.ofLimbs l) b.natAbs
  omega

theorem represents_quoInt_large (hr : Limbs.IsNormal w.limbBase r) (hpos : 0 < r.length)
    : Represents w (quoInt.large P l r mk) (s * (w.ofLimbs l / w.ofLimbs r : Nat)) := by
  have hB := one_lt_limbBase w
  unfold quoInt.large
  split
  . next hlen =>
    have hlt : w.ofLimbs l < w.ofLimbs r := hl.lt_of_length_lt hB hr hlen
    rw [div_eq_of_lt hlt, cast_zero, mul_zero]
    apply represents_INTOBJ_INT (isSmall_zero w)
  . next hlen =>
    rw [P.mpnTdivQr_eq l r hl.areLimbs hr hpos (by omega)]
    apply hmk.represents_digitsAppend (by omega)
    rw [Nat.div_lt_iff_lt_mul (ofLimbs_pos hr hpos)]
    have hlow : w.limbBase ^ (r.length - 1) ≤ w.ofLimbs r := hr.pow_le hB hpos
    calc w.ofLimbs l < w.limbBase ^ l.length := hl.lt_pow hB
      _ = w.limbBase ^ (l.length - r.length + 1) * w.limbBase ^ (r.length - 1) := by
        rw [← pow_add]
        congr 1
        omega
      _ ≤ w.limbBase ^ (l.length - r.length + 1) * w.ofLimbs r := Nat.mul_le_mul_left _ hlow

theorem represents_remInt_large (hr : Limbs.IsNormal w.limbBase r) (hpos : 0 < r.length)
    (hL : Represents w opL (s * w.ofLimbs l))
    : Represents w (remInt.large P opL l r mk) (s * (w.ofLimbs l % w.ofLimbs r : Nat)) := by
  have hB := one_lt_limbBase w
  unfold remInt.large
  split
  . next hlen =>
    have hlt : w.ofLimbs l < w.ofLimbs r := hl.lt_of_length_lt hB hr hlen
    rw [mod_eq_of_lt hlt]
    exact hL
  . next hlen =>
    rw [P.mpnTdivQr_eq l r hl.areLimbs hr hpos (by omega)]
    have := hmk.represents_bagOf (n := l.length + 1) (by omega)
      (areLimbs_digitsAppend w r.length (w.ofLimbs l % w.ofLimbs r))
    rwa [ofLimbs_digitsAppend] at this

end Limbs

section Small

theorem small_lt_large (hL : Represents w opL a) (hR : Represents w opR b)
    (hsmall : isIntobj opL = true) (hlarge : isIntobj opR = false)
    : a.natAbs < b.natAbs ∨ (a = -(w.minusIntobjMin : Int) ∧ b = w.minusIntobjMin) := by
  cases opL with
  | intobj l =>
    have ha := hL.of_intobj.1
    rw [isSmall_iff_lt] at ha
    cases opR with
    | intobj r => contradiction
    | intpos r =>
      have := hR.lt_of_intpos
      omega
    | intneg r =>
      have := hR.lt_of_intneg
      omega
  | intpos l => contradiction
  | intneg l => contradiction

theorem isSmall_tdiv (ha : w.IsSmall a) (hb : b ≠ 0)
    (h : ¬(a = -(w.minusIntobjMin : Int) ∧ b = -1))
    : w.IsSmall (a.tdiv b) := by
  rw [isSmall_iff_lt] at ha ⊢
  have hle := Int.natAbs_tdiv_le_natAbs a b
  by_cases hmin : a = -(w.minusIntobjMin : Int)
  . have hone : b = 1 ∨ 1 < b.natAbs := by omega
    cases hone with
    | inl hone =>
      rw [hone, Int.tdiv_one]
      exact ha
    | inr hone =>
      have : (a.tdiv b).natAbs < w.minusIntobjMin := by
        rw [Int.natAbs_tdiv, hmin, Int.natAbs_neg, Int.natAbs_natCast]
        apply Nat.div_lt_self (minusIntobjMin_pos w) hone
      omega
  . omega

theorem isSmall_of_natAbs_lt (hb : w.IsSmall b) (h : a.natAbs < b.natAbs) : w.IsSmall a := by
  rw [isSmall_iff_lt] at hb ⊢
  omega

end Small

theorem operands_cases (opL opR : IntegerObj)
    : (∃ l r, opL = .intobj l ∧ opR = .intobj r)
      ∨ (isIntobj opL = true ∧ isIntobj opR = false)
      ∨ (isIntobj opL = false ∧ ∃ r, opR = .intobj r)
      ∨ (isIntobj opL = false ∧ isIntobj opR = false) := by
  cases opL with
  | intobj l => cases opR <;> simp [isIntobj]
  | intpos l => cases opR <;> simp [isIntobj]
  | intneg l => cases opR <;> simp [isIntobj]

section Quo

theorem returns_quoInt_intobj (hL : Represents w opL a) (hR : Represents w opR b) (hb : b ≠ 0)
    (hsmall : isIntobj opL = true) (hlarge : isIntobj opR = false)
    : Returns w (quoInt P opL opR) (a.tdiv b) := by
  have hlt := small_lt_large hL hR hsmall hlarge
  have hM := minusIntobjMin_pos w
  have hquo : Returns w (if opL = INTOBJ_MIN w ∧ isMinusIntobjMin w opR = true then
      pure (INTOBJ_INT w (-1)) else pure (INTOBJ_INT w 0)) (a.tdiv b) := by
    simp only [hL.eq_INTOBJ_MIN_iff, hR.isMinusIntobjMin_iff]
    split
    . next h =>
      rw [h.1, h.2, Int.neg_tdiv, Int.tdiv_self (by omega)]
      apply returns_pure
      apply represents_INTOBJ_INT (isSmall_minusOne w)
    . next h =>
      rw [tdiv_eq_zero (hlt.resolve_right h)]
      apply returns_pure
      apply represents_INTOBJ_INT (isSmall_zero w)
  unfold quoInt
  rw [requireNonzero_of_ne hR hb, ok_bind]
  cases opL with
  | intobj l =>
    cases opR with
    | intobj r => contradiction
    | intpos r => exact hquo
    | intneg r => exact hquo
  | intpos l => contradiction
  | intneg l => contradiction

theorem returns_quoInt_intobjs {l r : Int} (hL : Represents w (.intobj l) a)
    (hR : Represents w (.intobj r) b) (hb : b ≠ 0)
    : Returns w (quoInt P (.intobj l) (.intobj r)) (a.tdiv b) := by
  obtain ⟨ha, hl⟩ := hL.of_intobj
  obtain ⟨_, hr⟩ := hR.of_intobj
  unfold quoInt
  rw [requireNonzero_of_ne hR hb, ok_bind]
  simp only [hL.eq_INTOBJ_MIN_iff, hR.eq_INTOBJ_INT_iff (isSmall_minusOne w)]
  split
  . next h =>
    apply returns_pure
    rw [h.1, h.2, Int.neg_tdiv_neg, Int.tdiv_one]
    apply represents_minusIntobjMin
  . next h =>
    apply returns_pure
    rw [hl, hr, INT_INTOBJ_eq, INT_INTOBJ_eq]
    apply represents_INTOBJ_INT
    apply isSmall_tdiv ha hb h

theorem tdiv_natAbs_of_nonneg (x : Nat) (hb : ¬b < 0) : (x : Int).tdiv b = (x / b.natAbs : Nat) := by
  rw [Int.ofNat_tdiv]
  congr 1
  omega

theorem tdiv_natAbs_of_neg (x : Nat) (hb : b < 0) : (x : Int).tdiv b = -(x / b.natAbs : Nat) := by
  rw [Int.ofNat_tdiv, ← Int.tdiv_neg]
  congr 1
  omega

theorem returns_quoInt_small (hL : Represents w opL a) {r : Int}
    (hR : Represents w (.intobj r) b) (hb : b ≠ 0) (hlarge : isIntobj opL = false)
    : Returns w (quoInt P opL (.intobj r)) (a.tdiv b) := by
  obtain ⟨hsmall, hr⟩ := hR.of_intobj
  have hnormal {l : List Nat} (h : Limbs.IsNormal w.limbBase l) (hpos : 0 < l.length)
      {mk : List Nat → IntegerObj} {s : Int} (hmk : HasSign w mk s) :=
    represents_quoInt_small P hmk h hpos hb hsmall
  unfold quoInt
  rw [requireNonzero_of_ne hR hb, ok_bind]
  cases opL with
  | intobj l => contradiction
  | intpos l =>
    have hpos := IsCanonical.length_pos (Or.inl hL.1)
    apply returns_pure
    rw [hr, INT_INTOBJ_eq, ← hL.2]
    split
    . next hneg =>
      have := hnormal hL.1.1 hpos (hasSign_intneg w)
      rwa [neg_one_mul, ← tdiv_natAbs_of_neg _ hneg] at this
    . next hneg =>
      have := hnormal hL.1.1 hpos (hasSign_intpos w)
      rwa [one_mul, ← tdiv_natAbs_of_nonneg _ hneg] at this
  | intneg l =>
    have hpos := IsCanonical.length_pos (Or.inr hL.1)
    apply returns_pure
    rw [hr, INT_INTOBJ_eq, ← hL.2]
    simp only [val]
    rw [Int.neg_tdiv]
    split
    . next hneg =>
      have := hnormal hL.1.1 hpos (hasSign_intpos w)
      rwa [one_mul, ← neg_neg ((_ : Nat) : Int), ← tdiv_natAbs_of_neg _ hneg] at this
    . next hneg =>
      have := hnormal hL.1.1 hpos (hasSign_intneg w)
      rwa [neg_one_mul, ← tdiv_natAbs_of_nonneg _ hneg] at this

variable (hL : Represents w opL a) (hR : Represents w opR b) (hb : b ≠ 0)

include hL hR hb

theorem returns_quoInt_large (hlargeL : isIntobj opL = false) (hlargeR : isIntobj opR = false)
    : Returns w (quoInt P opL opR) (a.tdiv b) := by
  have hnormal {l r : List Nat} (hl : Limbs.IsNormal w.limbBase l)
      (hr : Limbs.IsNormal w.limbBase r) (hpos : 0 < r.length)
      {mk : List Nat → IntegerObj} {s : Int} (hmk : HasSign w mk s) :=
    represents_quoInt_large P hmk hl hr hpos
  unfold quoInt
  rw [requireNonzero_of_ne hR hb, ok_bind, ← hL.2, ← hR.2]
  cases opL with
  | intobj l => contradiction
  | intpos l =>
    cases opR with
    | intobj r => contradiction
    | intpos r =>
      have hpos := IsCanonical.length_pos (Or.inl hR.1)
      have := hnormal hL.1.1 hR.1.1 hpos (hasSign_intpos w)
      rw [one_mul, Int.ofNat_tdiv] at this
      apply returns_pure this
    | intneg r =>
      have hpos := IsCanonical.length_pos (Or.inr hR.1)
      have := hnormal hL.1.1 hR.1.1 hpos (hasSign_intneg w)
      rw [neg_one_mul, Int.ofNat_tdiv, ← Int.tdiv_neg] at this
      apply returns_pure this
  | intneg l =>
    cases opR with
    | intobj r => contradiction
    | intpos r =>
      have hpos := IsCanonical.length_pos (Or.inl hR.1)
      have := hnormal hL.1.1 hR.1.1 hpos (hasSign_intneg w)
      rw [neg_one_mul, Int.ofNat_tdiv, ← Int.neg_tdiv] at this
      apply returns_pure this
    | intneg r =>
      have hpos := IsCanonical.length_pos (Or.inr hR.1)
      have := hnormal hL.1.1 hR.1.1 hpos (hasSign_intpos w)
      rw [one_mul, Int.ofNat_tdiv, ← Int.neg_tdiv_neg] at this
      apply returns_pure this

theorem returns_quoInt
    : Returns w (quoInt P opL opR) (a.tdiv b) := by
  rcases operands_cases opL opR with ⟨l, r, rfl, rfl⟩ | ⟨hl, hr⟩ | ⟨hl, r, rfl⟩ | ⟨hl, hr⟩
  . apply returns_quoInt_intobjs P hL hR hb
  . apply returns_quoInt_intobj P hL hR hb hl hr
  . apply returns_quoInt_small P hL hR hb hl
  . apply returns_quoInt_large P hL hR hb hl hr

end Quo

section Rem

variable {l : List Nat}

section

variable (hl : Limbs.AreLimbs w.limbBase l) (hb : b ≠ 0) (hsmall : w.IsSmall b)

include hl hb hsmall

theorem smallRemainder_eq_tmod
    : (smallRemainder P l b : Int) = (w.ofLimbs l : Int).tmod b := by
  have hnonneg := Int.tmod_nonneg (a := w.ofLimbs l) b (by omega)
  have := Int.natAbs_tmod (w.ofLimbs l) b
  rw [smallRemainder_eq P hl hb hsmall]
  rw [Int.natAbs_natCast] at this
  omega

theorem represents_smallRemainder
    : Represents w (INTOBJ_INT w (smallRemainder P l b)) ((w.ofLimbs l : Int).tmod b)
      ∧ Represents w (INTOBJ_INT w (-(smallRemainder P l b : Int)))
          ((-(w.ofLimbs l : Int)).tmod b) := by
  have hlt := natAbs_tmod_lt (a := w.ofLimbs l) hb
  rw [smallRemainder_eq_tmod P hl hb hsmall, Int.neg_tmod]
  constructor
  . apply represents_INTOBJ_INT
    apply isSmall_of_natAbs_lt hsmall hlt
  . apply represents_INTOBJ_INT
    apply isSmall_of_natAbs_lt hsmall
    rwa [Int.natAbs_neg]

end

theorem returns_remInt_intobj (hL : Represents w opL a) (hR : Represents w opR b) (hb : b ≠ 0)
    (hsmall : isIntobj opL = true) (hlarge : isIntobj opR = false)
    : Returns w (remInt P opL opR) (a.tmod b) := by
  have hlt := small_lt_large hL hR hsmall hlarge
  have hrem : Returns w (if opL = INTOBJ_MIN w ∧ isMinusIntobjMin w opR = true then
      pure (INTOBJ_INT w 0) else pure opL) (a.tmod b) := by
    simp only [hL.eq_INTOBJ_MIN_iff, hR.isMinusIntobjMin_iff]
    split
    . next h =>
      rw [h.1, h.2, Int.neg_tmod_self]
      apply returns_pure
      apply represents_INTOBJ_INT (isSmall_zero w)
    . next h =>
      rw [tmod_eq_self (hlt.resolve_right h)]
      apply returns_pure hL
  unfold remInt
  rw [requireNonzero_of_ne hR hb, ok_bind]
  cases opL with
  | intobj l =>
    cases opR with
    | intobj r => contradiction
    | intpos r => exact hrem
    | intneg r => exact hrem
  | intpos l => contradiction
  | intneg l => contradiction

theorem returns_remInt_intobjs {l r : Int} (hL : Represents w (.intobj l) a)
    (hR : Represents w (.intobj r) b) (hb : b ≠ 0)
    : Returns w (remInt P (.intobj l) (.intobj r)) (a.tmod b) := by
  obtain ⟨_, hl⟩ := hL.of_intobj
  obtain ⟨hsmall, hr⟩ := hR.of_intobj
  unfold remInt
  rw [requireNonzero_of_ne hR hb, ok_bind]
  apply returns_pure
  rw [hl, hr, INT_INTOBJ_eq, INT_INTOBJ_eq]
  apply represents_INTOBJ_INT
  apply isSmall_of_natAbs_lt hsmall (natAbs_tmod_lt hb)

theorem returns_remInt_small (hL : Represents w opL a) {r : Int}
    (hR : Represents w (.intobj r) b) (hb : b ≠ 0) (hlarge : isIntobj opL = false)
    : Returns w (remInt P opL (.intobj r)) (a.tmod b) := by
  obtain ⟨hsmall, hr⟩ := hR.of_intobj
  unfold remInt
  rw [requireNonzero_of_ne hR hb, ok_bind, ← hL.2]
  cases opL with
  | intobj l => contradiction
  | intpos l =>
    apply returns_pure
    rw [hr, INT_INTOBJ_eq]
    apply (represents_smallRemainder P hL.1.1.areLimbs hb hsmall).1
  | intneg l =>
    apply returns_pure
    rw [hr, INT_INTOBJ_eq]
    apply (represents_smallRemainder P hL.1.1.areLimbs hb hsmall).2

theorem represents_remInt_large_intpos {r : List Nat} (hL : Represents w (.intpos l) a)
    (hr : Limbs.IsNormal w.limbBase r) (hpos : 0 < r.length)
    : Represents w (remInt.large P (.intpos l) l r .intpos) (a.tmod (w.ofLimbs r)) := by
  have hval : a = w.ofLimbs l := hL.2.symm
  have := represents_remInt_large P (hasSign_intpos w) hL.1.1 hr hpos (by rwa [one_mul, ← hval])
  rwa [one_mul, Int.ofNat_tmod, ← hval] at this

theorem represents_remInt_large_intneg {r : List Nat} (hL : Represents w (.intneg l) a)
    (hr : Limbs.IsNormal w.limbBase r) (hpos : 0 < r.length)
    : Represents w (remInt.large P (.intneg l) l r .intneg) (a.tmod (w.ofLimbs r)) := by
  have hval : a = -w.ofLimbs l := hL.2.symm
  have := represents_remInt_large P (hasSign_intneg w) hL.1.1 hr hpos
    (by rwa [neg_one_mul, ← hval])
  rwa [neg_one_mul, Int.ofNat_tmod, ← Int.neg_tmod, ← hval] at this

variable (hL : Represents w opL a) (hR : Represents w opR b) (hb : b ≠ 0)

include hL hR hb

theorem returns_remInt_large (hlargeL : isIntobj opL = false) (hlargeR : isIntobj opR = false)
    : Returns w (remInt P opL opR) (a.tmod b) := by
  unfold remInt
  rw [requireNonzero_of_ne hR hb, ok_bind]
  cases opR with
  | intobj r => contradiction
  | intpos r =>
    have hpos := IsCanonical.length_pos (Or.inl hR.1)
    rw [← hR.2]
    cases opL with
    | intobj l => contradiction
    | intpos l => apply returns_pure (represents_remInt_large_intpos P hL hR.1.1 hpos)
    | intneg l => apply returns_pure (represents_remInt_large_intneg P hL hR.1.1 hpos)
  | intneg r =>
    have hpos := IsCanonical.length_pos (Or.inr hR.1)
    rw [← hR.2]
    simp only [val]
    rw [Int.tmod_neg]
    cases opL with
    | intobj l => contradiction
    | intpos l => apply returns_pure (represents_remInt_large_intpos P hL hR.1.1 hpos)
    | intneg l => apply returns_pure (represents_remInt_large_intneg P hL hR.1.1 hpos)

theorem returns_remInt
    : Returns w (remInt P opL opR) (a.tmod b) := by
  rcases operands_cases opL opR with ⟨l, r, rfl, rfl⟩ | ⟨hl, hr⟩ | ⟨hl, r, rfl⟩ | ⟨hl, hr⟩
  . apply returns_remInt_intobjs P hL hR hb
  . apply returns_remInt_intobj P hL hR hb hl hr
  . apply returns_remInt_small P hL hR hb hl
  . apply returns_remInt_large P hL hR hb hl hr

end Rem

section Mod

theorem represents_makePositive {mod : IntegerObj} {t : Int} (hmod : Represents w mod t)
    (hR : Represents w opR b) (hlarge : isIntobj opR = false)
    : Represents w (modInt.makePositive P mod opR) (t + |b|) := by
  unfold modInt.makePositive
  cases opR with
  | intobj r => contradiction
  | intpos r =>
    have := hR.lt_of_intpos
    rw [abs_of_nonneg (by omega)]
    have := represents_sumOrDiffInt P hmod hR (Or.inl rfl)
    rwa [one_mul] at this
  | intneg r =>
    have := hR.lt_of_intneg
    rw [abs_of_neg (by omega)]
    have := represents_sumOrDiffInt P hmod hR (Or.inr rfl)
    rwa [neg_one_mul] at this

theorem isNegInt_iff {op : IntegerObj} {x : Int} (h : Represents w op x)
    : modInt.isNegInt op = true ↔ x < 0 := by
  unfold modInt.isNegInt
  cases op with
  | intobj o =>
    obtain ⟨_, ho⟩ := h.of_intobj
    rw [decide_eq_true_eq]
    omega
  | intpos limbs =>
    have := h.lt_of_intpos
    simp only [Bool.false_eq_true, false_iff]
    omega
  | intneg limbs =>
    have := h.lt_of_intneg
    simp only [true_iff]
    omega

theorem represents_residue {rem : IntegerObj} (hrem : Represents w rem (a.tmod b))
    (hR : Represents w opR b) (hlarge : isIntobj opR = false)
    : Represents w (if modInt.isNegInt rem = true then modInt.makePositive P rem opR else rem)
        (a % b) := by
  rw [emod_eq_of_tmod]
  simp only [isNegInt_iff hrem]
  split
  . apply represents_makePositive P hrem hR hlarge
  . exact hrem

theorem returns_modInt_intobj (hL : Represents w opL a) (hR : Represents w opR b) (hb : b ≠ 0)
    (hsmall : isIntobj opL = true) (hlarge : isIntobj opR = false)
    : Returns w (modInt P opL opR) (a % b) := by
  have hlt := small_lt_large hL hR hsmall hlarge
  cases opL with
  | intobj l =>
    obtain ⟨_, hl⟩ := hL.of_intobj
    have hmod : Returns w (if .intobj l = INTOBJ_MIN w ∧ isMinusIntobjMin w opR = true then
          pure (INTOBJ_INT w 0)
        else if 0 ≤ INT_INTOBJ l then pure (.intobj l)
        else pure (modInt.makePositive P (.intobj l) opR)) (a % b) := by
      simp only [hL.eq_INTOBJ_MIN_iff, hR.isMinusIntobjMin_iff]
      rw [emod_eq_of_tmod, hl, INT_INTOBJ_eq]
      split
      . next h =>
        rw [h.1, h.2, Int.neg_tmod_self, if_neg (by omega)]
        apply returns_pure
        apply represents_INTOBJ_INT (isSmall_zero w)
      . next h =>
        rw [tmod_eq_self (hlt.resolve_right h), ← hl]
        split
        . rw [if_neg (by omega)]
          apply returns_pure hL
        . rw [if_pos (by omega)]
          apply returns_pure
          apply represents_makePositive P hL hR hlarge
    unfold modInt
    rw [requireNonzero_of_ne hR hb, ok_bind]
    cases opR with
    | intobj r => contradiction
    | intpos r => exact hmod
    | intneg r => exact hmod
  | intpos l => contradiction
  | intneg l => contradiction

theorem returns_modInt_intobjs {l r : Int} (hL : Represents w (.intobj l) a)
    (hR : Represents w (.intobj r) b) (hb : b ≠ 0)
    : Returns w (modInt P (.intobj l) (.intobj r)) (a % b) := by
  obtain ⟨_, hl⟩ := hL.of_intobj
  obtain ⟨hsmall, hr⟩ := hR.of_intobj
  have habs : (if b > 0 then b else -b) = |b| := by
    split
    . rw [abs_of_nonneg (by omega)]
    . rw [abs_of_nonpos (by omega)]
  unfold modInt
  rw [requireNonzero_of_ne hR hb, ok_bind]
  apply returns_pure
  rw [hl, hr, INT_INTOBJ_eq, INT_INTOBJ_eq, habs, ← emod_eq_of_tmod]
  apply represents_INTOBJ_INT
  apply isSmall_of_natAbs_lt hsmall (emod_natAbs_lt hb).2

theorem returns_modInt_small (hL : Represents w opL a) {r : Int}
    (hR : Represents w (.intobj r) b) (hb : b ≠ 0) (hlarge : isIntobj opL = false)
    : Returns w (modInt P opL (.intobj r)) (a % b) := by
  obtain ⟨hsmall, hr⟩ := hR.of_intobj
  have hresidue := represents_INTOBJ_INT (isSmall_of_natAbs_lt hsmall (emod_natAbs_lt (a := a) hb).2)
  unfold modInt
  rw [requireNonzero_of_ne hR hb, ok_bind]
  cases opL with
  | intobj l => contradiction
  | intpos l =>
    have hc : a.tmod b = smallRemainder P l b := by
      rw [smallRemainder_eq_tmod P hL.1.1.areLimbs hb hsmall, ← hL.2]
      rfl
    rw [emod_eq_of_tmod, hc, if_neg (by omega)] at hresidue ⊢
    apply returns_pure
    rw [hr, INT_INTOBJ_eq]
    exact hresidue
  | intneg l =>
    have hc : a.tmod b = -(smallRemainder P l b : Int) := by
      rw [smallRemainder_eq_tmod P hL.1.1.areLimbs hb hsmall, ← hL.2, ← Int.neg_tmod]
      rfl
    rw [emod_eq_of_tmod, hc] at hresidue ⊢
    simp only [hr, INT_INTOBJ_eq]
    split
    . next hzero =>
      rw [hzero] at hresidue ⊢
      apply returns_pure hresidue
    . next hne =>
      rw [if_pos (by omega), Int.abs_eq_natAbs, neg_add_eq_sub] at hresidue ⊢
      apply returns_pure hresidue

-- When the dividend has fewer limbs, its sign decides whether it is the residue.
theorem large_eq_residue {l r : List Nat} {mk : List Nat → IntegerObj}
    (hlarge : isIntobj opL = false)
    : modInt.large P opL opR l r mk
        = pure (if modInt.isNegInt (remInt.large P opL l r mk) = true then
            modInt.makePositive P (remInt.large P opL l r mk) opR
          else remInt.large P opL l r mk) := by
  unfold modInt.large remInt.large
  split
  . cases opL with
    | intobj l => contradiction
    | intpos l => rfl
    | intneg l => rfl
  . dsimp only
    split
    . rfl
    . rfl

variable (hL : Represents w opL a) (hR : Represents w opR b) (hb : b ≠ 0)

include hL hR hb

theorem returns_modInt_large (hlargeL : isIntobj opL = false) (hlargeR : isIntobj opR = false)
    : Returns w (modInt P opL opR) (a % b) := by
  have hrem {l r : List Nat} {mk : List Nat → IntegerObj}
      (h : Represents w (remInt.large P opL l r mk) (a.tmod b)) :=
    represents_residue P h hR hlargeR
  unfold modInt
  rw [requireNonzero_of_ne hR hb, ok_bind]
  cases opR with
  | intobj r => contradiction
  | intpos r =>
    have hpos := IsCanonical.length_pos (Or.inl hR.1)
    have hval : b = w.ofLimbs r := hR.2.symm
    cases opL with
    | intobj l => contradiction
    | intpos l =>
      simp only [large_eq_residue P hlargeL]
      apply returns_pure
      apply hrem
      rw [hval]
      apply represents_remInt_large_intpos P hL hR.1.1 hpos
    | intneg l =>
      simp only [large_eq_residue P hlargeL]
      apply returns_pure
      apply hrem
      rw [hval]
      apply represents_remInt_large_intneg P hL hR.1.1 hpos
  | intneg r =>
    have hpos := IsCanonical.length_pos (Or.inr hR.1)
    have hval : b = -w.ofLimbs r := hR.2.symm
    cases opL with
    | intobj l => contradiction
    | intpos l =>
      simp only [large_eq_residue P hlargeL]
      apply returns_pure
      apply hrem
      rw [hval, Int.tmod_neg]
      apply represents_remInt_large_intpos P hL hR.1.1 hpos
    | intneg l =>
      simp only [large_eq_residue P hlargeL]
      apply returns_pure
      apply hrem
      rw [hval, Int.tmod_neg]
      apply represents_remInt_large_intneg P hL hR.1.1 hpos

theorem returns_modInt
    : Returns w (modInt P opL opR) (a % b) := by
  rcases operands_cases opL opR with ⟨l, r, rfl, rfl⟩ | ⟨hl, hr⟩ | ⟨hl, r, rfl⟩ | ⟨hl, hr⟩
  . apply returns_modInt_intobjs P hL hR hb
  . apply returns_modInt_intobj P hL hR hb hl hr
  . apply returns_modInt_small P hL hR hb hl
  . apply returns_modInt_large P hL hR hb hl hr

end Mod

end Integer

namespace Integer

variable {w : IntSize} (P : Platform w) {op opL opR : IntegerObj} {a b : Int}

theorem size_fakeMpzOfObj_ne (h : Represents w op a) (ha : a ≠ 0) : (fakeMpzOfObj op).size ≠ 0 := by
  intro hzero
  have hval := val_fakeMpzOfObj h.1
  rw [h.2, Mpz.val, hzero, Int.sign_zero, zero_mul] at hval
  omega

theorem absOfSmallInt_eq (h : Represents w op a) (hsize : sizeInt op = 1)
    : absOfSmallInt op = a.natAbs := by
  rw [← h.2]
  cases op with
  | intobj o => rfl
  | intpos limbs =>
    simp only [absOfSmallInt, val]
    rw [Int.natAbs_natCast, ← Limbs.ofDigits_of_length_one (B := w.limbBase) hsize]
    rfl
  | intneg limbs =>
    simp only [absOfSmallInt, val]
    rw [Int.natAbs_neg, Int.natAbs_natCast, ← Limbs.ofDigits_of_length_one (B := w.limbBase) hsize]
    rfl

section

variable (hL : Represents w opL a) (hR : Represents w opR b)

include hL hR

theorem represents_gcd_small (hsize : sizeInt opR = 1) (hb : b ≠ 0)
    : Represents w (objIntUInt w (P.mpzGcdUi (fakeMpzOfObj opL) (absOfSmallInt opR)))
        (Int.gcd a b) := by
  have hlt := hR.natAbs_lt
  rw [hsize, pow_one] at hlt
  rw [absOfSmallInt_eq hR hsize,
    P.mpzGcdUi_eq _ _ (isMpz_fakeMpzOfObj hL.1) (by omega) hlt, val_fakeMpzOfObj hL.1, hL.2]
  apply represents_objIntUInt
  have := gcd_le_right a.natAbs (show 0 < b.natAbs by omega)
  omega

theorem represents_gcd_large (ha : a ≠ 0) (hb : b ≠ 0)
    : let alloc := if sizeInt opL < sizeInt opR then sizeInt opL else sizeInt opR
      Represents w
        (objOfFakeMpz w alloc (P.mpzGcd alloc (fakeMpzOfObj opL) (fakeMpzOfObj opR)))
        (Int.gcd a b) := by
  intro alloc
  have hleft := gcd_le_left b.natAbs (show 0 < a.natAbs by omega)
  have hright := gcd_le_right a.natAbs (show 0 < b.natAbs by omega)
  have hltL := hL.natAbs_lt
  have hltR := hR.natAbs_lt
  have halloc : min (sizeInt opL) (sizeInt opR) ≤ alloc := by
    unfold alloc
    split
    . omega
    . omega
  rw [P.mpzGcd_eq _ _ _ (isMpz_fakeMpzOfObj hL.1) (isMpz_fakeMpzOfObj hR.1)
    (size_fakeMpzOfObj_ne hL ha) (size_fakeMpzOfObj_ne hR hb)
    (by rwa [length_fakeMpzOfObj, length_fakeMpzOfObj]),
    val_fakeMpzOfObj hL.1, val_fakeMpzOfObj hR.1, hL.2, hR.2]
  apply represents_objOfFakeMpz
  . have := hL.1.sizeInt_pos
    have := hR.1.sizeInt_pos
    omega
  . rw [Int.natAbs_natCast, Int.gcd]
    unfold alloc
    split
    . omega
    . omega

theorem represents_gcdInt
    : Represents w (gcdInt P opL opR) (Int.gcd a b) := by
  unfold gcdInt
  simp only [hL.eq_zero_iff, hR.eq_zero_iff]
  split
  . next ha =>
    rw [ha, Int.gcd_zero_left, ← Int.abs_eq_natAbs]
    apply represents_absInt hR
  . next ha =>
    split
    . next hb =>
      rw [hb, Int.gcd_zero_right, ← Int.abs_eq_natAbs]
      apply represents_absInt hL
    . next hb =>
      split
      . next hsize =>
        split
        . next hswap =>
          rw [Int.gcd_comm]
          apply represents_gcd_small P hR hL (by omega) ha
        . next hswap => apply represents_gcd_small P hL hR (by omega) hb
      . apply represents_gcd_large P hL hR ha hb

end

-- The value that is computed when one of the operands is an immediate integer.
theorem abs_mul_tdiv_gcd (a b : Int) : |a * b.tdiv (Int.gcd a b)| = Int.lcm a b := by
  rw [Int.abs_eq_natAbs, Int.natAbs_mul, Int.natAbs_tdiv, Int.natAbs_natCast]
  congr 1
  unfold Int.lcm
  apply (Nat.mul_div_assoc a.natAbs (Nat.gcd_dvd_right a.natAbs b.natAbs)).symm

theorem returns_lcm_small (hL : Represents w opL a) (hR : Represents w opR b) (hb : b ≠ 0)
    : Returns w (do
        let opR ← quoInt P opR (gcdInt P opL opR)
        pure (absInt w (prodInt P opL opR))) (Int.lcm a b) := by
  have hgcd := represents_gcdInt P hL hR
  obtain ⟨quo, hquo, hrep⟩ := returns_quoInt P hR hgcd (by
    intro hzero
    rw [Int.natCast_eq_zero, Int.gcd_eq_zero_iff] at hzero
    exact hb hzero.2)
  rw [hquo, ok_bind, ← abs_mul_tdiv_gcd]
  apply returns_pure
  apply represents_absInt
  apply represents_prodInt P hL hrep

theorem returns_lcmInt (hL : Represents w opL a) (hR : Represents w opR b)
    : Returns w (lcmInt P opL opR) (Int.lcm a b) := by
  unfold lcmInt
  simp only [hL.eq_zero_iff, hR.eq_zero_iff]
  split
  . next hzero =>
    have : Int.lcm a b = 0 := by
      rw [Int.lcm_eq_zero_iff]
      exact hzero
    rw [this]
    apply returns_pure
    apply represents_INTOBJ_INT (isSmall_zero w)
  . next hzero =>
    rw [not_or] at hzero
    split
    . split
      . rw [Int.lcm_comm]
        apply returns_lcm_small P hR hL hzero.1
      . apply returns_lcm_small P hL hR hzero.2
    . apply returns_pure
      rw [P.mpzLcm_eq _ _ _ (isMpz_fakeMpzOfObj hL.1) (isMpz_fakeMpzOfObj hR.1)
        (by rw [length_fakeMpzOfObj, length_fakeMpzOfObj]),
        val_fakeMpzOfObj hL.1, val_fakeMpzOfObj hR.1, hL.2, hR.2]
      apply represents_objOfFakeMpz
      . have := hL.1.sizeInt_pos
        omega
      . rw [Int.natAbs_natCast, Int.lcm, pow_add]
        calc a.natAbs.lcm b.natAbs ≤ a.natAbs * b.natAbs := Nat.div_le_self _ _
          _ < _ := Nat.mul_lt_mul'' hL.natAbs_lt hR.natAbs_lt

variable {w : IntSize}

structure IsDivision (w : IntSize) (opL opR quo rem mod : IntegerObj) : Prop where
  quo_mul_add_rem : val w opL = val w quo * val w opR + val w rem
  rem_nonneg : 0 ≤ val w opL → 0 ≤ val w rem
  rem_nonpos : val w opL ≤ 0 → val w rem ≤ 0
  rem_lt : |val w rem| < |val w opR|
  mod_nonneg : 0 ≤ val w mod
  mod_lt : val w mod < |val w opR|
  dvd_sub_mod : val w opR ∣ val w opL - val w mod

def nonzeroFault : Fault :=
  .argument "Integer operations" "<divisor>" "must be a nonzero integer"

structure IsExact (P : Platform w) (opL opR : IntegerObj) : Prop where
  sum : Represents w (sumInt P opL opR) (val w opL + val w opR)
  diff : Represents w (diffInt P opL opR) (val w opL - val w opR)
  prod : Represents w (prodInt P opL opR) (val w opL * val w opR)
  aInv : Represents w (aInvInt w opL) (-val w opL)
  abs : Represents w (absInt w opL) |val w opL|
  gcd : Represents w (gcdInt P opL opR) (Int.gcd (val w opL) (val w opR))
  lcm : Returns w (lcmInt P opL opR) (Int.lcm (val w opL) (val w opR))
  quo : val w opR ≠ 0 → Returns w (quoInt P opL opR) ((val w opL).tdiv (val w opR))
  rem : val w opR ≠ 0 → Returns w (remInt P opL opR) ((val w opL).tmod (val w opR))
  mod : val w opR ≠ 0 → Returns w (modInt P opL opR) (val w opL % val w opR)
  division : val w opR ≠ 0 → ∃ quo rem mod, quoInt P opL opR = .ok quo
    ∧ remInt P opL opR = .ok rem ∧ modInt P opL opR = .ok mod
    ∧ IsDivision w opL opR quo rem mod
  byZero : val w opR = 0 → quoInt P opL opR = .error nonzeroFault
    ∧ remInt P opL opR = .error nonzeroFault ∧ modInt P opL opR = .error nonzeroFault
  eq : eqInt P opL opR = true ↔ val w opL = val w opR
  lt : ltInt P opL opR = true ↔ val w opL < val w opR

theorem isDivision_of_represents {opL opR quo rem mod : IntegerObj} (hne : val w opR ≠ 0)
    (hquo : Represents w quo ((val w opL).tdiv (val w opR)))
    (hrem : Represents w rem ((val w opL).tmod (val w opR)))
    (hmod : Represents w mod (val w opL % val w opR))
    : IsDivision w opL opR quo rem mod := by
  constructor
  . rw [hquo.2, hrem.2, mul_comm]
    apply (Int.mul_tdiv_add_tmod _ _).symm
  . intro h
    rw [hrem.2]
    apply Int.tmod_nonneg _ h
  . intro h
    rw [hrem.2]
    apply tmod_nonpos h
  . have := natAbs_tmod_lt (a := val w opL) hne
    rw [hrem.2, Int.abs_eq_natAbs, Int.abs_eq_natAbs]
    omega
  . rw [hmod.2]
    apply Int.emod_nonneg _ hne
  . rw [hmod.2]
    apply Int.emod_lt_abs _ hne
  . rw [hmod.2]
    apply Int.dvd_self_sub_emod

theorem requireNonzero_of_eq {op : IntegerObj} (h : Represents w op 0)
    : requireNonzero w op = .error nonzeroFault := by
  unfold requireNonzero
  rw [if_pos]
  . rfl
  . rw [h.eq_zero_iff]

theorem error_bind {α β : Type} (e : Fault) (f : α → Result β)
    : ((Except.error e : Result α) >>= f) = .error e :=
  rfl

theorem isExact_of_isCanonical (P : Platform w) {opL opR : IntegerObj} (hL : IsCanonical w opL)
    (hR : IsCanonical w opR)
    : IsExact P opL opR := by
  have hL : Represents w opL (val w opL) := ⟨hL, rfl⟩
  have hR : Represents w opR (val w opR) := ⟨hR, rfl⟩
  constructor
  case sum => apply represents_sumInt P hL hR
  case diff => apply represents_diffInt P hL hR
  case prod => apply represents_prodInt P hL hR
  case aInv => apply represents_aInvInt hL
  case abs => apply represents_absInt hL
  case gcd => apply represents_gcdInt P hL hR
  case lcm => apply returns_lcmInt P hL hR
  case quo => apply returns_quoInt P hL hR
  case rem => apply returns_remInt P hL hR
  case mod => apply returns_modInt P hL hR
  case division =>
    intro hne
    obtain ⟨quo, hquo, hrepquo⟩ := returns_quoInt P hL hR hne
    obtain ⟨rem, hrem, hreprem⟩ := returns_remInt P hL hR hne
    obtain ⟨mod, hmod, hrepmod⟩ := returns_modInt P hL hR hne
    exact ⟨quo, rem, mod, hquo, hrem, hmod, isDivision_of_represents hne hrepquo hreprem hrepmod⟩
  case byZero =>
    intro hzero
    have hrequire := requireNonzero_of_eq (hzero ▸ hR)
    refine ⟨?_, ?_, ?_⟩
    . unfold quoInt
      rw [hrequire, error_bind]
    . unfold remInt
      rw [hrequire, error_bind]
    . unfold modInt
      rw [hrequire, error_bind]
  case eq => apply eqInt_iff P hL hR
  case lt => apply ltInt_iff P hL hR

def valueGmp (w : IntSize) : Gmp w where
  mpzAdd alloc a b := Mpz.ofInt w alloc (a.val w + b.val w)
  mpzSub alloc a b := Mpz.ofInt w alloc (a.val w - b.val w)
  mpzMul alloc a b := Mpz.ofInt w alloc (a.val w * b.val w)
  mpzGcd alloc a b := Mpz.ofInt w alloc (Int.gcd (a.val w) (b.val w))
  mpzLcm alloc a b := Mpz.ofInt w alloc (Int.lcm (a.val w) (b.val w))
  mpzGcdUi a d := Nat.gcd (a.val w).natAbs d
  mpnCmp a b := (w.ofLimbs a : Int) - w.ofLimbs b
  mpnMod1 a d := w.ofLimbs a % d
  mpnDivrem1 a d := Nat.digitsAppend w.limbBase a.length (w.ofLimbs a / d)
  mpnTdivQr a b :=
    (Nat.digitsAppend w.limbBase (a.length - b.length + 1) (w.ofLimbs a / w.ofLimbs b),
      Nat.digitsAppend w.limbBase b.length (w.ofLimbs a % w.ofLimbs b))
  mpzAdd_eq _ _ _ _ _ _ := rfl
  mpzSub_eq _ _ _ _ _ _ := rfl
  mpzMul_eq _ _ _ _ _ _ := rfl
  mpzGcd_eq _ _ _ _ _ _ _ _ := rfl
  mpzLcm_eq _ _ _ _ _ _ := rfl
  mpzGcdUi_eq _ _ _ _ _ := rfl
  mpnCmp_lt _ _ _ _ _ := by omega
  mpnCmp_eq _ _ _ _ _ := by omega
  mpnMod1_eq _ _ _ _ _ := rfl
  mpnDivrem1_eq _ _ _ _ _ := rfl
  mpnTdivQr_eq _ _ _ _ _ _ := rfl

theorem isExact_twoLimbs
    : IsExact { valueGmp .int8 with haveBuiltinMulOverflow := true } (.intpos [0, 5])
        (.intobj (4 * (-3) + 1)) := by
  apply isExact_of_isCanonical
  . refine ⟨⟨?_, ?_⟩, ?_⟩
    . unfold Limbs.AreLimbs
      decide
    . decide
    . decide
  . exact ⟨-3, by decide, rfl⟩

end Integer
