import GapKernel.Integer.Impl.Arith

open List Int

namespace Integer

variable {w : IntSize}

def val (w : IntSize) (op : IntegerObj) : Int :=
  match op with
  | .intobj o => INT_INTOBJ o
  | .intpos limbs => w.ofLimbs limbs
  | .intneg limbs => -w.ofLimbs limbs

/--
An immediate integer, or a bag without leading zeros whose value is not the value of an immediate
integer.
-/
def IsCanonical (w : IntSize) (op : IntegerObj) : Prop :=
  match op with
  | .intobj o => ∃ i, w.IsSmall i ∧ o = 4 * i + 1
  | .intpos limbs =>
    Limbs.IsNormal w.limbBase limbs ∧ w.intIntobjMax < w.ofLimbs limbs
  | .intneg limbs =>
    Limbs.IsNormal w.limbBase limbs ∧ w.minusIntobjMin < w.ofLimbs limbs

def Represents (w : IntSize) (op : IntegerObj) (x : Int) : Prop :=
  IsCanonical w op ∧ val w op = x

section Bounds

theorem minusIntobjMin_pos (w : IntSize) : 0 < w.minusIntobjMin :=
  Nat.two_pow_pos _

theorem limbBase_eq (w : IntSize) : w.limbBase = 16 * w.minusIntobjMin := by
  cases w <;> rfl

theorem one_lt_limbBase (w : IntSize) : 1 < w.limbBase := by
  have := minusIntobjMin_pos w
  have := limbBase_eq w
  omega

theorem intIntobjMax_eq (w : IntSize) : w.intIntobjMax = (w.minusIntobjMin : Int) - 1 := by
  cases w <;> rfl

theorem intIntobjMin_eq (w : IntSize) : w.intIntobjMin = -(w.minusIntobjMin : Int) := by
  cases w <;> rfl

theorem isSmall_iff_lt {x : Int}
    : w.IsSmall x ↔ -(w.minusIntobjMin : Int) ≤ x ∧ x < w.minusIntobjMin := by
  unfold IntSize.IsSmall
  rw [intIntobjMax_eq, intIntobjMin_eq]
  omega

theorem isInt_iff_lt {x : Int}
    : w.IsInt x ↔ -8 * (w.minusIntobjMin : Int) ≤ x ∧ x < 8 * (w.minusIntobjMin : Int) := by
  cases w <;> simp only [IntSize.IsInt, IntSize.bits, IntSize.minusIntobjMin, IntSize.nrSmallIntBits]
    <;> omega

end Bounds

section Intobj

@[simp]
theorem INT_INTOBJ_eq (i : Int) : INT_INTOBJ (4 * i + 1) = i := by
  unfold INT_INTOBJ
  rw [shiftRight_eq_div_pow]
  omega

variable {i : Int}

theorem INTOBJ_INT_eq (h : w.IsSmall i) : INTOBJ_INT w i = .intobj (4 * i + 1) := by
  unfold INTOBJ_INT
  rw [w.wrap_of_isInt]
  rw [isSmall_iff_lt] at h
  rw [isInt_iff_lt]
  have := minusIntobjMin_pos w
  omega

theorem represents_intobj (h : w.IsSmall i) : Represents w (.intobj (4 * i + 1)) i :=
  ⟨⟨i, h, rfl⟩, INT_INTOBJ_eq i⟩

theorem represents_INTOBJ_INT (h : w.IsSmall i) : Represents w (INTOBJ_INT w i) i := by
  rw [INTOBJ_INT_eq h]
  apply represents_intobj h

theorem isSmall_zero (w : IntSize) : w.IsSmall 0 := by
  have := minusIntobjMin_pos w
  rw [isSmall_iff_lt]
  omega

theorem isSmall_one (w : IntSize) : w.IsSmall 1 := by
  rw [isSmall_iff_lt]
  cases w <;> simp [IntSize.minusIntobjMin, IntSize.nrSmallIntBits, IntSize.bits]

theorem isSmall_minusOne (w : IntSize) : w.IsSmall (-1) := by
  have := minusIntobjMin_pos w
  rw [isSmall_iff_lt]
  omega

end Intobj

theorem ofLimbs_injective {l l' : List Nat} (h : Limbs.IsNormal w.limbBase l)
    (h' : Limbs.IsNormal w.limbBase l') (heq : w.ofLimbs l = w.ofLimbs l')
    : l = l' := by
  apply h.eq_of_ofDigits_eq (one_lt_limbBase w) h' heq

variable {op : IntegerObj}

theorem Represents.unique {op' : IntegerObj} {x : Int} (h : Represents w op x)
    (h' : Represents w op' x)
    : op = op' := by
  obtain ⟨hcanon, hval⟩ := h
  obtain ⟨hcanon', hval'⟩ := h'
  cases op with
  | intobj o =>
    obtain ⟨i, hi, rfl⟩ := hcanon
    simp only [val, INT_INTOBJ_eq] at hval
    rw [isSmall_iff_lt] at hi
    cases op' with
    | intobj o' =>
      obtain ⟨i', _, rfl⟩ := hcanon'
      simp only [val, INT_INTOBJ_eq] at hval'
      rw [hval, hval']
    | intpos l =>
      have := hcanon'.2
      simp only [val] at hval'
      rw [intIntobjMax_eq] at this
      omega
    | intneg l =>
      have := hcanon'.2
      simp only [val] at hval'
      omega
  | intpos l =>
    have hlarge := hcanon.2
    rw [intIntobjMax_eq] at hlarge
    simp only [val] at hval
    cases op' with
    | intobj o' =>
      obtain ⟨i', hi', rfl⟩ := hcanon'
      simp only [val, INT_INTOBJ_eq] at hval'
      rw [isSmall_iff_lt] at hi'
      omega
    | intpos l' =>
      simp only [val] at hval'
      rw [ofLimbs_injective hcanon.1 hcanon'.1 (by omega)]
    | intneg l' =>
      simp only [val] at hval'
      have := minusIntobjMin_pos w
      omega
  | intneg l =>
    have hlarge := hcanon.2
    simp only [val] at hval
    cases op' with
    | intobj o' =>
      obtain ⟨i', hi', rfl⟩ := hcanon'
      simp only [val, INT_INTOBJ_eq] at hval'
      rw [isSmall_iff_lt] at hi'
      omega
    | intpos l' =>
      simp only [val] at hval'
      omega
    | intneg l' =>
      simp only [val] at hval'
      rw [ofLimbs_injective hcanon.1 hcanon'.1 (by omega)]

theorem eq_INTOBJ_INT_iff (h : IsCanonical w op) {i : Int} (hi : w.IsSmall i)
    : op = INTOBJ_INT w i ↔ val w op = i := by
  constructor
  . intro heq
    rw [heq]
    apply (represents_INTOBJ_INT hi).2
  . intro heq
    apply Represents.unique ⟨h, heq⟩ (represents_INTOBJ_INT hi)

theorem eq_INTOBJ_MIN_iff (h : IsCanonical w op)
    : op = INTOBJ_MIN w ↔ val w op = -(w.minusIntobjMin : Int) := by
  rw [← intIntobjMin_eq]
  apply eq_INTOBJ_INT_iff h
  rw [isSmall_iff_lt, intIntobjMin_eq]
  have := minusIntobjMin_pos w
  omega

theorem represents_minusIntobjMin (w : IntSize)
    : Represents w (.intpos [w.minusIntobjMin]) w.minusIntobjMin := by
  have hpos := minusIntobjMin_pos w
  have hB := limbBase_eq w
  refine ⟨⟨⟨?_, ?_⟩, ?_⟩, ?_⟩
  . intro x hx
    rw [mem_singleton] at hx
    omega
  . intro _
    simp only [getLast_singleton]
    omega
  . rw [intIntobjMax_eq, IntSize.ofLimbs, Nat.ofDigits_singleton]
    omega
  . simp [val, IntSize.ofLimbs]

theorem isMinusIntobjMin_iff (h : IsCanonical w op)
    : isMinusIntobjMin w op = true ↔ val w op = w.minusIntobjMin := by
  constructor
  . intro heq
    unfold isMinusIntobjMin at heq
    split at heq
    . simp only [decide_eq_true_eq] at heq
      unfold val
      dsimp only
      rw [IntSize.ofLimbs, Limbs.ofDigits_of_length_one heq.1, heq.2]
    . contradiction
  . intro heq
    rw [Represents.unique ⟨h, heq⟩ (represents_minusIntobjMin w)]
    simp [isMinusIntobjMin]

section Normalize

theorem normalizedSize_spec (limbs : List Nat) (size : Nat) (hle : size ≤ limbs.length)
    (hpos : 0 < size)
    : let kept := limbs.take (normalizedSize limbs size)
      0 < kept.length ∧ w.ofLimbs kept = w.ofLimbs (limbs.take size)
        ∧ (kept.length = 1 ∨ ∀ h : kept ≠ [], kept.getLast h ≠ 0) := by
  induction size using normalizedSize.induct limbs with
  | case1 => omega
  | case2 =>
    rw [normalizedSize]
    refine ⟨?_, rfl, Or.inl ?_⟩
    . rw [length_take]
      omega
    . rw [length_take]
      omega
  | case3 size hne =>
    rw [normalizedSize, if_pos hne]
    refine ⟨?_, rfl, Or.inr ?_⟩
    . rw [length_take]
      omega
    . intro h
      have hlt : size + 1 < limbs.length := by omega
      rw [getLast_eq_getElem]
      simp only [length_take, getElem_take]
      rw [getD_eq_getElem _ _ hlt] at hne
      have : min (size + 2) limbs.length - 1 = size + 1 := by omega
      simpa only [this] using hne
  | case4 size hzero ih =>
    rw [normalizedSize, if_neg hzero]
    rw [not_not] at hzero
    obtain ⟨hlen, hval, hlast⟩ := ih (by omega) (by omega)
    refine ⟨hlen, ?_, hlast⟩
    have hlt : size + 1 < limbs.length := by omega
    rw [hval, take_succ_eq_append_getElem hlt]
    rw [getD_eq_getElem _ _ hlt] at hzero
    unfold IntSize.ofLimbs
    rw [hzero, Nat.ofDigits_append]
    simp

variable {limbs : List Nat}

variable (hlimbs : Limbs.AreLimbs w.limbBase limbs) (hpos : 0 < limbs.length)

include hlimbs hpos

theorem kept_spec
    : let kept := limbs.take (normalizedSize limbs limbs.length)
      w.ofLimbs kept = w.ofLimbs limbs
        ∧ ((kept.length = 1 ∧ kept.getD 0 0 = w.ofLimbs limbs)
          ∨ (kept.length ≠ 1 ∧ w.limbBase ≤ w.ofLimbs limbs))
        ∧ (w.ofLimbs limbs ≠ 0 → Limbs.IsNormal w.limbBase kept) := by
  obtain ⟨hlen, hval, hlast⟩ := normalizedSize_spec (w := w) limbs limbs.length (le_refl _) hpos
  rw [take_length] at hval
  have hkept : Limbs.AreLimbs w.limbBase (limbs.take (normalizedSize limbs limbs.length)) :=
    fun x hx => hlimbs x (mem_of_mem_take hx)
  generalize limbs.take (normalizedSize limbs limbs.length) = kept at *
  have hone : kept.length = 1 → kept.getD 0 0 = w.ofLimbs limbs := by
    intro h
    rw [← hval]
    apply (Limbs.ofDigits_of_length_one h).symm
  have hnormal : w.ofLimbs limbs ≠ 0 → Limbs.IsNormal w.limbBase kept := by
    intro hne
    refine ⟨hkept, ?_⟩
    cases hlast with
    | inl h =>
      intro hnil
      match kept with
      | [d] =>
        have := hone rfl
        simp only [getD_cons_zero] at this
        rw [getLast_singleton]
        omega
    | inr hlast => exact hlast
  refine ⟨hval, ?_, hnormal⟩
  by_cases h : kept.length = 1
  . left
    exact ⟨h, hone h⟩
  . right
    refine ⟨h, ?_⟩
    have hn : Limbs.IsNormal w.limbBase kept := ⟨hkept, hlast.resolve_left h⟩
    rw [← hval]
    have := hn.pow_le (one_lt_limbBase w) hlen
    calc w.limbBase = w.limbBase ^ 1 := (pow_one _).symm
      _ ≤ w.limbBase ^ (kept.length - 1) := by
        apply Nat.pow_le_pow_right
        . have := one_lt_limbBase w
          omega
        . omega
      _ ≤ w.ofLimbs kept := this

theorem gmpNormalize_intpos
    : Represents w (gmpNormalize w (.intpos limbs)) (w.ofLimbs limbs) := by
  obtain ⟨hval, hlen, hnormal⟩ := kept_spec hlimbs hpos
  have hB := limbBase_eq w
  have hM := minusIntobjMin_pos w
  unfold gmpNormalize
  dsimp only at hval hlen hnormal ⊢
  generalize limbs.take (normalizedSize limbs limbs.length) = kept at *
  split
  . next h =>
    have heq : kept.getD 0 0 = w.ofLimbs limbs := by omega
    rw [heq] at h ⊢
    apply represents_INTOBJ_INT
    rw [isSmall_iff_lt]
    rw [intIntobjMax_eq] at h
    omega
  . next h =>
    have hlarge : w.intIntobjMax < w.ofLimbs limbs := by
      rw [intIntobjMax_eq] at h ⊢
      omega
    refine ⟨⟨hnormal ?_, ?_⟩, ?_⟩
    . rw [intIntobjMax_eq] at hlarge
      omega
    . rw [hval]
      apply hlarge
    . simp only [val]
      rw [hval]

theorem gmpNormalize_intneg
    : Represents w (gmpNormalize w (.intneg limbs)) (-(w.ofLimbs limbs : Int)) := by
  obtain ⟨hval, hlen, hnormal⟩ := kept_spec hlimbs hpos
  have hB := limbBase_eq w
  have hM := minusIntobjMin_pos w
  unfold gmpNormalize
  dsimp only at hval hlen hnormal ⊢
  generalize limbs.take (normalizedSize limbs limbs.length) = kept at *
  split
  . next h =>
    have heq : kept.getD 0 0 = w.ofLimbs limbs := by omega
    rw [heq] at h ⊢
    apply represents_INTOBJ_INT
    rw [isSmall_iff_lt]
    rw [intIntobjMax_eq] at h
    omega
  . next h =>
    have hlarge : w.minusIntobjMin < w.ofLimbs limbs := by
      rw [intIntobjMax_eq] at h
      omega
    refine ⟨⟨hnormal (by omega), ?_⟩, ?_⟩
    . rw [hval]
      apply hlarge
    . simp only [val]
      rw [hval]

end Normalize

end Integer

namespace Integer

variable {w : IntSize}

theorem natAbs_lt_of_isSmall {i : Int} (h : w.IsSmall i) : i.natAbs < w.limbBase := by
  rw [isSmall_iff_lt] at h
  have := limbBase_eq w
  omega

theorem isNormal_singleton {d : Nat} (hpos : 0 < d) (hlt : d < w.limbBase)
    : Limbs.IsNormal w.limbBase [d] := by
  constructor
  . intro x hx
    rw [mem_singleton] at hx
    omega
  . intro _
    rw [getLast_singleton]
    omega

@[simp]
theorem ofLimbs_singleton (w : IntSize) (d : Nat) : w.ofLimbs [d] = d := by
  unfold IntSize.ofLimbs
  apply Nat.ofDigits_singleton

theorem ofLimbs_pos {l : List Nat} (h : Limbs.IsNormal w.limbBase l) (hl : 0 < l.length)
    : 0 < w.ofLimbs l :=
  h.ofDigits_pos (one_lt_limbBase w) hl

theorem IsCanonical.length_pos {limbs : List Nat}
    (h : IsCanonical w (.intpos limbs) ∨ IsCanonical w (.intneg limbs))
    : 0 < limbs.length := by
  apply Limbs.IsNormal.length_pos (B := w.limbBase)
  change 0 < w.ofLimbs limbs
  have := minusIntobjMin_pos w
  cases h with
  | inl h =>
    have hlt := h.2
    rw [intIntobjMax_eq] at hlt
    omega
  | inr h =>
    have hlt := h.2
    omega

theorem IsCanonical.sizeInt_pos {op : IntegerObj} (h : IsCanonical w op) : 0 < sizeInt op := by
  cases op with
  | intobj o => simp [sizeInt]
  | intpos limbs => apply IsCanonical.length_pos (Or.inl h)
  | intneg limbs => apply IsCanonical.length_pos (Or.inr h)

section FakeMpz

theorem length_fakeMpzOfObj (op : IntegerObj) : (fakeMpzOfObj op).limbs.length = sizeInt op := by
  unfold fakeMpzOfObj sizeInt
  cases op with
  | intobj o =>
    dsimp only
    split
    . rfl
    . rfl
  | intpos limbs => rfl
  | intneg limbs => rfl

theorem isMpz_fakeMpzOfObj {op : IntegerObj} (h : IsCanonical w op)
    : (fakeMpzOfObj op).IsMpz w := by
  cases op with
  | intobj o =>
    obtain ⟨i, hi, rfl⟩ := h
    have hlt := natAbs_lt_of_isSmall hi
    unfold fakeMpzOfObj
    dsimp only
    rw [INT_INTOBJ_eq]
    split
    . next hnonneg =>
      constructor
      . intro x hx
        rw [mem_singleton] at hx
        omega
      . intro hne
        split at hne
        . next hi0 =>
          rw [if_pos hi0]
          refine ⟨isNormal_singleton (by omega) (by omega), rfl⟩
        . contradiction
      . intro _
        rfl
    . next hneg =>
      have hnormal := isNormal_singleton (w := w) (d := (-i).toNat) (by omega) (by omega)
      exact ⟨hnormal.areLimbs, fun _ => ⟨hnormal, rfl⟩, fun hzero => by contradiction⟩
  | intpos limbs =>
    have hlen := IsCanonical.length_pos (Or.inl h)
    refine ⟨h.1.areLimbs, fun _ => ⟨h.1, rfl⟩, ?_⟩
    intro hzero
    simp only [fakeMpzOfObj] at hzero
    omega
  | intneg limbs =>
    have hlen := IsCanonical.length_pos (Or.inr h)
    refine ⟨h.1.areLimbs, fun _ => ⟨h.1, by simp [fakeMpzOfObj]⟩, ?_⟩
    intro hzero
    simp only [fakeMpzOfObj] at hzero
    omega

theorem val_fakeMpzOfObj {op : IntegerObj} (h : IsCanonical w op)
    : (fakeMpzOfObj op).val w = val w op := by
  cases op with
  | intobj o =>
    unfold fakeMpzOfObj Mpz.val val
    dsimp only
    generalize INT_INTOBJ o = i
    split
    . next hnonneg =>
      rw [ofLimbs_singleton]
      split
      . rw [Int.sign_one]
        omega
      . rw [Int.sign_zero]
        omega
    . dsimp only
      rw [ofLimbs_singleton, Int.sign_neg, Int.sign_one]
      omega
  | intpos limbs =>
    have hlen := IsCanonical.length_pos (Or.inl h)
    unfold fakeMpzOfObj Mpz.val val
    dsimp only
    rw [sign_eq_one_of_pos (by omega), one_mul]
  | intneg limbs =>
    have hlen := IsCanonical.length_pos (Or.inr h)
    unfold fakeMpzOfObj Mpz.val val
    rw [Int.sign_neg, sign_eq_one_of_pos (by omega), neg_one_mul]

end FakeMpz

section ObjOfFakeMpz

theorem represents_objIntUInt {i : Nat} (h : i < w.limbBase) : Represents w (objIntUInt w i) i := by
  have hM := minusIntobjMin_pos w
  unfold objIntUInt
  split
  . next hle =>
    apply represents_INTOBJ_INT
    rw [isSmall_iff_lt]
    rw [intIntobjMax_eq] at hle
    omega
  . next hgt =>
    have hpos : 0 < i := by
      rw [intIntobjMax_eq] at hgt
      omega
    refine ⟨⟨isNormal_singleton hpos h, ?_⟩, ?_⟩
    . rw [ofLimbs_singleton]
      omega
    . simp only [val]
      rw [ofLimbs_singleton]

theorem represents_objIntUIntInv {i : Nat} (h : i < w.limbBase)
    : Represents w (objIntUIntInv w i) (-i) := by
  have hM := minusIntobjMin_pos w
  unfold objIntUIntInv
  split
  . next hle =>
    apply represents_INTOBJ_INT
    rw [isSmall_iff_lt]
    omega
  . next hgt =>
    refine ⟨⟨isNormal_singleton (by omega) h, ?_⟩, ?_⟩
    . rw [ofLimbs_singleton]
      omega
    . simp only [val]
      rw [ofLimbs_singleton]

theorem areLimbs_digitsAppend (w : IntSize) (n x : Nat)
    : Limbs.AreLimbs w.limbBase (Nat.digitsAppend w.limbBase n x) :=
  fun x hx => Nat.lt_of_mem_digitsAppend (one_lt_limbBase w) n x hx

theorem ofLimbs_digitsAppend (w : IntSize) (n x : Nat)
    : w.ofLimbs (Nat.digitsAppend w.limbBase n x) = x :=
  Limbs.ofDigits_digitsAppend w.limbBase n x

variable {n : Nat}

variable {x : Nat}

theorem length_digitsAppend (h : x < w.limbBase ^ n)
    : (Nat.digitsAppend w.limbBase n x).length = n :=
  Nat.length_digitsAppend (one_lt_limbBase w) n h

theorem represents_intpos_digitsAppend (hn : 0 < n) (hlt : x < w.limbBase ^ n)
    : Represents w (gmpNormalize w (.intpos (Nat.digitsAppend w.limbBase n x))) x := by
  have hlen := length_digitsAppend hlt
  have := gmpNormalize_intpos (areLimbs_digitsAppend w n x) (by omega)
  rwa [ofLimbs_digitsAppend] at this

theorem represents_intneg_digitsAppend (hn : 0 < n) (hlt : x < w.limbBase ^ n)
    : Represents w (gmpNormalize w (.intneg (Nat.digitsAppend w.limbBase n x))) (-x) := by
  have hlen := length_digitsAppend hlt
  have := gmpNormalize_intneg (areLimbs_digitsAppend w n x) (by omega)
  rwa [ofLimbs_digitsAppend] at this

variable {x : Int}

theorem size_ofInt_pos (alloc : Nat) (hpos : 0 < x)
    : (Mpz.ofInt w alloc x).size = (w.limbBase.digits x.natAbs).length := by
  unfold Mpz.ofInt
  rw [sign_eq_one_of_pos hpos, one_mul]

theorem size_ofInt_neg (alloc : Nat) (hneg : x < 0)
    : (Mpz.ofInt w alloc x).size = -((w.limbBase.digits x.natAbs).length : Int) := by
  unfold Mpz.ofInt
  rw [sign_eq_neg_one_of_neg hneg, neg_one_mul]

theorem digits_length_pos (hne : x ≠ 0) : 0 < (w.limbBase.digits x.natAbs).length := by
  rw [length_pos_iff, Nat.digits_ne_nil_iff_ne_zero]
  omega

theorem digits_length_eq_one (hne : x ≠ 0) (hlt : x.natAbs < w.limbBase ^ 1)
    : (w.limbBase.digits x.natAbs).length = 1 := by
  have hpos := digits_length_pos (w := w) hne
  rw [← Nat.digits_length_le_iff (one_lt_limbBase w)] at hlt
  omega

theorem getD_digitsAppend_one {x : Nat} (hlt : x < w.limbBase ^ 1)
    : (Nat.digitsAppend w.limbBase 1 x).getD 0 0 = x := by
  rw [← Limbs.ofDigits_of_length_one (B := w.limbBase) (length_digitsAppend hlt)]
  apply ofLimbs_digitsAppend

variable {alloc : Nat}

variable (halloc : 0 < alloc) (hlt : x.natAbs < w.limbBase ^ alloc)

include halloc hlt

theorem represents_objOfFakeMpz_pos (hpos : 0 < x)
    : Represents w (objOfFakeMpz w alloc (Mpz.ofInt w alloc x)) x := by
  have hdigits := digits_length_pos (w := w) (x := x) (by omega)
  have hsize := size_ofInt_pos (w := w) alloc hpos
  have hval : (x.natAbs : Int) = x := by omega
  unfold objOfFakeMpz
  rw [if_neg (by omega)]
  split
  . rw [if_neg (by omega)]
    have := represents_intpos_digitsAppend halloc hlt
    rwa [hval] at this
  . next hone =>
    rw [not_not] at hone
    subst hone
    have hlen := digits_length_eq_one (by omega) hlt
    rw [if_pos (by omega)]
    simp only [Mpz.ofInt]
    rw [getD_digitsAppend_one hlt]
    have := represents_objIntUInt (w := w) (i := x.natAbs) (by simpa using hlt)
    rwa [hval] at this

theorem represents_objOfFakeMpz_neg (hneg : x < 0)
    : Represents w (objOfFakeMpz w alloc (Mpz.ofInt w alloc x)) x := by
  have hdigits := digits_length_pos (w := w) (x := x) (by omega)
  have hsize := size_ofInt_neg (w := w) alloc hneg
  have hval : -(x.natAbs : Int) = x := by omega
  unfold objOfFakeMpz
  rw [if_neg (by omega)]
  split
  . rw [if_pos (by omega)]
    have := represents_intneg_digitsAppend halloc hlt
    rwa [hval] at this
  . next hone =>
    rw [not_not] at hone
    subst hone
    have hlen := digits_length_eq_one (by omega) hlt
    rw [if_neg (by omega)]
    simp only [Mpz.ofInt]
    rw [getD_digitsAppend_one hlt]
    have := represents_objIntUIntInv (w := w) (i := x.natAbs) (by simpa using hlt)
    rwa [hval] at this

theorem represents_objOfFakeMpz
    : Represents w (objOfFakeMpz w alloc (Mpz.ofInt w alloc x)) x := by
  rcases lt_trichotomy x 0 with hneg | hzero | hpos
  . apply represents_objOfFakeMpz_neg halloc hlt hneg
  . subst hzero
    have hsize : (Mpz.ofInt w alloc 0).size = 0 := by simp [Mpz.ofInt]
    unfold objOfFakeMpz
    rw [if_pos hsize]
    apply represents_INTOBJ_INT (isSmall_zero w)
  . apply represents_objOfFakeMpz_pos halloc hlt hpos

end ObjOfFakeMpz

end Integer
