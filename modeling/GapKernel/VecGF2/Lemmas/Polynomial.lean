import GapKernel.VecGF2.Lemmas.Coeffs
import Mathlib.Algebra.Polynomial.Degree.Operations
import Mathlib.Tactic.LinearCombination

open BitBlocks Polynomial List Nat Int

namespace GF2Impl

variable {w : Nat}

noncomputable def coeffs (blocks : List (BitVec w)) (n : Nat) : (ZMod 2)[X] :=
  ∑ j ∈ Finset.range n, monomial j (bitZ blocks j)

section Coeffs

variable {blocks blocks1 blocks' blocks2 : List (BitVec w)} {off lo n m j : Nat}

theorem coeff_coeffs : (coeffs blocks n).coeff j = if j < n then bitZ blocks j else 0 := by
  unfold coeffs
  rw [finsetSum_coeff]
  simp [coeff_monomial]

theorem coeffs_congr (h : ∀ j, j < n → bitAt blocks1 j = bitAt blocks2 j)
    : coeffs blocks1 n = coeffs blocks2 n := by
  ext j
  rw [coeff_coeffs, coeff_coeffs]
  split
  . next hj =>
    unfold bitZ
    rw [h j hj]
  . rfl

theorem coeffs_of_zero (hle : n ≤ m) (h : ∀ j, n ≤ j → j < m → bitAt blocks j = false)
    : coeffs blocks m = coeffs blocks n := by
  ext j
  rw [coeff_coeffs, coeff_coeffs]
  by_cases hn : j < n
  . rw [if_pos hn, if_pos (by omega)]
  . rw [if_neg hn]
    split
    . next hm =>
      unfold bitZ
      rw [h j (by omega) hm, zbit_false]
    . rfl

theorem coeffs_zero (blocks : List (BitVec w)) : coeffs blocks 0 = 0 := by
  unfold coeffs
  rw [Finset.range_zero, Finset.sum_empty]

theorem coeffs_succ (blocks : List (BitVec w)) (n : Nat)
    : coeffs blocks (n + 1) = coeffs blocks n + monomial n (bitZ blocks n) := by
  unfold coeffs
  rw [Finset.sum_range_succ]

theorem coeffs_replicate (m n : Nat) : coeffs (replicate m 0#w) n = 0 := by
  unfold coeffs
  apply Finset.sum_eq_zero
  intro j _
  rw [bitZ_replicate, monomial_zero_right]

theorem add_self (p : (ZMod 2)[X]) : p + p = 0 := by
  ext j
  rw [coeff_add, coeff_zero]
  exact CharTwo.add_self_eq_zero _

theorem AddsBits.coeffs (h : AddsBits blocks blocks2 off 0 m blocks') (hle : off + m ≤ n)
    : coeffs blocks' n = coeffs blocks n + X ^ off * coeffs blocks2 m := by
  ext j
  rw [coeff_add, coeff_X_pow_mul', coeff_coeffs, coeff_coeffs, coeff_coeffs]
  have hbit : bitZ blocks' j = bitZ blocks j
      + if off + 0 ≤ j ∧ j < off + m then bitZ blocks2 (j - off) else 0 := by
    unfold bitZ
    rw [h.2, zbit_xor]
    split
    . next hin => rw [decide_eq_true hin, Bool.true_and]
    . next hin => rw [decide_eq_false hin, Bool.false_and, zbit_false]
  by_cases hj : j < n
  . rw [if_pos hj, if_pos hj, hbit]
    congr 1
    by_cases hoff : off ≤ j
    . rw [if_pos hoff]
      by_cases hlt : j - off < m
      . rw [if_pos hlt, if_pos (by omega)]
      . rw [if_neg hlt, if_neg (by omega)]
    . rw [if_neg hoff, if_neg (by omega)]
  . rw [if_neg hj, if_neg hj, zero_add]
    split
    . rw [if_neg (by omega)]
    . rfl

theorem degree_coeffs (hpos : 0 < n) (h : bitAt blocks (n - 1) = true)
    : (coeffs blocks n).degree = (n - 1 : Nat) := by
  apply degree_eq_of_le_of_coeff_ne_zero
  . rw [degree_le_iff_coeff_zero]
    intro j hj
    have hlt : n - 1 < j := by exact_mod_cast hj
    rw [coeff_coeffs, if_neg (by omega)]
  . rw [coeff_coeffs, if_pos (by omega)]
    unfold bitZ
    rw [h, zbit_true]
    exact one_ne_zero

theorem degree_coeffs_lt (h : ∀ j, n ≤ j → j < m → bitAt blocks j = false)
    : (coeffs blocks m).degree < n := by
  rw [degree_lt_iff_coeff_zero]
  intro j hj
  rw [coeff_coeffs]
  split
  . next hm =>
    unfold bitZ
    rw [h j hj hm, zbit_false]
  . rfl

end Coeffs

noncomputable def poly (vec : GF2Vec w) : (ZMod 2)[X] :=
  coeffs vec.blocks vec.len

structure IsVector (vec : GF2Vec w) : Prop where
  hasBlocks : vec.HasBlocks
  word : vec.blocks.length * w < 2 ^ w

def lockedError : Fault :=
  .quit "Resize of locked compressed vector is forbidden" 0 0

section Resize

variable {vec vec' : GF2Obj w} {newlen : Nat}

theorem IsResized.poly (h : IsResized vec newlen vec')
    : GF2Impl.poly vec'.toGF2Vec = coeffs vec.blocks (min newlen vec.len) := by
  unfold GF2Impl.poly
  rw [h.1]
  have hzero : ∀ j, min newlen vec.len ≤ j → j < newlen → bitAt vec'.blocks j = false := by
    intro j hj hlt
    rw [h.2.2.2 j hlt, decide_eq_false (by omega), Bool.false_and]
  rw [coeffs_of_zero (Nat.min_le_left _ _) hzero]
  apply coeffs_congr
  intro j hj
  rw [h.2.2.2 j (by omega), decide_eq_true (by omega), Bool.true_and]

end Resize

section Add

variable {vec1 : GF2Obj w} {vec2 : GF2Vec w} {len2 off : Nat}

def Refused (vec : GF2Obj w) (newlen : Nat) : Prop :=
  vec.locked = true ∧ vec.len < newlen

def AddsShifted (vec1 : GF2Obj w) (vec2 : GF2Vec w) (len2 off : Nat) : Prop :=
  Refused vec1 (len2 + off) ∧ funcAddGF2VecGF2VecShifted vec1 vec2 len2 off = .error lockedError
    ∨ ∃ vec', funcAddGF2VecGF2VecShifted vec1 vec2 len2 off = .ok vec'
      ∧ vec'.len = max vec1.len (len2 + off) ∧ vec'.HasBlocks
      ∧ poly vec'.toGF2Vec = poly vec1.toGF2Vec + X ^ off * coeffs vec2.blocks len2

theorem funcAddShifted_run (hlen : len2 < vec2.len)
    : funcAddGF2VecGF2VecShifted vec1 vec2 len2 off
        = (if len2 + off > vec1.len then resizeGF2Vec vec1 (len2 + off) else .ok vec1)
          >>= fun vec1 => addShiftedVecGF2VecGF2 vec1 vec2 len2 off := by
  unfold funcAddGF2VecGF2VecShifted
  rw [if_neg (by omega)]
  dsimp only
  split
  . rfl
  . rfl

theorem funcAddShifted_refused (hlen : len2 < vec2.len) (h : Refused vec1 (len2 + off))
    : funcAddGF2VecGF2VecShifted vec1 vec2 len2 off = .error lockedError := by
  rw [funcAddShifted_run hlen, if_pos h.2, resize_locked h.1 (Nat.ne_of_lt h.2)]
  rfl

theorem grow_spec (hw : 0 < w) (h : vec1.HasBlocks) (hok : ¬Refused vec1 (len2 + off))
    : ∃ vec', (if len2 + off > vec1.len then resizeGF2Vec vec1 (len2 + off) else .ok vec1)
          = .ok vec'
        ∧ vec'.len = max vec1.len (len2 + off) ∧ vec'.HasBlocks
        ∧ poly vec'.toGF2Vec = poly vec1.toGF2Vec := by
  split
  . next hlt =>
    obtain ⟨vec', hrun, hres⟩ := resize_spec hw h (fun hlocked => absurd ⟨hlocked, hlt⟩ hok)
    refine ⟨vec', hrun, ?_, hres.2.2.1, ?_⟩
    . rw [hres.1]
      omega
    . rw [hres.poly, Nat.min_eq_right (by omega)]
      rfl
  . exact ⟨vec1, rfl, by omega, h, rfl⟩

theorem addsShifted_iff (hw : 0 < w) (h1 : vec1.HasBlocks) (h2 : IsVector vec2)
    (hlen : len2 < vec2.len)
    : AddsShifted vec1 vec2 len2 off
        ↔ (len2 = 0 → off % w = 0 → Refused vec1 off) := by
  by_cases href : Refused vec1 (len2 + off)
  . refine iff_of_true (Or.inl ⟨href, funcAddShifted_refused hlen href⟩) ?_
    rintro rfl -
    rw [Nat.zero_add] at href
    exact href
  . obtain ⟨vec', hgrow, hlen', hblocks, hpoly⟩ := grow_spec hw h1 href
    unfold AddsShifted
    rw [funcAddShifted_run hlen, hgrow, ok_bind]
    have hrefused : ¬(Refused vec1 (len2 + off)
        ∧ addShiftedVecGF2VecGF2 vec' vec2 len2 off = .error lockedError) := fun h => href h.1
    by_cases hbad : len2 = 0 ∧ off % w = 0
    . obtain ⟨rfl, hoff⟩ := hbad
      refine iff_of_false ?_ (fun h => href (by rw [Nat.zero_add]; exact h rfl hoff))
      rintro (h | ⟨res, hrun, -⟩)
      . exact hrefused h
      . exact addShifted_error hw h2.word hoff res hrun
    . refine iff_of_true (Or.inr ?_) (fun hz hoff => absurd ⟨hz, hoff⟩ hbad)
      have hl2 : len2 ≤ vec2.blocks.length * w := Nat.le_trans (Nat.le_of_lt hlen) h2.hasBlocks
      have hword := h2.word
      obtain ⟨blocks', hrun, hadds⟩ := addShifted_spec hw hl2
        (show off + len2 ≤ vec'.len by omega) hblocks (by omega) hbad
      refine ⟨_, hrun, hlen', ?_, ?_⟩
      . unfold GF2Vec.HasBlocks
        dsimp only
        rw [hadds.1]
        exact hblocks
      . rw [← hpoly]
        exact hadds.coeffs (show off + len2 ≤ vec'.len by omega)

end Add

section Product

variable {vec1 vec2 : GF2Vec w} {len1 len2 : Nat}

structure IsLoaded (vec1 : GF2Vec w) (i : Nat) (s : ProductState w) : Prop where
  e_le : s.e ≤ w
  eq : w * s.ptr + s.e = i + w
  block : s.e < w → s.block = vec1.blocks.getD (s.ptr - 1) 0#w

variable {i : Nat} {s : ProductState w}

theorem loadBlock_spec (hw : 0 < w) (hs : IsLoaded vec1 i s) (hi : i < vec1.blocks.length * w)
    : ∃ s', loadBlock vec1 s = .ok s' ∧ s'.prod = s.prod ∧ IsLoaded vec1 i s' ∧ s'.e < w := by
  have heq := hs.eq
  have hle := hs.e_le
  unfold loadBlock
  by_cases he : s.e = w
  . have hptr : s.ptr < vec1.blocks.length := by
      apply Nat.lt_of_mul_lt_mul_left (a := w)
      rw [Nat.mul_comm w vec1.blocks.length]
      omega
    rw [if_pos he, readAt_of_lt hptr 0#w]
    refine ⟨_, rfl, rfl, ⟨Nat.zero_le _, ?_, fun _ => rfl⟩, hw⟩
    dsimp only
    rw [mul_succ]
    omega
  . rw [if_neg he]
    exact ⟨s, rfl, rfl, hs, by omega⟩

theorem IsLoaded.bit (hs : IsLoaded vec1 i s) (he : s.e < w)
    : s.block.getLsbD s.e = bitAt vec1.blocks i := by
  have heq := hs.eq
  obtain ⟨p, hp⟩ : ∃ p, s.ptr = p + 1 := by
    refine ⟨s.ptr - 1, ?_⟩
    have hne : s.ptr ≠ 0 := by
      intro hz
      rw [hz, Nat.mul_zero] at heq
      omega
    omega
  rw [hp, mul_succ] at heq
  rw [hs.block he, hp, Nat.add_sub_cancel, show i = w * p + s.e by omega, bitAt_mul_add he]

structure IsPartialProduct (vec1 vec2 : GF2Vec w) (len2 len i : Nat) (s : ProductState w)
    : Prop where
  loaded : IsLoaded vec1 i s
  len_eq : s.prod.len = len
  locked : s.prod.locked = false
  hasBlocks : s.prod.HasBlocks
  poly : GF2Impl.poly s.prod.toGF2Vec = coeffs vec1.blocks i * coeffs vec2.blocks len2

theorem productRound_spec (hw : 0 < w) {len : Nat} (hs : IsPartialProduct vec1 vec2 len2 len i s)
    (hi : i < vec1.blocks.length * w) (hpos : 0 < len2) (h2 : len2 ≤ vec2.blocks.length * w)
    (hword : len2 ≤ 2 ^ w) (hlen : i + len2 ≤ len)
    : ∃ s', productRound vec1 vec2 len2 i s = .ok s'
        ∧ IsPartialProduct vec1 vec2 len2 len (i + 1) s' := by
  obtain ⟨s1, hload, hprod, hs1, he⟩ := loadBlock_spec hw hs.loaded hi
  have hnext (prod : GF2Obj w) : IsLoaded vec1 (i + 1) { s1 with prod := prod, e := s1.e + 1 } := by
    have heq := hs1.eq
    refine ⟨he, ?_, fun _ => hs1.block he⟩
    dsimp only
    omega
  unfold productRound
  rw [hload, ok_bind]
  simp only [and_bit_ne_zero he]
  rw [hs1.bit he]
  split
  . next hbit =>
    have hl := hs.len_eq
    obtain ⟨blocks', hrun, hadds⟩ := addShifted_spec hw h2
      (show i + len2 ≤ s.prod.len by omega) hs.hasBlocks hword (by omega)
    rw [hprod, hrun, ok_bind]
    refine ⟨_, rfl, hnext _, hs.len_eq, hs.locked, ?_, ?_⟩
    . unfold GF2Vec.HasBlocks
      dsimp only
      rw [hadds.1]
      exact hs.hasBlocks
    . have hcoeffs := hadds.coeffs (show i + len2 ≤ s.prod.len by omega)
      have hpoly := hs.poly
      unfold GF2Impl.poly at hpoly ⊢
      dsimp only
      rw [hcoeffs, hpoly, coeffs_succ]
      unfold bitZ
      rw [hbit, zbit_true, monomial_one_right_eq_X_pow, add_mul]
  . next hbit =>
    rw [Bool.not_eq_true] at hbit
    refine ⟨_, rfl, hnext _, ?_, ?_, ?_, ?_⟩
    . exact hprod ▸ hs.len_eq
    . exact hprod ▸ hs.locked
    . exact hprod ▸ hs.hasBlocks
    . have hpoly := hs.poly
      dsimp only
      rw [hprod, hpoly, coeffs_succ]
      unfold bitZ
      rw [hbit, zbit_false, monomial_zero_right, add_zero]

theorem hasBlocks_new (hw : 0 < w) (len : Nat) : (newGF2Vec len : GF2Obj w).HasBlocks := by
  unfold GF2Vec.HasBlocks newGF2Vec GF2Vec.new
  dsimp only
  rw [length_replicate]
  exact le_ceilDiv_mul hw len

section

variable (hw : 0 < w) (h1 : len1 ≤ vec1.blocks.length * w) (h2 : len2 ≤ vec2.blocks.length * w)

include hw h1 h2

theorem productLoop_spec (hword : len2 ≤ 2 ^ w) (hle : len1 ≤ len2) {len : Nat}
    (hlen : len1 + len2 ≤ len + 1)
    : ∃ s', forLoop (productRound vec1 vec2 len2) len1 0
          { prod := newGF2Vec len, ptr := 0, block := 0#w, e := w } = .ok s'
        ∧ IsPartialProduct vec1 vec2 len2 len len1 s' := by
  apply forLoop_of_inv (fun i s => IsPartialProduct vec1 vec2 len2 len i s)
  . refine ⟨⟨Nat.le_refl w, by dsimp only; omega, fun h => absurd h (Nat.lt_irrefl w)⟩, rfl, rfl,
      hasBlocks_new hw len, ?_⟩
    rw [coeffs_zero, zero_mul]
    exact coeffs_replicate _ _
  . intro i s _ hi hs
    exact productRound_spec hw hs (by omega) (by omega) h2 hword (by omega)
  . intro s' hs'
    rw [Nat.zero_add] at hs'
    exact hs'

theorem productCoeffs_spec (hword1 : len1 ≤ 2 ^ w) (hword2 : len2 ≤ 2 ^ w)
    : ∃ prod, productCoeffsGF2Vec vec1 len1 vec2 len2 = .ok prod ∧ prod.HasBlocks
        ∧ prod.locked = false
        ∧ poly prod.toGF2Vec = coeffs vec1.blocks len1 * coeffs vec2.blocks len2 := by
  have hlen : len1 + len2 ≤ (if len1 = 0 ∧ len2 = 0 then 0 else len1 + len2 - 1) + 1 := by
    split
    . omega
    . omega
  unfold productCoeffsGF2Vec
  generalize (if len1 = 0 ∧ len2 = 0 then 0 else len1 + len2 - 1) = len at hlen
  by_cases hlt : len2 < len1
  . obtain ⟨s, hrun, hs⟩ := productLoop_spec hw h2 h1 hword1 (Nat.le_of_lt hlt)
      (show len2 + len1 ≤ len + 1 by omega)
    dsimp only
    rw [if_pos hlt, hrun, ok_bind]
    exact ⟨s.prod, rfl, hs.hasBlocks, hs.locked, by rw [hs.poly, mul_comm]⟩
  . obtain ⟨s, hrun, hs⟩ := productLoop_spec hw h1 h2 hword2 (Nat.le_of_not_lt hlt) hlen
    dsimp only
    rw [if_neg hlt, hrun, ok_bind]
    exact ⟨s.prod, rfl, hs.hasBlocks, hs.locked, hs.poly⟩

end

def IsTrimmed (vec : GF2Vec w) : Prop :=
  vec.len ≠ 0 → bitAt vec.blocks (vec.len - 1) = true

theorem trim_spec (hw : 0 < w) {vec : GF2Obj w} {last : Nat} (h : vec.HasBlocks)
    (hok : vec.locked = true → vec.len = last) (hlast : IsRightMost vec.blocks vec.len last)
    : ∃ vec', resizeGF2Vec vec last = .ok vec' ∧ vec'.len = last ∧ vec'.HasBlocks
        ∧ IsTrimmed vec'.toGF2Vec ∧ poly vec'.toGF2Vec = poly vec.toGF2Vec := by
  obtain ⟨vec', hrun, hres⟩ := resize_spec hw h hok
  refine ⟨vec', hrun, hres.1, hres.2.2.1, ?_, ?_⟩
  . intro hne
    rw [hres.1] at hne ⊢
    have hle := hlast.1
    rw [hres.2.2.2 _ (by omega), decide_eq_true (by omega), Bool.true_and]
    exact hlast.2.2 hne
  . rw [hres.poly, Nat.min_eq_left hlast.1]
    exact (coeffs_of_zero hlast.1 hlast.2.1).symm

def IsProductOf (vec1 : GF2Vec w) (len1 : Nat) (vec2 : GF2Vec w) (len2 : Nat) : Prop :=
  ∃ prod, funcProdCoeffsGF2Vec vec1 len1 vec2 len2 = .ok prod ∧ prod.HasBlocks
    ∧ IsTrimmed prod.toGF2Vec
    ∧ poly prod.toGF2Vec = coeffs vec1.blocks len1 * coeffs vec2.blocks len2

theorem isProductOf (hw : 0 < w) (h1 : IsVector vec1) (h2 : IsVector vec2)
    (hlen1 : len1 ≤ vec1.len) (hlen2 : len2 ≤ vec2.len) : IsProductOf vec1 len1 vec2 len2 := by
  have hl1 := Nat.le_trans hlen1 h1.hasBlocks
  have hl2 := Nat.le_trans hlen2 h2.hasBlocks
  have hword1 := h1.word
  have hword2 := h2.word
  obtain ⟨prod, hrun, hblocks, hlocked, hpoly⟩ := productCoeffs_spec hw hl1 hl2
    (show len1 ≤ 2 ^ w by omega) (show len2 ≤ 2 ^ w by omega)
  obtain ⟨last, hright, hlast⟩ := rightMostOne_spec hw hblocks
  obtain ⟨prod', htrim, -, hblocks', htrimmed, hpoly'⟩ := trim_spec hw hblocks
    (fun hl => absurd (hlocked.symm.trans hl) Bool.false_ne_true) hlast
  unfold IsProductOf funcProdCoeffsGF2Vec
  rw [if_neg (by omega), if_neg (by omega)]
  dsimp only
  rw [hrun, ok_bind]
  unfold rightMostOneGF2Vec
  rw [hright, ok_bind]
  split
  . exact ⟨prod', htrim, hblocks', htrimmed, hpoly'.trans hpoly⟩
  . next hge =>
    have heq : last = prod.len := Nat.le_antisymm hlast.1 (Nat.le_of_not_lt hge)
    refine ⟨prod, rfl, hblocks, ?_, hpoly⟩
    intro hne
    rw [← heq] at hne ⊢
    exact hlast.2.2 hne

end Product

section Reduce

variable {vec2 : GF2Vec w} {len1 len2 n k : Nat} {hasQuot : Bool} {vec0 vec1 : GF2Obj w}
  {quotient : Option (List (BitVec w))}

structure IsDivision (vec0 : GF2Obj w) (vec2 : GF2Vec w) (len2 n : Nat) (hasQuot : Bool) (k : Nat)
    (vec1 : GF2Obj w) (quotient : Option (List (BitVec w))) : Prop where
  len_eq : vec1.len = vec0.len
  locked_eq : vec1.locked = vec0.locked
  length_eq : vec1.blocks.length = vec0.blocks.length
  hasBlocks : vec1.HasBlocks
  zero : ∀ j, k ≤ j → j < vec0.len → bitAt vec1.blocks j = false
  isSome_eq : quotient.isSome = hasQuot
  quot : ∃ q, poly vec0.toGF2Vec = q * coeffs vec2.blocks len2 + coeffs vec1.blocks vec0.len
    ∧ ∀ qptr, quotient = some qptr → n ≤ qptr.length * w ∧ coeffs qptr n = q
      ∧ ∀ j, j < k + 1 - len2 → bitAt qptr j = false

theorem readSigned_natCast (blocks : List (BitVec w)) (ptr : Nat)
    : readSigned blocks ptr = readAt blocks ptr := by
  unfold readSigned
  rw [if_neg (Int.not_lt.mpr (natCast_nonneg ptr)), toNat_natCast]

theorem pred_of_mod_eq_zero {i : Nat} (hw : 0 < w) (hpos : 0 < i) (h : i % w = 0)
    : (i - 1) % w = w - 1 ∧ i / w = (i - 1) / w + 1 := by
  have hdm := div_add_mod i w
  obtain ⟨q, hq⟩ : ∃ q, i / w = q + 1 := by
    apply exists_eq_add_one_of_ne_zero
    intro hq
    rw [hq, Nat.mul_zero] at hdm
    omega
  rw [hq, mul_succ] at hdm
  rw [hq, show i - 1 = w * q + (w - 1) by omega, mul_add_mod, mod_eq_of_lt (by omega),
    mul_add_div hw, div_eq_of_lt (by omega)]
  exact ⟨rfl, rfl⟩

theorem pred_of_mod_ne_zero {i : Nat} (hw : 0 < w) (h : i % w ≠ 0)
    : (i - 1) % w = i % w - 1 ∧ i / w = (i - 1) / w := by
  have hdm := div_add_mod i w
  have hlt := mod_lt i hw
  have hsplit : i - 1 = w * (i / w) + (i % w - 1) := by
    omega
  constructor
  . rw [hsplit, mul_add_mod, mod_eq_of_lt (by omega)]
  . rw [hsplit, mul_add_div hw, div_eq_of_lt (a := i % w - 1) (by omega), Nat.add_zero]

theorem subWord_succ {a b : Nat} (hle : b ≤ a + 1) (hb : b ≤ 2 ^ w)
    : (subWord w a b + 1) % 2 ^ w = (a + 1 - b) % 2 ^ w := by
  unfold subWord
  rw [mod_add_mod, show a + (2 ^ w - b) + 1 = a + 1 - b + 2 ^ w by omega, add_mod_right]

theorem subWord_one {a : Nat} (hpos : 0 < a) (hlt : a < 2 ^ w) : subWord w a 1 = a - 1 := by
  unfold subWord
  rw [show a + (2 ^ w - 1) = a - 1 + 2 ^ w by omega, add_mod_right, mod_eq_of_lt (by omega)]

theorem setQuotBit_spec (hw : 0 < w) {j : Nat} (hj : j < n)
    (h : ∀ qptr, quotient = some qptr → n ≤ qptr.length * w ∧ bitAt qptr j = false)
    : ∃ quotient', setQuotBit quotient (j + 1) = .ok quotient'
        ∧ quotient'.isSome = quotient.isSome
        ∧ ∀ qptr', quotient' = some qptr' → ∃ qptr, quotient = some qptr
          ∧ qptr'.length = qptr.length ∧ coeffs qptr' n = coeffs qptr n + X ^ j
          ∧ ∀ i, i ≠ j → bitAt qptr' i = bitAt qptr i := by
  unfold setQuotBit
  cases quotient with
  | none => exact ⟨none, rfl, rfl, fun _ h => nomatch h⟩
  | some qptr =>
    obtain ⟨hn, hzero⟩ := h qptr rfl
    have hlt : j / w < qptr.length := div_lt_of_lt hw (by omega)
    dsimp only
    unfold maskPos
    rw [Nat.add_sub_cancel, readAt_of_lt hlt 0#w, ok_bind, writeAt_of_lt hlt]
    refine ⟨_, rfl, rfl, ?_⟩
    rintro qptr' hq
    obtain rfl := Option.some.inj hq
    refine ⟨qptr, rfl, length_set, ?_, fun i hi => ?_⟩
    . ext i
      rw [coeff_add, coeff_X_pow, coeff_coeffs, coeff_coeffs]
      unfold bitZ
      rw [bitAt_setBit hw hlt]
      by_cases hi : i = j
      . rw [hi, if_pos hj, if_pos hj, if_pos rfl, if_pos rfl, hzero, zbit_true, zbit_false,
          zero_add]
      . rw [if_neg hi, if_neg hi, add_zero]
    . rw [bitAt_setBit hw hlt, if_neg hi]

section

variable (hw : 0 < w) (hlast : bitAt vec2.blocks (len2 - 1) = true) (hpos : 0 < len2)
  (h2 : len2 ≤ vec2.blocks.length * w)

include hw hlast hpos h2

theorem reduceRound_spec (hk : len2 ≤ k) (hk1 : k ≤ vec0.len) (hword : vec0.len < 2 ^ w)
    (hn : k + 1 - len2 ≤ n) (h : IsDivision vec0 vec2 len2 n hasQuot k vec1 quotient)
    : ∃ vec1' quotient', reduceRound vec1 vec2 len2 quotient (k - 1) ((k - 1) % w)
          ((k - 1) / w : Nat) (k + 1 - len2) = .ok (vec1', quotient')
        ∧ IsDivision vec0 vec2 len2 n hasQuot (k - 1) vec1' quotient' := by
  have hlen := h.len_eq
  have hblocks : vec1.len ≤ vec1.blocks.length * w := h.hasBlocks
  have hmod := mod_lt (k - 1) hw
  obtain ⟨q, hp1, hquot⟩ := h.quot
  unfold reduceRound
  rw [readSigned_natCast, readAt_of_lt (div_lt_of_lt hw (by omega)) 0#w, ok_bind]
  simp only [and_bit_ne_zero hmod]
  change ∃ vec1' quotient', (if bitAt vec1.blocks (k - 1) = true then _ else _) = _ ∧ _
  split
  . next hbit =>
    rw [subWord_succ (by omega) (by omega), Nat.sub_add_cancel (by omega),
      mod_eq_of_lt (by omega)]
    obtain ⟨blocks', hrun, hadds⟩ := addShifted_spec hw h2
      (show k - len2 + len2 ≤ vec1.len by omega) hblocks (by omega) (by omega)
    obtain ⟨quotient', hset, hsome, hquot'⟩ := @setQuotBit_spec w n quotient hw (k - len2)
      (by omega) (fun qptr hq => ⟨(hquot qptr hq).1, (hquot qptr hq).2.2 _ (by omega)⟩)
    rw [show k - len2 + 1 = k + 1 - len2 by omega] at hset
    rw [hrun, ok_bind, hset, ok_bind]
    have hcoeffs := hadds.coeffs (show k - len2 + len2 ≤ vec0.len by omega)
    refine ⟨_, _, rfl, ⟨hlen, h.locked_eq, hadds.1.trans h.length_eq, ?_, ?_,
      hsome.trans h.isSome_eq, ?_⟩⟩
    . unfold GF2Vec.HasBlocks
      dsimp only
      rw [hadds.1]
      exact hblocks
    . intro j hj hlt
      dsimp only
      rw [hadds.2]
      by_cases htop : j = k - 1
      . rw [htop, hbit, decide_eq_true (by omega), show k - 1 - (k - len2) = len2 - 1 by omega,
          hlast]
        rfl
      . rw [h.zero j (by omega) hlt, decide_eq_false (by omega)]
        rfl
    . refine ⟨q + X ^ (k - len2), ?_, ?_⟩
      . dsimp only
        rw [hcoeffs]
        have htwo := add_self (X ^ (k - len2) * coeffs vec2.blocks len2)
        linear_combination hp1 - htwo
      . intro qptr' hq'
        obtain ⟨qptr, hq, hlen', hc, hbits⟩ := hquot' qptr' hq'
        obtain ⟨hn', hcq, hz⟩ := hquot qptr hq
        refine ⟨by rw [hlen']; exact hn', by rw [hc, hcq], fun j hj => ?_⟩
        rw [hbits j (by omega)]
        exact hz j (by omega)
  . next hbit =>
    rw [Bool.not_eq_true] at hbit
    refine ⟨vec1, quotient, rfl, ⟨hlen, h.locked_eq, h.length_eq, h.hasBlocks, ?_, h.isSome_eq, q,
      hp1, ?_⟩⟩
    . intro j hj hlt
      by_cases htop : j = k - 1
      . rw [htop]
        exact hbit
      . exact h.zero j (by omega) hlt
    . intro qptr hq
      obtain ⟨hn', hcq, hz⟩ := hquot qptr hq
      exact ⟨hn', hcq, fun j hj => hz j (by omega)⟩

theorem reduceLoop_spec (hword : vec0.len < 2 ^ w) {rounds e : Nat} {ptr : Int}
    (hrounds : k < rounds) (hk : len2 - 1 ≤ k) (hk1 : k ≤ vec0.len) (hn : k + 1 - len2 ≤ n)
    (hptr : 0 < k → e = (k - 1) % w ∧ ptr = ((k - 1) / w : Nat))
    (h : IsDivision vec0 vec2 len2 n hasQuot k vec1 quotient)
    : ∃ vec1' quotient', reduceLoop vec2 len2 rounds vec1 quotient (subWord w k 1) e ptr
          (k + 1 - len2) = .ok (vec1', quotient')
        ∧ IsDivision vec0 vec2 len2 n hasQuot (len2 - 1) vec1' quotient' := by
  induction rounds generalizing k vec1 quotient e ptr with
  | zero => omega
  | succ rounds ih =>
    unfold reduceLoop
    rw [subWord_succ (by omega) Nat.one_le_two_pow, Nat.add_sub_cancel,
      mod_eq_of_lt (by omega)]
    by_cases hge : k ≥ len2
    . rw [if_pos hge]
      obtain ⟨rfl, rfl⟩ := hptr (by omega)
      obtain ⟨vec1', quotient', hrun, hdiv⟩ :=
        reduceRound_spec hw hlast hpos h2 hge hk1 hword hn h
      have hlen := hdiv.len_eq
      have hblocks : vec1'.len ≤ vec1'.blocks.length * w := hdiv.hasBlocks
      have hmod := mod_lt (k - 1) hw
      have hdm := div_add_mod (k - 1) w
      rw [subWord_one (by omega) (by omega), hrun, ok_bind]
      dsimp only
      rw [readSigned_natCast, readAt_of_lt (div_lt_of_lt hw (by omega)) 0#w, ok_bind]
      simp only [and_bit_ne_zero hmod]
      have hbit : bitAt vec1'.blocks (k - 1) = false := hdiv.zero _ (Nat.le_refl _) (by omega)
      change ∃ vec1'' quotient'', (if bitAt vec1'.blocks (k - 1) = true then _ else _) = _ ∧ _
      rw [hbit, if_neg Bool.false_ne_true]
      have hj : k + 1 - len2 - 1 = k - 1 + 1 - len2 := by omega
      split
      . next hzero =>
        rw [hj]
        apply ih (by omega) (by omega) (by omega) (by omega) _ hdiv
        intro hk2
        obtain ⟨hm, hd⟩ := pred_of_mod_eq_zero hw hk2 hzero
        rw [hm, hd, natCast_add, Int.natCast_one, Int.add_sub_cancel]
        exact ⟨rfl, rfl⟩
      . next hne =>
        rw [hj]
        apply ih (by omega) (by omega) (by omega) (by omega) _ hdiv
        intro _
        obtain ⟨hm, hd⟩ := pred_of_mod_ne_zero hw hne
        rw [hm, ← hd]
        exact ⟨rfl, rfl⟩
    . rw [if_neg hge]
      refine ⟨vec1, quotient, rfl, ?_⟩
      rw [show len2 - 1 = k by omega]
      exact h

theorem reduceCoeffs_spec (hword : vec1.len < 2 ^ w) (hn : vec1.len + 1 - len2 ≤ n)
    (h1 : vec1.HasBlocks)
    (hquot : ∀ qptr, quotient = some qptr → n ≤ qptr.length * w ∧ ∀ j, bitAt qptr j = false)
    : ∃ vec1' quotient' k, reduceCoeffsGF2Vec vec1 vec2 len2 quotient = .ok (vec1', quotient')
        ∧ k < len2
        ∧ IsDivision vec1 vec2 len2 n quotient.isSome k vec1' quotient' := by
  have hinit : IsDivision vec1 vec2 len2 n quotient.isSome vec1.len vec1 quotient := by
    refine ⟨rfl, rfl, rfl, h1, fun j hj hlt => absurd hlt (by omega), rfl, 0, ?_, ?_⟩
    . rw [zero_mul, zero_add]
      rfl
    . intro qptr hq
      obtain ⟨hle, hzero⟩ := hquot qptr hq
      refine ⟨hle, ?_, fun j _ => hzero j⟩
      rw [coeffs_of_zero (Nat.zero_le n) (fun j _ _ => hzero j), coeffs_zero]
  unfold reduceCoeffsGF2Vec
  split
  . next hlt => exact ⟨vec1, quotient, vec1.len, rfl, hlt, hinit⟩
  . next hle =>
    dsimp only
    have hsub : subWord w vec1.len 1 = vec1.len - 1 := subWord_one (by omega) hword
    have hj : vec1.len - len2 + 1 = vec1.len + 1 - len2 := by
      omega
    rw [hj, hsub]
    obtain ⟨vec1', quotient', hrun, hdiv⟩ := reduceLoop_spec hw hlast hpos h2 hword
      (lt_succ_self _) (by omega) (Nat.le_refl _) hn (fun _ => ⟨rfl, rfl⟩) hinit
    rw [hsub] at hrun
    exact ⟨vec1', quotient', len2 - 1, hrun, by omega, hdiv⟩

end

theorem divisor_spec (hw : 0 < w) (h2 : IsVector vec2) (hlen2 : len2 ≤ vec2.len)
    : ∃ m, rightMostOne vec2.blocks len2 = .ok m ∧ m ≤ len2
        ∧ coeffs vec2.blocks len2 = coeffs vec2.blocks m
        ∧ (m ≠ 0 → bitAt vec2.blocks (m - 1) = true)
        ∧ (m = 0 ↔ coeffs vec2.blocks len2 = 0) := by
  obtain ⟨m, hrun, hle, hzero, hone⟩ :=
    rightMostOne_spec hw (Nat.le_trans hlen2 h2.hasBlocks)
  have hcoeffs := coeffs_of_zero hle hzero
  refine ⟨m, hrun, hle, hcoeffs, hone, ?_, ?_⟩
  . rintro rfl
    rw [hcoeffs, coeffs_zero]
  . intro h
    by_contra hne
    have hdeg := degree_coeffs (Nat.pos_of_ne_zero hne) (hone hne)
    rw [← hcoeffs, h, degree_zero] at hdeg
    exact absurd hdeg (by simp)

def ReducesTo (vec1 : GF2Obj w) (len1 : Nat) (vec2 : GF2Vec w) (len2 : Nat) : Prop :=
  vec1.locked = true
      ∧ (∃ vec', funcReduceCoeffsGF2Vec len1 vec2 len2 vec1 = .error lockedError vec')
    ∨ coeffs vec2.blocks len2 = 0
      ∧ (∃ vec', funcReduceCoeffsGF2Vec len1 vec2 len2 vec1
        = .error (.quit "ReduceCoeffs: second argument must not be zero" 0 0) vec')
    ∨ coeffs vec2.blocks len2 ≠ 0
      ∧ (∃ last vec', funcReduceCoeffsGF2Vec len1 vec2 len2 vec1 = .ok last vec'
        ∧ vec'.len = last ∧ vec'.HasBlocks ∧ IsTrimmed vec'.toGF2Vec
        ∧ (∃ q, coeffs vec1.blocks len1 = q * coeffs vec2.blocks len2 + poly vec'.toGF2Vec)
        ∧ (poly vec'.toGF2Vec).degree < (coeffs vec2.blocks len2).degree)

theorem degree_remainder_lt {m : Nat} (hm : m ≠ 0) (hlast : bitAt vec2.blocks (m - 1) = true)
    (hk : k < m) (h : IsDivision vec0 vec2 m n hasQuot k vec1 quotient)
    : (poly vec1.toGF2Vec).degree < (coeffs vec2.blocks m).degree := by
  unfold poly
  rw [degree_coeffs (Nat.pos_of_ne_zero hm) hlast]
  apply lt_of_lt_of_le (degree_coeffs_lt (by rw [h.len_eq]; exact h.zero))
  exact_mod_cast le_sub_one_of_lt hk

theorem reduceCoeffsGF2Vec_fst {vec rem : GF2Obj w} {m : Nat}
    {quotient quotient' : Option (List (BitVec w))}
    (hrun : reduceCoeffsGF2Vec vec vec2 m quotient = .ok (rem, quotient'))
    : (do
        let (vec1, _) ← reduceCoeffsGF2Vec vec vec2 m quotient
        return vec1 : Result (GF2Obj w)) = .ok rem := by
  rw [hrun]
  rfl

theorem reducesTo (hw : 0 < w) (h1 : IsVector vec1.toGF2Vec) (h2 : IsVector vec2)
    (hlen1 : len1 ≤ vec1.len) (hlen2 : len2 ≤ vec2.len) : ReducesTo vec1 len1 vec2 len2 := by
  obtain ⟨m, hright, hm, hcoeffs, hlast, hzero⟩ := divisor_spec hw h2 hlen2
  unfold ReducesTo funcReduceCoeffsGF2Vec
  rw [ChangeM.get_bind, if_neg (by omega), if_neg (by omega)]
  by_cases hlocked : vec1.locked = true ∧ vec1.len ≠ len1
  . left
    refine ⟨hlocked.1, vec1, ?_⟩
    exact ChangeM.update_bind_error (resize_locked hlocked.1 hlocked.2) _
  . obtain ⟨vec', hresize, hres⟩ := @resize_spec w vec1 len1 hw h1.hasBlocks (by tauto)
    rw [ChangeM.update_bind hresize, ChangeM.ofResult_bind hright]
    by_cases hm0 : m = 0
    . rw [if_pos hm0]
      exact Or.inr (Or.inl ⟨hzero.mp hm0, vec', rfl⟩)
    . have hlen := hres.1
      have hword := h1.word
      have hblocks : vec1.len ≤ vec1.blocks.length * w := h1.hasBlocks
      obtain ⟨rem, quotient', k, hrun, hk, hdiv⟩ := @reduceCoeffs_spec w vec2 m
        (vec'.len + 1 - m) vec' none hw (hlast hm0) (Nat.pos_of_ne_zero hm0)
        (Nat.le_trans hm (Nat.le_trans hlen2 h2.hasBlocks)) (by omega) (Nat.le_refl _) hres.2.2.1
        (fun _ h => nomatch h)
      have hupdate := reduceCoeffsGF2Vec_fst hrun
      obtain ⟨last, hright', hlast'⟩ := rightMostOne_spec hw hdiv.hasBlocks
      rw [if_neg hm0, ChangeM.update_bind hupdate, ChangeM.get_bind]
      unfold rightMostOneGF2Vec
      rw [ChangeM.ofResult_bind hright']
      by_cases hlocked' : rem.locked = true ∧ rem.len ≠ last
      . left
        have hl := hdiv.locked_eq.symm.trans hlocked'.1
        refine ⟨hres.2.1.symm.trans hl, rem, ?_⟩
        exact ChangeM.update_bind_error (resize_locked hlocked'.1 hlocked'.2) _
      . obtain ⟨res, htrim, hlen', hblocks', htrimmed, hpoly⟩ :=
          trim_spec hw hdiv.hasBlocks (by tauto) hlast'
        rw [ChangeM.update_bind htrim]
        have hp1 : poly vec'.toGF2Vec = coeffs vec1.blocks len1 := by
          rw [hres.poly, Nat.min_eq_left hlen1]
        obtain ⟨q, hq, -⟩ := hdiv.quot
        rw [hp1, ← hcoeffs] at hq
        have hrem : poly rem.toGF2Vec = coeffs rem.blocks vec'.len := by
          unfold poly
          rw [hdiv.len_eq]
        refine Or.inr (Or.inr ⟨fun hz => hm0 (hzero.mpr hz), last, res, rfl, hlen', hblocks',
          htrimmed, ⟨q, ?_⟩, ?_⟩)
        . rw [hpoly, hrem]
          exact hq
        . rw [hpoly, hcoeffs]
          exact degree_remainder_lt hm0 (hlast hm0) hk hdiv

end Reduce

section Quotrem

variable {vec1 vec2 : GF2Vec w} {len1 len2 m : Nat}

def DividesTo (vec1 : GF2Vec w) (len1 : Nat) (vec2 : GF2Vec w) (len2 : Nat) : Prop :=
  (coeffs vec2.blocks len2 = 0 → funcQuotremCoeffsGF2Vec vec1 len1 vec2 len2
    = .error (.quit "QuotremCoeffs: second argument must not be zero" 0 0))
  ∧ (coeffs vec2.blocks len2 ≠ 0 → ∃ (res : QuotRem w) (n : Nat),
    funcQuotremCoeffsGF2Vec vec1 len1 vec2 len2 = .ok res
      ∧ res.quotLen = n ∧ n ≤ res.quotBlocks.length * w ∧ res.remv.HasBlocks
      ∧ coeffs vec1.blocks len1
        = coeffs res.quotBlocks n * coeffs vec2.blocks len2 + poly res.remv
      ∧ (poly res.remv).degree < (coeffs vec2.blocks len2).degree)

theorem bitAt_replicate (n j : Nat) : bitAt (replicate n 0#w) j = false := by
  have h := @bitAt_append_zero w [] j n
  rw [nil_append] at h
  rw [h]
  unfold bitAt
  rw [getD_nil, BitVec.getLsbD_zero]

theorem newBlocks_natCast (hw : 0 < w) (n : Nat)
    : newBlocks (n : Int) = .ok (replicate ((n + w - 1) / w) 0#w) := by
  have hcast : ((n : Int) + w - 1).tdiv w = ((n + w - 1) / w : Nat) := by
    rw [show (n : Int) + w - 1 = ((n + w - 1 : Nat) : Int) by omega]
    rfl
  unfold newBlocks
  rw [hcast]
  dsimp only
  rw [if_neg (Int.not_lt.mpr (natCast_nonneg _)), toNat_natCast]
  rfl

theorem funcQuotrem_run (hw : 0 < w) (h1 : vec1.HasBlocks) (hlen1 : len1 ≤ vec1.len)
    (hlen2 : len2 ≤ vec2.len) (hright : rightMostOne vec2.blocks len2 = .ok m) (hm : m ≠ 0)
    : funcQuotremCoeffsGF2Vec vec1 len1 vec2 len2 = (do
        let quotv ← newBlocks ((len1 : Int) - m + 1)
        let (remv, quotv) ← reduceCoeffsGF2Vec
          { len := len1, blocks := vec1.blocks.take ((len1 + w - 1) / w), locked := false } vec2 m
          (some quotv)
        return {
          quotLen := (len1 : Int) - m + 1
          quotBlocks := quotv.getD []
          remv := remv.toGF2Vec }) := by
  unfold funcQuotremCoeffsGF2Vec
  rw [if_neg (by omega), if_neg (by omega)]
  dsimp only
  rw [hright, ok_bind, if_neg hm, if_neg (Nat.not_lt.mpr (ceilDiv_le hw (Nat.le_trans hlen1 h1)))]

variable (hw : 0 < w) (h1 : IsVector vec1)

include hw h1

theorem dividesTo_of_le (h2 : IsVector vec2) (hlen1 : len1 ≤ vec1.len) (hlen2 : len2 ≤ vec2.len)
    (hright : rightMostOne vec2.blocks len2 = .ok m) (hm2 : m ≤ len2)
    (hcoeffs : coeffs vec2.blocks len2 = coeffs vec2.blocks m) (hm : m ≠ 0)
    (hlast : bitAt vec2.blocks (m - 1) = true) (hle : m ≤ len1 + 1)
    : ∃ (res : QuotRem w) (n : Nat), funcQuotremCoeffsGF2Vec vec1 len1 vec2 len2 = .ok res
      ∧ res.quotLen = n ∧ n ≤ res.quotBlocks.length * w ∧ res.remv.HasBlocks
      ∧ coeffs vec1.blocks len1
        = coeffs res.quotBlocks n * coeffs vec2.blocks len2 + poly res.remv
      ∧ (poly res.remv).degree < (coeffs vec2.blocks len2).degree := by
  have hl1 := Nat.le_trans hlen1 h1.hasBlocks
  have hword := h1.word
  have hceil := ceilDiv_le hw hl1
  have hrem : ({ len := len1, blocks := vec1.blocks.take ((len1 + w - 1) / w), locked := false }
      : GF2Obj w).HasBlocks := by
    unfold GF2Vec.HasBlocks
    dsimp only
    rw [length_take, Nat.min_eq_left hceil]
    exact le_ceilDiv_mul hw len1
  have hp1 : poly { len := len1, blocks := vec1.blocks.take ((len1 + w - 1) / w) }
      = coeffs vec1.blocks len1 := by
    apply coeffs_congr
    intro j hj
    have hlt : j / w < (len1 + w - 1) / w :=
      div_lt_of_lt hw (Nat.lt_of_lt_of_le hj (le_ceilDiv_mul hw len1))
    unfold bitAt
    rw [getD_eq_getElem?_getD, getElem?_take, if_pos hlt, getD_eq_getElem?_getD]
  have hq : (len1 : Int) - m + 1 = (len1 + 1 - m : Nat) := by
    omega
  obtain ⟨remv, quotient', k, hrun, hk, hdiv⟩ := @reduceCoeffs_spec w vec2 m (len1 + 1 - m)
    { len := len1, blocks := vec1.blocks.take ((len1 + w - 1) / w), locked := false }
    (some (replicate ((len1 + 1 - m + w - 1) / w) 0#w)) hw hlast (Nat.pos_of_ne_zero hm)
    (Nat.le_trans hm2 (Nat.le_trans hlen2 h2.hasBlocks)) (show len1 < 2 ^ w by omega)
    (Nat.le_refl _) hrem (by
      intro qptr hsome
      obtain rfl := Option.some.inj hsome
      rw [length_replicate]
      exact ⟨le_ceilDiv_mul hw _, bitAt_replicate _⟩)
  obtain ⟨qptr, rfl⟩ := Option.isSome_iff_exists.mp hdiv.isSome_eq
  obtain ⟨q, hpoly, hquot⟩ := hdiv.quot
  obtain ⟨hn, hcq, -⟩ := hquot qptr rfl
  rw [funcQuotrem_run hw h1.hasBlocks hlen1 hlen2 hright hm, hq, newBlocks_natCast hw, ok_bind,
    hrun]
  refine ⟨_, len1 + 1 - m, rfl, rfl, hn, hdiv.hasBlocks, ?_, ?_⟩
  . rw [hp1] at hpoly
    have hremv : poly remv.toGF2Vec = coeffs remv.blocks len1 := by
      unfold poly
      rw [hdiv.len_eq]
    dsimp only [Option.getD_some]
    rw [hremv, hcq, hcoeffs]
    exact hpoly
  . rw [hcoeffs]
    exact degree_remainder_lt hm hlast hk hdiv

theorem quotLen_of_lt (hlen1 : len1 ≤ vec1.len) (hlen2 : len2 ≤ vec2.len)
    (hright : rightMostOne vec2.blocks len2 = .ok m) (hm : m ≠ 0) {res : QuotRem w}
    (hrun : funcQuotremCoeffsGF2Vec vec1 len1 vec2 len2 = .ok res)
    : res.quotLen = (len1 : Int) - m + 1 := by
  rw [funcQuotrem_run hw h1.hasBlocks hlen1 hlen2 hright hm] at hrun
  obtain ⟨quotv, -, hrun⟩ := of_bind_eq_ok hrun
  obtain ⟨⟨remv, quotient⟩, -, hrun⟩ := of_bind_eq_ok hrun
  cases hrun
  rfl

theorem dividesTo_iff (h2 : IsVector vec2) (hlen1 : len1 ≤ vec1.len) (hlen2 : len2 ≤ vec2.len)
    : DividesTo vec1 len1 vec2 len2 ↔ (coeffs vec2.blocks len2).natDegree ≤ len1 := by
  obtain ⟨m, hright, hm2, hcoeffs, hlast, hzero⟩ := divisor_spec hw h2 hlen2
  by_cases hm : m = 0
  . have hz := hzero.mp hm
    refine iff_of_true ⟨fun _ => ?_, fun hne => absurd hz hne⟩ (by rw [hz, natDegree_zero]; omega)
    unfold funcQuotremCoeffsGF2Vec
    rw [if_neg (by omega), if_neg (by omega)]
    dsimp only
    rw [hright, ok_bind, if_pos hm]
    rfl
  . have hne : coeffs vec2.blocks len2 ≠ 0 := fun hz => hm (hzero.mpr hz)
    have hdeg : (coeffs vec2.blocks len2).natDegree = m - 1 := by
      rw [hcoeffs]
      exact natDegree_eq_of_degree_eq_some (degree_coeffs (Nat.pos_of_ne_zero hm) (hlast hm))
    rw [hdeg]
    constructor
    . rintro ⟨-, hres⟩
      obtain ⟨res, n, hrun, hn, -⟩ := hres hne
      rw [quotLen_of_lt hw h1 hlen1 hlen2 hright hm hrun] at hn
      omega
    . intro hle
      refine ⟨fun hz => absurd hz hne, fun _ => ?_⟩
      exact dividesTo_of_le hw h1 h2 hlen1 hlen2 hright hm2 hcoeffs hm (hlast hm) (by omega)

end Quotrem

section Main

variable {vec1 : GF2Obj w} {vec2 : GF2Vec w}

end Main

end GF2Impl
