import GapKernel.VecGF2.Impl.Matrix
import GapKernel.VecGF2.Lemmas.Coeffs
import GapKernel.VecGF2.Lemmas.Spec

open BitBlocks GF2Vec GF2Mat List Nat Option

namespace GF2Impl

variable {w : Nat}

section Shifts

def IsShifted (row : List (BitVec w)) (s n : Nat) (data : List (BitVec w)) : Prop :=
  ∀ t, t < n → bitAt data t = (decide (s ≤ t) && bitAt row (t - s))

variable {row data : List (BitVec w)} {x : BitVec w} {k n s : Nat}

theorem isShifted_set (h : IsShifted row s (w * k) data) (hk : k < data.length)
    (hx : ∀ u, u < w → x.getLsbD u = (decide (s ≤ w * k + u) && bitAt row (w * k + u - s)))
    : IsShifted row s (w * (k + 1)) (data.set k x) := by
  intro t ht
  have hw : 0 < w := by
    apply Nat.pos_of_ne_zero
    rintro rfl
    omega
  have hdm := div_add_mod t w
  rw [bitAt_set hk]
  split
  next hdiv =>
    rw [hx _ (mod_lt t hw), ← hdiv, hdm]
  next hdiv =>
    apply h
    have hle : t / w < k + 1 := (Nat.div_lt_iff_lt_mul hw).mpr (by rw [Nat.mul_comm]; exact ht)
    rw [Nat.mul_comm]
    apply (Nat.div_lt_iff_lt_mul hw).mp
    omega

theorem getLsbD_or_shifts {u : Nat} (hk : 0 < k) (hs : 0 < s) (hsw : s < w) (hu : u < w)
    : (row.getD k 0#w <<< s ||| row.getD (k - 1) 0#w >>> (w - s)).getLsbD u
        = bitAt row (w * k + u - s) := by
  obtain ⟨k, rfl⟩ := Nat.exists_eq_add_of_le' hk
  rw [Nat.add_sub_cancel, BitVec.getLsbD_or, BitVec.getLsbD_shiftLeft, BitVec.getLsbD_ushiftRight,
    decide_eq_true hu, Bool.true_and]
  by_cases hle : s ≤ u
  . rw [BitVec.getLsbD_of_ge (row.getD k 0#w) (w - s + u) (by omega), decide_eq_false (by omega),
      Nat.add_sub_assoc hle, bitAt_mul_add (by omega)]
    simp
  . rw [decide_eq_true (by omega), show w * (k + 1) + u - s = w * k + (w - s + u) by
      rw [mul_succ]; omega, bitAt_mul_add (by omega)]
    simp

end Shifts

section Copies

variable {row : GF2Vec w} {n : Nat}

theorem bitAt_of_valid (h : row.Valid n) {j : Nat} (hj : n ≤ j) : bitAt row.blocks j = false :=
  zbit_injective (h.zero j hj)

variable (hw : 0 < w) (h : row.Valid n)

include hw h

theorem copyRow_spec {data : List (BitVec w)} (hlen : (n + w - 1) / w < data.length)
    : ∃ data', copyRow row n data = .ok data' ∧ data'.length = data.length
        ∧ IsShifted row.blocks 0 (w * ((n + w - 1) / w + 1)) data' := by
  have hct := ceilDiv_le hw h.enough
  have hceil := le_ceilDiv_mul hw n
  unfold copyRow
  apply exists_bind_of (P := fun data' : List (BitVec w) => data'.length = data.length
    ∧ IsShifted row.blocks 0 (w * ((n + w - 1) / w)) data')
  . apply forLoop_of_inv (fun k data' => data'.length = data.length
      ∧ IsShifted row.blocks 0 (w * k) data')
    . exact ⟨rfl, fun t ht => by omega⟩
    . rintro k data' _ hk ⟨hdata, hbits⟩
      rw [readAt_of_lt (by omega) 0#w, ok_bind, writeAt_of_lt (by omega)]
      refine ⟨_, rfl, by rw [length_set, hdata], isShifted_set hbits (by omega) ?_⟩
      intro u hu
      rw [decide_eq_true (Nat.zero_le _), Bool.true_and, Nat.sub_zero, bitAt_mul_add hu]
    . intro data' hdata
      rw [Nat.zero_add] at hdata
      exact hdata
  . rintro data' ⟨hdata, hbits⟩
    rw [writeAt_of_lt (by omega)]
    refine ⟨_, rfl, by rw [length_set, hdata], isShifted_set hbits (by omega) ?_⟩
    intro u hu
    rw [bitAt_of_valid h (by rw [Nat.mul_comm w]; omega)]
    simp

theorem shiftRow_spec (data : List (BitVec w)) {i : Nat} (hi : 0 < i) (hiw : i < w)
    (hne : row.blocks ≠ []) (hlen : (n + w - 1) / w + 1 < data.length)
    : ∃ data', shiftRow row n i data = .ok data' ∧ data'.length = data.length
        ∧ IsShifted row.blocks i (w * ((n + w - 1) / w + 1)) data' := by
  have hct := ceilDiv_le hw h.enough
  have hceil := le_ceilDiv_mul hw n
  have hpos := length_pos_of_ne_nil hne
  unfold shiftRow
  generalize (n + w - 1) / w = k at hct hceil hlen ⊢
  have hk : max 1 k - 1 < row.blocks.length := by
    omega
  have hfirst : IsShifted row.blocks i (w * 1) (data.set 0 (row.blocks.getD 0 0#w <<< i)) := by
    apply isShifted_set
    . intro t ht
      omega
    . omega
    . intro u hu
      rw [BitVec.getLsbD_shiftLeft, decide_eq_true hu, Bool.true_and, Nat.mul_zero, Nat.zero_add]
      by_cases hle : i ≤ u
      . have : bitAt row.blocks (w * 0 + (u - i)) = (row.blocks.getD 0 0#w).getLsbD (u - i) :=
          bitAt_mul_add (by omega)
        rw [Nat.mul_zero, Nat.zero_add] at this
        rw [this, decide_eq_true hle, decide_eq_false (by omega)]
        rfl
      . rw [decide_eq_false hle, decide_eq_true (by omega)]
        rfl
  rw [readAt_of_lt hpos 0#w, ok_bind]
  unfold shlWord shrWord
  rw [if_pos hiw, pure_bind, writeAt_of_lt (by omega), ok_bind]
  apply exists_bind_of (P := fun data' : List (BitVec w) => data'.length = data.length
    ∧ IsShifted row.blocks i (w * max 1 k) data')
  . apply forLoop_of_inv (fun j data' => data'.length = data.length
      ∧ IsShifted row.blocks i (w * j) data')
    . exact ⟨length_set, hfirst⟩
    . rintro j data' hj hjk ⟨hdata, hbits⟩
      rw [readAt_of_lt (by omega) 0#w, ok_bind, readAt_of_lt (by omega) 0#w, ok_bind,
        if_pos hiw, pure_bind, if_pos (by omega), pure_bind, writeAt_of_lt (by omega)]
      refine ⟨_, rfl, by rw [length_set, hdata], isShifted_set hbits (by omega) ?_⟩
      intro u hu
      have hmul : w ≤ w * j := Nat.le_mul_of_pos_right w hj
      rw [getLsbD_or_shifts hj hi hiw hu, decide_eq_true (by omega), Bool.true_and]
    . intro data' hdata
      rw [show 1 + (k - 1) = max 1 k by omega] at hdata
      exact hdata
  . rintro data' ⟨hdata, hbits⟩
    have hk1 := Nat.le_max_left 1 k
    have hk2 := Nat.le_max_right 1 k
    have hmax := Nat.max_le.mpr ⟨(by omega : 1 ≤ k + 1), le_succ k⟩
    generalize max 1 k = m at hbits hk hk1 hk2 hmax ⊢
    dsimp only
    rw [readAt_of_lt hk 0#w, ok_bind, if_pos (by omega), pure_bind, writeAt_of_lt (by omega)]
    refine ⟨_, rfl, by rw [length_set, hdata], ?_⟩
    have hlast : IsShifted row.blocks i (w * (m + 1))
        (data'.set m (row.blocks.getD (m - 1) 0#w >>> (w - i))) := by
      apply isShifted_set hbits (by omega)
      intro u hu
      have hmul : w ≤ w * m := Nat.le_mul_of_pos_right w hk1
      have hkm := Nat.mul_le_mul_left w hk2
      have hzero : (row.blocks.getD m 0#w <<< i).getLsbD u = false := by
        rw [BitVec.getLsbD_shiftLeft, ← bitAt_mul_add (show u - i < w by omega),
          bitAt_of_valid h (by rw [Nat.mul_comm k w] at hceil; omega), Bool.and_false]
      rw [decide_eq_true (by omega), Bool.true_and, ← getLsbD_or_shifts hk1 hi hiw hu,
        BitVec.getLsbD_or, hzero, Bool.false_or]
    intro t ht
    apply hlast
    have := Nat.mul_le_mul_left w hk2
    rw [mul_succ] at ht ⊢
    omega

def IsShifts (row : List (BitVec w)) (n : Nat) (shift : List (List (BitVec w))) : Prop :=
  ∀ s, s < w → (n + w - 1) / w + 1 < (shift.getD s []).length
    ∧ IsShifted row s (w * ((n + w - 1) / w + 1)) (shift.getD s [])

theorem shiftRows_spec {shift : List (List (BitVec w))} {size : Nat} (hne : row.blocks ≠ [])
    (hsize : (n + w - 1) / w + 1 < size) (hlen : shift.length = w)
    (hshift : ∀ s, s < w → (shift.getD s []).length = size)
    : ∃ shift', shiftRows row n shift = .ok shift' ∧ shift'.length = w
        ∧ (∀ s, s < w → (shift'.getD s []).length = size) ∧ IsShifts row.blocks n shift' := by
  obtain ⟨data, hcopy, hdata, hbits⟩ := copyRow_spec hw h
    (show (n + w - 1) / w < (shift.getD 0 []).length by rw [hshift 0 hw]; omega)
  rw [hshift 0 hw] at hdata
  unfold shiftRows
  rw [readAt_of_lt (by omega) [], ok_bind, hcopy, ok_bind, writeAt_of_lt (by omega), ok_bind]
  apply forLoop_of_inv (fun i shift' => shift'.length = w
    ∧ ∀ s, s < w → (shift'.getD s []).length = size
      ∧ (s < i → IsShifted row.blocks s (w * ((n + w - 1) / w + 1)) (shift'.getD s [])))
  . refine ⟨by rw [length_set, hlen], fun s hs => ?_⟩
    rw [getD_set (by omega)]
    split
    next heq =>
      rw [heq]
      exact ⟨hdata, fun _ => hbits⟩
    next hne => exact ⟨hshift s hs, fun _ => by omega⟩
  . rintro i shift' hi hiw ⟨hlen', hshift'⟩
    obtain ⟨data', hrun, hdata', hbits'⟩ := shiftRow_spec hw h (shift'.getD i []) hi
      (by omega) hne (by rw [(hshift' i (by omega)).1]; exact hsize)
    rw [(hshift' i (by omega)).1] at hdata'
    rw [readAt_of_lt (by omega) [], ok_bind, hrun, ok_bind, writeAt_of_lt (by omega)]
    refine ⟨_, rfl, by rw [length_set, hlen'], fun s hs => ?_⟩
    rw [getD_set (by omega)]
    split
    next heq =>
      rw [heq]
      exact ⟨hdata', fun _ => hbits'⟩
    next hne => exact ⟨(hshift' s hs).1, fun hlt => (hshift' s hs).2 (by omega)⟩
  . rintro shift' ⟨hlen', hshift'⟩
    refine ⟨hlen', fun s hs => (hshift' s hs).1, fun s hs => ⟨?_, (hshift' s hs).2 (by omega)⟩⟩
    rw [(hshift' s hs).1]
    exact hsize

end Copies

section Append

variable {datar data : List (BitVec w)} {ncolr b p q l : Nat}

theorem writeAt_eq_xorAt {x : BitVec w} (hp : p < data.length) (hzero : data.getD p 0#w = 0#w)
    : writeAt data p x = xorAt data p x := by
  unfold xorAt
  rw [readAt_of_lt hp 0#w, ok_bind, hzero, BitVec.zero_xor]

theorem getD_eq_zero (h : ∀ j, w * p ≤ j → bitAt data j = false) : data.getD p 0#w = 0#w := by
  apply BitVec.eq_of_getLsbD_eq
  intro u hu
  rw [← bitAt_mul_add hu, h _ (Nat.le_add_right _ _), BitVec.getLsbD_zero]

theorem copyBlock_spec (hw : 0 < w) (hp : p < data.length) (hbq : p = b + q)
    (hzero : ∀ j, w * p ≤ j → bitAt data j = false) (datar : List (BitVec w))
    : ∃ data', writeAt data p (datar.getD q 0#w) = .ok data'
        ∧ AddsBits data datar (w * b) (w * q) (w * (q + 1)) data' := by
  rw [writeAt_eq_xorAt hp (getD_eq_zero hzero), ← BitVec.shiftLeft_zero (x := datar.getD q 0#w)]
  have heq : w * b + w * q = w * p + 0 := by
    rw [hbq, Nat.mul_add, Nat.add_zero]
  obtain ⟨data', hrun, hadds⟩ := xorAt_left (hasBits_getD q) hp hw heq
  rw [Nat.sub_zero, Nat.min_self] at hadds
  exact ⟨data', hrun, hadds⟩

theorem copyBlocks_spec (hw : 0 < w) (datar : List (BitVec w)) {m : Nat}
    (hm : (ncolr - l + w - 1) / w = m)
    (hp : p + m ≤ data.length) (hq : q + m ≤ datar.length) (hbq : p = b + q)
    (hzero : ∀ j, w * p ≤ j → bitAt data j = false)
    : ∃ data', copyBlocks datar ncolr l data p q = .ok (data', p + m, q + m)
        ∧ AddsBits data datar (w * b) (w * q) (w * (q + m)) data' := by
  have hceil := le_ceilDiv_mul hw (ncolr - l)
  rw [hm] at hceil
  have hend : ∀ j, ncolr ≤ l + w * j → m ≤ j := by
    intro j hj
    rw [← hm]
    apply ceilDiv_le hw
    rw [Nat.mul_comm]
    omega
  obtain ⟨⟨data', p', q'⟩, hrun, hp', hq', hadds⟩ : ∃ res,
      copyBlocks datar ncolr l data p q = .ok res ∧ res.2.1 = p + m ∧ res.2.2 = q + m
      ∧ AddsBits data datar (w * b) (w * q) (w * (q + m)) res.1 := by
    unfold copyBlocks
    apply stepLoop_of_inv (fun i s => ∃ c, i = l + w * c ∧ c ≤ m ∧ s.2.1 = p + c ∧ s.2.2 = q + c
      ∧ AddsBits data datar (w * b) (w * q) (w * (q + c)) s.1) hw
    . omega
    . exact ⟨0, by omega, Nat.zero_le _, rfl, rfl, addsBits_self (Nat.le_refl _)⟩
    . rintro i ⟨data1, p1, q1⟩ _ hlt ⟨c, rfl, hcm, hp1, hq1, hadds⟩
      dsimp only at hp1 hq1 hadds ⊢
      have hc : c < m := by
        apply Nat.lt_of_mul_lt_mul_left (a := w)
        rw [Nat.mul_comm w m]
        omega
      obtain ⟨data2, hwrite, hadds2⟩ := copyBlock_spec hw
        (show p1 < data1.length by rw [hadds.1]; omega) (show p1 = b + q1 by omega) (by
          intro j hj
          have hle := (Nat.mul_le_mul_left w (show p ≤ p1 by omega)).trans hj
          rw [hp1, hbq, Nat.add_assoc, Nat.mul_add] at hj
          rw [hadds.2, hzero j hle, decide_eq_false (by omega)]
          rfl) datar
      rw [readAt_of_lt (by omega) 0#w, ok_bind, hwrite, ok_bind]
      rw [hq1] at hadds2
      refine ⟨_, rfl, c + 1, by rw [mul_succ]; omega, hc, ?_, ?_, ?_⟩
      . rw [hp1]
        rfl
      . rw [hq1]
        rfl
      exact hadds.trans hadds2 (Nat.mul_le_mul_left w (Nat.le_add_right q c))
        (Nat.mul_le_mul_left w (le_succ _))
    . rintro i ⟨data1, p1, q1⟩ hge ⟨c, rfl, hcm, hp1, hq1, hadds⟩
      have hcm : c = m := Nat.le_antisymm hcm (hend c hge)
      rw [hcm] at hp1 hq1 hadds
      exact ⟨hp1, hq1, hadds⟩
  dsimp only at hp' hq' hadds
  rw [hp', hq'] at hrun
  exact ⟨data', hrun, hadds⟩

theorem ceilDiv_add (hw : 0 < w) (ncol ncolr : Nat)
    : (ncol + w - 1) / w + (ncolr + w - 1 - if ncol % w ≠ 0 then w - ncol % w else 0) / w
        = (ncol + ncolr + w - 1) / w := by
  have hdm := div_add_mod ncol w
  have hlt := mod_lt ncol hw
  generalize ncol / w = b at hdm
  generalize ncol % w = s at hdm hlt
  subst hdm
  split
  next hne =>
    rw [show w * b + s + w - 1 = s - 1 + w * (b + 1) by rw [mul_succ]; omega,
      show w * b + s + ncolr + w - 1 = ncolr + w - 1 - (w - s) + w * (b + 1) by
        rw [mul_succ]; omega,
      add_mul_div_left _ _ hw, add_mul_div_left _ _ hw, div_eq_of_lt (by omega)]
    omega
  next heq =>
    rw [show w * b + s + w - 1 = w - 1 + w * b by omega,
      show w * b + s + ncolr + w - 1 = ncolr + w - 1 - 0 + w * b by omega,
      add_mul_div_left _ _ hw, add_mul_div_left _ _ hw, div_eq_of_lt (by omega)]
    omega

theorem ceilDiv_sub (hw : 0 < w) (ncolr l : Nat)
    : (ncolr - l + w - 1) / w = (ncolr + w - 1 - l) / w := by
  by_cases hle : l ≤ ncolr
  . congr 1
    omega
  . rw [div_eq_of_lt (by omega), div_eq_of_lt (by omega)]

theorem addsBits_row {row : GF2Vec w} {data' : List (BitVec w)} {c m s : Nat}
    (hrow : row.Valid ncolr) (hdatar : IsShifted row.blocks s m datar) (hc : w * c ≤ m)
    (hs : s + ncolr ≤ w * c) (h : AddsBits data datar (w * b) 0 (w * c) data')
    : AddsBits data row.blocks (w * b + s) 0 ncolr data' := by
  refine ⟨h.1, fun j => ?_⟩
  rw [h.2, Nat.add_zero, Nat.add_zero]
  congr 1
  by_cases hj : w * b ≤ j ∧ j < w * b + w * c
  . rw [decide_eq_true hj, Bool.true_and, hdatar _ (by omega), Nat.sub_sub]
    by_cases hle : w * b + s ≤ j
    . rw [decide_eq_true (by omega), Bool.true_and]
      by_cases hlt : j < w * b + s + ncolr
      . rw [decide_eq_true ⟨hle, hlt⟩, Bool.true_and]
      . rw [decide_eq_false (by omega), Bool.false_and, bitAt_of_valid hrow (by omega)]
    . rw [decide_eq_false (by omega), decide_eq_false (by omega), Bool.false_and]
  . rw [decide_eq_false hj, decide_eq_false (by omega), Bool.false_and, Bool.false_and]

theorem appendShift_spec (hw : 0 < w) {row : GF2Vec w} {ncol : Nat} (hrow : row.Valid ncolr)
    (hdatar : IsShifted row.blocks (ncol % w) (w * ((ncolr + w - 1) / w + 1)) datar)
    (hq : (ncolr + w - 1) / w + 1 < datar.length)
    (hp : (ncol + ncolr + w - 1) / w ≤ data.length)
    (hzero : ∀ j, ncol ≤ j → bitAt data j = false)
    : ∃ data', appendShift datar ncolr ncol data ((ncol + w - 1) / w)
          = .ok (data', (ncol + ncolr + w - 1) / w)
        ∧ AddsBits data row.blocks ncol 0 ncolr data' := by
  have hadd := ceilDiv_add hw ncol ncolr
  have hceil := le_ceilDiv_mul hw ncolr
  have hdm := div_add_mod ncol w
  have hlt := mod_lt ncol hw
  unfold appendShift
  generalize hk : (ncolr + w - 1) / w = k at hdatar hq hadd hceil
  generalize hb : ncol / w = b at hdm
  generalize ncol % w = s at hdatar hdm hlt hadd ⊢
  subst hdm
  split
  next hne =>
    rw [if_pos hne, ← ceilDiv_sub hw] at hadd
    have hb1 : (w * b + s + w - 1) / w = b + 1 := by
      rw [show w * b + s + w - 1 = s - 1 + w * (b + 1) by rw [mul_succ]; omega,
        add_mul_div_left _ _ hw, div_eq_of_lt (by omega), Nat.zero_add]
    have hle : (ncolr - (w - s) + w - 1) / w ≤ k := by
      rw [← hk]
      exact Nat.div_le_div_right (by omega)
    have hceil2 := le_ceilDiv_mul hw (ncolr - (w - s))
    generalize hm : (ncolr - (w - s) + w - 1) / w = m at hadd hle hceil2
    rw [hb1] at hadd ⊢
    rw [if_neg (succ_ne_zero b)]
    dsimp only
    rw [readAt_of_lt (by omega) 0#w, ok_bind,
      Nat.add_sub_cancel, ← BitVec.shiftLeft_zero (x := datar.getD 0 0#w)]
    have heq : w * b + w * 0 = w * b + 0 := rfl
    obtain ⟨data1, hrun1, hadds1⟩ := xorAt_left (hasBits_getD 0) (show b < data.length by omega) hw
      heq
    rw [Nat.sub_zero, Nat.min_self, Nat.mul_zero, Nat.zero_add] at hadds1
    obtain ⟨data', hrun, hadds⟩ := copyBlocks_spec hw datar hm
      (show b + 1 + m ≤ data1.length by rw [hadds1.1]; omega)
      (show 1 + m ≤ datar.length by omega) rfl (by
        intro j hj
        rw [mul_succ] at hj
        rw [hadds1.2, hzero j (by omega), decide_eq_false (by omega)]
        rfl)
    rw [hrun1, ok_bind, hrun, ok_bind, hadd]
    refine ⟨data', rfl, ?_⟩
    rw [Nat.mul_one] at hadds
    refine addsBits_row hrow hdatar (Nat.mul_le_mul_left w (by omega : 1 + m ≤ k + 1)) ?_
      (hadds1.trans hadds (Nat.zero_le _) ?_)
    . rw [Nat.mul_add, Nat.mul_comm w m]
      omega
    . exact Nat.le_mul_of_pos_right w (by omega)
  next heq =>
    have hb0 : (w * b + s + w - 1) / w = b := by
      rw [show w * b + s + w - 1 = w - 1 + w * b by omega, add_mul_div_left _ _ hw,
        div_eq_of_lt (by omega), Nat.zero_add]
    rw [if_neg heq, Nat.sub_zero, hk, hb0] at hadd
    rw [hb0]
    have hk0 : (ncolr - 0 + w - 1) / w = k := hk
    obtain ⟨data', hrun, hadds⟩ := copyBlocks_spec hw datar hk0
      (show b + k ≤ data.length by omega) (show 0 + k ≤ datar.length by omega) rfl
      (fun j hj => hzero j (by omega))
    rw [hrun, ok_bind, hadd]
    refine ⟨data', rfl, ?_⟩
    rw [Nat.mul_zero, Nat.zero_add] at hadds
    exact addsBits_row hrow hdatar (Nat.mul_le_mul_left w (le_succ k))
      (by rw [Nat.mul_comm w k]; omega) hadds

end Append

section Rows

variable {rowl rowr : GF2Vec w} {shift : List (List (BitVec w))} {ncoll ncolr : Nat}
  (hw : 0 < w) (hrowl : rowl.Valid ncoll) (hrowr : rowr.Valid ncolr) (hlen : shift.length = w)
  (hshift : IsShifts rowr.blocks ncolr shift)

include hw hrowl hrowr hlen hshift

theorem kroneckerEntry_spec {data : List (BitVec w)} {k : Nat} (ncol : Nat) (hk : k < ncoll)
    (hp : (ncol + ncolr + w - 1) / w ≤ data.length) (hzero : ∀ j, ncol ≤ j → bitAt data j = false)
    : ∃ data', kroneckerEntry rowl shift ncolr (k + 1) (data, (ncol + w - 1) / w, ncol)
          = .ok (data', (ncol + ncolr + w - 1) / w, ncol + ncolr)
        ∧ data'.length = data.length
        ∧ ∀ j, bitAt data' j = (bitAt data j ^^ (decide (ncol ≤ j ∧ j < ncol + ncolr)
          && (bitAt rowl.blocks k && bitAt rowr.blocks (j - ncol)))) := by
  have hkb : k / w < rowl.blocks.length :=
    div_lt_of_lt hw (Nat.lt_of_lt_of_le hk hrowl.enough)
  have hs := mod_lt ncol hw
  have hbit : (rowl.blocks.getD (k / w) 0#w &&& 1#w <<< (k % w) ≠ 0#w)
      ↔ bitAt rowl.blocks k = true :=
    and_bit_ne_zero (mod_lt k hw)
  unfold kroneckerEntry
  dsimp only
  rw [Nat.add_sub_cancel, readAt_of_lt hkb 0#w, ok_bind]
  unfold shlWord
  rw [if_pos (mod_lt k hw), pure_bind]
  split
  next hne =>
    rw [hbit] at hne
    obtain ⟨data', hrun, hadds⟩ := appendShift_spec hw hrowr (hshift _ hs).2 (hshift _ hs).1 hp
      hzero
    rw [readAt_of_lt (by omega) [], ok_bind, hrun, ok_bind]
    refine ⟨data', rfl, hadds.1, fun j => ?_⟩
    rw [hadds.2, hne, Bool.true_and, Nat.add_zero]
  next heq =>
    rw [hbit, Bool.not_eq_true] at heq
    refine ⟨data, ?_, rfl, fun j => ?_⟩
    . rw [ceilDiv_add hw]
      rfl
    . rw [heq, Bool.false_and, Bool.and_false, Bool.xor_false]

def IsKroneckerRow (rowl rowr : GF2Vec w) (ncoll ncolr : Nat) (row : GF2Vec w) : Prop :=
  row.len = ncoll * ncolr ∧ row.blocks.length = row.numberBlocks
    ∧ ∀ j, bitAt row.blocks j = (decide (j < ncoll * ncolr)
      && (bitAt rowl.blocks (j / ncolr) && bitAt rowr.blocks (j % ncolr)))

theorem kroneckerRow_spec
    : ∃ row, kroneckerRow rowl shift ncoll ncolr (GF2Vec.new (ncoll * ncolr)) = .ok row
        ∧ IsKroneckerRow rowl rowr ncoll ncolr row := by
  unfold kroneckerRow
  apply exists_bind_of (P := fun s : List (BitVec w) × Nat × Nat =>
    s.1.length = (ncoll * ncolr + w - 1) / w
    ∧ ∀ j, bitAt s.1 j = (decide (j < ncoll * ncolr)
      && (bitAt rowl.blocks (j / ncolr) && bitAt rowr.blocks (j % ncolr))))
  . apply forLoop_of_inv (fun k s => s.2.1 = ((k - 1) * ncolr + w - 1) / w ∧ s.2.2 = (k - 1) * ncolr
      ∧ s.1.length = (ncoll * ncolr + w - 1) / w
      ∧ ∀ j, bitAt s.1 j = (decide (j < (k - 1) * ncolr)
        && (bitAt rowl.blocks (j / ncolr) && bitAt rowr.blocks (j % ncolr))))
    . refine ⟨?_, ?_, length_replicate, fun j => ?_⟩
      . rw [Nat.sub_self, Nat.zero_mul, Nat.zero_add, div_eq_of_lt (by omega)]
      . rw [Nat.sub_self, Nat.zero_mul]
      . rw [Nat.sub_self, Nat.zero_mul, decide_eq_false (Nat.not_lt_zero j), Bool.false_and]
        exact zbit_injective (bitZ_replicate _ j)
    . rintro k ⟨data, p, ncol⟩ hk1 hk ⟨hp, hncol, hdata, hbits⟩
      obtain ⟨k, rfl⟩ := Nat.exists_eq_add_of_le' hk1
      dsimp only at hp hncol hdata hbits
      rw [Nat.add_sub_cancel] at hp hncol hbits
      have hmul : k * ncolr + ncolr ≤ ncoll * ncolr := by
        rw [← succ_mul]
        exact Nat.mul_le_mul_right ncolr (by omega)
      obtain ⟨data', hrun, hdata', hbits'⟩ := kroneckerEntry_spec hw hrowl hrowr hlen hshift
        (k * ncolr) (show k < ncoll by omega)
        (show (k * ncolr + ncolr + w - 1) / w ≤ data.length by
          rw [hdata]
          exact Nat.div_le_div_right (by omega)) (by
          intro j hj
          rw [hbits, decide_eq_false (by omega), Bool.false_and])
      rw [hp, hncol]
      refine ⟨_, hrun, ?_, ?_, hdata'.trans hdata, fun j => ?_⟩
      . rw [Nat.add_sub_cancel, succ_mul]
      . rw [Nat.add_sub_cancel, succ_mul]
      . rw [hbits', hbits, Nat.add_sub_cancel, succ_mul]
        by_cases hj : k * ncolr ≤ j ∧ j < k * ncolr + ncolr
        . rw [decide_eq_false (by omega), decide_eq_true hj, decide_eq_true hj.2]
          obtain ⟨l, rfl⟩ := Nat.exists_eq_add_of_le' hj.1
          have hl : l < ncolr := by
            omega
          rw [Nat.add_sub_cancel, add_mul_div_right _ _ (by omega), div_eq_of_lt hl,
            add_mul_mod_self_right, mod_eq_of_lt hl, Nat.zero_add, Bool.false_and,
            Bool.false_xor]
        . rw [decide_eq_false hj, Bool.false_and, Bool.xor_false]
          congr 1
          rw [decide_eq_decide]
          omega
    . rintro ⟨data, p, ncol⟩ ⟨_, _, hdata, hbits⟩
      rw [Nat.add_sub_cancel_left] at hbits
      exact ⟨hdata, hbits⟩
  . rintro ⟨data, p, ncol⟩ ⟨hdata, hbits⟩
    exact ⟨_, rfl, rfl, hdata, hbits⟩

end Rows

section Matrix

def HasRows (matl matr : GF2Mat w) (nrowl ncoll nrowr ncolr : Nat) (P : Nat → Nat → Prop)
    (rows : List (GF2Vec w)) : Prop :=
  rows.length = nrowl * nrowr ∧ ∀ i j, i < nrowl → j < nrowr →
    (P i j → IsKroneckerRow (matl.rows.getD i (GF2Vec.new 0)) (matr.rows.getD j (GF2Vec.new 0))
      ncoll ncolr (rows.getD (i * nrowr + j) (GF2Vec.new 0)))
    ∧ (¬P i j → rows.getD (i * nrowr + j) (GF2Vec.new 0) = GF2Vec.new (ncoll * ncolr))

variable {j : Nat}

theorem index_lt {i m n : Nat} (hi : i < m) (hj : j < n) : i * n + j < m * n := by
  have := Nat.mul_le_mul_right n (succ_le_of_lt hi)
  rw [succ_mul] at this
  omega

theorem index_inj {i i' j' n : Nat} (hj : j < n) (hj' : j' < n) (h : i * n + j = i' * n + j')
    : i = i' ∧ j = j' := by
  have hdiv := congrArg (· / n) h
  have hmod := congrArg (· % n) h
  rw [Nat.mul_comm i, Nat.mul_comm i', mul_add_div (by omega), mul_add_div (by omega),
    div_eq_of_lt hj, div_eq_of_lt hj'] at hdiv
  rw [Nat.mul_comm i, Nat.mul_comm i', mul_add_mod, mul_add_mod, mod_eq_of_lt hj,
    mod_eq_of_lt hj'] at hmod
  exact ⟨hdiv, hmod⟩

variable {matl matr : GF2Mat w} {nrowl ncoll nrowr ncolr : Nat} (hw : 0 < w)
  (hl : matl.Valid nrowl ncoll) (hr : matr.Valid nrowr ncolr)

include hw hl hr

theorem kroneckerRows_spec {shift : List (List (BitVec w))} {rows : List (GF2Vec w)}
    (hj : j < nrowr) (hlen : shift.length = w)
    (hshift : IsShifts (matr.rows.getD j (GF2Vec.new 0)).blocks ncolr shift)
    (hrows : HasRows matl matr nrowl ncoll nrowr ncolr (fun _ j' => j' < j) rows)
    : ∃ rows', kroneckerRows matl shift nrowr ncoll ncolr (j + 1) rows = .ok rows'
        ∧ HasRows matl matr nrowl ncoll nrowr ncolr (fun _ j' => j' < j + 1) rows' := by
  unfold kroneckerRows
  apply forLoop_of_inv (fun i rows' => HasRows matl matr nrowl ncoll nrowr ncolr
    (fun i' j' => j' < j ∨ j' = j ∧ i' < i - 1) rows')
  . refine ⟨hrows.1, fun i' j' hi' hj' => ?_⟩
    have := hrows.2 i' j' hi' hj'
    refine ⟨fun h => this.1 (by omega), fun h => this.2 (by omega)⟩
  . rintro i rows' hi1 hi ⟨hlen', hrows'⟩
    obtain ⟨i, rfl⟩ := Nat.exists_eq_add_of_le' hi1
    have hil : i < nrowl := by
      have := hl.length_eq
      unfold GF2Mat.len at hi
      omega
    obtain ⟨row, hrun, hrow⟩ := kroneckerRow_spec hw (hl.getD hil) (hr.getD hj) hlen hshift
    have hidx := index_lt hil hj
    rw [Nat.add_sub_cancel, show i * nrowr + (j + 1) - 1 = i * nrowr + j by omega,
      readAt_of_lt (by omega) (GF2Vec.new 0), ok_bind, hl.elm hil, ok_bind,
      (hrows' i j hil hj).2 (by omega), hrun, ok_bind, writeAt_of_lt (by omega)]
    refine ⟨_, rfl, by rw [length_set, hlen'], fun i' j' hi' hj' => ?_⟩
    rw [Nat.add_sub_cancel, getD_set (by omega)]
    split
    next heq =>
      obtain ⟨rfl, rfl⟩ := index_inj hj' hj heq
      exact ⟨fun _ => hrow, fun h => absurd (Or.inr ⟨rfl, lt_succ_self i'⟩) h⟩
    next hne =>
      have hold := hrows' i' j' hi' hj'
      rw [Nat.add_sub_cancel] at hold
      have hij : ¬(j' = j ∧ i' = i) := by
        rintro ⟨rfl, rfl⟩
        exact hne rfl
      exact ⟨fun h => hold.1 (by omega), fun h => hold.2 (by omega)⟩
  . rintro rows' ⟨hlen', hrows'⟩
    refine ⟨hlen', fun i' j' hi' hj' => ?_⟩
    have hold := hrows' i' j' hi' hj'
    have hlen := hl.length_eq
    unfold GF2Mat.len at hold
    exact ⟨fun h => hold.1 (by omega), fun h => hold.2 (by omega)⟩

theorem funcKroneckerProduct_spec (hlpos : 0 < nrowl) (hrpos : 0 < nrowr)
    (hne : ∀ v ∈ matr.rows, v.blocks ≠ []) (hrows : nrowl * nrowr < 2 ^ w)
    (hcols : ncoll * ncolr < 2 ^ w)
    : ∃ mat, funcKroneckerProductGF2MatGF2Mat matl matr = .ok mat
        ∧ HasRows matl matr nrowl ncoll nrowr ncolr (fun _ _ => True) mat.rows := by
  have hl1 := hl.elm hlpos
  have hr1 := hr.elm hrpos
  rw [Nat.zero_add] at hl1 hr1
  unfold funcKroneckerProductGF2MatGF2Mat
  rw [hl1, ok_bind, hr1, ok_bind, (hl.getD hlpos).len_eq, (hr.getD hrpos).len_eq]
  unfold GF2Mat.len
  dsimp only
  rw [hl.length_eq, hr.length_eq, mod_eq_of_lt hrows, mod_eq_of_lt hcols]
  generalize hsize : 2 + (ncolr + 2 * w + w - 1) / w = size
  have hk : (ncolr + w - 1) / w + 1 < size := by
    rw [← hsize]
    have : (ncolr + w - 1) / w ≤ (ncolr + 2 * w + w - 1) / w := Nat.div_le_div_right (by omega)
    omega
  apply exists_bind_of (P := fun s : List (GF2Vec w) × List (List (BitVec w)) =>
    HasRows matl matr nrowl ncoll nrowr ncolr (fun _ _ => True) s.1)
  . apply forLoop_of_inv (fun j s => s.2.length = w
      ∧ (∀ i, i < w → (s.2.getD i []).length = size)
      ∧ HasRows matl matr nrowl ncoll nrowr ncolr (fun _ j' => j' < j - 1) s.1)
    . refine ⟨length_replicate, fun i hi => ?_, length_replicate, fun i j hi hj => ?_⟩
      . rw [getD_eq_getElem?_getD, getElem?_replicate, if_pos hi]
        exact length_replicate
      . refine ⟨fun h => by omega, fun _ => ?_⟩
        rw [getD_eq_getElem?_getD, getElem?_replicate, if_pos (index_lt hi hj)]
        rfl
    . rintro j ⟨rows, shift⟩ hj1 hj ⟨hlen, hshift, hold⟩
      obtain ⟨j, rfl⟩ := Nat.exists_eq_add_of_le' hj1
      have hjr : j < nrowr := by
        omega
      have hmem : matr.rows.getD j (GF2Vec.new 0) ∈ matr.rows := by
        have := hr.length_eq
        rw [getD_eq_getElem _ _ (by omega)]
        exact getElem_mem _
      obtain ⟨shift', hrun, hlen', hshift', hcopies⟩ := shiftRows_spec hw (hr.getD hjr)
        (hne _ hmem) hk hlen hshift
      obtain ⟨rows', hrun', hnew⟩ := kroneckerRows_spec hw hl hr hjr hlen' hcopies hold
      dsimp only
      rw [hr.elm hjr, ok_bind, hrun, ok_bind, hrun', ok_bind]
      exact ⟨_, rfl, hlen', hshift', hnew⟩
    . rintro ⟨rows, shift⟩ ⟨_, _, hnew⟩
      refine ⟨hnew.1, fun i j hi hj => ?_⟩
      have := hnew.2 i j hi hj
      exact ⟨fun _ => this.1 (by omega), fun h => absurd trivial h⟩
  . rintro ⟨rows, shift⟩ hnew
    exact ⟨_, rfl, hnew⟩

end Matrix

end GF2Impl

namespace GF2Mat

variable {w : Nat}

structure IsKronecker (mat matl matr : GF2Mat w) (nrowl ncoll nrowr ncolr : Nat) : Prop where
  valid : mat.Valid (nrowl * nrowr) (ncoll * ncolr)
  length_blocks : ∀ v ∈ mat.rows, v.blocks.length = v.numberBlocks
  entry_eq : ∀ i j k l, i < nrowl → j < nrowr → k < ncoll → l < ncolr →
    mat.entry (i * nrowr + j) (k * ncolr + l) = matl.entry i k * matr.entry j l

structure IsTransposed (tra mat : GF2Mat w) (m n : Nat) : Prop where
  valid : tra.Valid n m
  length_blocks : ∀ v ∈ tra.rows, v.blocks.length = v.numberBlocks
  entry_eq : ∀ i j, i < n → j < m → tra.entry i j = mat.entry j i

end GF2Mat

namespace GF2Impl

variable {w : Nat}

theorem zbit_and (a b : Bool) : zbit (a && b) = zbit a * zbit b := by
  revert a b
  decide

theorem forall_rows {rows : List (GF2Vec w)} {P : GF2Vec w → Prop} {n : Nat} (hn : rows.length = n)
    (h : ∀ i, i < n → P (rows.getD i (GF2Vec.new 0))) : ∀ v ∈ rows, P v := by
  intro v hv
  obtain ⟨i, hi, rfl⟩ := mem_iff_getElem.mp hv
  rw [← getD_eq_getElem rows (GF2Vec.new 0) hi]
  exact h i (by omega)

section Kronecker

variable {matl matr : GF2Mat w} {nrowl ncoll nrowr ncolr : Nat}

theorem valid_of_bits (hw : 0 < w) {row : GF2Vec w} {n : Nat} (hlen : row.len = n)
    (hblocks : row.blocks.length = row.numberBlocks)
    (hbits : ∀ j, n ≤ j → bitAt row.blocks j = false) : row.Valid n where
  len_eq := hlen
  enough := by
    rw [hblocks]
    unfold GF2Vec.numberBlocks
    rw [hlen]
    exact le_ceilDiv_mul hw n
  zero := by
    intro j hj
    unfold bitZ
    rw [hbits j hj]
    rfl

theorem isKronecker_of_hasRows (hw : 0 < w) {mat : GF2Mat w}
    (h : HasRows matl matr nrowl ncoll nrowr ncolr (fun _ _ => True) mat.rows)
    : mat.IsKronecker matl matr nrowl ncoll nrowr ncolr := by
  have hrow : ∀ i, i < nrowl * nrowr → ∃ rowl rowr, IsKroneckerRow rowl rowr ncoll ncolr
      (mat.rows.getD i (GF2Vec.new 0)) := by
    intro i hi
    have hpos : 0 < nrowr := by
      apply Nat.pos_of_ne_zero
      rintro rfl
      omega
    have := (h.2 (i / nrowr) (i % nrowr) ((Nat.div_lt_iff_lt_mul hpos).mpr hi)
      (mod_lt i hpos)).1 trivial
    rw [div_add_mod'] at this
    exact ⟨_, _, this⟩
  refine ⟨⟨h.1, forall_rows h.1 ?_⟩, forall_rows h.1 ?_, ?_⟩
  . intro i hi
    obtain ⟨rowl, rowr, hlen, hblocks, hbits⟩ := hrow i hi
    apply valid_of_bits hw hlen hblocks
    intro j hj
    rw [hbits, decide_eq_false (by omega), Bool.false_and]
  . intro i hi
    obtain ⟨rowl, rowr, _, hblocks, _⟩ := hrow i hi
    exact hblocks
  . intro i j k l hi hj hk hl
    obtain ⟨_, _, hbits⟩ := (h.2 i j hi hj).1 trivial
    unfold GF2Mat.entry bitZ
    rw [hbits, decide_eq_true (index_lt hk hl), Bool.true_and, zbit_and, Nat.add_comm (k * ncolr),
      add_mul_div_right _ _ (by omega), div_eq_of_lt hl, Nat.zero_add,
      add_mul_mod_self_right, mod_eq_of_lt hl]

end Kronecker

end GF2Impl

namespace GF2Impl

variable {w : Nat}

section Transposed

theorem mapM_of_ok {α β : Type} {f : α → Result β} {g : α → β} {l : List α}
    (h : ∀ x ∈ l, f x = .ok (g x)) : l.mapM f = .ok (l.map g) := by
  induction l with
  | nil => rfl
  | cons x l ih =>
    rw [mapM_cons, h x mem_cons_self, ok_bind,
      ih (fun y hy => h y (mem_cons_of_mem x hy)), ok_bind]
    rfl

variable {j : Nat}

theorem eq_and_mask_iff {x : BitVec w} (hj : j < w)
    : 1#w <<< j = x &&& 1#w <<< j ↔ x.getLsbD j = true := by
  constructor
  . intro heq
    have := congrArg (fun v => v.getLsbD j) heq
    simp only [BitVec.getLsbD_and, getLsbD_mask hj, decide_true, Bool.and_true] at this
    exact this.symm
  . intro hbit
    apply BitVec.eq_of_getLsbD_eq
    intro k hk
    rw [BitVec.getLsbD_and, getLsbD_mask hk]
    by_cases hkj : k = j
    . rw [hkj, hbit, Bool.true_and]
    . rw [decide_eq_false hkj, Bool.and_false]

theorem foldl_transposed (vals : List (BitVec w)) (val : BitVec w) (c : Nat) {t : Nat} (hj : j < w)
    (ht : t < w)
    : (vals.foldl (addTransposedBit (1#w <<< j)) (val, 1#w <<< c)).1.getLsbD t
      = (val.getLsbD t || (decide (c ≤ t) && (vals.getD (t - c) 0#w).getLsbD j)) := by
  induction vals generalizing val c with
  | nil => simp
  | cons x vals ih =>
    unfold addTransposedBit at ih ⊢
    rw [foldl_cons]
    dsimp only
    rw [← BitVec.shiftLeft_add, ih]
    by_cases hct : c = t
    . subst hct
      rw [decide_eq_false (by omega), decide_eq_true (Nat.le_refl _), Nat.sub_self,
        getD_cons_zero, Bool.false_and, Bool.or_false, Bool.true_and]
      split
      next h =>
        rw [(eq_and_mask_iff hj).mp h, BitVec.getLsbD_or, getLsbD_mask ht, decide_eq_true rfl]
      next h =>
        rw [eq_and_mask_iff hj, Bool.not_eq_true] at h
        rw [h, Bool.or_false]
    . have hval : (if 1#w <<< j = x &&& 1#w <<< j then val ||| 1#w <<< c else val).getLsbD t
          = val.getLsbD t := by
        split
        next =>
          rw [BitVec.getLsbD_or, getLsbD_mask ht, decide_eq_false (fun h => hct h.symm),
            Bool.or_false]
        next => rfl
      rw [hval]
      congr 1
      by_cases hle : c ≤ t
      . rw [decide_eq_true (by omega), decide_eq_true hle, show t - c = t - (c + 1) + 1 by omega,
          getD_cons_succ]
      . rw [decide_eq_false (by omega), decide_eq_false hle]
        rfl

theorem getLsbD_transposedVal {vals : List (BitVec w)} {t : Nat} (hj : j < w) (ht : t < w)
    : (transposedVal vals (1#w <<< j)).getLsbD t = (vals.getD t 0#w).getLsbD j := by
  unfold transposedVal
  have := foldl_transposed vals 0#w 0 hj ht
  rw [BitVec.shiftLeft_zero] at this
  rw [this, decide_eq_true (Nat.zero_le t), Nat.sub_zero, Bool.true_and, BitVec.getLsbD_zero,
    Bool.false_or]

variable {mat : GF2Mat w} {l wd : Nat} (hw : 0 < w) (h : mat.Valid l wd)

include hw h

theorem tileVals_spec {b n : Nat} (hn : n < (wd + w - 1) / w)
    : ∃ vals, tileVals mat l (b * w + 1) n = .ok vals
        ∧ ∀ t u, t < w → u < w → ((vals.getD t 0#w).getLsbD u = true
          ↔ b * w + t < l
            ∧ bitAt (mat.rows.getD (b * w + t) (GF2Vec.new 0)).blocks (w * n + u) = true) := by
  have hrun : tileVals mat l (b * w + 1) n = .ok ((range w).map (fun t =>
      if b * w + t < l then (mat.rows.getD (b * w + t) (GF2Vec.new 0)).blocks.getD n 0#w
      else 0#w)) := by
    unfold tileVals
    apply mapM_of_ok
    intro t _
    split
    next hgt =>
      rw [if_neg (by omega)]
      rfl
    next hle =>
      have hlt : b * w + t < l := by
        omega
      have hct := ceilDiv_le hw (h.getD hlt).enough
      rw [if_pos hlt, show b * w + 1 + t = b * w + t + 1 by omega, h.elm hlt, ok_bind]
      exact readAt_of_lt (by omega) 0#w
  refine ⟨_, hrun, fun t u ht hu => ?_⟩
  rw [getD_eq_getElem?_getD, getElem?_map, getElem?_range ht, map_some,
    getD_some]
  split
  next hlt => rw [bitAt_mul_add hu, and_iff_right hlt]
  next hge => simp [hge]

def HasTiles (mat : GF2Mat w) (l wd : Nat) (P : Nat → Nat → Prop) (rows : List (GF2Vec w))
    : Prop :=
  rows.length = wd ∧ ∀ r, r < wd →
    (rows.getD r (GF2Vec.new 0)).len = l
    ∧ (rows.getD r (GF2Vec.new 0)).blocks.length = (l + w - 1) / w
    ∧ ∀ c, bitAt (rows.getD r (GF2Vec.new 0)).blocks c = true
      ↔ P r (c / w) ∧ c < l ∧ bitAt (mat.rows.getD c (GF2Vec.new 0)).blocks r = true

variable {rows : List (GF2Vec w)}

omit hw h in
theorem HasTiles.congr {P P' : Nat → Nat → Prop} (h : HasTiles mat l wd P rows)
    (hP : ∀ r c, r < wd → c * w < l → (P r c ↔ P' r c))
    : HasTiles mat l wd P' rows := by
  refine ⟨h.1, fun r hr => ⟨(h.2 r hr).1, (h.2 r hr).2.1, fun c => ?_⟩⟩
  rw [(h.2 r hr).2.2]
  apply and_congr_left
  intro hbit
  have := div_mul_le_self c w
  exact hP r (c / w) hr (by omega)

omit h in
theorem writeTile_spec {vals : List (BitVec w)} {b n : Nat} (hb : b * w < l)
    (hvals : ∀ t u, t < w → u < w → ((vals.getD t 0#w).getLsbD u = true
      ↔ b * w + t < l
        ∧ bitAt (mat.rows.getD (b * w + t) (GF2Vec.new 0)).blocks (w * n + u) = true))
    (hrows : HasTiles mat l wd (fun r c => c < b ∨ c = b ∧ r < n * w) rows)
    : ∃ s, writeTile vals wd b n rows = .ok s
        ∧ HasTiles mat l wd (fun r c => c < b ∨ c = b ∧ r < (n + 1) * w) s.1 := by
  unfold writeTile
  apply forLoop_of_inv (fun j s => (n * w + j ≤ wd → s.2 = 1#w <<< j)
    ∧ HasTiles mat l wd (fun r c => c < b ∨ c = b ∧ r < n * w + j) s.1)
  . exact ⟨fun _ => (BitVec.shiftLeft_zero _).symm, hrows⟩
  . rintro j ⟨rows, mask⟩ _ hj ⟨hmask, hlen, htiles⟩
    dsimp only at hmask hlen htiles ⊢
    split
    next hle =>
      have hr : n * w + j < wd := by
        omega
      have hbl : b < (l + w - 1) / w := by
        apply Nat.lt_of_mul_lt_mul_right (a := w)
        exact Nat.lt_of_lt_of_le hb (le_ceilDiv_mul hw l)
      obtain ⟨hrlen, hrblocks, hrbits⟩ := htiles _ hr
      rw [hmask (by omega), readAt_of_lt (by omega) (GF2Vec.new 0), ok_bind,
        writeAt_of_lt (by omega), ok_bind, writeAt_of_lt (by omega), ok_bind]
      refine ⟨_, rfl, fun _ => (BitVec.shiftLeft_add 1#w j 1).symm, by rw [length_set, hlen],
        fun r hrw => ?_⟩
      dsimp only
      rw [getD_set (by omega)]
      split
      next heq =>
        refine ⟨hrlen, by rw [length_set, hrblocks], fun c => ?_⟩
        dsimp only
        rw [bitAt_set (by omega)]
        split
        next hc =>
          have hdm := div_add_mod' c w
          rw [hc] at hdm
          rw [getLsbD_transposedVal (by omega) (mod_lt c hw),
            hvals _ _ (mod_lt c hw) (by omega), hdm, heq, Nat.mul_comm w n]
          constructor
          . intro hbit
            exact ⟨Or.inr ⟨hc, by omega⟩, hbit⟩
          . intro hbit
            exact hbit.2
        next hc =>
          rw [hrbits, heq]
          constructor
          . rintro ⟨hold, hbit⟩
            exact ⟨by omega, hbit⟩
          . rintro ⟨hnew, hbit⟩
            exact ⟨by omega, hbit⟩
      next hne =>
        obtain ⟨hrlen', hrblocks', hrbits'⟩ := htiles r hrw
        refine ⟨hrlen', hrblocks', fun c => ?_⟩
        rw [hrbits']
        constructor
        . rintro ⟨hold, hbit⟩
          exact ⟨by omega, hbit⟩
        . rintro ⟨hnew, hbit⟩
          exact ⟨by omega, hbit⟩
    next hgt =>
      have hold : HasTiles mat l wd (fun r c => c < b ∨ c = b ∧ r < n * w + j) rows :=
        ⟨hlen, htiles⟩
      refine ⟨_, rfl, fun hle => by omega, hold.congr ?_⟩
      intro r c hrw _
      omega
  . rintro ⟨rows, mask⟩ ⟨_, htiles⟩
    rw [Nat.zero_add, ← succ_mul] at htiles
    exact htiles

omit hw h in
theorem hasTiles_replicate
    : HasTiles mat l wd (fun _ c => c < 0) (replicate wd (GF2Vec.new l)) := by
  refine ⟨length_replicate, fun r hr => ?_⟩
  rw [getD_eq_getElem?_getD, getElem?_replicate, if_pos hr, getD_some]
  refine ⟨rfl, length_replicate, fun c => ?_⟩
  have hzero : bitAt (GF2Vec.new l : GF2Vec w).blocks c = false :=
    zbit_injective (bitZ_replicate _ c)
  rw [hzero]
  simp

omit h in
theorem isTransposed_of_hasTiles (hrows : HasTiles mat l wd (fun _ _ => True) rows)
    : (GF2Mat.mk rows).IsTransposed mat l wd := by
  refine ⟨⟨hrows.1, forall_rows hrows.1 ?_⟩, forall_rows hrows.1 ?_, ?_⟩
  . intro r hr
    obtain ⟨hlen, hblocks, hbits⟩ := hrows.2 r hr
    apply valid_of_bits hw hlen
    . unfold GF2Vec.numberBlocks
      rw [hblocks, hlen]
    . intro c hc
      rw [← Bool.not_eq_true, hbits]
      omega
  . intro r hr
    obtain ⟨hlen, hblocks, _⟩ := hrows.2 r hr
    unfold GF2Vec.numberBlocks
    rw [hblocks, hlen]
  . intro r c hr hc
    obtain ⟨_, _, hbits⟩ := hrows.2 r hr
    unfold GF2Mat.entry bitZ
    congr 1
    rw [Bool.eq_iff_iff, hbits, true_and, and_iff_right hc]

theorem funcTransposedGF2Mat_spec (hpos : 0 < l)
    : ∃ tra, funcTransposedGF2Mat mat = .ok tra ∧ tra.IsTransposed mat l wd := by
  have h1 := h.elm hpos
  rw [Nat.zero_add] at h1
  unfold funcTransposedGF2Mat GF2Vec.numberBlocks GF2Mat.len
  rw [h1, ok_bind, (h.getD hpos).len_eq, h.length_eq]
  dsimp only
  apply exists_bind_of (P := HasTiles mat l wd (fun _ _ => True))
  . apply stepLoop_of_inv (fun i rows => ∃ b, i = b * w + 1
      ∧ HasTiles mat l wd (fun _ c => c < b) rows) hw (by omega)
    . exact ⟨0, by omega, hasTiles_replicate⟩
    . rintro i rows _ hi ⟨b, rfl, hrows⟩
      rw [Nat.add_sub_cancel, Nat.mul_div_cancel b hw]
      apply forLoop_of_inv (fun n rows => HasTiles mat l wd
        (fun r c => c < b ∨ c = b ∧ r < n * w) rows)
      . apply hrows.congr
        intro r c _ _
        omega
      . intro n rows _ hn hrows
        obtain ⟨vals, hrun, hvals⟩ := tileVals_spec hw h (b := b) (n := n) (by omega)
        obtain ⟨s, hrun', hnew⟩ := writeTile_spec hw (by omega) hvals hrows
        rw [hrun, ok_bind, hrun']
        exact ⟨_, rfl, hnew⟩
      . intro rows hrows
        refine ⟨b + 1, by rw [succ_mul]; omega, ?_⟩
        apply hrows.congr
        intro r c hr _
        have := le_ceilDiv_mul hw wd
        rw [Nat.zero_add]
        omega
    . rintro i rows hi ⟨b, rfl, hrows⟩
      apply hrows.congr
      intro r c _ hc
      have : c < b := by
        apply Nat.lt_of_mul_lt_mul_right (a := w)
        omega
      exact iff_of_true this trivial
  . intro rows hrows
    exact ⟨_, rfl, isTransposed_of_hasTiles hw hrows⟩

end Transposed

section Fits

variable {matl matr prod : GF2Mat w} {nrowl ncoll nrowr ncolr : Nat}

theorem length_of_run (hl : matl.Valid nrowl ncoll) (hr : matr.Valid nrowr ncolr)
    (hlpos : 0 < nrowl) (hrpos : 0 < nrowr)
    (hrun : funcKroneckerProductGF2MatGF2Mat matl matr = .ok prod)
    : prod.rows.length = nrowl * nrowr % 2 ^ w
        ∧ ∀ v ∈ prod.rows, v.len = ncoll * ncolr % 2 ^ w := by
  have hl1 := hl.elm hlpos
  have hr1 := hr.elm hrpos
  rw [Nat.zero_add] at hl1 hr1
  unfold funcKroneckerProductGF2MatGF2Mat at hrun
  rw [hl1, ok_bind, hr1, ok_bind, (hl.getD hlpos).len_eq, (hr.getD hrpos).len_eq] at hrun
  unfold GF2Mat.len at hrun
  dsimp only at hrun
  rw [hl.length_eq, hr.length_eq] at hrun
  obtain ⟨⟨rows, shift⟩, hloop, hprod⟩ := of_bind_eq_ok hrun
  cases hprod
  refine forLoop_inv_of_ok (fun s => s.1.length = nrowl * nrowr % 2 ^ w
    ∧ ∀ v ∈ s.1, v.len = ncoll * ncolr % 2 ^ w) ?_ hloop ?_
  . rintro j ⟨rows, shift⟩ s' hbody hold
    obtain ⟨row, _, hbody⟩ := of_bind_eq_ok hbody
    obtain ⟨shift', _, hbody⟩ := of_bind_eq_ok hbody
    obtain ⟨rows', hrows, hbody⟩ := of_bind_eq_ok hbody
    cases hbody
    refine forLoop_inv_of_ok (fun rows => rows.length = nrowl * nrowr % 2 ^ w
      ∧ ∀ v ∈ rows, v.len = ncoll * ncolr % 2 ^ w) ?_ hrows hold
    rintro i rows rows' hbody ⟨hlen, hold⟩
    obtain ⟨row, hread, hbody⟩ := of_bind_eq_ok hbody
    obtain ⟨rowl, _, hbody⟩ := of_bind_eq_ok hbody
    obtain ⟨row', hrow, hwrite⟩ := of_bind_eq_ok hbody
    obtain ⟨⟨data, _⟩, _, hrow⟩ := of_bind_eq_ok hrow
    cases hrow
    obtain ⟨hlt, rfl⟩ := writeAt_ok hwrite
    refine ⟨by rw [length_set, hlen], fun v hv => ?_⟩
    cases mem_or_eq_of_mem_set hv with
    | inl hmem => exact hold v hmem
    | inr heq =>
      rw [readAt_of_lt hlt (GF2Vec.new 0), getD_eq_getElem _ _ hlt] at hread
      cases hread
      have hrow := hold _ (getElem_mem hlt)
      rw [heq]
      exact hrow
  . refine ⟨length_replicate, fun v hv => ?_⟩
    rw [(mem_replicate.mp hv).2]
    rfl

theorem shiftRows_ne_ok (hw : 1 < w) {row : GF2Vec w} (hrow : row.blocks = []) (n : Nat)
    (shift shift' : List (List (BitVec w))) : shiftRows row n shift ≠ .ok shift' := by
  intro hrun
  obtain ⟨data, _, hrun⟩ := of_bind_eq_ok hrun
  obtain ⟨data', _, hrun⟩ := of_bind_eq_ok hrun
  obtain ⟨shift1, _, hrun⟩ := of_bind_eq_ok hrun
  refine forLoop_ne_ok (j := 1) (Nat.le_refl 1) (by omega) ?_ _ _ hrun
  intro s s' hbody
  obtain ⟨data, _, hbody⟩ := of_bind_eq_ok hbody
  obtain ⟨data', hshift, _⟩ := of_bind_eq_ok hbody
  unfold shiftRow at hshift
  rw [hrow] at hshift
  cases hshift

theorem blocks_of_run (hw : 1 < w) (hr : matr.Valid nrowr ncolr)
    (hrun : funcKroneckerProductGF2MatGF2Mat matl matr = .ok prod)
    : ∀ v ∈ matr.rows, v.blocks ≠ [] := by
  apply forall_rows (P := fun v => v.blocks ≠ []) hr.length_eq
  intro j hj hblocks
  unfold funcKroneckerProductGF2MatGF2Mat at hrun
  obtain ⟨rowl1, _, hrun⟩ := of_bind_eq_ok hrun
  obtain ⟨rowr1, _, hrun⟩ := of_bind_eq_ok hrun
  obtain ⟨s, hloop, _⟩ := of_bind_eq_ok hrun
  have hlen := hr.length_eq
  unfold GF2Mat.len at hloop
  refine forLoop_ne_ok (j := j + 1) (by omega) (by omega) ?_ _ _ hloop
  rintro ⟨rows, shift⟩ s' hbody
  dsimp only at hbody
  rw [hr.elm hj, ok_bind] at hbody
  obtain ⟨shift', hshift, _⟩ := of_bind_eq_ok hbody
  exact shiftRows_ne_ok hw hblocks _ _ _ hshift

end Fits

end GF2Impl
