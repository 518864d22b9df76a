import GapKernel.VecGF2.Impl.Coeffs
import GapKernel.VecGF2.Lemmas.Compare

open BitBlocks List Nat Bool

namespace ChangeM

variable {w : Nat} {α β : Type} {vec vec' : GF2Obj w}

variable {a : α}

theorem bind_ok {x : ChangeM w α} (h : x vec = .ok a vec') (g : α → ChangeM w β)
    : (x >>= g) vec = g a vec' := by
  show EStateM.bind x g vec = _
  unfold EStateM.bind
  rw [h]

theorem bind_error {x : ChangeM w α} {e : Fault} (h : x vec = .error e vec') (g : α → ChangeM w β)
    : (x >>= g) vec = .error e vec' := by
  show EStateM.bind x g vec = _
  unfold EStateM.bind
  rw [h]

theorem get_bind (g : GF2Obj w → ChangeM w β) : (get >>= g) vec = g vec vec :=
  rfl

variable {res : Result α}

theorem ofResult_ok (h : res = .ok a) : ofResult res vec = .ok a vec := by
  rw [h]
  rfl

theorem ofResult_error {e : Fault} (h : res = .error e)
    : ofResult res vec = .error e vec := by
  rw [h]
  rfl

theorem ofResult_bind (h : res = .ok a) (g : α → ChangeM w β)
    : (ofResult res >>= g) vec = g a vec :=
  bind_ok (ofResult_ok h) g

section

variable {f : GF2Obj w → Result (GF2Obj w)}

theorem update_ok (h : f vec = .ok vec') : update f vec = .ok () vec' :=
  bind_ok (ofResult_ok h) _

theorem update_error {e : Fault} (h : f vec = .error e) : update f vec = .error e vec :=
  bind_error (ofResult_error h) _

theorem update_bind (h : f vec = .ok vec') (g : Unit → ChangeM w β)
    : (update f >>= g) vec = g () vec' :=
  bind_ok (update_ok h) g

theorem update_bind_error {e : Fault} (h : f vec = .error e) (g : Unit → ChangeM w β)
    : (update f >>= g) vec = .error e vec :=
  bind_error (update_error h) g

end

end ChangeM

namespace GF2Impl

variable {w : Nat}

section Bits

variable {blocks : List (BitVec w)} {x : BitVec w} {m n t : Nat}

theorem and_bit_ne_zero (hn : n < w) : x &&& (1#w <<< n) ≠ 0#w ↔ x.getLsbD n = true := by
  rw [← and_mask_ne_zero x hn, bne_iff_ne]

theorem getLsbD_and_allBits (hm : m ≤ w)
    : (x &&& (allBits >>> (w - m))).getLsbD t = (decide (t < m) && x.getLsbD t) := by
  unfold allBits
  rw [BitVec.getLsbD_and, getLsbD_ones_shiftRight, Bool.and_comm]
  congr 1
  rw [decide_eq_decide]
  omega

theorem xorAt_spec (hn : n < blocks.length)
    : ∃ blocks', xorAt blocks n x = .ok blocks' ∧ blocks'.length = blocks.length
        ∧ ∀ j, bitAt blocks' j = (bitAt blocks j ^^ (decide (j / w = n) && x.getLsbD (j % w))) := by
  unfold xorAt
  rw [readAt_of_lt hn 0#w, ok_bind, writeAt_of_lt hn]
  refine ⟨_, rfl, length_set, ?_⟩
  intro j
  rw [bitAt_set hn]
  split
  . next h =>
    unfold bitAt
    simp [h]
  . next h => simp [h]

theorem range_block {j k s : Nat} (hs : s + n ≤ w)
    : (w * k + s ≤ j ∧ j < w * k + s + n) ↔ (j / w = k ∧ s ≤ j % w ∧ j % w < s + n) := by
  have hdm := div_add_mod j w
  constructor
  . rintro ⟨hle, hlt⟩
    have hdiv : j / w = k := by
      apply Nat.div_eq_of_lt_le
      . rw [Nat.mul_comm]
        omega
      . rw [Nat.mul_comm, mul_succ]
        omega
    rw [hdiv] at hdm
    omega
  . rintro ⟨rfl, hle, hlt⟩
    omega

end Bits

def AddsBits (blocks blocks2 : List (BitVec w)) (off lo hi : Nat) (blocks' : List (BitVec w))
    : Prop :=
  blocks'.length = blocks.length ∧ ∀ j, bitAt blocks' j
    = (bitAt blocks j ^^ (decide (off + lo ≤ j ∧ j < off + hi) && bitAt blocks2 (j - off)))

section Adds

variable {blocks blocks1 blocks' blocks2 : List (BitVec w)} {off lo mid hi : Nat}

theorem addsBits_self (h : hi ≤ lo) : AddsBits blocks blocks2 off lo hi blocks := by
  refine ⟨rfl, fun j => ?_⟩
  rw [decide_eq_false (by omega)]
  simp

theorem AddsBits.trans (h1 : AddsBits blocks blocks2 off lo mid blocks1)
    (h2 : AddsBits blocks1 blocks2 off mid hi blocks') (hlo : lo ≤ mid) (hhi : mid ≤ hi)
    : AddsBits blocks blocks2 off lo hi blocks' := by
  refine ⟨h2.1.trans h1.1, fun j => ?_⟩
  rw [h2.2, h1.2, xor_assoc]
  congr 1
  by_cases hj : j < off + mid
  . rw [decide_eq_false (show ¬(off + mid ≤ j ∧ j < off + hi) by omega), Bool.false_and,
      Bool.xor_false]
    congr 1
    rw [decide_eq_decide]
    omega
  . rw [decide_eq_false (show ¬(off + lo ≤ j ∧ j < off + mid) by omega), Bool.false_and,
      false_xor]
    congr 1
    rw [decide_eq_decide]
    omega

def HasBits (x : BitVec w) (blocks2 : List (BitVec w)) (lo m : Nat) : Prop :=
  ∀ t, t < w → x.getLsbD t = (decide (t < m) && bitAt blocks2 (lo + t))

variable {x : BitVec w} {k m s : Nat}

theorem xorAt_left (hx : HasBits x blocks2 lo m) (hk : k < blocks.length) (hs : s < w)
    (hoff : off + lo = w * k + s)
    : ∃ blocks', xorAt blocks k (x <<< s) = .ok blocks'
        ∧ AddsBits blocks blocks2 off lo (lo + min m (w - s)) blocks' := by
  obtain ⟨blocks', hrun, hlen, hbits⟩ := xorAt_spec (x := x <<< s) hk
  refine ⟨blocks', hrun, hlen, fun j => ?_⟩
  rw [hbits, ← Nat.add_assoc, hoff]
  congr 1
  have hrange := range_block (j := j) (k := k) (s := s) (n := min m (w - s)) (w := w) (by omega)
  by_cases hj : j / w = k
  . have hdm := div_add_mod j w
    rw [hj] at hdm
    have hlt : j % w < w := mod_lt _ (by omega)
    have hdec : decide (w * k + s ≤ j ∧ j < w * k + s + min m (w - s))
        = decide (j / w = k ∧ s ≤ j % w ∧ j % w < s + min m (w - s)) :=
      decide_eq_decide.mpr hrange
    rw [hdec, BitVec.getLsbD_shiftLeft, decide_eq_true hj, decide_eq_true hlt, Bool.true_and,
      Bool.true_and, hx _ (by omega)]
    by_cases hge : s ≤ j % w
    . rw [decide_eq_false (by omega), Bool.not_false, Bool.true_and,
        show j - off = lo + (j % w - s) by omega]
      congr 1
      rw [decide_eq_decide]
      omega
    . rw [decide_eq_true (by omega), Bool.not_true, Bool.false_and, decide_eq_false (by omega)]
      rfl
  . rw [decide_eq_false hj, decide_eq_false (fun h => hj (hrange.mp h).1)]
    rfl

theorem xorAt_right (hx : HasBits x blocks2 lo m) (hk : k + 1 < blocks.length) (hm : m ≤ w)
    (hs : s < w) (hpos : 0 < s) (hoff : off + lo = w * k + s)
    : ∃ blocks', xorAt blocks (k + 1) (x >>> (w - s)) = .ok blocks'
        ∧ AddsBits blocks blocks2 off (lo + min m (w - s)) (lo + m) blocks' := by
  obtain ⟨blocks', hrun, hlen, hbits⟩ := xorAt_spec (x := x >>> (w - s)) hk
  refine ⟨blocks', hrun, hlen, fun j => ?_⟩
  rw [hbits]
  congr 1
  by_cases hle : m ≤ w - s
  . rw [decide_eq_false (show ¬(off + (lo + min m (w - s)) ≤ j ∧ j < off + (lo + m)) by omega),
      BitVec.getLsbD_ushiftRight]
    by_cases hlt : w - s + j % w < w
    . rw [hx _ hlt, decide_eq_false (show ¬(w - s + j % w < m) by omega)]
      simp
    . rw [BitVec.getLsbD_of_ge _ _ (by omega)]
      simp
  . have hrange := range_block (j := j) (k := k + 1) (s := 0) (n := m - (w - s)) (w := w) (by omega)
    have heq : (off + (lo + min m (w - s)) ≤ j ∧ j < off + (lo + m))
        ↔ (w * (k + 1) + 0 ≤ j ∧ j < w * (k + 1) + 0 + (m - (w - s))) := by
      rw [mul_succ]
      omega
    have hdec : decide (off + (lo + min m (w - s)) ≤ j ∧ j < off + (lo + m))
        = decide (j / w = k + 1 ∧ 0 ≤ j % w ∧ j % w < 0 + (m - (w - s))) :=
      decide_eq_decide.mpr (heq.trans hrange)
    rw [hdec]
    by_cases hj : j / w = k + 1
    . have hdm := div_add_mod j w
      rw [hj, mul_succ] at hdm
      rw [BitVec.getLsbD_ushiftRight, decide_eq_true hj, Bool.true_and]
      by_cases hin : w - s + j % w < w
      . rw [hx _ hin, show j - off = lo + (w - s + j % w) by omega]
        congr 1
        rw [decide_eq_decide]
        omega
      . rw [BitVec.getLsbD_of_ge _ _ (by omega), decide_eq_false (by omega)]
        rfl
    . rw [decide_eq_false hj, decide_eq_false (fun h => hj h.1)]
      rfl

theorem hasBits_getD (k : Nat) : HasBits (blocks2.getD k 0#w) blocks2 (w * k) w := by
  intro t ht
  rw [bitAt_mul_add ht, decide_eq_true ht, Bool.true_and]

theorem hasBits_masked (k : Nat) (hm : m ≤ w)
    : HasBits (blocks2.getD k 0#w &&& (allBits >>> (w - m))) blocks2 (w * k) m := by
  intro t ht
  rw [getLsbD_and_allBits hm, bitAt_mul_add ht]

end Adds

section AddShifted

variable {vec1 : GF2Obj w} {vec2 : GF2Vec w} {len2 off : Nat}

theorem addShifted_aligned (hlen : 0 < len2) (h2 : len2 ≤ vec2.blocks.length * w)
    (h1 : off + len2 ≤ vec1.blocks.length * w) (hword : len2 ≤ 2 ^ w) (hoff : off % w = 0)
    : ∃ blocks', addShiftedVecGF2VecGF2 vec1 vec2 len2 off = .ok { vec1 with blocks := blocks' }
        ∧ AddsBits vec1.blocks vec2.blocks off 0 len2 blocks' := by
  have hw : 0 < w := by
    apply Nat.pos_of_ne_zero
    rintro rfl
    omega
  have hsub : subWord w len2 1 = len2 - 1 := by
    unfold subWord
    rw [show len2 + (2 ^ w - 1) = len2 - 1 + 2 ^ w by omega, add_mod_right,
      mod_eq_of_lt (by omega)]
  have hdm := div_add_mod (len2 - 1) w
  have hlt := mod_lt (len2 - 1) hw
  have hdo := div_add_mod off w
  have hb2 : (len2 - 1) / w < vec2.blocks.length := div_lt_of_lt hw (by omega)
  have hb1 : off / w + (len2 - 1) / w < vec1.blocks.length := by
    by_contra hge
    have := Nat.mul_le_mul_left w (Nat.le_of_not_lt hge)
    rw [Nat.mul_add, Nat.mul_comm w vec1.blocks.length] at this
    omega
  unfold addShiftedVecGF2VecGF2
  rw [if_pos hoff, hsub]
  dsimp only
  have hround : ∀ i blocks, 0 ≤ i → i < 0 + (len2 - 1) / w
      → AddsBits vec1.blocks vec2.blocks off 0 (w * i) blocks
      → ∃ blocks', (do
          let x ← readAt vec2.blocks i
          xorAt blocks (off / w + i) x) = .ok blocks'
        ∧ AddsBits vec1.blocks vec2.blocks off 0 (w * (i + 1)) blocks' := by
    intro i blocks _ hi hb
    have heq : off + w * i = w * (off / w + i) + 0 := by
      rw [Nat.mul_add]
      omega
    rw [readAt_of_lt (by omega) 0#w, ok_bind, ← BitVec.shiftLeft_zero (x := vec2.blocks.getD i 0#w)]
    obtain ⟨blocks', hrun, hadd⟩ := xorAt_left (hasBits_getD i)
      (show off / w + i < blocks.length by rw [hb.1]; omega) hw heq
    rw [Nat.sub_zero, Nat.min_self] at hadd
    exact ⟨blocks', hrun, hb.trans hadd (Nat.zero_le _) (Nat.le_add_right _ _)⟩
  obtain ⟨blocks, hrun, hblocks⟩ := forLoop_spec
    (fun i blocks => AddsBits vec1.blocks vec2.blocks off 0 (w * i) blocks) hround
    (addsBits_self (Nat.le_refl _))
  rw [hrun, ok_bind, readAt_of_lt hb2 0#w, ok_bind]
  rw [Nat.zero_add] at hblocks
  have hx := @hasBits_masked w vec2.blocks ((len2 - 1) % w + 1) ((len2 - 1) / w) (by omega)
  have heq : off + w * ((len2 - 1) / w) = w * (off / w + (len2 - 1) / w) + 0 := by
    rw [Nat.mul_add]
    omega
  rw [show w - ((len2 - 1) % w + 1) = w - (len2 - 1) % w - 1 by omega] at hx
  obtain ⟨blocks', hrun', hadd⟩ := xorAt_left hx
    (show off / w + (len2 - 1) / w < blocks.length by rw [hblocks.1]; exact hb1) hw heq
  rw [BitVec.shiftLeft_zero] at hrun'
  rw [hrun', ok_bind]
  refine ⟨blocks', rfl, ?_⟩
  rw [show w * ((len2 - 1) / w) + min ((len2 - 1) % w + 1) (w - 0) = len2 by omega] at hadd
  exact hblocks.trans hadd (Nat.zero_le _) (by omega)

theorem addShifted_round {blocks : List (BitVec w)} {i : Nat} (hw : 0 < w) (hoff : off % w ≠ 0)
    (h2 : i < vec2.blocks.length) (h1 : off + w * (i + 1) ≤ vec1.blocks.length * w)
    (hb : AddsBits vec1.blocks vec2.blocks off 0 (w * i) blocks)
    : ∃ blocks', (do
          let x ← readAt vec2.blocks i
          let blocks ← xorAt blocks (off / w + i) (x <<< (off % w))
          xorAt blocks (off / w + i + 1) (x >>> (w - off % w))) = .ok blocks'
        ∧ AddsBits vec1.blocks vec2.blocks off 0 (w * (i + 1)) blocks' := by
  have hdo := div_add_mod off w
  have hlt := mod_lt off hw
  have hk : off / w + i + 1 < blocks.length := by
    rw [hb.1]
    by_contra hge
    have := Nat.mul_le_mul_left w (Nat.le_of_not_lt hge)
    rw [mul_succ, Nat.mul_add, Nat.mul_comm w vec1.blocks.length] at this
    rw [mul_succ] at h1
    omega
  have heq : off + w * i = w * (off / w + i) + off % w := by
    rw [Nat.mul_add]
    omega
  rw [readAt_of_lt h2 0#w, ok_bind]
  obtain ⟨blocks1, hrun1, hadd1⟩ := xorAt_left (hasBits_getD i) (lt_of_succ_lt hk) hlt heq
  obtain ⟨blocks', hrun2, hadd2⟩ := xorAt_right (hasBits_getD i)
    (show off / w + i + 1 < blocks1.length by rw [hadd1.1]; exact hk) (Nat.le_refl w) hlt
    (Nat.pos_of_ne_zero hoff) heq
  rw [hrun1, ok_bind, hrun2]
  refine ⟨blocks', rfl, ?_⟩
  rw [mul_succ]
  exact hb.trans (hadd1.trans hadd2 (Nat.le_add_right _ _) (by omega)) (Nat.zero_le _)
    (Nat.le_add_right _ _)

section

variable (hw : 0 < w) (h2 : len2 ≤ vec2.blocks.length * w) (hin : off + len2 ≤ vec1.len)
  (h1 : vec1.len ≤ vec1.blocks.length * w)

include hw h2 hin h1

theorem addShifted_unaligned (hoff : off % w ≠ 0)
    : ∃ blocks', addShiftedVecGF2VecGF2 vec1 vec2 len2 off = .ok { vec1 with blocks := blocks' }
        ∧ AddsBits vec1.blocks vec2.blocks off 0 len2 blocks' := by
  have hdm := div_add_mod len2 w
  have hmlt := mod_lt len2 hw
  have hdo := div_add_mod off w
  have hlt := mod_lt off hw
  unfold addShiftedVecGF2VecGF2
  rw [if_neg hoff]
  dsimp only
  have hround : ∀ i blocks, 0 ≤ i → i < 0 + len2 / w
      → AddsBits vec1.blocks vec2.blocks off 0 (w * i) blocks
      → ∃ blocks', (do
          let x ← readAt vec2.blocks i
          let blocks ← xorAt blocks (off / w + i) (x <<< (off % w))
          xorAt blocks (off / w + i + 1) (x >>> (w - off % w))) = .ok blocks'
        ∧ AddsBits vec1.blocks vec2.blocks off 0 (w * (i + 1)) blocks' := by
    intro i blocks _ hi hb
    have hmul : w * (i + 1) ≤ w * (len2 / w) := Nat.mul_le_mul_left w (by omega)
    have hi2 : i < vec2.blocks.length := by
      apply Nat.lt_of_mul_lt_mul_left (a := w)
      rw [Nat.mul_comm w vec2.blocks.length]
      rw [mul_succ] at hmul
      omega
    exact addShifted_round hw hoff hi2 (by omega) hb
  obtain ⟨blocks, hrun, hblocks⟩ := forLoop_spec
    (fun i blocks => AddsBits vec1.blocks vec2.blocks off 0 (w * i) blocks) hround
    (addsBits_self (Nat.le_refl _))
  rw [Nat.zero_add] at hblocks
  rw [hrun, ok_bind]
  split
  . next hrest =>
    have hpred : (len2 - 1) % w + 1 = len2 % w := by
      have hpred : len2 - 1 = w * (len2 / w) + (len2 % w - 1) := by
        omega
      rw [hpred, mul_add_mod, mod_eq_of_lt (by omega)]
      omega
    have hb2 : len2 / w < vec2.blocks.length := by
      apply Nat.lt_of_mul_lt_mul_left (a := w)
      rw [Nat.mul_comm w vec2.blocks.length]
      omega
    have hk : off / w + len2 / w < blocks.length := by
      apply Nat.lt_of_mul_lt_mul_left (a := w)
      rw [hblocks.1, Nat.mul_comm w vec1.blocks.length, Nat.mul_add]
      omega
    have heq : off + w * (len2 / w) = w * (off / w + len2 / w) + off % w := by
      rw [Nat.mul_add]
      omega
    rw [readAt_of_lt hb2 0#w, ok_bind]
    have hx := @hasBits_masked w vec2.blocks (len2 % w) (len2 / w) (Nat.le_of_lt hmlt)
    rw [← hpred, show w - ((len2 - 1) % w + 1) = w - (len2 - 1) % w - 1 by omega, hpred] at hx
    obtain ⟨blocks1, hrun1, hadd1⟩ := xorAt_left hx hk hlt heq
    rw [hrun1, ok_bind]
    split
    . next hspill =>
      have hend : off / w + len2 / w + 1 < (vec1.len + w - 1) / w := by
        rw [Nat.lt_div_iff_mul_lt hw]
        rw [Nat.mul_comm, mul_succ, Nat.mul_add]
        omega
      rw [if_neg (not_not.mpr hend)]
      have hk1 : off / w + len2 / w + 1 < blocks1.length := by
        rw [hadd1.1, hblocks.1]
        exact Nat.lt_of_lt_of_le hend (ceilDiv_le hw h1)
      obtain ⟨blocks', hrun2, hadd2⟩ := xorAt_right hx hk1 (Nat.le_of_lt hmlt) hlt
        (Nat.pos_of_ne_zero hoff) heq
      refine ⟨blocks', ?_, ?_⟩
      . show (xorAt _ _ _ >>= _) = _
        rw [hrun2]
        rfl
      . have hall := hadd1.trans hadd2 (Nat.le_add_right _ _) (by omega)
        rw [hdm] at hall
        exact hblocks.trans hall (Nat.zero_le _) (by omega)
    . next hspill =>
      refine ⟨blocks1, rfl, ?_⟩
      rw [Nat.min_eq_left (by omega), hdm] at hadd1
      exact hblocks.trans hadd1 (Nat.zero_le _) (by omega)
  . next hrest =>
    refine ⟨blocks, rfl, ?_⟩
    rw [show w * (len2 / w) = len2 by omega] at hblocks
    exact hblocks

theorem addShifted_spec (hword : len2 ≤ 2 ^ w) (hok : ¬(len2 = 0 ∧ off % w = 0))
    : ∃ blocks', addShiftedVecGF2VecGF2 vec1 vec2 len2 off = .ok { vec1 with blocks := blocks' }
        ∧ AddsBits vec1.blocks vec2.blocks off 0 len2 blocks' := by
  by_cases hoff : off % w = 0
  . exact addShifted_aligned (by omega) h2 (by omega) hword hoff
  . exact addShifted_unaligned hw h2 hin h1 hoff

end

theorem addShifted_error (hw : 0 < w) (hword : vec2.blocks.length * w < 2 ^ w) (hoff : off % w = 0)
    (vec' : GF2Obj w) : addShiftedVecGF2VecGF2 vec1 vec2 0 off ≠ .ok vec' := by
  have hsub : subWord w 0 1 = 2 ^ w - 1 := by
    unfold subWord
    rw [Nat.zero_add, mod_eq_of_lt (sub_lt (Nat.two_pow_pos w) Nat.one_pos)]
  have hle : vec2.blocks.length ≤ (2 ^ w - 1) / w := by
    rw [Nat.le_div_iff_mul_le hw]
    omega
  have hread {i : Nat} (hi : vec2.blocks.length ≤ i) : readAt vec2.blocks i = .error .access := by
    unfold readAt
    rw [getElem?_eq_none hi]
    rfl
  unfold addShiftedVecGF2VecGF2
  rw [if_pos hoff, hsub]
  dsimp only
  intro hrun
  obtain ⟨blocks, hloop, hrest⟩ := of_bind_eq_ok hrun
  by_cases hlt : vec2.blocks.length < (2 ^ w - 1) / w
  . apply forLoop_ne_ok (j := vec2.blocks.length) (Nat.zero_le _) (by omega) _ _ _ hloop
    intro blocks blocks'
    rw [hread (Nat.le_refl _)]
    exact fun h => nomatch h
  . rw [hread (by omega)] at hrest
    exact nomatch hrest

end AddShifted

section RightMost

variable {blocks : List (BitVec w)} {len : Nat}

def IsRightMost (blocks : List (BitVec w)) (len n : Nat) : Prop :=
  n ≤ len ∧ (∀ j, n ≤ j → j < len → bitAt blocks j = false) ∧ (n ≠ 0 → bitAt blocks (n - 1) = true)

theorem IsRightMost.of_le {len' n : Nat} (h : IsRightMost blocks len' n) (hle : len' ≤ len)
    (hzero : ∀ j, len' ≤ j → j < len → bitAt blocks j = false) : IsRightMost blocks len n := by
  refine ⟨Nat.le_trans h.1 hle, ?_, h.2.2⟩
  intro j hj hlt
  by_cases hin : j < len'
  . exact h.2.1 j hj hin
  . exact hzero j (by omega) hlt

theorem rightMostLoop_spec (hw : 0 < w) {rounds : Nat} (hrounds : len ≤ rounds)
    (hlen : len ≤ blocks.length * w)
    : ∃ n, rightMostLoop blocks rounds len = .ok n ∧ IsRightMost blocks len n := by
  induction rounds generalizing len with
  | zero =>
    obtain rfl := le_zero.mp hrounds
    exact ⟨0, rfl, Nat.le_refl _, fun j _ hj => absurd hj (Nat.not_lt_zero j), (absurd rfl ·)⟩
  | succ rounds ih =>
    unfold rightMostLoop
    by_cases hpos : 0 < len
    . rw [if_pos hpos, readAt_of_lt (div_lt_of_lt hw (by omega)) 0#w, ok_bind]
      have hdm := div_add_mod (len - 1) w
      have hlt := mod_lt (len - 1) hw
      split
      . next hzero =>
        obtain ⟨n, hrun, hn⟩ := @ih (w * ((len - 1) / w)) (by omega) (by omega)
        refine ⟨n, hrun, hn.of_le (by omega) ?_⟩
        intro j hj hjlt
        rw [show j = w * ((len - 1) / w) + (j - w * ((len - 1) / w)) by omega,
          bitAt_mul_add (by omega), hzero, BitVec.getLsbD_zero]
      . unfold maskPos
        simp only [and_bit_ne_zero hlt]
        have hbit : bitAt blocks (len - 1)
            = (blocks.getD ((len - 1) / w) 0#w).getLsbD ((len - 1) % w) :=
          rfl
        rw [← hbit]
        split
        . next hone =>
          exact ⟨len, rfl, Nat.le_refl _, fun j hj hlt => absurd hlt (by omega), fun _ => hone⟩
        . next hzero =>
          rw [not_eq_true] at hzero
          obtain ⟨n, hrun, hn⟩ := @ih (len - 1) (by omega) (by omega)
          refine ⟨n, hrun, hn.of_le (by omega) ?_⟩
          intro j hj hjlt
          rw [show j = len - 1 by omega]
          exact hzero
    . rw [if_neg hpos]
      obtain rfl : len = 0 := by omega
      exact ⟨0, rfl, Nat.le_refl _, fun j _ hj => absurd hj (Nat.not_lt_zero j), (absurd rfl ·)⟩

theorem rightMostOne_spec (hw : 0 < w) (hlen : len ≤ blocks.length * w)
    : ∃ n, rightMostOne blocks len = .ok n ∧ IsRightMost blocks len n :=
  rightMostLoop_spec hw (Nat.le_refl _) hlen

end RightMost

section Resize

variable {blocks : List (BitVec w)} {len n i : Nat}

theorem length_resizeBlocks : (resizeBlocks blocks len).length = (len + w - 1) / w := by
  unfold resizeBlocks
  rw [length_append, length_take, length_replicate]
  omega

theorem bitAt_resizeBlocks {j : Nat} (hw : 0 < w) (hj : j < len)
    : bitAt (resizeBlocks blocks len) j = bitAt blocks j := by
  have hlt : j / w < (len + w - 1) / w :=
    div_lt_of_lt hw (Nat.lt_of_lt_of_le hj (le_ceilDiv_mul hw len))
  unfold resizeBlocks
  rw [bitAt_append_zero]
  unfold bitAt
  rw [getD_eq_getElem?_getD, getElem?_take, if_pos hlt, getD_eq_getElem?_getD]

theorem cleanBlock_spec (hw : 0 < w) (hpos : 0 < len) (hlen : len ≤ blocks.length * w)
    : ∃ blocks', cleanBlock blocks len = .ok blocks' ∧ blocks'.length = blocks.length
        ∧ ∀ j, j / w ≤ (len - 1) / w → bitAt blocks' j = (decide (j < len) && bitAt blocks j) := by
  have hk : (len - 1) / w < blocks.length := div_lt_of_lt hw (by omega)
  have hlt := mod_lt (len - 1) hw
  unfold cleanBlock
  dsimp only
  rw [readAt_of_lt hk 0#w, ok_bind, writeAt_of_lt hk]
  refine ⟨_, rfl, length_set, ?_⟩
  intro j hj
  have hdm := div_add_mod (len - 1) w
  have hdj := div_add_mod j w
  rw [bitAt_set hk]
  split
  . next heq =>
    rw [getLsbD_and_allBits (by omega)]
    rw [heq] at hdj
    unfold bitAt
    rw [heq]
    congr 1
    rw [decide_eq_decide]
    omega
  . next hne =>
    have hmul : w * (j / w + 1) ≤ w * ((len - 1) / w) := Nat.mul_le_mul_left w (by omega)
    rw [mul_succ] at hmul
    have hjlt := mod_lt j hw
    rw [decide_eq_true (by omega), Bool.true_and]

theorem clearBlocks_spec (h : i + n ≤ blocks.length)
    : ∃ blocks', clearBlocks blocks n i = .ok blocks' ∧ blocks'.length = blocks.length
        ∧ ∀ j, bitAt blocks' j = (decide ¬(i ≤ j / w ∧ j / w < i + n) && bitAt blocks j) := by
  unfold clearBlocks
  apply forLoop_of_inv (fun k blocks' => blocks'.length = blocks.length
    ∧ ∀ j, bitAt blocks' j = (decide ¬(i ≤ j / w ∧ j / w < k) && bitAt blocks j))
  . refine ⟨rfl, fun j => ?_⟩
    rw [decide_eq_true (by omega), Bool.true_and]
  . rintro k blocks' hik hkn ⟨hlen, hbits⟩
    have hk : k < blocks'.length := by
      omega
    rw [writeAt_of_lt hk]
    refine ⟨_, rfl, by rw [length_set, hlen], fun j => ?_⟩
    rw [bitAt_set hk]
    split
    . next heq =>
      rw [BitVec.getLsbD_zero, decide_eq_false (by omega), Bool.false_and]
    . next hne =>
      rw [hbits]
      congr 1
      rw [decide_eq_decide]
      omega
  . exact fun blocks' hb => hb

variable {vec : GF2Obj w} {newlen : Nat}

def IsResized (vec : GF2Obj w) (newlen : Nat) (vec' : GF2Obj w) : Prop :=
  vec'.len = newlen ∧ vec'.locked = vec.locked ∧ vec'.HasBlocks
    ∧ ∀ j, j < newlen → bitAt vec'.blocks j = (decide (j < vec.len) && bitAt vec.blocks j)

theorem isResized_self (h : vec.HasBlocks) : IsResized vec vec.len vec := by
  refine ⟨rfl, rfl, h, fun j hj => ?_⟩
  rw [decide_eq_true hj, Bool.true_and]

theorem resize_grow (hw : 0 < w) (hlocked : vec.locked = false)
    (hlt : vec.len < newlen)
    : ∃ vec', resizeGF2Vec vec newlen = .ok vec' ∧ IsResized vec newlen vec' := by
  unfold resizeGF2Vec
  rw [if_neg (by omega), hlocked, if_neg Bool.false_ne_true, if_pos hlt]
  dsimp only
  have hlen0 : (resizeBlocks vec.blocks newlen).length = (newlen + w - 1) / w := length_resizeBlocks
  have hn : (newlen - 1) / w + 1 = (newlen + w - 1) / w := by
    rw [show newlen + w - 1 = newlen - 1 + w by omega, add_div_right _ hw]
  split
  . next hzero =>
    obtain ⟨blocks, hrun, hlen, hbits⟩ := @clearBlocks_spec w
      (resizeBlocks vec.blocks newlen) ((newlen - 1) / w + 1) 0 (by omega)
    rw [hrun]
    refine ⟨_, rfl, rfl, hlocked.symm, ?_, fun j hj => ?_⟩
    . unfold GF2Vec.HasBlocks
      dsimp only
      rw [hlen, hlen0]
      exact le_ceilDiv_mul hw newlen
    . have hdiv : j / w ≤ (newlen - 1) / w := Nat.div_le_div_right (by omega)
      dsimp only
      rw [hbits, hzero, decide_eq_false (not_not.mpr ⟨Nat.zero_le _, by omega⟩),
        decide_eq_false (Nat.not_lt_zero j), Bool.false_and, Bool.false_and]
  . next hne =>
    have hpos : 0 < vec.len := Nat.pos_of_ne_zero hne
    have hle : (vec.len - 1) / w ≤ (newlen - 1) / w := Nat.div_le_div_right (by omega)
    have hbound := le_ceilDiv_mul hw newlen
    obtain ⟨blocks1, hrun1, hlen1, hbits1⟩ := @cleanBlock_spec w
      (resizeBlocks vec.blocks newlen) vec.len hw hpos (by rw [hlen0]; omega)
    rw [hrun1, ok_bind]
    obtain ⟨blocks, hrun, hlen, hbits⟩ := @clearBlocks_spec w blocks1
      ((newlen - 1) / w + 1 - ((vec.len - 1) / w + 1)) ((vec.len - 1) / w + 1) (by omega)
    rw [hrun]
    refine ⟨_, rfl, rfl, hlocked.symm, ?_, fun j hj => ?_⟩
    . unfold GF2Vec.HasBlocks
      dsimp only
      rw [hlen, hlen1, hlen0]
      exact hbound
    . dsimp only
      rw [hbits]
      have hdiv : j / w ≤ (newlen - 1) / w := Nat.div_le_div_right (by omega)
      by_cases hold : j / w ≤ (vec.len - 1) / w
      . rw [decide_eq_true (by omega), Bool.true_and, hbits1 j hold, bitAt_resizeBlocks hw hj]
      . have hge : ¬j < vec.len := fun hlt => hold (Nat.div_le_div_right (by omega))
        rw [decide_eq_false (by omega), decide_eq_false hge, Bool.false_and, Bool.false_and]

theorem resize_shrink (hw : 0 < w) (h : vec.HasBlocks) (hlocked : vec.locked = false)
    (hlt : newlen < vec.len)
    : ∃ vec', resizeGF2Vec vec newlen = .ok vec' ∧ IsResized vec newlen vec' := by
  unfold resizeGF2Vec
  rw [if_neg (by omega), hlocked, if_neg Bool.false_ne_true, if_neg (by omega)]
  have hclean : ∃ blocks, cleanLast vec.blocks newlen = .ok blocks
      ∧ ∀ j, j < newlen → bitAt blocks j = bitAt vec.blocks j := by
    unfold cleanLast
    split
    . next hne =>
      have hpos : 0 < newlen := by
        apply Nat.pos_of_ne_zero
        rintro rfl
        rw [zero_mod] at hne
        exact hne rfl
      obtain ⟨blocks, hrun, -, hbits⟩ := cleanBlock_spec hw hpos (Nat.le_trans (Nat.le_of_lt hlt) h)
      refine ⟨blocks, hrun, fun j hj => ?_⟩
      rw [hbits j (Nat.div_le_div_right (by omega)), decide_eq_true hj, Bool.true_and]
    . exact ⟨_, rfl, fun _ _ => rfl⟩
  obtain ⟨blocks, hrun, hbits⟩ := hclean
  rw [hrun]
  refine ⟨_, rfl, rfl, hlocked.symm, ?_, fun j hj => ?_⟩
  . unfold GF2Vec.HasBlocks
    dsimp only
    rw [length_resizeBlocks]
    exact le_ceilDiv_mul hw newlen
  . dsimp only
    rw [bitAt_resizeBlocks hw hj, hbits j hj, decide_eq_true (by omega), Bool.true_and]

theorem resize_locked (hlocked : vec.locked = true) (hne : vec.len ≠ newlen)
    : resizeGF2Vec vec newlen
        = .error (.quit "Resize of locked compressed vector is forbidden" 0 0) := by
  unfold resizeGF2Vec
  rw [if_neg hne, hlocked]
  rfl

theorem resize_self : resizeGF2Vec vec vec.len = .ok vec := by
  unfold resizeGF2Vec
  rw [if_pos rfl]
  rfl

theorem resize_spec (hw : 0 < w) (h : vec.HasBlocks) (hok : vec.locked = true → vec.len = newlen)
    : ∃ vec', resizeGF2Vec vec newlen = .ok vec' ∧ IsResized vec newlen vec' := by
  by_cases heq : vec.len = newlen
  . subst heq
    exact ⟨vec, resize_self, isResized_self h⟩
  . have hlocked : vec.locked = false := by
      rw [← not_eq_true]
      exact fun hlocked => heq (hok hlocked)
    cases Nat.lt_or_gt_of_ne heq with
    | inl hlt => exact resize_grow hw hlocked hlt
    | inr hlt => exact resize_shrink hw h hlocked hlt

end Resize

end GF2Impl
