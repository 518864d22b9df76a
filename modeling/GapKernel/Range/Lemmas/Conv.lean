import GapKernel.Integer.Lemmas.Value
import GapKernel.Range.Impl

open Integer (INT_INTOBJ INT_INTOBJ_eq)

open List Nat Option

namespace RangeConv

variable {w : IntSize} {words : List Int} {low inc : Int}

def IsProgression (w : IntSize) (words : List Int) (low inc : Int) : Prop :=
  ∀ k, k < words.length →
    w.IsSmall (low + k * inc) ∧ words.getD k 0 = 4 * (low + k * inc) + 1

section Words

-- The guard bit: a word that is off by a multiple of the number of words is not an object.
theorem word_eq_iff {o x : Int} (hobj : isIntobj o = true → ∃ i, w.IsSmall i ∧ o = 4 * i + 1)
    (hx : -3 * 2 ^ w.nrSmallIntBits ≤ x) (hx' : x < 3 * 2 ^ w.nrSmallIntBits)
    : o = intobjWord w x ↔ w.IsSmall x ∧ o = 4 * x + 1 := by
  have hodd : isIntobj (intobjWord w x) = true := by
    unfold isIntobj intobjWord IntSize.wrap
    rw [decide_eq_true_eq]
    have hdiv := Int.bmod_add_bdiv (4 * x + 1) (2 ^ w.bits)
    cases w <;> simp only [IntSize.bits] at * <;> omega
  constructor
  . intro ho
    rw [ho] at hobj
    rcases hobj hodd with ⟨i, hi⟩
    have heq := hi.2
    unfold intobjWord IntSize.wrap at heq
    have hdiv := Int.bmod_add_bdiv (4 * x + 1) (2 ^ w.bits)
    have hsmall := hi.1
    rw [IntSize.isSmall_iff] at hsmall
    have hix : i = x := by
      rw [heq] at hdiv
      cases w <;> simp only [IntSize.bits, IntSize.nrSmallIntBits] at * <;> omega
    rw [ho]
    rw [hi.2]
    rw [← hix]
    exact ⟨hi.1, rfl⟩
  . intro h
    rw [h.2]
    unfold intobjWord
    rw [w.wrap_of_isInt]
    have hsmall := h.1
    rw [IntSize.isSmall_iff] at hsmall
    rw [IntSize.isInt_iff]
    omega

theorem intobjWord_of_isSmall {x : Int} (h : w.IsSmall x) : intobjWord w x = 4 * x + 1 := by
  unfold intobjWord
  rw [w.wrap_of_isInt]
  rw [IntSize.isSmall_iff] at h
  rw [IntSize.isInt_iff]
  omega

theorem wrap_elm {k : Int} (hlow : w.IsSmall low)
    (hx : -3 * 2 ^ w.nrSmallIntBits ≤ low + k * inc)
    (hx' : low + k * inc < 3 * 2 ^ w.nrSmallIntBits)
    : w.wrap (low + w.wrap (k * inc)) = low + k * inc := by
  rw [IntSize.isSmall_iff] at hlow
  rw [w.wrap_of_isInt (x := k * inc) (by rw [IntSize.isInt_iff]; omega)]
  rw [w.wrap_of_isInt]
  rw [IntSize.isInt_iff]
  omega

end Words

section Scan

theorem scanRange_le (n i : Nat) : scanRange w words low inc n i ≤ i + n := by
  induction n generalizing i with
  | zero =>
    unfold scanRange
    omega
  | succ n ih =>
    unfold scanRange
    have := ih (i + 1)
    split
    . omega
    . omega

theorem scanRange_eq_iff (hobj : ∀ o ∈ words, isIntobj o = true → ∃ i, w.IsSmall i ∧ o = 4 * i + 1)
    (hlow : w.IsSmall low) (hsecond : w.IsSmall (low + inc)) (n i : Nat) (hi : 2 ≤ i)
    (hprev : w.IsSmall (low + ((i : Int) - 2) * inc))
    : scanRange w words low inc n i = i + n
        ↔ ∀ k, i - 1 ≤ k → k < i - 1 + n →
          w.IsSmall (low + k * inc) ∧ words.getD k 0 = 4 * (low + k * inc) + 1 := by
  induction n generalizing i with
  | zero =>
    unfold scanRange
    constructor
    . intro _ k hk hk'
      omega
    . intro _
      omega
  | succ n ih =>
    have hstep : low + ((i : Int) - 1) * inc = low + ((i : Int) - 2) * inc + inc := by ring
    have hbounds : -3 * 2 ^ w.nrSmallIntBits ≤ low + ((i : Int) - 1) * inc
        ∧ low + ((i : Int) - 1) * inc < 3 * 2 ^ w.nrSmallIntBits := by
      rw [IntSize.isSmall_iff] at hlow hsecond hprev
      omega
    have hword : isIntobj (words.getD (i - 1) 0) = true
        → ∃ j, w.IsSmall j ∧ words.getD (i - 1) 0 = 4 * j + 1 := by
      rw [getD_eq_getElem?_getD]
      cases hget : words[i - 1]? with
      | none =>
        intro hodd
        rw [getD_none] at hodd
        contradiction
      | some o =>
        rw [getD_some]
        apply hobj
        exact mem_of_getElem? hget
    have hcast : ((i - 1 : Nat) : Int) = (i : Int) - 1 := by omega
    have hiff := word_eq_iff hword hbounds.1 hbounds.2
    unfold scanRange
    rw [wrap_elm hlow hbounds.1 hbounds.2]
    rw [← hcast] at hiff ⊢
    split
    . next hne =>
      constructor
      . intro h
        omega
      . intro h
        exfalso
        apply hne
        rw [hiff]
        apply h (i - 1)
        . omega
        . omega
    . next heq =>
      rw [not_not] at heq
      rw [hiff] at heq
      have hnext : w.IsSmall (low + (((i + 1 : Nat) : Int) - 2) * inc) := by
        rw [show (((i + 1 : Nat) : Int) - 2) = ((i - 1 : Nat) : Int) by omega]
        exact heq.1
      rw [show i + (n + 1) = i + 1 + n by omega]
      rw [ih (i + 1) (by omega) hnext]
      constructor
      . intro h k hk hk'
        rcases Nat.lt_or_ge (i - 1) k with hlt | hge
        . apply h k
          . omega
          . omega
        . rw [show k = i - 1 by omega]
          exact heq
      . intro h k hk hk'
        apply h k
        . omega
        . omega

end Scan

structure IsGoodRange (w : IntSize) (r : RangeBag) : Prop where
  isRange : r.IsRange
  inc_ne : r.inc ≠ 0
  len_small : w.IsSmall r.len
  elms : ∀ k : Nat, k < r.len → w.IsSmall (r.low + k * r.inc)

namespace IsGoodRange

variable {r : RangeBag}

section

variable (h : IsGoodRange w r)

include h

theorem low_small : w.IsSmall r.low := by
  have hlen := h.isRange.two_le_len
  have := h.elms 0 (by omega)
  simpa using this

theorem wrap_elms {k : Int} (hk : 0 ≤ k) (hk' : k < r.len)
    : w.wrap (r.low + w.wrap (k * r.inc)) = r.low + k * r.inc := by
  have hsmall := h.elms k.toNat (by omega)
  rw [Int.toNat_of_nonneg hk] at hsmall
  rw [IntSize.isSmall_iff] at hsmall
  apply wrap_elm h.low_small
  . omega
  . omega

theorem getElmRange_eq {k : Nat} (hk : k < r.len)
    : getElmRange w r (k + 1) = 4 * (r.low + k * r.inc) + 1 := by
  unfold getElmRange
  rw [show ((k : Int) + 1 - 1) = k by omega]
  rw [h.wrap_elms (by omega) hk]
  apply intobjWord_of_isSmall
  apply h.elms k hk

theorem length_plainRange : ((plainRange w r).2.length : Int) = r.len := by
  have hlen := h.isRange.two_le_len
  unfold plainRange
  rw [length_map]
  rw [length_range]
  omega

theorem getElem?_plainRange {k : Nat} (hk : k < r.len)
    : (plainRange w r).2[k]? = some (4 * (r.low + k * r.inc) + 1) := by
  unfold plainRange
  dsimp only
  rw [getElem?_map]
  rw [getElem?_range (by omega)]
  rw [map_some]
  rw [show ((k : Int) + 1 - 1) = k by omega]
  rw [h.wrap_elms (by omega) hk]
  rw [intobjWord_of_isSmall (h.elms k hk)]

end

theorem between_iff {low inc first last v : Int} (hinc : inc ≠ 0)
    : ((0 < inc ∧ low + first * inc ≤ v ∧ v ≤ low + last * inc ∧ (v - low).tmod inc = 0)
          ∨ (inc < 0 ∧ low + last * inc ≤ v ∧ v ≤ low + first * inc ∧ (v - low).tmod inc = 0))
        ↔ ∃ k, first ≤ k ∧ k ≤ last ∧ v = low + k * inc := by
  constructor
  . intro h
    have hdvd : (v - low).tmod inc = 0 := by
      cases h with
      | inl h => exact h.2.2.2
      | inr h => exact h.2.2.2
    have hq := Int.mul_tdiv_add_tmod (v - low) inc
    rw [hdvd] at hq
    refine ⟨(v - low).tdiv inc, ?_, ?_, by linarith⟩
    . by_contra hlt
      rw [not_le] at hlt
      cases h with
      | inl h => nlinarith
      | inr h => nlinarith
    . by_contra hlt
      rw [not_le] at hlt
      cases h with
      | inl h => nlinarith
      | inr h => nlinarith
  . intro h
    rcases h with ⟨k, hk⟩
    have hmod : (v - low).tmod inc = 0 := by
      rw [hk.2.2]
      rw [show low + k * inc - low = k * inc by ring]
      apply Int.mul_tmod_left
    rcases lt_or_gt_of_ne hinc with hneg | hpos
    . right
      refine ⟨hneg, ?_, ?_, hmod⟩
      . rw [hk.2.2]
        nlinarith
      . rw [hk.2.2]
        nlinarith
    . left
      refine ⟨hpos, ?_, ?_, hmod⟩
      . rw [hk.2.2]
        nlinarith
      . rw [hk.2.2]
        nlinarith

theorem ite_ite_eq {A B : Prop} [Decidable A] [Decidable B] (e e' : Int)
    : (if A then e else if B then e else e') = if A ∨ B then e else e' := by
  by_cases hA : A
  . simp [hA]
  . simp [hA]

open scoped Classical in
theorem posRange_eq (h : IsGoodRange w r) {v s : Int} (hv : w.IsSmall v) (hs : 0 ≤ s)
    : posRange w r (4 * v + 1) (4 * s + 1)
        = if ∃ k, s ≤ k ∧ k ≤ r.len - 1 ∧ v = r.low + k * r.inc then
            some (4 * ((v - r.low).tdiv r.inc + 1) + 1)
          else
            none := by
  have hodd : ∀ i : Int, isIntobj (4 * i + 1) = true := by
    intro i
    unfold isIntobj
    rw [decide_eq_true_eq]
    omega
  have hlen := h.isRange.two_le_len
  have hlow := h.low_small
  have hdiff : w.wrap (v - r.low) = v - r.low := by
    apply w.wrap_of_isInt
    rw [IntSize.isSmall_iff] at hv hlow
    rw [IntSize.isInt_iff]
    omega
  unfold posRange
  rw [hodd]
  rw [if_neg (by simp)]
  dsimp only
  rw [INT_INTOBJ_eq]
  rw [INT_INTOBJ_eq]
  rw [hodd]
  rw [hdiff]
  rw [ite_ite_eq]
  by_cases hsl : s < r.len
  . rw [if_pos (show true = true ∧ s < r.len from ⟨rfl, hsl⟩)]
    rw [h.wrap_elms hs hsl]
    rw [h.wrap_elms (by omega) (by omega)]
    simp only [between_iff h.inc_ne]
    by_cases hex : ∃ k, s ≤ k ∧ k ≤ r.len - 1 ∧ v = r.low + k * r.inc
    . rw [if_pos hex]
      rw [if_pos hex]
      rcases hex with ⟨k, hk⟩
      have hq : (v - r.low).tdiv r.inc = k := by
        rw [hk.2.2]
        rw [show r.low + k * r.inc - r.low = k * r.inc by ring]
        apply Int.mul_tdiv_cancel _ h.inc_ne
      have hsmall : w.IsSmall (k + 1) := by
        have := h.len_small
        rw [IntSize.isSmall_iff] at this ⊢
        omega
      rw [hq]
      rw [w.wrap_of_isInt (IntSize.isInt_of_isSmall hsmall)]
      rw [if_neg (by omega)]
      rw [intobjWord_of_isSmall hsmall]
    . rw [if_neg hex]
      rw [if_neg hex]
      rw [if_pos rfl]
  . rw [if_neg (show ¬(true = true ∧ s < r.len) from fun hand => hsl hand.2)]
    rw [if_pos rfl]
    rw [if_neg]
    intro hex
    cases hex with
    | intro k hk => omega

theorem posRange_iff (h : IsGoodRange w r) {val s p : Int}
    (hobj : isIntobj val = true → ∃ i, w.IsSmall i ∧ val = 4 * i + 1) (hs : 0 ≤ s)
    : posRange w r val (4 * s + 1) = some p
        ↔ ∃ k : Nat, s ≤ k ∧ k < r.len ∧ val = 4 * (r.low + k * r.inc) + 1
          ∧ p = 4 * ((k : Int) + 1) + 1 := by
  by_cases hval : isIntobj val = true
  . rcases hobj hval with ⟨v, hv⟩
    rw [hv.2]
    rw [h.posRange_eq hv.1 hs]
    constructor
    . intro hp
      split at hp
      . next hex =>
        rcases hex with ⟨k, hk⟩
        have hq : (v - r.low).tdiv r.inc = k := by
          rw [hk.2.2]
          rw [show r.low + k * r.inc - r.low = k * r.inc by ring]
          apply Int.mul_tdiv_cancel _ h.inc_ne
        rw [Option.some.injEq] at hp
        rw [hq] at hp
        have hcast : ((k.toNat : Nat) : Int) = k := by omega
        refine ⟨k.toNat, by omega, by omega, ?_, by omega⟩
        rw [hcast]
        rw [hk.2.2]
      . contradiction
    . intro hex
      rcases hex with ⟨k, hk⟩
      have hvk : v = r.low + k * r.inc := by omega
      have hq : (v - r.low).tdiv r.inc = k := by
        rw [hvk]
        rw [show r.low + k * r.inc - r.low = k * r.inc by ring]
        apply Int.mul_tdiv_cancel _ h.inc_ne
      rw [if_pos ⟨(k : Int), hk.1, by omega, hvk⟩]
      rw [hq]
      rw [hk.2.2.2]
  . have hnone : posRange w r val (4 * s + 1) = none := by
      unfold posRange
      simp [hval]
    rw [hnone]
    constructor
    . intro hp
      contradiction
    . intro hex
      exfalso
      rcases hex with ⟨k, hk⟩
      apply hval
      unfold isIntobj
      rw [decide_eq_true_eq]
      rw [hk.2.2.1]
      omega

end IsGoodRange

structure KeepsEntries (w : IntSize) (words : List Int) (r : RangeBag) : Prop where
  len : r.len = words.length
  elm : ∀ pos : Nat, pos < words.length → words[pos]? = some (getElmRange w r (pos + 1))
  pos : ∀ val s p, (isIntobj val = true → ∃ i, w.IsSmall i ∧ val = 4 * i + 1) → 0 ≤ s →
    (posRange w r val (4 * s + 1) = some p
      ↔ ∃ k : Nat, s ≤ k ∧ words[k]? = some val ∧ p = 4 * ((k : Int) + 1) + 1)
  -- A start that is too large for an immediate integer
  posLarge : ∀ val start, isIntobj start = false → posRange w r val start = none
  plain : (plainRange w r).2 = words
  plainTnum : (plainRange w r).1 = .plistCycSsort ↔ r.tnum = .ssort
  ssort : r.tnum = .ssort ↔ words.Pairwise (· < ·)

theorem IsGoodRange.keepsEntries {r : RangeBag} (h : IsGoodRange w r)
    : KeepsEntries w (plainRange w r).2 r := by
  have hlen := h.length_plainRange
  have htwo := h.isRange.two_le_len
  constructor
  case len => exact hlen.symm
  case elm =>
    intro pos hpos
    rw [h.getElem?_plainRange (by omega)]
    rw [h.getElmRange_eq (by omega)]
  case pos =>
    intro val s p hobj hs
    rw [h.posRange_iff hobj hs]
    constructor
    . intro hex
      rcases hex with ⟨k, hk⟩
      refine ⟨k, hk.1, ?_, hk.2.2.2⟩
      rw [h.getElem?_plainRange hk.2.1]
      rw [hk.2.2.1]
    . intro hex
      rcases hex with ⟨k, hk⟩
      have hlt : k < (plainRange w r).2.length := by
        rw [List.getElem?_eq_some_iff] at hk
        cases hk.2.1 with
        | intro hlt _ => exact hlt
      refine ⟨k, hk.1, by omega, ?_, hk.2.2⟩
      have hget := hk.2.1
      rw [h.getElem?_plainRange (by omega)] at hget
      rw [Option.some.injEq] at hget
      exact hget.symm
  case posLarge =>
    intro val start hstart
    unfold posRange
    rw [hstart]
    simp
  case plain => rfl
  case plainTnum =>
    rw [h.isRange.ssort_iff]
    unfold plainRange
    dsimp only
    rw [if_neg (by omega)]
    split
    . next hpos => simp [hpos]
    . next hneg => simp [hneg]
  case ssort =>
    rw [h.isRange.ssort_iff]
    constructor
    . intro hpos
      rw [pairwise_iff_getElem]
      intro i j hi hj hij
      have hgeti := h.getElem?_plainRange (k := i) (by omega)
      have hgetj := h.getElem?_plainRange (k := j) (by omega)
      rw [getElem?_eq_getElem hi] at hgeti
      rw [getElem?_eq_getElem hj] at hgetj
      rw [Option.some.injEq] at hgeti hgetj
      rw [hgeti]
      rw [hgetj]
      have : (i : Int) * r.inc < j * r.inc := Int.mul_lt_mul_of_pos_right (by omega) hpos
      omega
    . intro hsorted
      rw [pairwise_iff_getElem] at hsorted
      have hlt := hsorted 0 1 (by omega) (by omega) (by omega)
      have hget0 := h.getElem?_plainRange (k := 0) (by omega)
      have hget1 := h.getElem?_plainRange (k := 1) (by omega)
      rw [getElem?_eq_getElem (by omega)] at hget0 hget1
      rw [Option.some.injEq] at hget0 hget1
      rw [hget0] at hlt
      rw [hget1] at hlt
      rw [cast_zero] at hlt
      rw [cast_one] at hlt
      omega

def IsRangeList (w : IntSize) (words : List Int) : Prop :=
  words = [] ∨ (∃ i, w.IsSmall i ∧ words = [4 * i + 1])
    ∨ (2 ≤ words.length ∧ ∃ low inc, inc ≠ 0 ∧ IsProgression w words low inc)

section Convert

theorem inc_bounds (hprog : IsProgression w words low inc) (hlen : 2 ≤ words.length)
    : w.IsSmall low ∧ w.IsSmall (low + inc) ∧ -2 * 2 ^ w.nrSmallIntBits ≤ inc
        ∧ inc < 2 * 2 ^ w.nrSmallIntBits := by
  have h0 := (hprog 0 (by omega)).1
  have h1 := (hprog 1 (by omega)).1
  rw [cast_zero] at h0
  rw [cast_one] at h1
  rw [zero_mul] at h0
  rw [add_zero] at h0
  rw [one_mul] at h1
  refine ⟨h0, h1, ?_, ?_⟩
  . rw [IntSize.isSmall_iff] at h0 h1
    omega
  . rw [IntSize.isSmall_iff] at h0 h1
    omega

theorem isGoodRange_newRange (hprog : IsProgression w words low inc) (hinc : inc ≠ 0)
    (hlen : 2 ≤ words.length) (hsmall : w.IsSmall words.length)
    : IsGoodRange w (newRange w words.length low inc)
        ∧ (plainRange w (newRange w words.length low inc)).2 = words := by
  have hbounds := inc_bounds hprog hlen
  have hbag : newRange w words.length low inc
      = { tnum := if 0 < inc then .ssort else .nsort, len := words.length, low := low,
          inc := inc } := by
    unfold newRange
    rw [IntSize.intobj_of_isSmall hsmall]
    rw [IntSize.intobj_of_isSmall hbounds.1]
    rw [IntSize.intobj_of_bounds hbounds.2.2.1 hbounds.2.2.2]
  have hgood : IsGoodRange w (newRange w words.length low inc) := by
    rw [hbag]
    constructor
    case isRange =>
      constructor
      . dsimp only
        omega
      . dsimp only
        split
        . next hpos => simp [hpos]
        . next hneg => simp [hneg]
    case inc_ne => exact hinc
    case len_small => exact hsmall
    case elms =>
      intro k hk
      dsimp only at hk ⊢
      exact (hprog k (by omega)).1
  refine ⟨hgood, ?_⟩
  have hlength := hgood.length_plainRange
  rw [hbag] at hlength hgood ⊢
  dsimp only at hlength
  apply ext_getElem?
  intro k
  rcases Nat.lt_or_ge k words.length with hlt | hge
  . rw [hgood.getElem?_plainRange (k := k) (by dsimp only; omega)]
    have helm := (hprog k hlt).2
    rw [getD_eq_getElem?_getD] at helm
    rw [getElem?_eq_getElem hlt] at helm ⊢
    rw [getD_some] at helm
    rw [helm]
  . rw [getElem?_eq_none (by omega)]
    rw [getElem?_eq_none hge]

-- The loop passes all entries of the progressions that start with the first two entries.
theorem len_lt_scanRange_iff (l : PlainWords w) {i j : Int} (hi : w.IsSmall i) (hj : w.IsSmall j)
    (h0 : l.words.getD 0 0 = 4 * i + 1) (h1 : l.words.getD 1 0 = 4 * j + 1)
    (hlen : 2 ≤ l.words.length)
    : l.words.length < scanRange w l.words i (j - i) (l.words.length - 2) 3
        ↔ IsProgression w l.words i (j - i) := by
  have hle : scanRange w l.words i (j - i) (l.words.length - 2) 3 ≤ 3 + (l.words.length - 2) :=
    scanRange_le _ _
  have hsecond : i + (j - i) = j := by omega
  have hprev : i + (((3 : Nat) : Int) - 2) * (j - i) = j := by
    push_cast
    ring
  have hscan : scanRange w l.words i (j - i) (l.words.length - 2) 3 = 3 + (l.words.length - 2)
      ↔ ∀ k, 3 - 1 ≤ k → k < 3 - 1 + (l.words.length - 2) →
        w.IsSmall (i + k * (j - i)) ∧ l.words.getD k 0 = 4 * (i + k * (j - i)) + 1 := by
    apply scanRange_eq_iff l.isObj hi
    . rw [hsecond]
      exact hj
    . omega
    . rw [hprev]
      exact hj
  have hend : l.words.length < scanRange w l.words i (j - i) (l.words.length - 2) 3
      ↔ scanRange w l.words i (j - i) (l.words.length - 2) 3 = 3 + (l.words.length - 2) := by
    omega
  rw [hend]
  rw [hscan]
  constructor
  . intro h k hk
    match k with
    | 0 =>
      rw [cast_zero]
      rw [zero_mul]
      rw [add_zero]
      exact ⟨hi, h0⟩
    | 1 =>
      rw [cast_one]
      rw [one_mul]
      rw [hsecond]
      exact ⟨hj, h1⟩
    | k + 2 =>
      apply h
      . omega
      . omega
  . intro h k _ hk
    apply h
    omega

theorem IsProgression.first (hprog : IsProgression w words low inc) (hlen : 2 ≤ words.length)
    : words.getD 0 0 = 4 * low + 1 ∧ words.getD 1 0 = 4 * (low + inc) + 1 := by
  have h0 := (hprog 0 (by omega)).2
  have h1 := (hprog 1 (by omega)).2
  rw [cast_zero] at h0
  rw [cast_one] at h1
  rw [zero_mul] at h0
  rw [add_zero] at h0
  rw [one_mul] at h1
  exact ⟨h0, h1⟩

theorem isIntobj_odd (i : Int) : isIntobj (4 * i + 1) = true := by
  unfold isIntobj
  rw [decide_eq_true_eq]
  omega

end Convert

theorem isRangeList_iff (hlen : 2 ≤ words.length)
    : IsRangeList w words ↔ ∃ low inc, inc ≠ 0 ∧ IsProgression w words low inc := by
  unfold IsRangeList
  constructor
  . intro h
    rcases h with hnil | hone | hprog
    . rw [hnil] at hlen
      contradiction
    . rcases hone with ⟨i, hi⟩
      rw [hi.2] at hlen
      rw [length_singleton] at hlen
      omega
    . exact hprog.2
  . intro h
    right
    right
    exact ⟨hlen, h⟩

theorem not_isRangeList_of_first (hlen : 2 ≤ words.length)
    (h : isIntobj (words.getD 0 0) = false ∨ isIntobj (words.getD 1 0) = false
      ∨ words.getD 0 0 = words.getD 1 0)
    : ¬IsRangeList w words := by
  rw [isRangeList_iff hlen]
  intro hex
  rcases hex with ⟨low, inc, hprog⟩
  have hfirst := hprog.2.first hlen
  rw [hfirst.1] at h
  rw [hfirst.2] at h
  rw [isIntobj_odd] at h
  rw [isIntobj_odd] at h
  rcases h with hfalse | hfalse | heq
  . contradiction
  . contradiction
  . apply hprog.1
    omega

theorem not_isIntobj_iff {o : Int} : (o = 0 ∨ (!isIntobj o) = true) ↔ isIntobj o = false := by
  unfold isIntobj
  simp only [Bool.not_eq_true', decide_eq_false_iff_not]
  omega

structure TestsRange (w : IntSize) (l : PlainWords w) (res : Bool × ListObj w) : Prop where
  iff : res.1 = true ↔ IsRangeList w l.words
  unchanged : ∀ l', res.2 = .plist l' → l' = l
  range : ∀ r, res.2 = .range r → IsGoodRange w r ∧ (plainRange w r).2 = l.words

theorem testsRange_plist {l : PlainWords w} {isRange : Bool}
    (h : isRange = true ↔ IsRangeList w l.words) : TestsRange w l (isRange, .plist l) := by
  constructor
  . exact h
  . intro l' hl'
    rw [ListObj.plist.injEq] at hl'
    exact hl'.symm
  . intro r hr
    contradiction

theorem exists_small_of_getD {l : PlainWords w} {k : Nat} (hk : k < l.words.length)
    (hodd : isIntobj (l.words.getD k 0) = true)
    : ∃ i, w.IsSmall i ∧ l.words.getD k 0 = 4 * i + 1 := by
  apply l.isObj _ _ hodd
  rw [getD_eq_getElem?_getD]
  rw [getElem?_eq_getElem hk]
  rw [getD_some]
  apply getElem_mem

theorem testsRange_scan (l : PlainWords w) (hlen : 2 ≤ l.words.length)
    (hfirst : isIntobj (l.words.getD 0 0) = true) (hsecond : isIntobj (l.words.getD 1 0) = true)
    (hdistinct : l.words.getD 0 0 ≠ l.words.getD 1 0)
    : TestsRange w l
        (let low := INT_INTOBJ (l.words.getD 0 0)
        let inc := w.wrap (INT_INTOBJ (l.words.getD 1 0) - low)
        let i := scanRange w l.words low inc (l.words.length - 2) 3
        if l.words.length < i then
          (true, .range (newRange w l.words.length low inc))
        else
          (false, .plist l)) := by
  rcases exists_small_of_getD (by omega) hfirst with ⟨i, hi⟩
  rcases exists_small_of_getD (by omega) hsecond with ⟨j, hj⟩
  have hdiff : w.wrap (j - i) = j - i := by
    apply w.wrap_of_isInt
    have hi' := hi.1
    have hj' := hj.1
    rw [IntSize.isSmall_iff] at hi' hj'
    rw [IntSize.isInt_iff]
    omega
  have hne : j - i ≠ 0 := by
    intro hzero
    apply hdistinct
    rw [hi.2]
    rw [hj.2]
    omega
  have hscan := len_lt_scanRange_iff l hi.1 hj.1 hi.2 hj.2 hlen
  rw [hi.2]
  rw [hj.2]
  rw [INT_INTOBJ_eq]
  rw [INT_INTOBJ_eq]
  dsimp only
  rw [hdiff]
  split
  . next hlt =>
    rw [hscan] at hlt
    constructor
    . rw [isRangeList_iff hlen]
      simp only [true_iff]
      exact ⟨i, j - i, hne, hlt⟩
    . intro l' hl'
      contradiction
    . intro r hr
      dsimp only at hr
      rw [ListObj.range.injEq] at hr
      rw [← hr]
      apply isGoodRange_newRange hlt hne hlen l.len_small
  . next hnlt =>
    rw [hscan] at hnlt
    apply testsRange_plist
    rw [isRangeList_iff hlen]
    simp only [Bool.false_eq_true, false_iff]
    intro hex
    rcases hex with ⟨low, inc, hprog⟩
    have hentries := hprog.2.first hlen
    rw [hi.2] at hentries
    rw [hj.2] at hentries
    apply hnlt
    rw [show i = low by omega]
    rw [show j - low = inc by omega]
    exact hprog.2

theorem testsRange_isRange (l : PlainWords w) : TestsRange w l (isRange w (.plist l)) := by
  unfold isRange
  dsimp only
  split
  . next hzero =>
    apply testsRange_plist
    rw [length_eq_zero_iff] at hzero
    unfold IsRangeList
    simp [hzero]
  . next hne =>
    split
    . next hone =>
      apply testsRange_plist
      simp only [true_iff]
      right
      left
      rcases length_eq_one_iff.1 hone.1 with ⟨o, ho⟩
      have hodd := hone.2
      rw [ho] at hodd
      rw [getD_cons_zero] at hodd
      have hmem : o ∈ l.words := by
        rw [ho]
        apply mem_singleton_self
      rcases l.isObj o hmem hodd with ⟨i, hi⟩
      refine ⟨i, hi.1, ?_⟩
      rw [ho]
      rw [hi.2]
    . next hone =>
      simp only [not_isIntobj_iff]
      by_cases hlen : 2 ≤ l.words.length
      . split
        . next hfirst =>
          apply testsRange_plist
          have := not_isRangeList_of_first (w := w) hlen (Or.inl hfirst)
          simp [this]
        . next hfirst =>
          split
          . next hsecond =>
            apply testsRange_plist
            have := not_isRangeList_of_first (w := w) hlen (Or.inr (Or.inl hsecond))
            simp [this]
          . next hsecond =>
            split
            . next heq =>
              apply testsRange_plist
              have := not_isRangeList_of_first (w := w) hlen (Or.inr (Or.inr heq))
              simp [this]
            . next hdistinct =>
              rw [Bool.not_eq_false] at hfirst hsecond
              apply testsRange_scan l hlen hfirst hsecond hdistinct
      . -- One entry that is not an integer
        have hlength : l.words.length = 1 := by omega
        have hfirst : isIntobj (l.words.getD 0 0) = false := by
          rw [← Bool.not_eq_true]
          intro hodd
          exact hone ⟨hlength, hodd⟩
        rw [if_pos hfirst]
        apply testsRange_plist
        simp only [Bool.false_eq_true, false_iff]
        intro h
        rcases h with hnil | hsingle | hprog
        . rw [hnil] at hne
          exact hne rfl
        . rcases hsingle with ⟨i, hi⟩
          rw [hi.2] at hfirst
          rw [getD_cons_zero] at hfirst
          rw [isIntobj_odd] at hfirst
          contradiction
        . exact hlen hprog.1

theorem IsGoodRange.isRangeList {r : RangeBag} (h : IsGoodRange w r)
    : IsRangeList w (plainRange w r).2 := by
  have hlen := h.length_plainRange
  have htwo := h.isRange.two_le_len
  rw [isRangeList_iff (by omega)]
  refine ⟨r.low, r.inc, h.inc_ne, ?_⟩
  intro k hk
  have hget := h.getElem?_plainRange (k := k) (by omega)
  refine ⟨h.elms k (by omega), ?_⟩
  rw [getD_eq_getElem?_getD]
  rw [hget]
  rw [getD_some]

def entries (list : ListObj w) : List Int :=
  match list with
  | .plist l => l.words
  | .range r => (plainRange w r).2

def IsValid (list : ListObj w) : Prop :=
  match list with
  | .plist _ => True
  | .range r => IsGoodRange w r

theorem isRange_spec (list : ListObj w) (h : IsValid list)
    : ((isRange w list).1 = true ↔ IsRangeList w (entries list))
        ∧ entries (isRange w list).2 = entries list
        ∧ ∀ r, (isRange w list).2 = .range r → KeepsEntries w (entries list) r := by
  cases list with
  | plist l =>
    have htests := testsRange_isRange l
    generalize isRange w (.plist l) = res at htests ⊢
    refine ⟨htests.iff, ?_, ?_⟩
    . cases hres : res.2 with
      | plist l' => rw [htests.unchanged l' hres]
      | range r => exact (htests.range r hres).2
    . intro r hres
      have hrange := htests.range r hres
      unfold entries
      dsimp only
      rw [← hrange.2]
      apply hrange.1.keepsEntries
  | range r =>
    have hgood : IsGoodRange w r := h
    refine ⟨?_, rfl, ?_⟩
    . simp only [isRange, true_iff]
      apply hgood.isRangeList
    . intro r' hr'
      unfold isRange at hr'
      dsimp only at hr'
      rw [ListObj.range.injEq] at hr'
      rw [← hr']
      apply hgood.keepsEntries

-- The list `[ -2^60, 2^60 - 1 ]`, the increment is larger than a small integer.
def extremeWords : PlainWords .int8 where
  words := [4 * (-2 ^ 60) + 1, 4 * (2 ^ 60 - 1) + 1]
  isObj := by
    intro o ho _
    rw [List.mem_cons] at ho
    rw [List.mem_singleton] at ho
    cases ho with
    | inl ho => exact ⟨-2 ^ 60, by decide, ho⟩
    | inr ho => exact ⟨2 ^ 60 - 1, by decide, ho⟩
  len_small := by decide

theorem isRange_spec_extremeWords
    : ((isRange .int8 (.plist extremeWords)).1 = true
          ↔ IsRangeList .int8 (entries (.plist extremeWords)))
        ∧ entries (isRange .int8 (.plist extremeWords)).2 = entries (.plist extremeWords)
        ∧ ∀ r, (isRange .int8 (.plist extremeWords)).2 = .range r →
          KeepsEntries .int8 (entries (.plist extremeWords)) r := by
  apply isRange_spec
  trivial

end RangeConv
