import GapKernel.Blister.Impl
import GapKernel.SetOrder

open List Nat

def ltBool (a b : Bool) : Bool :=
  a && !b

theorem strictlySorted_ltBool_iff (l : List Bool)
    : StrictlySorted ltBool l ↔ l.length ≤ 1 ∨ l = [true, false] := by
  unfold StrictlySorted ltBool
  match l with
  | [] => simp
  | [a] => simp
  | [a, b] => simp
  | a :: b :: c :: l =>
    simp only [pairwise_cons, mem_cons, forall_eq_or_imp, Bool.and_eq_true,
      Bool.not_eq_true', length_cons]
    constructor
    . rintro ⟨⟨hab, _⟩, ⟨hbc, _⟩, _⟩
      rw [hab.2] at hbc
      cases hbc.1
    . rintro (hlen | heq)
      . omega
      . cases heq

namespace Blist

open BitBlocks

variable {w : Nat}

structure Refines (b : Blist w) (l : List Bool) : Prop where
  len_eq : b.len = l.length
  represents : Represents b.blocks l

structure Truthful (b : Blist w) (l : List Bool) : Prop where
  ssort : b.tnum = .blistSsort → StrictlySorted ltBool l
  nsort : b.tnum = .blistNsort → ¬StrictlySorted ltBool l

variable {blocks : List (BitVec w)}

theorem elmBlock_eq {ptr : Nat} (h : ptr < blocks.length)
    : elmBlock blocks ptr = .ok (blocks.getD ptr 0#w) := by
  unfold elmBlock
  rw [getD_eq_getElem?_getD, getElem?_eq_getElem h]
  rfl

theorem setBlock_eq {ptr : Nat} (h : ptr < blocks.length) (block : BitVec w)
    : setBlock blocks ptr block = .ok (blocks.set ptr block) := by
  unfold setBlock
  rw [if_pos h]
  rfl

theorem maskPos_succ (i : Nat) : maskPos w (i + 1) = 1#w <<< (i % w) :=
  rfl

theorem represents_set {blocks' : List (BitVec w)} {l : List Bool} {i : Nat} {v : Bool}
    (h : Represents blocks l) (hi : i < l.length) (hlen : blocks'.length = blocks.length)
    (hbits : ∀ j, bitAt blocks' j = if j = i then v else bitAt blocks j)
    : Represents blocks' (l.set i v) := by
  apply h.of_bits hlen
  . rw [length_set]
  . intro j
    rw [hbits, h.bits]
    simp only [getD_eq_getElem?_getD, getElem?_set]
    by_cases hj : j = i
    . rw [if_pos hj, if_pos hj.symm, if_pos (by omega)]
      rfl
    . rw [if_neg hj, if_neg (fun h => hj h.symm)]

section

variable (hw : 0 < w) {b : Blist w} {l : List Bool} {i : Nat}

include hw

section

variable (h : Represents b.blocks l) (hi : i < l.length)

include h hi

theorem testBit_spec
    : b.testBit (i + 1) = .ok l[i] := by
  unfold testBit
  rw [Nat.add_sub_cancel]
  rw [elmBlock_eq (h.div_lt hw hi)]
  rw [ok_bind]
  rw [maskPos_succ, and_mask_ne_zero _ (mod_lt i hw)]
  rw [← h.bit_eq hi]
  rfl

theorem setBit_spec
    : ∃ blocks, b.setBit (i + 1) = .ok { b with blocks := blocks }
        ∧ Represents blocks (l.set i true) := by
  have hdiv := h.div_lt hw hi
  refine ⟨b.blocks.set (i / w) (b.blocks.getD (i / w) 0#w ||| 1#w <<< (i % w)), ?_, ?_⟩
  . unfold setBit
    rw [Nat.add_sub_cancel]
    rw [elmBlock_eq hdiv]
    rw [ok_bind]
    rw [setBlock_eq hdiv]
    rfl
  . apply represents_set h hi
    . rw [length_set]
    . intro j
      apply bitAt_setBit hw hdiv

theorem clearBit_spec
    : ∃ blocks, b.clearBit (i + 1) = .ok { b with blocks := blocks }
        ∧ Represents blocks (l.set i false) := by
  have hdiv := h.div_lt hw hi
  refine ⟨b.blocks.set (i / w) (b.blocks.getD (i / w) 0#w &&& ~~~(1#w <<< (i % w))), ?_, ?_⟩
  . unfold clearBit
    rw [Nat.add_sub_cancel]
    rw [elmBlock_eq hdiv]
    rw [ok_bind]
    rw [setBlock_eq hdiv]
    rfl
  . apply represents_set h hi
    . rw [length_set]
    . intro j
      apply bitAt_clearBit hw hdiv

end

theorem le_plenBlocks_mul (plen : Nat) : plen ≤ plenBlocks w plen * w := by
  unfold plenBlocks
  have := div_add_mod (plen + w - 1) w
  have := mod_lt (plen + w - 1) hw
  rw [Nat.mul_comm]
  omega

theorem plenBlocks_le {n : Nat} {plen : Nat} (h : plen ≤ n * w) : plenBlocks w plen ≤ n := by
  unfold plenBlocks
  apply le_of_lt_succ
  rw [Nat.div_lt_iff_lt_mul hw, succ_mul]
  omega

theorem represents_grow (h : Represents b.blocks l)
    : Represents (if b.blocks.length < plenBlocks w (l.length + 1) then
        b.resizeBag (plenBlocks w (l.length + 1)) else b).blocks (l ++ [false]) := by
  have hbits : ∀ i, bitAt b.blocks i = (l ++ [false]).getD i false := by
    intro i
    rw [h.bits]
    simp only [getD_eq_getElem?_getD, getElem?_append]
    split
    next => rfl
    next hge =>
      rw [getElem?_eq_none (by omega)]
      cases i - l.length with
      | zero => rfl
      | succ n => rfl
  split
  next hlt =>
    unfold resizeBag
    rw [take_of_length_le (by omega)]
    constructor
    . simp only [length_append, length_replicate, length_singleton]
      rw [Nat.add_sub_cancel' (by omega)]
      exact le_plenBlocks_mul hw _
    . intro i
      rw [bitAt_append_zero]
      exact hbits i
  next hge =>
    constructor
    . rw [length_append, length_singleton]
      have := le_plenBlocks_mul hw (l.length + 1)
      exact Nat.le_trans this (Nat.mul_le_mul_right w (by omega))
    . exact hbits

end

end Blist

namespace BlistImpl

open Blist BitBlocks

variable {w : Nat}

def assList (l : List Bool) (pos : Nat) (val : Bool) : List Bool :=
  if pos ≤ l.length then l.set (pos - 1) val else l ++ [val]

def unbList (l : List Bool) (pos : Nat) : List Bool :=
  if l.length = pos then l.dropLast else l

@[simp]
theorem clearFiltsTab_eq (tnum : BlistTnum) : clearFiltsTab tnum = .blist := by
  cases tnum with
  | blist => rfl
  | blistNsort => rfl
  | blistSsort => rfl

section

variable (hw : 0 < w) {b : Blist w} {l : List Bool} (hb : Refines b l)

include hw hb

variable {pos : Nat}

theorem assBlist_inside (hpos : 0 < pos) (hle : pos ≤ l.length) (val : Bool)
    : ∃ b', assBlist b pos val = .ok (.blist b') ∧ Refines b' (l.set (pos - 1) val)
        ∧ b'.tnum = .blist := by
  obtain ⟨i, rfl⟩ : ∃ i, pos = i + 1 := ⟨pos - 1, by omega⟩
  have hi : i < l.length := by
    omega
  have hlen : i + 1 ≤ b.len := by
    rw [hb.len_eq]
    omega
  unfold assBlist
  cases val with
  | true =>
    obtain ⟨blocks, hset, hrep⟩ := setBit_spec hw hb.represents hi
    rw [if_pos ⟨hlen, rfl⟩, hset]
    exact ⟨_, rfl, ⟨by simp [clearFiltsList, hb.len_eq], hrep⟩, clearFiltsTab_eq _⟩
  | false =>
    obtain ⟨blocks, hclear, hrep⟩ := clearBit_spec hw hb.represents hi
    rw [if_neg (by simp), if_pos ⟨hlen, rfl⟩, hclear]
    exact ⟨_, rfl, ⟨by simp [clearFiltsList, hb.len_eq], hrep⟩, clearFiltsTab_eq _⟩

theorem assBlist_past (val : Bool)
    : ∃ b', assBlist b (l.length + 1) val = .ok (.blist b') ∧ Refines b' (l ++ [val])
        ∧ b'.tnum = .blist := by
  have hgrow := represents_grow hw hb.represents
  have hi : l.length < (l ++ [false]).length := by
    simp
  have hset : ∀ v, (l ++ [false]).set l.length v = l ++ [v] := by
    intro v
    simp
  have hout : ¬l.length + 1 ≤ b.len := by
    rw [hb.len_eq]
    omega
  unfold assBlist
  rw [if_neg (fun h => hout h.1), if_neg (fun h => hout h.1), hb.len_eq]
  generalize (if b.blocks.length < plenBlocks w (l.length + 1) then
    b.resizeBag (plenBlocks w (l.length + 1)) else b) = b1 at *
  cases val with
  | true =>
    obtain ⟨blocks, hrun, hrep⟩ := setBit_spec hw (b := { b1 with len := l.length + 1 }) hgrow hi
    rw [hset] at hrep
    rw [if_pos ⟨rfl, rfl⟩]
    dsimp only
    rw [hrun]
    exact ⟨_, rfl, ⟨by simp [clearFiltsList], hrep⟩, clearFiltsTab_eq _⟩
  | false =>
    obtain ⟨blocks, hrun, hrep⟩ := clearBit_spec hw (b := { b1 with len := l.length + 1 }) hgrow hi
    rw [hset] at hrep
    rw [if_neg (by simp), if_pos ⟨rfl, rfl⟩]
    dsimp only
    rw [hrun]
    exact ⟨_, rfl, ⟨by simp [clearFiltsList], hrep⟩, clearFiltsTab_eq _⟩

theorem assBlist_spec (hpos : 0 < pos) (hle : pos ≤ l.length + 1) (val : Bool)
    : ∃ b', assBlist b pos val = .ok (.blist b') ∧ Refines b' (assList l pos val)
        ∧ b'.tnum = .blist := by
  unfold assList
  split
  next hin => exact assBlist_inside hw hb hpos hin val
  next hout =>
    have : pos = l.length + 1 := by
      omega
    rw [this]
    exact assBlist_past hw hb val

theorem unbBlist_spec (hpos : 0 < pos) (hle : l.length ≤ pos)
    : ∃ b', unbBlist b pos = .ok (.blist b') ∧ Refines b' (unbList l pos)
        ∧ (l.length = pos → b'.tnum = .blist) ∧ (l.length ≠ pos → b' = b) := by
  unfold unbBlist unbList
  dsimp only
  rw [hb.len_eq]
  split
  next hlen =>
    obtain ⟨i, hi⟩ : ∃ i, pos = i + 1 := ⟨pos - 1, by omega⟩
    obtain ⟨blocks, hclear, hrep⟩ := clearBit_spec hw (b := b.clearFiltsList) hb.represents
      (by omega : i < l.length)
    rw [hi, hclear]
    refine ⟨_, rfl, ⟨?_, ?_⟩, fun _ => clearFiltsTab_eq _, fun h => absurd (hlen.trans hi) h⟩
    . rw [length_dropLast]
    . constructor
      . change l.dropLast.length ≤ blocks.length * w
        have := hrep.enough
        rw [length_set] at this
        rw [length_dropLast]
        omega
      . intro j
        rw [hrep.bits]
        simp only [getD_eq_getElem?_getD, getElem?_set, getElem?_dropLast]
        by_cases hj : i = j
        . rw [if_pos hj, if_pos (by omega), if_neg (by omega)]
          rfl
        . rw [if_neg hj]
          by_cases hlt : j < l.length - 1
          . rw [if_pos hlt]
          . rw [if_neg hlt, getElem?_eq_none (by omega)]
  next hlen =>
    rw [if_neg (by omega)]
    exact ⟨b, rfl, hb, fun h => absurd h hlen, fun _ => rfl⟩

theorem isSSortBlist_spec (htnum : b.tnum = .blist)
    : ∃ b' isSort, isSSortBlist b = .ok (b', isSort) ∧ Refines b' l ∧ Truthful b' l
        ∧ (isSort = true ↔ StrictlySorted ltBool l) ∧ b'.tnum ≠ .blist := by
  have hanswer : ∃ isSort : Bool, (isSort = true ↔ StrictlySorted ltBool l) ∧
      (if b.len ≤ 1 then
        return true
      else if b.len = 2 then do
        let bit1 ← b.testBit 1
        let bit2 ← b.testBit 2
        return bit1 && !bit2
      else
        return false : Result Bool) = .ok isSort := by
    rw [hb.len_eq, strictlySorted_ltBool_iff]
    split
    next hle => exact ⟨true, by simp [hle], rfl⟩
    next hgt =>
      split
      next htwo =>
        match l, htwo with
        | [bit1, bit2], _ =>
          rw [testBit_spec hw hb.represents (by simp : 0 < _)]
          rw [ok_bind]
          rw [testBit_spec hw hb.represents (by simp : 1 < _)]
          rw [ok_bind]
          refine ⟨bit1 && !bit2, ?_, rfl⟩
          simp
      next hlen =>
        refine ⟨false, ?_, rfl⟩
        constructor
        . intro h
          cases h
        . rintro (h | h)
          . exact absurd h hgt
          . rw [h] at hlen
            exact absurd rfl hlen
  obtain ⟨isSort, hiff, hrun⟩ := hanswer
  unfold isSSortBlist
  rw [hrun]
  rw [ok_bind]
  cases isSort with
  | true =>
    refine ⟨{ b with tnum := .blistSsort }, true, ?_, ⟨hb.len_eq, hb.represents⟩, ⟨?_, ?_⟩, hiff,
      ?_⟩
    . unfold setFiltList setFiltTab
      rw [htnum]
      rfl
    . exact fun _ => hiff.mp rfl
    . intro h
      cases h
    . simp
  | false =>
    refine ⟨{ b with tnum := .blistNsort }, false, ?_, ⟨hb.len_eq, hb.represents⟩, ⟨?_, ?_⟩, hiff,
      ?_⟩
    . unfold setFiltList setFiltTab
      rw [htnum]
      rfl
    . intro h
      cases h
    . intro _ hsorted
      cases hiff.mpr hsorted
    . simp

theorem isSSortList_spec (ht : Truthful b l)
    : ∃ b' isSort, isSSortList b = .ok (b', isSort) ∧ Refines b' l ∧ Truthful b' l
        ∧ (isSort = true ↔ StrictlySorted ltBool l) ∧ b'.tnum ≠ .blist := by
  unfold isSSortList
  cases htnum : b.tnum with
  | blist => exact isSSortBlist_spec hw hb htnum
  | blistNsort =>
    refine ⟨b, false, rfl, hb, ht, ?_, by simp [htnum]⟩
    have := ht.nsort htnum
    simp [this]
  | blistSsort =>
    refine ⟨b, true, rfl, hb, ht, ?_, by simp [htnum]⟩
    have := ht.ssort htnum
    simp [this]

end

end BlistImpl
