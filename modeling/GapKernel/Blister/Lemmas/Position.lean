import GapKernel.Blister.Lemmas.Run
import GapKernel.FirstOccurrence

namespace BlistImpl

open Blist BitBlocks FirstOccurrence Nat

variable {w : Nat}

theorem wordOfInt_natCast {n : Nat} (h : n < 2 ^ w) : wordOfInt w n = n := by
  unfold wordOfInt
  rw [← Int.natCast_emod, Int.toNat_natCast, mod_eq_of_lt h]

def HasBit (blocks : List (BitVec w)) (val : Bool) (pos : Nat) : Prop :=
  bitAt blocks (pos - 1) = val

section

variable {blocks : List (BitVec w)} {val : Bool} {i : Nat}

variable {j : Nat}

theorem hasBit_block (hj : j < w)
    : HasBit blocks val (w * i + j + 1) ↔ (blocks.getD i 0#w).getLsbD j = val := by
  unfold HasBit
  rw [Nat.add_sub_cancel, bitAt_mul_add hj]

variable {n : Nat}

theorem posBits_spec (h : j + n ≤ w)
    : IsFirstHit (HasBit blocks val) (w * i + j + 1) (w * i + j + n + 1)
        (posBits val (blocks.getD i 0#w) i n j) := by
  induction n generalizing j with
  | zero => exact isFirstHit_empty (Nat.le_refl _)
  | succ n ih =>
    have hbit := @hasBit_block w blocks val i j (by omega)
    unfold posBits
    rw [and_mask_ne_zero _ (by omega)]
    split
    . next heq => exact isFirstHit_self (by omega) (hbit.mpr heq)
    . next hne =>
      apply IsFirstHit.succ (fun hc => hne (hbit.mp hc))
      have := ih (j := j + 1) (by omega)
      rw [show w * i + (j + 1) + n + 1 = w * i + j + (n + 1) + 1 by omega] at this
      exact this

theorem posBlock_spec (h : j + n ≤ w)
    : IsFirstHit (HasBit blocks val) (w * i + j + 1) (w * i + j + n + 1)
        (posBlock val (blocks.getD i 0#w) i n j) := by
  unfold posBlock
  by_cases hx : blocks.getD i 0#w ≠ if val then 0#w else ~~~0#w
  . rw [if_pos hx]
    exact posBits_spec h
  . rw [if_neg hx]
    rw [not_not] at hx
    intro pos hpos hlt
    obtain ⟨k, rfl⟩ : ∃ k, pos = w * i + k + 1 := ⟨pos - 1 - w * i, by omega⟩
    rw [hasBit_block (by omega), hx]
    cases val with
    | false => simp [show k < w by omega]
    | true => simp

theorem posBlock_none {x : BitVec w} : posBlock val x i 0 j = none :=
  ite_self none

theorem posBlock_start (h : n ≤ w)
    : IsFirstHit (HasBit blocks val) (w * i + 1) (w * i + n + 1)
        (posBlock val (blocks.getD i 0#w) i n 0) :=
  posBlock_spec (j := 0) (by omega)

end

section

variable {list : Blist w} {l : List Bool}

variable {val : Bool}

theorem posBool_error {firstblock lastblock firstoffset lastoffset : Nat}
    (hfirst : list.numberBlocks ≤ firstblock)
    : posBool val list firstblock lastblock firstoffset lastoffset = .error .access := by
  unfold posBool readBlock
  rw [if_neg (by omega)]
  rfl

variable (hw : 0 < w) (h : Refines list l)

include hw h

theorem readBlock_of_lt {i : Nat} (hi : i < list.numberBlocks)
    : readBlock list i = .ok (list.blocks.getD i 0#w) := by
  unfold readBlock
  rw [if_pos hi, elmBlock_eq (Nat.lt_of_lt_of_le hi (numberBlocks_le hw h))]

theorem posMiddle_spec {n i : Nat} (hn : i + n ≤ list.numberBlocks)
    : ∃ hit, posMiddle val list n i = .ok hit
        ∧ IsFirstHit (HasBit list.blocks val) (w * i + 1) (w * (i + n) + 1) hit := by
  induction n generalizing i with
  | zero => exact ⟨none, rfl, isFirstHit_empty (Nat.le_refl _)⟩
  | succ n ih =>
    have hblock : IsFirstHit (HasBit list.blocks val) (w * i + 1) (w * (i + 1) + 1)
        (posBlock val (list.blocks.getD i 0#w) i w 0) := by
      rw [mul_succ]
      exact posBlock_start (Nat.le_refl w)
    obtain ⟨hit, hrun, hhit⟩ := ih (i := i + 1) (by omega)
    rw [show i + 1 + n = i + (n + 1) by omega] at hhit
    have hle : w * (i + 1) ≤ w * (i + (n + 1)) := Nat.mul_le_mul_left w (by omega)
    have hor := hblock.or hhit (by rw [mul_succ]; omega) (by omega)
    unfold posMiddle
    rw [readBlock_of_lt hw h (by omega), ok_bind]
    cases hres : posBlock val (list.blocks.getD i 0#w) i w 0 with
    | some pos =>
      rw [hres] at hor
      exact ⟨some pos, rfl, hor⟩
    | none =>
      rw [hres] at hor
      exact ⟨hit, hrun, hor⟩

theorem posBool_spec {start : Nat} (hlen : list.len < 2 ^ w)
    (hstart : start / w < list.numberBlocks)
    : ∃ hit, posBool val list (start / w) (wordOfInt w (((list.len : Int) - 1).tdiv w)) (start % w)
          (wordOfInt w (((list.len : Int) - 1).tmod w)) = .ok hit
        ∧ IsFirstHit (HasBit list.blocks val) (start + 1) (list.len + 1) hit := by
  have hpos : 0 < list.len := by
    apply Nat.pos_of_ne_zero
    intro hzero
    unfold numberBlocks plenBlocks at hstart
    rw [hzero, Nat.zero_add, div_eq_of_lt (sub_lt hw Nat.one_pos)] at hstart
    exact Nat.not_lt_zero _ hstart
  have hcast : ((list.len : Int) - 1) = ((list.len - 1 : Nat) : Int) := by
    omega
  have hnumber : list.numberBlocks = (list.len - 1) / w + 1 := by
    unfold numberBlocks plenBlocks
    rw [show list.len + w - 1 = list.len - 1 + w by omega, add_div_right _ hw]
  have hlast : w * ((list.len - 1) / w) + (list.len - 1) % w + 1 = list.len := by
    rw [div_add_mod]
    omega
  have hfirst := div_add_mod start w
  have hmod := mod_lt start hw
  have hmod' := mod_lt (list.len - 1) hw
  rw [hcast, ← Int.ofNat_tdiv, ← Int.ofNat_tmod]
  rw [wordOfInt_natCast (Nat.lt_of_le_of_lt (Nat.div_le_self _ _) (by omega))]
  rw [wordOfInt_natCast (Nat.lt_of_le_of_lt (mod_le _ _) (by omega))]
  rw [hnumber] at hstart
  unfold posBool
  rw [readBlock_of_lt hw h (by omega), ok_bind]
  by_cases heq : start / w = (list.len - 1) / w
  . rw [if_pos heq]
    refine ⟨_, rfl, ?_⟩
    by_cases hle : start % w ≤ (list.len - 1) % w + 1
    . have hblock := @posBlock_spec w list.blocks val (start / w)
        (start % w) ((list.len - 1) % w + 1 - start % w) (by omega)
      rw [hfirst] at hblock
      rw [show start + ((list.len - 1) % w + 1 - start % w) = list.len by rw [heq] at hfirst; omega]
        at hblock
      exact hblock
    . rw [Nat.sub_eq_zero_of_le (by omega), posBlock_none]
      apply isFirstHit_empty
      rw [heq] at hfirst
      omega
  . rw [if_neg heq]
    have hlt : start / w + 1 ≤ (list.len - 1) / w := by
      omega
    have hle := Nat.mul_le_mul_left w hlt
    rw [mul_succ] at hle
    have hblock := @posBlock_spec w list.blocks val (start / w) (start % w) (w - start % w)
      (by omega)
    rw [hfirst, show start + (w - start % w) = w * (start / w + 1) by rw [mul_succ]; omega]
      at hblock
    obtain ⟨hit, hrun, hhit⟩ := @posMiddle_spec w list l val hw h
      ((list.len - 1) / w - (start / w + 1)) (start / w + 1) (by omega)
    rw [add_sub_of_le hlt] at hhit
    have hend : IsFirstHit (HasBit list.blocks val) (w * ((list.len - 1) / w) + 1) (list.len + 1)
        (posBlock val (list.blocks.getD ((list.len - 1) / w) 0#w) ((list.len - 1) / w)
          ((list.len - 1) % w + 1) 0) := by
      have := @posBlock_start w list.blocks val ((list.len - 1) / w) ((list.len - 1) % w + 1)
        (by omega)
      rw [← Nat.add_assoc, hlast] at this
      exact this
    have hall := hblock.or (hhit.or hend (by rw [mul_succ]; omega) (by omega))
      (by rw [mul_succ]; omega) (by rw [mul_succ]; omega)
    cases hres : posBlock val (list.blocks.getD (start / w) 0#w) (start / w) (w - start % w)
        (start % w) with
    | some pos =>
      rw [hres] at hall
      exact ⟨some pos, rfl, hall⟩
    | none =>
      rw [hres] at hall
      rw [hrun, ok_bind]
      cases hit with
      | some pos => exact ⟨some pos, rfl, hall⟩
      | none =>
        rw [readBlock_of_lt hw h (by omega), ok_bind]
        exact ⟨_, rfl, hall⟩

end

section

variable {E : Type} {eq : E → E → Bool} {list : List (Option E)} {obj : E}

def IsEqual (eq : E → E → Bool) (list : List (Option E)) (obj : E) (pos : Nat) : Prop :=
  (elmv0List list pos).any (fun elm => eq elm obj) = true

theorem posListLoop_spec {n i : Nat}
    : IsFirstHit (IsEqual eq list obj) i (i + n) (posListLoop eq list obj n i) := by
  induction n generalizing i with
  | zero => exact isFirstHit_empty (Nat.le_refl _)
  | succ n ih =>
    unfold posListLoop
    split
    . next heq => exact isFirstHit_self (by omega) heq
    . next hne =>
      apply IsFirstHit.succ hne
      rw [show i + (n + 1) = i + 1 + n by omega]
      exact ih

theorem posListDefault_spec {start : Nat}
    : IsFirstHit (IsEqual eq list obj) (start + 1) (list.length + 1)
        (posListDefault eq list obj start) := by
  unfold posListDefault
  by_cases hle : start ≤ list.length
  . have := @posListLoop_spec E eq list obj (list.length - start) (start + 1)
    rw [show start + 1 + (list.length - start) = list.length + 1 by omega] at this
    exact this
  . rw [Nat.sub_eq_zero_of_le (by omega)]
    exact isFirstHit_empty (by omega)

end

section

variable {E : Type} {f : ObjFuncs E} {list : Blist w} {l : List Bool}

theorem isEqual_succ {val : E} {i : Nat} (hi : i < l.length)
    : IsEqual f.eq (l.map (fun b => some (f.ofBool b))) val (i + 1)
        ↔ f.eq (f.ofBool l[i]) val = true := by
  unfold IsEqual elmv0List
  rw [Nat.add_sub_cancel, List.getD_eq_getElem?_getD, List.getElem?_map]
  rw [List.getElem?_eq_getElem hi]
  rfl

variable [DecidableEq E] (heq : ∀ a b, f.eq (f.ofBool a) (f.ofBool b) = decide (a = b))
  (hw : 0 < w) (hlen : list.len < 2 ^ w) (h : Refines list l)

include heq hw hlen h

theorem posBlist_bool {val : E} {b : Bool} (hval : val = f.ofBool b) (start : Nat)
    : posBlist f list val start
        = .ok (posListDefault f.eq (l.map (fun b => some (f.ofBool b))) val start)
        ↔ list.len = start ∨ start / w < list.numberBlocks := by
  have hdefault := @posListDefault_spec E f.eq (l.map (fun b => some (f.ofBool b))) val start
  rw [List.length_map, ← h.len_eq] at hdefault
  have hne : f.ofBool true ≠ f.ofBool false := by
    intro hc
    have := heq true false
    rw [← hc, heq] at this
    exact absurd this (by decide)
  unfold posBlist
  by_cases hstart : list.len = start
  . rw [if_pos (by omega)]
    refine ⟨fun _ => Or.inl hstart, fun _ => ?_⟩
    congr 1
    exact (isFirstHit_empty (by omega)).unique hdefault
  . rw [if_neg (by omega)]
    have hbool : ∀ x : Result (Option Nat), (if val = f.ofBool true then posBool true list (start / w)
          (wordOfInt w (((list.len : Int) - 1).tdiv w)) (start % w)
          (wordOfInt w (((list.len : Int) - 1).tmod w))
        else if val = f.ofBool false then posBool false list (start / w)
          (wordOfInt w (((list.len : Int) - 1).tdiv w)) (start % w)
          (wordOfInt w (((list.len : Int) - 1).tmod w))
        else x) = posBool b list (start / w) (wordOfInt w (((list.len : Int) - 1).tdiv w)) (start % w)
          (wordOfInt w (((list.len : Int) - 1).tmod w)) := by
      intro x
      cases b with
      | true => rw [if_pos hval]
      | false => rw [hval, if_neg (fun hc => hne hc.symm), if_pos rfl]
    rw [hbool]
    by_cases hin : start / w < list.numberBlocks
    . refine ⟨fun _ => Or.inr hin, fun _ => ?_⟩
      obtain ⟨hit, hrun, hhit⟩ := @posBool_spec w list l b hw h start hlen hin
      rw [hrun]
      congr 1
      apply IsFirstHit.unique _ hdefault
      apply hhit.congr
      intro pos hpos hlt
      obtain ⟨i, rfl⟩ : ∃ i, pos = i + 1 := ⟨pos - 1, by omega⟩
      have hi : i < l.length := by
        rw [← h.len_eq]
        omega
      rw [isEqual_succ hi, hval, heq, decide_eq_true_iff]
      unfold HasBit
      rw [Nat.add_sub_cancel, h.represents.bit_eq hi]
    . rw [posBool_error (by omega)]
      simp [hstart, hin]

/--
`PosBlist` agrees with `PosListDefault`, and only reads blocks of the list, iff for `true` and
`false` the search starts at the end or in one of the blocks, and another value is not equal to one
of the entries.
-/
theorem posBlist_iff (val : E) (start : Nat)
    : posBlist f list val start
        = .ok (posListDefault f.eq (l.map (fun b => some (f.ofBool b))) val start)
        ↔ (val = f.ofBool true ∨ val = f.ofBool false →
            list.len = start ∨ start / w < list.numberBlocks)
          ∧ (val ≠ f.ofBool true → val ≠ f.ofBool false →
            ∀ b ∈ l.drop start, f.eq (f.ofBool b) val = false) := by
  by_cases htrue : val = f.ofBool true
  . rw [posBlist_bool heq hw hlen h htrue]
    simp [htrue]
  . by_cases hfalse : val = f.ofBool false
    . rw [posBlist_bool heq hw hlen h hfalse]
      simp [hfalse]
    . have hrun : posBlist f list val start = .ok none := by
        unfold posBlist
        dsimp only
        rw [if_neg htrue, if_neg hfalse]
        exact ite_self _
      have hdefault := @posListDefault_spec E f.eq (l.map (fun b => some (f.ofBool b))) val start
      rw [List.length_map] at hdefault
      have hnone : posListDefault f.eq (l.map (fun b => some (f.ofBool b))) val start = none
          ↔ ∀ b ∈ l.drop start, f.eq (f.ofBool b) val = false := by
        constructor
        . intro hnone b hb
          rw [hnone] at hdefault
          obtain ⟨k, hk, rfl⟩ := List.mem_drop_iff_getElem.mp hb
          have := hdefault (start + k + 1) (by omega) (by omega)
          rw [isEqual_succ (by omega), Bool.not_eq_true] at this
          exact this
        . intro hall
          apply IsFirstHit.unique hdefault
          intro pos hpos hlt
          obtain ⟨i, rfl⟩ : ∃ i, pos = i + 1 := ⟨pos - 1, by omega⟩
          rw [isEqual_succ (by omega), Bool.not_eq_true]
          apply hall
          rw [List.mem_drop_iff_getElem]
          exact ⟨i - start, by omega, by congr 1; omega⟩
      rw [hrun, Except.ok.injEq, eq_comm, hnone]
      simp [htrue, hfalse]

end

/-- Only the empty list of blocks belongs to the list, but the first block is read. -/
theorem posBlist_empty
    : Refines (⟨.blist, 0, []⟩ : Blist 64) []
      ∧ posBlist intBoolFuncs (⟨.blist, 0, []⟩ : Blist 64) (.inr true) 1 = .error .access
      ∧ posListDefault intBoolFuncs.eq [] (.inr true) 1 = none := by
  refine ⟨⟨rfl, Nat.le_refl _, ?_⟩, ?_, rfl⟩
  . intro i
    exact bitAt_of_length_le (by decide) (Nat.zero_le _)
  . decide

theorem posBlist_iff_true_false
    : posBlist intBoolFuncs (⟨.blist, 2, [1#64]⟩ : Blist 64) (.inr false) 1
        = .ok (posListDefault intBoolFuncs.eq
          ([true, false].map (fun b => some (intBoolFuncs.ofBool b))) (.inr false) 1)
        ↔ ((.inr false : Int ⊕ Bool) = intBoolFuncs.ofBool true
              ∨ (.inr false : Int ⊕ Bool) = intBoolFuncs.ofBool false →
            2 = 1 ∨ 1 / 64 < (⟨.blist, 2, [1#64]⟩ : Blist 64).numberBlocks)
          ∧ ((.inr false : Int ⊕ Bool) ≠ intBoolFuncs.ofBool true →
            (.inr false : Int ⊕ Bool) ≠ intBoolFuncs.ofBool false →
            ∀ b ∈ [true, false].drop 1,
              intBoolFuncs.eq (intBoolFuncs.ofBool b) (.inr false) = false) :=
  posBlist_iff (by decide) (by decide) (by decide) refines_true_false _ _

end BlistImpl
