import GapKernel.Blister.Lemmas.Access
import Mathlib.Data.List.ReduceOption

open List

structure IsObjFuncs {E : Type} (f : ObjFuncs E) : Prop where
  order : IsSetOrder f.eq f.lt
  -- An immediate integer is only equal to itself.
  eq_ofInt : ∀ n x, f.eq (f.ofInt n) x = true ↔ f.toInt x = some n
  toInt_ofInt : ∀ n, f.toInt (f.ofInt n) = some n
  lt_ofInt : ∀ m n, f.lt (f.ofInt m) (f.ofInt n) = decide (m < n)
  lt_ofBool : ∀ a b, f.lt (f.ofBool a) (f.ofBool b) = ltBool a b

namespace BlistImpl

open Blist BitBlocks

variable {w : Nat}

structure SetsBits (blocks blocks' : List (BitVec w)) (S : Nat → Bool) : Prop where
  length_eq : blocks'.length = blocks.length
  bits : ∀ i, bitAt blocks' i = (bitAt blocks i || S i)

namespace SetsBits

variable {blocks blocks' blocks'' : List (BitVec w)} {S T U : Nat → Bool}

theorem refl (h : ∀ i, S i = false) : SetsBits blocks blocks S where
  length_eq := rfl
  bits := by
    intro i
    rw [h, Bool.or_false]

theorem trans (h1 : SetsBits blocks blocks' S) (h2 : SetsBits blocks' blocks'' T)
    (hU : ∀ i, U i = (S i || T i)) : SetsBits blocks blocks'' U where
  length_eq := h2.length_eq.trans h1.length_eq
  bits := by
    intro i
    rw [h2.bits, h1.bits, hU, Bool.or_assoc]

theorem represents {l l' : List Bool} (h : SetsBits blocks blocks' S)
    (hrep : Represents blocks l) (hlen : l'.length = l.length)
    (hl' : ∀ i, l'.getD i false = (l.getD i false || S i)) : Represents blocks' l' := by
  apply hrep.of_bits h.length_eq hlen
  intro i
  rw [h.bits, hrep.bits, hl']

end SetsBits

variable {blocks : List (BitVec w)}

theorem orBit_spec (hw : 0 < w) {k : Nat} (hk : k < blocks.length * w)
    : ∃ blocks', orBit blocks k = .ok blocks' ∧ SetsBits blocks blocks' (fun i => i == k) := by
  have hdiv := div_lt_of_lt hw hk
  unfold orBit
  rw [elmBlock_eq hdiv]
  rw [ok_bind]
  rw [setBlock_eq hdiv]
  refine ⟨_, rfl, ?_, ?_⟩
  . rw [length_set]
  . intro i
    rw [bitAt_setBit hw hdiv]
    by_cases hi : i = k
    . simp [hi]
    . simp [hi]

section

variable (hw : 0 < w) {j : Int} {fuel k : Nat} {blocks : List (BitVec w)}
variable (hj : j ≤ blocks.length * w)

include hw hj

theorem rangeFirstLoop_spec (hfuel : j.toNat ≤ fuel + k)
    : ∃ blocks' k', rangeFirstLoop j (fuel + 1) blocks k = .ok (blocks', k') ∧ k ≤ k'
        ∧ (k' ≤ k ∨ k' ≤ j.toNat) ∧ (k' < j.toNat → k' % w = 0)
        ∧ SetsBits blocks blocks' (fun i => decide (k ≤ i ∧ i < k')) := by
  induction fuel generalizing k blocks with
  | zero =>
    unfold rangeFirstLoop
    rw [if_neg (by omega)]
    refine ⟨blocks, k, rfl, Nat.le_refl k, Or.inl (Nat.le_refl k), by omega, ?_⟩
    apply SetsBits.refl
    intro i
    simp
  | succ fuel ih =>
    unfold rangeFirstLoop
    split
    next hlt =>
      obtain ⟨blocks1, hor, hset⟩ := orBit_spec hw (by omega : k < blocks.length * w)
      rw [hor]
      rw [ok_bind]
      obtain ⟨blocks', k', hrun, hle, hend, hmod, hset'⟩ := ih
        (by rw [hset.length_eq]; exact hj) (by omega : j.toNat ≤ fuel + (k + 1))
      refine ⟨blocks', k', hrun, by omega, by omega, hmod, ?_⟩
      apply hset.trans hset'
      intro i
      rw [Bool.eq_iff_iff]
      simp
      omega
    next hge =>
      refine ⟨blocks, k, rfl, Nat.le_refl k, Or.inl (Nat.le_refl k), ?_, ?_⟩
      . intro hlt
        by_contra hmod
        exact hge ⟨by omega, hmod⟩
      . apply SetsBits.refl
        intro i
        simp

theorem rangeLastLoop_spec (hfuel : j.toNat ≤ fuel + k)
    : ∃ blocks', rangeLastLoop j (fuel + 1) blocks k = .ok blocks'
        ∧ SetsBits blocks blocks' (fun i => decide (k ≤ i ∧ i < j.toNat)) := by
  induction fuel generalizing k blocks with
  | zero =>
    unfold rangeLastLoop
    rw [if_neg (by omega)]
    refine ⟨blocks, rfl, ?_⟩
    apply SetsBits.refl
    intro i
    simp
    omega
  | succ fuel ih =>
    unfold rangeLastLoop
    split
    next hlt =>
      obtain ⟨blocks1, hor, hset⟩ := orBit_spec hw (by omega : k < blocks.length * w)
      rw [hor]
      rw [ok_bind]
      obtain ⟨blocks', hrun, hset'⟩ := ih
        (by rw [hset.length_eq]; exact hj) (by omega : j.toNat ≤ fuel + (k + 1))
      refine ⟨blocks', hrun, ?_⟩
      apply hset.trans hset'
      intro i
      rw [Bool.eq_iff_iff]
      simp
      omega
    next hge =>
      refine ⟨blocks, rfl, ?_⟩
      apply SetsBits.refl
      intro i
      simp
      omega

theorem rangeBlockLoop_spec (hk : k < j.toNat → k % w = 0) (hfuel : j.toNat ≤ fuel + k)
    : ∃ blocks' k', rangeBlockLoop j (fuel + 1) blocks k = .ok (blocks', k') ∧ k ≤ k'
        ∧ (k' ≤ k ∨ k' ≤ j.toNat)
        ∧ SetsBits blocks blocks' (fun i => decide (k ≤ i ∧ i < k')) := by
  induction fuel generalizing k blocks with
  | zero =>
    unfold rangeBlockLoop
    rw [if_neg (by omega)]
    refine ⟨blocks, k, rfl, Nat.le_refl k, Or.inl (Nat.le_refl k), ?_⟩
    apply SetsBits.refl
    intro i
    simp
  | succ fuel ih =>
    unfold rangeBlockLoop
    split
    next hlt =>
      have hmod := hk (by omega)
      have hdiv : k / w < blocks.length := div_lt_of_lt hw (by omega)
      rw [setBlock_eq hdiv]
      rw [ok_bind]
      have hset : SetsBits blocks (blocks.set (k / w) (~~~0#w))
          (fun i => decide (k ≤ i ∧ i < k + w)) := by
        constructor
        . rw [length_set]
        . intro i
          rw [bitAt_set hdiv]
          have hdm := Nat.div_add_mod k w
          have hdmi := Nat.div_add_mod i w
          have hmodi := Nat.mod_lt i hw
          by_cases hi : i / w = k / w
          . rw [if_pos hi, BitVec.getLsbD_not]
            rw [hi] at hdmi
            have : k ≤ i ∧ i < k + w := by
              omega
            simp [this, hmodi]
          . rw [if_neg hi]
            have : ¬(k ≤ i ∧ i < k + w) := by
              intro hin
              apply hi
              have hge : k / w ≤ i / w := Nat.div_le_div_right hin.1
              have hlt : i / w < k / w + 1 := by
                rw [Nat.div_lt_iff_lt_mul hw, Nat.add_mul, Nat.mul_comm]
                omega
              omega
            simp [this]
      obtain ⟨blocks', k', hrun, hle, hend, hset'⟩ := ih
        (by rw [hset.length_eq]; exact hj : j ≤ (blocks.set (k / w) (~~~0#w)).length * w)
        (by intro _; rw [Nat.add_mod_right]; exact hmod) (by omega : j.toNat ≤ fuel + (k + w))
      refine ⟨blocks', k', hrun, by omega, by omega, ?_⟩
      apply hset.trans hset'
      intro i
      rw [Bool.eq_iff_iff]
      simp
      omega
    next hge =>
      refine ⟨blocks, k, rfl, Nat.le_refl k, Or.inl (Nat.le_refl k), ?_⟩
      apply SetsBits.refl
      intro i
      simp

end

theorem uniteRangeRange_spec (hw : 0 < w) {s t : Int} {lenList lenSub : Nat}
    (hlen : lenList ≤ blocks.length * w)
    : ∃ blocks', uniteRangeRange s t lenList lenSub blocks = .ok blocks'
        ∧ SetsBits blocks blocks'
            (fun i => decide (i < lenList ∧ t ≤ s + i ∧ s + i < t + lenSub)) := by
  unfold uniteRangeRange
  dsimp only
  generalize hi : (if t - s < 0 then 0 else t - s) = i
  generalize hj : (if (lenSub : Int) + (t - s) > lenList then (lenList : Int)
    else (lenSub : Int) + (t - s)) = j
  have hi' : 0 ≤ i := by
    rw [← hi]
    split
    . omega
    . omega
  have hj' : j ≤ lenList := by
    rw [← hj]
    split
    . omega
    . omega
  have hjlen : j ≤ blocks.length * w := by
    omega
  obtain ⟨blocks1, k1, hrun1, hle1, hend1, hmod1, hset1⟩ := rangeFirstLoop_spec hw hjlen
    (by omega : j.toNat ≤ lenList + i.toNat)
  rw [← hset1.length_eq] at hjlen
  obtain ⟨blocks2, k2, hrun2, hle2, hend2, hset2⟩ := rangeBlockLoop_spec hw hjlen hmod1
    (by omega : j.toNat ≤ lenList + k1)
  rw [← hset2.length_eq] at hjlen
  obtain ⟨blocks3, hrun3, hset3⟩ := rangeLastLoop_spec hw hjlen
    (by omega : j.toNat ≤ lenList + k2)
  refine ⟨blocks3, ?_, ?_⟩
  . rw [hrun1]
    rw [ok_bind]
    rw [hrun2]
    rw [ok_bind]
    exact hrun3
  . apply (hset1.trans hset2 (fun _ => rfl)).trans hset3
    intro x
    rw [Bool.eq_iff_iff]
    simp only [Bool.or_eq_true, decide_eq_true_eq]
    split at hi
    next hneg =>
      split at hj
      next => omega
      next => omega
    next hneg =>
      split at hj
      next => omega
      next => omega

theorem uniteRangePlist_spec {E : Type} (f : ObjFuncs E) (hw : 0 < w) {s : Int} {lenList : Nat}
    (sub : List (Option E)) (hlen : lenList ≤ blocks.length * w)
    : ∃ blocks', uniteRangePlist f s lenList sub blocks = .ok blocks'
        ∧ SetsBits blocks blocks' (fun i => decide (i < lenList)
            && sub.reduceOption.any (fun x => f.toInt x == some (s + i))) := by
  induction sub generalizing blocks with
  | nil =>
    refine ⟨blocks, rfl, ?_⟩
    apply SetsBits.refl
    intro i
    simp [List.reduceOption]
  | cons entry sub ih =>
    cases entry with
    | none => exact ih hlen
    | some elm =>
      unfold uniteRangePlist
      have hskip : (∀ i : Nat, i < lenList → (f.toInt elm == some (s + i)) = false) →
          ∃ blocks', uniteRangePlist f s lenList sub blocks = .ok blocks'
            ∧ SetsBits blocks blocks' (fun i => decide (i < lenList)
              && (some elm :: sub).reduceOption.any (fun x => f.toInt x == some (s + i))) := by
        intro hnot
        obtain ⟨blocks', hrun, hset⟩ := ih hlen
        refine ⟨blocks', hrun, hset.length_eq, ?_⟩
        intro i
        rw [hset.bits, reduceOption_cons_of_some, any_cons]
        by_cases hi : i < lenList
        . rw [hnot i hi, Bool.false_or]
        . simp [hi]
      split
      next n hn =>
        dsimp only
        split
        next ht =>
          obtain ⟨blocks1, hor, hset1⟩ := orBit_spec hw
            (by omega : (n - s + 1 - 1).toNat < blocks.length * w)
          rw [hor]
          rw [ok_bind]
          obtain ⟨blocks', hrun, hset⟩ := ih
            (by rw [hset1.length_eq]; exact hlen : lenList ≤ blocks1.length * w)
          refine ⟨blocks', hrun, ?_⟩
          apply hset1.trans hset
          intro i
          rw [reduceOption_cons_of_some, any_cons, hn, Bool.eq_iff_iff]
          simp only [Bool.and_eq_true, Bool.or_eq_true, decide_eq_true_eq, beq_iff_eq,
            Option.some.injEq]
          constructor
          . rintro ⟨hi, heq | hany⟩
            . left
              omega
            . exact Or.inr ⟨hi, hany⟩
          . rintro (heq | ⟨hi, hany⟩)
            . exact ⟨by omega, Or.inl (by omega)⟩
            . exact ⟨hi, Or.inr hany⟩
        next ht =>
          apply hskip
          intro i hi
          rw [hn, beq_eq_false_iff_ne]
          intro heq
          rw [Option.some.injEq] at heq
          omega
      next hn =>
        apply hskip
        intro i hi
        rw [hn]
        rfl

end BlistImpl
