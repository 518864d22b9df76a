import GapKernel.Blister.Lemmas.Access

open List Nat

namespace BlistImpl

open Blist BitBlocks

variable {w : Nat}

variable {blocks : List (BitVec w)}

theorem getD_set_eq {ptr k : Nat} (hptr : ptr < blocks.length) (block : BitVec w)
    : (blocks.set ptr block).getD k 0#w = if k = ptr then block else blocks.getD k 0#w := by
  simp only [getD_eq_getElem?_getD, getElem?_set]
  by_cases hk : k = ptr
  . rw [if_pos hk.symm, if_pos hptr, if_pos hk]
    rfl
  . rw [if_neg (fun h => hk h.symm), if_neg hk]

theorem blockLoop_spec {op : Nat → BitVec w → Result (BitVec w)} (g : Nat → BitVec w → BitVec w)
    {n ptr : Nat} (hlen : ptr + n ≤ blocks.length)
    (hop : ∀ k block, ptr ≤ k → k < ptr + n → op k block = .ok (g k block))
    : ∃ blocks', blockLoop op n ptr blocks = .ok blocks' ∧ blocks'.length = blocks.length
        ∧ ∀ k, blocks'.getD k 0#w = if ptr ≤ k ∧ k < ptr + n then g k (blocks.getD k 0#w)
          else blocks.getD k 0#w := by
  induction n generalizing ptr blocks with
  | zero =>
    refine ⟨blocks, rfl, rfl, ?_⟩
    intro k
    rw [if_neg (by omega)]
  | succ n ih =>
    unfold blockLoop
    rw [elmBlock_eq (by omega)]
    rw [ok_bind]
    rw [hop _ _ (by omega) (by omega)]
    rw [ok_bind]
    rw [setBlock_eq (by omega)]
    rw [ok_bind]
    obtain ⟨blocks', hrun, hlen', hget⟩ := ih
      (by rw [length_set]; omega
        : ptr + 1 + n ≤ (blocks.set ptr (g ptr (blocks.getD ptr 0#w))).length)
      (fun k block h1 h2 => hop k block (by omega) (by omega))
    refine ⟨blocks', hrun, ?_, ?_⟩
    . rw [hlen', length_set]
    . intro k
      rw [hget, getD_set_eq (by omega)]
      by_cases hk : k = ptr
      . rw [if_neg (by omega), if_pos hk, if_pos (by omega), hk]
      . rw [if_neg hk]
        by_cases hin : ptr ≤ k ∧ k < ptr + (n + 1)
        . rw [if_pos (by omega), if_pos hin]
        . rw [if_neg (by omega), if_neg hin]

theorem blockLoop_bits (op : Nat → BitVec w → Result (BitVec w)) (g : Nat → BitVec w → BitVec w)
    (β : Nat → Bool → Bool) (hw : 0 < w) {n : Nat} (hlen : n ≤ blocks.length)
    (hop : ∀ k block, k < n → op k block = .ok (g k block)) (hg : ∀ k block i, k < n → i < w →
      (g k block).getLsbD i = β (w * k + i) (block.getLsbD i))
    : ∃ blocks', blockLoop op n 0 blocks = .ok blocks' ∧ blocks'.length = blocks.length
        ∧ ∀ i, bitAt blocks' i = if i < n * w then β i (bitAt blocks i) else bitAt blocks i := by
  obtain ⟨blocks', hrun, hlen', hget⟩ := blockLoop_spec g
    (by omega : 0 + n ≤ blocks.length) (fun k block _ h => hop k block (by omega))
  refine ⟨blocks', hrun, hlen', ?_⟩
  intro i
  unfold bitAt
  rw [hget]
  by_cases hi : i < n * w
  . have hdiv := div_lt_of_lt hw hi
    rw [if_pos ⟨Nat.zero_le _, by rwa [Nat.zero_add]⟩, if_pos hi]
    rw [hg _ _ _ hdiv (mod_lt i hw), div_add_mod]
  . rw [if_neg, if_neg hi]
    rintro ⟨_, hdiv⟩
    rw [Nat.zero_add] at hdiv
    exact hi (lt_of_div_lt hw hdiv)

section

variable (hw : 0 < w) {b : Blist w} {l : List Bool} (hb : Refines b l)

include hw hb

theorem numberBlocks_le : b.numberBlocks ≤ b.blocks.length := by
  unfold numberBlocks
  rw [hb.len_eq]
  exact plenBlocks_le hw hb.represents.enough

theorem le_numberBlocks_mul : l.length ≤ b.numberBlocks * w := by
  unfold numberBlocks
  rw [hb.len_eq]
  exact le_plenBlocks_mul hw _

theorem maskLastBlock_spec {blocks : List (BitVec w)} (l' : List Bool) (hpos : 0 < l.length)
    (hblocks : blocks.length = b.blocks.length) (hlen : l'.length = l.length)
    (hin : ∀ i, i < l.length → bitAt blocks i = l'.getD i false)
    (hout : ∀ i, b.numberBlocks * w ≤ i → bitAt blocks i = false)
    : ∃ blocks', maskLastBlock b blocks = .ok blocks' ∧ Represents blocks' l' := by
  have hmul := le_numberBlocks_mul hw hb
  have hlast : (l.length - 1) / w < blocks.length := by
    rw [hblocks]
    exact hb.represents.div_lt hw (by omega)
  -- The masked block is the last one.
  have hnumber : b.numberBlocks = (l.length - 1) / w + 1 := by
    unfold numberBlocks plenBlocks
    rw [hb.len_eq, show l.length + w - 1 = l.length - 1 + w by omega, add_div_right _ hw]
  unfold maskLastBlock
  dsimp only
  rw [hb.len_eq]
  rw [elmBlock_eq hlast]
  rw [ok_bind]
  rw [setBlock_eq hlast]
  refine ⟨_, rfl, ?_⟩
  apply hb.represents.of_bits
  . rw [length_set, hblocks]
  . exact hlen
  . intro i
    rw [bitAt_set hlast]
    have hdm := div_add_mod i w
    have hnw : b.numberBlocks * w = w * ((l.length - 1) / w) + w := by
      rw [hnumber, Nat.mul_comm, Nat.mul_add, Nat.mul_one]
    by_cases hi : i < l.length
    . split
      next hdiv =>
        rw [BitVec.getLsbD_and, getLsbD_ones_shiftRight]
        have hone : i % w + (w * b.numberBlocks - l.length) < w := by
          rw [Nat.mul_comm w b.numberBlocks]
          rw [hdiv] at hdm
          omega
        rw [← hin i hi]
        unfold bitAt
        rw [hdiv]
        simp [hone]
      next => exact hin i hi
    . have hzero : l'.getD i false = false := by
        rw [getD_eq_getElem?_getD, getElem?_eq_none (by omega)]
        rfl
      rw [hzero]
      split
      next hdiv =>
        rw [BitVec.getLsbD_and, getLsbD_ones_shiftRight]
        have hover : ¬i % w + (w * b.numberBlocks - l.length) < w := by
          rw [Nat.mul_comm w b.numberBlocks]
          rw [hdiv] at hdm
          omega
        simp [hover]
      next hdiv =>
        apply hout
        by_contra hlt
        have hdivlt := div_lt_of_lt hw (Nat.not_le.mp hlt)
        have hge : (l.length - 1) / w ≤ i / w := Nat.div_le_div_right (by omega)
        omega

end

theorem zipWith_getD (f : Bool → Bool → Bool) (hf : f false false = false) {l l2 : List Bool}
    (hlen : l2.length = l.length) (i : Nat)
    : (zipWith f l l2).getD i false = f (l.getD i false) (l2.getD i false) := by
  simp only [getD_eq_getElem?_getD, getElem?_zipWith]
  by_cases hi : i < l.length
  . rw [getElem?_eq_getElem hi, getElem?_eq_getElem (by omega)]
    rfl
  . rw [getElem?_eq_none (by omega), getElem?_eq_none (by omega)]
    exact hf.symm

def SecondRefines (blist2 : Option (Blist w)) (l l2 : List Bool) : Prop :=
  match blist2 with
  | some b2 => Refines b2 l2 ∧ l2.length = l.length
  | none => l2 = l

section

variable (hw : 0 < w) {b : Blist w} {l : List Bool} (hb : Refines b l)

include hw hb

variable {blist2 : Option (Blist w)} {l2 : List Bool}

section

variable (hl2 : SecondRefines blist2 l l2)

include hl2

theorem combineBlist_spec (funcname : String) (op : BitVec w → BitVec w → BitVec w)
    (f : Bool → Bool → Bool) (hf : f false false = false)
    (hop : ∀ x y i, i < w → (op x y).getLsbD i = f (x.getLsbD i) (y.getLsbD i))
    : ∃ blocks, combineBlist funcname op b blist2 = .ok { b with blocks := blocks }
        ∧ Represents blocks (zipWith f l l2) := by
  unfold combineBlist
  cases blist2 with
  | some b2 =>
    obtain ⟨hb2, hlen⟩ := hl2
    have hle2 : b.numberBlocks ≤ b2.blocks.length := by
      unfold numberBlocks
      rw [hb.len_eq, ← hlen]
      exact plenBlocks_le hw hb2.represents.enough
    have hsame : requireSameLength funcname "blist1" "blist2" b.len b2.len = .ok () := by
      unfold requireSameLength
      rw [if_neg (by rw [hb.len_eq, hb2.len_eq, hlen]; simp)]
      rfl
    obtain ⟨blocks, hrun, hblocks, hbits⟩ := blockLoop_bits
      (fun ptr block => do
        let block2 ← elmBlock b2.blocks ptr
        return op block block2)
      (fun k block => op block (b2.blocks.getD k 0#w)) (fun i v => f v (l2.getD i false)) hw
      (numberBlocks_le hw hb)
      (by
        intro k block hk
        rw [elmBlock_eq (by omega)]
        rfl)
      (by
        intro k block i _ hi
        rw [hop _ _ _ hi, ← hb2.represents.bits, bitAt_mul_add hi])
    refine ⟨blocks, ?_, ?_⟩
    . rw [Option.getD_some, hsame]
      rw [ok_bind]
      rw [hrun]
      rfl
    . apply hb.represents.of_bits hblocks
      . rw [length_zipWith, hlen, Nat.min_self]
      . intro i
        rw [hbits, hb.represents.bits, zipWith_getD f hf hlen]
        split
        next => rfl
        next hi =>
          have hmul := le_numberBlocks_mul hw hb
          simp only [getD_eq_getElem?_getD]
          rw [getElem?_eq_none (by omega), getElem?_eq_none (by omega)]
          exact hf.symm
  | none =>
    have hl2' : l2 = l := hl2
    subst hl2'
    have hsame : requireSameLength funcname "blist1" "blist2" b.len b.len = .ok () := by
      unfold requireSameLength
      rw [if_neg (by simp)]
      rfl
    obtain ⟨blocks, hrun, hblocks, hbits⟩ := blockLoop_bits
      (fun _ block => return op block block) (fun _ block => op block block)
      (fun _ v => f v v) hw (numberBlocks_le hw hb) (fun _ _ _ => rfl)
      (fun _ block i _ hi => hop block block i hi)
    refine ⟨blocks, ?_, ?_⟩
    . rw [Option.getD_none, hsame]
      rw [ok_bind]
      rw [hrun]
      rfl
    . apply hb.represents.of_bits hblocks
      . rw [length_zipWith, Nat.min_self]
      . intro i
        rw [hbits, hb.represents.bits, zipWith_getD f hf rfl]
        split
        next => rfl
        next hi =>
          have hmul := le_numberBlocks_mul hw hb
          simp only [getD_eq_getElem?_getD]
          rw [getElem?_eq_none (by omega)]
          exact hf.symm

theorem uniteBlist_spec
    : ∃ blocks, uniteBlist b blist2 = .ok { b with blocks := blocks }
        ∧ Represents blocks (zipWith (fun x y => x || y) l l2) := by
  apply combineBlist_spec hw hb hl2
  . rfl
  . intro x y i _
    rw [BitVec.getLsbD_or]

theorem interBlist_spec
    : ∃ blocks, interBlist b blist2 = .ok { b with blocks := blocks }
        ∧ Represents blocks (zipWith (fun x y => x && y) l l2) := by
  apply combineBlist_spec hw hb hl2
  . rfl
  . intro x y i _
    rw [BitVec.getLsbD_and]

theorem subtrBlist_spec
    : ∃ blocks, subtrBlist b blist2 = .ok { b with blocks := blocks }
        ∧ Represents blocks (zipWith (fun x y => x && !y) l l2) := by
  apply combineBlist_spec hw hb hl2
  . rfl
  . intro x y i hi
    rw [BitVec.getLsbD_and, BitVec.getLsbD_not]
    simp [hi]

end

theorem mapLoop_spec (op : Nat → BitVec w → Result (BitVec w)) (g : BitVec w → BitVec w)
    (f : Bool → Bool) (hop : ∀ k block, op k block = .ok (g block))
    (hg : ∀ block i, i < w → (g block).getLsbD i = f (block.getLsbD i)) (hpos : l.length ≠ 0)
    : ∃ blocks, (do
          let blocks ← blockLoop op b.numberBlocks 0 b.blocks
          let blocks ← maskLastBlock b blocks
          return { b with blocks := blocks } : Result (Blist w)) = .ok { b with blocks := blocks }
        ∧ Represents blocks (l.map f) := by
  have hmul := le_numberBlocks_mul hw hb
  obtain ⟨blocks, hrun, hblocks, hbits⟩ := blockLoop_bits op (fun _ => g) (fun _ => f) hw
    (numberBlocks_le hw hb) (fun k block _ => hop k block) (fun _ block i _ hi => hg block i hi)
  obtain ⟨blocks', hmask, hrep⟩ := maskLastBlock_spec hw hb (l.map f) (by omega) hblocks
    (by rw [length_map])
    (by
      intro i hi
      rw [hbits, if_pos (by omega), hb.represents.bits]
      simp [hi])
    (by
      intro i hi
      rw [hbits, if_neg (by omega), hb.represents.bits, getD_eq_getElem?_getD,
        getElem?_eq_none (by omega)]
      rfl)
  refine ⟨blocks', ?_, hrep⟩
  rw [hrun]
  rw [ok_bind]
  rw [hmask]
  rfl

omit hw in
theorem represents_map_of_empty (f : Bool → Bool) (hlen : b.len = 0)
    : Represents b.blocks (l.map f) := by
  have hrep := hb.represents
  rw [hb.len_eq, length_eq_zero_iff] at hlen
  rw [hlen] at *
  exact hrep

theorem flipBlist_spec
    : ∃ blocks, flipBlist b = .ok { b with blocks := blocks }
        ∧ Represents blocks (l.map (fun x => !x)) := by
  unfold flipBlist
  by_cases hlen : b.len = 0
  . rw [if_pos hlen]
    exact ⟨b.blocks, rfl, represents_map_of_empty hb _ hlen⟩
  . rw [if_neg hlen]
    rw [hb.len_eq] at hlen
    apply mapLoop_spec hw hb _ (fun block => ~~~block) _ (fun _ _ => rfl) _ hlen
    intro block i hi
    rw [BitVec.getLsbD_not]
    simp [hi]

theorem setAllBlist_spec
    : ∃ blocks, setAllBlist b = .ok { b with blocks := blocks }
        ∧ Represents blocks (l.map (fun _ => true)) := by
  unfold setAllBlist
  by_cases hlen : b.len = 0
  . rw [if_pos hlen]
    exact ⟨b.blocks, rfl, represents_map_of_empty hb _ hlen⟩
  . rw [if_neg hlen]
    rw [hb.len_eq] at hlen
    apply mapLoop_spec hw hb _ (fun _ => ~~~0#w) _ (fun _ _ => rfl) _ hlen
    intro block i hi
    rw [BitVec.getLsbD_not]
    simp [hi]

theorem clearAllBlist_spec
    : ∃ blocks, clearAllBlist b = .ok { b with blocks := blocks }
        ∧ Represents blocks (l.map (fun _ => false)) := by
  unfold clearAllBlist
  by_cases hlen : b.len = 0
  . rw [if_pos hlen]
    exact ⟨b.blocks, rfl, represents_map_of_empty hb _ hlen⟩
  . rw [if_neg hlen]
    obtain ⟨blocks, hrun, hblocks, hbits⟩ := blockLoop_bits (fun _ _ => return 0#w)
      (fun _ _ => 0#w) (fun _ _ => false) hw (numberBlocks_le hw hb) (fun _ _ _ => rfl)
      (by
        intro k block i _ _
        rw [BitVec.getLsbD_zero])
    refine ⟨blocks, ?_, ?_⟩
    . rw [hrun]
      rfl
    . apply hb.represents.of_bits hblocks
      . rw [length_map]
      . intro i
        have hmul := le_numberBlocks_mul hw hb
        rw [hbits, hb.represents.bits]
        simp only [getD_eq_getElem?_getD, getElem?_map]
        by_cases hi : i < l.length
        . rw [if_pos (by omega), getElem?_eq_getElem hi]
          rfl
        . rw [getElem?_eq_none (by omega)]
          simp

end

end BlistImpl
