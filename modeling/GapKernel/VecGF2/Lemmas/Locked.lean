import GapKernel.VecGF2.Impl.Locked
import GapKernel.VecGF2.Lemmas.Polynomial
import Mathlib.Algebra.Polynomial.Degree.SmallDegree

open BitBlocks ChangeM Polynomial List Nat

namespace GF2Impl

inductive VecOp (w : Nat) (E : Type) where
  | addCoeffs (vr : GF2Vec w)
  | addCoeffsMult (vr : GF2Vec w) (mul : FieldElm E)
  | append (vecr : GF2Vec w)
  | resize (newlen : Nat)
  | shiftLeft (amount : Nat)
  | shiftRight (amount : Nat)
  | reduceCoeffs (len1 : Nat) (vec2 : GF2Vec w) (len2 : Nat)
  | ass (pos : Nat) (elm : FieldElm E)
  | unb (pos : Nat)

variable {w : Nat} {E : Type}

def applyOp (op : VecOp w E) : ChangeM w (Option (Converted E)) := do
  match op with
  | .addCoeffs vr =>
    let _ ← funcAddCoeffsGF2VecGF2Vec vr
    return none
  | .addCoeffsMult vr mul =>
    let _ ← funcAddCoeffsGF2VecGF2VecMult vr mul
    return none
  | .append vecr =>
    funcAppendGF2Vec vecr
    return none
  | .resize newlen =>
    funcResizeGF2Vec newlen
    return none
  | .shiftLeft amount =>
    shiftLeftGF2Vec amount
    return none
  | .shiftRight amount =>
    shiftRightGF2Vec amount
    return none
  | .reduceCoeffs len1 vec2 len2 =>
    let _ ← funcReduceCoeffsGF2Vec len1 vec2 len2
    return none
  | .ass pos elm => funcAssGF2Vec pos elm
  | .unb pos => funcUnbGF2Vec pos

def VecOp.Valid (op : VecOp w E) : Prop :=
  match op with
  | .addCoeffs vr => IsVector vr
  | .addCoeffsMult vr _ => IsVector vr
  | .append vecr => IsVector vecr
  | .reduceCoeffs _ vec2 _ => IsVector vec2
  | .ass pos _ => 0 < pos
  | .unb pos => 0 < pos
  | _ => True

def lengthAfter (conv : Option (Converted E)) (vec : GF2Obj w) : Nat :=
  match conv with
  | none => vec.len
  | some (.plist entries) => entries.length
  | some (.vec8bit _ entries) => entries.length

def ChangesLength (op : VecOp w E) (vec : GF2Obj w) : Prop :=
  ∃ conv vec', applyOp op { vec with locked := false } = .ok conv vec'
    ∧ lengthAfter conv vec' ≠ vec.len

def Forbidden (op : VecOp w E) (vec : GF2Obj w) : Prop :=
  ∃ msg arg1 arg2 vec', applyOp op vec = .error (.quit msg arg1 arg2) vec'
    ∧ vec'.len = vec.len ∧ vec'.entries = vec.entries

def StepHolds (op : VecOp w E) (vec : GF2Obj w) : Prop :=
  (∀ conv vec', applyOp op vec = .ok conv vec' → conv = none)
    ∧ (ChangesLength op vec → Forbidden op vec)

def movedBit (vec : GF2Vec w) (amount j : Nat) : Bool :=
  decide ((j + amount) / w < vec.numberBlocks) && bitAt vec.blocks (j + amount)

/--
`AddCoeffsGF2VecGF2Vec` does not look at the lock. The blocks are moved before the length is changed
in a shift to the left, and the multiples of the divisor are added before it in a reduction.
-/
def Breaks (op : VecOp w E) (vec : GF2Obj w) : Prop :=
  match op with
  | .addCoeffs vr => vec.len < vr.len
  | .addCoeffsMult vr mul => mul = .one ∧ vec.len < vr.len
  | .shiftLeft amount => 0 < amount ∧ amount < vec.len
    ∧ ∃ j, j < vec.len ∧ j / w < (vec.len - amount + w - 1) / w
      ∧ bitAt vec.blocks j ≠ movedBit vec.toGF2Vec amount j
  | .reduceCoeffs len1 vec2 len2 => len1 = vec.len ∧ len2 ≤ vec2.len
    ∧ (∃ k, k < len2 ∧ bitAt vec2.blocks k = true)
    ∧ ∃ j, j < vec.len ∧ bitAt vec.blocks j = true
      ∧ ∀ k, k < len2 → bitAt vec2.blocks k = true → k ≤ j
  | _ => False

structure Kept (vec vec' : GF2Obj w) : Prop where
  len_eq : vec'.len = vec.len
  locked_eq : vec'.locked = vec.locked
  hasBlocks : vec'.HasBlocks
  length_le : vec'.blocks.length ≤ vec.blocks.length

def Safe (op : VecOp w E) (vec : GF2Obj w) : Prop :=
  (∃ msg arg1 arg2 vec', applyOp op vec = .error (.quit msg arg1 arg2) vec' ∧ Kept vec vec'
      ∧ vec'.entries = vec.entries)
    ∨ ∃ vec', applyOp op vec = .ok none vec' ∧ Kept vec vec' ∧ ¬ChangesLength op vec

variable {op : VecOp w E} {vec : GF2Obj w}

theorem Safe.stepHolds (h : Safe op vec) : StepHolds op vec := by
  rcases h with ⟨msg, arg1, arg2, vec', hrun, hkept, hentries⟩ | ⟨vec', hrun, hkept, hchange⟩
  . constructor
    . intro conv vec'' hrun'
      rw [hrun] at hrun'
      cases hrun'
    . exact fun _ => ⟨msg, arg1, arg2, vec', hrun, hkept.len_eq, hentries⟩
  . constructor
    . intro conv vec'' hrun'
      rw [hrun] at hrun'
      cases hrun'
      rfl
    . exact fun h => absurd h hchange

theorem kept_self (h : vec.HasBlocks) : Kept vec vec :=
  ⟨rfl, rfl, h, Nat.le_refl _⟩

theorem safe_of_kept {vec' : GF2Obj w} {msg : String} {arg1 arg2 : Int}
    (hrun : applyOp op vec = .error (.quit msg arg1 arg2) vec') (hkept : Kept vec vec')
    (hentries : vec'.entries = vec.entries) : Safe op vec :=
  Or.inl ⟨msg, arg1, arg2, vec', hrun, hkept, hentries⟩

theorem safe_of_error {msg : String} {arg1 arg2 : Int} (h : vec.HasBlocks)
    (hrun : applyOp op vec = .error (.quit msg arg1 arg2) vec) : Safe op vec :=
  safe_of_kept hrun (kept_self h) rfl

theorem not_changesLength {vec' : GF2Obj w}
    (hrun : applyOp op { vec with locked := false } = .ok none vec') (hlen : vec'.len = vec.len)
    : ¬ChangesLength op vec := by
  rintro ⟨conv, vec'', hrun', hne⟩
  rw [hrun] at hrun'
  cases hrun'
  exact hne hlen

def IsExact (op : VecOp w E) (vec : GF2Obj w) : Prop :=
  (StepHolds op vec ↔ ¬Breaks op vec) ∧ (¬Breaks op vec → Safe op vec)

theorem isExact_of_safe (hsafe : Safe op vec) (hbreaks : ¬Breaks op vec) : IsExact op vec :=
  ⟨iff_of_true hsafe.stepHolds hbreaks, fun _ => hsafe⟩

theorem isExact_of_not (hstep : ¬StepHolds op vec) (hbreaks : Breaks op vec) : IsExact op vec :=
  ⟨iff_of_false hstep (fun hn => hn hbreaks), fun hn => absurd hbreaks hn⟩

section AddCoeffs

variable {vec : GF2Obj w} {vr : GF2Vec w}

theorem addGF2VecToGF2Vec_ok (hw : 0 < w) {ptS : List (BitVec w)} {len : Nat}
    (hS : len ≤ ptS.length * w) (hV : len ≤ vr.blocks.length * w)
    : ∃ ptS', GF2Vec.addGF2VecToGF2Vec ptS (readAt vr.blocks) len = .ok ptS'
        ∧ ptS'.length = ptS.length := by
  have hctS := ceilDiv_le hw hS
  have hctV := ceilDiv_le hw hV
  unfold GF2Vec.addGF2VecToGF2Vec
  apply forLoop_of_inv (fun _ s => s.length = ptS.length)
  . rfl
  . intro i s _ hi hs
    rw [readAt_of_lt (show i < s.length by omega) 0#w, ok_bind,
      readAt_of_lt (show i < vr.blocks.length by omega) 0#w, ok_bind,
      writeAt_of_lt (show i < s.length by omega)]
    exact ⟨_, rfl, by rw [length_set, hs]⟩
  . exact fun s hs => hs

theorem addCoeffs_spec (hw : 0 < w) (h : vec.HasBlocks) (hr : vr.HasBlocks)
    : ∃ last blocks', addCoeffsGF2VecGF2Vec vr vec
          = .ok last { vec with len := max vec.len vr.len, blocks := blocks' }
        ∧ max vec.len vr.len ≤ blocks'.length * w
        ∧ (vr.len ≤ vec.len → blocks'.length = vec.blocks.length) := by
  unfold addCoeffsGF2VecGF2Vec
  have hgrow : ∃ blocks, (if vec.len < vr.len then
        pure { vec with len := vr.len, blocks := resizeBlocks vec.blocks vr.len }
      else pure vec : Result (GF2Obj w)) = .ok { vec with len := max vec.len vr.len, blocks := blocks }
      ∧ max vec.len vr.len ≤ blocks.length * w
      ∧ (vr.len ≤ vec.len → blocks.length = vec.blocks.length) := by
    split
    . next hlt =>
      refine ⟨resizeBlocks vec.blocks vr.len, ?_, ?_, fun hle => absurd hlt (Nat.not_lt.mpr hle)⟩
      . rw [Nat.max_eq_right (Nat.le_of_lt hlt)]
        rfl
      . rw [length_resizeBlocks, Nat.max_eq_right (Nat.le_of_lt hlt)]
        exact le_ceilDiv_mul hw vr.len
    . next hge =>
      refine ⟨vec.blocks, ?_, ?_, fun _ => rfl⟩
      . rw [Nat.max_eq_left (Nat.le_of_not_lt hge)]
        rfl
      . rw [Nat.max_eq_left (Nat.le_of_not_lt hge)]
        exact h
  obtain ⟨blocks, hrun, hlen, hsame⟩ := hgrow
  obtain ⟨blocks', hadd, hlen'⟩ := @addGF2VecToGF2Vec_ok w vr hw blocks vr.len (by omega) hr
  have hupdate : (do
      let blocks ← GF2Vec.addGF2VecToGF2Vec blocks (readAt vr.blocks) vr.len
      return { vec with len := max vec.len vr.len, blocks := blocks } : Result (GF2Obj w))
      = .ok { vec with len := max vec.len vr.len, blocks := blocks' } := by
    rw [hadd]
    rfl
  have hlast : max vec.len vr.len ≤ blocks'.length * w := by
    rw [hlen']
    exact hlen
  obtain ⟨last, hright, -⟩ := rightMostOne_spec hw hlast
  rw [update_bind hrun, update_bind hupdate, get_bind]
  exact ⟨last, blocks', ofResult_ok hright, hlast, fun hle => hlen'.trans (hsame hle)⟩

def Adds (op : VecOp w E) (vr : GF2Vec w) : Prop :=
  ∀ vec last vec', addCoeffsGF2VecGF2Vec vr vec = .ok last vec' → applyOp op vec = .ok none vec'

theorem adds_addCoeffs (vr : GF2Vec w) : Adds (.addCoeffs vr : VecOp w E) vr :=
  fun _ _ _ hrun => bind_ok hrun _

theorem adds_addCoeffsMult (vr : GF2Vec w) : Adds (.addCoeffsMult vr .one : VecOp w E) vr := by
  intro vec last vec' hrun
  have hmult : funcAddCoeffsGF2VecGF2VecMult vr (.one : FieldElm E) vec = .ok (some last) vec' :=
    bind_ok hrun _
  exact bind_ok hmult _

theorem isExact_adds (hw : 0 < w) {op : VecOp w E} (hop : Adds op vr)
    (hbreaks : Breaks op vec ↔ vec.len < vr.len) (h : vec.HasBlocks) (hr : vr.HasBlocks)
    : IsExact op vec := by
  obtain ⟨last, blocks, hrun, hlen, hsame⟩ := addCoeffs_spec hw h hr
  obtain ⟨last', blocks', hrun', -, -⟩ := @addCoeffs_spec w { vec with locked := false } vr hw h hr
  by_cases hlt : vec.len < vr.len
  . apply isExact_of_not _ (hbreaks.mpr hlt)
    intro hstep
    have hmax : max vec.len vr.len ≠ vec.len := by
      omega
    obtain ⟨msg, arg1, arg2, vec', herr, -⟩ := hstep.2 ⟨none, _, hop _ _ _ hrun', hmax⟩
    rw [hop _ _ _ hrun] at herr
    cases herr
  . have hle := Nat.le_of_not_lt hlt
    apply isExact_of_safe _ (fun hb => hlt (hbreaks.mp hb))
    refine Or.inr
      ⟨_, hop _ _ _ hrun, ⟨Nat.max_eq_left hle, rfl, hlen, Nat.le_of_eq (hsame hle)⟩, ?_⟩
    exact not_changesLength (hop _ _ _ hrun') (Nat.max_eq_left hle)

theorem safe_addCoeffsMult (hw : 0 < w) (h : vec.HasBlocks) {mul : FieldElm E} (hmul : mul ≠ .one)
    : Safe (.addCoeffsMult vr mul) vec := by
  cases mul with
  | zero =>
    obtain ⟨last, hright, -⟩ := rightMostOne_spec hw h
    have hrun (locked : Bool)
        : applyOp (.addCoeffsMult vr .zero : VecOp w E) { vec with locked := locked }
          = .ok none { vec with locked := locked } := by
      apply bind_ok (a := some last)
      unfold funcAddCoeffsGF2VecGF2VecMult
      dsimp only
      rw [get_bind]
      exact ofResult_bind hright _
    exact Or.inr ⟨vec, hrun vec.locked, kept_self h, not_changesLength (hrun false) rfl⟩
  | one => exact absurd rfl hmul
  | ffe q elm => exact Or.inr ⟨vec, rfl, kept_self h, not_changesLength rfl rfl⟩
  | other elm => exact Or.inr ⟨vec, rfl, kept_self h, not_changesLength rfl rfl⟩

end AddCoeffs

section ShiftLeft

variable {vec : GF2Obj w} {amount : Nat}

variable {blocks : List (BitVec w)} {i : Nat}

theorem getLsbD_moved {t : Nat} (ht : t < w)
    : ((blocks.getD (amount / w + i) 0#w >>> (amount % w))
        ||| (blocks.getD (amount / w + i + 1) 0#w <<< (w - amount % w))).getLsbD t
      = bitAt blocks (w * i + t + amount) := by
  have hdm := div_add_mod amount w
  have hlt := mod_lt amount (show 0 < w by omega)
  rw [BitVec.getLsbD_or, BitVec.getLsbD_ushiftRight, BitVec.getLsbD_shiftLeft]
  by_cases hin : amount % w + t < w
  . have heq : w * i + t + amount = w * (amount / w + i) + (amount % w + t) := by
      rw [Nat.mul_add]
      omega
    rw [heq, bitAt_mul_add hin, decide_eq_true (show t < w - amount % w by omega)]
    simp
  . have heq : w * i + t + amount = w * (amount / w + i + 1) + (t - (w - amount % w)) := by
      rw [Nat.mul_add, Nat.mul_add]
      omega
    rw [heq, bitAt_mul_add (by omega), BitVec.getLsbD_of_ge _ _ (by omega), Bool.false_or,
      decide_eq_true ht, decide_eq_false (by omega)]
    simp

def IsMoved (vec : GF2Vec w) (amount i : Nat) (blocks : List (BitVec w)) : Prop :=
  blocks.length = vec.blocks.length
    ∧ ∀ j, bitAt blocks j = if j / w < i then movedBit vec amount j else bitAt vec.blocks j

theorem IsMoved.getD {vec : GF2Vec w} {k : Nat} (h : IsMoved vec amount i blocks) (hk : i ≤ k)
    : blocks.getD k 0#w = vec.blocks.getD k 0#w := by
  apply BitVec.eq_of_getLsbD_eq
  intro t ht
  have hdiv : (w * k + t) / w = k := by
    rw [mul_add_div (by omega), div_eq_of_lt ht, Nat.add_zero]
  rw [← bitAt_mul_add ht, ← bitAt_mul_add ht, h.2, if_neg (by omega)]

theorem IsMoved.set {vec : GF2Vec w} {block : BitVec w} (h : IsMoved vec amount i blocks)
    (hi : i < vec.blocks.length)
    (hblock : ∀ t, t < w → block.getLsbD t = movedBit vec amount (w * i + t)) (hw : 0 < w)
    : IsMoved vec amount (i + 1) (blocks.set i block) := by
  refine ⟨length_set.trans h.1, fun j => ?_⟩
  rw [bitAt_set (by rw [h.1]; exact hi)]
  split
  . next heq =>
    rw [if_pos (by omega), hblock _ (mod_lt j hw), ← heq, div_add_mod]
  . next hne =>
    rw [h.2]
    by_cases hlt : j / w < i
    . rw [if_pos hlt, if_pos (by omega)]
    . rw [if_neg hlt, if_neg (by omega)]

theorem movedBit_eq {vec : GF2Vec w} {j : Nat} (h : (j + amount) / w < vec.numberBlocks)
    : movedBit vec amount j = bitAt vec.blocks (j + amount) := by
  unfold movedBit
  rw [decide_eq_true h, Bool.true_and]

theorem shiftLeftRound_spec (hw : 0 < w) {vec : GF2Vec w} (h : IsMoved vec amount i blocks)
    (hi : amount / w + i + 1 < vec.numberBlocks) (hle : vec.numberBlocks ≤ vec.blocks.length)
    : ∃ blocks', shiftLeftRound blocks amount i = .ok blocks'
        ∧ IsMoved vec amount (i + 1) blocks' := by
  have hlen := h.1
  have hib : i < vec.blocks.length := by
    have := Nat.zero_le (amount / w)
    omega
  unfold shiftLeftRound
  rw [readAt_of_lt (by omega) 0#w, ok_bind, readAt_of_lt (by omega) 0#w, ok_bind,
    writeAt_of_lt (by omega)]
  refine ⟨_, rfl, h.set hib (fun t ht => ?_) hw⟩
  rw [h.getD (Nat.le_add_left i _), h.getD (by have := Nat.zero_le (amount / w); omega),
    getLsbD_moved ht, movedBit_eq]
  have hdm := div_add_mod amount w
  have hlt := mod_lt amount hw
  have hmul : (amount / w + i + 1 + 1) * w = w * (amount / w) + w * i + w + w := by
    ring
  apply Nat.lt_of_le_of_lt _ hi
  apply le_of_lt_succ
  rw [Nat.div_lt_iff_lt_mul hw, succ_eq_add_one, hmul]
  omega

theorem shiftLeftBlocks_spec (hw : 0 < w) (h : vec.HasBlocks) (hpos : 0 < amount)
    (hlt : amount < vec.len)
    : ∃ blocks', shiftLeftBlocks vec amount = .ok { vec with blocks := blocks' }
        ∧ IsMoved vec.toGF2Vec amount ((vec.len - amount + w - 1) / w) blocks' := by
  have hnb := h.numberBlocks_le hw
  have hdm := div_add_mod amount w
  have hmlt := mod_lt amount hw
  -- The last one of the moved blocks is inside the vector.
  have hn : (vec.len - amount + w - 1) / w = (vec.len - amount - 1) / w + 1 := by
    rw [show vec.len - amount + w - 1 = vec.len - amount - 1 + w by omega, add_div_right _ hw]
  have hin : amount / w + (vec.len - amount - 1) / w < vec.numberBlocks := by
    unfold GF2Vec.numberBlocks
    rw [show vec.len + w - 1 = vec.len - 1 + w by omega, add_div_right _ hw]
    apply lt_succ_of_le
    rw [Nat.le_div_iff_mul_le hw, Nat.add_mul]
    have h1 := div_mul_le_self amount w
    have h2 := div_mul_le_self (vec.len - amount - 1) w
    omega
  have hinit : IsMoved vec.toGF2Vec amount 0 vec.blocks := ⟨rfl, fun _ => rfl⟩
  unfold shiftLeftBlocks
  rw [hn]
  dsimp only
  generalize (vec.len - amount - 1) / w = m at hin
  by_cases hoff : amount % w = 0
  . rw [if_pos hoff]
    have hround : ∀ i blocks, 0 ≤ i → i < 0 + (m + 1) → IsMoved vec.toGF2Vec amount i blocks
        → ∃ blocks', (do
            let x ← readAt blocks (amount / w + i)
            writeAt blocks i x) = .ok blocks'
          ∧ IsMoved vec.toGF2Vec amount (i + 1) blocks' := by
      intro i blocks _ hi hb
      have hlen := hb.1
      have hquot := Nat.zero_le (amount / w)
      have heq (t : Nat) : w * i + t + amount = w * (amount / w + i) + t := by
        rw [Nat.mul_add]
        omega
      rw [readAt_of_lt (by omega) 0#w, ok_bind, writeAt_of_lt (by omega)]
      refine ⟨_, rfl, hb.set (by omega) (fun t ht => ?_) hw⟩
      rw [hb.getD (Nat.le_add_left i _), movedBit_eq, heq, bitAt_mul_add ht]
      rw [heq, mul_add_div hw, div_eq_of_lt ht]
      omega
    obtain ⟨blocks, hrun, hmoved⟩ := forLoop_spec
      (fun i blocks => IsMoved vec.toGF2Vec amount i blocks) hround hinit
    rw [Nat.zero_add] at hmoved
    rw [hrun]
    exact ⟨blocks, rfl, hmoved⟩
  . rw [if_neg hoff, Nat.add_sub_cancel]
    obtain ⟨blocks, hrun, hmoved⟩ := forLoop_spec (n := m)
      (fun i blocks => IsMoved vec.toGF2Vec amount i blocks)
      (fun i blocks _ hi hb => shiftLeftRound_spec hw hb (by omega) hnb) hinit
    rw [Nat.zero_add] at hmoved
    rw [hrun, ok_bind]
    by_cases hnext : amount / w + m + 1 < vec.numberBlocks
    . obtain ⟨blocks', hrun', hmoved'⟩ := shiftLeftRound_spec hw hmoved hnext hnb
      rw [if_pos hnext, hrun']
      exact ⟨blocks', rfl, hmoved'⟩
    . have hlen := hmoved.1
      have hquot := Nat.zero_le (amount / w)
      rw [if_neg hnext, readAt_of_lt (by omega) 0#w, ok_bind, writeAt_of_lt (by omega)]
      refine ⟨_, rfl, hmoved.set (by omega) (fun t ht => ?_) hw⟩
      rw [hmoved.getD (Nat.le_add_left m _), BitVec.getLsbD_ushiftRight]
      unfold movedBit
      by_cases hbit : amount % w + t < w
      . have heq : w * m + t + amount = w * (amount / w + m) + (amount % w + t) := by
          rw [Nat.mul_add]
          omega
        have hdiv : (w * m + t + amount) / w = amount / w + m := by
          rw [heq, mul_add_div hw, div_eq_of_lt hbit, Nat.add_zero]
        rw [hdiv, decide_eq_true hin, Bool.true_and, heq, bitAt_mul_add hbit]
      . have hdiv : (w * m + t + amount) / w = amount / w + m + 1 := by
          have heq : w * m + t + amount = w * (amount / w + m + 1) + (amount % w + t - w) := by
            rw [Nat.mul_add, Nat.mul_add, Nat.mul_one]
            omega
          rw [heq, mul_add_div hw, div_eq_of_lt (show amount % w + t - w < w by omega),
            Nat.add_zero]
        rw [hdiv, decide_eq_false hnext, Bool.false_and, BitVec.getLsbD_of_ge _ _ (by omega)]

theorem entries_eq_iff {vec1 vec2 : GF2Vec w} (hlen : vec1.len = vec2.len)
    : vec1.entries = vec2.entries
        ↔ ∀ j, j < vec2.len → bitAt vec1.blocks j = bitAt vec2.blocks j := by
  unfold GF2Vec.entries bitsFrom
  rw [hlen, map_inj_left]
  simp only [mem_range, Nat.zero_add]

theorem shiftLeft_run_of_le (hle : amount ≥ vec.len)
    : shiftLeftGF2Vec amount vec = update (fun vec => resizeGF2Vec vec 0) vec := by
  unfold shiftLeftGF2Vec
  split
  . next hzero =>
    have hlen : vec.len = 0 := by
      omega
    have hself : resizeGF2Vec vec 0 = .ok vec := by
      rw [← hlen]
      exact resize_self
    rw [update_ok (f := fun vec => resizeGF2Vec vec 0) hself]
    rfl
  . rw [get_bind, if_pos hle]

theorem safe_shiftLeft_of_le (h : vec.HasBlocks) (hlocked : vec.locked = true)
    (hle : amount ≥ vec.len) : Safe (.shiftLeft amount : VecOp w E) vec := by
  by_cases hzero : vec.len = 0
  . have hrun (locked : Bool)
        : applyOp (.shiftLeft amount : VecOp w E) { vec with locked := locked }
        = .ok none { vec with locked := locked } := by
      have hself : resizeGF2Vec { vec with locked := locked } 0
          = .ok { vec with locked := locked } := by
        rw [← hzero]
        exact resize_self
      have hshift := (@shiftLeft_run_of_le w { vec with locked := locked } amount hle).trans
        (update_ok hself)
      exact bind_ok hshift _
    exact Or.inr ⟨vec, hrun vec.locked, kept_self h, not_changesLength (hrun false) rfl⟩
  . apply safe_of_error h
    apply bind_error
    rw [shiftLeft_run_of_le hle]
    exact update_error (resize_locked hlocked hzero)

theorem shiftLeft_run_of_lt (hw : 0 < w) (h : vec.HasBlocks) (hlocked : vec.locked = true)
    (hpos : 0 < amount) (hlt : amount < vec.len)
    : ChangesLength (.shiftLeft amount : VecOp w E) vec
        ∧ ∃ blocks', applyOp (.shiftLeft amount : VecOp w E) vec
            = .error lockedError { vec with blocks := blocks' }
          ∧ IsMoved vec.toGF2Vec amount ((vec.len - amount + w - 1) / w) blocks' := by
  constructor
  . obtain ⟨blocks, hrun, hmoved⟩ :=
      @shiftLeftBlocks_spec w { vec with locked := false } amount hw h hpos hlt
    have hblocks : ({ vec with locked := false, blocks := blocks } : GF2Obj w).HasBlocks := by
      unfold GF2Vec.HasBlocks
      dsimp only
      rw [hmoved.1]
      exact h
    obtain ⟨vec', hresize, hres⟩ := resize_spec hw hblocks (fun hf => nomatch hf)
    refine ⟨none, vec', ?_, ?_⟩
    . apply bind_ok (a := ())
      unfold shiftLeftGF2Vec
      rw [if_neg (by omega), get_bind, if_neg (Nat.not_le.mpr hlt),
        update_bind hrun]
      exact update_ok hresize
    . unfold lengthAfter
      dsimp only
      rw [hres.1]
      show vec.len - amount ≠ vec.len
      omega
  . obtain ⟨blocks, hrun, hmoved⟩ := shiftLeftBlocks_spec hw h hpos hlt
    refine ⟨blocks, ?_, hmoved⟩
    apply bind_error
    unfold shiftLeftGF2Vec
    rw [if_neg (by omega), get_bind, if_neg (Nat.not_le.mpr hlt), update_bind hrun]
    exact update_error (resize_locked hlocked (show vec.len ≠ vec.len - amount by omega))

theorem isExact_shiftLeft (hw : 0 < w) (h : vec.HasBlocks) (hlocked : vec.locked = true)
    : IsExact (.shiftLeft amount : VecOp w E) vec := by
  by_cases hzero : amount = 0
  . subst hzero
    exact isExact_of_safe (Or.inr ⟨vec, rfl, kept_self h, not_changesLength rfl rfl⟩)
      (fun hb => absurd hb.1 (Nat.lt_irrefl 0))
  by_cases hle : amount ≥ vec.len
  . exact isExact_of_safe (safe_shiftLeft_of_le h hlocked hle)
      (fun hb => absurd hb.2.1 (Nat.not_lt.mpr hle))
  . obtain ⟨hchange, blocks, hrun, hmoved⟩ := @shiftLeft_run_of_lt w E vec amount hw h hlocked
      (Nat.pos_of_ne_zero hzero) (Nat.lt_of_not_le hle)
    have hentries : ({ vec with blocks := blocks } : GF2Obj w).entries = vec.entries
        ↔ ¬Breaks (.shiftLeft amount : VecOp w E) vec := by
      apply (@entries_eq_iff w ⟨vec.len, blocks⟩ vec.toGF2Vec rfl).trans
      unfold Breaks
      dsimp only
      constructor
      . rintro hall ⟨-, -, j, hj, hdiv, hne⟩
        have hbit := hall j hj
        rw [hmoved.2, if_pos hdiv] at hbit
        exact hne hbit.symm
      . intro hbreaks j hj
        rw [hmoved.2]
        split
        . next hdiv =>
          by_contra hne
          exact hbreaks ⟨Nat.pos_of_ne_zero hzero, Nat.lt_of_not_le hle, j, hj, hdiv,
            fun heq => hne heq.symm⟩
        . rfl
    by_cases hbreaks : Breaks (.shiftLeft amount : VecOp w E) vec
    . apply isExact_of_not _ hbreaks
      intro hstep
      obtain ⟨msg, arg1, arg2, vec', herr, -, heq⟩ := hstep.2 hchange
      rw [hrun] at herr
      cases herr
      exact hentries.mp heq hbreaks
    . apply isExact_of_safe _ hbreaks
      refine safe_of_kept hrun ⟨rfl, rfl, ?_, Nat.le_of_eq hmoved.1⟩ (hentries.mpr hbreaks)
      unfold GF2Vec.HasBlocks
      dsimp only
      rw [hmoved.1]
      exact h

end ShiftLeft

section

variable (hw : 0 < w) (h : vec.HasBlocks) {pos : Nat} (hpos : 0 < pos) (hle : pos ≤ vec.len)

include hw h hpos hle

theorem setBlockElm_run (one locked : Bool)
    : ∃ blocks', setBlockElm pos one { vec with locked := locked }
          = .ok { vec with locked := locked, blocks := blocks' }
        ∧ blocks'.length = vec.blocks.length := by
  have hlen : vec.len ≤ vec.blocks.length * w := h
  have hk : (pos - 1) / w < vec.blocks.length := div_lt_of_lt hw (by omega)
  unfold setBlockElm
  rw [readAt_of_lt hk 0#w, ok_bind, writeAt_of_lt hk]
  exact ⟨_, rfl, length_set⟩

theorem safe_ass_bit (one : Bool)
    : Safe (.ass pos (if one then .one else .zero) : VecOp w E) vec := by
  have hrun (locked : Bool)
      : ∃ blocks', applyOp (.ass pos (if one then .one else .zero) : VecOp w E)
            { vec with locked := locked }
          = .ok none { vec with locked := locked, blocks := blocks' }
        ∧ blocks'.length = vec.blocks.length := by
    obtain ⟨blocks', hset, hlen⟩ := setBlockElm_run hw h hpos hle one locked
    have hextend : extendGF2Vec pos { vec with locked := locked }
        = .ok { vec with locked := locked } := by
      unfold extendGF2Vec
      rw [if_neg (show ¬vec.len + 1 = pos by omega)]
      rfl
    refine ⟨blocks', ?_, hlen⟩
    unfold applyOp funcAssGF2Vec
    dsimp only
    rw [get_bind, if_pos (show pos ≤ vec.len + 1 by omega), update_bind hextend]
    cases one with
    | true =>
      rw [if_pos rfl]
      exact update_bind hset _
    | false =>
      rw [if_neg Bool.false_ne_true]
      exact update_bind hset _
  obtain ⟨blocks', hrun', hlen'⟩ := hrun vec.locked
  obtain ⟨_, hunlocked, _⟩ := hrun false
  refine Or.inr ⟨_, hrun', ⟨rfl, rfl, ?_, Nat.le_of_eq hlen'⟩, not_changesLength hunlocked rfl⟩
  unfold GF2Vec.HasBlocks
  dsimp only
  rw [hlen']
  exact h

end

section Simple

variable {vec : GF2Obj w} (hw : 0 < w) (h : vec.HasBlocks) (hlocked : vec.locked = true)

include h hlocked

theorem safe_resize (newlen : Nat) : Safe (.resize newlen : VecOp w E) vec := by
  by_cases hne : vec.len = newlen
  . subst hne
    refine Or.inr ⟨vec, ?_, kept_self h, ?_⟩
    . exact bind_ok (update_ok resize_self) _
    . have hrun := @resize_self w { vec with locked := false }
      exact not_changesLength
        (bind_ok (update_ok (f := fun v => resizeGF2Vec v vec.len) hrun) _) rfl
  . apply safe_of_error h
    exact bind_error (update_error (resize_locked hlocked hne)) _

theorem safe_shiftRight (amount : Nat) : Safe (.shiftRight amount : VecOp w E) vec := by
  by_cases hzero : amount = 0
  . subst hzero
    exact Or.inr ⟨vec, rfl, kept_self h, not_changesLength rfl rfl⟩
  . apply safe_of_error h
    have hrun : shiftRightGF2Vec amount vec = .error lockedError vec := by
      unfold shiftRightGF2Vec
      rw [if_neg hzero, get_bind]
      exact update_bind_error (resize_locked hlocked (by omega)) _
    exact bind_error hrun _

theorem safe_unb (pos : Nat) : Safe (.unb pos : VecOp w E) vec := by
  apply safe_of_error h
  unfold applyOp funcUnbGF2Vec
  dsimp only
  rw [get_bind, if_pos hlocked]
  rfl

include hw

theorem safe_append (vecr : GF2Vec w) : Safe (.append vecr : VecOp w E) vec := by
  by_cases hlen : vecr.len > 0
  . apply safe_of_error h
    apply bind_error
    apply update_error
    rw [if_pos ⟨hlocked, hlen⟩]
    rfl
  . have hzero : vecr.len = 0 := by
      omega
    have hrun (locked : Bool) : applyOp (.append vecr : VecOp w E) { vec with locked := locked }
        = .ok none { vec with locked := locked, blocks := resizeBlocks vec.blocks vec.len } := by
      apply bind_ok
      apply update_ok
      rw [if_neg (fun hl => hlen hl.2), hzero]
      rfl
    refine Or.inr ⟨_, hrun vec.locked, ⟨rfl, rfl, ?_, ?_⟩, not_changesLength (hrun false) rfl⟩
    . unfold GF2Vec.HasBlocks
      dsimp only
      rw [length_resizeBlocks]
      exact le_ceilDiv_mul hw vec.len
    . dsimp only
      rw [length_resizeBlocks]
      exact ceilDiv_le hw h

theorem safe_ass {pos : Nat} (hpos : 0 < pos) (elm : FieldElm E) : Safe (.ass pos elm) vec := by
  have hplain : plainGF2Vec (E := E) vec
      = .error (.quit "Cannot convert a locked GF2 vector into a plain list" 0 0) := by
    unfold plainGF2Vec
    rw [if_pos hlocked]
    rfl
  by_cases hle : pos ≤ vec.len
  . have hextend : extendGF2Vec pos vec = .ok vec := by
      unfold extendGF2Vec
      rw [if_neg (by omega)]
      rfl
    cases elm with
    | zero => exact safe_ass_bit hw h hpos hle false
    | one => exact safe_ass_bit hw h hpos hle true
    | ffe q elm =>
      have hrewrite : rewriteGF2Vec (E := E) vec q = .error
          (.quit "Cannot convert a locked vector compressed over GF(2) to GF(%d)" q 0) := by
        unfold rewriteGF2Vec
        rw [if_pos hlocked]
        rfl
      apply safe_of_error h
      unfold applyOp funcAssGF2Vec
      dsimp only
      rw [get_bind, if_pos (by omega), update_bind hextend, get_bind]
      exact bind_error (ofResult_error hrewrite) _
    | other elm =>
      apply safe_of_error h
      unfold applyOp funcAssGF2Vec
      dsimp only
      rw [get_bind, if_pos (by omega), update_bind hextend, get_bind]
      exact bind_error (ofResult_error hplain) _
  . by_cases hlast : vec.len + 1 = pos
    . have hextend : extendGF2Vec pos vec
          = .error (.quit "Assignment forbidden beyond the end of locked GF2 vector" 0 0) := by
        unfold extendGF2Vec
        rw [if_pos hlast, if_pos hlocked]
        rfl
      apply safe_of_error h
      unfold applyOp funcAssGF2Vec
      dsimp only
      rw [get_bind, if_pos (by omega)]
      exact update_bind_error hextend _
    . apply safe_of_error h
      unfold applyOp funcAssGF2Vec
      dsimp only
      rw [get_bind, if_neg (by omega)]
      exact bind_error (ofResult_error hplain) _

end Simple

section Reduce

variable {vec : GF2Obj w} {vec2 : GF2Vec w} {len1 len2 m : Nat}

theorem reduceCoeffs_run (hw : 0 < w) (h1 : IsVector vec.toGF2Vec) (h2 : IsVector vec2)
    (hlen2 : len2 ≤ vec2.len) (hright : rightMostOne vec2.blocks len2 = .ok m) (hm : m ≤ len2)
    (hm0 : m ≠ 0) (hlast : bitAt vec2.blocks (m - 1) = true)
    : ∃ rem last quotient' k, k < m ∧ IsRightMost rem.blocks rem.len last
        ∧ IsDivision vec vec2 m (vec.len + 1 - m) false k rem quotient'
        ∧ applyOp (.reduceCoeffs vec.len vec2 len2 : VecOp w E) vec
          = (do
            update (fun rem => resizeGF2Vec rem last)
            return none) rem := by
  have hword := h1.word
  have hblocks : vec.len ≤ vec.blocks.length * w := h1.hasBlocks
  obtain ⟨rem, quotient', k, hrun, hk, hdiv⟩ := @reduceCoeffs_spec w vec2 m
    (vec.len + 1 - m) vec none hw hlast (Nat.pos_of_ne_zero hm0)
    (Nat.le_trans hm (Nat.le_trans hlen2 h2.hasBlocks)) (by omega) (Nat.le_refl _) h1.hasBlocks
    (fun _ h => nomatch h)
  have hupdate := reduceCoeffsGF2Vec_fst hrun
  obtain ⟨last, hright', hlast'⟩ := rightMostOne_spec hw hdiv.hasBlocks
  refine ⟨rem, last, quotient', k, hk, hlast', hdiv, ?_⟩
  have hself : resizeGF2Vec vec vec.len = .ok vec := resize_self
  unfold applyOp funcReduceCoeffsGF2Vec
  dsimp only
  rw [bind_assoc, get_bind, if_neg (Nat.lt_irrefl _), if_neg (by omega), bind_assoc,
    update_bind hself, bind_assoc, ofResult_bind hright, if_neg hm0, bind_assoc,
    update_bind hupdate, bind_assoc, get_bind, bind_assoc]
  unfold rightMostOneGF2Vec
  rw [ofResult_bind hright', bind_assoc]
  rfl

theorem IsDivision.bitAt_eq {n k : Nat} {hasQuot : Bool} {rem : GF2Obj w}
    {quotient : Option (List (BitVec w))} (hm0 : m ≠ 0) (hlast : bitAt vec2.blocks (m - 1) = true)
    (hk : k < m) (hdiv : IsDivision vec vec2 m n hasQuot k rem quotient)
    (hsmall : ∀ j, m - 1 ≤ j → j < vec.len → bitAt vec.blocks j = false)
    {j : Nat} (hj : j < vec.len) : bitAt rem.blocks j = bitAt vec.blocks j := by
  obtain ⟨q, hq, -⟩ := hdiv.quot
  have hdeg := degree_coeffs (Nat.pos_of_ne_zero hm0) hlast
  -- The quotient is zero, since the degrees of both polynomials are lower.
  have hq0 : q = 0 := by
    by_contra hne
    have hprod : q * coeffs vec2.blocks m
        = coeffs vec.blocks vec.len - coeffs rem.blocks vec.len := by
      rw [eq_sub_iff_add_eq]
      exact hq.symm
    have hlt : (q * coeffs vec2.blocks m).degree < (m - 1 : Nat) := by
      rw [hprod]
      apply lt_of_le_of_lt (degree_sub_le _ _)
      apply max_lt (degree_coeffs_lt hsmall)
      exact degree_coeffs_lt (fun j hj hlt => hdiv.zero j (by omega) hlt)
    rw [degree_mul, hdeg] at hlt
    have hle : (0 : WithBot ℕ) ≤ q.degree := zero_le_degree_iff.mpr hne
    have hself : ((m - 1 : Nat) : WithBot ℕ) ≤ q.degree + ((m - 1 : Nat) : WithBot ℕ) :=
      le_add_of_nonneg_left hle
    exact absurd hlt (not_lt_of_ge hself)
  rw [hq0, zero_mul, zero_add] at hq
  have hcoeff := congrArg (fun p => p.coeff j) hq
  unfold poly at hcoeff
  simp only [coeff_coeffs, if_pos hj] at hcoeff
  unfold bitZ at hcoeff
  exact zbit_injective hcoeff.symm

theorem breaks_reduceCoeffs_iff (hm : m ≤ len2) (hm0 : m ≠ 0)
    (hlast : bitAt vec2.blocks (m - 1) = true) (hlen2 : len2 ≤ vec2.len)
    (hzero : ∀ j, m ≤ j → j < len2 → bitAt vec2.blocks j = false)
    : Breaks (.reduceCoeffs vec.len vec2 len2 : VecOp w E) vec
        ↔ ∃ j, m - 1 ≤ j ∧ j < vec.len ∧ bitAt vec.blocks j = true := by
  constructor
  . rintro ⟨-, -, -, j, hj, hbit, hall⟩
    exact ⟨j, hall (m - 1) (by omega) hlast, hj, hbit⟩
  . rintro ⟨j, hle, hj, hbit⟩
    refine ⟨rfl, hlen2, ⟨m - 1, by omega, hlast⟩, j, hj, hbit, fun k hk hone => ?_⟩
    by_contra hlt
    rw [hzero k (by omega) hk] at hone
    exact Bool.false_ne_true hone

section

variable (hw : 0 < w) (h1 : IsVector vec.toGF2Vec) (hlocked : vec.locked = true)
  (h2 : IsVector vec2) (hlen2 : len2 ≤ vec2.len) (hright : rightMostOne vec2.blocks len2 = .ok m)
  (hm : m ≤ len2) (hm0 : m ≠ 0) (hlast : bitAt vec2.blocks (m - 1) = true)

include hw h1 hlocked h2 hlen2 hright hm hm0 hlast

theorem safe_reduceCoeffs_divisor
    (hsmall : ∀ j, m - 1 ≤ j → j < vec.len → bitAt vec.blocks j = false)
    : Safe (.reduceCoeffs vec.len vec2 len2 : VecOp w E) vec := by
  obtain ⟨rem, last, quotient, k, hk, hlast', hdiv, hrun⟩ :=
    @reduceCoeffs_run w E vec vec2 len2 m hw h1 h2 hlen2 hright hm hm0 hlast
  have hkept : Kept vec rem :=
    ⟨hdiv.len_eq, hdiv.locked_eq, hdiv.hasBlocks, Nat.le_of_eq hdiv.length_eq⟩
  by_cases hne : rem.len = last
  . subst hne
    refine Or.inr ⟨rem, ?_, hkept, ?_⟩
    . exact hrun.trans (update_bind resize_self _)
    . -- The unlocked vector has the same remainder.
      obtain ⟨rem', last', quotient', k', hk', hlast'', hdiv', hrun'⟩ :=
        @reduceCoeffs_run w E { vec with locked := false } vec2 len2 m hw
          ⟨h1.hasBlocks, h1.word⟩ h2 hlen2 hright hm hm0 hlast
      have hlen' : rem'.len = vec.len := hdiv'.len_eq
      have heq : last' = vec.len := by
        by_contra hlt
        have hle := hlast''.1
        have hpos : rem.len ≠ 0 := by
          rw [hdiv.len_eq]
          omega
        have hone := hlast'.2.2 hpos
        have hz := hlast''.2.1 (vec.len - 1) (by omega) (by omega)
        rw [hdiv.len_eq, hdiv.bitAt_eq hm0 hlast hk hsmall (by omega)] at hone
        rw [hdiv'.bitAt_eq hm0 hlast hk' hsmall (show vec.len - 1 < vec.len by omega)] at hz
        exact Bool.false_ne_true (hz.symm.trans hone)
      have hself : resizeGF2Vec rem' last' = .ok rem' := by
        rw [heq, ← hlen']
        exact resize_self
      exact not_changesLength (hrun'.trans (update_bind hself _)) hlen'
  . have hl : rem.locked = true := hdiv.locked_eq.trans hlocked
    apply safe_of_kept (hrun.trans (update_bind_error (resize_locked hl hne) _)) hkept
    . apply (entries_eq_iff hdiv.len_eq).mpr
      intro j hj
      exact hdiv.bitAt_eq hm0 hlast hk hsmall hj

theorem not_stepHolds_reduceCoeffs {j : Nat} (hle : m - 1 ≤ j) (hj : j < vec.len)
    (hbit : bitAt vec.blocks j = true)
    : ¬StepHolds (.reduceCoeffs vec.len vec2 len2 : VecOp w E) vec := by
  have hshort {rem : GF2Obj w} {last k : Nat} (hk : k < m) (hlen : rem.len = vec.len)
      (hzero : ∀ j, k ≤ j → j < vec.len → bitAt rem.blocks j = false)
      (hlast' : IsRightMost rem.blocks rem.len last) : last ≠ vec.len := by
    intro heq
    have hone := hlast'.2.2 (by omega)
    rw [hzero (last - 1) (by omega) (by omega)] at hone
    exact Bool.false_ne_true hone
  intro hstep
  obtain ⟨rem, last, quotient, k, hk, hlast', hdiv, hrun⟩ :=
    @reduceCoeffs_run w E vec vec2 len2 m hw h1 h2 hlen2 hright hm hm0 hlast
  have hl : rem.locked = true := hdiv.locked_eq.trans hlocked
  have hne : rem.len ≠ last := by
    rw [hdiv.len_eq]
    exact (hshort hk hdiv.len_eq hdiv.zero hlast').symm
  have hchange : ChangesLength (.reduceCoeffs vec.len vec2 len2 : VecOp w E) vec := by
    obtain ⟨rem', last', quotient', k', hk', hlast'', hdiv', hrun'⟩ :=
      @reduceCoeffs_run w E { vec with locked := false } vec2 len2 m hw
        ⟨h1.hasBlocks, h1.word⟩ h2 hlen2 hright hm hm0 hlast
    have hl' : rem'.locked = false := hdiv'.locked_eq
    obtain ⟨vec', hresize, hres⟩ := @resize_spec w rem' last' hw hdiv'.hasBlocks
      (fun ht => absurd (hl'.symm.trans ht) Bool.false_ne_true)
    refine ⟨none, vec', hrun'.trans (update_bind hresize _), ?_⟩
    show vec'.len ≠ vec.len
    rw [hres.1]
    exact hshort hk' hdiv'.len_eq hdiv'.zero hlast''
  obtain ⟨msg, arg1, arg2, vec', herr, -, heq⟩ := hstep.2 hchange
  rw [hrun.trans (update_bind_error (resize_locked hl hne) _)] at herr
  cases herr
  have hsame := (entries_eq_iff hdiv.len_eq).mp heq j hj
  rw [hdiv.zero j (by omega) hj, hbit] at hsame
  exact Bool.false_ne_true hsame

end

theorem isExact_reduceCoeffs (hw : 0 < w) (h1 : IsVector vec.toGF2Vec)
    (hlocked : vec.locked = true) (h2 : IsVector vec2)
    : IsExact (.reduceCoeffs len1 vec2 len2 : VecOp w E) vec := by
  by_cases hgt : len1 > vec.len
  . refine isExact_of_safe ?_ (fun hb => absurd hb.1 (Nat.ne_of_gt hgt))
    apply safe_of_error h1.hasBlocks
    unfold applyOp funcReduceCoeffsGF2Vec
    dsimp only
    rw [bind_assoc, get_bind, if_pos hgt]
    rfl
  by_cases hlen2 : len2 > vec2.len
  . refine isExact_of_safe ?_ (fun hb => absurd hb.2.1 (Nat.not_le.mpr hlen2))
    apply safe_of_error h1.hasBlocks
    unfold applyOp funcReduceCoeffsGF2Vec
    dsimp only
    rw [bind_assoc, get_bind, if_neg hgt, if_pos hlen2]
    rfl
  by_cases hlen1 : len1 = vec.len
  . subst hlen1
    have hle := Nat.le_of_not_lt hlen2
    obtain ⟨m, hright, hm, hzero, hone⟩ := rightMostOne_spec hw (Nat.le_trans hle h2.hasBlocks)
    by_cases hm0 : m = 0
    . subst hm0
      have hself : resizeGF2Vec vec vec.len = .ok vec := resize_self
      apply isExact_of_safe
      . apply safe_of_error h1.hasBlocks
        unfold applyOp funcReduceCoeffsGF2Vec
        dsimp only
        rw [bind_assoc, get_bind, if_neg hgt, if_neg hlen2, bind_assoc,
          update_bind hself, bind_assoc, ofResult_bind hright, if_pos rfl]
        rfl
      . rintro ⟨-, -, ⟨k, hk, hbit⟩, -⟩
        rw [hzero k (Nat.zero_le k) hk] at hbit
        exact Bool.false_ne_true hbit
    . have hlast := hone hm0
      have hbreaks := @breaks_reduceCoeffs_iff w E vec vec2 len2 m hm hm0 hlast hle hzero
      by_cases hb : Breaks (.reduceCoeffs vec.len vec2 len2 : VecOp w E) vec
      . obtain ⟨j, hj, hlt, hbit⟩ := hbreaks.mp hb
        exact isExact_of_not
          (not_stepHolds_reduceCoeffs hw h1 hlocked h2 hle hright hm hm0 hlast hj hlt hbit) hb
      . apply isExact_of_safe _ hb
        apply safe_reduceCoeffs_divisor hw h1 hlocked h2 hle hright hm hm0 hlast
        intro j hj hlt
        rw [← Bool.not_eq_true]
        exact fun hbit => hb (hbreaks.mpr ⟨j, hj, hlt, hbit⟩)
  . refine isExact_of_safe ?_ (fun hb => hlen1 hb.1)
    apply safe_of_error h1.hasBlocks
    unfold applyOp funcReduceCoeffsGF2Vec
    dsimp only
    rw [bind_assoc, get_bind, if_neg hgt, if_neg hlen2, bind_assoc]
    exact update_bind_error (resize_locked hlocked (Ne.symm hlen1)) _

end Reduce

theorem isExact (hw : 0 < w) (h : IsVector vec.toGF2Vec) (hlocked : vec.locked = true)
    (hop : op.Valid) : IsExact op vec := by
  have hb := h.hasBlocks
  cases op with
  | addCoeffs vr => exact isExact_adds hw (adds_addCoeffs vr) Iff.rfl hb hop.hasBlocks
  | addCoeffsMult vr mul =>
    by_cases hmul : mul = .one
    . subst hmul
      exact isExact_adds hw (adds_addCoeffsMult vr) (and_iff_right rfl) hb hop.hasBlocks
    . exact isExact_of_safe (safe_addCoeffsMult hw hb hmul) (fun hbreaks => hmul hbreaks.1)
  | append vecr => exact isExact_of_safe (safe_append hw hb hlocked vecr) id
  | resize newlen => exact isExact_of_safe (safe_resize hb hlocked newlen) id
  | shiftLeft amount => exact isExact_shiftLeft hw hb hlocked
  | shiftRight amount => exact isExact_of_safe (safe_shiftRight hb hlocked amount) id
  | reduceCoeffs len1 vec2 len2 => exact isExact_reduceCoeffs hw h hlocked hop
  | ass pos elm => exact isExact_of_safe (safe_ass hw hb hlocked hop elm) id
  | unb pos => exact isExact_of_safe (safe_unb hb hlocked pos) id

section Rows

structure IsRow (n : Nat) (vec : GF2Obj w) : Prop where
  isVector : IsVector vec.toGF2Vec
  locked : vec.locked = true
  len_eq : vec.len = n

theorem Kept.isRow {n : Nat} {vec vec' : GF2Obj w} (hkept : Kept vec vec') (h : IsRow n vec)
    : IsRow n vec' := by
  refine ⟨⟨hkept.hasBlocks, ?_⟩, hkept.locked_eq.trans h.locked, hkept.len_eq.trans h.len_eq⟩
  exact Nat.lt_of_le_of_lt (Nat.mul_le_mul_right w hkept.length_le) h.isVector.word

def nextRow (op : VecOp w E) (vec : GF2Obj w) : GF2Obj w :=
  match applyOp op vec with
  | .ok _ vec' => vec'
  | .error _ vec' => vec'

theorem Safe.kept {op : VecOp w E} {vec : GF2Obj w} (h : Safe op vec)
    : Kept vec (nextRow op vec) := by
  unfold nextRow
  rcases h with ⟨msg, arg1, arg2, vec', hrun, hkept, -⟩ | ⟨vec', hrun, hkept, -⟩
  . rw [hrun]
    exact hkept
  . rw [hrun]
    exact hkept

def HoldsAlong (n : Nat) : (steps : List (Nat × VecOp w E)) → (rows : List (GF2Obj w)) → Prop
  | [], rows => ∀ vec ∈ rows, vec.len = n
  | (i, op) :: steps, rows => (∀ vec ∈ rows, vec.len = n)
    ∧ (∀ vec, rows[i]? = some vec → StepHolds op vec)
    ∧ HoldsAlong n steps (rows.modify i (nextRow op))

def AvoidsAlong : (steps : List (Nat × VecOp w E)) → (rows : List (GF2Obj w)) → Prop
  | [], _ => True
  | (i, op) :: steps, rows => (∀ vec, rows[i]? = some vec → ¬Breaks op vec)
    ∧ AvoidsAlong steps (rows.modify i (nextRow op))

theorem isRow_modify {n i : Nat} {op : VecOp w E} {rows : List (GF2Obj w)} (hw : 0 < w)
    (hrows : ∀ vec ∈ rows, IsRow n vec) (hop : op.Valid)
    (hbreaks : ∀ vec, rows[i]? = some vec → ¬Breaks op vec)
    : ∀ vec ∈ rows.modify i (nextRow op), IsRow n vec := by
  intro vec' hmem
  obtain ⟨j, hj, rfl⟩ := mem_iff_getElem.mp hmem
  rw [length_modify] at hj
  have hrow := hrows _ (getElem_mem hj)
  rw [getElem_modify]
  split
  . next heq =>
    subst heq
    have hexact := isExact hw hrow.isVector hrow.locked hop
    exact (hexact.2 (hbreaks _ (getElem?_eq_getElem hj))).kept.isRow hrow
  . exact hrow

theorem lockedRows_iff {n : Nat} {steps : List (Nat × VecOp w E)} {rows : List (GF2Obj w)}
    (hw : 0 < w) (hrows : ∀ vec ∈ rows, IsRow n vec) (hsteps : ∀ step ∈ steps, step.2.Valid)
    : HoldsAlong n steps rows ↔ AvoidsAlong steps rows := by
  induction steps generalizing rows with
  | nil => exact iff_of_true (fun vec hmem => (hrows vec hmem).len_eq) trivial
  | cons step steps ih =>
    obtain ⟨i, op⟩ := step
    have hop : op.Valid := hsteps _ List.mem_cons_self
    have hstep : (∀ vec, rows[i]? = some vec → StepHolds op vec)
        ↔ ∀ vec, rows[i]? = some vec → ¬Breaks op vec := by
      apply forall_congr'
      intro vec
      apply imp_congr_right
      intro hget
      have hrow := hrows vec (List.mem_of_getElem? hget)
      exact (isExact hw hrow.isVector hrow.locked hop).1
    have hnext (hbreaks : ∀ vec, rows[i]? = some vec → ¬Breaks op vec) :=
      @ih (rows.modify i (nextRow op)) (isRow_modify hw hrows hop hbreaks)
        (fun step hmem => hsteps step (List.mem_cons_of_mem _ hmem))
    constructor
    . rintro ⟨-, hholds, hrest⟩
      have hbreaks := hstep.mp hholds
      exact ⟨hbreaks, (hnext hbreaks).mp hrest⟩
    . rintro ⟨hbreaks, hrest⟩
      exact ⟨fun vec hmem => (hrows vec hmem).len_eq, hstep.mpr hbreaks, (hnext hbreaks).mpr hrest⟩

theorem lockedRows_iff_two
    : HoldsAlong 2 [(0, (.resize 5 : VecOp 64 Empty)), (1, .ass 2 .one)]
        [⟨⟨2, [2#64]⟩, true⟩, ⟨⟨2, [1#64]⟩, true⟩] := by
  apply (lockedRows_iff (by decide) ?_ ?_).mpr
  . exact ⟨fun _ _ hb => hb, fun _ _ hb => hb, trivial⟩
  . intro vec hmem
    simp only [List.mem_cons, List.not_mem_nil, or_false] at hmem
    rcases hmem with rfl | rfl
    . exact ⟨⟨by decide, by decide⟩, rfl, rfl⟩
    . exact ⟨⟨by decide, by decide⟩, rfl, rfl⟩
  . intro step hmem
    simp only [List.mem_cons, List.not_mem_nil, or_false] at hmem
    rcases hmem with rfl | rfl
    . trivial
    . exact Nat.succ_pos 1

/-- The row becomes longer, is shifted although it is locked, and is replaced by the remainder. -/
theorem not_lockedRows_two
    : ¬HoldsAlong 2 [(0, (.addCoeffs ⟨3, [7#64]⟩ : VecOp 64 Empty))] [⟨⟨2, [2#64]⟩, true⟩]
      ∧ ¬HoldsAlong 2 [(0, (.shiftLeft 1 : VecOp 64 Empty))] [⟨⟨2, [2#64]⟩, true⟩]
      ∧ ¬HoldsAlong 2 [(0, (.reduceCoeffs 2 ⟨2, [3#64]⟩ 2 : VecOp 64 Empty))]
          [⟨⟨2, [2#64]⟩, true⟩] := by
  have hvec : IsVector (⟨2, [2#64]⟩ : GF2Vec 64) := ⟨by decide, by decide⟩
  have hbroken {op : VecOp 64 Empty} (hop : op.Valid) (hb : Breaks op ⟨⟨2, [2#64]⟩, true⟩)
      : ¬HoldsAlong 2 [(0, op)] [⟨⟨2, [2#64]⟩, true⟩] :=
    fun h => (isExact (by decide) hvec rfl hop).1.mp (h.2.1 _ rfl) hb
  refine ⟨hbroken ⟨by decide, by decide⟩ (Nat.lt_succ_self 2), hbroken trivial ?_, hbroken ?_ ?_⟩
  . exact ⟨by decide, by decide, 0, by decide, by decide, by decide⟩
  . exact ⟨by decide, by decide⟩
  . refine ⟨rfl, by decide, ⟨0, by decide, by decide⟩, 1, by decide, by decide, ?_⟩
    exact fun k hk _ => Nat.le_of_lt_succ hk

end Rows

end GF2Impl
