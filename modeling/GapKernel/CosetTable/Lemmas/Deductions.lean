import GapKernel.CosetTable.Impl
import Mathlib.Data.List.GetD

open List

namespace DeductionQueue

def deductions (q : DeductionQueue) : List (Nat × Nat) :=
  ((q.dedgen.zip q.dedcos).take q.dedlst.toNat).drop q.dedfst

def isLive (t : List (List Int)) (ded : Nat × Nat) : Bool :=
  match tableEntry t ded.1 ded.2 with
  | .ok entry => decide (0 < entry)
  | .error _ => false

structure IsFull (q : DeductionQueue) (t : List (List Int)) : Prop where
  dedgen_length : q.dedgen.length = q.dedSize
  dedcos_length : q.dedcos.length = q.dedSize
  dedfst_le : q.dedfst ≤ q.dedSize
  dedlst_eq : q.dedlst = q.dedSize
  inTable : ∀ ded ∈ q.deductions, ∃ entry, tableEntry t ded.1 ded.2 = .ok entry

structure IsCompressed (q : DeductionQueue) (t : List (List Int)) (q' : DeductionQueue) : Prop where
  dedfst_eq : q'.dedfst = 0
  dedlst_lt : q'.dedlst < q.dedSize
  sublist : q'.deductions.Sublist (q.deductions.filter (isLive t))
  kept : q'.deductions = q.deductions.filter (isLive t)
    ∨ q'.output = q.output ++ ["#I  WARNING: deductions being discarded\n"]

theorem zip_set {α β : Type} (l : List α) (m : List β) (j : Nat) (x : α) (y : β)
    : (l.set j x).zip (m.set j y) = (l.zip m).set j (x, y) := by
  induction l generalizing m j with
  | nil => simp
  | cons a l ih =>
    cases m with
    | nil => simp
    | cons b m =>
      cases j with
      | zero => simp
      | succ j => simp [ih]

def firstKept (q : DeductionQueue) : Nat :=
  max q.dedfst 1

structure LoopInv (q : DeductionQueue) (t : List (List Int)) (i : Nat)
    (s : List Nat × List Nat × Nat) : Prop where
  dedgen_length : s.1.length = q.dedSize
  dedcos_length : s.2.1.length = q.dedSize
  kept : (s.1.zip s.2.1).take s.2.2
    = (((q.dedgen.zip q.dedcos).take i).drop q.firstKept).filter (isLive t)
  rest : (s.1.zip s.2.1).drop i = (q.dedgen.zip q.dedcos).drop i
  le : s.2.2 ≤ i - q.firstKept

variable {q : DeductionQueue} {t : List (List Int)}

theorem compressRound_spec (hq : q.IsFull t) {i : Nat} {s : List Nat × List Nat × Nat}
    (hfst : q.dedfst ≤ i) (hi : i < q.dedSize) (hs : q.LoopInv t i s)
    : ∃ s', compressRound t i s = .ok s' ∧ q.LoopInv t (i + 1) s' := by
  obtain ⟨dedgen, dedcos, j⟩ := s
  have hgen := hs.dedgen_length
  have hcos := hs.dedcos_length
  have hle := hs.le
  dsimp only at hgen hcos hle
  have hD : (q.dedgen.zip q.dedcos).length = q.dedSize := by
    rw [length_zip, hq.dedgen_length, hq.dedcos_length, Nat.min_self]
  have hD' : (dedgen.zip dedcos).length = q.dedSize := by
    rw [length_zip, hgen, hcos, Nat.min_self]
  have hget : (dedgen.zip dedcos)[i]? = (q.dedgen.zip q.dedcos)[i]? := by
    have := congrArg (fun l => l[0]?) hs.rest
    simpa using this
  rw [getElem?_eq_getElem (by omega), getElem?_eq_getElem (by omega)] at hget
  rw [Option.some.injEq, getElem_zip] at hget
  have hmem : (q.dedgen.zip q.dedcos)[i] ∈ q.deductions := by
    unfold deductions
    rw [hq.dedlst_eq, Int.toNat_natCast, take_of_length_le (by omega)]
    rw [mem_drop_iff_getElem]
    exact ⟨i - q.dedfst, by omega, by congr 1; omega⟩
  obtain ⟨entry, hentry⟩ := hq.inTable _ hmem
  have hlive : isLive t (q.dedgen.zip q.dedcos)[i] = decide (0 < entry) := by
    unfold isLive
    rw [hentry]
  have hsnoc : (q.dedgen.zip q.dedcos).take (i + 1)
      = (q.dedgen.zip q.dedcos).take i ++ [(q.dedgen.zip q.dedcos)[i]] := by
    rw [take_succ_eq_append_getElem (by omega)]
  have hrest : ∀ l : List (Nat × Nat), l.drop i = (q.dedgen.zip q.dedcos).drop i
      → l.drop (i + 1) = (q.dedgen.zip q.dedcos).drop (i + 1) := by
    intro l hl
    rw [← drop_drop, ← drop_drop, hl]
  have hdrop : i < q.firstKept → ((q.dedgen.zip q.dedcos).take (i + 1)).drop q.firstKept = [] := by
    intro hlt
    rw [drop_eq_nil_iff, length_take]
    omega
  have hkept : q.firstKept ≤ i → (((q.dedgen.zip q.dedcos).take (i + 1)).drop q.firstKept).filter
      (isLive t) = (((q.dedgen.zip q.dedcos).take i).drop q.firstKept).filter (isLive t)
        ++ if 0 < entry then [(q.dedgen.zip q.dedcos)[i]] else [] := by
    intro hge
    rw [hsnoc, drop_append_of_le_length (by rw [length_take]; omega)]
    rw [filter_append, filter_singleton, hlive]
    simp
  rw [← hget] at hentry
  unfold compressRound
  dsimp only
  rw [readAt_of_lt (by omega : i < dedgen.length) 0, ok_bind]
  rw [readAt_of_lt (by omega : i < dedcos.length) 0, ok_bind]
  rw [getD_eq_getElem _ _ (by omega), getD_eq_getElem _ _ (by omega), hentry, ok_bind]
  split
  . next h =>
    have hge : q.firstKept ≤ i := by
      unfold firstKept
      omega
    rw [writeAt_of_lt (by omega), ok_bind, writeAt_of_lt (by omega), ok_bind]
    refine ⟨_, rfl, ?_, ?_, ?_, ?_, ?_⟩
    . rw [length_set, hgen]
    . rw [length_set, hcos]
    . rw [zip_set, hget, hkept hge, if_pos h.1, ← hs.kept]
      rw [take_set, take_succ_eq_append_getElem (by omega)]
      rw [set_append_right _ _ (by rw [length_take]; omega)]
      rw [length_take, Nat.min_eq_left (by omega), Nat.sub_self]
      rfl
    . rw [zip_set, drop_set_of_lt (by omega)]
      exact hrest _ hs.rest
    . dsimp only
      omega
  . next h =>
    refine ⟨_, rfl, hgen, hcos, ?_, hrest _ hs.rest, ?_⟩
    . rw [hs.kept]
      by_cases hge : q.firstKept ≤ i
      . rw [hkept hge, if_neg, append_nil]
        intro hpos
        apply h
        unfold firstKept at hge hle
        exact ⟨hpos, by omega⟩
      . rw [hdrop (by omega)]
        rw [drop_eq_nil_of_le (by rw [length_take]; omega)]
    . dsimp only
      omega

theorem compressDeductionList_run (hq : q.IsFull t)
    : ∃ q', q.compressDeductionList t = .ok q' ∧ q'.dedfst = 0 ∧ q'.dedlst < q.dedSize
        ∧ q'.deductions = ((q.dedgen.zip q.dedcos).drop q.firstKept).filter (isLive t)
        ∧ (0 < q.dedSize → q'.output = q.output) := by
  have hle := hq.dedfst_le
  have hD : (q.dedgen.zip q.dedcos).length = q.dedSize := by
    rw [length_zip, hq.dedgen_length, hq.dedcos_length, Nat.min_self]
  have hinit : q.LoopInv t q.dedfst (q.dedgen, q.dedcos, 0) := by
    refine ⟨hq.dedgen_length, hq.dedcos_length, ?_, rfl, Nat.zero_le _⟩
    rw [take_zero, drop_eq_nil_of_le]
    . rfl
    . rw [length_take]
      unfold firstKept
      omega
  unfold compressDeductionList
  rw [if_neg (not_not_intro hq.dedlst_eq), hq.dedlst_eq, Int.toNat_natCast]
  apply exists_bind_of (forLoop_spec (q.LoopInv t) (fun i s hge hlt hs =>
    compressRound_spec hq hge (by omega) hs) hinit)
  rintro ⟨dedgen, dedcos, j⟩ hs
  rw [Nat.add_sub_of_le hle] at hs
  have hkept := hs.kept
  have hj := hs.le
  rw [take_of_length_le (Nat.le_of_eq hD)] at hkept
  dsimp only at hkept hj ⊢
  split
  . next heq =>
    have hzero : j = 0 ∧ q.dedSize = 0 := by
      unfold firstKept at hj
      omega
    rw [hzero.1, take_zero] at hkept
    refine ⟨_, rfl, ?_, ?_, ?_, ?_⟩
    . split
      . rfl
      . rfl
    . split
      . dsimp only
        omega
      . dsimp only
        omega
    . unfold deductions
      rw [← hkept]
      split
      . simp [hzero.1]
      . simp [hzero.1]
    . omega
  . next hne =>
    refine ⟨_, rfl, rfl, ?_, ?_, fun _ => rfl⟩
    . dsimp only
      omega
    . unfold deductions
      rw [Int.toNat_natCast, drop_zero]
      exact hkept

/--
`CompressDeductionList` compresses the queue iff the position 0 is not in the queue or its deduction
is not live.
-/
theorem compressDeductionList_iff (hq : q.IsFull t)
    : (∃ q', q.compressDeductionList t = .ok q' ∧ q.IsCompressed t q')
        ↔ (q.dedfst = 0 → ∀ ded ∈ q.deductions.head?, isLive t ded = false) := by
  obtain ⟨q', hrun, hfst, hlst, hded, hout⟩ := compressDeductionList_run hq
  have hall : q.deductions = (q.dedgen.zip q.dedcos).drop q.dedfst := by
    unfold deductions
    have hlen : (q.dedgen.zip q.dedcos).length ≤ q.dedSize := by
      rw [List.length_zip, hq.dedgen_length]
      exact Nat.min_le_left _ _
    rw [hq.dedlst_eq, Int.toNat_natCast, List.take_of_length_le hlen]
  have hiff : (∃ q', q.compressDeductionList t = .ok q' ∧ q.IsCompressed t q')
      ↔ q.IsCompressed t q' := by
    rw [hrun]
    simp
  rw [hiff]
  by_cases hzero : q.dedfst = 0
  . have hone : q.firstKept = 1 := by
      unfold firstKept
      omega
    rw [hone] at hded
    rw [hzero, List.drop_zero] at hall
    cases hD : q.dedgen.zip q.dedcos with
    | nil =>
      rw [hD] at hall hded
      rw [hall]
      simp only [List.head?_nil]
      refine ⟨by simp, fun _ => ⟨hfst, hlst, ?_, Or.inl ?_⟩⟩
      . rw [hded, hall]
        simp
      . rw [hded, hall]
        simp
    | cons ded D =>
      rw [hD] at hall hded
      rw [List.drop_one, List.tail_cons] at hded
      have hsize : 0 < q.dedSize := by
        have := congrArg List.length hD
        rw [List.length_zip, hq.dedgen_length, List.length_cons] at this
        omega
      have hfilter : q.deductions.filter (isLive t)
          = if isLive t ded then ded :: q'.deductions else q'.deductions := by
        rw [hall, hded, List.filter_cons]
      rw [hall]
      constructor
      . intro h _ ded' hded'
        rw [List.head?_cons, Option.mem_some_iff] at hded'
        rw [← hded', ← Bool.not_eq_true]
        intro hlive
        rw [if_pos hlive] at hfilter
        cases h.kept with
        | inl heq =>
          rw [hfilter] at heq
          exact absurd (congrArg List.length heq) (by simp)
        | inr heq =>
          rw [hout hsize] at heq
          exact absurd (congrArg List.length heq) (by simp)
      . intro h
        have hdead : isLive t ded = false := h hzero ded rfl
        rw [if_neg (by simp [hdead])] at hfilter
        refine ⟨hfst, hlst, ?_, Or.inl hfilter.symm⟩
        rw [hfilter]
  . have hkept : q'.deductions = q.deductions.filter (isLive t) := by
      rw [hded, hall]
      unfold firstKept
      rw [Nat.max_eq_left (by omega)]
    refine ⟨fun _ h => absurd h hzero, fun _ => ⟨hfst, hlst, ?_, Or.inl hkept⟩⟩
    rw [hkept]

def fullQueue : DeductionQueue where
  dedgen := List.replicate 40960 1
  dedcos := List.range' 1 40960
  dedfst := 0
  dedlst := 40960
  dedSize := 40960
  dedprint := false
  output := []

theorem isLive_fullQueue {ded : Nat × Nat}
    (h : ded ∈ (replicate 40960 1).zip (range' 1 40960))
    : tableEntry [replicate 40960 1] ded.1 ded.2 = .ok 1 := by
  obtain ⟨gen, cos⟩ := ded
  have hmem := of_mem_zip h
  rw [mem_replicate, mem_range'_1] at hmem
  obtain ⟨k, rfl⟩ : ∃ k, cos = k + 1 := ⟨cos - 1, by omega⟩
  unfold tableEntry
  rw [hmem.1.2, elmPlist_of_getElem? (x := replicate 40960 1) rfl, ok_bind]
  apply elmPlist_of_getElem?
  rw [getElem?_replicate, if_pos (by omega)]

theorem isFull_fullQueue : fullQueue.IsFull [replicate 40960 1] where
  dedgen_length := length_replicate
  dedcos_length := length_range'
  dedfst_le := Nat.zero_le _
  dedlst_eq := rfl
  inTable := by
    intro ded h
    exact ⟨1, isLive_fullQueue (mem_of_mem_take (mem_of_mem_drop h))⟩

/-- The first deduction is lost without a warning. -/
theorem not_isCompressed_fullQueue
    : fullQueue.IsFull [List.replicate 40960 1]
      ∧ ¬∃ q', fullQueue.compressDeductionList [List.replicate 40960 1] = .ok q'
        ∧ fullQueue.IsCompressed [List.replicate 40960 1] q' := by
  refine ⟨isFull_fullQueue, ?_⟩
  rintro ⟨q', hrun, h⟩
  obtain ⟨q1, hrun1, -, -, hded, hout⟩ := compressDeductionList_run isFull_fullQueue
  rw [hrun, Except.ok.injEq] at hrun1
  rw [← hrun1] at hded hout
  have hzip : (fullQueue.dedgen.zip fullQueue.dedcos).length = 40960 := by
    rw [List.length_zip, isFull_fullQueue.dedgen_length, isFull_fullQueue.dedcos_length]
    rfl
  have hlen : q'.deductions.length ≤ 40959 := by
    rw [hded]
    refine Nat.le_trans (List.length_filter_le _ _) ?_
    rw [List.length_drop, hzip]
    decide
  have hall : (fullQueue.deductions.filter (isLive [List.replicate 40960 1])).length = 40960 := by
    rw [List.filter_eq_self.mpr]
    . unfold deductions
      rw [List.length_drop, List.length_take, hzip]
      decide
    . intro ded hded
      unfold isLive
      rw [isLive_fullQueue (List.mem_of_mem_take (List.mem_of_mem_drop hded))]
      rfl
  cases h.kept with
  | inl heq =>
    rw [heq, hall] at hlen
    omega
  | inr heq =>
    rw [hout (by decide)] at heq
    exact absurd (congrArg List.length heq) (by simp)

theorem compressDeductionList_iff_two
    : (∃ q', compressDeductionList ⟨[1, 2], [2, 1], 0, 2, 2, false, []⟩ [[1, 0], [2, 1]] = .ok q'
        ∧ IsCompressed ⟨[1, 2], [2, 1], 0, 2, 2, false, []⟩ [[1, 0], [2, 1]] q')
        ↔ (0 = 0 → ∀ ded ∈ deductions ⟨[1, 2], [2, 1], 0, 2, 2, false, []⟩ |>.head?,
          isLive [[1, 0], [2, 1]] ded = false) := by
  apply compressDeductionList_iff
  refine ⟨rfl, rfl, by decide, rfl, ?_⟩
  intro ded hded
  have : ded = (1, 2) ∨ ded = (2, 1) := by
    simpa [deductions] using hded
  rcases this with rfl | rfl
  . exact ⟨0, rfl⟩
  . exact ⟨2, rfl⟩

end DeductionQueue
