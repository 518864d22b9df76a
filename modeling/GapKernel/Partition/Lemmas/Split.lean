import GapKernel.Partition.Lemmas.Consistent
import GapKernel.Partition.Lemmas.Loop

open List

namespace SplitArg

def isMoved (Q : SplitArg) (j : Nat) (g : List Nat) (pt : Nat) : Bool :=
  match Q with
  | partition cellno => entryPlist cellno (imagePoint g pt) = j
  | cell points => if j = 1 then imagePoint g pt ∈ points else imagePoint g pt ∉ points

def Covers (Q : SplitArg) (g : List Nat) (pt : Nat) : Prop :=
  match Q with
  | partition cellno => imagePoint g pt ≤ cellno.length
  | cell _ => True

theorem test_eq {Q : SplitArg} {g : List Nat} {pt : Nat} (j : Nat) (h : Q.Covers g pt)
    : Q.test (imagePoint g pt) j = .ok (Q.isMoved j g pt) := by
  cases Q with
  | partition cellno =>
    unfold test isMoved
    dsimp only
    rw [elmPlist_eq_entryPlist (by simp [imagePoint]) h, ok_bind]
    rfl
  | cell points => rfl

end SplitArg

namespace PartitionRec

variable {P : PartitionRec} {points0 : List Nat}

/--
The calls of `SplitCell` for which the scan stays in the cell: `out` is `true` or smaller than the
cell, or some point of the cell does not move out.
-/
structure IsSplitCall (P : PartitionRec) (i : Nat) (Q : SplitArg) (j : Nat) (g : List Nat)
    (out : MaxOut) : Prop where
  isCellNo : P.IsCellNo i
  covers : ∀ pt ∈ P.cell i, Q.Covers g pt
  stays : (∃ pt ∈ P.cell i, Q.isMoved j g pt = false)
    ∨ ∀ n, out = .max n → (n : Int) < entryPlist P.lengths i

def TooMany (P : PartitionRec) (i : Nat) (f : Nat → Bool) (out : MaxOut) : Prop :=
  ∃ n, out = .max n ∧ n < { pt ∈ P.cell i | f pt = true }.ncard

structure IsSplitOf (P0 P : PartitionRec) (i : Nat) : Prop where
  isCellNo : P0.IsCellNo i
  firsts_eq : ∃ a : Nat, P.firsts = P0.firsts ++ [a]
    ∧ (entryPlist P.firsts i + entryPlist P.lengths i : Int) = a
  lengths_eq : ∃ s k : Int, P.lengths = (P0.lengths ++ [k]).set (i - 1) s
    ∧ s + k = entryPlist P0.lengths i
  cellno_length : P.cellno.length = P0.cellno.length
  cellno_eq : ∀ pt, entryPlist P0.cellno pt
    = if entryPlist P.cellno pt = P.firsts.length then i else entryPlist P.cellno pt

structure CellsSplit (P P' : PartitionRec) (i : Nat) (f : Nat → Prop) : Prop where
  length_eq : P'.firsts.length = P.firsts.length + 1
  new : P'.cell (P.firsts.length + 1) = { pt ∈ P.cell i | f pt }
  old : P'.cell i = { pt ∈ P.cell i | ¬f pt }
  other : ∀ c, c ≠ i → c ≠ P.firsts.length + 1 → P'.cell c = P.cell c

structure IsSplitResult (P : PartitionRec) (i : Nat) (f : Nat → Bool) (out : MaxOut)
    (P' : PartitionRec) (res : Option Int) : Prop where
  fails_iff : res = none ↔ (∀ pt ∈ P.cell i, f pt = false) ∨ (∀ pt ∈ P.cell i, f pt = true)
    ∨ P.TooMany i f out
  unchanged : res = none → P'.shape = P.shape ∧ ∀ c, P'.cell c = P.cell c
  split : ∀ k, res = some k → CellsSplit P P' i (fun pt => f pt = true)
    ∧ k = entryPlist P'.lengths (P.firsts.length + 1)
  isSplitOf : res ≠ none → P.IsSplitOf P' i

theorem cell_zero (P : PartitionRec) : P.cell 0 = ∅ := by
  ext pt
  simp [cell, InCell]

namespace IsConsistent

theorem cell_eq_of_cellno {P' : PartitionRec} (h : P.IsConsistent points0)
    (h' : P'.IsConsistent points0) (heq : P'.cellno = P.cellno) (c : Nat)
    : P'.cell c = P.cell c := by
  cases c with
  | zero => rw [cell_zero, cell_zero]
  | succ c =>
    ext pt
    rw [h.mem_cell_iff (by omega), h'.mem_cell_iff (by omega), heq]

variable {i : Nat} {pre cell post : List Nat}

section

variable (h : P.IsConsistent points0) (hi : P.IsCellNo i)

include h hi

theorem ncard_eq_countP (hseg : IsSegment P i pre cell post) (f : Nat → Bool)
    : { pt ∈ P.cell i | f pt = true }.ncard = cell.countP f := by
  have hnodup : cell.Nodup := by
    have := h.perm.nodup_iff.mpr h.nodup
    rw [hseg.points_eq, nodup_append, nodup_append] at this
    exact this.1.2.1
  have hset : { pt ∈ P.cell i | f pt = true } = ((cell.filter f).toFinset : Set Nat) := by
    ext pt
    simp [← hseg.mem_cell_iff hi]
  rw [hset, Set.ncard_coe_finset, toFinset_card_of_nodup (hnodup.filter f)]
  rw [countP_eq_length_filter]

theorem IsSegment.cell_length_pos (hseg : IsSegment P i pre cell post)
    : 0 < cell.length := by
  have := h.length_pos i hi.1 hi.2
  have := hseg.length_eq
  omega

theorem split_segment {S M : List Nat} (hseg : IsSegment P i pre (S ++ M) post) (hS : S ≠ [])
    (hM : M ≠ []) {cellno : List Nat} (hcellnolen : cellno.length = P.cellno.length)
    (hcellno : ∀ pt, entryPlist cellno pt = if pt ∈ M then P.firsts.length + 1 else entryPlist P.cellno pt)
    {P' : PartitionRec}
    (hP' : P' = { P with cellno, firsts := P.firsts ++ [pre.length + S.length + 1], lengths := (P.lengths ++ [(M.length : Int)]).set (i - 1) S.length : PartitionRec })
    : P'.IsConsistent points0 ∧ P.IsSplitOf P' i ∧ CellsSplit P P' i (· ∈ M)
        ∧ entryPlist P'.lengths (P.firsts.length + 1) = M.length := by
  have hlen := h.length_eq
  have hcons := h.of_split hi hseg hS hM hcellnolen hcellno
  rw [← hP'] at hcons
  have hlengthi := hseg.length_eq
  have hfirsti := hseg.first_eq
  rw [length_append] at hlengthi
  have hi1 := hi.1
  have hi2 := hi.2
  have hMcell : ∀ pt ∈ M, entryPlist P.cellno pt = i := by
    intro pt hpt
    have hmem := (hseg.mem_cell_iff hi pt).mp (mem_append_right _ hpt)
    rwa [h.mem_cell_iff hi1] at hmem
  have hcellno_le : ∀ pt, entryPlist P.cellno pt ≤ P.firsts.length := by
    intro pt
    by_contra hgt
    have hmem := (h.mem_cell_iff (by omega)).mpr (rfl : _ = entryPlist P.cellno pt)
    obtain ⟨_, hin, _⟩ := hmem
    have := hin.2.1
    omega
  have hcellnoP' : ∀ pt, entryPlist P'.cellno pt
      = if pt ∈ M then P.firsts.length + 1 else entryPlist P.cellno pt := by
    rw [hP']
    exact hcellno
  refine ⟨hcons, ?_, ?_, ?_⟩
  . refine ⟨hi, ⟨pre.length + S.length + 1, ?_, ?_⟩, ⟨S.length, M.length, ?_, ?_⟩, ?_, ?_⟩
    . rw [hP']
    . rw [hP']
      dsimp only
      rw [entryPlist_concat, if_neg (by omega)]
      rw [entryPlist_set hi1 (by rw [length_append]; omega), if_pos rfl]
      omega
    . rw [hP']
    . omega
    . rw [hP']
      exact hcellnolen
    . intro pt
      rw [hcellnoP', hP', length_append, length_singleton]
      by_cases hpt : pt ∈ M
      . rw [if_pos hpt, if_pos rfl, hMcell pt hpt]
      . have := hcellno_le pt
        rw [if_neg hpt, if_neg (by omega)]
  . constructor
    . rw [hP']
      simp
    . ext pt
      rw [hcons.mem_cell_iff (by omega), hcellnoP']
      simp only [Set.mem_ofPred_eq, h.mem_cell_iff hi1]
      have := hcellno_le pt
      split
      . next hpt => simp [hpt, hMcell pt hpt]
      . next hpt =>
        simp only [hpt, and_false, iff_false]
        omega
    . ext pt
      rw [hcons.mem_cell_iff hi1, hcellnoP']
      simp only [Set.mem_ofPred_eq, h.mem_cell_iff hi1]
      split
      . next hpt =>
        simp only [hpt, not_true, and_false, iff_false]
        omega
      . next hpt => simp [hpt]
    . intro c hci hcnew
      cases c with
      | zero => rw [cell_zero, cell_zero]
      | succ c =>
        ext pt
        rw [hcons.mem_cell_iff (by omega), h.mem_cell_iff (by omega), hcellnoP']
        split
        . next hpt =>
          rw [hMcell pt hpt]
          omega
        . rfl
  . rw [hP']
    dsimp only
    rw [entryPlist_set hi1 (by rw [length_append]; omega), if_neg (by omega)]
    rw [entryPlist_concat, hlen, if_pos rfl]

theorem elmPlist_segment (hseg : IsSegment P i pre cell post)
    : elmPlist P.firsts i = .ok (pre.length + 1) ∧ elmPlist P.lengths i = .ok (cell.length : Int)
        ∧ ((pre.length + 1 : Nat) + (cell.length : Int) - 1).toNat
          = pre.length + cell.length := by
  have hlen := h.length_eq
  have hi2 := hi.2
  rw [elmPlist_eq_entryPlist hi.1 hi.2, hseg.first_eq]
  rw [elmPlist_eq_entryPlist hi.1 (by omega), hseg.length_eq]
  refine ⟨rfl, rfl, ?_⟩
  omega

theorem newCell_spec {S M : List Nat} (hseg : IsSegment P i pre (S ++ M) post) (hS : S ≠ [])
    (hM : M ≠ [])
    : ∃ P', P.newCell i (pre.length + S.length + 1) (pre.length + (S ++ M).length)
          = .ok (P', (M.length : Int))
        ∧ P'.IsConsistent points0 ∧ P.IsSplitOf P' i ∧ CellsSplit P P' i (· ∈ M)
        ∧ entryPlist P'.lengths (P.firsts.length + 1) = M.length := by
  have hlen := h.length_eq
  have hi2 := hi.2
  have hslice : slice P.points (pre.length + S.length + 1) (pre.length + (S ++ M).length)
      = .ok M := by
    have heq : P.points = (pre ++ S) ++ M ++ post := by
      rw [hseg.points_eq]
      simp
    rw [heq]
    apply slice_eq
    . simp
    . simp
      omega
  obtain ⟨cellno, hset, hcellnolen, hcellno⟩ := setCellno_spec P.cellno M
    (P.firsts.length + 1) (by
      intro pt hpt
      apply h.point_bounds
      rw [hseg.points_eq]
      simp [hpt])
  have hlength : ((pre.length + (S ++ M).length : Nat) : Int)
      - (pre.length + S.length + 1 : Nat) + 1 = M.length := by
    rw [length_append]
    omega
  have hlengthi : ((S ++ M).length : Int) - M.length = S.length := by
    rw [length_append]
    omega
  refine ⟨_, ?_, h.split_segment hi hseg hS hM hcellnolen hcellno rfl⟩
  unfold newCell
  dsimp only
  rw [hslice, ok_bind]
  rw [hset, ok_bind]
  rw [elmPlist_eq_entryPlist hi.1 (by omega), ok_bind]
  rw [hlength, hseg.length_eq, hlengthi]
  rw [setElmPlist_eq hi.1 (by rw [length_append]; omega), ok_bind]
  rfl

end

theorem splitCell_spec (h : P.IsConsistent points0) {Q : SplitArg} {j : Nat} {g : List Nat}
    {out : MaxOut} (hcall : IsSplitCall P i Q j g out)
    : ∃ P' res, (∀ internal, P.splitCell i Q j g out internal = .ok (P', res))
        ∧ P'.IsConsistent points0 ∧ IsSplitResult P i (Q.isMoved j g) out P' res := by
  have hi := hcall.isCellNo
  obtain ⟨pre, cell, post, hseg⟩ := h.exists_segment hi
  obtain ⟨hfirst, hlength, hl⟩ := h.elmPlist_segment hi hseg
  have hmem := hseg.mem_cell_iff hi
  have hpos := hseg.cell_length_pos h hi
  have hncard := h.ncard_eq_countP hi hseg (Q.isMoved j g)
  have hmax : 0 ≤ out.maxmov cell.length := by
    cases out with
    | all =>
      dsimp only [MaxOut.maxmov]
      omega
    | max n =>
      dsimp only [MaxOut.maxmov]
      omega
  have hstay : (∃ x ∈ cell, Q.isMoved j g x = false) ∨ out.maxmov cell.length < cell.length := by
    rcases hcall.stays with ⟨pt, hpt, hfalse⟩ | hlt
    . left
      exact ⟨pt, (hmem pt).mpr hpt, hfalse⟩
    . right
      rw [hseg.length_eq] at hlt
      cases out with
      | all =>
        dsimp only [MaxOut.maxmov]
        omega
      | max n => exact hlt n rfl
  have htest : ∀ x ∈ cell, Q.test (imagePoint g x) j = .ok (Q.isMoved j g x) := by
    intro x hx
    apply SplitArg.test_eq
    apply hcall.covers
    rwa [← hmem]
  obtain ⟨points, res, hkernel, hlibrary, hres⟩ := split_spec pre cell post htest hmax hstay
  have hcollect : ∀ internal, collect Q internal (fun pt => Q.test (imagePoint g pt) j) P.points
      (pre.length + 1) (pre.length + cell.length) (out.maxmov cell.length)
      = .ok (points, res) := by
    intro internal
    unfold collect
    rw [hseg.points_eq]
    split
    . split
      . exact hkernel
      . exact hlibrary
    . exact hlibrary
  have hrun : ∀ internal, P.splitCell i Q j g out internal
      = finishSplit { P with points } i (pre.length + cell.length) res := by
    intro internal
    unfold splitCell
    rw [hfirst, ok_bind]
    rw [hlength, ok_bind]
    dsimp only
    rw [hl, hcollect, ok_bind]
  have hall : (∀ pt ∈ P.cell i, Q.isMoved j g pt = true)
      ↔ cell.countP (Q.isMoved j g) = cell.length := by
    rw [countP_eq_length]
    simp only [hmem]
  have hnone : (∀ pt ∈ P.cell i, Q.isMoved j g pt = false)
      ↔ cell.countP (Q.isMoved j g) = 0 := by
    rw [countP_eq_zero]
    simp [hmem]
  have htooMany : P.TooMany i (Q.isMoved j g) out
      ↔ ∃ n, out = .max n ∧ n < cell.countP (Q.isMoved j g) := by
    unfold TooMany
    rw [hncard]
  rcases hres with ⟨cell', hperm, rfl, rfl, hcount⟩ | ⟨S, M, hperm, rfl, rfl, hS, hM, hne, hle⟩
  . obtain ⟨hcons, _⟩ := h.of_perm hi hseg hperm
    refine ⟨{ P with points := pre ++ cell' ++ post }, none, ?_, hcons, ?_⟩
    . intro internal
      rw [hrun]
      rfl
    . constructor
      . simp only [true_iff]
        right
        cases out with
        | all =>
          left
          rw [hall]
          have := countP_le_length (p := Q.isMoved j g) (l := cell)
          dsimp only [MaxOut.maxmov] at hcount
          omega
        | max n =>
          right
          rw [htooMany]
          dsimp only [MaxOut.maxmov] at hcount
          exact ⟨n, rfl, by omega⟩
      . intro _
        exact ⟨rfl, h.cell_eq_of_cellno hcons rfl⟩
      . intro k hk
        contradiction
      . intro hk
        contradiction
  . obtain ⟨hcons, hseg'⟩ := h.of_perm hi hseg hperm
    have hlen := hperm.length_eq
    have hcells := h.cell_eq_of_cellno hcons rfl
    have hcountM : cell.countP (Q.isMoved j g) = M.length := by
      rw [← hperm.countP_eq, countP_append, countP_eq_length.mpr hM]
      rw [countP_eq_zero.mpr (by simpa using hS), Nat.zero_add]
    cases M with
    | nil =>
      refine ⟨{ P with points := pre ++ (S ++ []) ++ post }, none, ?_, hcons, ?_⟩
      . intro internal
        rw [hrun]
        unfold finishSplit
        dsimp only
        rw [if_pos (by rw [← hlen]; simp)]
        rfl
      . constructor
        . simp only [true_iff]
          left
          rw [hnone, hcountM]
          rfl
        . intro _
          exact ⟨rfl, hcells⟩
        . intro k hk
          contradiction
        . intro hk
          contradiction
    | cons x M =>
      obtain ⟨P', hnew, hcons', hsplit, hcells', hlength'⟩ :=
        hcons.newCell_spec hi hseg' hne (cons_ne_nil x M)
      rw [length_append] at hlen
      rw [length_append, hlen] at hnew
      have hSlen := length_pos_iff.mpr hne
      have hmem' : ∀ pt ∈ P.cell i, (pt ∈ x :: M ↔ Q.isMoved j g pt = true) := by
        intro pt hpt
        constructor
        . apply hM pt
        . intro hmoved
          rw [← hmem, ← hperm.mem_iff, mem_append] at hpt
          rcases hpt with hpt | hpt
          . rw [hS pt hpt] at hmoved
            contradiction
          . exact hpt
      refine ⟨P', some ((x :: M).length : Int), ?_, hcons', ?_⟩
      . intro internal
        rw [hrun]
        unfold finishSplit
        dsimp only
        rw [if_neg (by rw [length_cons] at hlen; omega)]
        rw [hnew]
        rfl
      . constructor
        . simp only [reduceCtorEq, false_iff]
          rw [hnone, hall, htooMany, hcountM]
          rintro (h0 | hlast | ⟨n, rfl, hn⟩)
          . simp at h0
          . omega
          . dsimp only [MaxOut.maxmov] at hle
            omega
        . intro hk
          contradiction
        . rintro k ⟨⟩
          refine ⟨⟨hcells'.length_eq, ?_, ?_, ?_⟩, hlength'.symm⟩
          . rw [hcells'.new, hcells]
            ext pt
            simp only [Set.mem_ofPred_eq]
            exact and_congr_right (hmem' pt)
          . rw [hcells'.old, hcells]
            ext pt
            simp only [Set.mem_ofPred_eq]
            exact and_congr_right fun hpt => not_congr (hmem' pt hpt)
          . intro c hci hcnew
            rw [hcells'.other c hci hcnew, hcells]
        . intro _
          exact ⟨hi, hsplit.firsts_eq, hsplit.lengths_eq, hsplit.cellno_length, hsplit.cellno_eq⟩

theorem exists_moveLast (pre u v post : List Nat) (pt : Nat)
    : ∃ S last points, (S ++ [pt]).Perm (u ++ pt :: v)
        ∧ elmPlist (pre ++ (u ++ pt :: v) ++ post) (pre.length + (u ++ pt :: v).length) = .ok last
        ∧ setElmPlist (pre ++ (u ++ pt :: v) ++ post) (pre.length + u.length + 1) last = .ok points
        ∧ setElmPlist points (pre.length + (u ++ pt :: v).length) pt
          = .ok (pre ++ (S ++ [pt]) ++ post) := by
  induction v using List.reverseRecOn with
  | nil =>
    have hpoints : pre ++ (u ++ [pt]) ++ post = (pre ++ u) ++ pt :: post := by
      simp
    have hl : pre.length + (u ++ [pt]).length = (pre ++ u).length + 1 := by
      simp
      omega
    rw [hpoints, hl, ← length_append]
    refine ⟨u, pt, _, List.Perm.refl _, elmPlist_append_cons _ _ _,
      setElmPlist_append_cons _ _ _ _, ?_⟩
    rw [hpoints]
    apply setElmPlist_append_cons
  | append_singleton w z =>
    have hpoints : ∀ x y, pre ++ (u ++ x :: (w ++ [y])) ++ post
        = (pre ++ (u ++ x :: w)) ++ y :: post := by
      simp
    have hpoints' : ∀ x, pre ++ (u ++ x :: (w ++ [z])) ++ post
        = (pre ++ u) ++ x :: (w ++ z :: post) := by
      simp
    have hl : ∀ x, pre.length + (u ++ pt :: (w ++ [z])).length
        = (pre ++ (u ++ x :: w)).length + 1 := by
      intro x
      simp
      omega
    refine ⟨u ++ z :: w, z, pre ++ (u ++ z :: (w ++ [z])) ++ post, ?_, ?_, ?_, ?_⟩
    . simp only [perm_iff_count, count_append, count_cons, count_nil]
      intro t
      omega
    . rw [hpoints, hl pt]
      apply elmPlist_append_cons
    . rw [hpoints', hpoints', ← length_append]
      apply setElmPlist_append_cons
    . rw [hpoints, hl z]
      rw [setElmPlist_append_cons]
      simp

theorem position_eq (pre u v : List Nat) {pt : Nat} (h : pt ∉ u)
    : position (pre ++ (u ++ pt :: v)) pt pre.length = .ok (pre.length + u.length + 1) := by
  have hidx : (u ++ pt :: v).idxOf? pt = some u.length := by
    induction u with
    | nil => simp [idxOf?_cons]
    | cons x u ih =>
      rw [mem_cons, not_or] at h
      rw [cons_append, idxOf?_cons, ih h.2]
      rw [if_neg (by simpa using Ne.symm h.1)]
      rfl
  unfold position
  rw [drop_left, hidx]
  rfl

theorem isolatePoint_spec (h : P.IsConsistent points0) {pt : Nat} (hpt : pt ∈ P.points)
    : ∃ P' res, P.isolatePoint pt = .ok (P', res) ∧ P'.IsConsistent points0
        ∧ (res = none ↔ P.cell (entryPlist P.cellno pt) = {pt})
        ∧ (res = none → P' = P)
        ∧ ∀ k, res = some k → k = entryPlist P.cellno pt ∧ CellsSplit P P' k (· = pt)
          ∧ P.IsSplitOf P' k := by
  rw [mem_iff_entryPlist] at hpt
  obtain ⟨pos, hpos, hle, hentry⟩ := hpt
  have hipos := h.covered pos hpos hle
  have hin := h.cellno_eq pos _ hpos hle hipos
  rw [hentry] at hipos hin
  have hbounds := h.point_bounds pt (by
    rw [mem_iff_entryPlist]
    exact ⟨pos, hpos, hle, hentry⟩)
  generalize hcellno : entryPlist P.cellno pt = i at *
  have hin := hin.mp rfl
  have hi : P.IsCellNo i := ⟨hin.1, hin.2.1⟩
  have hi2 := hi.2
  have hlenP := h.length_eq
  obtain ⟨pre, cell, post, hseg⟩ := h.exists_segment hi
  obtain ⟨hfirst, hlength, hl⟩ := h.elmPlist_segment hi hseg
  have hmem := hseg.mem_cell_iff hi
  have hptcell : pt ∈ cell := by
    rw [hmem]
    exact ⟨pos, hin, hentry⟩
  obtain ⟨u, v, rfl⟩ := append_of_mem hptcell
  have hnodup : pt ∉ u := by
    have := h.perm.nodup_iff.mpr h.nodup
    rw [hseg.points_eq, nodup_append, nodup_append, nodup_append] at this
    intro hu
    exact this.1.2.1.2.2 pt hu pt (by simp) rfl
  unfold isolatePoint
  rw [elmPlist_eq_entryPlist hbounds.1 hbounds.2, hcellno, ok_bind]
  rw [hlength, ok_bind]
  split
  . next hone =>
    have huv : u = [] ∧ v = [] := by
      simp only [length_append, length_cons] at hone
      constructor
      . apply eq_nil_of_length_eq_zero
        omega
      . apply eq_nil_of_length_eq_zero
        omega
    refine ⟨P, none, rfl, h, ?_, fun _ => rfl, ?_⟩
    . simp only [true_iff]
      ext x
      rw [← hmem, huv.1, huv.2]
      simp
    . intro k hk
      contradiction
  . next hone =>
    obtain ⟨S, last, points, hperm, helm, hset, hset'⟩ := exists_moveLast pre u v post pt
    obtain ⟨hcons, hseg'⟩ := h.of_perm hi hseg hperm
    have hlenS := hperm.length_eq
    simp only [length_append, length_cons, length_nil] at hlenS
    have hS : S ≠ [] := by
      intro hS
      rw [hS] at hlenS
      simp only [length_append, length_cons] at hone
      simp only [length_nil] at hlenS
      omega
    have hposition := position_eq pre u (v ++ post) hnodup
    rw [show pre ++ (u ++ pt :: (v ++ post)) = pre ++ (u ++ pt :: v) ++ post by simp] at hposition
    have hcellnolen : (P.cellno.set (pt - 1) (P.firsts.length + 1)).length = P.cellno.length :=
      length_set
    obtain ⟨hcons', hsplit, hcells, hlength'⟩ := hcons.split_segment hi hseg' hS
      (cons_ne_nil pt []) hcellnolen (by
        intro x
        rw [entryPlist_set hbounds.1 hbounds.2]
        simp) rfl
    rw [hfirst, ok_bind]
    rw [Nat.add_sub_cancel, hseg.points_eq, hposition, ok_bind]
    dsimp only
    rw [hl, helm, ok_bind]
    rw [hset, ok_bind]
    rw [hset', ok_bind]
    rw [setElmPlist_eq hbounds.1 hbounds.2, ok_bind]
    rw [setElmPlist_eq hi.1 (by rw [length_append]; omega), ok_bind]
    have hlast : pre.length + (u ++ pt :: v).length = pre.length + S.length + 1 := by
      simp only [length_append, length_cons]
      omega
    have hrest : ((u ++ pt :: v).length : Int) - 1 = S.length := by
      simp only [length_append, length_cons]
      omega
    have hcell := h.cell_eq_of_cellno hcons rfl
    refine ⟨_, some i, ?_, hcons', ?_, ?_, ?_⟩
    . rw [hlast, hrest]
      rfl
    . simp only [reduceCtorEq, false_iff]
      intro hsingle
      obtain ⟨x, S, rfl⟩ := exists_cons_of_ne_nil hS
      have hx : x ∈ P.cell i := by
        rw [← hmem, ← hperm.mem_iff]
        simp
      rw [hsingle, Set.mem_singleton_iff] at hx
      have hcellnodup : (x :: S ++ [pt]).Nodup := by
        rw [hperm.nodup_iff]
        have := h.perm.nodup_iff.mpr h.nodup
        rw [hseg.points_eq, nodup_append, nodup_append] at this
        exact this.1.2.1
      simp [hx] at hcellnodup
    . intro hk
      contradiction
    . rintro k ⟨⟩
      refine ⟨rfl, ⟨hcells.length_eq, ?_, ?_, ?_⟩,
        hi, hsplit.firsts_eq, hsplit.lengths_eq, hsplit.cellno_length, hsplit.cellno_eq⟩
      . rw [hcells.new, hcell]
        simp
      . rw [hcells.old, hcell]
        simp
      . intro c hci hcnew
        rw [hcells.other c hci hcnew, hcell]

theorem undoRefinement_spec (h : P.IsConsistent points0) {P0 : PartitionRec}
    (hsplit : P0.IsSplitOf P i) (hlen0 : P0.lengths.length = P0.firsts.length)
    : ∃ P', P.undoRefinement = .ok (P', some i) ∧ P'.IsConsistent points0
        ∧ P'.shape = P0.shape := by
  have hi0 := hsplit.isCellNo
  obtain ⟨a, hfirsts, hadj⟩ := hsplit.firsts_eq
  obtain ⟨s, k, hlengths, hsum⟩ := hsplit.lengths_eq
  have hlen := h.length_eq
  have hM : P.firsts.length = P0.firsts.length + 1 := by
    rw [hfirsts]
    simp
  have hi1 := hi0.1
  have hi2 := hi0.2
  have hlast : entryPlist P.firsts P.firsts.length = a := by
    rw [hfirsts, entryPlist_concat, length_append]
    simp
  have hlengthi : entryPlist P.lengths i = s := by
    rw [hlengths, entryPlist_set hi1 (by rw [length_append]; omega), if_pos rfl]
  have hlengthM : entryPlist P.lengths P.firsts.length = k := by
    rw [hlengths, hM, entryPlist_set hi1 (by rw [length_append]; omega), if_neg (by omega)]
    rw [entryPlist_concat, hlen0, if_pos rfl]
  have hfirstipos := h.first_pos i hi1 (by omega)
  have hlengthipos := h.length_pos i hi1 (by omega)
  have hin : P.InCell i (a - 1) := ⟨hi1, by omega, by omega, by omega⟩
  have hbounds := h.pos_bounds hin
  have hpoint := h.point_bounds (entryPlist P.points (a - 1)) (by
    rw [mem_iff_entryPlist]
    exact ⟨_, hbounds.1, hbounds.2, rfl⟩)
  have hcellnoi := (h.cellno_eq _ i hbounds.1 hbounds.2 hi1).mpr hin
  have hfusible := h.isFusible_of_inCell (hlast ▸ hin)
  have hMcell : P.IsCellNo P.firsts.length := ⟨by omega, le_refl _⟩
  obtain ⟨pre, cell, post, hseg⟩ := h.exists_segment hMcell
  have hfirstM := hseg.first_eq
  have hcelllen := hseg.length_eq
  rw [hlast] at hfirstM
  rw [hlengthM] at hcelllen
  obtain ⟨cellno, hset, hcellnolen, hcellno⟩ := setCellno_spec P.cellno cell
    i (by
      intro pt hpt
      apply h.point_bounds
      rw [hseg.points_eq]
      simp [hpt])
  have hcellno' : ∀ pt, entryPlist cellno pt
      = if entryPlist P.cellno pt = P.firsts.length then i else entryPlist P.cellno pt := by
    intro pt
    rw [hcellno]
    simp only [hseg.mem_cell_iff hMcell, h.mem_cell_iff hMcell.1]
  have hslice : slice P.points a (a + k - 1).toNat = .ok cell := by
    rw [hseg.points_eq]
    apply slice_eq
    . exact hfirstM
    . omega
  refine ⟨_, ?_, h.of_fuse hfusible hcellnolen hcellno', ?_⟩
  . unfold undoRefinement
    dsimp only
    rw [elmPlist_eq_entryPlist hMcell.1 (le_refl _), hlast, ok_bind]
    rw [if_neg (by omega)]
    rw [elmPlist_eq_entryPlist hMcell.1 (by omega), hlengthM, ok_bind]
    rw [elmPlist_eq_entryPlist hbounds.1 hbounds.2, ok_bind]
    rw [elmPlist_eq_entryPlist hpoint.1 hpoint.2, hcellnoi, ok_bind]
    rw [elmPlist_eq_entryPlist hi1 (by omega), ok_bind]
    rw [setElmPlist_eq hi1 (by omega), ok_bind]
    rw [hslice, ok_bind]
    rw [hset, ok_bind]
    rfl
  . unfold shape
    have hcellnoeq : cellno = P0.cellno := by
      apply ext_entryPlist
      . rw [hcellnolen, hsplit.cellno_length]
      . intro pt _ _
        rw [hcellno', hsplit.cellno_eq]
    have hfirstseq : P.firsts.dropLast = P0.firsts := by
      rw [hfirsts, dropLast_concat]
    have hlengthseq : (P.lengths.set (i - 1)
        (entryPlist P.lengths i + entryPlist P.lengths P.firsts.length)).dropLast
        = P0.lengths := by
      rw [hlengthi, hlengthM, hlengths, set_set, hsum]
      rw [set_append_left _ _ (by omega), dropLast_concat]
      apply ext_entryPlist
      . exact length_set
      . intro pos _ _
        rw [entryPlist_set hi1 (by omega)]
        split
        . next heq => rw [heq]
        . rfl
    dsimp only
    rw [hcellnoeq, hfirstseq, hlengthseq]

end IsConsistent

end PartitionRec
