import GapKernel.Partition.Lemmas.Split

open List

namespace PartitionRec

variable {P : PartitionRec} {points0 : List Nat}

namespace IsConsistent

theorem nil (cellno : List Nat) (hcellno : ∀ pt, entryPlist cellno pt = 0)
    : { points := [], cellno, firsts := [], lengths := [] : PartitionRec }.IsConsistent [] := by
  constructor
  . exact List.Perm.refl _
  . exact nodup_nil
  . rfl
  . intro c hc hle
    simp at hle
    omega
  . intro c hc hle
    simp at hle
    omega
  . intro c hc hle
    simp at hle
    omega
  . intro pos c hpos hle
    simp at hle
    omega
  . intro pos hpos hle
    simp at hle
    omega
  . intro pt _
    apply hcellno
  . simp

theorem inCell_append (h : P.IsConsistent points0) {cell : List Nat} {P' : PartitionRec}
    (hfirsts : P'.firsts = P.firsts ++ [P.points.length + 1])
    (hlengths : P'.lengths = P.lengths ++ [(cell.length : Int)]) (c pos : Nat)
    : P'.InCell c pos ↔
        if c = P.firsts.length + 1 then
          P.points.length < pos ∧ pos ≤ P.points.length + cell.length
        else
          P.InCell c pos := by
  unfold InCell
  rw [hfirsts, hlengths, length_append, length_singleton]
  rw [entryPlist_concat, entryPlist_concat, h.length_eq]
  split
  . omega
  . omega

theorem of_append (h : P.IsConsistent points0) {cell : List Nat} (hcell : cell ≠ [])
    (hnodup : (points0 ++ cell).Nodup) (hbounds : ∀ pt ∈ cell, 0 < pt ∧ pt ≤ P.cellno.length)
    {cellno : List Nat} (hcellnolen : cellno.length = P.cellno.length)
    (hcellno : ∀ pt, entryPlist cellno pt
      = if pt ∈ cell then P.firsts.length + 1 else entryPlist P.cellno pt)
    {P' : PartitionRec} (hP' : P' = {
        points := P.points ++ cell,
        cellno,
        firsts := P.firsts ++ [P.points.length + 1],
        lengths := P.lengths ++ [(cell.length : Int)] : PartitionRec })
    : P'.IsConsistent (points0 ++ cell) := by
  have hpoints : P'.points = P.points ++ cell := by
    rw [hP']
  have hcellno' : P'.cellno = cellno := by
    rw [hP']
  have hfirsts : P'.firsts = P.firsts ++ [P.points.length + 1] := by
    rw [hP']
  have hlengths : P'.lengths = P.lengths ++ [(cell.length : Int)] := by
    rw [hP']
  have hin := h.inCell_append hfirsts hlengths
  have hlen := h.length_eq
  have hcellpos := length_pos_iff.mpr hcell
  have hdisjoint : ∀ pt ∈ cell, pt ∉ P.points := by
    intro pt hpt hmem
    rw [nodup_append] at hnodup
    exact hnodup.2.2 pt (h.perm.mem_iff.mp hmem) pt hpt rfl
  have hentry : ∀ pos, pos ≤ P.points.length →
      entryPlist (P.points ++ cell) pos = entryPlist P.points pos := by
    intro pos hle
    cases pos with
    | zero => rfl
    | succ pos =>
      rw [entryPlist_eq_getElem (by simp; omega), entryPlist_eq_getElem (by omega)]
      rw [getElem_append_left]
  have hentry' : ∀ pos, P.points.length < pos → pos ≤ P.points.length + cell.length →
      entryPlist (P.points ++ cell) pos ∈ cell := by
    intro pos hlt hle
    rw [mem_segment_iff P.points cell [], append_nil]
    exact ⟨pos, hlt, hle, rfl⟩
  have hold : ∀ pos, 0 < pos → pos ≤ P.points.length → entryPlist P.points pos ∉ cell := by
    intro pos hpos hle hmem
    apply hdisjoint _ hmem
    rw [mem_iff_entryPlist]
    exact ⟨pos, hpos, hle, rfl⟩
  constructor
  . rw [hpoints]
    exact h.perm.append_right cell
  . exact hnodup
  . rw [hlengths, hfirsts]
    simp [hlen]
  . intro c hc hle
    rw [hfirsts, length_append, length_singleton] at hle
    rw [hfirsts, entryPlist_concat]
    split
    . omega
    . exact h.first_pos c hc (by omega)
  . intro c hc hle
    rw [hfirsts, length_append, length_singleton] at hle
    rw [hlengths, entryPlist_concat]
    split
    . omega
    . exact h.length_pos c hc (by omega)
  . intro c hc hle
    rw [hfirsts, length_append, length_singleton] at hle
    rw [hfirsts, hlengths, hpoints, entryPlist_concat, entryPlist_concat, hlen,
      length_append]
    split
    . push_cast
      omega
    . have := h.within c hc (by omega)
      push_cast
      omega
  . intro pos c hpos hle hc
    rw [hpoints, length_append] at hle
    rw [hcellno', hpoints, hcellno, hin]
    by_cases hlt : pos ≤ P.points.length
    . have holdc := h.cellno_eq pos c hpos hlt hc
      rw [hentry pos hlt, if_neg (hold pos hpos hlt), holdc]
      split
      . next hnew =>
        constructor
        . intro hcell
          have := hcell.2.1
          omega
        . omega
      . rfl
    . rw [if_pos (hentry' pos (by omega) hle)]
      split
      . omega
      . constructor
        . omega
        . intro hcell
          have := h.pos_bounds hcell
          omega
  . intro pos hpos hle
    rw [hpoints, length_append] at hle
    rw [hcellno', hpoints, hcellno]
    split
    . omega
    . next hnot =>
      have hlt : pos ≤ P.points.length := by
        by_contra hgt
        exact hnot (hentry' pos (by omega) hle)
      rw [hentry pos hlt]
      exact h.covered pos hpos hlt
  . intro pt hpt
    rw [hpoints, mem_append, not_or] at hpt
    rw [hcellno', hcellno, if_neg hpt.2]
    exact h.hole pt hpt.1
  . intro pt hpt
    rw [hpoints, mem_append] at hpt
    rw [hcellno', hcellnolen]
    cases hpt with
    | inl hpt => exact h.point_bounds pt hpt
    | inr hpt => exact hbounds pt hpt

end IsConsistent

theorem ofCells.go_spec (list : List (List Nat)) (u : List Nat) (P : PartitionRec)
    (h : { P with points := u }.IsConsistent u) (hne : ∀ cell ∈ list, cell ≠ [])
    (hnodup : (u ++ list.flatten).Nodup)
    (hbounds : ∀ pt ∈ list.flatten, 0 < pt ∧ pt ≤ P.cellno.length)
    (hpoints : P.points = u ++ list.flatten)
    : ∃ P', ofCells.go list P (u.length + 1) = .ok P' ∧ P'.points = P.points
        ∧ P'.IsConsistent P.points
        ∧ (∀ pt, pt ∉ list.flatten → entryPlist P'.cellno pt = entryPlist P.cellno pt)
        ∧ ∀ k cell, list[k]? = some cell → ∀ pt ∈ cell,
          entryPlist P'.cellno pt = P.firsts.length + k + 1 := by
  induction list generalizing u P with
  | nil =>
    rw [flatten_nil, append_nil] at hpoints
    subst hpoints
    exact ⟨P, rfl, rfl, h, fun _ _ => rfl, by simp⟩
  | cons cell list ih =>
    rw [forall_mem_cons] at hne
    rw [flatten_cons] at hnodup hbounds hpoints
    rw [forall_mem_append] at hbounds
    obtain ⟨cellno, hset, hcellnolen, hcellno⟩ :=
      IsConsistent.setCellno_spec P.cellno cell (P.firsts.length + 1) hbounds.1
    rw [← append_assoc] at hnodup hpoints
    have hdisjoint : ∀ pt ∈ cell, pt ∉ list.flatten := by
      intro pt hpt hmem
      rw [nodup_append] at hnodup
      exact hnodup.2.2 pt (mem_append_right _ hpt) pt hmem rfl
    have hcons := h.of_append hne.1 (nodup_append.mp hnodup).1 hbounds.1 hcellnolen hcellno rfl
    obtain ⟨P', hgo, hpoints', hcons', hold, hnew⟩ := ih (u ++ cell)
      { P with
        cellno,
        firsts := P.firsts ++ [u.length + 1],
        lengths := P.lengths ++ [(cell.length : Int)] }
      hcons hne.2 hnodup (by rw [hcellnolen]; exact hbounds.2) hpoints
    refine ⟨P', ?_, hpoints', hcons', ?_, ?_⟩
    . unfold ofCells.go
      rw [if_neg (by simpa using hne.1)]
      dsimp only
      rw [length_append, length_singleton, hset, ok_bind]
      rw [length_append] at hgo
      rw [show u.length + 1 + cell.length = u.length + cell.length + 1 by omega]
      exact hgo
    . intro pt hpt
      rw [flatten_cons, mem_append, not_or] at hpt
      rw [hold pt hpt.2, hcellno, if_neg hpt.1]
    . intro k cell' hk pt hpt
      cases k with
      | zero =>
        rw [getElem?_cons_zero, Option.some.injEq] at hk
        subst hk
        rw [hold pt (hdisjoint pt hpt), hcellno, if_pos hpt]
      | succ k =>
        rw [getElem?_cons_succ] at hk
        rw [hnew k cell' hk pt hpt, length_append, length_singleton]
        omega

structure IsCellList (list : List (List Nat)) : Prop where
  ne : ∀ cell ∈ list, cell ≠ []
  pos : ∀ pt ∈ list.flatten, 0 < pt
  nodup : list.flatten.Nodup

theorem entryPlist_replicate (n pt : Nat) : entryPlist (replicate n 0) pt = 0 := by
  rw [← nil_append (replicate n 0), entryPlist_append_replicate]
  cases pt with
  | zero => rfl
  | succ pt => rfl

theorem initialCellno_spec {list : List (List Nat)} (h : IsCellList list)
    : ∃ n, initialCellno list = .ok (replicate n 0) ∧ ∀ pt ∈ list.flatten, pt ≤ n := by
  cases list with
  | nil => exact ⟨0, rfl, by simp⟩
  | cons cell list =>
    unfold initialCellno
    cases hmax : (cell :: list).flatten.max? with
    | none =>
      have hne := h.ne cell (by simp)
      rw [max?_eq_none_iff, flatten_cons, append_eq_nil_iff] at hmax
      exact absurd hmax.1 hne
    | some max =>
      refine ⟨max, rfl, ?_⟩
      intro pt hpt
      rw [max?_eq_some_iff] at hmax
      exact hmax.2 pt hpt

theorem ofCells_spec {list : List (List Nat)} (h : IsCellList list)
    : ∃ P, ofCells list = .ok P ∧ P.IsConsistent list.flatten
        ∧ ∀ k cell, list[k]? = some cell → P.cell (k + 1) = { pt | pt ∈ cell } := by
  obtain ⟨n, hcellno, hle⟩ := initialCellno_spec h
  have hinit := IsConsistent.nil (replicate n 0) (entryPlist_replicate n)
  obtain ⟨P, hgo, hpoints, hcons, _, hnew⟩ := ofCells.go_spec list []
    { points := list.flatten, cellno := replicate n 0, firsts := [], lengths := [] }
    hinit h.ne (by simpa using h.nodup)
    (fun pt hpt => ⟨h.pos pt hpt, by simpa using hle pt hpt⟩) rfl
  refine ⟨P, ?_, hcons, ?_⟩
  . unfold ofCells
    rw [hcellno, ok_bind]
    exact hgo
  . intro k cell hk
    ext pt
    rw [hcons.mem_cell_iff (by omega), Set.mem_ofPred_eq]
    constructor
    . intro heq
      -- The point is in some cell of the list, which has the number `k`.
      have hmem : pt ∈ list.flatten := by
        by_contra hmem
        have := hcons.hole pt (by rwa [hpoints])
        omega
      rw [mem_flatten] at hmem
      obtain ⟨cell', hcell', hpt⟩ := hmem
      obtain ⟨k', hk'⟩ := mem_iff_getElem?.mp hcell'
      have hnew' := hnew k' cell' hk' pt hpt
      simp only [length_nil] at hnew'
      have : k' = k := by omega
      subst this
      rw [hk] at hk'
      cases hk'
      exact hpt
    . intro hpt
      rw [hnew k cell hk pt hpt]
      simp

inductive Call where
  | splitCell (i : Nat) (Q : SplitArg) (j : Nat) (g : List Nat) (out : MaxOut) (internal : Bool)
  | isolatePoint (pt : Nat)
  | undoRefinement

structure History where
  current : PartitionRec
  before : List PartitionRec

namespace History

def step (s : History) (call : Call) : Result History := do
  match call with
  | .splitCell i Q j g out internal =>
    let (P, res) ← s.current.splitCell i Q j g out internal
    return { current := P, before := if res.isSome then s.current :: s.before else s.before }
  | .isolatePoint pt =>
    let (P, res) ← s.current.isolatePoint pt
    return { current := P, before := if res.isSome then s.current :: s.before else s.before }
  | .undoRefinement =>
    let (P, res) ← s.current.undoRefinement
    return { current := P, before := if res.isSome then s.before.tail else s.before }

def IsCall (s : History) (call : Call) : Prop :=
  match call with
  | .splitCell i Q j g out _ => s.current.IsSplitCall i Q j g out
  | .isolatePoint pt => pt ∈ s.current.points
  | .undoRefinement => s.before ≠ []

def IsEffect (s : History) (call : Call) (s' : History) : Prop :=
  match call with
  | .splitCell i Q j g out _ => ∃ res,
    (∀ internal, s.current.splitCell i Q j g out internal = .ok (s'.current, res))
      ∧ IsSplitResult s.current i (Q.isMoved j g) out s'.current res
      ∧ s'.before = if res.isSome then s.current :: s.before else s.before
  | .isolatePoint pt =>
    let i := entryPlist s.current.cellno pt
    if s.current.cell i = {pt} then
      s' = s
    else
      CellsSplit s.current s'.current i (· = pt) ∧ s'.before = s.current :: s.before
  | .undoRefinement => ∃ P0, s.before = P0 :: s'.before ∧ s'.current.shape = P0.shape
    ∧ ∀ c, s'.current.cell c = P0.cell c

inductive Reached (P : PartitionRec) : History → Prop where
  | init : Reached P { current := P, before := [] }
  | step {s s' call} (reached : Reached P s) (isCall : s.IsCall call) (eq : s.step call = .ok s')
    : Reached P s'

inductive IsLinked (points0 : List Nat) : PartitionRec → List PartitionRec → Prop where
  | nil {P1} : IsLinked points0 P1 []
  | cons {P1 P0 before i} (isConsistent : P0.IsConsistent points0) (isSplitOf : P0.IsSplitOf P1 i)
      (linked : IsLinked points0 P0 before) : IsLinked points0 P1 (P0 :: before)

structure IsHistory (points0 : List Nat) (s : History) : Prop where
  isConsistent : s.current.IsConsistent points0
  isLinked : IsLinked points0 s.current s.before

theorem IsLinked.of_shape {P P' : PartitionRec} {before : List PartitionRec}
    (h : IsLinked points0 P before) (heq : P'.shape = P.shape)
    : IsLinked points0 P' before := by
  unfold shape at heq
  simp only [Prod.mk.injEq] at heq
  obtain ⟨hcellno, hfirsts, hlengths⟩ := heq
  cases h with
  | nil => exact .nil
  | @cons _ P0 _ i hcons hsplit linked =>
    apply IsLinked.cons hcons (i := i) _ linked
    constructor
    . exact hsplit.isCellNo
    . rw [hfirsts, hlengths]
      exact hsplit.firsts_eq
    . rw [hlengths]
      exact hsplit.lengths_eq
    . rw [hcellno]
      exact hsplit.cellno_length
    . rw [hcellno, hfirsts]
      exact hsplit.cellno_eq

variable {s : History}

section

variable (h : s.IsHistory points0)

include h

theorem step_splitCell {i j : Nat} {Q : SplitArg} {g : List Nat} {out : MaxOut} {internal : Bool}
    (hcall : s.current.IsSplitCall i Q j g out)
    : ∃ s', s.step (.splitCell i Q j g out internal) = .ok s' ∧ s'.IsHistory points0
        ∧ s.IsEffect (.splitCell i Q j g out internal) s' := by
  obtain ⟨P', res, hrun, hcons, hres⟩ := h.isConsistent.splitCell_spec hcall
  refine ⟨{ current := P', before := if res.isSome then s.current :: s.before else s.before },
    ?_, ⟨hcons, ?_⟩, res, hrun, hres, rfl⟩
  . unfold step
    dsimp only
    rw [hrun, ok_bind]
    rfl
  . cases res with
    | none => exact h.isLinked.of_shape (hres.unchanged rfl).1
    | some k => exact .cons h.isConsistent (hres.isSplitOf (by simp)) h.isLinked

theorem step_isolatePoint {pt : Nat} (hcall : pt ∈ s.current.points)
    : ∃ s', s.step (.isolatePoint pt) = .ok s' ∧ s'.IsHistory points0
        ∧ s.IsEffect (.isolatePoint pt) s' := by
  obtain ⟨P', res, hrun, hcons, hnone, hsame, hsome⟩ := h.isConsistent.isolatePoint_spec hcall
  refine ⟨{ current := P', before := if res.isSome then s.current :: s.before else s.before },
    ?_, ⟨hcons, ?_⟩, ?_⟩
  . unfold step
    dsimp only
    rw [hrun, ok_bind]
    rfl
  . cases res with
    | none =>
      rw [hsame rfl]
      exact h.isLinked
    | some k => exact .cons h.isConsistent (hsome k rfl).2.2 h.isLinked
  . unfold IsEffect
    dsimp only
    cases res with
    | none =>
      rw [if_pos (hnone.mp rfl), hsame rfl]
      rfl
    | some k =>
      obtain ⟨rfl, hcells, _⟩ := hsome k rfl
      rw [if_neg (by rw [← hnone]; simp)]
      exact ⟨hcells, rfl⟩

theorem step_undoRefinement (hcall : s.before ≠ [])
    : ∃ s', s.step .undoRefinement = .ok s' ∧ s'.IsHistory points0
        ∧ s.IsEffect .undoRefinement s' := by
  obtain ⟨current, before⟩ := s
  have hlinked := h.isLinked
  dsimp only at hcall hlinked
  cases hlinked with
  | nil => contradiction
  | @cons _ P0 before i hcons hsplit linked =>
    obtain ⟨P', hrun, hcons', hshape⟩ := h.isConsistent.undoRefinement_spec hsplit hcons.length_eq
    refine ⟨{ current := P', before }, ?_, ⟨hcons', linked.of_shape hshape⟩, P0, rfl, hshape, ?_⟩
    . unfold step
      dsimp only
      rw [hrun, ok_bind]
      rfl
    . apply hcons.cell_eq_of_cellno hcons'
      exact congrArg Prod.fst hshape

theorem step_spec {call : Call} (hcall : s.IsCall call)
    : ∃ s', s.step call = .ok s' ∧ s'.IsHistory points0 ∧ s.IsEffect call s' := by
  cases call with
  | splitCell i Q j g out internal => exact step_splitCell h hcall
  | isolatePoint pt => exact step_isolatePoint h hcall
  | undoRefinement => exact step_undoRefinement h hcall

end

theorem isHistory_of_reached (h : P.IsConsistent points0) (hs : Reached P s)
    : s.IsHistory points0 := by
  induction hs with
  | init => exact ⟨h, .nil⟩
  | step reached isCall eq ih =>
    obtain ⟨s', hstep, hhistory, _⟩ := step_spec ih isCall
    rw [eq] at hstep
    cases hstep
    exact hhistory

end History

/--
In every run from a partition that `Partition` builds the partition stays consistent, and every call
does what it should do.
-/
theorem ofCells_run_spec (list : List (List Nat)) (hlist : IsCellList list)
    : ∃ P, ofCells list = .ok P
        ∧ (∀ k cell, list[k]? = some cell → P.cell (k + 1) = { pt | pt ∈ cell })
        ∧ ∀ s, History.Reached P s → s.current.IsConsistent list.flatten
          ∧ ∀ call, s.IsCall call → ∃ s', s.step call = .ok s' ∧ s.IsEffect call s' := by
  obtain ⟨P, hP, hcons, hcells⟩ := ofCells_spec hlist
  refine ⟨P, hP, hcells, ?_⟩
  intro s hs
  have hhistory := History.isHistory_of_reached hcons hs
  refine ⟨hhistory.isConsistent, ?_⟩
  intro call hcall
  obtain ⟨s', hstep, _, heffect⟩ := History.step_spec hhistory hcall
  exact ⟨s', hstep, heffect⟩

theorem ofCells_run_spec_twoCells
    : ∃ P, ofCells [[1, 2], [3]] = .ok P
        ∧ (∀ k cell, [[1, 2], [3]][k]? = some cell → P.cell (k + 1) = { pt | pt ∈ cell })
        ∧ ∀ s, History.Reached P s → s.current.IsConsistent [1, 2, 3]
          ∧ ∀ call, s.IsCall call → ∃ s', s.step call = .ok s' ∧ s.IsEffect call s' :=
  ofCells_run_spec [[1, 2], [3]] ⟨by decide, by decide, by decide⟩

def twoPoints : PartitionRec where
  points := [1, 2]
  cellno := [1, 2]
  firsts := [1, 2]
  lengths := [1, 1]

/--
The point of the second cell moves out, and `out` is not smaller than the cell: the scan leaves the
cell, and an empty cell remains.
-/
theorem not_isConsistent_splitCell
    : ofCells [[1], [2]] = .ok twoPoints
        ∧ ∃ s, History.step { current := twoPoints, before := [] }
            (.splitCell 2 (.cell [2]) 1 [] (.max 1) true) = .ok s
          ∧ ¬s.current.IsConsistent [1, 2] := by
  have hloop : splitLoop false (fun pt => SplitArg.test (.cell [2]) (imagePoint [] pt) 1) 1 3
      [1, 2] 1 3 = .ok ([1, 2], some (2, 1)) := by
    apply splitLoop_of_passed (by decide) rfl (scanUp_of_le (by decide)) (by decide)
  have hcollect : collect (.cell [2]) true
      (fun pt => SplitArg.test (.cell [2]) (imagePoint [] pt) 1) [1, 2] 2 2 1
      = .ok ([1, 2], some 2) := by
    unfold collect splitLibrary
    dsimp only
    rw [show ((2 : Nat) : Int) - 1 = 1 by rfl, hloop, ok_bind]
    rfl
  have hsplit : splitCell twoPoints 2 (.cell [2]) 1 [] (.max 1) true
      = finishSplit twoPoints 2 2 (some 2) := by
    change (collect (.cell [2]) true
      (fun pt => SplitArg.test (.cell [2]) (imagePoint [] pt) 1) [1, 2] 2 2 1 >>= _) = _
    rw [hcollect]
    rfl
  refine ⟨rfl, { current := ⟨[1, 2], [1, 3], [1, 2, 2], [1, 0, 1]⟩, before := [twoPoints] }, ?_, ?_⟩
  . unfold History.step
    dsimp only
    rw [hsplit]
    rfl
  . intro h
    have := h.length_pos 2 (by decide) (by decide)
    contradiction

end PartitionRec
