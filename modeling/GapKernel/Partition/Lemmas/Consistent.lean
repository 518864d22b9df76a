import GapKernel.Partition.Impl

open List

namespace PartitionRec

variable {P : PartitionRec} {points0 : List Nat}

def IsCellNo (P : PartitionRec) (i : Nat) : Prop :=
  0 < i ∧ i ≤ P.firsts.length

instance (P : PartitionRec) (i : Nat) : Decidable (P.IsCellNo i) :=
  inferInstanceAs (Decidable (_ ∧ _))

def shape (P : PartitionRec) : List Nat × List Nat × List Int :=
  (P.cellno, P.firsts, P.lengths)

namespace IsConsistent

theorem pos_bounds (h : P.IsConsistent points0) {c pos : Nat} (hcell : P.InCell c pos)
    : 0 < pos ∧ pos ≤ P.points.length := by
  obtain ⟨hpos, hle, hfirst, hlast⟩ := hcell
  have := h.first_pos c hpos hle
  have := h.within c hpos hle
  omega

theorem mem_cell_iff (h : P.IsConsistent points0) {c pt : Nat} (hc : 0 < c)
    : pt ∈ P.cell c ↔ entryPlist P.cellno pt = c := by
  constructor
  . rintro ⟨pos, hcell, rfl⟩
    have hpos := h.pos_bounds hcell
    rwa [h.cellno_eq pos c hpos.1 hpos.2 hc]
  . intro heq
    have hmem : pt ∈ P.points := by
      by_contra hmem
      rw [h.hole pt hmem] at heq
      omega
    rw [mem_iff_entryPlist] at hmem
    obtain ⟨pos, hpos, hle, rfl⟩ := hmem
    refine ⟨pos, ?_, rfl⟩
    rwa [← h.cellno_eq pos c hpos hle hc]

structure IsSegment (P : PartitionRec) (i : Nat) (pre cell post : List Nat) : Prop where
  points_eq : P.points = pre ++ cell ++ post
  first_eq : entryPlist P.firsts i = pre.length + 1
  length_eq : entryPlist P.lengths i = cell.length

variable {i : Nat}

theorem exists_segment (h : P.IsConsistent points0) (hi : P.IsCellNo i)
    : ∃ pre cell post, IsSegment P i pre cell post := by
  have hfirst := h.first_pos i hi.1 hi.2
  have hlength := h.length_pos i hi.1 hi.2
  have hwithin := h.within i hi.1 hi.2
  generalize hf : entryPlist P.firsts i = first at *
  obtain ⟨length, hl⟩ : ∃ length : Nat, entryPlist P.lengths i = length :=
    ⟨(entryPlist P.lengths i).toNat, by omega⟩
  rw [hl] at hlength hwithin
  refine ⟨P.points.take (first - 1), (P.points.drop (first - 1)).take length,
    P.points.drop (first - 1 + length), ?_, ?_, ?_⟩
  . rw [← drop_drop, append_assoc, take_append_drop, take_append_drop]
  . rw [hf, length_take]
    omega
  . rw [hl, length_take, length_drop]
    omega

variable {pre cell post : List Nat}

theorem IsSegment.inCell_iff (hi : P.IsCellNo i) (hseg : IsSegment P i pre cell post) (pos : Nat)
    : P.InCell i pos ↔ pre.length < pos ∧ pos ≤ pre.length + cell.length := by
  unfold InCell
  rw [hseg.first_eq, hseg.length_eq]
  have := hi.1
  have := hi.2
  omega

theorem IsSegment.mem_cell_iff (hi : P.IsCellNo i) (hseg : IsSegment P i pre cell post) (pt : Nat)
    : pt ∈ cell ↔ pt ∈ P.cell i := by
  rw [mem_segment_iff pre cell post pt]
  unfold PartitionRec.cell
  simp only [Set.mem_ofPred_eq, hseg.inCell_iff hi, hseg.points_eq, and_assoc]

theorem of_perm (h : P.IsConsistent points0) (hi : P.IsCellNo i) {cell' : List Nat}
    (hseg : IsSegment P i pre cell post) (hperm : cell'.Perm cell)
    : { P with points := pre ++ cell' ++ post }.IsConsistent points0
        ∧ IsSegment { P with points := pre ++ cell' ++ post } i pre cell' post := by
  have hlen := hperm.length_eq
  have hpoints : (pre ++ cell' ++ post).Perm P.points := by
    rw [hseg.points_eq]
    apply List.Perm.append_right
    apply List.Perm.append_left
    exact hperm
  -- A position of the cell has a point of the cell, before and after.
  have hinside : ∀ pos, pre.length < pos → pos ≤ pre.length + cell.length →
      entryPlist P.cellno (entryPlist (pre ++ cell' ++ post) pos) = i := by
    intro pos hlt hle
    have hmem : entryPlist (pre ++ cell' ++ post) pos ∈ cell := by
      rw [← hperm.mem_iff, mem_segment_iff pre cell' post]
      exact ⟨pos, hlt, by omega, rfl⟩
    rwa [hseg.mem_cell_iff hi, h.mem_cell_iff hi.1] at hmem
  have hcellno : ∀ pos, entryPlist P.cellno (entryPlist (pre ++ cell' ++ post) pos)
      = entryPlist P.cellno (entryPlist P.points pos) := by
    intro pos
    by_cases hpos : pre.length < pos ∧ pos ≤ pre.length + cell.length
    . rw [hinside pos hpos.1 hpos.2]
      have hcell := (hseg.inCell_iff hi pos).mpr hpos
      have hbounds := h.pos_bounds hcell
      exact ((h.cellno_eq pos i hbounds.1 hbounds.2 hi.1).mpr hcell).symm
    . rw [hseg.points_eq]
      rw [entryPlist_outside hlen (by omega)]
  refine ⟨?_, rfl, hseg.first_eq, ?_⟩
  . constructor
    . exact hpoints.trans h.perm
    . exact h.nodup
    . exact h.length_eq
    . exact h.first_pos
    . exact h.length_pos
    . dsimp only
      rw [hpoints.length_eq]
      exact h.within
    . intro pos c hpos hle hc
      rw [hpoints.length_eq] at hle
      rw [hcellno]
      exact h.cellno_eq pos c hpos hle hc
    . intro pos hpos hle
      rw [hpoints.length_eq] at hle
      rw [hcellno]
      exact h.covered pos hpos hle
    . intro pt hpt
      apply h.hole
      rwa [← hpoints.mem_iff]
    . intro pt hpt
      apply h.point_bounds
      rwa [← hpoints.mem_iff]
  . rw [hlen]
    exact hseg.length_eq

theorem setCellno_spec (cellno points : List Nat) (m : Nat)
    (h : ∀ pt ∈ points, 0 < pt ∧ pt ≤ cellno.length)
    : ∃ cellno', setCellno cellno points m = .ok cellno' ∧ cellno'.length = cellno.length
        ∧ ∀ pt, entryPlist cellno' pt = if pt ∈ points then m else entryPlist cellno pt := by
  induction points generalizing cellno with
  | nil => exact ⟨cellno, rfl, rfl, by simp⟩
  | cons x points ih =>
    rw [forall_mem_cons] at h
    have hset : setElmPlist cellno x m = .ok (cellno.set (x - 1) m) :=
      setElmPlist_eq h.1.1 h.1.2
    have hlen : (cellno.set (x - 1) m).length = cellno.length := length_set
    obtain ⟨cellno', hrec, hlen', hentry⟩ := ih (cellno.set (x - 1) m) (by rw [hlen]; exact h.2)
    refine ⟨cellno', ?_, hlen'.trans hlen, ?_⟩
    . unfold setCellno at hrec ⊢
      rw [foldlM_cons, hset, ok_bind]
      exact hrec
    . intro pt
      rw [hentry]
      rw [entryPlist_set h.1.1 h.1.2]
      by_cases hx : pt = x
      . simp [hx]
      . simp [hx]

theorem slice_eq (u v w : List Nat) {lo hi : Nat} (hlo : lo = u.length + 1)
    (hhi : hi = u.length + v.length)
    : slice (u ++ v ++ w) lo hi = .ok v := by
  unfold slice
  rw [if_pos (by simp; omega)]
  rw [hlo, hhi, ← length_append, take_left, Nat.add_sub_cancel, drop_left]
  rfl

theorem IsSegment.inCell_split (hi : P.IsCellNo i) (h : P.IsConsistent points0) {S M : List Nat}
    (hseg : IsSegment P i pre (S ++ M) post) {P' : PartitionRec}
    (hfirsts : P'.firsts = P.firsts ++ [pre.length + S.length + 1])
    (hlengths : P'.lengths = (P.lengths ++ [(M.length : Int)]).set (i - 1) S.length) (c pos : Nat)
    : P'.InCell c pos ↔
        if c = P.firsts.length + 1 then
          pre.length + S.length < pos ∧ pos ≤ pre.length + S.length + M.length
        else if c = i then
          pre.length < pos ∧ pos ≤ pre.length + S.length
        else
          P.InCell c pos := by
  have hlen := h.length_eq
  have hi1 := hi.1
  have hi2 := hi.2
  unfold InCell
  rw [hfirsts, hlengths, length_append, length_singleton]
  rw [entryPlist_set hi.1 (by rw [length_append]; omega)]
  rw [entryPlist_concat, entryPlist_concat, hlen]
  split
  . next hc =>
    rw [if_neg (by omega)]
    omega
  . next hc =>
    split
    . next hci =>
      rw [hci, hseg.first_eq]
      omega
    . omega

theorem of_split (h : P.IsConsistent points0) (hi : P.IsCellNo i) {S M : List Nat}
    (hseg : IsSegment P i pre (S ++ M) post) (hS : S ≠ []) (hM : M ≠ []) {cellno : List Nat}
    (hcellnolen : cellno.length = P.cellno.length) (hcellno : ∀ pt, entryPlist cellno pt
      = if pt ∈ M then P.firsts.length + 1 else entryPlist P.cellno pt)
    : { P with
        cellno,
        firsts := P.firsts ++ [pre.length + S.length + 1],
        lengths := (P.lengths ++ [(M.length : Int)]).set (i - 1) S.length : PartitionRec
      }.IsConsistent points0 := by
  generalize hP' : PartitionRec.mk _ _ _ _ = P'
  have hpoints : P'.points = P.points := by
    rw [← hP']
  have hfirsts : P'.firsts = P.firsts ++ [pre.length + S.length + 1] := by
    rw [← hP']
  have hlengths : P'.lengths = (P.lengths ++ [(M.length : Int)]).set (i - 1) S.length := by
    rw [← hP']
  have hin := hseg.inCell_split hi h hfirsts hlengths
  have hnodup : P.points.Nodup := h.perm.nodup_iff.mpr h.nodup
  have hS' := length_pos_iff.mpr hS
  have hM' := length_pos_iff.mpr hM
  have hlen := h.length_eq
  have hi2 := hi.2
  have hM_iff : ∀ pos, 0 < pos → pos ≤ P.points.length →
      (entryPlist P.points pos ∈ M
        ↔ pre.length + S.length < pos ∧ pos ≤ pre.length + S.length + M.length) := by
    intro pos hpos hle
    rw [mem_segment_iff (pre ++ S) M post]
    have heq : pre ++ S ++ M ++ post = P.points := by
      rw [hseg.points_eq]
      simp
    have hsize := congrArg length heq
    simp only [length_append] at hsize
    rw [heq, length_append]
    constructor
    . rintro ⟨pos', hlt, hle', hentry⟩
      have := entryPlist_inj hnodup (by omega) (by omega) hentry
      omega
    . rintro ⟨hlt, hle'⟩
      exact ⟨pos, hlt, hle', rfl⟩
  have hcelli : ∀ pos, P.InCell i pos
      ↔ pre.length < pos ∧ pos ≤ pre.length + (S.length + M.length) := by
    intro pos
    rw [hseg.inCell_iff hi, length_append]
  constructor
  . rw [hpoints]
    exact h.perm
  . exact h.nodup
  . rw [hlengths, hfirsts]
    simp [hlen]
  . intro c hc hle
    rw [hfirsts, entryPlist_concat]
    rw [hfirsts, length_append, length_singleton] at hle
    split
    . omega
    . exact h.first_pos c hc (by omega)
  . intro c hc hle
    rw [hfirsts, length_append, length_singleton] at hle
    rw [hlengths, entryPlist_set hi.1 (by rw [length_append]; omega), entryPlist_concat]
    split
    . omega
    . split
      . omega
      . exact h.length_pos c hc (by omega)
  . intro c hc hle
    have hsize := congrArg length hseg.points_eq
    simp only [length_append] at hsize
    rw [hpoints]
    rw [hfirsts, length_append, length_singleton] at hle
    rw [hfirsts, entryPlist_concat]
    rw [hlengths, entryPlist_set hi.1 (by rw [length_append]; omega), entryPlist_concat]
    rw [hlen]
    by_cases hci : c = i
    . rw [if_neg (by omega), if_pos hci, hci, hseg.first_eq]
      omega
    . rw [if_neg hci]
      split
      . omega
      . exact h.within c hc (by omega)
  . intro pos c hpos hle hc
    rw [hpoints] at hle ⊢
    have hold := h.cellno_eq pos c hpos hle hc
    have holdi := h.cellno_eq pos i hpos hle hi.1
    have hcell : P.InCell c pos → c ≤ P.firsts.length := fun h => h.2.1
    rw [hcelli] at holdi
    rw [← hP']
    dsimp only
    rw [hP', hcellno, hin]
    have hmem := hM_iff pos hpos hle
    by_cases hptM : entryPlist P.points pos ∈ M
    . rw [if_pos hptM]
      rw [hmem] at hptM
      have hi' := holdi.mpr (by omega)
      split
      . omega
      . split
        . omega
        . rw [← hold, hi']
          omega
    . rw [if_neg hptM]
      rw [hmem] at hptM
      split
      . next hnew =>
        constructor
        . intro heq
          have := hcell (hold.mp heq)
          omega
        . omega
      . split
        . next hci =>
          rw [hci, holdi]
          omega
        . exact hold
  . intro pos hpos hle
    rw [hpoints] at hle ⊢
    rw [← hP']
    rw [hcellno]
    split
    . omega
    . exact h.covered pos hpos hle
  . intro pt hpt
    rw [hpoints] at hpt
    rw [← hP']
    rw [hcellno]
    rw [if_neg]
    . exact h.hole pt hpt
    . intro hmem
      apply hpt
      rw [hseg.points_eq]
      simp [hmem]
  . intro pt hpt
    rw [hpoints] at hpt
    rw [← hP']
    rw [hcellnolen]
    exact h.point_bounds pt hpt

structure IsFusible (P : PartitionRec) (m : Nat) : Prop where
  isCellNo : P.IsCellNo m
  ne_last : m ≠ P.firsts.length
  adjacent : (entryPlist P.firsts m + entryPlist P.lengths m : Int)
    = entryPlist P.firsts P.firsts.length

variable {m : Nat}

variable (h : P.IsConsistent points0)

include h

theorem isFusible_of_inCell (hm : P.InCell m (entryPlist P.firsts P.firsts.length - 1))
    : IsFusible P m := by
  obtain ⟨hpos, hle, hlo, hhi⟩ := hm
  have hlast := h.first_pos P.firsts.length (by omega) (le_refl _)
  have hlength := h.length_pos P.firsts.length (by omega) (le_refl _)
  have hne : m ≠ P.firsts.length := by
    intro heq
    rw [heq] at hlo
    omega
  refine ⟨⟨hpos, hle⟩, hne, ?_⟩
  by_contra hadj
  -- Otherwise the first position of the last cell is in both cells.
  have hin : P.InCell m (entryPlist P.firsts P.firsts.length) := ⟨hpos, hle, by omega, by omega⟩
  have hinlast : P.InCell P.firsts.length (entryPlist P.firsts P.firsts.length) :=
    ⟨by omega, le_refl _, le_refl _, by omega⟩
  have hbounds := h.pos_bounds hin
  have hm' := (h.cellno_eq _ m hbounds.1 hbounds.2 hpos).mpr hin
  have hlast' := (h.cellno_eq _ _ hbounds.1 hbounds.2 (by omega)).mpr hinlast
  omega

theorem inCell_fuse (hm : IsFusible P m) {P' : PartitionRec}
    (hfirsts : P'.firsts = P.firsts.dropLast)
    (hlengths : P'.lengths = (P.lengths.set (m - 1) (entryPlist P.lengths m + entryPlist P.lengths P.firsts.length)).dropLast)
    (c pos : Nat)
    : P'.InCell c pos ↔ c ≠ P.firsts.length ∧
        (P.InCell c pos ∨ (c = m ∧ P.InCell P.firsts.length pos)) := by
  have hlen := h.length_eq
  have hm1 := hm.isCellNo.1
  have hm2 := hm.isCellNo.2
  have hadj := hm.adjacent
  have hne := hm.ne_last
  have hlm := h.length_pos m hm1 hm2
  have hll := h.length_pos P.firsts.length (by omega) (le_refl _)
  unfold InCell
  rw [hfirsts, hlengths, length_dropLast]
  rw [entryPlist_dropLast, entryPlist_dropLast, length_set, hlen]
  rw [entryPlist_set hm1 (by omega)]
  by_cases hc : c = m
  . rw [if_pos hc, hc, if_pos (by omega), if_pos (by omega)]
    omega
  . rw [if_neg hc]
    by_cases hlt : c < P.firsts.length
    . rw [if_pos hlt, if_pos hlt]
      omega
    . rw [if_neg hlt, if_neg hlt]
      omega

theorem of_fuse (hm : IsFusible P m) {cellno : List Nat}
    (hcellnolen : cellno.length = P.cellno.length)
    (hcellno : ∀ pt, entryPlist cellno pt = if entryPlist P.cellno pt = P.firsts.length then m else entryPlist P.cellno pt)
    : { P with
        cellno,
        firsts := P.firsts.dropLast,
        lengths := (P.lengths.set (m - 1)
          (entryPlist P.lengths m + entryPlist P.lengths P.firsts.length)).dropLast : PartitionRec
      }.IsConsistent points0 := by
  generalize hP' : PartitionRec.mk _ _ _ _ = P'
  have hpoints : P'.points = P.points := by
    rw [← hP']
  have hcellno' : P'.cellno = cellno := by
    rw [← hP']
  have hfirsts : P'.firsts = P.firsts.dropLast := by
    rw [← hP']
  have hlengths : P'.lengths = (P.lengths.set (m - 1)
      (entryPlist P.lengths m + entryPlist P.lengths P.firsts.length)).dropLast := by
    rw [← hP']
  have hin := h.inCell_fuse hm hfirsts hlengths
  have hlen := h.length_eq
  have hm1 := hm.isCellNo.1
  have hm2 := hm.isCellNo.2
  have hadj := hm.adjacent
  have hne := hm.ne_last
  have hlm := h.length_pos m hm1 hm2
  have hll := h.length_pos P.firsts.length (by omega) (le_refl _)
  constructor
  . rw [hpoints]
    exact h.perm
  . exact h.nodup
  . rw [hlengths, hfirsts]
    simp [hlen]
  . intro c hc hle
    rw [hfirsts, length_dropLast] at hle
    rw [hfirsts, entryPlist_dropLast, if_pos (by omega)]
    exact h.first_pos c hc (by omega)
  . intro c hc hle
    rw [hfirsts, length_dropLast] at hle
    rw [hlengths, entryPlist_dropLast, length_set, if_pos (by omega)]
    rw [entryPlist_set hm1 (by omega)]
    split
    . omega
    . exact h.length_pos c hc (by omega)
  . intro c hc hle
    rw [hfirsts, length_dropLast] at hle
    rw [hpoints, hfirsts, hlengths]
    rw [entryPlist_dropLast, if_pos (by omega)]
    rw [entryPlist_dropLast, length_set, if_pos (by omega)]
    rw [entryPlist_set hm1 (by omega)]
    have hwithin := h.within P.firsts.length (by omega) (le_refl _)
    split
    . next hc =>
      rw [hc]
      omega
    . exact h.within c hc (by omega)
  . intro pos c hpos hle hc
    rw [hpoints] at hle ⊢
    have hold := h.cellno_eq pos c hpos hle hc
    have hlast := h.cellno_eq pos P.firsts.length hpos hle (by omega)
    rw [hcellno', hcellno, hin, ← hold, ← hlast]
    split
    . omega
    . omega
  . intro pos hpos hle
    rw [hpoints] at hle ⊢
    rw [hcellno', hcellno]
    split
    . omega
    . exact h.covered pos hpos hle
  . intro pt hpt
    rw [hpoints] at hpt
    rw [hcellno', hcellno, h.hole pt hpt]
    rw [if_neg (by omega)]
  . intro pt hpt
    rw [hpoints] at hpt
    rw [hcellno', hcellnolen]
    exact h.point_bounds pt hpt

end IsConsistent

end PartitionRec
