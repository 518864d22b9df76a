import GapKernel.FirstOccurrence
import GapKernel.Trans.Impl.Kernel
import GapKernel.Trans.Lemmas.Degree

open PermList TransImpl FirstOccurrence List

variable {φ : Nat → Nat} {deg : Nat} {T : PermTnum} {pt : List Nat}

variable {i v : Nat}

theorem writeEntry_perm4 {l : List Nat} (hi : i < l.length) (hv : v < 2 ^ 32)
    : writeEntry .perm4 l i v = .ok (l.set i v) := by
  have hcast : PermTnum.perm4.cast v = v := Nat.mod_eq_of_lt hv
  unfold writeEntry
  rw [if_pos hi]
  rw [hcast]
  rfl

structure IsFlagged (deg : Nat) (vals pttmp : List Nat) : Prop where
  length_eq : pttmp.length = deg
  read : ∀ j, j < deg → ∃ v, pttmp[j]? = some v ∧ (v = 0 ↔ j ∉ vals)

theorem isFlagged_nil (deg : Nat) : IsFlagged deg [] (resizeInitTmpTrans deg) where
  length_eq := length_replicate
  read := by
    intro j hj
    refine ⟨0, ?_, by simp⟩
    unfold resizeInitTmpTrans
    rw [getElem?_replicate]
    rw [if_pos hj]

variable {vals pttmp : List Nat} {j : Nat}

section

variable (h : IsFlagged deg vals pttmp)

include h

theorem IsFlagged.readEntry_eq (hj : j < deg)
    : ∃ v, readEntry pttmp j = .ok v ∧ (v = 0 ↔ j ∉ vals) := by
  obtain ⟨v, hv, hiff⟩ := h.read j hj
  refine ⟨v, ?_, hiff⟩
  unfold readEntry
  rw [hv]
  rfl

theorem IsFlagged.of_mem (hj : j ∈ vals)
    : IsFlagged deg (vals ++ [j]) pttmp where
  length_eq := h.length_eq
  read := by
    intro k hk
    obtain ⟨v, hv, hiff⟩ := h.read k hk
    refine ⟨v, hv, ?_⟩
    rw [hiff]
    rw [mem_append]
    rw [mem_singleton]
    constructor
    . intro hnot hor
      cases hor with
      | inl hor => exact hnot hor
      | inr hor =>
        rw [hor] at hnot
        exact hnot hj
    . intro hnot hin
      exact hnot (Or.inl hin)

theorem IsFlagged.write (hj : j < deg) (hv : 0 < v) (hlt : v < 2 ^ 32)
    : ∃ pttmp', writeEntry .perm4 pttmp j v = .ok pttmp' ∧ IsFlagged deg (vals ++ [j]) pttmp' := by
  have hlen := h.length_eq
  refine ⟨pttmp.set j v, ?_, ?_, ?_⟩
  . apply writeEntry_perm4 (by omega) hlt
  . rw [length_set]
    exact hlen
  . intro k hk
    rw [getElem?_set]
    split
    . next heq =>
      rw [if_pos (by omega)]
      refine ⟨v, rfl, ?_⟩
      rw [heq]
      simp
      omega
    . next hne =>
      obtain ⟨v', hv', hiff⟩ := h.read k hk
      refine ⟨v', hv', ?_⟩
      have hne' : ¬k = j := fun heq => hne heq.symm
      rw [hiff]
      simp [hne']

end

structure IsInitState (φ : Nat → Nat) (deg i : Nat) (s : InitState) : Prop where
  length_eq : s.pttmp.length = deg
  marks : ∀ j, j < deg
    → s.pttmp[j]? = some (if j ∈ values φ i then (values φ i).idxOf j + 1 else 0)
  rank : s.rank = (values φ i).length
  img : s.img = (values φ i).map (· + 1)
  ker : s.ker = flatKernel φ i

variable {s : InitState}

section

variable (h : IsInitState φ deg i s)

include h

theorem IsInitState.readEntry_eq (hj : j < deg)
    : readEntry s.pttmp j = .ok (if j ∈ values φ i then (values φ i).idxOf j + 1 else 0) := by
  unfold readEntry
  rw [h.marks j hj]
  rfl

theorem IsInitState.mark (hi : i < 2 ^ 32 - 1) (hj : φ i < deg) (hnot : φ i ∉ values φ i)
    : ∃ pttmp, writeEntry .perm4 s.pttmp (φ i) (s.rank + 1) = .ok pttmp
        ∧ readEntry pttmp (φ i) = .ok ((values φ (i + 1)).idxOf (φ i) + 1)
        ∧ IsInitState φ deg (i + 1) ⟨pttmp, s.rank + 1, s.img ++ [φ i + 1],
          s.ker ++ [(values φ (i + 1)).idxOf (φ i) + 1]⟩ := by
  have hlen := h.length_eq
  have hrank := h.rank
  have hvals : values φ (i + 1) = values φ i ++ [φ i] := by
    rw [values_succ]
    rw [if_neg hnot]
  have hidx : (values φ (i + 1)).idxOf (φ i) = s.rank := by
    rw [hvals]
    rw [idxOf_append_of_notMem hnot]
    simp [hrank]
  have hle := length_values_le φ i
  refine ⟨s.pttmp.set (φ i) (s.rank + 1), ?_, ?_, ?_⟩
  . apply writeEntry_perm4 (by omega) (by omega)
  . unfold readEntry
    rw [getElem?_set_self (by omega)]
    rw [hidx]
    rfl
  . constructor
    . dsimp only
      rw [length_set]
      exact hlen
    . intro j hjd
      dsimp only
      rw [getElem?_set]
      split
      . next heq =>
        rw [if_pos (by omega)]
        rw [← heq]
        rw [if_pos (by rw [hvals]; simp)]
        rw [hidx]
      . next hne =>
        rw [h.marks j hjd]
        have hne' : ¬j = φ i := fun heq => hne heq.symm
        have hiff : j ∈ values φ (i + 1) ↔ j ∈ values φ i := by
          rw [hvals]
          simp [hne']
        simp only [hiff]
        split
        . next hmem => rw [idxOf_values φ (Nat.le_succ i) hmem]
        . rfl
    . dsimp only
      rw [hvals]
      rw [length_append]
      rw [hrank]
      rfl
    . dsimp only
      rw [hvals]
      rw [h.img]
      rw [map_append]
      rfl
    . dsimp only
      rw [h.ker]
      rw [flatKernel_succ]

theorem IsInitState.skip (hmem : φ i ∈ values φ i)
    : IsInitState φ deg (i + 1)
        { s with ker := s.ker ++ [(values φ (i + 1)).idxOf (φ i) + 1] } := by
  have hvals : values φ (i + 1) = values φ i := by
    rw [values_succ]
    rw [if_pos hmem]
  constructor
  . exact h.length_eq
  . intro j hj
    dsimp only
    rw [h.marks j hj]
    rw [hvals]
  . dsimp only
    rw [hvals]
    exact h.rank
  . dsimp only
    rw [hvals]
    exact h.img
  . dsimp only
    rw [h.ker]
    rw [flatKernel_succ]

end

theorem initLoop_spec (hpt : IsEntries T pt φ) (hlt : pt.length < 2 ^ 32)
    : ∃ s, initLoop pt pt.length 0 ⟨resizeInitTmpTrans pt.length, 0, [], []⟩ = .ok s
        ∧ IsInitState φ pt.length pt.length s := by
  unfold initLoop
  apply forLoop_of_inv (fun i s => IsInitState φ pt.length i s)
  . constructor
    . apply length_replicate
    . intro j hj
      dsimp only
      unfold resizeInitTmpTrans
      rw [getElem?_replicate]
      rw [if_pos hj]
      rfl
    . rfl
    . rfl
    . rfl
  . intro i s _ hi hs
    have hin : i < pt.length := by omega
    have hj := hpt.fits.lt i hin
    rw [hpt.readEntry_eq hin]
    rw [ok_bind]
    rw [hs.readEntry_eq hj]
    rw [ok_bind]
    by_cases hmem : φ i ∈ values φ i
    . rw [if_pos hmem]
      rw [if_neg (by omega)]
      refine ⟨_, ?_, hs.skip hmem⟩
      rw [pure_bind]
      rw [hs.readEntry_eq hj]
      rw [if_pos hmem]
      rw [idxOf_values φ (Nat.le_succ i) hmem]
      rfl
    . rw [if_neg hmem]
      rw [if_pos rfl]
      obtain ⟨pttmp, hwrite, hread, hs'⟩ := hs.mark (by omega) hj hmem
      refine ⟨_, ?_, hs'⟩
      rw [hwrite]
      rw [ok_bind]
      rw [pure_bind]
      dsimp only
      rw [hread]
      rfl
  . intro s hs
    rw [Nat.zero_add] at hs
    exact hs

theorem markRound_spec (h : IsFlagged deg vals pttmp) (hj : j < deg) (hv : 0 < v) (hlt : v < 2 ^ 32)
    : (j ∈ vals → ∃ old, readEntry pttmp j = .ok old ∧ old ≠ 0)
      ∧ (j ∉ vals → readEntry pttmp j = .ok 0
        ∧ ∃ pttmp', writeEntry .perm4 pttmp j v = .ok pttmp'
          ∧ IsFlagged deg (vals ++ [j]) pttmp') := by
  obtain ⟨old, hread, hiff⟩ := h.readEntry_eq hj
  constructor
  . intro hmem
    refine ⟨old, hread, ?_⟩
    rw [Ne, hiff]
    exact not_not.mpr hmem
  . intro hnot
    rw [hiff.mpr hnot] at hread
    exact ⟨hread, h.write hj hv hlt⟩

theorem markLoop_spec (hpt : IsEntries T pt φ) {m : Nat} (hm : m ≤ pt.length)
    : ∃ s, markLoop pt m 0 (resizeInitTmpTrans pt.length, 0) = .ok s
        ∧ s.2 = (values φ m).length := by
  unfold markLoop
  apply forLoop_of_inv
    (fun i s => IsFlagged pt.length (values φ i) s.1 ∧ s.2 = (values φ i).length)
  . exact ⟨isFlagged_nil _, rfl⟩
  . intro i s _ hi hs
    have hin : i < pt.length := by omega
    have hround := markRound_spec (v := 1) hs.1 (hpt.fits.lt i hin) (by omega) (by omega)
    rw [hpt.readEntry_eq hin]
    rw [ok_bind]
    rw [values_succ]
    by_cases hmem : φ i ∈ values φ i
    . obtain ⟨old, hread, hne⟩ := hround.1 hmem
      rw [hread]
      rw [ok_bind]
      rw [if_neg hne]
      rw [if_pos hmem]
      exact ⟨s, rfl, hs⟩
    . obtain ⟨hread, pttmp', hwrite, hflag⟩ := hround.2 hmem
      rw [hread]
      rw [ok_bind]
      rw [if_pos rfl]
      rw [if_neg hmem]
      rw [hwrite]
      refine ⟨_, rfl, hflag, ?_⟩
      dsimp only
      rw [length_append]
      rw [hs.2]
      rfl
  . intro s hs
    rw [Nat.zero_add] at hs
    exact hs.2

theorem imageSetLoop_spec (hpt : IsEntries T pt φ) (hlt : pt.length < 2 ^ 32) {m : Nat}
    (hm : m ≤ pt.length)
    : ∃ s, imageSetLoop pt m 0 (resizeInitTmpTrans pt.length, 0, []) = .ok s
        ∧ s.2.2 = (values φ m).map (· + 1) := by
  unfold imageSetLoop
  apply forLoop_of_inv (fun i s => IsFlagged pt.length (values φ i) s.1
    ∧ s.2.1 = (values φ i).length ∧ s.2.2 = (values φ i).map (· + 1))
  . exact ⟨isFlagged_nil _, rfl, rfl⟩
  . intro i s _ hi hs
    have hin : i < pt.length := by omega
    have hle := length_values_le φ i
    have hrank := hs.2.1
    have hround := markRound_spec (v := s.2.1 + 1) hs.1 (hpt.fits.lt i hin) (by omega) (by omega)
    rw [hpt.readEntry_eq hin]
    rw [ok_bind]
    rw [values_succ]
    by_cases hmem : φ i ∈ values φ i
    . obtain ⟨old, hread, hne⟩ := hround.1 hmem
      rw [hread]
      rw [ok_bind]
      rw [if_neg hne]
      rw [if_pos hmem]
      exact ⟨s, rfl, hs⟩
    . obtain ⟨hread, pttmp', hwrite, hflag⟩ := hround.2 hmem
      rw [hread]
      rw [ok_bind]
      rw [if_pos rfl]
      rw [if_neg hmem]
      rw [hwrite]
      refine ⟨_, rfl, hflag, ?_, ?_⟩
      . dsimp only
        rw [length_append]
        rw [hrank]
        rfl
      . dsimp only
        rw [map_append]
        rw [hs.2.2]
        rfl
  . intro s hs
    rw [Nat.zero_add] at hs
    exact hs.2.2

section RankList

variable {w : IntSize} {list : List Int}

def listPoints (list : List Int) : List Nat :=
  list.map (fun x => x.toNat - 1)

theorem getPositiveListEntry_spec (funcname : String)
    (hlist : ∀ x ∈ list, 0 < x ∧ x ≤ w.intIntobjMax) {i : Nat} (hi : i < list.length)
    : ∃ x, getPositiveListEntry w funcname list (i + 1) = .ok x
        ∧ (listPoints list)[i]? = some (x - 1) := by
  have hx := hlist list[i] (getElem_mem hi)
  have helm : elmPlist list (i + 1) = .ok list[i] := by
    unfold elmPlist
    dsimp only
    rw [getElem?_eq_getElem hi]
    rfl
  refine ⟨list[i].toNat, ?_, ?_⟩
  . unfold getPositiveListEntry
    rw [helm]
    rw [ok_bind]
    rw [if_pos hx]
    rfl
  . unfold listPoints
    rw [getElem?_map]
    rw [getElem?_eq_getElem hi]
    rfl

def rankCount (φ : Nat → Nat) (deg : Nat) (ps : List Nat) : Nat :=
  ((ps.filter (· < deg)).map φ).eraseDups.length + (ps.filter (deg ≤ ·)).length

variable {p : Nat}

theorem filter_lt_snoc_of_lt (ps : List Nat) (hp : p < deg)
    : (ps ++ [p]).filter (· < deg) = ps.filter (· < deg) ++ [p] := by
  simp [hp]

theorem filter_lt_snoc_of_le (ps : List Nat) (hp : deg ≤ p)
    : (ps ++ [p]).filter (· < deg) = ps.filter (· < deg) := by
  simp [hp]

theorem rankCount_snoc_of_le (ps : List Nat) (hp : deg ≤ p)
    : rankCount φ deg (ps ++ [p]) = rankCount φ deg ps + 1 := by
  unfold rankCount
  rw [filter_append]
  rw [filter_append]
  simp [hp, Nat.not_lt.mpr hp]
  omega

theorem rankCount_snoc_of_lt (ps : List Nat) (hp : p < deg)
    : rankCount φ deg (ps ++ [p])
        = rankCount φ deg ps + if φ p ∈ (ps.filter (· < deg)).map φ then 0 else 1 := by
  have hle : (ps ++ [p]).filter (deg ≤ ·) = ps.filter (deg ≤ ·) := by
    simp [hp]
  unfold rankCount
  rw [filter_lt_snoc_of_lt ps hp]
  rw [hle]
  rw [map_append]
  rw [map_singleton]
  rw [eraseDups_snoc]
  split
  . rfl
  . rw [length_append]
    rw [length_singleton]
    omega

theorem rankListLoop_spec (hpt : IsEntries T pt φ)
    (hlist : ∀ x ∈ list, 0 < x ∧ x ≤ w.intIntobjMax)
    : ∃ s, rankListLoop w pt list list.length 1 (resizeInitTmpTrans pt.length, 0) = .ok s
        ∧ s.2 = rankCount φ pt.length (listPoints list) := by
  unfold rankListLoop
  apply forLoop_of_inv (fun i s =>
    IsFlagged pt.length ((((listPoints list).take (i - 1)).filter (· < pt.length)).map φ) s.1
      ∧ s.2 = rankCount φ pt.length ((listPoints list).take (i - 1)))
  . exact ⟨isFlagged_nil _, rfl⟩
  . intro i s h1 hi hs
    have hlen : (listPoints list).length = list.length := length_map _
    obtain ⟨x, hx, hget⟩ := getPositiveListEntry_spec "RANK_TRANS_LIST" hlist
      (show i - 1 < list.length by omega)
    rw [show i - 1 + 1 = i by omega] at hx
    have htake : (listPoints list).take (i + 1 - 1)
        = (listPoints list).take (i - 1) ++ [x - 1] := by
      rw [show i + 1 - 1 = i - 1 + 1 by omega]
      rw [take_add_one]
      rw [hget]
      rfl
    rw [hx]
    rw [ok_bind]
    rw [htake]
    dsimp only
    by_cases hxlt : x - 1 < pt.length
    . rw [if_pos hxlt]
      rw [hpt.readEntry_eq hxlt]
      rw [ok_bind]
      rw [rankCount_snoc_of_lt _ hxlt]
      rw [filter_lt_snoc_of_lt _ hxlt]
      rw [map_append]
      rw [map_singleton]
      have hround := markRound_spec (v := 1) hs.1 (hpt.fits.lt _ hxlt) (by omega) (by omega)
      by_cases hmem :
          φ (x - 1) ∈ (((listPoints list).take (i - 1)).filter (· < pt.length)).map φ
      . obtain ⟨old, hread, hne⟩ := hround.1 hmem
        rw [hread]
        rw [ok_bind]
        rw [if_neg hne]
        rw [if_pos hmem]
        exact ⟨s, rfl, hs.1.of_mem hmem, hs.2⟩
      . obtain ⟨hread, pttmp', hwrite, hflag⟩ := hround.2 hmem
        rw [hread]
        rw [ok_bind]
        rw [if_pos rfl]
        rw [if_neg hmem]
        rw [hwrite]
        refine ⟨_, rfl, hflag, ?_⟩
        dsimp only
        rw [hs.2]
    . rw [if_neg hxlt]
      rw [rankCount_snoc_of_le _ (by omega)]
      rw [filter_lt_snoc_of_le _ (by omega)]
      refine ⟨_, rfl, hs.1, ?_⟩
      dsimp only
      rw [hs.2]
  . intro s hs
    have hlen : (listPoints list).length = list.length := length_map _
    rw [Nat.add_sub_cancel_left] at hs
    rw [← hlen] at hs
    rw [take_length] at hs
    exact hs.2

end RankList
