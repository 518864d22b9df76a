import GapKernel.Tietze.Lemmas.Search

open CyclicWord List

namespace TietzeStack

variable {w : IntSize} {tietze : TietzeStack}

def SearchesRight (tietze : TietzeStack) (pos1 pos2 : Int) (equal : Bool)
    : Result (TietzeStack × Nat) → Prop
  | .ok (new, _) => IsSearched (if equal then 1 else 2) tietze new
  | .error (.quit _ pos _) =>
    pos = pos1 ∧ pos1 > tietze.numrels ∨ pos = pos2 ∧ pos2 > tietze.numrels
  | .error _ => False

theorem checkTietzeRelLengths_ok (h : tietze.IsTietze)
    : ∃ total, tietze.checkTietzeRelLengths = .ok total ∧ total = tietze.total := by
  unfold checkTietzeRelLengths
  apply exists_bind_of (P := fun total => total = tietze.total)
  . apply forLoop_of_inv (fun i (total : Int) => total = ((tietze.lengths.take (i - 1)).sum : Nat))
    . simp
    . intro j total hle hlt htotal
      have hj : j - 1 < tietze.relators.length := by
        rw [h.numrels]
        omega
      have hrel : tietze.relators[j - 1]? = some tietze.relators[j - 1] :=
        getElem?_eq_getElem hj
      generalize tietze.relators[j - 1] = rel at hrel
      have hlen : tietze.lengths[j - 1]? = some rel.length := by
        rw [h.lengths, getElem?_map, hrel]
        rfl
      have hgetrel := elmPlist_of_getElem? hrel
      have hgetlen := elmPlist_of_getElem? hlen
      rw [Nat.sub_add_cancel hle] at hgetrel hgetlen
      rw [hgetlen, ok_bind, hgetrel, ok_bind]
      rw [if_neg (by simp)]
      refine ⟨_, rfl, ?_⟩
      rw [htotal]
      rw [show j + 1 - 1 = j - 1 + 1 by omega]
      rw [take_add_one]
      rw [hlen]
      simp
    . intro total htotal
      rw [htotal]
      rw [h.total]
      rw [take_of_length_le]
      rw [h.lengths, length_map, h.numrels]
      omega
  . intro total htotal
    rw [if_neg (by simpa using htotal)]
    exact ⟨total, rfl, htotal⟩

theorem addrObj_zero (list : List Int) : addrObj list 0 = .ok (list.length / 4) :=
  rfl

theorem addrObj_pos {list : List Int} {pos : Int} (h1 : 0 < pos) (h2 : pos ≤ list.length)
    : addrObj list pos = .ok (entryPlist list pos.toNat) := by
  unfold addrObj
  rw [if_neg (by omega), if_neg (by omega)]
  apply elmPlist_eq_entryPlist
  . omega
  . omega

theorem length_lengths (h : tietze.IsTietze) : tietze.lengths.length = tietze.numrels := by
  rw [h.lengths, length_map]
  exact h.numrels

structure IsEligible (tietze : TietzeStack) (pos : Int) : Prop where
  positive : 0 < pos
  length : 2 ≤ entryPlist tietze.lengths pos.toNat
  flag : entryPlist tietze.flags pos.toNat ≤ 1

theorem isInconvenient_ok (h : tietze.IsTietze) (equal : Bool) {pos : Int} (h1 : 0 ≤ pos)
    (h2 : pos ≤ tietze.numrels)
    : ∃ skip, tietze.isInconvenient equal pos = .ok skip ∧ (skip = false → tietze.IsEligible pos)
        ∧ (equal = false → skip = true → ¬tietze.IsEligible pos) := by
  have hlen := length_lengths h
  have hflags := h.flags
  unfold isInconvenient
  by_cases hzero : pos = 0
  . rw [hzero, addrObj_zero, addrObj_zero, ok_bind]
    rw [length_map, hlen, hflags]
    split
    . refine ⟨true, rfl, nofun, ?_⟩
      intro _ _ he
      exact absurd he.positive (lt_irrefl 0)
    . next hge =>
      refine ⟨_, rfl, ?_, ?_⟩
      . intro hfalse
        rw [Bool.or_eq_false_iff] at hfalse
        have hle := of_decide_eq_false hfalse.1
        omega
      . intro _ _ he
        exact absurd he.positive (lt_irrefl 0)
  . rw [addrObj_pos (by omega) (by rw [length_map, hlen]; exact h2), ok_bind]
    have hentry : entryPlist (tietze.lengths.map (Nat.cast : Nat → Int)) pos.toNat
        = entryPlist tietze.lengths pos.toNat := by
      have hpos : pos.toNat = pos.toNat - 1 + 1 := by
        omega
      have hlt : pos.toNat - 1 < tietze.lengths.length := by
        omega
      rw [hpos]
      rw [entryPlist_eq_getElem hlt]
      rw [entryPlist_eq_getElem (by rw [length_map]; exact hlt)]
      rw [getElem_map]
    rw [hentry]
    split
    . next hlt =>
      refine ⟨true, rfl, nofun, ?_⟩
      intro _ _ he
      have hge := he.length
      omega
    . next hge =>
      rw [addrObj_pos (by omega) (by rw [hflags]; exact h2), ok_bind]
      refine ⟨_, rfl, ?_, ?_⟩
      . intro hfalse
        rw [Bool.or_eq_false_iff] at hfalse
        have hle := of_decide_eq_false hfalse.1
        exact ⟨by omega, by omega, by omega⟩
      . intro hequal htrue he
        rw [hequal, Bool.false_and, Bool.or_false, decide_eq_true_eq] at htrue
        have hle := he.flag
        omega

variable {pos1 pos2 : Int}

theorem skipRelators_ok (h : tietze.IsTietze) (equal : Bool) (n : Nat) (h1 : 0 ≤ pos1)
    (h2 : pos2 ≤ tietze.numrels) (hn : n = (pos2 + 1 - pos1).toNat)
    : ∃ pos, tietze.skipRelators equal pos2 n pos1 = .ok pos
      ∧ pos1 ≤ pos ∧ (pos ≤ pos2 → tietze.IsEligible pos)
      ∧ (equal = false → ∀ q, pos1 ≤ q → q < pos → ¬tietze.IsEligible q) := by
  induction n generalizing pos1 with
  | zero =>
    refine ⟨pos1, rfl, Int.le_refl _, ?_, ?_⟩
    . intro hle
      omega
    . intro _ q hle hlt
      omega
  | succ n ih =>
    rcases isInconvenient_ok h equal h1 (show pos1 ≤ tietze.numrels by omega) with ⟨skip, hskip⟩
    unfold skipRelators
    rw [hskip.1, ok_bind]
    cases skip with
    | true =>
      rw [if_pos rfl]
      rcases @ih (pos1 + 1) (by omega) (by omega) with ⟨pos, hpos⟩
      refine ⟨pos, hpos.1, by omega, hpos.2.2.1, ?_⟩
      intro hequal q hle hlt
      by_cases hq : q = pos1
      . rw [hq]
        exact hskip.2.2 hequal rfl
      . exact hpos.2.2.2 hequal q (by omega) hlt
    | false =>
      rw [if_neg Bool.false_ne_true]
      refine ⟨pos1, rfl, Int.le_refl _, fun _ => hskip.2.1 rfl, ?_⟩
      intro _ q hle hlt
      omega

theorem skipRelators_of_pos (h : tietze.IsTietze) (equal : Bool)
    (hpos : 0 ≤ pos1 ∨ pos2 < pos1 ∨ tietze.numrels < pos2) (h2 : pos2 ≤ tietze.numrels)
    : ∃ pos, tietze.skipRelators equal pos2 (pos2 + 1 - pos1).toNat pos1 = .ok pos
      ∧ pos1 ≤ pos ∧ (pos ≤ pos2 → tietze.IsEligible pos)
      ∧ (equal = false → ∀ q, pos1 ≤ q → q < pos → ¬tietze.IsEligible q) := by
  by_cases hnonneg : 0 ≤ pos1
  . apply skipRelators_ok h equal _ hnonneg h2 rfl
  . rw [show (pos2 + 1 - pos1).toNat = 0 by omega]
    refine ⟨pos1, rfl, Int.le_refl _, ?_, ?_⟩
    . intro hle
      omega
    . intro _ q hle hlt
      omega

def searchOf (w : IntSize) (stale : Nat → Nat → BitVec w.bits) (tietze : TietzeStack)
    (pos1 pos2 : Nat) (equal : Bool) : TzSearch w :=
  let lmin := entryPlist tietze.lengths pos1 - entryPlist tietze.lengths pos1 % 2
  { tietze := tietze
    pos1 := pos1
    pos2 := pos2
    lmin := lmin
    lmax := if equal then lmin else lmin + 1
    mlen := if equal then (lmin + 1) / 2 else lmin / 2 + 1
    newflag := if equal then 1 else 2
    equal := equal
    stale := stale }

def startState (tietze : TietzeStack) (pos1 : Nat) : TzState where
  relators := tietze.relators
  lengths := tietze.lengths
  flags := tietze.flags
  total := tietze.total
  count := 0
  keys := .empty
  len1 := entryPlist tietze.lengths pos1
  flag1 := entryPlist tietze.flags pos1
  xmax := pos1 - 1
  lasty := 0
  y := pos1
  altered := false

section Start

variable (stale : Nat → Nat → BitVec w.bits) {pos1 : Nat} (pos2 : Nat) (equal : Bool)

theorem startSearch_eq (h : tietze.IsTietze) (hpos : 0 < pos1) (hle : pos1 ≤ tietze.numrels)
    : startSearch w stale tietze pos1 pos2 equal tietze.total = (do
        let a := searchOf w stale tietze pos1 pos2 equal
        let s ← a.searchLoop (tietze.numrels + tietze.total.toNat + 1) (startState tietze pos1)
        return (a.stack s, s.count)) := by
  unfold startSearch
  rw [elmPlist_eq_entryPlist hpos (by rw [length_lengths h]; exact hle), ok_bind]
  rw [elmPlist_eq_entryPlist hpos (by rw [h.flags]; exact hle), ok_bind]
  rfl

theorem isBounded_searchOf (h : tietze.IsTietze) (hpos : 0 < pos1)
    (hlen : 2 ≤ entryPlist tietze.lengths pos1)
    : (searchOf w stale tietze pos1 pos2 equal).IsBounded := by
  unfold searchOf
  constructor
  . exact h
  . exact hpos
  . dsimp only
    split
    . omega
    . omega
  . dsimp only
    split
    . omega
    . omega

theorem mlen_pos_searchOf (hlen : 2 ≤ entryPlist tietze.lengths pos1)
    : 0 < (searchOf w stale tietze pos1 pos2 equal).mlen := by
  unfold searchOf
  dsimp only
  split
  . omega
  . omega

theorem isRound_startState (h : tietze.IsTietze) (hpos : 0 < pos1)
    : (searchOf w stale tietze pos1 pos2 equal).IsRound (startState tietze pos1) :=
  ⟨isSearched_refl h, hpos, Nat.sub_le _ _⟩

theorem left_startState (h : tietze.IsTietze)
    : (searchOf w stale tietze pos1 pos2 equal).left (startState tietze pos1)
      < tietze.numrels + tietze.total.toNat + 1 := by
  have htotal := h.total
  unfold TzSearch.left startState searchOf
  dsimp only
  omega

theorem startSearch_spec (h : tietze.IsTietze) (hpos : 0 < pos1) (hle : pos1 ≤ tietze.numrels)
    (hlen : 2 ≤ entryPlist tietze.lengths pos1)
    : ∃ result, startSearch w stale tietze pos1 pos2 equal tietze.total = .ok result
      ∧ IsSearched (if equal then 1 else 2) tietze result.1 := by
  rw [startSearch_eq stale pos2 equal h hpos hle]
  rcases TzSearch.searchLoop_spec (isBounded_searchOf stale pos2 equal h hpos hlen)
      (mlen_pos_searchOf stale pos2 equal hlen) (isRound_startState stale pos2 equal h hpos)
      (left_startState stale pos2 equal h) with ⟨s, hs⟩
  dsimp only
  rw [hs.1, ok_bind]
  exact ⟨_, rfl, hs.2.1⟩

end Start

section

variable (h : tietze.IsTietze) (stale : Nat → Nat → BitVec w.bits)

include h stale

theorem tzSearchC_eq (pos1 pos2 : Int) (equal : Bool)
    : tzSearchC w stale tietze pos1 pos2 equal
      = if pos1 > tietze.numrels then
          .error (.quit "<pos1> out of range: %d" pos1 0)
        else if pos2 > tietze.numrels then
          .error (.quit "<pos2> out of range: %d" pos2 0)
        else
          (do
            let pos1 ← tietze.skipRelators equal pos2 (pos2 + 1 - pos1).toNat pos1
            if pos1 > pos2 ∨ pos1 = tietze.numrels then
              return (tietze, 0)
            else
              startSearch w stale tietze pos1.toNat pos2.toNat equal tietze.total) := by
  have hrels : tietze.checkTietzeRelators = .ok () := by
    unfold checkTietzeRelators
    rw [if_neg (by simpa using h.numrels)]
    rfl
  have hlens : tietze.checkTietzeLengths = .ok () := by
    unfold checkTietzeLengths
    rw [if_neg (by simpa using length_lengths h)]
    rfl
  have hflags : tietze.checkTietzeFlags = .ok () := by
    unfold checkTietzeFlags
    rw [if_neg (by simpa using h.flags)]
    rfl
  have hinvs : tietze.checkTietzeInverses = .ok () := by
    unfold checkTietzeInverses
    rw [if_neg (by simpa using h.inverses)]
    rfl
  rcases checkTietzeRelLengths_ok h with ⟨total, htotal⟩
  unfold tzSearchC
  rw [hrels, ok_bind, hlens, ok_bind, hflags, ok_bind, htotal.1, ok_bind, hinvs, ok_bind]
  rw [htotal.2]
  split
  . rfl
  . split
    . rfl
    . rfl

theorem tzSearchC_spec (equal : Bool) (hpos : 0 ≤ pos1 ∨ pos2 < pos1 ∨ tietze.numrels < pos2)
    : tietze.SearchesRight pos1 pos2 equal (tzSearchC w stale tietze pos1 pos2 equal) := by
  rw [tzSearchC_eq h]
  split
  . next hgt => exact Or.inl ⟨rfl, hgt⟩
  . next hle1 =>
    split
    . next hgt => exact Or.inr ⟨rfl, hgt⟩
    . next hle2 =>
      rcases skipRelators_of_pos h equal hpos (by omega) with ⟨pos, hskip⟩
      rw [hskip.1, ok_bind]
      split
      . exact isSearched_refl h
      . next hgo =>
        have heligible := hskip.2.2.1 (by omega)
        have hpositive := heligible.positive
        rcases startSearch_spec stale pos2.toNat equal h (show 0 < pos.toNat by omega)
            (by omega) heligible.length with ⟨result, hresult⟩
        rw [hresult.1]
        exact hresult.2

theorem tzSearchC_neg (equal : Bool) (hneg : pos1 < 0) (hle : pos1 ≤ pos2)
    (hpos2 : pos2 ≤ tietze.numrels)
    : tzSearchC w stale tietze pos1 pos2 equal = .error .access := by
  rw [tzSearchC_eq h]
  rw [if_neg (by omega), if_neg (by omega)]
  have hcount : (pos2 + 1 - pos1).toNat = (pos2 - pos1).toNat + 1 := by
    omega
  rw [hcount]
  unfold skipRelators isInconvenient addrObj
  rw [if_pos hneg]
  rfl

end

def exampleStack : TietzeStack where
  numgens := 2
  numrels := 2
  total := 8
  inverses := [2, 1, 0, -1, -2]
  relators := [[1, 2, 1], [2, 1, 1, 2, 2]]
  lengths := [3, 5]
  flags := [1, 1]

theorem isTietze_exampleStack : exampleStack.IsTietze := by
  refine ⟨rfl, rfl, rfl, rfl, rfl, ?_, ?_⟩
  . unfold IsLetter
    decide
  . intro rel hrel
    unfold exampleStack at hrel
    simp only [mem_cons, not_mem_nil, or_false] at hrel
    cases hrel with
    | inl heq =>
      rw [heq]
      exact ⟨by unfold CyclicWord.IsReduced; decide, by decide⟩
    | inr heq =>
      rw [heq]
      exact ⟨by unfold CyclicWord.IsReduced; decide, by decide⟩

end TietzeStack
