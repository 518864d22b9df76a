import GapKernel.Tietze.Impl.Words
import Mathlib.Data.List.GetD

open List Option

section Counts

def occurrencesIn (k : Nat) (rel : List Int) : Nat :=
  rel.countP fun gen : Int => decide (gen = k ∨ gen = -k)

def totalOccurrences (k : Nat) (rels : List (List Int)) : Nat :=
  (rels.map (occurrencesIn k)).sum

structure IsFirstMin (k : Nat) (rels : List (List Int)) (min len : Nat) : Prop where
  pos : 0 < len
  least : ∀ rel ∈ rels, 0 < occurrencesIn k rel → len ≤ occurrencesIn k rel
  first : ∃ rel, elmPlist rels min = .ok rel ∧ occurrencesIn k rel = len
    ∧ ∀ j rel', elmPlist rels j = .ok rel' → occurrencesIn k rel' = len
      → rel.length ≤ rel'.length ∧ (j < min → rel.length < rel'.length)

def IsMinEntry (k : Nat) (rels : List (List Int)) (min len : Option Nat) : Prop :=
  match min, len with
  | some min, some len => IsFirstMin k rels min len
  | none, none => ∀ rel ∈ rels, occurrencesIn k rel = 0
  | _, _ => False

structure IsEntry (k : Nat) (rels : List (List Int)) (cnt : Nat) (min len : Option Nat) : Prop where
  cnt_eq : cnt = totalOccurrences k rels
  isMin : IsMinEntry k rels min len

structure IsCounts (gens : List Nat) (rels : List (List Int)) (r : TzCounts) : Prop where
  cnts_length : r.cnts.length = gens.length
  mins_length : r.mins.length ≤ gens.length
  lens_length : r.lens.length = r.mins.length
  entry : ∀ i k : Nat, gens[i]? = some k
    → ∃ cnt, r.cnts[i]? = some cnt ∧ IsEntry k rels cnt r.mins[i]?.join r.lens[i]?.join
  last : ∀ min, r.mins.getLast? = some min → min ≠ none

namespace TietzeStack

structure IsCountable (w : IntSize) (tietze : TietzeStack) : Prop where
  numrels : tietze.relators.length = tietze.numrels
  letters : ∀ rel ∈ tietze.relators, ∀ gen ∈ rel,
    gen ≠ 0 ∧ -tietze.numgens ≤ gen ∧ gen ≤ tietze.numgens
  small : ((tietze.relators.map List.length).sum : Nat) ≤ w.intIntobjMax

def CountsRight (w : IntSize) (tietze : TietzeStack) : Prop :=
  ∃ r, tietze.funcTzOccurrences w [] = .ok r
    ∧ IsCounts (List.range' 1 tietze.numgens) tietze.relators r
    ∧ ∀ k : Nat, 0 < k → k ≤ tietze.numgens → ∃ r', tietze.funcTzOccurrences w [(k : Int)] = .ok r'
      ∧ IsCounts [k] tietze.relators r' ∧ r'.cnts[0]? = r.cnts[k - 1]?
      ∧ r'.mins[0]?.join = r.mins[k - 1]?.join ∧ r'.lens[0]?.join = r.lens[k - 1]?.join

end TietzeStack

section Entry

variable {k : Nat} {rels : List (List Int)} {x : List Int}

theorem IsFirstMin.le {min len : Nat} (h : IsFirstMin k rels min len) : min ≤ rels.length := by
  obtain ⟨rel, hrel, _⟩ := h.first
  exact (le_of_elmPlist hrel).2

theorem IsFirstMin.keep {min len : Nat} (h : IsFirstMin k rels min len)
    (hx : occurrencesIn k x = 0 ∨ len < occurrencesIn k x
      ∨ occurrencesIn k x = len ∧ ∀ rel, elmPlist rels min = .ok rel → rel.length ≤ x.length)
    : IsFirstMin k (rels ++ [x]) min len := by
  have hpos := h.pos
  obtain ⟨rel, hrel, hocc, hfirst⟩ := h.first
  refine ⟨hpos, ?_, rel, elmPlist_append hrel, hocc, ?_⟩
  . intro rel' hrel' hpos'
    rw [mem_append, mem_singleton] at hrel'
    cases hrel' with
    | inl hmem => exact h.least rel' hmem hpos'
    | inr heq =>
      rw [heq] at hpos' ⊢
      omega
  . intro j rel' hj hocc'
    cases elmPlist_concat_cases hj with
    | inl hold => exact hfirst j rel' hold hocc'
    | inr hnew =>
      obtain ⟨rfl, rfl⟩ := hnew
      have hle := h.le
      refine ⟨?_, fun hlt => by omega⟩
      rcases hx with hx | hx | hx
      . omega
      . omega
      . exact hx.2 rel hrel

theorem isFirstMin_new (hpos : 0 < occurrencesIn k x)
    (hleast : ∀ rel ∈ rels, 0 < occurrencesIn k rel → occurrencesIn k x ≤ occurrencesIn k rel)
    (hless : ∀ rel ∈ rels, occurrencesIn k rel = occurrencesIn k x → x.length < rel.length)
    : IsFirstMin k (rels ++ [x]) (rels.length + 1) (occurrencesIn k x) := by
  refine ⟨hpos, ?_, x, elmPlist_append_cons rels [] x, rfl, ?_⟩
  . intro rel hrel hrel'
    rw [mem_append, mem_singleton] at hrel
    cases hrel with
    | inl hmem => exact hleast rel hmem hrel'
    | inr heq => rw [heq]
  . intro j rel hj hocc
    cases elmPlist_concat_cases hj with
    | inl hold =>
      have hmem := mem_of_getElem? (elmPlist_eq_ok_iff.mp hold).2
      have hlt := hless rel hmem hocc
      exact ⟨Nat.le_of_lt hlt, fun _ => hlt⟩
    | inr hnew =>
      obtain ⟨rfl, rfl⟩ := hnew
      exact ⟨Nat.le_refl _, fun hlt => by omega⟩

theorem totalOccurrences_concat
    : totalOccurrences k (rels ++ [x]) = totalOccurrences k rels + occurrencesIn k x := by
  unfold totalOccurrences
  rw [map_append, sum_append]
  simp

variable {cnt : Nat} {min len : Option Nat}

theorem IsEntry.keep (h : IsEntry k rels cnt min len) (hx : occurrencesIn k x = 0)
    : IsEntry k (rels ++ [x]) cnt min len := by
  refine ⟨by rw [totalOccurrences_concat, hx, ← h.cnt_eq]; rfl, ?_⟩
  have hmin := h.isMin
  match min, len with
  | some min, some len =>
    exact IsFirstMin.keep (show IsFirstMin k rels min len from hmin) (Or.inl hx)
  | none, none =>
    intro rel hrel
    rw [mem_append, mem_singleton] at hrel
    cases hrel with
    | inl hmem => exact hmin rel hmem
    | inr heq => rw [heq, hx]

theorem isLess_spec (h : IsEntry k rels cnt min len) (hx : 0 < occurrencesIn k x)
    (v : List (List Int))
    : ∃ b, isLess (rels ++ v) x.length (occurrencesIn k x) min len = .ok b
      ∧ IsEntry k (rels ++ [x]) (cnt + occurrencesIn k x)
        (if b then some (rels.length + 1) else min)
        (if b then some (occurrencesIn k x) else len) := by
  have hcnt : cnt + occurrencesIn k x = totalOccurrences k (rels ++ [x]) := by
    rw [totalOccurrences_concat, h.cnt_eq]
  have hmin := h.isMin
  match min, len with
  | none, none =>
    refine ⟨true, rfl, hcnt, isFirstMin_new hx ?_ ?_⟩
    . intro rel hrel hpos
      rw [hmin rel hrel] at hpos
      omega
    . intro rel hrel hocc
      rw [hmin rel hrel] at hocc
      omega
  | some min, some len =>
    replace hmin : IsFirstMin k rels min len := hmin
    obtain ⟨rel, hrel, hocc, hfirst⟩ := hmin.first
    unfold isLess
    dsimp only
    split
    next hlt =>
      refine ⟨true, rfl, hcnt, isFirstMin_new hx ?_ ?_⟩
      . intro rel' hrel' hpos
        have := hmin.least rel' hrel' hpos
        omega
      . intro rel' hrel' hocc'
        have := hmin.least rel' hrel' (by omega)
        omega
    next hge =>
      split
      next heq =>
        rw [elmPlist_append hrel, ok_bind]
        refine ⟨_, rfl, hcnt, ?_⟩
        by_cases hlt : x.length < rel.length
        . rw [if_pos (decide_eq_true hlt), if_pos (decide_eq_true hlt)]
          apply isFirstMin_new hx
          . intro rel' hrel' hpos
            have := hmin.least rel' hrel' hpos
            omega
          . intro rel' hrel' hocc'
            obtain ⟨j, hj⟩ := getElem?_of_mem hrel'
            have := (hfirst (j + 1) rel' (elmPlist_of_getElem? hj) (by omega)).1
            omega
        . have hfalse : decide (x.length < rel.length) ≠ true := by
            simpa using hlt
          rw [if_neg hfalse, if_neg hfalse]
          apply hmin.keep
          refine Or.inr (Or.inr ⟨heq, fun rel' hrel' => ?_⟩)
          rw [hrel] at hrel'
          cases hrel'
          omega
      next hne =>
        exact ⟨false, rfl, hcnt, hmin.keep (Or.inr (Or.inl (by omega)))⟩

theorem isEntry_nil (k : Nat) : IsEntry k [] 0 none none :=
  ⟨rfl, fun _ hrel => nomatch hrel⟩

theorem IsFirstMin.unique {min len min' len' : Nat} (h : IsFirstMin k rels min len)
    (h' : IsFirstMin k rels min' len') : min = min' ∧ len = len' := by
  obtain ⟨rel, hrel, hocc, hfirst⟩ := h.first
  obtain ⟨rel', hrel', hocc', hfirst'⟩ := h'.first
  have hmem := mem_of_getElem? (elmPlist_eq_ok_iff.mp hrel).2
  have hmem' := mem_of_getElem? (elmPlist_eq_ok_iff.mp hrel').2
  have hpos := h.pos
  have hpos' := h'.pos
  have hle := h.least rel' hmem' (by omega)
  have hle' := h'.least rel hmem (by omega)
  have hcmp := hfirst min' rel' hrel' (by omega)
  have hcmp' := hfirst' min rel hrel (by omega)
  omega

theorem IsEntry.unique {cnt' : Nat} {min' len' : Option Nat} (h : IsEntry k rels cnt min len)
    (h' : IsEntry k rels cnt' min' len')
    : cnt = cnt' ∧ min = min' ∧ len = len' := by
  refine ⟨h.cnt_eq.trans h'.cnt_eq.symm, ?_⟩
  have hmin := h.isMin
  have hmin' := h'.isMin
  have hzero : ∀ {min len : Nat}, IsFirstMin k rels min len
      → ¬∀ rel ∈ rels, occurrencesIn k rel = 0 := by
    intro min len hfirst hall
    obtain ⟨rel, hrel, hocc, _⟩ := hfirst.first
    have hpos := hfirst.pos
    have := hall rel (mem_of_getElem? (elmPlist_eq_ok_iff.mp hrel).2)
    omega
  match min, len, min', len' with
  | some min, some len, some min', some len' =>
    obtain ⟨h1, h2⟩ := IsFirstMin.unique (show IsFirstMin k rels min len from hmin) hmin'
    rw [h1, h2]
    exact ⟨rfl, rfl⟩
  | none, none, none, none => exact ⟨rfl, rfl⟩
  | some min, some len, none, none => exact absurd hmin' (hzero hmin)
  | none, none, some min, some len => exact absurd hmin (hzero hmin')

theorem IsEntry.none_iff (h : IsEntry k rels cnt min len)
    : min = none ↔ ∀ rel ∈ rels, occurrencesIn k rel = 0 := by
  have hmin := h.isMin
  match min, len with
  | some min, some len =>
    refine iff_of_false (fun h => nomatch h) fun hall => ?_
    have := h.unique ⟨h.cnt_eq, show IsMinEntry k rels none none from hall⟩
    exact nomatch this.2.1
  | none, none => exact iff_of_true rfl hmin

theorem IsEntry.cnt_eq_zero_iff (h : IsEntry k rels cnt min len) : cnt = 0 ↔ min = none := by
  rw [h.none_iff, h.cnt_eq]
  unfold totalOccurrences
  rw [List.sum_eq_zero_iff_forall_eq_nat]
  simp

end Entry

section Single

variable {k : Nat} {rels : List (List Int)} {s : SingleState}

def IsSingleState (k : Nat) (rels : List (List Int)) (s : SingleState) : Prop :=
  IsEntry k rels s.nr (if s.nrm = 0 then none else some s.min)
    (if s.nrm = 0 then none else some s.nrm)

theorem countLetters_spec (k : Nat) (rel : List Int)
    : countLetters rel k = .ok (occurrencesIn k rel) := by
  have hrun : ∃ c, countLetters rel k = .ok c ∧ c = occurrencesIn k rel := by
    unfold countLetters
    apply forLoop_of_prefix (fun u c => c = occurrencesIn k u)
    . rfl
    . intro u x v c hrel hc
      rw [hrel, elmPlist_append_cons, ok_bind]
      refine ⟨_, rfl, ?_⟩
      unfold occurrencesIn at hc ⊢
      rw [countP_append, countP_singleton, hc]
      by_cases hx : x = k ∨ x = -k
      . rw [if_pos hx, if_pos (decide_eq_true hx)]
      . rw [if_neg hx, if_neg (by simpa using hx)]
        rfl
    . intro c hc
      exact hc
  obtain ⟨c, hrun, rfl⟩ := hrun
  exact hrun

theorem isBetter_eq_isLess {leng nr1 : Nat} (hpos : 0 < nr1) (s : SingleState)
    : isBetter rels leng nr1 s = isLess rels leng nr1 (if s.nrm = 0 then none else some s.min)
        (if s.nrm = 0 then none else some s.nrm) := by
  unfold isBetter isLess
  by_cases hzero : s.nrm = 0
  . rw [if_pos (Or.inl hzero), if_pos hzero]
  . rw [if_neg hzero, if_neg hzero]
    dsimp only
    by_cases hlt : nr1 < s.nrm
    . rw [if_pos (Or.inr ⟨hpos, hlt⟩), if_pos hlt]
    . rw [if_neg (fun hor => hor.elim hzero fun hand => hlt hand.2), if_neg hlt]

theorem singleRound_spec {u v : List (List Int)} {x : List Int} (hrels : rels = u ++ x :: v)
    (h : IsSingleState k u s)
    : ∃ s', singleRound rels k (u.length + 1) s = .ok s' ∧ IsSingleState k (u ++ [x]) s' := by
  unfold singleRound
  rw [hrels, elmPlist_append_cons, ok_bind, countLetters_spec, ok_bind]
  by_cases hpos : 0 < occurrencesIn k x
  . rw [isBetter_eq_isLess hpos]
    obtain ⟨b, hrun, hentry⟩ := isLess_spec h hpos (x :: v)
    rw [hrun, ok_bind]
    cases b with
    | true =>
      refine ⟨_, rfl, ?_⟩
      unfold IsSingleState
      dsimp only
      rw [if_neg (by omega), if_neg (by omega)]
      exact hentry
    | false => exact ⟨_, rfl, hentry⟩
  . have hzero : occurrencesIn k x = 0 := by
      omega
    have hkeep := IsEntry.keep h hzero
    unfold isBetter
    rw [hzero]
    by_cases hnrm : s.nrm = 0
    . rw [if_pos (Or.inl hnrm), pure_bind]
      rw [if_pos hnrm, if_pos hnrm] at hkeep
      exact ⟨_, rfl, hkeep⟩
    . rw [if_neg (by omega), if_neg (by omega), pure_bind]
      exact ⟨_, rfl, hkeep⟩

theorem singleOccurrences_spec (k : Nat) (rels : List (List Int))
    : ∃ r, singleOccurrences rels rels.length k = .ok r ∧ IsCounts [k] rels r := by
  unfold singleOccurrences
  apply exists_bind_of (P := IsSingleState k rels)
  . apply forLoop_of_prefix (IsSingleState k)
    . exact isEntry_nil k
    . intro u x v s hrels h
      exact singleRound_spec hrels h
    . intro s h
      exact h
  . intro s h
    have hentry : ∀ min len : List (Option Nat),
        min[0]?.join = (if s.nrm = 0 then none else some s.min)
        → len[0]?.join = (if s.nrm = 0 then none else some s.nrm) → ∀ i j : Nat, [k][i]? = some j
        → ∃ cnt, [s.nr][i]? = some cnt ∧ IsEntry j rels cnt min[i]?.join len[i]?.join := by
      intro min len hmin hlen i j hij
      have hi := (List.getElem?_eq_some_iff.mp hij).1
      rw [length_singleton] at hi
      have hi0 : i = 0 := by
        omega
      subst hi0
      cases hij
      refine ⟨s.nr, rfl, ?_⟩
      rw [hmin, hlen]
      exact h
    have hnr : s.nr = 0 ↔ s.nrm = 0 := by
      rw [IsEntry.cnt_eq_zero_iff h]
      simp
    split
    next hne =>
      have hnrm : s.nrm ≠ 0 := fun hzero => hne (hnr.mpr hzero)
      refine ⟨_, rfl, rfl, Nat.le_refl 1, rfl, hentry _ _ ?_ ?_, ?_⟩
      . rw [if_neg hnrm]
        rfl
      . rw [if_neg hnrm]
        rfl
      . intro min hmin
        cases hmin
        exact some_ne_none _
    next heq =>
      rw [not_not] at heq
      have hnrm := hnr.mp heq
      refine ⟨_, rfl, rfl, Nat.zero_le 1, rfl, hentry _ _ ?_ ?_, ?_⟩
      . rw [if_pos hnrm]
        rfl
      . rw [if_pos hnrm]
        rfl
      . intro min hmin
        exact nomatch hmin

end Single

section General

variable {w : IntSize} {rels : List (List Int)} {n : Nat}

def HasAux (n : Nat) (num : Nat → Nat) (ptAux : List Nat) : Prop :=
  ptAux.length = n ∧ ∀ k, 0 < k → k ≤ n → elmPlist ptAux k = .ok (num k)

theorem hasAux_zeros (n : Nat) : HasAux n (fun _ => 0) (replicate n 0) := by
  refine ⟨length_replicate, fun k hk hkn => ?_⟩
  rw [elmPlist_eq_ok_iff, getElem?_replicate, if_pos (by omega)]
  exact ⟨hk, rfl⟩

theorem occurrencesIn_concat (k : Nat) (rel : List Int) (x : Int)
    : occurrencesIn k (rel ++ [x]) = occurrencesIn k rel + if x.natAbs = k then 1 else 0 := by
  unfold occurrencesIn
  rw [countP_append, countP_singleton]
  by_cases hx : x.natAbs = k
  . rw [if_pos hx, if_pos (decide_eq_true (by omega))]
  . rw [if_neg hx, if_neg]
    rw [decide_eq_true_iff]
    omega

theorem countGens_spec {rel : List Int}
    (hrel : ∀ gen ∈ rel, gen ≠ 0 ∧ -(n : Int) ≤ gen ∧ gen ≤ n) (i : Nat) {ptAux : List Nat}
    (haux : HasAux n (fun _ => 0) ptAux)
    : ∃ ptAux', countGens rel n i ptAux = .ok ptAux' ∧ HasAux n (occurrencesIn · rel) ptAux' := by
  unfold countGens
  apply forLoop_of_prefix (fun u ptAux => HasAux n (occurrencesIn · u) ptAux)
  . exact haux
  . intro u x v ptAux hsplit h
    have hx := hrel x (by rw [hsplit]; simp)
    rw [hsplit, elmPlist_append_cons, ok_bind]
    dsimp only
    rw [if_neg (by omega), h.2 x.natAbs (by omega) (by omega), ok_bind]
    obtain ⟨ptAux', hrun, hlen, hself, hother⟩ := setElmPlist_of_elmPlist
      (h.2 x.natAbs (by omega) (by omega)) (occurrencesIn x.natAbs u + 1)
    refine ⟨ptAux', hrun, hlen.trans h.1, fun k hk hkn => ?_⟩
    dsimp only
    rw [occurrencesIn_concat]
    by_cases hkx : x.natAbs = k
    . rw [if_pos hkx, ← hkx, hself]
    . rw [if_neg hkx, hother k (fun heq => hkx heq.symm), h.2 k hk hkn]
      rfl
  . intro ptAux' h
    exact h

def HasEntry (k : Nat) (rels : List (List Int)) (s : GeneralState) : Prop :=
  ∃ cnt min len, elmPlist s.ptCnts k = .ok cnt ∧ elmPlist s.ptMins k = .ok min
    ∧ elmPlist s.ptLens k = .ok len ∧ IsEntry k rels cnt min len

structure IsCollected (n : Nat) (rels : List (List Int)) (x : List Int) (j : Nat)
    (s : GeneralState) : Prop where
  cnts_length : s.ptCnts.length = n
  mins_length : s.ptMins.length = n
  lens_length : s.ptLens.length = n
  aux : HasAux n (fun k => if k < j then 0 else occurrencesIn k x) s.ptAux
  done : ∀ k, 0 < k → k ≤ n → k < j → HasEntry k (rels ++ [x]) s
  todo : ∀ k, k ≤ n → j ≤ k → HasEntry k rels s

variable {x : List Int} {j : Nat} {s : GeneralState}

theorem IsCollected.next (h : IsCollected n rels x j s) {s' : GeneralState}
    (hcnts : s'.ptCnts.length = s.ptCnts.length) (hmins : s'.ptMins.length = s.ptMins.length)
    (hlens : s'.ptLens.length = s.ptLens.length) (hauxs : s'.ptAux.length = s.ptAux.length)
    (hother : ∀ k, k ≠ j → elmPlist s'.ptCnts k = elmPlist s.ptCnts k
      ∧ elmPlist s'.ptMins k = elmPlist s.ptMins k ∧ elmPlist s'.ptLens k = elmPlist s.ptLens k
      ∧ elmPlist s'.ptAux k = elmPlist s.ptAux k)
    (haux : elmPlist s'.ptAux j = .ok 0) (hentry : HasEntry j (rels ++ [x]) s')
    : IsCollected n rels x (j + 1) s' := by
  have hkeep : ∀ k rels', k ≠ j → HasEntry k rels' s → HasEntry k rels' s' := by
    intro k rels' hk hold
    obtain ⟨cnt, min, len, h1, h2, h3, h4⟩ := hold
    obtain ⟨e1, e2, e3, _⟩ := hother k hk
    exact ⟨cnt, min, len, e1.trans h1, e2.trans h2, e3.trans h3, h4⟩
  refine ⟨hcnts.trans h.cnts_length, hmins.trans h.mins_length, hlens.trans h.lens_length,
    ⟨hauxs.trans h.aux.1, ?_⟩, ?_, ?_⟩
  . intro k hk hkn
    dsimp only
    by_cases hkj : k = j
    . rw [hkj, haux, if_pos (Nat.lt_succ_self j)]
    . rw [(hother k hkj).2.2.2, h.aux.2 k hk hkn]
      dsimp only
      by_cases hlt : k < j
      . rw [if_pos hlt, if_pos (by omega)]
      . rw [if_neg hlt, if_neg (by omega)]
  . intro k hk hkn hlt
    by_cases hkj : k = j
    . rw [hkj]
      exact hentry
    . exact hkeep k _ hkj (h.done k hk hkn (by omega))
  . intro k hkn hle
    exact hkeep k _ (by omega) (h.todo k hkn (by omega))

theorem collectRound_spec (h : IsCollected n rels x j s) (hj : 0 < j) (hjn : j ≤ n)
    (hsmall : (totalOccurrences j (rels ++ [x]) : Int) ≤ w.intIntobjMax) (v : List (List Int))
    : ∃ s', collectRound w (rels ++ v) x.length (rels.length + 1) j s = .ok s'
      ∧ IsCollected n rels x (j + 1) s' := by
  have haux : elmPlist s.ptAux j = .ok (occurrencesIn j x) := by
    rw [h.aux.2 j hj hjn]
    dsimp only
    rw [if_neg (Nat.lt_irrefl j)]
  obtain ⟨cnt, min, len, hcnt, hmin, hlen, hentry⟩ := h.todo j hjn (Nat.le_refl j)
  unfold collectRound
  rw [haux, ok_bind]
  split
  next hzero =>
    rw [hzero] at haux
    refine ⟨s, rfl, h.next rfl rfl rfl rfl (fun _ _ => ⟨rfl, rfl, rfl, rfl⟩) haux ?_⟩
    exact ⟨cnt, min, len, hcnt, hmin, hlen, hentry.keep hzero⟩
  next hne =>
    obtain ⟨aux', hset1, hlen1, hself1, hother1⟩ := setElmPlist_of_elmPlist haux 0
    obtain ⟨cnts', hset2, hlen2, hself2, hother2⟩ :=
      setElmPlist_of_elmPlist hcnt (cnt + occurrencesIn j x)
    obtain ⟨b, hless, hentry'⟩ := isLess_spec hentry (Nat.pos_of_ne_zero hne) v
    have hfits : ¬w.intIntobjMax < (cnt : Int) + (occurrencesIn j x : Nat) := by
      have htotal := hentry'.cnt_eq
      omega
    rw [hset1, ok_bind, hcnt, ok_bind]
    dsimp only
    rw [if_neg hfits, hset2, ok_bind, hmin, ok_bind, hlen, ok_bind, hless, ok_bind]
    cases b with
    | true =>
      obtain ⟨lens', hset3, hlen3, hself3, hother3⟩ :=
        setElmPlist_of_elmPlist hlen (some (occurrencesIn j x))
      obtain ⟨mins', hset4, hlen4, hself4, hother4⟩ :=
        setElmPlist_of_elmPlist hmin (some (rels.length + 1))
      rw [if_pos rfl, hset3, ok_bind, hset4, ok_bind]
      refine ⟨_, rfl, h.next hlen2 hlen4 hlen3 hlen1 ?_ hself1
        ⟨_, _, _, hself2, hself4, hself3, hentry'⟩⟩
      intro k hk
      exact ⟨hother2 k hk, hother4 k hk, hother3 k hk, hother1 k hk⟩
    | false =>
      rw [if_neg Bool.false_ne_true]
      refine ⟨_, rfl, h.next hlen2 rfl rfl hlen1 ?_ hself1
        ⟨_, _, _, hself2, hmin, hlen, hentry'⟩⟩
      intro k hk
      exact ⟨hother2 k hk, rfl, rfl, hother1 k hk⟩

structure IsGeneralState (n : Nat) (rels : List (List Int)) (s : GeneralState) : Prop where
  cnts_length : s.ptCnts.length = n
  mins_length : s.ptMins.length = n
  lens_length : s.ptLens.length = n
  aux : HasAux n (fun _ => 0) s.ptAux
  entry : ∀ k, 0 < k → k ≤ n → HasEntry k rels s

theorem generalRound_spec {u v : List (List Int)} (hrels : rels = u ++ x :: v)
    (hx : ∀ gen ∈ x, gen ≠ 0 ∧ -(n : Int) ≤ gen ∧ gen ≤ n)
    (hsmall : ∀ k, (totalOccurrences k (u ++ [x]) : Int) ≤ w.intIntobjMax)
    (h : IsGeneralState n u s)
    : ∃ s', generalRound w rels n (u.length + 1) s = .ok s' ∧ IsGeneralState n (u ++ [x]) s' := by
  unfold generalRound
  obtain ⟨aux, hcount, haux⟩ := countGens_spec hx (u.length + 1) h.aux
  rw [hrels, elmPlist_append_cons, ok_bind, hcount, ok_bind]
  apply forLoop_of_inv (fun j s => 0 < j ∧ IsCollected n u x j s)
  . refine ⟨Nat.one_pos, h.cnts_length, h.mins_length, h.lens_length, ⟨haux.1, ?_⟩, ?_, ?_⟩
    . intro k hk hkn
      dsimp only
      rw [if_neg (by omega)]
      exact haux.2 k hk hkn
    . intro k hk hkn hlt
      omega
    . intro k hkn hk
      exact h.entry k hk hkn
  . rintro j s _ hjn ⟨hj, hs⟩
    obtain ⟨s', hrun, hs'⟩ := collectRound_spec hs hj (by omega) (hsmall j) (x :: v)
    exact ⟨s', hrun, Nat.succ_pos j, hs'⟩
  . rintro s ⟨_, hs⟩
    refine ⟨hs.cnts_length, hs.mins_length, hs.lens_length, ⟨hs.aux.1, ?_⟩, ?_⟩
    . intro k hk hkn
      rw [hs.aux.2 k hk hkn]
      dsimp only
      rw [if_pos (by omega)]
    . intro k hk hkn
      exact hs.done k hk hkn (by omega)

theorem lastBound_spec (l : List (Option Nat)) {n : Nat} (hn : n ≤ l.length)
    : (∃ k m, lastBound l n = .ok k ∧ k ≤ n ∧ elmPlist l k = .ok (some m)
        ∧ ∀ i, k < i → i ≤ n → elmPlist l i = .ok none)
      ∨ lastBound l n = .error .access ∧ ∀ i, 0 < i → i ≤ n → elmPlist l i = .ok none := by
  induction n with
  | zero => exact Or.inr ⟨rfl, fun i hi hin => by omega⟩
  | succ n ih =>
    have hget := elmPlist_of_getElem? (getElem?_eq_getElem hn)
    unfold lastBound
    rw [hget, ok_bind]
    cases hm : l[n] with
    | some m =>
      rw [hm] at hget
      exact Or.inl ⟨n + 1, m, rfl, Nat.le_refl _, hget, fun i hi hin => by omega⟩
    | none =>
      rw [hm] at hget
      have hlast : ∀ i, i ≤ n + 1 → ¬i ≤ n → elmPlist l i = .ok none := by
        intro i hi hin
        rw [show i = n + 1 by omega]
        exact hget
      rcases ih (by omega) with ⟨k, m, hrun, hle, hk, hnone⟩ | ⟨hrun, hnone⟩
      . refine Or.inl ⟨k, m, hrun, by omega, hk, fun i hi hin => ?_⟩
        by_cases hin' : i ≤ n
        . exact hnone i hi hin'
        . exact hlast i hin hin'
      . refine Or.inr ⟨hrun, fun i hi hin => ?_⟩
        by_cases hin' : i ≤ n
        . exact hnone i hi hin'
        . exact hlast i hin hin'

theorem occurrencesIn_le (k : Nat) (rel : List Int) : occurrencesIn k rel ≤ rel.length :=
  countP_le_length

theorem totalOccurrences_le (k : Nat) (rels : List (List Int))
    : totalOccurrences k rels ≤ (rels.map length).sum := by
  unfold totalOccurrences
  apply sum_le_sum
  intro rel _
  exact occurrencesIn_le k rel

theorem generalLoop_spec (hrels : ∀ rel ∈ rels, ∀ gen ∈ rel, gen ≠ 0 ∧ -(n : Int) ≤ gen ∧ gen ≤ n)
    (hsmall : ((rels.map length).sum : Nat) ≤ w.intIntobjMax)
    : ∃ s, forLoop (generalRound w rels n) rels.length 1 ⟨replicate n 0,
        replicate n none, replicate n none, replicate n 0⟩ = .ok s
      ∧ IsGeneralState n rels s := by
  apply forLoop_of_prefix (IsGeneralState n)
  . refine ⟨length_replicate, length_replicate, length_replicate, hasAux_zeros n, ?_⟩
    intro k hk hkn
    have hget : ∀ {α : Type} (x : α), elmPlist (replicate n x) k = .ok x := by
      intro α x
      rw [elmPlist_eq_ok_iff, getElem?_replicate, if_pos (by omega)]
      exact ⟨hk, rfl⟩
    exact ⟨0, none, none, hget 0, hget none, hget none, isEntry_nil k⟩
  . intro u x v s hsplit h
    apply generalRound_spec hsplit (hrels x (by rw [hsplit]; simp)) _ h
    intro k
    have hle := totalOccurrences_le k (u ++ [x])
    rw [hsplit, show u ++ x :: v = (u ++ [x]) ++ v by simp, map_append, sum_append]
      at hsmall
    omega
  . intro s h
    exact h

theorem IsGeneralState.isCounts (h : IsGeneralState n rels s) {m min : Nat} (hm : m ≤ n)
    (hbound : elmPlist s.ptMins m = .ok (some min))
    (hnone : ∀ i, m < i → i ≤ n → elmPlist s.ptMins i = .ok none)
    : IsCounts (range' 1 n) rels ⟨s.ptCnts, s.ptMins.take m, s.ptLens.take m⟩ := by
  have hmpos := (le_of_elmPlist hbound).1
  refine ⟨?_, ?_, ?_, ?_, ?_⟩
  . rw [length_range', h.cnts_length]
  . rw [length_range', length_take]
    omega
  . dsimp only
    rw [length_take, length_take, h.mins_length, h.lens_length]
  . intro i k hik
    have hin : i < n := by
      have := (List.getElem?_eq_some_iff.mp hik).1
      rwa [length_range'] at this
    rw [getElem?_range' hin] at hik
    have hk : k = i + 1 := by
      have := Option.some.inj hik
      omega
    subst hk
    obtain ⟨cnt, min', len, hcnt, hmin, hlen, hentry⟩ := h.entry (i + 1) (by omega) (by omega)
    have hcnt' := (elmPlist_eq_ok_iff.mp hcnt).2
    have hmin' := (elmPlist_eq_ok_iff.mp hmin).2
    have hlen' := (elmPlist_eq_ok_iff.mp hlen).2
    rw [Nat.add_sub_cancel] at hcnt' hmin' hlen'
    refine ⟨cnt, hcnt', ?_⟩
    dsimp only
    rw [getElem?_take, getElem?_take, hmin', hlen']
    by_cases him : i < m
    . rw [if_pos him, if_pos him]
      exact hentry
    . rw [if_neg him, if_neg him]
      have hcut := hnone (i + 1) (by omega) (by omega)
      rw [hmin] at hcut
      cases hcut
      have hzero := hentry.none_iff.mp rfl
      exact ⟨hentry.cnt_eq, hzero⟩
  . intro min' hlast
    have hlen : (s.ptMins.take m).length = m := by
      rw [length_take, h.mins_length]
      omega
    dsimp only at hlast
    rw [getLast?_eq_getElem?, hlen, getElem?_take, if_pos (by omega),
      (elmPlist_eq_ok_iff.mp hbound).2] at hlast
    cases hlast
    exact some_ne_none min

theorem generalOccurrences_spec
    (hrels : ∀ rel ∈ rels, ∀ gen ∈ rel, gen ≠ 0 ∧ -(n : Int) ≤ gen ∧ gen ≤ n)
    (hsmall : ((rels.map length).sum : Nat) ≤ w.intIntobjMax)
    : (∃ r, generalOccurrences w rels rels.length n = .ok r ∧ IsCounts (range' 1 n) rels r
        ∧ ∃ rel ∈ rels, rel ≠ [])
      ∨ generalOccurrences w rels rels.length n = .error .access ∧ ∀ rel ∈ rels, rel = [] := by
  obtain ⟨s, hrun, hs⟩ := generalLoop_spec hrels hsmall
  unfold generalOccurrences
  dsimp only
  rw [hrun, ok_bind]
  rcases lastBound_spec s.ptMins (Nat.le_of_eq hs.mins_length.symm) with
    ⟨k, min, hlast, hkn, hbound, hnone⟩ | ⟨hlast, hnone⟩
  . rw [hlast, ok_bind]
    refine Or.inl ⟨_, rfl, hs.isCounts hkn hbound hnone, ?_⟩
    by_contra hempty
    have hk := (le_of_elmPlist hbound).1
    obtain ⟨cnt, min', len, _, hmin, _, hentry⟩ := hs.entry k hk hkn
    rw [hbound] at hmin
    cases hmin
    apply some_ne_none min
    rw [hentry.none_iff]
    intro rel hrel
    by_contra hocc
    apply hempty
    refine ⟨rel, hrel, ?_⟩
    rintro rfl
    exact hocc rfl
  . rw [hlast]
    refine Or.inr ⟨rfl, fun rel hrel => ?_⟩
    cases rel with
    | nil => rfl
    | cons gen rel =>
      exfalso
      obtain ⟨hgen, hge, hle⟩ := hrels _ hrel gen mem_cons_self
      obtain ⟨cnt, min', len, _, hmin, _, hentry⟩ := hs.entry gen.natAbs (by omega) (by omega)
      rw [hnone gen.natAbs (by omega) (by omega)] at hmin
      cases hmin
      have hzero := hentry.none_iff.mp rfl _ hrel
      unfold occurrencesIn at hzero
      rw [countP_eq_zero] at hzero
      apply hzero gen mem_cons_self
      rw [decide_eq_true_iff]
      omega

end General

namespace TietzeStack

variable {w : IntSize} {tietze : TietzeStack}

theorem checkTietzeRelators_ok (h : tietze.relators.length = tietze.numrels)
    : tietze.checkTietzeRelators = .ok () := by
  unfold checkTietzeRelators
  rw [if_neg (fun hne => hne h)]
  rfl

theorem funcTzOccurrences_single (h : tietze.IsCountable w) {k : Nat} (hk : 0 < k)
    (hkn : k ≤ tietze.numgens)
    : ∃ r, tietze.funcTzOccurrences w [(k : Int)] = .ok r ∧ IsCounts [k] tietze.relators r := by
  obtain ⟨r, hrun, hr⟩ := singleOccurrences_spec k tietze.relators
  refine ⟨r, ?_, hr⟩
  unfold funcTzOccurrences
  dsimp only
  rw [h.numrels] at hrun
  rw [if_neg (by simp), checkTietzeRelators_ok h.numrels, ok_bind, if_neg (by omega)]
  exact hrun

theorem funcTzOccurrences_nil (h : tietze.IsCountable w)
    : tietze.funcTzOccurrences w []
        = if tietze.numgens = 1 then
            singleOccurrences tietze.relators tietze.relators.length tietze.numgens
          else
            generalOccurrences w tietze.relators tietze.relators.length tietze.numgens := by
  unfold funcTzOccurrences
  dsimp only
  rw [if_neg (by simp), checkTietzeRelators_ok h.numrels, ok_bind, h.numrels]

end TietzeStack

theorem IsCounts.agrees {k i : Nat} {gens : List Nat} {rels : List (List Int)} {r r' : TzCounts}
    (h : IsCounts gens rels r) (h' : IsCounts [k] rels r') (hi : gens[i]? = some k)
    : r'.cnts[0]? = r.cnts[i]? ∧ r'.mins[0]?.join = r.mins[i]?.join
      ∧ r'.lens[0]?.join = r.lens[i]?.join := by
  obtain ⟨cnt, hcnt, hentry⟩ := h.entry i k hi
  obtain ⟨cnt', hcnt', hentry'⟩ := h'.entry 0 k rfl
  obtain ⟨h1, h2, h3⟩ := hentry'.unique hentry
  refine ⟨?_, h2, h3⟩
  rw [hcnt, hcnt', h1]

namespace TietzeStack

variable {w : IntSize} {tietze : TietzeStack}

theorem countsRight_of_run (h : tietze.IsCountable w) {r : TzCounts}
    (hrun : tietze.funcTzOccurrences w [] = .ok r)
    (hr : IsCounts (range' 1 tietze.numgens) tietze.relators r) : tietze.CountsRight w := by
  refine ⟨r, hrun, hr, fun k hk hkn => ?_⟩
  obtain ⟨r', hrun', hr'⟩ := funcTzOccurrences_single h hk hkn
  have hget : (range' 1 tietze.numgens)[k - 1]? = some k := by
    rw [getElem?_range' (by omega)]
    congr 1
    omega
  exact ⟨r', hrun', hr', hr.agrees hr' hget⟩

def exampleRelators : TietzeStack where
  numgens := 3
  numrels := 3
  total := 8
  inverses := [3, 2, 1, 0, -1, -2, -3]
  relators := [[1, -3, 1], [3, 3, -1], [1, 3]]
  lengths := [3, 3, 2]
  flags := [1, 1, 1]

theorem isCountable_exampleRelators : exampleRelators.IsCountable .int4 where
  numrels := rfl
  letters := by decide
  small := by decide

example : exampleRelators.funcTzOccurrences .int4 []
    = .ok ⟨[4, 0, 4], [some 3, none, some 3], [some 1, none, some 1]⟩ := by
  decide

def exampleFree : TietzeStack where
  numgens := 2
  numrels := 0
  total := 0
  inverses := [2, 1, 0, -1, -2]
  relators := []
  lengths := []
  flags := []

end TietzeStack

end Counts
