import GapKernel.PRec.Lemmas.Position

open List

structure AbsRec (V : Type) where
  immutable : Bool
  map : Nat → Option V

namespace AbsRec

variable {V : Type}

def unbind (r : AbsRec V) (rnam : Nat) : AbsRec V :=
  { r with map := Function.update r.map rnam none }

def assign (r : AbsRec V) (rnam : Nat) (val : V) : AbsRec V :=
  { r with map := Function.update r.map rnam (some val) }

end AbsRec

namespace PRec

variable {V : Type} {w : IntSize} {rec : PRec V} {r : AbsRec V}

theorem Wf.of_names {rec' : PRec V} (h : rec.Wf w)
    (heq : rec'.entries.map Prod.fst = rec.entries.map Prod.fst) : rec'.Wf w := by
  obtain ⟨part, tail, hrec, hparts⟩ := h.parts
  have hmap := heq
  rw [hrec, map_append, map_eq_append_iff] at hmap
  obtain ⟨part', tail', hrec', hpart, htail⟩ := hmap
  constructor
  . refine ⟨part', tail', hrec', ?_, ?_, ?_⟩
    . intro entry he
      have hmem : entry.1 ∈ part.map Prod.fst := by
        rw [← hpart]
        exact mem_map.mpr ⟨entry, he, rfl⟩
      rw [mem_map] at hmem
      obtain ⟨entry', he', hfst⟩ := hmem
      rw [← hfst]
      exact hparts.neg entry' he'
    . intro entry he
      have hmem : entry.1 ∈ tail.map Prod.fst := by
        rw [← htail]
        exact mem_map.mpr ⟨entry, he, rfl⟩
      rw [mem_map] at hmem
      obtain ⟨entry', he', hfst⟩ := hmem
      rw [← hfst]
      exact hparts.pos entry' he'
    . have hsorted : (part.map Prod.fst).Pairwise (fun a b => -a < -b) := by
        rw [pairwise_map]
        exact hparts.sorted
      rw [← hpart, pairwise_map] at hsorted
      exact hsorted
  . have hnames : ∀ rec : PRec V, rec.bindings.map Prod.fst
        = (rec.entries.map Prod.fst).map Int.natAbs := by
      intro rec
      rw [bindings_fst, map_map]
      rfl
    rw [hnames, heq, ← hnames]
    exact h.nodup
  . intro entry he
    have hmem : entry.1 ∈ rec.entries.map Prod.fst := by
      rw [← heq]
      exact mem_map.mpr ⟨entry, he, rfl⟩
    rw [mem_map] at hmem
    obtain ⟨entry', he', hfst⟩ := hmem
    rw [← hfst]
    exact h.bound entry' he'

theorem Clean.keySorted (h : rec.Clean w) : KeySorted rec.bindings := by
  unfold KeySorted bindings
  rw [pairwise_map]
  apply h.parts.sorted.imp_of_mem
  intro a b ha hb hab
  have := h.parts.neg a ha
  have := h.parts.neg b hb
  omega

structure Refines (w : IntSize) (rec : PRec V) (r : AbsRec V) : Prop where
  immutable : rec.immutable = r.immutable
  wf : rec.Wf w
  binds : Binds rec.bindings r.map

theorem Keeps.refines {rec' : PRec V} (h : Keeps w rec rec') (hr : rec.Refines w r)
    : rec'.Refines w r := by
  constructor
  . rw [h.immutable]
    exact hr.immutable
  . exact h.wf
  . exact hr.binds.perm h.perm

theorem bindings_append_cons {u v : List (Int × V)} {entry : Int × V}
    (h : rec.entries = u ++ entry :: v)
    : rec.bindings = u.map (fun entry => (entry.1.natAbs, entry.2))
        ++ (entry.1.natAbs, entry.2) :: v.map (fun entry => (entry.1.natAbs, entry.2)) := by
  unfold bindings
  rw [h, map_append, map_cons]

section

variable (hr : rec.Refines w r)

include hr

theorem Refines.map_eq_some {u v : List (Int × V)} {entry : Int × V}
    (h : rec.entries = u ++ entry :: v)
    : r.map entry.1.natAbs = some entry.2 := by
  rw [hr.binds.mem, bindings_append_cons h]
  simp

theorem Refines.map_eq_none {rnam : Nat} (h : ∀ entry ∈ rec.entries, entry.1.natAbs ≠ rnam)
    : r.map rnam = none := by
  rw [hr.binds.eq_none_iff, bindings_fst, mem_map]
  intro hmem
  obtain ⟨entry, he, hkey⟩ := hmem
  exact h entry he hkey

theorem Refines.position_ne_zero_iff {rnam i : Nat} (h : IsPosition rec.entries rnam i)
    : i ≠ 0 ↔ (r.map rnam).isSome = true := by
  cases h with
  | inl h =>
    rw [hr.map_eq_none h.2]
    simp [h.1]
  | inr h =>
    obtain ⟨u, entry, v, huv, hkey, hi⟩ := h
    rw [← hkey, hr.map_eq_some huv]
    simp [hi]

theorem isbPRec_spec (rnam : RNam w)
    : ∃ rec', rec.isbPRec w rnam.val = .ok (rec', (r.map rnam.val).isSome) ∧ rec'.Refines w r := by
  obtain ⟨rec', i, hrun, hkeeps, _, _, hi⟩ := positionPRec_spec hr.wf rnam true
  have hr' := hkeeps.refines hr
  unfold isbPRec
  rw [hrun, ok_bind]
  apply Exists.intro rec'
  apply And.intro _ hr'
  have hb : decide (i ≠ 0) = (r.map rnam.val).isSome := by
    rw [Bool.eq_iff_iff, decide_eq_true_eq]
    exact hr'.position_ne_zero_iff hi
  rw [← hb]
  rfl

end

def unboundError (rnam : Nat) : Fault :=
  .quit "Record Element: '<rec>.%g' must have an assigned value" rnam 0

theorem elmPRec_spec (hr : rec.Refines w r) (rnam : RNam w)
    : ∃ rec', rec.elmPRec w rnam.val
          = .ok (rec', (r.map rnam.val).elim (.error (unboundError rnam.val)) .ok)
        ∧ rec'.Refines w r := by
  obtain ⟨rec', i, hrun, hkeeps, _, _, hi⟩ := positionPRec_spec hr.wf rnam true
  have hr' := hkeeps.refines hr
  unfold elmPRec
  rw [hrun, ok_bind]
  apply Exists.intro rec'
  apply And.intro _ hr'
  dsimp only
  cases hi with
  | inl hi =>
    rw [if_neg (by simp [hi.1])]
    rw [hr'.map_eq_none hi.2]
    rfl
  | inr hi =>
    obtain ⟨u, entry, v, huv, hkey, hi⟩ := hi
    rw [if_pos (by omega)]
    rw [hi, getElm_append_cons u v huv, ok_bind]
    rw [← hkey, hr'.map_eq_some huv]
    rfl

theorem moveForward_spec (v : List (Int × V))
    : ∀ (u : List (Int × V)) (entry : Int × V), ∃ l,
      moveForward (u ++ entry :: v) v.length (u.length + 1) = .ok l
        ∧ l.take (u.length + v.length) = u ++ v := by
  induction v with
  | nil =>
    intro u entry
    apply Exists.intro (u ++ [entry])
    constructor
    . rfl
    . simp
  | cons next v ih =>
    intro u entry
    have happ : u ++ next :: next :: v = (u ++ [next]) ++ next :: v := by
      simp
    have hget : elmPlist (u ++ entry :: next :: v) (u.length + 1 + 1) = .ok next := by
      have := elmPlist_append_cons (u ++ [entry]) v next
      simpa using this
    obtain ⟨l, hrun, hl⟩ := ih (u ++ [next]) next
    apply Exists.intro l
    constructor
    . rw [length_cons]
      unfold moveForward
      rw [hget, ok_bind]
      rw [setElmPlist_append_cons, ok_bind, happ]
      simpa using hrun
    . simp at hl ⊢
      rw [← hl]
      congr 1
      omega

theorem update_of_eq_none {m : Nat → Option V} {k : Nat} (h : m k = none)
    : Function.update m k none = m := by
  rw [← h]
  apply Function.update_eq_self

section

variable (hr : rec.Refines w r) (hmut : r.immutable = false) (rnam : RNam w)

include hr hmut rnam

theorem unbPRec_spec
    : ∃ rec', rec.unbPRec w rnam.val = .ok rec' ∧ rec'.Refines w (AbsRec.unbind r rnam.val) := by
  obtain ⟨rec', i, hrun, hkeeps, hclean, _, hi⟩ := positionPRec_spec hr.wf rnam true
  have hr' := hkeeps.refines hr
  have hclean := hclean rfl
  unfold unbPRec
  rw [hr.immutable, hmut, if_neg (by simp)]
  rw [hrun]
  simp only [ok_bind]
  cases hi with
  | inl hi =>
    rw [if_neg (by simp [hi.1])]
    refine ⟨rec', rfl, hr'.immutable, hr'.wf, ?_⟩
    unfold AbsRec.unbind
    rw [update_of_eq_none (hr'.map_eq_none hi.2)]
    exact hr'.binds
  | inr hi =>
    obtain ⟨u, entry, v, huv, hkey, hi⟩ := hi
    have hlen : rec'.len = u.length + v.length + 1 := by
      unfold len
      rw [huv]
      simp
      omega
    obtain ⟨l, hmove, htake⟩ := moveForward_spec v u entry
    have hsub : rec'.len - i = v.length := by
      omega
    rw [if_pos (by omega)]
    rw [huv, hsub, hi, hmove, ok_bind]
    have htake' : l.take (rec'.len - 1) = u ++ v := by
      rw [← htake, hlen]
      rfl
    rw [htake']
    refine ⟨_, rfl, hr'.immutable, ?_, ?_⟩
    . have hsublist : (u ++ v).Sublist rec'.entries := by
        rw [huv]
        simp
      constructor
      . refine ⟨u ++ v, [], by simp, ?_, by simp, ?_⟩
        . intro entry he
          exact hclean.parts.neg entry (hsublist.mem he)
        . exact hclean.parts.sorted.sublist hsublist
      . rw [bindings_fst]
        exact hr'.wf.names_nodup.sublist (hsublist.map _)
      . intro entry he
        exact hr'.wf.bound entry (hsublist.mem he)
    . have hbinds := hr'.binds
      rw [bindings_append_cons huv] at hbinds
      unfold AbsRec.unbind
      rw [← hkey]
      unfold bindings
      rw [map_append]
      exact hbinds.erase

theorem assPRec_spec (val : V)
    : ∃ rec', rec.assPRec w rnam.val val = .ok rec'
        ∧ rec'.Refines w (AbsRec.assign r rnam.val val) := by
  have hsort : ∃ rec', (if rec.len % 1000 = 0 then rec.sortPRecRNam w else return rec
      : Result (PRec V)) = .ok rec' ∧ rec'.Refines w r := by
    split
    . obtain ⟨rec', hrun, hsorted⟩ := sortPRecRNam_spec hr.wf
      exact ⟨rec', hrun, hsorted.keeps.refines hr⟩
    . exact ⟨rec, rfl, hr⟩
  obtain ⟨rec1, hrun1, hr1⟩ := hsort
  obtain ⟨rec', i, hrun, _, _, hsame, hi⟩ := positionPRec_spec hr1.wf rnam false
  have hsame := hsame rfl
  subst hsame
  unfold assPRec
  rw [hr.immutable, hmut, if_neg (by simp)]
  dsimp only
  rw [hrun1, ok_bind, hrun, ok_bind]
  cases hi with
  | inl hi =>
    rw [if_pos hi.1]
    have hnone := hr1.map_eq_none hi.2
    have hb : bindings ⟨rec'.immutable, rec'.entries ++ [((rnam.val : Int), val)]⟩
        = rec'.bindings ++ [(rnam.val, val)] := by
      unfold bindings
      rw [map_append]
      rfl
    have hbinds := hr1.binds.append hnone val
    rw [← hb] at hbinds
    refine ⟨_, rfl, hr1.immutable, ?_, hbinds⟩
    constructor
    . obtain ⟨part, tail, hrec, hparts⟩ := hr1.wf.parts
      refine ⟨part, tail ++ [((rnam.val : Int), val)], by rw [hrec]; simp, hparts.neg, ?_,
        hparts.sorted⟩
      intro entry he
      rw [mem_append, mem_singleton] at he
      cases he with
      | inl he => exact hparts.pos entry he
      | inr he =>
        have := rnam.pos
        rw [he]
        omega
    . exact hbinds.nodup
    . intro entry he
      rw [mem_append, mem_singleton] at he
      cases he with
      | inl he => exact hr1.wf.bound entry he
      | inr he =>
        rw [he]
        exact rnam.lt
  | inr hi =>
    obtain ⟨u, entry, v, huv, hkey, hi⟩ := hi
    rw [if_neg (by omega)]
    rw [hi, huv, elmPlist_append_cons, ok_bind, setElmPlist_append_cons, ok_bind]
    have hb := bindings_append_cons huv
    have hb' : bindings ⟨rec'.immutable, u ++ (entry.1, val) :: v⟩
        = u.map (fun entry => (entry.1.natAbs, entry.2))
          ++ (entry.1.natAbs, val) :: v.map (fun entry => (entry.1.natAbs, entry.2)) := by
      unfold bindings
      rw [map_append, map_cons]
    have hbinds := hr1.binds
    rw [hb] at hbinds
    have hbinds' := hbinds.replace val
    rw [← hb', hkey] at hbinds'
    refine ⟨_, rfl, hr1.immutable, ?_, hbinds'⟩
    apply hr1.wf.of_names
    rw [huv]
    simp

end

theorem recNames_spec (hr : rec.Refines w r)
    : ∃ rec' rnams, rec.recNames w = .ok (rec', rnams) ∧ rec'.Refines w r
        ∧ rnams.Pairwise (fun a b => a < b) ∧ ∀ rnam, rnam ∈ rnams ↔ (r.map rnam).isSome = true := by
  obtain ⟨rec', hrun, hsorted⟩ := sortPRecRNam_spec hr.wf
  have hr' := hsorted.keeps.refines hr
  unfold recNames
  rw [hrun, ok_bind]
  have hnames : rec'.entries.map (fun entry => w.asUInt (-entry.1)) = rec'.bindings.map Prod.fst := by
    rw [bindings_fst]
    apply map_congr_left
    intro entry he
    have hneg := hsorted.clean.parts.neg entry he
    have hbound := hsorted.clean.wf.bound entry he
    rw [IntSize.asUInt_of_nonneg (by omega) (by rw [Int.natAbs_neg]; exact hbound)]
    rw [Int.natAbs_neg]
  rw [hnames]
  refine ⟨rec', _, rfl, hr', ?_, ?_⟩
  . exact pairwise_map.mpr hsorted.clean.keySorted
  . intro rnam
    exact (hr'.binds.isSome_iff rnam).symm

end PRec
