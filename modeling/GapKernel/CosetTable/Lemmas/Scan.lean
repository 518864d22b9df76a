import GapKernel.CosetTable.Impl
import GapKernel.PartialAction
import Mathlib.Data.List.GetD

open PartialAction List

namespace CosetTable

def entry (t : CosetTable) (a p : Nat) : Nat :=
  match a with
  | 0 => 0
  | a + 1 => entryPlist (t.getD a []) p

def action (t : CosetTable) (a p : Nat) : Option Nat :=
  if t.entry a p = 0 then
    none
  else
    some (t.entry a p)

structure Wf (t : CosetTable) (m n : Nat) : Prop where
  width : t.length = 2 * m
  height : ∀ col ∈ t, col.length = n
  bound : ∀ col ∈ t, ∀ e ∈ col, e ≤ n

def cosets (n : Nat) : Set Nat :=
  { p | 0 < p ∧ p ≤ n }

theorem involutive_invCol : Function.Involutive invCol := by
  intro a
  unfold invCol
  grind

theorem invCol_ne (a : Nat) (h : 0 < a) : invCol a ≠ a := by
  unfold invCol
  grind

variable {t t' : CosetTable} {m n : Nat}

theorem entry_zero (t : CosetTable) (p : Nat) : t.entry 0 p = 0 :=
  rfl

theorem entry_succ (t : CosetTable) (a p : Nat)
    : t.entry (a + 1) p = entryPlist (t.getD a []) p :=
  rfl

variable {a p : Nat}

theorem action_eq_none_iff : t.action a p = none ↔ t.entry a p = 0 := by
  unfold action
  split
  . next h => simp [h]
  . next h => simp [h]

theorem action_eq_some_iff {q : Nat}
    : t.action a p = some q ↔ t.entry a p = q ∧ q ≠ 0 := by
  unfold action
  split
  . next h =>
    simp only [reduceCtorEq, false_iff]
    omega
  . next h =>
    rw [Option.some.injEq]
    omega

namespace Wf

variable {a : Nat}

theorem getD_length (hwf : t.Wf m n) (h : a < 2 * m) : (t.getD a []).length = n := by
  have hlt : a < t.length := by
    rw [hwf.width]
    exact h
  apply hwf.height
  rw [getD_eq_getElem _ _ hlt]
  apply getElem_mem

variable {p : Nat}

variable (hwf : t.Wf m n)

include hwf

theorem elm_eq (ha : 0 < a ∧ a ≤ 2 * m) (hp : 0 < p ∧ p ≤ n)
    : t.elm a p = .ok (t.entry a p) := by
  cases a with
  | zero => omega
  | succ a =>
    have hlt : a < t.length := by
      rw [hwf.width]
      omega
    have hcol := hwf.getD_length (a := a) (by omega)
    unfold elm
    rw [entry_succ]
    rw [getD_eq_getElem _ _ hlt] at hcol ⊢
    have : elmPlist t (a + 1) = .ok t[a] := by
      unfold elmPlist
      simp [hlt]
      rfl
    rw [this]
    rw [ok_bind]
    apply elmPlist_eq_entryPlist
    . omega
    . omega

theorem entry_le (a p : Nat) : t.entry a p ≤ n := by
  cases a with
  | zero => apply Nat.zero_le
  | succ a =>
    rw [entry_succ]
    by_cases hlt : a < t.length
    . rw [getD_eq_getElem _ _ hlt]
      by_cases hp : 0 < p ∧ p ≤ t[a].length
      . apply hwf.bound t[a]
        . apply getElem_mem
        . rw [mem_iff_entryPlist]
          exact ⟨p, hp.1, hp.2, rfl⟩
      . cases p with
        | zero => simp [entryPlist]
        | succ p =>
          rw [entryPlist_of_lt (by omega)]
          apply Nat.zero_le
    . rw [getD_eq_default _ _ (by omega)]
      cases p with
      | zero => simp [entryPlist]
      | succ p =>
        rw [entryPlist_of_lt (by simp)]
        apply Nat.zero_le

theorem of_entry (h : t.entry a p ≠ 0)
    : (0 < a ∧ a ≤ 2 * m) ∧ (0 < p ∧ p ≤ n) := by
  cases a with
  | zero => exact absurd (entry_zero t p) h
  | succ a =>
    rw [entry_succ] at h
    have hlt : a < t.length := by
      apply Nat.lt_of_not_le
      intro hge
      rw [getD_eq_default _ _ hge] at h
      apply h
      cases p with
      | zero => rfl
      | succ p => exact entryPlist_of_lt (by simp)
    have hcol := hwf.getD_length (a := a) (by rw [← hwf.width]; exact hlt)
    have hp : p ≤ n := by
      apply Nat.le_of_not_lt
      intro hgt
      apply h
      apply entryPlist_of_lt
      omega
    have hp0 : p ≠ 0 := by
      intro hp0
      apply h
      rw [hp0]
      rfl
    have := hwf.width
    omega

theorem setElm_spec {q : Nat} (ha : 0 < a ∧ a ≤ 2 * m) (hp : 0 < p ∧ p ≤ n) (hq : q ≤ n)
    : ∃ t', t.setElm a p q = .ok t' ∧ t'.Wf m n
        ∧ ∀ b s, t'.entry b s = if b = a ∧ s = p then q else t.entry b s := by
  cases a with
  | zero => omega
  | succ a =>
    have hlt : a < t.length := by
      rw [hwf.width]
      omega
    have hcol := hwf.getD_length (a := a) (by omega)
    rw [getD_eq_getElem _ _ hlt] at hcol
    have hget : elmPlist t (a + 1) = .ok t[a] := by
      unfold elmPlist
      simp [hlt]
      rfl
    apply Exists.intro (t.set a (t[a].set (p - 1) q))
    constructor
    . unfold setElm
      rw [hget, ok_bind]
      rw [setElmPlist_eq hp.1 (by omega), ok_bind]
      rw [setElmPlist_eq (by omega) hlt]
      rfl
    . constructor
      . constructor
        . rw [length_set]
          exact hwf.width
        . intro col hc
          cases mem_or_eq_of_mem_set hc with
          | inl hc => exact hwf.height col hc
          | inr hc =>
            rw [hc, length_set]
            exact hcol
        . intro col hc e he
          cases mem_or_eq_of_mem_set hc with
          | inl hc => exact hwf.bound col hc e he
          | inr hc =>
            rw [hc] at he
            cases mem_or_eq_of_mem_set he with
            | inl he => exact hwf.bound t[a] (getElem_mem hlt) e he
            | inr he =>
              rw [he]
              exact hq
      . intro b s
        cases b with
        | zero =>
          rw [if_neg (by omega)]
          rfl
        | succ b =>
          rw [entry_succ, entry_succ]
          simp only [getD_eq_getElem?_getD, getElem?_set]
          by_cases hb : a = b
          . subst hb
            rw [if_pos rfl, if_pos hlt]
            rw [Option.getD_some]
            rw [entryPlist_set hp.1 (by omega)]
            simp [hlt]
          . rw [if_neg hb]
            rw [if_neg (by omega)]

theorem action_mem {q : Nat} (h : t.action a p = some q)
    : ((0 < a ∧ a ≤ 2 * m) ∧ (0 < p ∧ p ≤ n)) ∧ (0 < q ∧ q ≤ n) := by
  rw [action_eq_some_iff] at h
  have hle := hwf.entry_le a p
  have hin := hwf.of_entry (a := a) (p := p) (by omega)
  exact ⟨hin, by omega, by omega⟩

theorem action_dom (a p q : Nat) (h : t.action a p = some q) : q ∈ cosets n :=
  (hwf.action_mem h).2

end Wf

theorem invCol_mem (h : 0 < a ∧ a ≤ 2 * m) : 0 < invCol a ∧ invCol a ≤ 2 * m := by
  unfold invCol
  split
  . omega
  . omega

theorem setElm_setElm_spec (hwf : t.Wf m n) {q : Nat} (ha : 0 < a ∧ a ≤ 2 * m) (hp : 0 < p ∧ p ≤ n)
    (hq : 0 < q ∧ q ≤ n) (hap : t.action a p = none) (haq : t.action (invCol a) q = none)
    : ∃ t', (t.setElm a p q >>= fun t => t.setElm (invCol a) q p) = .ok t' ∧ t'.Wf m n
        ∧ Defines invCol t.action t'.action a p q := by
  obtain ⟨t1, hrun1, hwf1, hentry1⟩ := hwf.setElm_spec ha hp hq.2
  obtain ⟨t2, hrun2, hwf2, hentry2⟩ := hwf1.setElm_spec (invCol_mem ha) hq hp.2
  have hne := invCol_ne a ha.1
  apply Exists.intro t2
  constructor
  . rw [hrun1, ok_bind]
    exact hrun2
  . apply And.intro hwf2
    constructor
    . exact hap
    . exact haq
    . rw [action_eq_some_iff, hentry2, hentry1]
      rw [if_neg (by grind), if_pos ⟨rfl, rfl⟩]
      omega
    . rw [action_eq_some_iff, hentry2]
      rw [if_pos ⟨rfl, rfl⟩]
      omega
    . intro b s
      unfold action
      rw [hentry2, hentry1]
      grind

def relBag (w : List Nat) : List Nat :=
  w.length :: w

theorem elmPlist_relBag (u v : List Nat) (a : Nat)
    : elmPlist (relBag (u ++ a :: v)) (u.length + 2) = .ok a := by
  exact elmPlist_append_cons ((u ++ a :: v).length :: u) v a

theorem scanForward_spec (hwf : t.Wf m n) {v : List Nat}
    : ∀ (u : List Nat) (p pa rounds : Nat), (∀ a ∈ v, 0 < a ∧ a ≤ 2 * m) → 0 < p ∧ p ≤ n
      → v.length + 1 < rounds
      → (∃ q pa', trace t.action v p = some q
          ∧ t.scanForward (relBag (u ++ v)) (u ++ v).length rounds p pa (u.length + 2)
            = .ok (q, pa', (u ++ v).length + 2))
        ∨ ∃ v1 a v2 q, v = v1 ++ a :: v2 ∧ trace t.action v1 p = some q ∧ t.action a q = none
          ∧ t.scanForward (relBag (u ++ v)) (u ++ v).length rounds p pa (u.length + 2)
            = .ok (0, q, (u ++ v1).length + 2) := by
  induction v with
  | nil =>
    intro u p pa rounds _ hp hr
    left
    cases rounds with
    | zero => omega
    | succ rounds =>
      apply Exists.intro p
      apply Exists.intro pa
      constructor
      . rfl
      . unfold scanForward
        rw [if_neg (by simp)]
        simp
        rfl
  | cons a v ih =>
    intro u p pa rounds hmem hp hr
    cases rounds with
    | zero => omega
    | succ rounds =>
      have ha := hmem a (by simp)
      unfold scanForward
      rw [if_pos ⟨by omega, by simp⟩]
      rw [elmPlist_relBag, ok_bind]
      rw [hwf.elm_eq ha hp, ok_bind]
      by_cases hzero : t.entry a p = 0
      . right
        apply Exists.intro []
        apply Exists.intro a
        apply Exists.intro v
        apply Exists.intro p
        refine ⟨rfl, rfl, action_eq_none_iff.mpr hzero, ?_⟩
        rw [hzero, if_neg (by simp)]
        rw [append_nil]
        cases rounds with
        | zero => simp at hr
        | succ rounds =>
          unfold scanForward
          rw [if_neg (by simp)]
          rfl
      . rw [if_pos hzero]
        have hact : t.action a p = some (t.entry a p) := action_eq_some_iff.mpr ⟨rfl, hzero⟩
        have happ : u ++ a :: v = (u ++ [a]) ++ v := by
          simp
        have hlen : u.length + 2 + 1 = (u ++ [a]).length + 2 := by
          simp
        rw [happ, hlen]
        have := ih (u ++ [a]) (t.entry a p) p rounds
          (fun b hb => hmem b (by simp [hb])) (hwf.action_mem hact).2
          (by simp at hr; omega)
        cases this with
        | inl h =>
          left
          obtain ⟨q, pa', htr, hrun⟩ := h
          exact ⟨q, pa', by rw [trace_cons_of_some v hact]; exact htr, hrun⟩
        | inr h =>
          right
          obtain ⟨v1, b, v2, q, hv, htr, hb, hrun⟩ := h
          refine ⟨a :: v1, b, v2, q, by rw [hv]; rfl, ?_, hb, ?_⟩
          . rw [trace_cons_of_some v1 hact]
            exact htr
          . rw [hrun]
            simp

theorem scanBackward_spec (hwf : t.Wf m n) {u v : List Nat}
    : ∀ (x : List Nat) (p pb rounds : Nat), (∀ a ∈ v, 0 < a ∧ a ≤ 2 * m) → 0 < p ∧ p ≤ n
      → v.length + 1 < rounds
      → (∃ q pb', trace t.action (invWord invCol v) p = some q
          ∧ t.scanBackward (relBag (u ++ v ++ x)) (u.length + 2) rounds p pb
              ((u ++ v).length + 1)
            = .ok (q, pb', u.length + 1))
        ∨ ∃ v1 a v2 q, v = v1 ++ a :: v2 ∧ trace t.action (invWord invCol v2) p = some q
          ∧ t.action (invCol a) q = none
          ∧ t.scanBackward (relBag (u ++ v ++ x)) (u.length + 2) rounds p pb
              ((u ++ v).length + 1)
            = .ok (0, q, (u ++ v1).length + 2) := by
  induction v using List.reverseRecOn with
  | nil =>
    intro x p pb rounds _ hp hr
    left
    cases rounds with
    | zero => omega
    | succ rounds =>
      apply Exists.intro p
      apply Exists.intro pb
      constructor
      . rfl
      . unfold scanBackward
        rw [if_neg (by simp)]
        simp
        rfl
  | append_singleton v a ih =>
    intro x p pb rounds hmem hp hr
    cases rounds with
    | zero => omega
    | succ rounds =>
      have ha := invCol_mem (hmem a (by simp))
      have hj : (u ++ (v ++ [a])).length + 1 = (u ++ v).length + 2 := by
        simp
        omega
      have hbag : u ++ (v ++ [a]) ++ x = (u ++ v) ++ a :: x := by
        simp
      have hinv : invWord invCol (v ++ [a]) = invCol a :: invWord invCol v := by
        rw [invWord_append]
        rfl
      unfold scanBackward
      rw [hj, hbag]
      rw [if_pos ⟨by omega, by simp⟩]
      rw [elmPlist_relBag, ok_bind]
      have hcol : (if a % 2 = 1 then a + 1 else a - 1) = invCol a := rfl
      rw [hcol]
      rw [hwf.elm_eq ha hp, ok_bind]
      by_cases hzero : t.entry (invCol a) p = 0
      . right
        apply Exists.intro v
        apply Exists.intro a
        apply Exists.intro []
        apply Exists.intro p
        refine ⟨rfl, rfl, action_eq_none_iff.mpr hzero, ?_⟩
        rw [hzero, if_neg (by simp)]
        cases rounds with
        | zero => simp at hr
        | succ rounds =>
          unfold scanBackward
          rw [if_neg (by simp)]
          rfl
      . rw [if_pos hzero]
        have hact : t.action (invCol a) p = some (t.entry (invCol a) p) :=
          action_eq_some_iff.mpr ⟨rfl, hzero⟩
        have hlen : (u ++ v).length + 2 - 1 = (u ++ v).length + 1 := by
          omega
        rw [hlen]
        have := ih (a :: x) (t.entry (invCol a) p) p rounds
          (fun b hb => hmem b (by simp [hb])) (hwf.action_mem hact).2
          (by simp at hr; omega)
        cases this with
        | inl h =>
          left
          obtain ⟨q, pb', htr, hrun⟩ := h
          refine ⟨q, pb', ?_, hrun⟩
          rw [hinv, trace_cons_of_some _ hact]
          exact htr
        | inr h =>
          right
          obtain ⟨v1, b, v2, q, hv, htr, hb, hrun⟩ := h
          refine ⟨v1, b, v2 ++ [a], q, by rw [hv]; simp, ?_, hb, hrun⟩
          rw [invWord_append]
          exact trace_cons_of_some _ hact ▸ htr

structure Deduces (t t' : CosetTable) (w : List Nat) (p d x : Nat) : Prop where
  odd : x % 2 = 1
  mem : ∃ e, t'.action x d = some e ∧ Defines invCol t.action t'.action x d e
  scan : trace t'.action w p = some p
  forced : ∃ u v a q r, w = u ++ a :: v ∧ trace t.action u p = some q
    ∧ trace t.action v r = some p ∧ t'.action a q = some r
    ∧ Defines invCol t.action t'.action a q r

theorem relatorScan_spec (hwf : t.Wf m n) (hinv : Inverse invCol t.action) {w : List Nat}
    (hw : ∀ a ∈ w, 0 < a ∧ a ≤ 2 * m) (hp : 0 < p ∧ p ≤ n)
    : (t.relatorScan p (relBag w) = .ok .conflict ∧ Conflict invCol t.action w p)
      ∨ (t.relatorScan p (relBag w) = .ok .closed ∧ Closed invCol t.action w p)
      ∨ ∃ t' d x, t.relatorScan p (relBag w) = .ok (.deduction t' d x) ∧ t'.Wf m n
          ∧ Deduces t t' w p d x := by
  have hlen : elmPlist (relBag w) 1 = .ok w.length := rfl
  unfold relatorScan
  rw [hlen, ok_bind]
  have hforward := scanForward_spec hwf [] p 0 (w.length + 2) hw hp (by omega)
  cases hforward with
  | inl h =>
    obtain ⟨q, pa, htr, hrun⟩ := h
    rw [nil_append] at hrun
    rw [length_nil] at hrun
    rw [hrun, ok_bind]
    dsimp only
    rw [if_pos (by omega)]
    by_cases hq : q = p
    . right
      left
      rw [if_pos hq]
      rw [hq] at htr
      exact ⟨rfl, Closed.complete htr⟩
    . left
      rw [if_neg hq]
      exact ⟨rfl, Conflict.complete q htr hq⟩
  | inr h =>
    obtain ⟨u, a, v, q, huv, hu, ha, hrun⟩ := h
    rw [nil_append, length_nil] at hrun
    rw [hrun, ok_bind]
    dsimp only
    have hm : w.length = u.length + v.length + 1 := by
      rw [huv]
      simp
      omega
    rw [nil_append]
    rw [if_neg (by omega)]
    have hback := scanBackward_spec hwf (u := u) (v := a :: v) [] p 0 (w.length + 2)
      (fun b hb => hw b (by rw [huv]; simp at hb ⊢; tauto)) hp
      (by simp; omega)
    rw [append_nil] at hback
    rw [← huv] at hback
    cases hback with
    | inl h =>
      obtain ⟨r, pb, htr, hrun⟩ := h
      left
      rw [hrun, ok_bind]
      dsimp only
      rw [if_pos (by omega)]
      have hne : q ≠ r := by
        intro hqr
        rw [invWord_cons, trace_append, Option.bind_eq_some_iff] at htr
        rcases htr with ⟨s, htr⟩
        rw [trace_singleton] at htr
        have := hinv _ _ _ htr.2
        rw [involutive_invCol a, ← hqr, ha] at this
        cases this
      rw [if_neg (Ne.symm hne)]
      exact ⟨rfl, Conflict.meet u (a :: v) q r huv hu htr hne⟩
    | inr h =>
      obtain ⟨v1, b, v2, r, hv, hv2, hb, hrun⟩ := h
      right
      rw [hrun, ok_bind]
      rw [if_neg (by simp)]
      cases v1 with
      | cons a' v1 =>
        left
        rw [if_neg (by simp)]
        rw [cons_append, List.cons.injEq] at hv
        rw [hv.2] at huv
        exact ⟨rfl, Closed.gaps u v1 v2 a b q r huv hu ha hv2 hb⟩
      | nil =>
        right
        rw [nil_append, List.cons.injEq] at hv
        rcases hv with ⟨hab, hvv⟩
        subst hab hvv
        rw [append_nil]
        rw [if_pos rfl]
        have hget : elmPlist (relBag w) (u.length + 2) = .ok a := by
          rw [huv]
          apply elmPlist_relBag
        rw [hget, ok_bind]
        have hamem : 0 < a ∧ a ≤ 2 * m := hw a (by rw [huv]; simp)
        have hq : 0 < q ∧ q ≤ n := by
          have hmem := mem_of_trace hwf.action_dom hp hu
          exact hmem
        have hr : 0 < r ∧ r ≤ n := by
          have hmem := mem_of_trace hwf.action_dom hp hv2
          exact hmem
        obtain ⟨t', hset, hwf', hdef⟩ := setElm_setElm_spec hwf hamem hq hr ha hb
        have hvr := trace_of_invWord involutive_invCol hinv hv2
        have hscan : trace t'.action w p = some p := by
          rw [huv]
          rw [trace_append_of_some _ (hdef.extends.trace hu)]
          rw [trace_cons_of_some _ hdef.entry]
          exact hdef.extends.trace hvr
        have hforced : ∃ u v a q r, w = u ++ a :: v ∧ trace t.action u p = some q
            ∧ trace t.action v r = some p ∧ t'.action a q = some r
            ∧ Defines invCol t.action t'.action a q r :=
          ⟨u, v, a, q, r, huv, hu, hvr, hdef.entry, hdef⟩
        apply Exists.intro t'
        split
        . next heven =>
          have hcol : invCol a = a - 1 := if_neg (by omega)
          apply Exists.intro r
          apply Exists.intro (a - 1)
          rw [hcol] at hset
          constructor
          . rw [← bind_assoc, hset, ok_bind]
            rfl
          . apply And.intro hwf'
            constructor
            . omega
            . apply Exists.intro q
              rw [← hcol]
              exact ⟨hdef.entry_inv, hdef.symm involutive_invCol⟩
            . exact hscan
            . exact hforced
        . next hodd =>
          have hcol : invCol a = a + 1 := if_pos (by omega)
          apply Exists.intro q
          apply Exists.intro a
          rw [hcol] at hset
          constructor
          . rw [← bind_assoc, hset, ok_bind]
            rfl
          . apply And.intro hwf'
            constructor
            . omega
            . exact ⟨r, hdef.entry, hdef⟩
            . exact hscan
            . exact hforced

end CosetTable
