import Mathlib.Data.List.Infix
import Mathlib.Order.WellFounded

/-!
This module contains systems of rewriting rules for words: the steps, the irreducible words, and an
induction for the reduction of a word that is irreducible up to a position.
-/

namespace StringRewriting

variable {α : Type}

inductive Rewrites (rules : List (List α × List α)) : List α → List α → Prop
  | step {l r : List α} (u v : List α) (h : (l, r) ∈ rules)
    : Rewrites rules (u ++ l ++ v) (u ++ r ++ v)

def IsTerminating (rules : List (List α × List α)) : Prop :=
  WellFounded fun v w => Rewrites rules w v

def IsIrreducible (rules : List (List α × List α)) (w : List α) : Prop :=
  ∀ rule ∈ rules, ¬rule.1 <:+: w

variable {rules : List (List α × List α)} {w : List α}

theorem not_rewrites_of_isIrreducible (h : IsIrreducible rules w) (v : List α)
    : ¬Rewrites rules w v := by
  rintro ⟨u, v, hrule⟩
  exact h _ hrule ⟨u, v, rfl⟩

theorem isIrreducible_concat {x : α} (h : IsIrreducible rules w)
    (hx : ∀ rule ∈ rules, ¬rule.1 <:+ w ++ [x]) : IsIrreducible rules (w ++ [x]) := by
  intro rule hrule hinner
  rw [List.infix_concat_iff] at hinner
  cases hinner with
  | inl hsuffix => exact hx rule hrule hsuffix
  | inr hinner => exact h rule hrule hinner

variable {v : List α}

theorem IsIrreducible.of_prefix (h : IsIrreducible rules w) (hv : v <+: w)
    : IsIrreducible rules v := by
  intro rule hrule hinner
  exact h rule hrule (hinner.trans hv.isInfix)

theorem isIrreducible_nil (hne : ∀ rule ∈ rules, rule.1 ≠ []) : IsIrreducible rules [] := by
  intro rule hrule hinner
  exact hne rule hrule (List.infix_nil.mp hinner)

/--
The induction for a scan from the left: it holds of a word that is irreducible up to a position if
it holds of the word with the next position, and if it holds of every word with one step less to go.
-/
theorem IsTerminating.scan_induction (hwf : IsTerminating rules) {P : List α → Nat → Prop}
    (hend : ∀ w i, w.length < i → P w i)
    (hscan : ∀ w i, i ≤ w.length → P w (i + 1) → (∀ v j, Rewrites rules w v → P v j) → P w i)
    (w : List α) (i : Nat) : P w i := by
  induction w using hwf.induction generalizing i with
  | _ w ihw =>
    generalize hk : w.length + 1 - i = k
    induction k generalizing i with
    | zero => exact hend w i (by omega)
    | succ k ihk =>
      exact hscan w i (by omega) (ihk (i + 1) (by omega)) fun v j hv => ihw v hv j

theorem isTerminating_of_length (h : ∀ rule ∈ rules, rule.2.length < rule.1.length)
    : IsTerminating rules := by
  apply Subrelation.wf _ (measure List.length).wf
  intro v w hstep
  cases hstep with
  | step u u' hrule =>
    have hlt := h _ hrule
    dsimp only at hlt
    change List.length _ < List.length _
    simp only [List.length_append]
    omega

def IsConfluent (rules : List (List α × List α)) : Prop :=
  ∀ w u v, Relation.ReflTransGen (Rewrites rules) w u → Relation.ReflTransGen (Rewrites rules) w v
    → ∃ x, Relation.ReflTransGen (Rewrites rules) u x
      ∧ Relation.ReflTransGen (Rewrites rules) v x

theorem IsIrreducible.eq_of_reaches (h : IsIrreducible rules w)
    (hv : Relation.ReflTransGen (Rewrites rules) w v) : v = w := by
  cases Relation.ReflTransGen.cases_head hv with
  | inl heq => exact heq.symm
  | inr hstep =>
    obtain ⟨u, hu, _⟩ := hstep
    exact absurd hu (not_rewrites_of_isIrreducible h u)

theorem IsConfluent.unique (hconf : IsConfluent rules) {u : List α}
    (hu : Relation.ReflTransGen (Rewrites rules) w u) (hirr : IsIrreducible rules u)
    (hv : Relation.ReflTransGen (Rewrites rules) w v) (hirr' : IsIrreducible rules v) : u = v := by
  obtain ⟨x, hx, hx'⟩ := hconf w u v hu hv
  rw [← hirr.eq_of_reaches hx, hirr'.eq_of_reaches hx']

end StringRewriting
