import GapKernel.FreeWord.Syllable
import Mathlib.Data.Prod.Lex
import Mathlib.Data.Fintype.Order

/-!
This module contains the length-plus-lexicographic order of a free group whose generators are
numbered, and the rules that decide it on reduced syllable words.
-/

open List

namespace FreeWord

def letterLt (x y : Nat × Bool) : Prop :=
  Prod.Lex (· < ·) (· < ·) x y

instance : IsWellOrder (Nat × Bool) letterLt :=
  inferInstanceAs (IsWellOrder _ (Prod.Lex (· < ·) (· < ·)))

instance : DecidableRel letterLt :=
  inferInstanceAs (DecidableRel (Prod.Lex (· < ·) (· < ·)))

def shortlexLt (x y : FreeGroup Nat) : Prop :=
  List.Shortlex letterLt x.toWord y.toWord

theorem shortlexLt_irrefl (x : FreeGroup Nat) : ¬ shortlexLt x x := by
  intro h
  exact asymm_of (List.Shortlex letterLt) h h

variable {x y : FreeGroup Nat}

theorem shortlexLt_asymm (h : shortlexLt x y) : ¬ shortlexLt y x := by
  exact asymm_of (List.Shortlex letterLt) h

theorem shortlexLt_trans {z : FreeGroup Nat} (hxy : shortlexLt x y) (hyz : shortlexLt y z)
    : shortlexLt x z := by
  simp only [shortlexLt, shortlex_def] at *
  cases hxy with
  | inl hxy =>
    left
    cases hyz with
    | inl hyz => omega
    | inr hyz => omega
  | inr hxy =>
    cases hyz with
    | inl hyz =>
      left
      omega
    | inr hyz =>
      right
      constructor
      . omega
      . exact lex_trans (fun h1 h2 => trans_of letterLt h1 h2) hxy.2 hyz.2

theorem shortlexLt_trichotomous (h1 : ¬ shortlexLt x y) (h2 : ¬ shortlexLt y x)
    : x = y := by
  apply FreeGroup.toWord_injective
  exact Std.Trichotomous.trichotomous (r := List.Shortlex letterLt) _ _ h1 h2

def WordLt (l r : List (Nat × Int)) : Prop :=
  List.Shortlex letterLt (letters l) (letters r)

variable {l r : List (Nat × Int)}

theorem shortlexLt_eval (hl : IsReduced l) (hr : IsReduced r)
    : shortlexLt (eval l) (eval r) ↔ WordLt l r := by
  unfold shortlexLt WordLt
  rw [toWord_eval hl, toWord_eval hr]

theorem shortlex_append_left (p s t : List (Nat × Bool))
    : List.Shortlex letterLt (p ++ s) (p ++ t) ↔ List.Shortlex letterLt s t := by
  induction p with
  | nil => simp
  | cons x p ih =>
    simp only [cons_append]
    rw [shortlex_cons_iff]
    exact ih

theorem wordLt_cons (s : Nat × Int) (l r : List (Nat × Int))
    : WordLt (s :: l) (s :: r) ↔ WordLt l r := by
  apply shortlex_append_left

@[simp]
theorem letterLt_of_gen_ne {x y : Nat × Bool} (h : x.1 ≠ y.1) : letterLt x y ↔ x.1 < y.1 := by
  simp [letterLt, Prod.lex_def, h]

@[simp]
theorem letterLt_sign (g : Nat) (a b : Bool) : letterLt (g, a) (g, b) ↔ a < b := by
  simp [letterLt, Prod.lex_def]

theorem shortlex_of_head_ne {l r : List (Nat × Bool)} {x y : Nat × Bool} (hl : l.head? = some x)
    (hr : r.head? = some y) (hxy : x ≠ y)
    : List.Shortlex letterLt l r
        ↔
      if l.length = r.length then letterLt x y else l.length < r.length := by
  obtain ⟨l, rfl⟩ := head?_eq_some_iff.mp hl
  obtain ⟨r, rfl⟩ := head?_eq_some_iff.mp hr
  rw [shortlex_def]
  split
  . next h =>
    simp only [h, Nat.lt_irrefl, true_and, false_or]
    constructor
    . intro hlex
      cases hlex with
      | rel h => exact h
      | cons h => exact absurd rfl hxy
    . intro h
      exact .rel h
  . next h =>
    simp only [h, false_and, or_false]

variable {t : Nat × Int}

theorem wordLt_of_gen_ne {s : Nat × Int} (hl : IsReduced (s :: l)) (hr : IsReduced (t :: r))
    (hst : s.1 ≠ t.1)
    : WordLt (s :: l) (t :: r)
        ↔
      if length (s :: l) = length (t :: r) then
        s.1 < t.1
      else
        length (s :: l) < length (t :: r) := by
  unfold WordLt
  rw [shortlex_of_head_ne (head_letters hl) (head_letters hr)]
  . simp only [length_letters]
    rw [letterLt_of_gen_ne]
    exact hst
  . intro h
    injection h with h
    exact hst h

variable {g : Nat} {a b : Int}

theorem wordLt_of_sign_ne (hl : IsReduced ((g, a) :: l)) (hr : IsReduced ((g, b) :: r))
    (hab : ¬ (0 < a ↔ 0 < b))
    : WordLt ((g, a) :: l) ((g, b) :: r)
        ↔
      if length ((g, a) :: l) = length ((g, b) :: r) then
        a < 0
      else
        length ((g, a) :: l) < length ((g, b) :: r) := by
  have ha := hl.head_ne
  have hb := hr.head_ne
  unfold WordLt
  rw [shortlex_of_head_ne (head_letters hl) (head_letters hr)]
  . simp only [length_letters, letterLt_sign, Bool.lt_iff, decide_eq_false_iff_not,
      decide_eq_true_eq]
    split
    . omega
    . rfl
  . simp only [ne_eq, Prod.mk.injEq, true_and, decide_eq_decide]
    exact hab

theorem wordLt_of_natAbs_gt (hr : IsReduced ((g, b) :: t :: r)) (hab : 0 < a ↔ 0 < b)
    (h : b.natAbs < a.natAbs)
    : WordLt ((g, a) :: l) ((g, b) :: t :: r)
        ↔
      if length ((g, a) :: l) = length ((g, b) :: t :: r) then
        g < t.1
      else
        length ((g, a) :: l) < length ((g, b) :: t :: r) := by
  unfold WordLt
  rw [letters_cons_of_le l hab (Nat.le_of_lt h), letters, shortlex_append_left]
  rw [shortlex_of_head_ne (x := (g, decide (0 < a))) (y := (t.1, decide (0 < t.2)))]
  . simp only [length_append, length_replicate, length_letters, length]
    rw [letterLt_of_gen_ne]
    . apply iff_of_eq
      congr 1
      . apply propext
        omega
      . apply propext
        omega
    . exact hr.gen_ne
  . have : a.natAbs - b.natAbs = (a.natAbs - b.natAbs - 1) + 1 := by omega
    rw [this]
    simp [replicate_succ]
  . exact head_letters hr.tail
  . intro heq
    injection heq with heq
    exact hr.gen_ne heq

theorem wordLt_of_natAbs_lt (hl : IsReduced ((g, a) :: t :: l)) (hab : 0 < a ↔ 0 < b)
    (h : a.natAbs < b.natAbs)
    : WordLt ((g, a) :: t :: l) ((g, b) :: r)
        ↔
      if length ((g, a) :: t :: l) = length ((g, b) :: r) then
        t.1 < g
      else
        length ((g, a) :: t :: l) < length ((g, b) :: r) := by
  unfold WordLt
  rw [letters_cons_of_le r hab.symm (Nat.le_of_lt h), letters, shortlex_append_left]
  rw [shortlex_of_head_ne (x := (t.1, decide (0 < t.2))) (y := (g, decide (0 < b)))]
  . simp only [length_append, length_replicate, length_letters, length]
    rw [letterLt_of_gen_ne]
    . apply iff_of_eq
      congr 1
      . apply propext
        omega
      . apply propext
        omega
    . exact hl.gen_ne.symm
  . exact head_letters hl.tail
  . have : b.natAbs - a.natAbs = (b.natAbs - a.natAbs - 1) + 1 := by omega
    rw [this]
    simp [replicate_succ]
  . intro heq
    injection heq with heq
    exact hl.gen_ne heq.symm

theorem wordLt_of_length_lt (h : length l < length r) : WordLt l r := by
  apply List.Shortlex.of_length_lt
  simpa using h

theorem not_wordLt_of_length_lt (h : length r < length l)
    : ¬ WordLt l r := by
  intro hlt
  simp only [WordLt, shortlex_def, length_letters] at hlt
  omega

end FreeWord
