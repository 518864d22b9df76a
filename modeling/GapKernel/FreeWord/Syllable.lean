import Mathlib.GroupTheory.FreeGroup.Reduce
import Mathlib.Data.List.Shortlex

/-!
This module contains words of a free group as lists of syllables, a syllable being a generator
together with an integer exponent.
-/

open List

namespace FreeWord

variable {α : Type*}

def eval (w : List (α × Int)) : FreeGroup α :=
  (w.map fun s => FreeGroup.of s.1 ^ s.2).prod

structure IsReduced (w : List (α × Int)) : Prop where
  exp_ne : ∀ s ∈ w, s.2 ≠ 0
  chain : w.IsChain (fun s t => s.1 ≠ t.1)

instance [DecidableEq α] (w : List (α × Int)) : Decidable (IsReduced w) :=
  decidable_of_iff ((∀ s ∈ w, s.2 ≠ 0) ∧ w.IsChain (fun s t => s.1 ≠ t.1))
    ⟨fun h => ⟨h.1, h.2⟩, fun h => ⟨h.exp_ne, h.chain⟩⟩

def letters (w : List (α × Int)) : List (α × Bool) :=
  match w with
  | [] => []
  | s :: w => List.replicate s.2.natAbs (s.1, decide (0 < s.2)) ++ letters w

def length (w : List (α × Int)) : Nat :=
  match w with
  | [] => 0
  | s :: w => s.2.natAbs + length w

@[simp]
theorem eval_nil : eval ([] : List (α × Int)) = 1 := by
  rfl

@[simp]
theorem eval_cons (s : α × Int) (w : List (α × Int))
    : eval (s :: w) = FreeGroup.of s.1 ^ s.2 * eval w := by
  simp [eval]

@[simp]
theorem eval_append (l r : List (α × Int)) : eval (l ++ r) = eval l * eval r := by
  simp [eval]

@[simp]
theorem letters_nil : letters ([] : List (α × Int)) = [] := by
  rfl

@[simp]
theorem length_letters (w : List (α × Int)) : (letters w).length = length w := by
  induction w with
  | nil => rfl
  | cons s w ih => simp [letters, length, ih]

namespace IsReduced

theorem nil : IsReduced ([] : List (α × Int)) where
  exp_ne := by simp
  chain := by simp

variable {s : α × Int} {w : List (α × Int)}

theorem tail (h : IsReduced (s :: w)) : IsReduced w where
  exp_ne := by
    intro t ht
    exact h.exp_ne t (by simp [ht])
  chain := h.chain.tail

theorem head_ne (h : IsReduced (s :: w)) : s.2 ≠ 0 := by
  exact h.exp_ne s (by simp)

theorem gen_ne {t : α × Int} (h : IsReduced (s :: t :: w))
    : s.1 ≠ t.1 := by
  exact (isChain_cons_cons.mp h.chain).1

theorem append_left {l r : List (α × Int)} (h : IsReduced (l ++ r)) : IsReduced l where
  exp_ne := by
    intro s hs
    exact h.exp_ne s (by simp [hs])
  chain := h.chain.left_of_append

theorem append_right {l r : List (α × Int)} (h : IsReduced (l ++ r)) : IsReduced r where
  exp_ne := by
    intro s hs
    exact h.exp_ne s (by simp [hs])
  chain := h.chain.right_of_append

end IsReduced

theorem mk_replicate (g : α) (b : Bool) (n : Nat)
    : FreeGroup.mk (replicate n (g, b))
        =
      FreeGroup.of g ^ (if b then (n : Int) else -(n : Int)) := by
  induction n with
  | zero => simp [FreeGroup.one_eq_mk]
  | succ n ih =>
    have : replicate (n + 1) (g, b) = [(g, b)] ++ replicate n (g, b) := by
      simp [replicate_succ]
    rw [this]
    rw [← FreeGroup.mul_mk]
    rw [ih]
    cases b with
    | true =>
      have hof : FreeGroup.mk [(g, true)] = FreeGroup.of g := by rfl
      rw [hof]
      simp only [↓reduceIte, zpow_natCast]
      rw [← pow_succ', ← zpow_natCast]
    | false =>
      have hof : FreeGroup.mk [(g, false)] = (FreeGroup.of g)⁻¹ := by rfl
      rw [hof]
      simp only [Bool.false_eq_true, ↓reduceIte, zpow_neg, zpow_natCast]
      rw [← mul_inv_rev, ← pow_succ, ← zpow_natCast]

theorem mk_letters (w : List (α × Int)) : FreeGroup.mk (letters w) = eval w := by
  induction w with
  | nil => rfl
  | cons s w ih =>
    simp only [letters, eval_cons]
    rw [← FreeGroup.mul_mk]
    rw [ih, mk_replicate]
    congr 2
    split
    . next h =>
      simp only [decide_eq_true_eq] at h
      omega
    . next h =>
      simp only [decide_eq_true_eq] at h
      omega

variable {w : List (α × Int)}

theorem head_letters {s : α × Int} (h : IsReduced (s :: w))
    : (letters (s :: w)).head? = some (s.1, decide (0 < s.2)) := by
  have := h.head_ne
  obtain ⟨n, hn⟩ : ∃ n, s.2.natAbs = n + 1 := ⟨s.2.natAbs - 1, by omega⟩
  simp [letters, hn, replicate_succ]

theorem isReduced_letters (h : IsReduced w)
    : FreeGroup.IsReduced (letters w) := by
  induction w with
  | nil => simp [FreeGroup.IsReduced]
  | cons s w ih =>
    simp only [letters, FreeGroup.IsReduced]
    rw [isChain_append]
    refine ⟨?_, ih h.tail, ?_⟩
    . apply isChain_replicate_of_rel
      simp
    . intro x hx y hy hxy
      cases w with
      | nil => simp at hy
      | cons t w =>
        rw [head_letters h.tail] at hy
        simp only [Option.mem_def, Option.some.injEq] at hy
        have hxs : x = (s.1, decide (0 < s.2)) := by
          apply eq_of_mem_replicate
          exact mem_of_getLast? hx
        subst hy hxs
        exact absurd hxy h.gen_ne

theorem toWord_eval [DecidableEq α] (h : IsReduced w)
    : (eval w).toWord = letters w := by
  rw [← mk_letters, FreeGroup.toWord_mk]
  exact (isReduced_letters h).reduce_eq

theorem letters_cons_of_le {g : α} {a b : Int} (w : List (α × Int)) (hab : 0 < a ↔ 0 < b)
    (h : b.natAbs ≤ a.natAbs)
    : letters ((g, a) :: w)
        =
      replicate b.natAbs (g, decide (0 < b))
        ++ (replicate (a.natAbs - b.natAbs) (g, decide (0 < a)) ++ letters w) := by
  have hsign : decide (0 < b) = decide (0 < a) := by
    simp [hab]
  rw [hsign, ← append_assoc, replicate_append_replicate]
  simp only [letters]
  congr 2
  omega

variable {l r : List (α × Int)}

theorem natAbs_le_of_letters {g : α} {a b : Int} (hr : IsReduced ((g, b) :: r))
    (hab : 0 < a ↔ 0 < b) (h : letters ((g, a) :: l) = letters ((g, b) :: r))
    : a.natAbs ≤ b.natAbs := by
  apply Nat.le_of_not_lt
  intro hlt
  rw [letters_cons_of_le l hab (Nat.le_of_lt hlt)] at h
  simp only [letters, append_cancel_left_eq] at h
  obtain ⟨n, hn⟩ : ∃ n, a.natAbs - b.natAbs = n + 1 := ⟨a.natAbs - b.natAbs - 1, by omega⟩
  rw [hn, replicate_succ] at h
  cases r with
  | nil => simp at h
  | cons u r =>
    have hhead := congrArg head? h
    rw [head_letters hr.tail] at hhead
    simp only [cons_append, head?_cons, Option.some.injEq, Prod.mk.injEq] at hhead
    exact hr.gen_ne hhead.1

theorem letters_injective (hl : IsReduced l) (hr : IsReduced r) (h : letters l = letters r)
    : l = r := by
  induction l generalizing r with
  | nil =>
    cases r with
    | nil => rfl
    | cons t r =>
      have := congrArg head? h
      rw [head_letters hr] at this
      simp at this
  | cons s l ih =>
    cases r with
    | nil =>
      have := congrArg head? h
      rw [head_letters hl] at this
      simp at this
    | cons t r =>
      have hhead := congrArg head? h
      rw [head_letters hl, head_letters hr] at hhead
      simp only [Option.some.injEq, Prod.mk.injEq, decide_eq_decide] at hhead
      obtain ⟨g, a⟩ := s
      obtain ⟨g', b⟩ := t
      obtain ⟨rfl, hab⟩ := hhead
      have hle := natAbs_le_of_letters hr hab h
      have hge := natAbs_le_of_letters hl hab.symm h.symm
      have ha := hl.head_ne
      have hb := hr.head_ne
      obtain rfl : a = b := by omega
      rw [ih hl.tail hr.tail]
      simpa [letters] using h

theorem eval_injective [DecidableEq α] (hl : IsReduced l) (hr : IsReduced r) (h : eval l = eval r)
    : l = r := by
  apply letters_injective hl hr
  rw [← toWord_eval hl, ← toWord_eval hr, h]

end FreeWord
