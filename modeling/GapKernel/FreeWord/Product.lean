import GapKernel.FreeWord.Syllable
import Mathlib.Algebra.Group.Conj

/-!
This module contains the arithmetic of reduced words: the inverse of a word and the product of two
words, which cancels at the meeting point and merges the syllables that meet there.
-/

open List Option

namespace FreeWord

variable {α : Type*}

def neg (s : α × Int) : α × Int :=
  (s.1, -s.2)

def inv (w : List (α × Int)) : List (α × Int) :=
  (w.map neg).reverse

@[simp]
theorem neg_neg (s : α × Int) : neg (neg s) = s := by
  simp [neg]

@[simp]
theorem inv_nil : inv ([] : List (α × Int)) = [] := by
  rfl

theorem inv_cons (s : α × Int) (w : List (α × Int)) : inv (s :: w) = inv w ++ [neg s] := by
  simp [inv]

theorem inv_append (l r : List (α × Int)) : inv (l ++ r) = inv r ++ inv l := by
  simp [inv]

@[simp]
theorem inv_inv (w : List (α × Int)) : inv (inv w) = w := by
  simp [inv, Function.comp_def]

@[simp]
theorem eval_inv (w : List (α × Int)) : eval (inv w) = (eval w)⁻¹ := by
  induction w with
  | nil => simp
  | cons s w ih => simp [inv_cons, ih, neg]

variable {w : List (α × Int)}

theorem isReduced_cons {s : α × Int}
    : IsReduced (s :: w) ↔ s.2 ≠ 0 ∧ (∀ t ∈ w.head?, s.1 ≠ t.1) ∧ IsReduced w := by
  constructor
  . intro h
    exact ⟨h.head_ne, (isChain_cons.mp h.chain).1, h.tail⟩
  . intro ⟨hs, hhead, hw⟩
    constructor
    . intro t ht
      cases ht with
      | head => exact hs
      | tail _ ht => exact hw.exp_ne t ht
    . exact isChain_cons.mpr ⟨hhead, hw.chain⟩

variable {l r : List (α × Int)}

theorem isReduced_append
    : IsReduced (l ++ r)
        ↔
      IsReduced l ∧ IsReduced r ∧ ∀ s ∈ l.getLast?, ∀ t ∈ r.head?, s.1 ≠ t.1 := by
  constructor
  . intro h
    exact ⟨h.append_left, h.append_right, (isChain_append.mp h.chain).2.2⟩
  . intro ⟨hl, hr, hmeet⟩
    constructor
    . intro s hs
      cases mem_append.mp hs with
      | inl hs => exact hl.exp_ne s hs
      | inr hs => exact hr.exp_ne s hs
    . exact isChain_append.mpr ⟨hl.chain, hr.chain, hmeet⟩

theorem isReduced_reverse : IsReduced w.reverse ↔ IsReduced w := by
  constructor
  . intro h
    constructor
    . intro s hs
      exact h.exp_ne s (by simp [hs])
    . exact (isChain_reverse.mp h.chain).imp fun _ _ h => h.symm
  . intro h
    constructor
    . intro s hs
      exact h.exp_ne s (by simpa using hs)
    . exact isChain_reverse.mpr (h.chain.imp fun _ _ h => h.symm)

theorem isReduced_reverse_append
    : IsReduced (l.reverse ++ r)
        ↔
      IsReduced l ∧ IsReduced r ∧ ∀ s ∈ l.head?, ∀ t ∈ r.head?, s.1 ≠ t.1 := by
  rw [isReduced_append, isReduced_reverse, getLast?_reverse]

theorem IsReduced.suffix {v : List (α × Int)} (h : IsReduced w) (hsuffix : v <:+ w)
    : IsReduced v := by
  obtain ⟨u, rfl⟩ := hsuffix
  exact h.append_right

theorem isReduced_map_neg (h : IsReduced w) : IsReduced (w.map neg) where
  exp_ne := by
    intro s hs
    obtain ⟨t, ht, rfl⟩ := mem_map.mp hs
    have := h.exp_ne t ht
    simpa [neg] using this
  chain := by
    rw [isChain_map]
    exact h.chain

theorem IsReduced.inv (h : IsReduced w) : IsReduced (inv w) := by
  exact isReduced_reverse.mpr (isReduced_map_neg h)

variable [DecidableEq α]

def cancel (l r : List (α × Int)) : List (α × Int) × List (α × Int) :=
  match l, r with
  | s :: l, t :: r => if s.1 = t.1 ∧ s.2 + t.2 = 0 then cancel l r else (s :: l, t :: r)
  | l, r => (l, r)

/--
Puts two words together and merges the syllables that meet, the first word is given last syllable
first.
-/
def join (l r : List (α × Int)) : List (α × Int) :=
  match l, r with
  | s :: l, t :: r =>
    if s.1 = t.1 then
      l.reverse ++ (s.1, s.2 + t.2) :: r
    else
      l.reverse ++ s :: t :: r
  | l, r => l.reverse ++ r

def mul (l r : List (α × Int)) : List (α × Int) :=
  join (cancel l.reverse r).1 (cancel l.reverse r).2

theorem eval_cancel (l r : List (α × Int))
    : eval (cancel l r).1.reverse * eval (cancel l r).2 = eval l.reverse * eval r := by
  fun_induction cancel l r with
  | case1 s l t r h ih =>
    rw [ih]
    have : FreeGroup.of s.1 ^ s.2 * FreeGroup.of t.1 ^ t.2 = 1 := by
      rw [h.1, ← zpow_add, h.2, zpow_zero]
    simp only [reverse_cons, eval_append, eval_cons, eval_nil, mul_one]
    rw [mul_assoc, ← mul_assoc (FreeGroup.of s.1 ^ s.2), this, one_mul]
  | case2 s l t r h => rfl
  | case3 l r h => rfl

theorem cancel_suffix (l r : List (α × Int))
    : (cancel l r).1 <:+ l ∧ (cancel l r).2 <:+ r := by
  fun_induction cancel l r with
  | case1 s l t r h ih =>
    constructor
    . exact ih.1.trans (suffix_cons s l)
    . exact ih.2.trans (suffix_cons t r)
  | case2 s l t r h => simp
  | case3 l r h => simp

theorem cancel_meet {l' r' : List (α × Int)} {s t : α × Int} (h : cancel l r = (s :: l', t :: r'))
    (hgen : s.1 = t.1)
    : s.2 + t.2 ≠ 0 := by
  fun_induction cancel l r with
  | case1 s l t r _ ih => exact ih h
  | case2 s l t r hne =>
    obtain ⟨⟨rfl, _⟩, ⟨rfl, _⟩⟩ := h
    intro hzero
    exact hne ⟨hgen, hzero⟩
  | case3 l r hnil =>
    simp only [Prod.mk.injEq] at h
    exact absurd h.2 (hnil _ _ _ _ h.1)

theorem eval_join (l r : List (α × Int)) : eval (join l r) = eval l.reverse * eval r := by
  fun_cases join l r with
  | case1 s l t r hgen => simp [hgen, zpow_add, mul_assoc]
  | case2 s l t r hgen => simp [mul_assoc]
  | case3 l r => simp

theorem isReduced_join (hl : IsReduced l) (hr : IsReduced r)
    (hmeet : ∀ s ∈ l.head?, ∀ t ∈ r.head?, s.1 = t.1 → s.2 + t.2 ≠ 0)
    : IsReduced (join l r) := by
  fun_cases join l r with
  | case1 s l t r hgen =>
    rw [isReduced_cons] at hl hr
    rw [isReduced_reverse_append, isReduced_cons]
    refine ⟨hl.2.2, ⟨hmeet s rfl t rfl hgen, ?_, hr.2.2⟩, ?_⟩
    . intro u hu
      rw [hgen]
      exact hr.2.1 u hu
    . intro u hu v hv
      simp only [head?_cons, mem_def, Option.some.injEq] at hv
      subst hv
      exact (hl.2.1 u hu).symm
  | case2 s l t r hgen =>
    have : l.reverse ++ s :: t :: r = (s :: l).reverse ++ t :: r := by simp
    rw [this, isReduced_reverse_append]
    refine ⟨hl, hr, ?_⟩
    simpa using hgen
  | case3 l r hnil =>
    rw [isReduced_reverse_append]
    refine ⟨hl, hr, ?_⟩
    intro s hs t ht
    obtain ⟨l', rfl⟩ := head?_eq_some_iff.mp hs
    obtain ⟨r', rfl⟩ := head?_eq_some_iff.mp ht
    exact absurd rfl (hnil s l' t r' rfl)

@[simp]
theorem eval_mul (l r : List (α × Int)) : eval (mul l r) = eval l * eval r := by
  unfold mul
  rw [eval_join, eval_cancel, reverse_reverse]

theorem isReduced_mul (hl : IsReduced l) (hr : IsReduced r)
    : IsReduced (mul l r) := by
  obtain ⟨hsl, hsr⟩ := cancel_suffix l.reverse r
  unfold mul
  apply isReduced_join
  . exact (isReduced_reverse.mpr hl).suffix hsl
  . exact hr.suffix hsr
  . intro s hs t ht hgen
    obtain ⟨l', hl'⟩ := head?_eq_some_iff.mp hs
    obtain ⟨r', hr'⟩ := head?_eq_some_iff.mp ht
    exact cancel_meet (Prod.ext hl' hr') hgen

end FreeWord

namespace FreeWord

variable {α : Type*}

def IsOpen (c : List (α × Int)) : Prop :=
  c ≠ [] ∧ ∀ s ∈ c.head?, ∀ t ∈ c.getLast?, ¬(s.1 = t.1 ∧ s.2 + t.2 = 0)

variable {c : List (α × Int)}

theorem ends_inv (h : ∀ s ∈ c.getLast?, ∀ t ∈ c.head?, s.1 ≠ t.1)
    : ∀ s ∈ (inv c).getLast?, ∀ t ∈ (inv c).head?, s.1 ≠ t.1 := by
  intro s hs t ht
  rw [inv, getLast?_reverse, head?_map, mem_def, map_eq_some_iff] at hs
  rw [inv, head?_reverse, getLast?_map, mem_def, map_eq_some_iff] at ht
  obtain ⟨s', hs', rfl⟩ := hs
  obtain ⟨t', ht', rfl⟩ := ht
  exact (h t' ht' s' hs').symm

theorem IsOpen.inv (h : IsOpen c) : IsOpen (inv c) := by
  constructor
  . have := h.1
    simpa [FreeWord.inv] using this
  . intro s hs t ht
    rw [FreeWord.inv, head?_reverse, getLast?_map, mem_def,
      map_eq_some_iff] at hs
    rw [FreeWord.inv, getLast?_reverse, head?_map, mem_def,
      map_eq_some_iff] at ht
    obtain ⟨s', hs', rfl⟩ := hs
    obtain ⟨t', ht', rfl⟩ := ht
    intro ⟨hgen, hsum⟩
    apply h.2 t' ht' s' hs'
    dsimp only [neg] at *
    constructor
    . exact hgen.symm
    . omega

theorem conj_of_not_isOpen {l : List (α × Int)} (h : IsReduced l) (hne : l ≠ [])
    (hopen : ¬IsOpen l)
    : ∃ s m, l = s :: m ++ [neg s] ∧ m ≠ [] := by
  simp only [IsOpen, hne, ne_eq, not_false_eq_true, true_and, not_forall, not_not] at hopen
  obtain ⟨s, hs, t, ht, hgen, hsum⟩ := hopen
  obtain ⟨l, rfl⟩ := head?_eq_some_iff.mp hs
  rcases eq_nil_or_concat l with rfl | ⟨m, u, rfl⟩
  . simp only [getLast?_singleton, mem_def, Option.some.injEq] at ht
    have := h.head_ne
    subst ht
    omega
  . rw [concat_eq_append, ← cons_append, getLast?_concat] at ht
    simp only [mem_def, Option.some.injEq] at ht
    subst ht
    have hneg : u = neg s := by
      apply Prod.ext
      . exact hgen.symm
      . dsimp only [neg]
        omega
    subst hneg
    refine ⟨s, m, by simp, ?_⟩
    rintro rfl
    exact h.gen_ne hgen

theorem exists_conj {l : List (α × Int)} (h : IsReduced l) (hne : l ≠ [])
    : ∃ w c, l = w ++ c ++ inv w ∧ IsOpen c := by
  by_cases hopen : IsOpen l
  . exact ⟨[], l, by simp, hopen⟩
  . obtain ⟨s, m, rfl, hm⟩ := conj_of_not_isOpen h hne hopen
    have hred : IsReduced m := by
      rw [cons_append, isReduced_cons] at h
      exact h.2.2.append_left
    obtain ⟨w, c, rfl, hc⟩ := exists_conj hred hm
    refine ⟨s :: w, c, ?_, hc⟩
    simp [inv_cons]
termination_by l.length
decreasing_by
  subst_vars
  simp only [length_append, length_cons]
  omega

def stem [DecidableEq α] (l r : List (α × Int)) : Nat :=
  match l, r with
  | s :: l, t :: r => if s.1 = t.1 ∧ s.2 + t.2 = 0 then stem l r + 1 else 0
  | _, _ => 0

theorem stem_append [DecidableEq α] (w x y : List (α × Int)) (hc : IsOpen c)
    : stem (w ++ (c ++ x)) (w.map neg ++ (c.reverse ++ y)) = w.length := by
  induction w with
  | nil =>
    obtain ⟨hne, hopen⟩ := hc
    obtain ⟨s, l, hl⟩ := exists_cons_of_ne_nil hne
    obtain ⟨r, t, hr⟩ := (eq_nil_or_concat' c).resolve_left hne
    have := hopen s (by simp [hl]) t (by simp [hr])
    have hrev : c.reverse = t :: r.reverse := by simp [hr]
    rw [hrev, hl]
    simp [stem, this]
  | cons s w ih => simp [stem, neg, ih]

theorem stem_conj [DecidableEq α] (w : List (α × Int)) (hc : IsOpen c)
    : stem (w ++ c ++ inv w) (w ++ c ++ inv w).reverse = w.length := by
  have := stem_append w (inv w) w.reverse hc
  simpa [inv] using this

@[simp]
theorem eval_conj (w c : List (α × Int))
    : eval (w ++ c ++ inv w) = eval w * eval c * (eval w)⁻¹ := by
  simp [mul_assoc]

theorem inv_conj (w c : List (α × Int)) : inv (w ++ c ++ inv w) = w ++ inv c ++ inv w := by
  simp [inv_append]

variable {w : List (α × Int)}

theorem IsReduced.infix {u v : List (α × Int)} (h : IsReduced (u ++ v ++ w)) : IsReduced v := by
  exact h.append_left.append_right

theorem gen_of_map_fst {l r : Option (α × Int)} (h : l.map Prod.fst = r.map Prod.fst)
    : ∀ s ∈ l, ∃ t ∈ r, s.1 = t.1 := by
  intro s hs
  rw [mem_def] at hs
  subst hs
  cases r with
  | none => simp at h
  | some t => simpa using h

theorem IsReduced.replace {c' v : List (α × Int)} (h : IsReduced (w ++ c ++ v)) (hc : IsReduced c')
    (hhead : c'.head?.map Prod.fst = c.head?.map Prod.fst)
    (hlast : c'.getLast?.map Prod.fst = c.getLast?.map Prod.fst) (hne : c ≠ [])
    : IsReduced (w ++ c' ++ v) := by
  have hne' : c' ≠ [] := by
    rintro rfl
    simp only [head?_nil, map_none] at hhead
    rw [eq_comm, map_eq_none_iff, head?_eq_none_iff] at hhead
    exact hne hhead
  rw [append_assoc, isReduced_append, isReduced_append] at h ⊢
  rw [head?_append_of_ne_nil _ hne] at h
  rw [head?_append_of_ne_nil _ hne']
  obtain ⟨hw, ⟨_, hv, hcv⟩, hwc⟩ := h
  refine ⟨hw, ⟨hc, hv, ?_⟩, ?_⟩
  . intro s hs t ht
    obtain ⟨u, hu, hsu⟩ := gen_of_map_fst hlast s hs
    rw [hsu]
    exact hcv u hu t ht
  . intro s hs t ht
    obtain ⟨u, hu, htu⟩ := gen_of_map_fst hhead t ht
    rw [htu]
    exact hwc s hs u hu

theorem eval_flatten_replicate (n : Nat) (c : List (α × Int))
    : eval (replicate n c).flatten = eval c ^ n := by
  induction n with
  | zero => simp
  | succ n ih =>
    simp [replicate_succ, ih, pow_succ']

theorem isReduced_flatten_replicate (hc : IsReduced c)
    (hne : ∀ s ∈ c.getLast?, ∀ t ∈ c.head?, s.1 ≠ t.1) (n : Nat)
    : IsReduced (replicate n c).flatten := by
  induction n with
  | zero =>
    exact IsReduced.nil
  | succ n ih =>
    rw [replicate_succ, flatten_cons, isReduced_append]
    refine ⟨hc, ih, ?_⟩
    intro s hs t ht
    cases n with
    | zero => simp at ht
    | succ n =>
      rw [replicate_succ, flatten_cons, head?_append_of_ne_nil] at ht
      . exact hne s hs t ht
      . rintro rfl
        simp at hs

def mergedPower (s m s' : α × Int) (t : List (α × Int)) (n : Nat) : List (α × Int) :=
  s :: (List.replicate n (t ++ [m])).flatten ++ t ++ [s']

theorem eval_mergedPower {s s' : α × Int} (hgen : s.1 = s'.1) (t : List (α × Int)) (n : Nat)
    : eval (mergedPower s (s.1, s.2 + s'.2) s' t n) = eval (s :: t ++ [s']) ^ (n + 1) := by
  have hm : FreeGroup.of s.1 ^ (s.2 + s'.2) = FreeGroup.of s'.1 ^ s'.2 * FreeGroup.of s.1 ^ s.2 := by
    rw [hgen, ← zpow_add, add_comm]
  simp only [mergedPower, cons_append, eval_cons, eval_append, eval_nil, mul_one,
    eval_flatten_replicate, hm]
  generalize FreeGroup.of s.1 ^ s.2 = x
  generalize FreeGroup.of s'.1 ^ s'.2 = y
  generalize eval t = z
  -- `x * (z * (y * x)) ^ n * z * y = (x * z * y) ^ (n + 1)`
  induction n with
  | zero => simp
  | succ n ih =>
    rw [pow_succ' _ (n + 1), ← ih, pow_succ']
    simp only [mul_assoc]

theorem isReduced_mergedPower {s s' : α × Int} {t : List (α × Int)} (hgen : s.1 = s'.1)
    (hne : s.2 + s'.2 ≠ 0) (h : IsReduced (s :: t ++ [s'])) (n : Nat)
    : IsReduced (mergedPower s (s.1, s.2 + s'.2) s' t n) := by
  have ht : t ≠ [] := by
    rintro rfl
    exact h.gen_ne hgen
  obtain ⟨u, t', rfl⟩ := exists_cons_of_ne_nil ht
  have hsu := h.gen_ne
  have htail : IsReduced (u :: t' ++ [s']) := h.tail
  have hperiod : IsReduced (u :: t' ++ [(s.1, s.2 + s'.2)]) := by
    rw [isReduced_append] at htail ⊢
    refine ⟨htail.1, ?_, ?_⟩
    . simpa [isReduced_cons, IsReduced.nil] using hne
    . intro v hv w hw
      simp only [head?_cons, mem_def, Option.some.injEq] at hw
      subst hw
      rw [hgen]
      exact htail.2.2 v hv s' rfl
  have hhead : ∀ n, ((replicate n (u :: t' ++ [(s.1, s.2 + s'.2)])).flatten
      ++ (u :: t' ++ [s'])).head? = some u := by
    intro n
    cases n with
    | zero => rfl
    | succ n => rfl
  -- What follows the first syllable is reduced.
  have hrest : IsReduced ((replicate n (u :: t' ++ [(s.1, s.2 + s'.2)])).flatten
      ++ (u :: t' ++ [s'])) := by
    induction n with
    | zero => simpa using htail
    | succ n ih =>
      rw [replicate_succ, flatten_cons, append_assoc, isReduced_append]
      refine ⟨hperiod, ih, ?_⟩
      intro v hv w hw
      rw [getLast?_concat] at hv
      rw [hhead n] at hw
      simp only [mem_def, Option.some.injEq] at hv hw
      subst hv hw
      exact hsu
  unfold mergedPower
  rw [cons_append, cons_append, append_assoc, isReduced_cons, hhead n]
  refine ⟨h.head_ne, ?_, hrest⟩
  simpa using hsu

theorem eval_conj_syllable (w : List (α × Int)) (g : α) (e n : Int)
    : eval (w ++ [(g, e * n)] ++ inv w) = eval (w ++ [(g, e)] ++ inv w) ^ n := by
  rw [eval_conj, eval_conj, conj_zpow]
  simp [zpow_mul]

theorem eval_conj_pow {c' : List (α × Int)} {n : Nat} (h : eval c' = eval c ^ n)
    : eval (w ++ c' ++ inv w) = eval (w ++ c ++ inv w) ^ n := by
  rw [eval_conj, eval_conj, conj_pow, h]

end FreeWord
