import Mathlib.Data.List.Range
import Mathlib.Data.Set.Function
import Mathlib.Order.Interval.Set.Basic

/-!
This module contains words in which the numbers 2, 3, … occur for the first time in increasing
order, and tables of functions whose rows are such a word.
-/

open List Nat

namespace StandardOrder

def InOrder (l : List Nat) : Prop :=
  ∀ pre x post, l = pre ++ x :: post → ∀ y, 1 < y → y < x → y ∈ pre

theorem inOrder_nil : InOrder [] := by
  intro pre x post h
  simp at h

variable {l : List Nat}

theorem InOrder.left {r : List Nat} (h : InOrder (l ++ r)) : InOrder l := by
  intro pre x post heq
  apply h pre x (post ++ r)
  rw [heq, append_assoc, cons_append]

theorem InOrder.concat {x : Nat} (h : InOrder l) (hx : ∀ y, 1 < y → y < x → y ∈ l)
    : InOrder (l ++ [x]) := by
  intro pre z post heq
  rcases eq_nil_or_concat post with rfl | ⟨post', z', rfl⟩
  . obtain ⟨rfl, hz⟩ := append_inj' heq rfl
    cases hz
    exact hx
  . rw [concat_eq_append, ← cons_append, ← append_assoc] at heq
    obtain ⟨hl, -⟩ := append_inj' heq rfl
    exact h pre z post' hl

theorem InOrder.exists_next (h : InOrder l) {m : Nat} (hm : 0 < m) (hex : ∃ x ∈ l, m < x)
    : ∃ pre post, l = pre ++ (m + 1) :: post ∧ ∀ x ∈ pre, x ≤ m := by
  induction l using List.reverseRecOn with
  | nil => simp at hex
  | append_singleton l x ih =>
    by_cases hl : ∃ x ∈ l, m < x
    . obtain ⟨pre, post, rfl, hpre⟩ := ih h.left hl
      exact ⟨pre, post ++ [x], by simp, hpre⟩
    . have hle : ∀ y ∈ l, y ≤ m := fun y hy => Nat.le_of_not_lt fun hlt => hl ⟨y, hy, hlt⟩
      obtain ⟨y, hy, hlt⟩ := hex
      have hyx : y = x := by
        rcases mem_append.mp hy with hy | hy
        . exact absurd (hle y hy) (Nat.not_le.mpr hlt)
        . exact mem_singleton.mp hy
      subst hyx
      have hnext : y = m + 1 := by
        by_contra hne
        have hmem := h l y [] rfl (m + 1) (by omega) (by omega)
        exact absurd (hle _ hmem) (not_succ_le_self m)
      subst hnext
      exact ⟨l, [], rfl, hle⟩

variable {cols cols' : List (Nat → Nat)} {n m : Nat} {σ : Nat → Nat}

def scanWord (cols : List (Nat → Nat)) (n : Nat) : List Nat :=
  (List.range' 1 n).flatMap fun a => cols.map fun g => g a

theorem scanWord_succ (cols : List (Nat → Nat)) (n : Nat)
    : scanWord cols (n + 1) = scanWord cols n ++ cols.map fun g => g (n + 1) := by
  unfold scanWord
  rw [range'_concat, flatMap_append, flatMap_singleton, Nat.one_mul, Nat.add_comm 1]

theorem mem_scanWord {x : Nat}
    : x ∈ scanWord cols n ↔ ∃ a, 0 < a ∧ a ≤ n ∧ ∃ g ∈ cols, g a = x := by
  unfold scanWord
  simp only [mem_flatMap, mem_range'_1, mem_map]
  constructor
  . rintro ⟨a, ⟨h1, h2⟩, hg⟩
    exact ⟨a, h1, by omega, hg⟩
  . rintro ⟨a, h1, h2, hg⟩
    exact ⟨a, ⟨h1, by omega⟩, hg⟩

theorem scanWord_of_le (h : m ≤ n) : ∃ r, scanWord cols n = scanWord cols m ++ r := by
  induction n with
  | zero =>
    obtain rfl := le_zero.mp h
    exact ⟨[], by simp⟩
  | succ n ih =>
    rcases le_succ_iff.mp h with hle | rfl
    . obtain ⟨r, hr⟩ := ih hle
      rw [scanWord_succ, hr, append_assoc]
      exact ⟨_, rfl⟩
    . exact ⟨[], by simp⟩

def Intertwines (n : Nat) (σ : Nat → Nat) (cols cols' : List (Nat → Nat)) : Prop :=
  List.Forall₂ (fun g g' => ∀ c, 0 < c → c ≤ n → g' (σ c) = σ (g c)) cols cols'

theorem Intertwines.map_row (h : Intertwines n σ cols cols') {a : Nat} (h0 : 0 < a) (ha : a ≤ n)
    (hfix : σ a = a) : (cols'.map fun g => g a) = (cols.map fun g => g a).map σ := by
  induction h with
  | nil => rfl
  | cons hg _ ih =>
    rw [map_cons, map_cons, map_cons, ih, ← hg a h0 ha, hfix]

theorem Intertwines.scanWord_eq (h : Intertwines n σ cols cols') (hm : m ≤ n)
    (hfix : ∀ a, 0 < a → a ≤ m → σ a = a) : scanWord cols' m = (scanWord cols m).map σ := by
  induction m with
  | zero => rfl
  | succ m ih =>
    rw [scanWord_succ, scanWord_succ, map_append,
      ih (by omega) (fun a h0 ha => hfix a h0 (le_succ_of_le ha)),
      h.map_row (succ_pos m) hm (hfix _ (succ_pos m) (Nat.le_refl _))]

def LeavesSegments (n : Nat) (cols : List (Nat → Nat)) : Prop :=
  ∀ m, 0 < m → m < n → ∃ a, 0 < a ∧ a ≤ m ∧ ∃ g ∈ cols, m < g a

theorem eq_of_inOrder (h : Intertwines n σ cols cols') (hseg : LeavesSegments n cols)
    (hpos : ∀ x ∈ scanWord cols n, 0 < x) (hone : σ 1 = 1) (hinj : Set.InjOn σ (Set.Icc 1 n))
    (hmaps : Set.MapsTo σ (Set.Icc 1 n) (Set.Icc 1 n)) (hcols : InOrder (scanWord cols n))
    (hcols' : InOrder (scanWord cols' n)) {c : Nat} (h0 : 0 < c) (hc : c ≤ n) : σ c = c := by
  have hall : ∀ m, 0 < m → m ≤ n → ∀ a, 0 < a → a ≤ m → σ a = a := by
    intro m h0 hm
    induction m with
    | zero => exact absurd h0 (Nat.lt_irrefl 0)
    | succ m ih =>
      rcases Nat.eq_zero_or_pos m with rfl | hm0
      . intro a ha0 ha
        rw [show a = 1 by omega, hone]
      have hfix := ih hm0 (by omega)
      have hin {cols : List (Nat → Nat)} (h : InOrder (scanWord cols n))
          : InOrder (scanWord cols m) := by
        obtain ⟨r, hr⟩ := @scanWord_of_le cols n m (by omega)
        rw [hr] at h
        exact h.left
      obtain ⟨a, ha0, ha, g, hg, hlt⟩ := hseg m hm0 (by omega)
      obtain ⟨pre, post, heq, hpre⟩ :=
        (hin hcols).exists_next hm0 ⟨g a, mem_scanWord.mpr ⟨a, ha0, ha, g, hg, rfl⟩, hlt⟩
      have heq' := h.scanWord_eq (by omega) hfix
      rw [heq, map_append, map_cons] at heq'
      have hσ : σ (m + 1) = m + 1 := by
        have hrange := hmaps (show m + 1 ∈ Set.Icc 1 n from ⟨by omega, hm⟩)
        have hle : ¬m + 1 < σ (m + 1) := by
          intro hgt
          have hmem := hin hcols' _ _ _ heq' (m + 1) (by omega) hgt
          obtain ⟨x, hx, hxeq⟩ := mem_map.mp hmem
          have hxm := hpre x hx
          have hx0 : 0 < x := by
            obtain ⟨r, hr⟩ := @scanWord_of_le cols n m (by omega)
            apply hpos
            rw [hr, heq]
            simp [hx]
          rw [hfix x hx0 hxm] at hxeq
          omega
        have hge : ¬σ (m + 1) < m + 1 := by
          intro hlt'
          have hfix' := hfix (σ (m + 1)) hrange.1 (by omega)
          have := hinj hrange ⟨by omega, hm⟩ hfix'
          omega
        omega
      intro a ha0 ha
      rcases le_succ_iff.mp ha with hle | rfl
      . exact hfix a ha0 hle
      . exact hσ
  exact hall c h0 hc c h0 (Nat.le_refl c)

end StandardOrder
