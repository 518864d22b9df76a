import Mathlib.Data.Finset.Card
import Mathlib.Data.List.Range

/-!
This module contains the values of a function on the numbers below `n` in the order of their first
occurrence, and the classes of numbers with the same value, which are numbered in this order.
-/

open List

namespace FirstOccurrence

section

variable {α : Type} [DecidableEq α] (l : List α)

include l

theorem eraseDups_snoc (x : α)
    : (l ++ [x]).eraseDups = if x ∈ l then l.eraseDups else l.eraseDups ++ [x] := by
  rw [eraseDups_append]
  by_cases hx : x ∈ l
  . rw [if_pos hx]
    simp [List.removeAll, hx]
  . rw [if_neg hx]
    simp [List.removeAll, hx, eraseDups_cons]

theorem nodup_eraseDups : l.eraseDups.Nodup := by
  induction l using reverseRecOn with
  | nil => exact nodup_nil
  | append_singleton l x ih =>
    rw [eraseDups_snoc]
    split
    . exact ih
    . next h =>
      rw [nodup_append]
      refine ⟨ih, nodup_singleton _, ?_⟩
      intro a ha b hb
      rw [mem_singleton] at hb
      rw [mem_eraseDups] at ha
      intro hab
      rw [hb] at hab
      rw [hab] at ha
      exact h ha

theorem length_eraseDups
    : l.eraseDups.length = l.toFinset.card := by
  rw [← toFinset_card_of_nodup (nodup_eraseDups l)]
  congr 1
  ext x
  rw [mem_toFinset, mem_toFinset]
  rw [mem_eraseDups]

end

section Values

variable {α : Type} [DecidableEq α] (φ : Nat → α)

def values (n : Nat) : List α :=
  ((List.range n).map φ).eraseDups

variable {n : Nat}

theorem mem_values {x : α} : x ∈ values φ n ↔ ∃ i, i < n ∧ φ i = x := by
  unfold values
  rw [mem_eraseDups]
  simp

theorem values_succ (n : Nat)
    : values φ (n + 1)
        = if φ n ∈ values φ n then values φ n else values φ n ++ [φ n] := by
  unfold values
  rw [range_succ]
  rw [map_append]
  rw [map_singleton]
  rw [eraseDups_snoc]
  simp only [mem_eraseDups]

theorem nodup_values (n : Nat) : (values φ n).Nodup := by
  apply nodup_eraseDups

theorem values_mono {m : Nat} (h : m ≤ n) : values φ m <+: values φ n := by
  induction n with
  | zero =>
    have hm : m = 0 := by omega
    rw [hm]
  | succ n ih =>
    by_cases hm : m = n + 1
    . rw [hm]
    . apply List.IsPrefix.trans (ih (by omega))
      rw [values_succ]
      split
      . apply prefix_refl
      . apply prefix_append

theorem idxOf_values {m : Nat} (h : m ≤ n) {x : α} (hx : x ∈ values φ m)
    : (values φ n).idxOf x = (values φ m).idxOf x := by
  rcases values_mono φ h with ⟨t, ht⟩
  rw [← ht]
  rw [idxOf_append_of_mem hx]

theorem length_values (n : Nat) : (values φ n).length = ((Finset.range n).image φ).card := by
  unfold values
  rw [length_eraseDups]
  rfl

theorem length_values_le (n : Nat) : (values φ n).length ≤ n := by
  rw [length_values]
  apply Nat.le_trans Finset.card_image_le
  rw [Finset.card_range]

theorem length_values_eq_iff (n : Nat)
    : (values φ n).length = n ↔ ∀ i j, i < n → j < n → φ i = φ j → i = j := by
  rw [length_values]
  have h := Finset.card_image_iff (s := Finset.range n) (f := φ)
  rw [Finset.card_range] at h
  rw [h]
  constructor
  . intro hinj i j hi hj heq
    apply hinj _ _ heq
    . simpa using hi
    . simpa using hj
  . intro hinj i hi j hj heq
    apply hinj i j _ _ heq
    . simpa using hi
    . simpa using hj

end Values

section Kernel

variable (φ : Nat → Nat)

def flatKernel (n : Nat) : List Nat :=
  (List.range n).map (fun i => (values φ n).idxOf (φ i) + 1)

@[simp]
theorem length_flatKernel (n : Nat) : (flatKernel φ n).length = n := by
  unfold flatKernel
  rw [length_map]
  rw [length_range]

variable {n : Nat}

theorem getElem?_flatKernel {i : Nat} (hi : i < n)
    : (flatKernel φ n)[i]? = some ((values φ n).idxOf (φ i) + 1) := by
  unfold flatKernel
  rw [getElem?_map]
  rw [getElem?_range hi]
  rfl

theorem flatKernel_succ (n : Nat)
    : flatKernel φ (n + 1) = flatKernel φ n ++ [(values φ (n + 1)).idxOf (φ n) + 1] := by
  unfold flatKernel
  rw [range_succ]
  rw [map_append]
  rw [map_singleton]
  congr 1
  apply map_congr_left
  intro i hi
  rw [mem_range] at hi
  rw [idxOf_values φ (Nat.le_succ n)]
  rw [mem_values]
  exact ⟨i, hi, rfl⟩

theorem take_flatKernel {m : Nat} (h : m ≤ n) : (flatKernel φ n).take m = flatKernel φ m := by
  induction n with
  | zero =>
    have hm : m = 0 := by omega
    rw [hm]
    rfl
  | succ n ih =>
    by_cases hm : m = n + 1
    . rw [hm]
      rw [take_of_length_le]
      rw [length_flatKernel]
    . rw [flatKernel_succ]
      rw [take_append_of_le_length]
      . apply ih
        omega
      . rw [length_flatKernel]
        omega

theorem flatKernel_of_injective (h : ∀ i j, i < n → j < n → φ i = φ j → i = j)
    : flatKernel φ n = range' 1 n := by
  induction n with
  | zero => rfl
  | succ n ih =>
    rw [flatKernel_succ]
    rw [ih (fun i j hi hj => h i j (by omega) (by omega))]
    rw [range'_1_concat]
    have hlen := (length_values_eq_iff φ n).mpr (fun i j hi hj => h i j (by omega) (by omega))
    have hnot : φ n ∉ values φ n := by
      intro hmem
      rw [mem_values] at hmem
      rcases hmem with ⟨i, hi⟩
      have := h i n (by omega) (by omega) hi.2
      omega
    rw [values_succ]
    rw [if_neg hnot]
    rw [idxOf_append_of_notMem hnot]
    rw [hlen]
    simp [Nat.add_comm]

theorem flatKernel_congr {ψ : Nat → Nat} (h : ∀ i j, i < n → j < n → (φ i = φ j ↔ ψ i = ψ j))
    : (values φ n).length = (values ψ n).length ∧ flatKernel φ n = flatKernel ψ n := by
  induction n with
  | zero => exact ⟨rfl, rfl⟩
  | succ n ih =>
    obtain ⟨hlen, hker⟩ := ih (fun i j hi hj => h i j (by omega) (by omega))
    have hmem : φ n ∈ values φ n ↔ ψ n ∈ values ψ n := by
      rw [mem_values, mem_values]
      apply exists_congr
      intro i
      apply and_congr_right
      intro hi
      exact h i n (by omega) (by omega)
    rw [flatKernel_succ, flatKernel_succ, values_succ, values_succ, hker]
    by_cases hnew : φ n ∈ values φ n
    . rw [if_pos hnew, if_pos (hmem.mp hnew)]
      obtain ⟨i, hi, heq⟩ := (mem_values φ).mp hnew
      have hget := getElem?_flatKernel φ hi
      rw [hker, getElem?_flatKernel ψ hi, (h i n (by omega) (by omega)).mp heq, heq] at hget
      rw [Option.some.inj hget]
      exact ⟨hlen, rfl⟩
    . have hnew' : ψ n ∉ values ψ n := fun hin => hnew (hmem.mpr hin)
      rw [if_neg hnew, if_neg hnew', idxOf_append_of_notMem hnew,
        idxOf_append_of_notMem hnew', length_append, length_append, hlen]
      simp

theorem sorted_flatKernel_iff (n : Nat)
    : (flatKernel φ n).Pairwise (· < ·) ↔ ∀ i j, i < n → j < n → φ i = φ j → i = j := by
  constructor
  . intro hsorted i j hi hj heq
    have hget : (flatKernel φ n)[i]? = (flatKernel φ n)[j]? := by
      rw [getElem?_flatKernel φ hi]
      rw [getElem?_flatKernel φ hj]
      rw [heq]
    have hnodup : (flatKernel φ n).Nodup := hsorted.imp (fun h => Nat.ne_of_lt h)
    have hlt : i < (flatKernel φ n).length := by
      rw [length_flatKernel]
      exact hi
    exact (getElem?_inj hlt hnodup).mp hget
  . intro h
    rw [flatKernel_of_injective φ h]
    apply pairwise_lt_range'
    omega

def classes (n : Nat) : List (List Nat) :=
  (values φ n).map (fun x => ((List.range n).filter (fun i => φ i = x)).map (· + 1))

@[simp]
theorem length_classes (n : Nat) : (classes φ n).length = (values φ n).length := by
  unfold classes
  rw [length_map]

theorem filter_range_succ (n x : Nat)
    : ((range (n + 1)).filter (fun i => φ i = x)).map (· + 1)
        = ((range n).filter (fun i => φ i = x)).map (· + 1)
          ++ if φ n = x then [n + 1] else [] := by
  rw [range_succ]
  rw [filter_append]
  rw [map_append]
  congr 1
  by_cases h : φ n = x
  . simp [h]
  . simp [h]

theorem classes_succ_of_notMem (h : φ n ∉ values φ n)
    : classes φ (n + 1) = classes φ n ++ [[n + 1]] := by
  unfold classes
  rw [values_succ]
  rw [if_neg h]
  rw [map_append]
  congr 1
  . apply map_congr_left
    intro x hx
    rw [filter_range_succ]
    rw [if_neg]
    . rw [append_nil]
    . intro heq
      rw [heq] at h
      exact h hx
  . rw [map_singleton]
    rw [filter_range_succ]
    rw [if_pos rfl]
    have hnil : (range n).filter (fun i => φ i = φ n) = [] := by
      rw [filter_eq_nil_iff]
      intro i hi
      rw [mem_range] at hi
      rw [decide_eq_true_iff]
      intro heq
      apply h
      rw [mem_values]
      exact ⟨i, hi, heq⟩
    rw [hnil]
    rfl

theorem classes_succ_of_mem (h : φ n ∈ values φ n) {l : List Nat}
    (hl : (classes φ n)[(values φ n).idxOf (φ n)]? = some l)
    : classes φ (n + 1) = (classes φ n).set ((values φ n).idxOf (φ n)) (l ++ [n + 1]) := by
  unfold classes at hl ⊢
  rw [values_succ]
  rw [if_pos h]
  apply ext_getElem?
  intro k
  rw [getElem?_map]
  rw [getElem?_set]
  have hlt := idxOf_lt_length_of_mem h
  split
  . next heq =>
    rw [if_pos (by rw [length_map]; exact hlt)]
    rw [← heq]
    rw [getElem?_map] at hl
    rw [getElem?_eq_getElem hlt] at hl ⊢
    rw [getElem_idxOf hlt] at hl ⊢
    rw [Option.map_some] at hl ⊢
    rw [filter_range_succ]
    rw [if_pos rfl]
    rw [Option.some.inj hl]
  . next hne =>
    rw [getElem?_map]
    cases hk : (values φ n)[k]? with
    | none => rfl
    | some x =>
      rw [Option.map_some]
      rw [Option.map_some]
      rw [filter_range_succ]
      rw [if_neg]
      . rw [append_nil]
      . intro heq
        apply hne
        rw [← heq] at hk
        rw [← getElem?_inj hlt (nodup_values φ n)]
        rw [hk]
        rw [getElem?_eq_getElem hlt]
        rw [getElem_idxOf hlt]

theorem exists_heads (n : Nat)
    : ∃ hs : List Nat, (classes φ n).map head? = hs.map some ∧ hs.Pairwise (· < ·)
        ∧ ∀ x ∈ hs, x ≤ n := by
  induction n with
  | zero => exact ⟨[], rfl, List.Pairwise.nil, by simp⟩
  | succ n ih =>
    obtain ⟨hs, hheads, hsorted, hle⟩ := ih
    by_cases h : φ n ∈ values φ n
    . refine ⟨hs, ?_, hsorted, fun x hx => Nat.le_succ_of_le (hle x hx)⟩
      have hlt : (values φ n).idxOf (φ n) < (classes φ n).length := by
        rw [length_classes]
        apply idxOf_lt_length_of_mem h
      rw [classes_succ_of_mem φ h (getElem?_eq_getElem hlt)]
      rw [map_set]
      rw [← hheads]
      -- A class has a first number, which stays the first one.
      have hlt' : (values φ n).idxOf (φ n) < ((classes φ n).map head?).length := by
        rw [length_map]
        exact hlt
      have hhead : ((classes φ n)[(values φ n).idxOf (φ n)] ++ [n + 1]).head?
          = ((classes φ n).map head?)[(values φ n).idxOf (φ n)] := by
        rw [getElem_map]
        have hsome : (classes φ n)[(values φ n).idxOf (φ n)].head? ∈ hs.map some := by
          rw [← hheads]
          apply mem_map_of_mem
          apply getElem_mem
        rw [mem_map] at hsome
        obtain ⟨x, _, hx⟩ := hsome
        rw [head?_append]
        rw [← hx]
        rfl
      rw [hhead]
      rw [set_getElem_self]
    . refine ⟨hs ++ [n + 1], ?_, ?_, ?_⟩
      . rw [classes_succ_of_notMem φ h]
        rw [map_append]
        rw [hheads]
        rw [map_append]
        rfl
      . rw [pairwise_append]
        refine ⟨hsorted, pairwise_singleton _ _, ?_⟩
        intro x hx y hy
        rw [mem_singleton] at hy
        have := hle x hx
        omega
      . intro x hx
        rw [mem_append, mem_singleton] at hx
        cases hx with
        | inl hx =>
          have := hle x hx
          omega
        | inr hx => omega

theorem sorted_classes (n : Nat) : (classes φ n).Pairwise (· < ·) := by
  obtain ⟨hs, hheads, hsorted, _⟩ := exists_heads φ n
  have hmap : ((classes φ n).map head?).Pairwise
      (fun a b => ∃ x y, a = some x ∧ b = some y ∧ x < y) := by
    rw [hheads]
    rw [pairwise_map]
    exact hsorted.imp (fun h => ⟨_, _, rfl, rfl, h⟩)
  rw [pairwise_map] at hmap
  apply hmap.imp
  intro a b ⟨x, y, hx, hy, hlt⟩
  cases a with
  | nil => contradiction
  | cons x' a =>
    cases b with
    | nil => contradiction
    | cons y' b =>
      rw [head?_cons, Option.some.injEq] at hx hy
      rw [cons_lt_cons_iff]
      left
      omega

theorem sorted_of_mem_classes {l : List Nat} (h : l ∈ classes φ n)
    : l.Pairwise (· < ·) := by
  unfold classes at h
  rw [mem_map] at h
  obtain ⟨x, _, hl⟩ := h
  rw [← hl]
  rw [pairwise_map]
  apply List.Pairwise.imp _ (pairwise_lt_range.filter _)
  intro a b hab
  omega

section Fix

variable {φ} {deg : Nat} (hfix : ∀ i, deg ≤ i → φ i = i) (hlt : ∀ i, i < deg → φ i < deg)

include hfix hlt

variable {n : Nat}

theorem notMem_values_of_fix (hn : deg ≤ n) : φ n ∉ values φ n := by
  intro hmem
  rw [mem_values] at hmem
  obtain ⟨i, hi, heq⟩ := hmem
  rw [hfix n hn] at heq
  by_cases hid : i < deg
  . have := hlt i hid
    omega
  . rw [hfix i (by omega)] at heq
    omega

theorem length_values_of_fix (hn : deg ≤ n)
    : (values φ n).length = (values φ deg).length + (n - deg) := by
  induction n with
  | zero =>
    have h0 : deg = 0 := by omega
    rw [h0]
    rfl
  | succ n ih =>
    by_cases hd : deg = n + 1
    . rw [hd]
      omega
    . rw [values_succ]
      rw [if_neg (notMem_values_of_fix hfix hlt (by omega))]
      rw [length_append]
      rw [length_singleton]
      rw [ih (by omega)]
      omega

theorem flatKernel_of_fix (hn : deg ≤ n)
    : flatKernel φ n
        = flatKernel φ deg
          ++ (range' 1 (n - deg)).map (fun i => i + (values φ deg).length) := by
  induction n with
  | zero =>
    have h0 : deg = 0 := by omega
    rw [h0]
    rfl
  | succ n ih =>
    by_cases hd : deg = n + 1
    . rw [hd]
      rw [Nat.sub_self]
      rw [range'_zero]
      rw [map_nil]
      rw [append_nil]
    . have hnot := notMem_values_of_fix hfix hlt (show deg ≤ n by omega)
      rw [flatKernel_succ]
      rw [ih (by omega)]
      rw [values_succ]
      rw [if_neg hnot]
      rw [idxOf_append_of_notMem hnot]
      rw [length_values_of_fix hfix hlt (show deg ≤ n by omega)]
      rw [show n + 1 - deg = n - deg + 1 by omega]
      rw [range'_1_concat]
      rw [map_append]
      rw [append_assoc]
      congr 2
      simp
      omega

end Fix

end Kernel

section Hit

def IsFirstHit (P : Nat → Prop) (a b : Nat) (hit : Option Nat) : Prop :=
  match hit with
  | some i => (a ≤ i ∧ i < b ∧ P i) ∧ ∀ j, a ≤ j → j < i → ¬P j
  | none => ∀ j, a ≤ j → j < b → ¬P j

variable {P Q : Nat → Prop} {a b c : Nat}

theorem isFirstHit_empty (h : b ≤ a) : IsFirstHit P a b none := by
  intro j hj hlt
  omega

theorem isFirstHit_self (h : a < b) (ha : P a) : IsFirstHit P a b (some a) := by
  refine ⟨⟨Nat.le_refl a, h, ha⟩, ?_⟩
  intro j hj hlt
  omega

variable {hit : Option Nat}

theorem IsFirstHit.or {hit' : Option Nat} (h : IsFirstHit P a b hit) (h' : IsFirstHit P b c hit')
    (hab : a ≤ b) (hbc : b ≤ c) : IsFirstHit P a c (hit.or hit') := by
  cases hit with
  | some i => exact ⟨⟨h.1.1, Nat.lt_of_lt_of_le h.1.2.1 hbc, h.1.2.2⟩, h.2⟩
  | none =>
    cases hit' with
    | none =>
      intro j hj hlt
      by_cases hjb : j < b
      . exact h j hj hjb
      . exact h' j (by omega) hlt
    | some i =>
      refine ⟨⟨Nat.le_trans hab h'.1.1, h'.1.2⟩, ?_⟩
      intro j hj hlt
      by_cases hjb : j < b
      . exact h j hj hjb
      . exact h'.2 j (by omega) hlt

theorem IsFirstHit.succ (ha : ¬P a) (h : IsFirstHit P (a + 1) b hit)
    : IsFirstHit P a b hit := by
  have hone : ∀ j, a ≤ j → ¬a + 1 ≤ j → ¬P j := by
    intro j hj hlt
    rw [show j = a by omega]
    exact ha
  cases hit with
  | none =>
    intro j hj hlt
    by_cases hja : a + 1 ≤ j
    . exact h j hja hlt
    . exact hone j hj hja
  | some i =>
    refine ⟨⟨Nat.le_of_succ_le h.1.1, h.1.2⟩, ?_⟩
    intro j hj hlt
    by_cases hja : a + 1 ≤ j
    . exact h.2 j hja hlt
    . exact hone j hj hja

theorem IsFirstHit.congr (h : IsFirstHit P a b hit) (hPQ : ∀ i, a ≤ i → i < b → (P i ↔ Q i))
    : IsFirstHit Q a b hit := by
  cases hit with
  | none =>
    intro j hj hlt
    rw [← hPQ j hj hlt]
    exact h j hj hlt
  | some i =>
    refine ⟨⟨h.1.1, h.1.2.1, (hPQ i h.1.1 h.1.2.1).mp h.1.2.2⟩, ?_⟩
    intro j hj hlt
    rw [← hPQ j hj (Nat.lt_trans hlt h.1.2.1)]
    exact h.2 j hj hlt

theorem IsFirstHit.unique {hit' : Option Nat} (h : IsFirstHit P a b hit)
    (h' : IsFirstHit P a b hit') : hit = hit' := by
  cases hit with
  | none =>
    cases hit' with
    | none => rfl
    | some i => exact absurd h'.1.2.2 (h i h'.1.1 h'.1.2.1)
  | some i =>
    cases hit' with
    | none => exact absurd h.1.2.2 (h' i h.1.1 h.1.2.1)
    | some k =>
      have hki : ¬k < i := fun hlt => h.2 k h'.1.1 hlt h'.1.2.2
      have hik : ¬i < k := fun hlt => h'.2 i h.1.1 hlt h.1.2.2
      rw [show i = k by omega]

end Hit


end FirstOccurrence
