import Mathlib.GroupTheory.Perm.List

/-!
This module contains the entry of a cycle into a map, from its last point to its first one.
-/

open List Function

namespace CycleChain

variable {α : Type*} [DecidableEq α]

def chain (f : α → α) : List α → α → α
  | [] => f
  | [_] => f
  | a :: b :: l => Function.update (chain f (b :: l)) a b

def IsLinkable (f : α → α) : List α → Prop
  | [] => True
  | [a] => f a = a
  | a :: b :: l => IsLinkable f (b :: l) ∧ b ≠ a ∧ chain f (b :: l) a = a

variable {f : α → α} {a x : α} {l : List α}

theorem IsLinkable.tail (h : IsLinkable f (a :: l)) : IsLinkable f l := by
  cases l with
  | nil => trivial
  | cons b l => exact h.1

theorem IsLinkable.drop {l : List α} (h : IsLinkable f l) (j : Nat) : IsLinkable f (l.drop j) := by
  induction j generalizing l with
  | zero => exact h
  | succ j ih =>
    cases l with
    | nil => trivial
    | cons a l => apply ih h.tail

theorem chain_of_notMem (hx : x ∉ l.dropLast) : chain f l x = f x := by
  induction l with
  | nil => rfl
  | cons a l ih =>
    cases l with
    | nil => rfl
    | cons b l =>
      rw [dropLast_cons_cons, mem_cons, not_or] at hx
      unfold chain
      rw [update_of_ne hx.1, ih hx.2]

structure IsLinked (f : α → α) (l : List α) : Prop where
  fixed : ∀ x ∈ l, f x = x
  nodup : l.dropLast.Nodup
  chain_ne : ∀ x ∈ l.dropLast, chain f l x ≠ x

theorem IsLinkable.isLinked {l : List α} (h : IsLinkable f l) : IsLinked f l := by
  induction l with
  | nil =>
    constructor
    . intro x hx
      cases hx
    . exact nodup_nil
    . intro x hx
      cases hx
  | cons a l ih =>
    cases l with
    | nil =>
      constructor
      . intro x hx
        rw [mem_singleton] at hx
        rw [hx]
        exact h
      . exact nodup_nil
      . intro x hx
        cases hx
    | cons b l =>
      have hl := ih h.1
      have ha : a ∉ (b :: l).dropLast := fun hmem => hl.chain_ne a hmem h.2.2
      constructor
      . intro x hx
        cases hx with
        | head =>
          have heq := h.2.2
          rw [chain_of_notMem ha] at heq
          exact heq
        | tail _ hx => exact hl.fixed x hx
      . rw [dropLast_cons_cons, nodup_cons]
        exact ⟨ha, hl.nodup⟩
      . intro x hx
        rw [dropLast_cons_cons, mem_cons] at hx
        unfold chain
        by_cases hxa : x = a
        . rw [hxa, update_self]
          exact h.2.1
        . rw [update_of_ne hxa]
          apply hl.chain_ne x
          cases hx with
          | inl hx => exact absurd hx hxa
          | inr hx => exact hx

theorem isLinkable_of_nodup {l : List α} (hnodup : l.Nodup) (hfixed : ∀ x ∈ l, f x = x)
    : IsLinkable f l := by
  induction l with
  | nil => trivial
  | cons a l ih =>
    have hl := ih hnodup.of_cons (fun x hx => hfixed x (mem_cons_of_mem a hx))
    have ha := hfixed a mem_cons_self
    have hmem := (nodup_cons.mp hnodup).1
    cases l with
    | nil => exact ha
    | cons b l =>
      refine ⟨hl, ?_, ?_⟩
      . intro hba
        apply hmem
        rw [hba]
        exact mem_cons_self
      . rw [chain_of_notMem, ha]
        intro hdrop
        exact hmem (dropLast_subset _ hdrop)

theorem isLinkable_and_last_iff (a : α) (l : List α)
    : IsLinkable f (a :: l) ∧ chain f (a :: l) ((a :: l).getLast (cons_ne_nil a l))
          = (a :: l).getLast (cons_ne_nil a l)
        ↔ (a :: l).Nodup ∧ ∀ x ∈ a :: l, f x = x := by
  have hsplit := dropLast_append_getLast (cons_ne_nil a l)
  have hnodup : (a :: l).Nodup
      ↔ (a :: l).dropLast.Nodup ∧ (a :: l).getLast (cons_ne_nil a l) ∉ (a :: l).dropLast := by
    rw [← and_comm, ← nodup_concat, concat_eq_append, hsplit]
  constructor
  . intro h
    have hl := h.1.isLinked
    refine ⟨hnodup.mpr ⟨hl.nodup, ?_⟩, hl.fixed⟩
    intro hmem
    exact hl.chain_ne _ hmem h.2
  . intro h
    refine ⟨isLinkable_of_nodup h.1 h.2, ?_⟩
    rw [chain_of_notMem (hnodup.mp h.1).2]
    apply h.2
    apply getLast_mem

theorem update_chain_eq {σ : Equiv.Perm α} (a : α) (l : List α) (hnodup : (a :: l).Nodup)
    (hfixed : ∀ x ∈ a :: l, σ x = x)
    : update (chain σ (a :: l)) ((a :: l).getLast (cons_ne_nil a l)) a
        = σ.trans (a :: l).formPerm := by
  induction l generalizing a with
  | nil =>
    funext x
    rw [getLast_singleton, formPerm_singleton]
    by_cases hx : x = a
    . rw [hx, update_self]
      exact (hfixed a mem_cons_self).symm
    . rw [update_of_ne hx]
      rfl
  | cons b l ih =>
    have hb := ih b hnodup.of_cons (fun x hx => hfixed x (mem_cons_of_mem a hx))
    have hmem := (nodup_cons.mp hnodup).1
    funext x
    have hbx := congrFun hb x
    have ha := hfixed a mem_cons_self
    have hlast := hfixed _ (mem_cons_of_mem a (getLast_mem (cons_ne_nil b l)))
    rw [Equiv.trans_apply] at hbx ⊢
    rw [formPerm_cons_cons, Equiv.Perm.mul_apply]
    rw [getLast_cons (cons_ne_nil b l)]
    by_cases hxlast : x = (b :: l).getLast (cons_ne_nil b l)
    . rw [hxlast, update_self] at hbx ⊢
      rw [← hbx, Equiv.swap_apply_right]
    . rw [update_of_ne hxlast] at hbx ⊢
      unfold chain
      by_cases hxa : x = a
      . rw [hxa, update_self, ha, formPerm_apply_of_notMem hmem,
          Equiv.swap_apply_left]
      . rw [update_of_ne hxa, hbx, Equiv.swap_apply_of_ne_of_ne]
        . intro heq
          rw [← formPerm_apply_of_notMem hmem] at heq
          have hσ : σ x = σ a := ((b :: l).formPerm.injective heq).trans ha.symm
          exact hxa (σ.injective hσ)
        . intro heq
          rw [formPerm_eq_head_iff_eq_getLast] at heq
          exact hxlast (σ.injective (heq.trans hlast.symm))

end CycleChain
