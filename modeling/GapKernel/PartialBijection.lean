import Mathlib.Data.PEquiv
import Mathlib.Data.Prod.Lex
import Mathlib.Order.Lattice.Nat
import Mathlib.Order.PiLex

/-!
This module contains the degree of a partial bijection of the natural numbers, the list of its
images, and the ways to get both point by point. The images in a list are counted from 1.
-/

open List

namespace PartialBijection

def entryOf (o : Option Nat) : Nat :=
  match o with
  | none => 0
  | some v => v + 1

@[simp]
theorem entryOf_none : entryOf none = 0 :=
  rfl

@[simp]
theorem entryOf_some (v : Nat) : entryOf (some v) = v + 1 :=
  rfl

theorem entryOf_injective {o o' : Option Nat} (h : entryOf o = entryOf o') : o = o' := by
  unfold entryOf at h
  split at h
  . split at h
    . rfl
    . contradiction
  . split at h
    . contradiction
    . next v v' =>
      rw [Nat.add_right_cancel h]

theorem entryOf_lt {φ : Nat ≃. Nat} {bound : Nat} (h : ∀ i v, φ i = some v → v + 1 < bound)
    (hb : 0 < bound) (i : Nat) : entryOf (φ i) < bound := by
  cases hv : φ i with
  | none => exact hb
  | some v => exact h i v hv

structure IsDegree (φ : Nat ≃. Nat) (d : Nat) : Prop where
  lt : ∀ i v, φ i = some v → i < d
  last : d = 0 ∨ ∃ v, φ (d - 1) = some v

section Degree

variable {φ ψ : Nat ≃. Nat} {d d' : Nat}

theorem IsDegree.eq_none (h : IsDegree φ d) {i : Nat} (hi : d ≤ i) : φ i = none := by
  rw [Option.eq_none_iff_forall_ne_some]
  intro v hv
  have := h.lt i v hv
  omega

theorem IsDegree.le_of_lt (h : IsDegree φ d) (hlt : ∀ i v, φ i = some v → i < d') : d ≤ d' := by
  cases h.last with
  | inl h0 => omega
  | inr hlast =>
    rcases hlast with ⟨v, hv⟩
    have := hlt _ v hv
    omega

theorem IsDegree.unique (h : IsDegree φ d) (h' : IsDegree φ d') : d = d' := by
  apply Nat.le_antisymm
  . apply h.le_of_lt h'.lt
  . apply h'.le_of_lt h.lt

theorem IsDegree.image_lt {m : Nat} (h : IsDegree φ.symm m) {i v : Nat} (hv : φ i = some v)
    : v < m := by
  apply h.lt v i
  rw [PEquiv.eq_some_iff]
  exact hv

theorem eq_bot_of_isDegree (h : IsDegree φ 0) : φ = ⊥ := by
  ext1 i
  rw [h.eq_none (Nat.zero_le i)]
  rfl

theorem isDegree_bot : IsDegree ⊥ 0 where
  lt := by
    intro i v hv
    contradiction
  last := Or.inl rfl

theorem IsDegree.codegree_zero (h : IsDegree φ 0) : IsDegree φ.symm 0 := by
  rw [eq_bot_of_isDegree h]
  rw [PEquiv.symm_bot]
  exact isDegree_bot

end Degree

section Order

/-- The degree, and `0` for a partial bijection that is defined at infinitely many points. -/
noncomputable def degree (φ : Nat ≃. Nat) : Nat :=
  sInf {n | ∀ i, n ≤ i → φ i = none}

theorem IsDegree.degree_eq {φ : Nat ≃. Nat} {d : Nat} (h : IsDegree φ d) : degree φ = d := by
  apply IsLeast.csInf_eq
  constructor
  . intro i hi
    exact h.eq_none hi
  . intro n hn
    apply h.le_of_lt
    intro i v hv
    by_contra hge
    rw [hn i (by omega)] at hv
    contradiction

noncomputable def key (φ : Nat ≃. Nat) : Nat ×ₗ Lex (Nat → Nat) :=
  toLex (degree φ, toLex (fun i => entryOf (φ i)))

theorem key_injective : Function.Injective key := by
  intro φ ψ h
  have hentries : (fun i => entryOf (φ i)) = fun i => entryOf (ψ i) := congrArg (fun k => (ofLex k).2) h
  ext1 i
  apply entryOf_injective
  exact congrFun hentries i

def KeyLt (φ ψ : Nat ≃. Nat) : Prop :=
  key φ < key ψ

theorem isStrictTotalOrder_keyLt : IsStrictTotalOrder (Nat ≃. Nat) KeyLt := by
  exact {
    irrefl := fun φ => lt_irrefl (key φ)
    trans := fun _ _ _ h h' => lt_trans h h'
    trichotomous := by
      intro φ ψ h h'
      apply key_injective
      exact le_antisymm (not_lt.mp h') (not_lt.mp h) }

theorem IsDegree.keyLt_iff {φ ψ : Nat ≃. Nat} {d e : Nat} (h : IsDegree φ d) (h' : IsDegree ψ e)
    : KeyLt φ ψ
      ↔ d < e ∨ d = e ∧ toLex (fun i => entryOf (φ i)) < toLex (fun i => entryOf (ψ i)) := by
  unfold KeyLt key
  rw [Prod.Lex.toLex_lt_toLex]
  rw [h.degree_eq]
  rw [h'.degree_eq]

end Order

def IsImageList (φ : Nat ≃. Nat) (pt : List Nat) : Prop :=
  ∀ i, pt.getD i 0 = entryOf (φ i)

section ImageList

variable {φ ψ : Nat ≃. Nat} {pt : List Nat}

variable {i : Nat}

variable (h : IsImageList φ pt)

include h

theorem IsImageList.eq_none (hi : pt.length ≤ i) : φ i = none := by
  apply entryOf_injective
  rw [← h i]
  rw [getD_eq_getElem?_getD]
  rw [getElem?_eq_none hi]
  rfl

theorem IsImageList.lt_length {v : Nat} (hv : φ i = some v)
    : i < pt.length := by
  by_contra hge
  rw [h.eq_none (by omega)] at hv
  contradiction

theorem IsImageList.getElem?_eq (hi : i < pt.length)
    : pt[i]? = some (entryOf (φ i)) := by
  rw [← h i]
  rw [getD_eq_getElem?_getD]
  rw [getElem?_eq_getElem hi]
  rfl

theorem IsImageList.eq_map_range
    : pt = (range pt.length).map (fun i => entryOf (φ i)) := by
  apply ext_getElem?
  intro i
  by_cases hi : i < pt.length
  . rw [h.getElem?_eq hi]
    rw [getElem?_map]
    rw [getElem?_range hi]
    rfl
  . rw [getElem?_eq_none (by omega)]
    rw [getElem?_eq_none (by simp; omega)]

end ImageList

structure IsBoundOn (c : Nat → Option Nat) (L : List Nat) (m : Nat) : Prop where
  lt : ∀ j ∈ L, ∀ v, c j = some v → v < m
  eq : m = 0 ∨ ∃ j ∈ L, ∃ v, c j = some v ∧ m = v + 1

section Bound

variable {c : Nat → Option Nat} {L : List Nat} {m : Nat}

theorem isBoundOn_nil (c : Nat → Option Nat) : IsBoundOn c [] 0 where
  lt := by
    intro j hj
    contradiction
  eq := Or.inl rfl

variable {j : Nat}

variable (h : IsBoundOn c L m)

include h

theorem IsBoundOn.snoc (hj : ∀ v, c j = some v → v < m)
    : IsBoundOn c (L ++ [j]) m where
  lt := by
    intro i hi v hv
    rw [mem_append, mem_singleton] at hi
    cases hi with
    | inl hi => exact h.lt i hi v hv
    | inr hi =>
      rw [hi] at hv
      exact hj v hv
  eq := by
    cases h.eq with
    | inl h0 => exact Or.inl h0
    | inr hex =>
      obtain ⟨i, hi, v, hv⟩ := hex
      exact Or.inr ⟨i, mem_append_left _ hi, v, hv⟩

theorem IsBoundOn.snoc_gt {v : Nat} (hv : c j = some v) (hm : m ≤ v)
    : IsBoundOn c (L ++ [j]) (v + 1) where
  lt := by
    intro i hi v' hv'
    rw [mem_append, mem_singleton] at hi
    cases hi with
    | inl hi =>
      have := h.lt i hi v' hv'
      omega
    | inr hi =>
      rw [hi] at hv'
      rw [hv] at hv'
      cases hv'
      omega
  eq := Or.inr ⟨j, mem_append_right _ (mem_singleton_self j), v, hv, rfl⟩

theorem IsBoundOn.snoc_max {v : Nat} (hv : c j = some v)
    : IsBoundOn c (L ++ [j]) (if v + 1 > m then v + 1 else m) := by
  split
  . apply h.snoc_gt hv
    omega
  . apply h.snoc
    intro v' hv'
    rw [hv] at hv'
    cases hv'
    omega

theorem IsBoundOn.snoc_entry (j : Nat)
    : IsBoundOn c (L ++ [j]) (if entryOf (c j) > m then entryOf (c j) else m) := by
  cases hv : c j with
  | some v => exact h.snoc_max hv
  | none =>
    rw [if_neg (by simp)]
    apply h.snoc
    intro v hv'
    rw [hv] at hv'
    contradiction

end Bound

def both (α β : Nat ≃. Nat) (j : Nat) : Option Nat :=
  (α j).bind (fun _ => β j)

section Quotient

variable {α β : Nat ≃. Nat} {n : Nat} {L : List Nat} {pt : List Nat}

variable {j : Nat}

theorem both_eq_some_iff {v : Nat}
    : both α β j = some v ↔ ∃ k, α j = some k ∧ β j = some v := by
  unfold both
  rw [Option.bind_eq_some_iff]

variable {k : Nat}

theorem both_of_eq_some (hk : α j = some k) : both α β j = β j := by
  unfold both
  rw [hk]
  rfl

theorem refl_quotient : (PEquiv.refl Nat).symm.trans β = β := by
  rw [PEquiv.symm_refl]
  rw [PEquiv.refl_trans]

theorem quotient_eq_some_iff {v : Nat}
    : (α.symm.trans β) k = some v ↔ ∃ j, α j = some k ∧ β j = some v := by
  rw [PEquiv.trans_eq_some]
  simp only [PEquiv.eq_some_iff]

def Covers (α β : Nat ≃. Nat) (L : List Nat) : Prop :=
  ∀ j k v, α j = some k → β j = some v → j ∈ L

theorem Covers.swap (h : Covers α β L) : Covers β α L :=
  fun j k v hk hv => h j v k hv hk

variable {m : Nat}

theorem IsBoundOn.isDegree_of_lt (h : IsBoundOn (both β α) L m)
    (hlt : ∀ k v, (α.symm.trans β) k = some v → k < m) : IsDegree (α.symm.trans β) m where
  lt := hlt
  last := by
    cases h.eq with
    | inl h0 => exact Or.inl h0
    | inr hex =>
      obtain ⟨j, _, k, hk, hm⟩ := hex
      rw [both_eq_some_iff] at hk
      obtain ⟨v, hv, hk⟩ := hk
      right
      refine ⟨v, ?_⟩
      rw [quotient_eq_some_iff]
      rw [hm]
      exact ⟨j, hk, hv⟩

theorem IsBoundOn.isDegree (h : IsBoundOn (both β α) L m) (hL : Covers α β L)
    : IsDegree (α.symm.trans β) m := by
  apply h.isDegree_of_lt
  intro k v hkv
  rw [quotient_eq_some_iff] at hkv
  obtain ⟨j, hk, hv⟩ := hkv
  apply h.lt j (hL j k v hk hv)
  rw [both_eq_some_iff]
  exact ⟨v, hv, hk⟩

theorem symm_quotient : (α.symm.trans β).symm = β.symm.trans α := by
  rw [PEquiv.symm_trans_rev]
  rw [PEquiv.symm_symm]

theorem IsBoundOn.isDegree_symm (h : IsBoundOn (both α β) L m) (hL : Covers α β L)
    : IsDegree (α.symm.trans β).symm m := by
  rw [symm_quotient]
  apply h.isDegree hL.swap

structure HasEntries (α β : Nat ≃. Nat) (n : Nat) (L : List Nat) (pt : List Nat) : Prop where
  length_eq : pt.length = n
  getD_eq : ∀ k v, pt.getD k 0 = v + 1 ↔ ∃ j ∈ L, α j = some k ∧ β j = some v

theorem hasEntries_replicate (α β : Nat ≃. Nat) (n : Nat)
    : HasEntries α β n [] (replicate n 0) where
  length_eq := length_replicate
  getD_eq := by
    intro k v
    have h0 : (replicate n 0).getD k 0 = 0 := by
      rw [getD_eq_getElem?_getD]
      rw [getElem?_replicate]
      split
      . rfl
      . rfl
    rw [h0]
    simp

variable (h : HasEntries α β n L pt)

include h

theorem HasEntries.snoc (hk : α j = some k) (hkn : k < n)
    : HasEntries α β n (L ++ [j]) (pt.set k (entryOf (β j))) where
  length_eq := by
    rw [length_set]
    exact h.length_eq
  getD_eq := by
    intro k' v
    have hlen := h.length_eq
    have hget : (pt.set k (entryOf (β j))).getD k' 0
        = if k = k' then entryOf (β j) else pt.getD k' 0 := by
      rw [getD_eq_getElem?_getD]
      rw [getElem?_set]
      split
      . next heq =>
        rw [if_pos (by omega)]
        rfl
      . rw [getD_eq_getElem?_getD]
    rw [hget]
    split
    . next heq =>
      rw [← heq]
      constructor
      . intro hv
        refine ⟨j, mem_append_right _ (mem_singleton_self j), hk, ?_⟩
        apply entryOf_injective
        rw [hv]
        rfl
      . intro ⟨j', _, hk', hv'⟩
        rw [α.inj hk' hk] at hv'
        rw [hv']
        rfl
    . next hne =>
      rw [h.getD_eq]
      constructor
      . intro ⟨j', hj', hex⟩
        exact ⟨j', mem_append_left _ hj', hex⟩
      . intro ⟨j', hj', hk', hv'⟩
        rw [mem_append, mem_singleton] at hj'
        cases hj' with
        | inl hj' => exact ⟨j', hj', hk', hv'⟩
        | inr hj' =>
          rw [hj'] at hk'
          rw [hk] at hk'
          cases hk'
          contradiction

theorem HasEntries.skip (hj : α j = none ∨ β j = none)
    : HasEntries α β n (L ++ [j]) pt where
  length_eq := h.length_eq
  getD_eq := by
    intro k v
    rw [h.getD_eq]
    constructor
    . intro ⟨j', hj', hex⟩
      exact ⟨j', mem_append_left _ hj', hex⟩
    . intro ⟨j', hj', hk', hv'⟩
      rw [mem_append, mem_singleton] at hj'
      cases hj' with
      | inl hj' => exact ⟨j', hj', hk', hv'⟩
      | inr hj' =>
        rw [hj'] at hk' hv'
        cases hj with
        | inl hj =>
          rw [hj] at hk'
          contradiction
        | inr hj =>
          rw [hj] at hv'
          contradiction

theorem HasEntries.isImageList (hL : Covers α β L)
    : IsImageList (α.symm.trans β) pt := by
  intro k
  have hiff : ∀ v, pt.getD k 0 = v + 1 ↔ (α.symm.trans β) k = some v := by
    intro v
    rw [h.getD_eq]
    rw [quotient_eq_some_iff]
    constructor
    . intro ⟨j, _, hex⟩
      exact ⟨j, hex⟩
    . intro ⟨j, hk, hv⟩
      exact ⟨j, hL j k v hk hv, hk, hv⟩
  cases hval : (α.symm.trans β) k with
  | some v =>
    rw [entryOf_some]
    rw [hiff v]
    exact hval
  | none =>
    cases hpt : pt.getD k 0 with
    | zero => rfl
    | succ v =>
      rw [hiff v] at hpt
      rw [hpt] at hval
      contradiction

end Quotient

end PartialBijection
