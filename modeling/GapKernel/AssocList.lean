import Mathlib.Data.List.Nodup

/-!
This module contains lists of bindings as finite maps, and the sorted list of bindings that belongs
to a map.
-/

open List Function

variable {K V : Type}

structure Binds (l : List (K × V)) (m : K → Option V) : Prop where
  nodup : (l.map Prod.fst).Nodup
  mem : ∀ k v, m k = some v ↔ (k, v) ∈ l

namespace Binds

variable {l l' : List (K × V)} {m m' : K → Option V}

theorem nil : Binds ([] : List (K × V)) (fun _ => none) := by
  constructor
  . simp
  . simp

section

variable (h : Binds l m)

include h

theorem perm (hp : l'.Perm l) : Binds l' m := by
  constructor
  . rw [(hp.map Prod.fst).nodup_iff]
    exact h.nodup
  . intro k v
    rw [h.mem]
    exact hp.mem_iff.symm

theorem isSome_iff (k : K) : (m k).isSome = true ↔ k ∈ l.map Prod.fst := by
  rw [Option.isSome_iff_exists, mem_map]
  constructor
  . intro hk
    cases hk with
    | intro v hv => exact ⟨(k, v), (h.mem k v).mp hv, rfl⟩
  . intro hk
    obtain ⟨⟨k', v⟩, hmem, hk'⟩ := hk
    subst hk'
    exact ⟨v, (h.mem k' v).mpr hmem⟩

theorem eq_none_iff (k : K) : m k = none ↔ k ∉ l.map Prod.fst := by
  rw [← h.isSome_iff]
  simp

theorem perm_of_binds (h' : Binds l' m) : l.Perm l' := by
  rw [perm_ext_iff_of_nodup h.nodup.of_map h'.nodup.of_map]
  intro b
  rw [← h.mem, ← h'.mem]

theorem mapValues (f : V → V)
    : Binds (l.map (fun b => (b.1, f b.2))) (fun k => (m k).map f) := by
  constructor
  . rw [map_map]
    exact h.nodup
  . intro k v
    rw [Option.map_eq_some_iff, mem_map]
    constructor
    . intro hk
      obtain ⟨x, hx, rfl⟩ := hk
      exact ⟨(k, x), (h.mem k x).mp hx, rfl⟩
    . intro hk
      obtain ⟨⟨k', x⟩, hmem, heq⟩ := hk
      cases heq
      exact ⟨x, (h.mem k' x).mpr hmem, rfl⟩

end

section

variable [DecidableEq K]

variable {k : K}

theorem append (h : Binds l m) (hk : m k = none) (v : V)
    : Binds (l ++ [(k, v)]) (update m k (some v)) := by
  constructor
  . rw [map_append, nodup_append]
    rw [h.eq_none_iff] at hk
    refine ⟨h.nodup, by simp, ?_⟩
    intro a ha b hb hab
    simp at hb
    rw [hab, hb] at ha
    exact hk ha
  . intro k' v'
    rw [mem_append, mem_singleton, ← h.mem]
    by_cases hkk : k' = k
    . subst hkk
      simp [hk, eq_comm]
    . simp [hkk]

variable {u r : List (K × V)} {x : V} (h : Binds (u ++ (k, x) :: r) m)

include h

theorem replace (v : V)
    : Binds (u ++ (k, v) :: r) (update m k (some v)) := by
  have hnodup := h.nodup
  rw [map_append, map_cons] at hnodup
  constructor
  . rw [map_append, map_cons]
    exact hnodup
  . intro k' v'
    rw [nodup_append, nodup_cons] at hnodup
    have hm := h.mem k' v'
    rw [mem_append, mem_cons] at hm ⊢
    by_cases hkk : k' = k
    . subst hkk
      have hu : (k', v') ∉ u := by
        intro hmem
        exact hnodup.2.2 k' (mem_map.mpr ⟨_, hmem, rfl⟩) k' (by simp) rfl
      have hr : (k', v') ∉ r := by
        intro hmem
        exact hnodup.2.1.1 (mem_map.mpr ⟨_, hmem, rfl⟩)
      simp [hu, hr, eq_comm]
    . simp [hkk] at hm ⊢
      exact hm

theorem erase
    : Binds (u ++ r) (update m k none) := by
  have hnodup := h.nodup
  rw [map_append, map_cons] at hnodup
  constructor
  . rw [map_append]
    exact hnodup.sublist (by simp)
  . intro k' v'
    rw [nodup_append, nodup_cons] at hnodup
    have hm := h.mem k' v'
    rw [mem_append, mem_cons] at hm
    rw [mem_append]
    by_cases hkk : k' = k
    . subst hkk
      have hu : (k', v') ∉ u := by
        intro hmem
        exact hnodup.2.2 k' (mem_map.mpr ⟨_, hmem, rfl⟩) k' (by simp) rfl
      have hr : (k', v') ∉ r := by
        intro hmem
        exact hnodup.2.1.1 (mem_map.mpr ⟨_, hmem, rfl⟩)
      simp [hu, hr]
    . simp [hkk] at hm ⊢
      exact hm

end

end Binds

def KeySorted (l : List (Nat × V)) : Prop :=
  l.Pairwise (fun a b => a.1 < b.1)

variable {R : V → V → Prop} {l l' : List (Nat × V)}

theorem forall₂_of_keys (hs : KeySorted l) (hs' : KeySorted l')
    (hkeys : ∀ k, k ∈ l.map Prod.fst ↔ k ∈ l'.map Prod.fst)
    (hrel : ∀ k v v', (k, v) ∈ l → (k, v') ∈ l' → R v v')
    : Forall₂ (fun a b => a.1 = b.1 ∧ R a.2 b.2) l l' := by
  induction l generalizing l' with
  | nil =>
    cases l' with
    | nil => exact List.Forall₂.nil
    | cons b l' =>
      have := hkeys b.1
      simp at this
  | cons a l ih =>
    cases l' with
    | nil =>
      have := hkeys a.1
      simp at this
    | cons b l' =>
      unfold KeySorted at hs hs'
      rw [pairwise_cons] at hs hs'
      have hgt : ∀ k ∈ l.map Prod.fst, a.1 < k := by
        intro k hk
        rw [mem_map] at hk
        obtain ⟨x, hx, rfl⟩ := hk
        exact hs.1 x hx
      have hgt' : ∀ k ∈ l'.map Prod.fst, b.1 < k := by
        intro k hk
        rw [mem_map] at hk
        obtain ⟨x, hx, rfl⟩ := hk
        exact hs'.1 x hx
      simp only [map_cons, mem_cons] at hkeys
      have hab : a.1 = b.1 := by
        have ha := (hkeys a.1).mp (Or.inl rfl)
        have hb := (hkeys b.1).mpr (Or.inl rfl)
        cases ha with
        | inl ha => exact ha
        | inr ha =>
          cases hb with
          | inl hb => exact hb.symm
          | inr hb =>
            have h1 := hgt _ hb
            have h2 := hgt' _ ha
            omega
      apply List.Forall₂.cons
      . apply And.intro hab
        apply hrel a.1 a.2 b.2
        . exact mem_cons_self
        . rw [hab]
          exact mem_cons_self
      . apply ih hs.2 hs'.2
        . intro k
          have hk := hkeys k
          constructor
          . intro hmem
            have h1 := hgt k hmem
            cases hk.mp (Or.inr hmem) with
            | inl h => omega
            | inr h => exact h
          . intro hmem
            have h1 := hgt' k hmem
            cases hk.mpr (Or.inr hmem) with
            | inl h => omega
            | inr h => exact h
        . intro k v v' hv hv'
          exact hrel k v v' (mem_cons_of_mem a hv) (mem_cons_of_mem b hv')

section

variable (h : List.Forall₂ (fun a b => a.1 = b.1 ∧ R a.2 b.2) l l')

include h

theorem exists_rel_of_forall₂ {k : Nat} {v : V} (hv : (k, v) ∈ l)
    : ∃ v', (k, v') ∈ l' ∧ R v v' := by
  induction h with
  | nil => cases hv
  | cons hab h ih =>
    rw [mem_cons] at hv
    cases hv with
    | inl hv =>
      next b _ _ =>
        subst hv
        have hk : k = b.1 := hab.1
        apply Exists.intro b.2
        rw [hk]
        exact ⟨mem_cons_self, hab.2⟩
    | inr hv =>
      cases ih hv with
      | intro v' hv' => exact ⟨v', mem_cons_of_mem _ hv'.1, hv'.2⟩

theorem keys_eq_of_forall₂
    : l.map Prod.fst = l'.map Prod.fst := by
  induction h with
  | nil => rfl
  | cons hab _ ih => rw [map_cons, map_cons, hab.1, ih]

end

theorem forall_rel_iff {m m' : Nat → Option V} (R : V → V → Prop) (h : Binds l m) (h' : Binds l' m')
    (hs : KeySorted l) (hs' : KeySorted l')
    : (∀ k, Option.Rel R (m k) (m' k))
      ↔ Forall₂ (fun a b => a.1 = b.1 ∧ R a.2 b.2) l l' := by
  constructor
  . intro hrel
    apply forall₂_of_keys hs hs'
    . intro k
      rw [← h.isSome_iff, ← h'.isSome_iff]
      have := hrel k
      generalize m k = x at this
      generalize m' k = y at this
      cases this with
      | some _ => rfl
      | none => rfl
    . intro k v v' hv hv'
      have := hrel k
      rw [(h.mem k v).mpr hv, (h'.mem k v').mpr hv'] at this
      cases this with
      | some hr => exact hr
  . intro hall k
    cases hk : m k with
    | some v =>
      obtain ⟨v', hmem, hr⟩ := exists_rel_of_forall₂ hall ((h.mem k v).mp hk)
      rw [(h'.mem k v').mpr hmem]
      exact Option.Rel.some hr
    | none =>
      rw [h.eq_none_iff, keys_eq_of_forall₂ hall, ← h'.eq_none_iff] at hk
      rw [hk]
      exact Option.Rel.none

theorem Binds.sorted_unique {m : Nat → Option V} (h : Binds l m) (h' : Binds l' m)
    (hs : KeySorted l) (hs' : KeySorted l') : l = l' := by
  apply (h.perm_of_binds h').eq_of_pairwise _ hs hs'
  intro a b _ _ hab hba
  omega
