import GapKernel.FunctionalGraph
import Mathlib.Data.PEquiv

/-!
This module contains the components of a partial injective map of a finite set: the maximal chains
and the cycles.
-/

open List Function Option
open Nat (succ_pos mod_lt)

structure PointPath (α : Type*) where
  first : α
  rest : List α

namespace PointPath

variable {α : Type*}

def points (p : PointPath α) : List α :=
  p.first :: p.rest

def last (p : PointPath α) : α :=
  p.points.getLast (List.cons_ne_nil p.first p.rest)

theorem first_mem (p : PointPath α) : p.first ∈ p.points :=
  mem_cons_self

end PointPath

namespace PartialComponents

variable {α : Type*} {φ : α ≃. α} {p : PointPath α}

def IsWalk (φ : α ≃. α) (l : List α) : Prop :=
  l.IsChain (fun a b => φ a = some b)

structure IsMaxChain (φ : α ≃. α) (p : PointPath α) : Prop where
  walk : IsWalk φ p.points
  first : φ.symm p.first = none
  moved : p.rest ≠ []
  last : φ p.last = none

structure IsCycle (φ : α ≃. α) (p : PointPath α) : Prop where
  walk : IsWalk φ p.points
  nodup : p.points.Nodup
  last : φ p.last = some p.first

/--
The components are the maximal chains and the cycles. Every point that is moved or is an image is in
one of them, and there only once.
-/
structure IsComponents (φ : α ≃. α) (chains cycles : List (PointPath α)) : Prop where
  chain : ∀ p ∈ chains, IsMaxChain φ p
  cycle : ∀ p ∈ cycles, IsCycle φ p
  nodup : ((chains ++ cycles).flatMap PointPath.points).Nodup
  mem : ∀ x, x ∈ (chains ++ cycles).flatMap PointPath.points
    ↔ (φ x).isSome = true ∨ (φ.symm x).isSome = true

section Walk

variable {l : List α}

theorem IsWalk.next (h : IsWalk φ l) {i : Nat} (hi : i + 1 < l.length)
    : φ l[i] = some l[i + 1] :=
  isChain_iff_getElem.mp h i hi

theorem PointPath.getElem_length_sub_one (p : PointPath α)
    (h : p.points.length - 1 < p.points.length) : p.points[p.points.length - 1] = p.last :=
  (getLast_eq_getElem (cons_ne_nil p.first p.rest)).symm

variable {y : α}

theorem IsWalk.return_first (h : IsWalk φ p.points) (hnodup : p.points.Nodup)
    (hlast : φ p.last = some y) (hy : y ∈ p.points) : y = p.first := by
  obtain ⟨i, hi, rfl⟩ := mem_iff_getElem.mp hy
  cases i with
  | zero => rfl
  | succ i =>
    have hlen : p.points.length - 1 < p.points.length := by omega
    rw [← PointPath.getElem_length_sub_one p hlen] at hlast
    have hinj := φ.inj hlast (h.next hi)
    rw [hnodup.getElem_inj_iff] at hinj
    omega

theorem IsWalk.snoc (h : IsWalk φ p.points) (hlast : φ p.last = some y)
    : IsWalk φ (p.points ++ [y]) := by
  apply List.IsChain.append h (isChain_singleton y)
  intro a ha b hb
  have ha : p.points.getLast? = some a := ha
  unfold PointPath.points at ha
  rw [getLast?_eq_getLast_of_ne_nil (cons_ne_nil p.first p.rest)] at ha
  cases ha
  cases hb
  exact hlast

variable {s : Finset α}

theorem length_le_card (hnodup : l.Nodup) (hmem : ∀ x ∈ l, x ∈ s)
    : l.length ≤ s.card :=
  @Finset.card_le_card _ ⟨(l : Multiset α), hnodup⟩ s hmem

variable {a : α}

theorem exists_walk_end (hs : ∀ a b, φ a = some b → b ∈ s) (ha : a ∈ s)
    : ∃ p : PointPath α, p.first = a ∧ IsWalk φ p.points ∧ p.points.Nodup ∧ (∀ x ∈ p.points, x ∈ s)
        ∧ (φ p.last = none ∨ φ p.last = some a) := by
  suffices h : ∀ n, ∀ l : List α, s.card < (a :: l).length + n → IsWalk φ (a :: l)
      → (a :: l).Nodup → (∀ x ∈ a :: l, x ∈ s) → ∃ p : PointPath α, p.first = a ∧ IsWalk φ p.points
        ∧ p.points.Nodup ∧ (∀ x ∈ p.points, x ∈ s) ∧ (φ p.last = none ∨ φ p.last = some a) by
    have hlen : s.card < [a].length + (s.card + 1) := by
      rw [length_singleton]
      omega
    apply h (s.card + 1) [] hlen (isChain_singleton a) (nodup_singleton a)
    intro x hx
    rw [mem_singleton.mp hx]
    exact ha
  intro n
  induction n with
  | zero =>
    intro l hn _ hnodup hmem
    have := length_le_card hnodup hmem
    omega
  | succ n ih =>
    intro l hn hwalk hnodup hmem
    cases hlast : φ (PointPath.last ⟨a, l⟩) with
    | none => exact ⟨⟨a, l⟩, rfl, hwalk, hnodup, hmem, .inl hlast⟩
    | some y =>
      by_cases hy : y ∈ a :: l
      . have hfirst : y = a := @IsWalk.return_first _ _ ⟨a, l⟩ y hwalk hnodup hlast hy
        rw [hfirst] at hlast
        exact ⟨⟨a, l⟩, rfl, hwalk, hnodup, hmem, .inr hlast⟩
      . apply ih (l ++ [y])
        . rw [← cons_append, length_append, length_singleton]
          omega
        . exact @IsWalk.snoc _ _ ⟨a, l⟩ y hwalk hlast
        . rw [← cons_append, ← concat_eq_append]
          exact hnodup.concat hy
        . intro x hx
          rw [← cons_append] at hx
          cases mem_append.mp hx with
          | inl hx => exact hmem x hx
          | inr hx =>
            rw [mem_singleton.mp hx]
            exact hs _ y hlast

variable {x : α}

theorem IsMaxChain.next_mem (h : IsMaxChain φ p) (hx : x ∈ p.points) (hxy : φ x = some y)
    : y ∈ p.points := by
  obtain ⟨i, hi, rfl⟩ := mem_iff_getElem.mp hx
  by_cases hlt : i + 1 < p.points.length
  . rw [h.walk.next hlt] at hxy
    rw [← Option.some.inj hxy]
    exact getElem_mem hlt
  . have hlast := h.last
    rw [← PointPath.getElem_length_sub_one p (by omega)] at hlast
    have hi' : i = p.points.length - 1 := by omega
    subst hi'
    rw [hlast] at hxy
    contradiction

theorem IsCycle.next_mem (h : IsCycle φ p) (hx : x ∈ p.points) (hxy : φ x = some y)
    : y ∈ p.points := by
  obtain ⟨i, hi, rfl⟩ := mem_iff_getElem.mp hx
  by_cases hlt : i + 1 < p.points.length
  . rw [h.walk.next hlt] at hxy
    rw [← Option.some.inj hxy]
    exact getElem_mem hlt
  . have hlast := h.last
    rw [← PointPath.getElem_length_sub_one p (by omega)] at hlast
    have hi' : i = p.points.length - 1 := by omega
    subst hi'
    rw [hlast] at hxy
    rw [← Option.some.inj hxy]
    exact p.first_mem

theorem IsWalk.prev_mem (h : IsWalk φ p.points) (hy : y ∈ p.points) (hne : y ≠ p.first)
    (hxy : φ x = some y) : x ∈ p.points := by
  obtain ⟨i, hi, rfl⟩ := mem_iff_getElem.mp hy
  cases i with
  | zero => exact absurd rfl hne
  | succ i =>
    rw [φ.inj hxy (h.next hi)]
    apply getElem_mem

theorem IsMaxChain.prev_mem (h : IsMaxChain φ p) (hy : y ∈ p.points) (hxy : φ x = some y)
    : x ∈ p.points := by
  apply h.walk.prev_mem hy ?_ hxy
  intro hfirst
  have hsymm := φ.eq_some_iff.mpr hxy
  rw [hfirst, h.first] at hsymm
  contradiction

theorem IsCycle.prev_mem (h : IsCycle φ p) (hy : y ∈ p.points) (hxy : φ x = some y)
    : x ∈ p.points := by
  by_cases hfirst : y = p.first
  . rw [hfirst] at hxy
    rw [φ.inj hxy h.last]
    exact getLast_mem _
  . exact h.walk.prev_mem hy hfirst hxy

theorem IsMaxChain.moved_or_image (h : IsMaxChain φ p) (hx : x ∈ p.points)
    : φ x ≠ none ∨ φ.symm x ≠ none := by
  obtain ⟨i, hi, rfl⟩ := mem_iff_getElem.mp hx
  cases i with
  | zero =>
    left
    have hlen : 0 < p.rest.length := length_pos_iff.mpr h.moved
    rw [h.walk.next (Nat.succ_lt_succ hlen)]
    exact some_ne_none _
  | succ i =>
    right
    rw [φ.eq_some_iff.mpr (h.walk.next hi)]
    exact some_ne_none _

theorem IsCycle.moved (h : IsCycle φ p) (hx : x ∈ p.points) : φ x ≠ none := by
  obtain ⟨i, hi, rfl⟩ := mem_iff_getElem.mp hx
  by_cases hlt : i + 1 < p.points.length
  . rw [h.walk.next hlt]
    exact some_ne_none _
  . have hlast := h.last
    rw [← PointPath.getElem_length_sub_one p (by omega)] at hlast
    simp only [show i = p.points.length - 1 by omega]
    rw [hlast]
    exact some_ne_none _

theorem IsWalk.first_mem_of_mem (h : IsWalk φ p.points) (hl : ∀ x y, φ x = some y → y ∈ l → x ∈ l)
    (hx : x ∈ p.points) (hxl : x ∈ l)
    : p.first ∈ l := by
  obtain ⟨i, hi, rfl⟩ := mem_iff_getElem.mp hx
  induction i with
  | zero => exact hxl
  | succ i ih => exact ih (by omega) (getElem_mem _) (hl _ _ (h.next hi) hxl)

theorem exists_maxChain (hs : ∀ a b, φ a = some b → b ∈ s) (ha : a ∈ s) (hfirst : φ.symm a = none)
    (hmoved : φ a ≠ none)
    : ∃ p : PointPath α, p.first = a ∧ IsMaxChain φ p ∧ p.points.Nodup := by
  obtain ⟨p, rfl, hwalk, hnodup, _, hend⟩ := exists_walk_end hs ha
  cases hend with
  | inl hlast =>
    refine ⟨p, rfl, ⟨hwalk, hfirst, ?_, hlast⟩, hnodup⟩
    intro hrest
    apply hmoved
    rw [← hlast]
    unfold PointPath.last PointPath.points
    congr 1
    rw [getLast_congr _ (cons_ne_nil p.first []) (by rw [hrest])]
    rfl
  | inr hcycle =>
    rw [φ.eq_some_iff.mpr hcycle] at hfirst
    contradiction

theorem IsWalk.reverse (h : IsWalk φ.symm l) : IsWalk φ l.reverse := by
  unfold IsWalk
  rw [isChain_reverse]
  exact List.IsChain.imp (fun a b hab => φ.eq_some_iff.mp hab) h

theorem IsWalk.last_moved (h : IsWalk φ.symm p.points) (hfirst : φ p.first ≠ none)
    : φ p.last ≠ none := by
  by_cases hrest : p.points.length = 1
  . have hlast : p.last = p.first := by
      rw [← PointPath.getElem_length_sub_one p (by omega)]
      simp only [hrest]
      rfl
    rw [hlast]
    exact hfirst
  . have hlen : 0 < p.points.length := succ_pos _
    have hlt : p.points.length - 2 + 1 < p.points.length := by omega
    have hnext := φ.eq_some_iff.mp (h.next hlt)
    simp only [show p.points.length - 2 + 1 = p.points.length - 1 by omega] at hnext
    rw [PointPath.getElem_length_sub_one p (by omega)] at hnext
    rw [hnext]
    exact some_ne_none _

-- The cycle begins at the same point, and goes through the others in the reverse order.
theorem isCycle_reverse (h : IsWalk φ.symm p.points) (hnodup : p.points.Nodup)
    (hlast : φ.symm p.last = some p.first) : IsCycle φ ⟨p.first, p.rest.reverse⟩ := by
  obtain ⟨a, rest⟩ := p
  have hperm : (a :: rest.reverse).Perm (a :: rest) := rest.reverse_perm.cons a
  have hlast := φ.eq_some_iff.mp hlast
  cases rest with
  | nil => exact ⟨isChain_singleton a, nodup_singleton a, hlast⟩
  | cons b l =>
    have hrest : IsWalk φ.symm (b :: l) := (isChain_cons_cons.mp h).2
    have hb : φ b = some a := φ.eq_some_iff.mp (isChain_cons_cons.mp h).1
    constructor
    . apply List.IsChain.cons hrest.reverse
      intro y hy
      have hy : (b :: l).reverse.head? = some y := hy
      rw [head?_reverse, getLast?_eq_getLast_of_ne_nil (cons_ne_nil b l)] at hy
      cases hy
      exact hlast
    . exact hperm.nodup_iff.mpr hnodup
    . have hend : PointPath.last ⟨a, (b :: l).reverse⟩ = b := by
        unfold PointPath.last PointPath.points
        rw [getLast_cons (by simp), getLast_reverse]
        rfl
      rw [hend]
      exact hb

theorem exists_cycle (hs : ∀ a b, φ a = some b → a ∈ s) (hl : ∀ x y, φ x = some y → x ∈ l → y ∈ l)
    (hfirst : ∀ x, φ x ≠ none → φ.symm x = none → x ∈ l) (ha : φ a ≠ none) (hal : a ∉ l)
    : ∃ p : PointPath α, p.first = a ∧ IsCycle φ p := by
  obtain ⟨b, hb⟩ := ne_none_iff_exists'.mp ha
  have hs' : ∀ x y, φ.symm x = some y → y ∈ s := fun x y hxy => hs y x (φ.eq_some_iff.mp hxy)
  obtain ⟨q, rfl, hwalk, hnodup, _, hend⟩ := exists_walk_end hs' (hs a b hb)
  cases hend with
  | inl hlast =>
    -- The walk backwards ends at the first point of a chain.
    have hback : ∀ x y, φ.symm x = some y → y ∈ l → x ∈ l := fun x y hxy hy =>
      hl y x (φ.eq_some_iff.mp hxy) hy
    have hlastMem : q.last ∈ l := hfirst _ (hwalk.last_moved ha) hlast
    exact absurd (hwalk.first_mem_of_mem hback (getLast_mem _) hlastMem) hal
  | inr hcycle => exact ⟨⟨q.first, q.rest.reverse⟩, rfl, isCycle_reverse hwalk hnodup hcycle⟩

end Walk

section Power

def power (φ : α ≃. α) : Nat → α ≃. α
  | 0 => PEquiv.refl α
  | k + 1 => (power φ k).trans φ

theorem power_apply (k : Nat) (x : α) : power φ k x = (fun o => o.bind φ)^[k] (some x) := by
  induction k with
  | zero => rfl
  | succ k ih =>
    rw [iterate_succ_apply', ← ih]
    rfl

theorem power_add (i j : Nat) : power φ (i + j) = (power φ i).trans (power φ j) := by
  induction j with
  | zero => exact (PEquiv.trans_refl _).symm
  | succ j ih =>
    change (power φ (i + j)).trans φ = (power φ i).trans ((power φ j).trans φ)
    rw [ih, PEquiv.trans_assoc]

theorem power_succ_of_eq_none {x : α} (hx : φ x = none) (k : Nat) : power φ (k + 1) x = none := by
  rw [power_apply, iterate_succ_apply, bind_some, hx]
  exact iterate_fixed rfl k

variable {i : Nat}

theorem IsMaxChain.power_apply (h : IsMaxChain φ p) (hi : i < p.points.length) (k : Nat)
    : power φ k p.points[i] = p.points[i + k]? := by
  induction k with
  | zero =>
    rw [Nat.add_zero, getElem?_eq_getElem hi]
    rfl
  | succ k ih =>
    change (power φ k p.points[i]).bind φ = _
    rw [ih]
    by_cases hlt : i + k + 1 < p.points.length
    . rw [getElem?_eq_getElem (by omega), bind_some, h.walk.next hlt,
        ← getElem?_eq_getElem hlt]
      rfl
    . rw [getElem?_eq_none (show p.points.length ≤ i + (k + 1) by omega)]
      by_cases hend : i + k < p.points.length
      . have hlast := h.last
        rw [← PointPath.getElem_length_sub_one p (by omega)] at hlast
        rw [getElem?_eq_getElem hend, bind_some, ← hlast]
        congr 2
        omega
      . rw [getElem?_eq_none (by omega)]
        rfl

theorem IsCycle.power_apply (h : IsCycle φ p) (hi : i < p.points.length) (k : Nat)
    : power φ k p.points[i] = p.points[(i + k) % p.points.length]? := by
  induction k with
  | zero =>
    rw [Nat.add_zero, Nat.mod_eq_of_lt hi, getElem?_eq_getElem hi]
    rfl
  | succ k ih =>
    change (power φ k p.points[i]).bind φ = _
    have hmod := mod_lt (i + k) (show 0 < p.points.length by omega)
    rw [ih, getElem?_eq_getElem hmod, bind_some]
    have hdiv := Nat.div_add_mod (i + k) p.points.length
    by_cases hlt : (i + k) % p.points.length + 1 < p.points.length
    . have hsucc : (i + (k + 1)) % p.points.length = (i + k) % p.points.length + 1 := by
        rw [← Nat.add_assoc, ← hdiv, Nat.add_assoc, Nat.mul_add_mod, hdiv, Nat.mod_eq_of_lt hlt]
      rw [h.walk.next hlt, hsucc, getElem?_eq_getElem hlt]
    . have hlast := h.last
      rw [← PointPath.getElem_length_sub_one p (by omega)] at hlast
      have heq : (i + k) % p.points.length = p.points.length - 1 := by omega
      have hsucc : (i + (k + 1)) % p.points.length = 0 := by
        rw [← Nat.add_assoc, ← hdiv, Nat.add_assoc, Nat.mul_add_mod, heq,
          Nat.sub_add_cancel (by omega), Nat.mod_self]
      rw [hsucc]
      simp only [heq]
      exact hlast

theorem IsMaxChain.power_eq_iff (h : IsMaxChain φ p) (hnodup : p.points.Nodup) (i : Nat) {d : Nat}
    (hd : 0 < d)
    : (∀ x ∈ p.points, power φ i x = power φ (i + d) x) ↔ p.rest.length < i := by
  have hlen : p.points.length = p.rest.length + 1 := length_cons
  constructor
  . intro heq
    by_contra hlt
    have hpos : 0 < p.points.length := by omega
    have heq := heq _ (getElem_mem hpos)
    rw [h.power_apply hpos, h.power_apply hpos, Nat.zero_add, Nat.zero_add] at heq
    have := (getElem?_inj (show i < p.points.length by omega) hnodup).mp heq
    omega
  . intro hlt x hx
    obtain ⟨j, hj, rfl⟩ := mem_iff_getElem.mp hx
    rw [h.power_apply hj, h.power_apply hj]
    rw [getElem?_eq_none (by omega), getElem?_eq_none (by omega)]

theorem IsCycle.power_eq_iff (h : IsCycle φ p) (i d : Nat)
    : (∀ x ∈ p.points, power φ i x = power φ (i + d) x) ↔ p.points.length ∣ d := by
  have hpos : 0 < p.points.length := succ_pos _
  constructor
  . intro heq
    have heq := heq _ (getElem_mem hpos)
    rw [h.power_apply hpos, h.power_apply hpos, Nat.zero_add, Nat.zero_add] at heq
    have hmod := (getElem?_inj (mod_lt i hpos) h.nodup).mp heq
    have hdvd := Nat.sub_mod_eq_zero_of_mod_eq hmod.symm
    rw [Nat.add_sub_cancel_left] at hdvd
    exact Nat.dvd_of_mod_eq_zero hdvd
  . intro ⟨k, hk⟩ x hx
    obtain ⟨j, hj, rfl⟩ := mem_iff_getElem.mp hx
    rw [h.power_apply hj, h.power_apply hj]
    rw [hk, ← Nat.add_assoc, Nat.add_mul_mod_self_left]

variable {chains cycles : List (PointPath α)}

theorem IsComponents.power_eq_iff_forall (h : IsComponents φ chains cycles) (hi : 0 < i) (d : Nat)
    : power φ i = power φ (i + d)
      ↔ ∀ p ∈ chains ++ cycles, ∀ x ∈ p.points, power φ i x = power φ (i + d) x := by
  constructor
  . intro heq p _ x _
    rw [← heq]
  . intro heq
    ext1 x
    by_cases hx : x ∈ (chains ++ cycles).flatMap PointPath.points
    . obtain ⟨p, hp, hx⟩ := mem_flatMap.mp hx
      exact heq p hp x hx
    . rw [h.mem, not_or, not_isSome_iff_eq_none] at hx
      obtain ⟨j, rfl⟩ := Nat.exists_eq_succ_of_ne_zero (Nat.ne_of_gt hi)
      rw [power_succ_of_eq_none hx.1, Nat.succ_add, power_succ_of_eq_none hx.1]

def longest (chains : List (PointPath α)) : Nat :=
  chains.foldl (fun n p => if p.rest.length > n then p.rest.length else n) 0

def commonLength (cycles : List (PointPath α)) : Nat :=
  cycles.foldl (fun n p => n.lcm p.points.length) 1

theorem foldl_longest_lt_iff (chains : List (PointPath α)) (n i : Nat)
    : chains.foldl (fun n p => if p.rest.length > n then p.rest.length else n) n < i
      ↔ n < i ∧ ∀ p ∈ chains, p.rest.length < i := by
  induction chains generalizing n with
  | nil => simp
  | cons p chains ih =>
    rw [foldl_cons, ih, forall_mem_cons, ← and_assoc]
    apply and_congr_left
    intro _
    split
    . omega
    . omega

theorem foldl_commonLength_dvd_iff (cycles : List (PointPath α)) (n d : Nat)
    : cycles.foldl (fun n p => n.lcm p.points.length) n ∣ d
      ↔ n ∣ d ∧ ∀ p ∈ cycles, p.points.length ∣ d := by
  induction cycles generalizing n with
  | nil => simp
  | cons p cycles ih => rw [foldl_cons, ih, forall_mem_cons, Nat.lcm_dvd_iff, and_assoc]

theorem foldl_commonLength_pos (cycles : List (PointPath α)) {n : Nat} (hn : 0 < n)
    : 0 < cycles.foldl (fun n p => n.lcm p.points.length) n := by
  induction cycles generalizing n with
  | nil => exact hn
  | cons p cycles ih => exact ih (Nat.lcm_pos hn (succ_pos _))

theorem IsComponents.nodup_of_mem (h : IsComponents φ chains cycles) {p : PointPath α}
    (hp : p ∈ chains ++ cycles) : p.points.Nodup :=
  (nodup_flatMap.mp h.nodup).1 p hp

theorem IsComponents.hasIndexPeriod (h : IsComponents φ chains cycles)
    : HasIndexPeriod (power φ) (longest chains + 1) (commonLength cycles) where
  index_pos := succ_pos _
  period_pos := foldl_commonLength_pos cycles Nat.one_pos
  eq_iff := by
    intro i d hi hd
    rw [h.power_eq_iff_forall hi, forall_mem_append, Nat.succ_le_iff]
    unfold longest commonLength
    rw [foldl_longest_lt_iff, foldl_commonLength_dvd_iff]
    apply and_congr
    . rw [and_iff_right hi]
      apply forall₂_congr
      intro p hp
      exact (h.chain p hp).power_eq_iff (h.nodup_of_mem (mem_append_left _ hp)) i hd
    . rw [and_iff_right (Nat.one_dvd d)]
      apply forall₂_congr
      intro p hp
      exact (h.cycle p hp).power_eq_iff i d

end Power

section Collect

variable {chains cycles : List (PointPath α)}

structure IsCollected (φ : α ≃. α) (comps : List (PointPath α)) : Prop where
  component : ∀ p ∈ comps, IsMaxChain φ p ∨ IsCycle φ p
  nodup : (comps.flatMap PointPath.points).Nodup

theorem isCollected_nil : IsCollected φ [] where
  component := fun _ hp => absurd hp not_mem_nil
  nodup := nodup_nil

variable {comps : List (PointPath α)}

theorem IsCollected.next_mem (h : IsCollected φ comps) {x y : α} (hxy : φ x = some y)
    (hx : x ∈ comps.flatMap PointPath.points) : y ∈ comps.flatMap PointPath.points := by
  obtain ⟨p, hp, hx⟩ := mem_flatMap.mp hx
  apply mem_flatMap.mpr ⟨p, hp, ?_⟩
  cases h.component p hp with
  | inl hchain => exact hchain.next_mem hx hxy
  | inr hcycle => exact hcycle.next_mem hx hxy

theorem IsCollected.prev_mem (h : IsCollected φ comps) {x y : α} (hxy : φ x = some y)
    (hy : y ∈ comps.flatMap PointPath.points) : x ∈ comps.flatMap PointPath.points := by
  obtain ⟨p, hp, hy⟩ := mem_flatMap.mp hy
  apply mem_flatMap.mpr ⟨p, hp, ?_⟩
  cases h.component p hp with
  | inl hchain => exact hchain.prev_mem hy hxy
  | inr hcycle => exact hcycle.prev_mem hy hxy

theorem IsCollected.snoc (h : IsCollected φ comps) {p : PointPath α}
    (hp : IsMaxChain φ p ∨ IsCycle φ p) (hnodup : p.points.Nodup)
    (hfirst : p.first ∉ comps.flatMap PointPath.points)
    : IsCollected φ (comps ++ [p]) := by
  have hwalk : IsWalk φ p.points := by
    cases hp with
    | inl hchain => exact hchain.walk
    | inr hcycle => exact hcycle.walk
  constructor
  . intro q hq
    cases mem_append.mp hq with
    | inl hq => exact h.component q hq
    | inr hq =>
      rw [mem_singleton.mp hq]
      exact hp
  . rw [flatMap_append, flatMap_singleton, nodup_append]
    refine ⟨h.nodup, hnodup, ?_⟩
    intro x hx y hy hxy
    rw [hxy] at hx
    exact hfirst (hwalk.first_mem_of_mem (fun _ _ => h.prev_mem) hy hx)

theorem IsCollected.isComponents (h : IsCollected φ (chains ++ cycles))
    (hchains : ∀ p ∈ chains, IsMaxChain φ p) (hcycles : ∀ p ∈ cycles, IsCycle φ p)
    (hall : ∀ x, φ x ≠ none → x ∈ (chains ++ cycles).flatMap PointPath.points)
    : IsComponents φ chains cycles where
  chain := hchains
  cycle := hcycles
  nodup := h.nodup
  mem := by
    intro x
    simp only [isSome_iff_ne_none]
    constructor
    . intro hx
      obtain ⟨p, hp, hx⟩ := mem_flatMap.mp hx
      cases mem_append.mp hp with
      | inl hp => exact (hchains p hp).moved_or_image hx
      | inr hp => exact .inl ((hcycles p hp).moved hx)
    . intro hx
      cases hx with
      | inl hx => exact hall x hx
      | inr hx =>
        obtain ⟨y, hy⟩ := ne_none_iff_exists'.mp hx
        have hyx := φ.eq_some_iff.mp hy
        apply h.next_mem hyx (hall y ?_)
        rw [hyx]
        exact some_ne_none x

end Collect

end PartialComponents
