import GapKernel.PlainSet.Lemmas.Search
import GapKernel.Sort.Lemmas.Spec
import Mathlib.Data.List.ReduceOption

open List Bool

namespace PlainSetImpl

open PlistHeap

variable {E : Type} {eq lt : E → E → Bool}

section

variable (ho : IsSetOrder eq lt)

include ho

theorem isSSortLoop_iff (elm1 : E) (entries : List (Option E))
    : isSSortLoop lt elm1 entries = true
        ↔ ∃ l, entries = l.map some ∧ StrictlySorted lt (elm1 :: l) := by
  induction entries generalizing elm1 with
  | nil =>
    simp only [isSSortLoop, true_iff]
    exact ⟨[], rfl, pairwise_singleton _ _⟩
  | cons entry entries ih =>
    cases entry with
    | none =>
      simp only [isSSortLoop, false_eq_true, false_iff]
      rintro ⟨l, hl, _⟩
      cases l with
      | nil => cases hl
      | cons x l => simp at hl
    | some elm2 =>
      unfold isSSortLoop
      constructor
      . intro h
        split at h
        next hlt =>
          obtain ⟨l, rfl, hsorted⟩ := (ih elm2).mp h
          refine ⟨elm2 :: l, rfl, ?_⟩
          rw [StrictlySorted.cons_iff]
          refine ⟨?_, hsorted⟩
          intro a ha
          rcases mem_cons.mp ha with rfl | ha
          . exact hlt
          . exact ho.lt_trans hlt ((StrictlySorted.cons_iff.mp hsorted).1 a ha)
        next => cases h
      . rintro ⟨l, hl, hsorted⟩
        cases l with
        | nil => cases hl
        | cons x l =>
          rw [map_cons, List.cons.injEq, Option.some.injEq] at hl
          rw [StrictlySorted.cons_iff] at hsorted
          rw [← hl.1] at hsorted
          rw [if_pos (hsorted.1 elm2 mem_cons_self)]
          rw [ih]
          exact ⟨l, hl.2, hsorted.2⟩

theorem isSSortPlist_iff (entries : List (Option E))
    : isSSortPlist lt entries = true ↔ ∃ l, entries = l.map some ∧ StrictlySorted lt l := by
  cases entries with
  | nil =>
    simp only [isSSortPlist, true_iff]
    exact ⟨[], rfl, List.Pairwise.nil⟩
  | cons entry entries =>
    cases entry with
    | none =>
      simp only [isSSortPlist, false_eq_true, false_iff]
      rintro ⟨l, hl, _⟩
      cases l with
      | nil => cases hl
      | cons x l => simp at hl
    | some elm =>
      unfold isSSortPlist
      rw [isSSortLoop_iff ho]
      constructor
      . rintro ⟨l, rfl, hsorted⟩
        exact ⟨elm :: l, rfl, hsorted⟩
      . rintro ⟨l, hl, hsorted⟩
        cases l with
        | nil => cases hl
        | cons x l =>
          rw [map_cons, List.cons.injEq, Option.some.injEq] at hl
          rw [hl.1]
          exact ⟨l, hl.2, hsorted⟩

theorem sortDensePlist_spec [DecidableEq E] (l : List E)
    : ∃ l', sortDensePlist lt l = .ok l' ∧ l'.Pairwise (fun a b => lt b a = false)
        ∧ ∀ x, x ∈ l' ↔ x ∈ l := by
  obtain ⟨s', σ, hsort, hsorting⟩ := sort_isSorting (fun (func : Unit) a b => (lt a b, func)) l ()
  refine ⟨s'.list, ?_, ?_, ?_⟩
  . unfold sortDensePlist
    rw [hsort]
    rfl
  . have := hsorting.sorted (fun a b => lt a b = true) ⟨ho.order, fun _ _ _ => Iff.rfl⟩
    simpa using this
  . intro x
    rw [mem_iff_getElem?, mem_iff_getElem?]
    constructor
    . rintro ⟨i, hi⟩
      rw [hsorting.permuted i] at hi
      exact ⟨σ i, hi⟩
    . rintro ⟨i, hi⟩
      refine ⟨σ.symm i, ?_⟩
      rw [hsorting.permuted, Equiv.apply_symm_apply]
      exact hi

theorem removeDupsLoop_spec {fuel len : Nat} (list gap : List (Option E)) (l i : Nat)
    (out rest : List E) (v : E)
    (hlist : list = out.map some ++ some v :: (gap ++ rest.map some))
    (hlen : len = list.length) (hl : l = out.length + 1) (hi : i = l + gap.length + 1)
    (hout : StrictlySorted lt (out ++ [v]))
    (hrest : (v :: rest).Pairwise (fun a b => lt b a = false)) (hfuel : rest.length < fuel)
    : ∃ set, StrictlySorted lt set
        ∧ (∀ x, memSet eq x set = memSet eq x (out ++ v :: rest))
        ∧ removeDupsLoop eq len fuel list l i v = .ok (set.map some) := by
  induction fuel generalizing list gap l i out rest v with
  | zero => omega
  | succ fuel ih =>
    have hlength : list.length = l + gap.length + rest.length := by
      rw [hlist, hl]
      simp only [length_append, length_cons, length_map]
      omega
    unfold removeDupsLoop
    cases rest with
    | nil =>
      rw [if_neg (by simp only [length_nil] at hlength; omega)]
      refine ⟨out ++ [v], hout, by simp, ?_⟩
      rw [hlist, map_nil, append_nil, ← singleton_append, ← append_assoc]
      rw [take_left' (by simp [hl]), map_append]
      rfl
    | cons w rest =>
      simp only [length_cons] at hlength hfuel
      rw [pairwise_cons] at hrest
      rw [if_pos (by omega)]
      have hsplit : list = (out.map some ++ some v :: gap) ++ some w :: rest.map some := by
        rw [hlist]
        simp
      have hpos : i = (out.map some ++ some v :: gap).length + 1 := by
        simp only [length_append, length_cons, length_map]
        omega
      have helm : elmPlist list i = .ok (some w) := by
        rw [hpos, hsplit]
        apply elmPlist_append_cons
      rw [helm]
      rw [ok_bind]
      dsimp only
      by_cases heq : eq v w = true
      . rw [if_neg (by simp [heq])]
        have hrest' : (v :: rest).Pairwise (fun a b => lt b a = false) := by
          rw [pairwise_cons]
          exact ⟨fun x hx => hrest.1 x (mem_cons_of_mem _ hx),
            (pairwise_cons.mp hrest.2).2⟩
        obtain ⟨set, hset, hmem, hrun⟩ := ih list (gap ++ [some w]) l (i + 1) out rest v
          (by simp [hlist]) hlen hl
          (by
            rw [length_append, length_singleton]
            omega) hout hrest' (by omega)
        refine ⟨set, hset, ?_, hrun⟩
        intro x
        rw [hmem, memSet_append, memSet_append, memSet_cons, memSet_cons, memSet_cons]
        -- An element that is equal to `w` is equal to `v`.
        by_cases hxw : eq x w = true
        . rw [ho.eq_comm] at heq
          have := ho.eq_trans hxw heq
          simp [this]
        . simp [hxw]
      . rw [if_pos (by simp [heq])]
        rw [not_eq_true, ho.eq_comm] at heq
        have hvw := ho.lt_of_not_eq heq (hrest.1 w mem_cons_self)
        have hout' : StrictlySorted lt ((out ++ [v]) ++ [w]) := by
          rw [StrictlySorted.append_iff]
          refine ⟨hout, pairwise_singleton _ _, ?_⟩
          intro a ha b hb
          rw [mem_singleton.mp hb]
          rcases mem_append.mp ha with ha | ha
          . have hav := (StrictlySorted.append_iff.mp hout).2.2 a ha v mem_cons_self
            exact ho.lt_trans hav hvw
          . rw [mem_singleton.mp ha]
            exact hvw
        have hmem' : ∀ x, memSet eq x ((out ++ [v]) ++ w :: rest)
            = memSet eq x (out ++ v :: w :: rest) := by
          simp
        cases gap with
        | nil =>
          rw [if_neg (by simp only [length_nil] at hi; omega)]
          rw [pure_bind]
          obtain ⟨set, hset, hmem, hrun⟩ := ih list [] (l + 1) (i + 1) (out ++ [v]) rest w
            (by simp [hlist]) hlen (by simp [hl]) (by simp only [length_nil] at *; omega) hout'
            hrest.2 (by omega)
          exact ⟨set, hset, fun x => (hmem x).trans (hmem' x), hrun⟩
        | cons g gap =>
          simp only [length_cons] at hi
          rw [if_pos (by omega)]
          have hset1 : setElmPlist list (l + 1) (some w)
              = .ok ((out.map some ++ some v :: some w :: gap) ++ some w :: rest.map some) := by
            rw [show list = ((out ++ [v]).map some) ++ g :: (gap ++ some w :: rest.map some) by
              simp [hlist]]
            rw [show l + 1 = ((out ++ [v]).map some).length + 1 by simp [hl]]
            rw [setElmPlist_append_cons]
            simp
          rw [hset1]
          rw [ok_bind]
          have hset2 : setElmPlist ((out.map some ++ some v :: some w :: gap)
              ++ some w :: rest.map some) i none
                = .ok ((out.map some ++ some v :: some w :: gap) ++ none :: rest.map some) := by
            rw [show i = (out.map some ++ some v :: some w :: gap).length + 1 by
              simp only [length_append, length_cons, length_map]
              omega]
            apply setElmPlist_append_cons
          rw [hset2]
          rw [ok_bind]
          obtain ⟨set, hset, hmem, hrun⟩ := ih
            ((out.map some ++ some v :: some w :: gap) ++ none :: rest.map some) (gap ++ [none])
            (l + 1) (i + 1) (out ++ [v]) rest w (by simp)
            (by
              rw [hlen, hsplit]
              simp)
            (by simp [hl])
            (by
              rw [length_append, length_singleton]
              omega) hout' hrest.2 (by omega)
          exact ⟨set, hset, fun x => (hmem x).trans (hmem' x), hrun⟩

theorem removeDupsDensePlist_spec (l : List E) (hsorted : l.Pairwise (fun a b => lt b a = false))
    : ∃ l', removeDupsDensePlist eq (l.map some) = .ok (l'.map some) ∧ StrictlySorted lt l'
        ∧ ∀ x, memSet eq x l' = memSet eq x l := by
  unfold removeDupsDensePlist
  cases l with
  | nil => exact ⟨[], rfl, List.Pairwise.nil, fun _ => rfl⟩
  | cons v l =>
    dsimp only
    rw [if_neg (by simp)]
    rw [map_cons]
    rw [show elmPlist (some v :: l.map some) 1 = .ok (some v) from rfl]
    rw [ok_bind]
    obtain ⟨l', hl', hmem, hrun⟩ := removeDupsLoop_spec ho (some v :: l.map some) [] 1 2 [] l v
      rfl rfl rfl rfl (pairwise_singleton _ _) hsorted (Nat.lt_succ_self _)
    refine ⟨l', ?_, hl', hmem⟩
    rw [← hrun]
    simp

theorem setList_spec [DecidableEq E] (entries : List (Option E))
    : ∃ l, setList eq lt entries = .ok (l.map some) ∧ StrictlySorted lt l
        ∧ ∀ x, memSet eq x l = memSet eq x entries.reduceOption := by
  obtain ⟨sorted, hsort, hsorted, hmem⟩ := sortDensePlist_spec ho entries.reduceOption
  obtain ⟨l, hl, hlsorted, hlmem⟩ := removeDupsDensePlist_spec ho sorted hsorted
  refine ⟨l, ?_, hlsorted, ?_⟩
  . unfold setList
    dsimp only
    rw [hsort]
    rw [ok_bind]
    exact hl
  . intro x
    rw [hlmem]
    unfold memSet
    rw [Bool.eq_iff_iff, any_eq_true, any_eq_true]
    simp only [hmem]

theorem isPlainSet_iff (bag : SmallList E)
    : isPlainSet lt bag = true
        ↔ bag.isPlist = true ∧ ∃ l, bag.entries = l.map some ∧ StrictlySorted lt l := by
  unfold isPlainSet
  rw [and_eq_true, isSSortPlist_iff ho]

theorem requireMutableSet_spec {h : PlistHeap E} {list : Nat} {A : List E} (hl : h.Holds list A)
    (hsorted : StrictlySorted lt A) (funcname argname : String)
    : requireMutableSet lt funcname argname h list = .ok h := by
  unfold requireMutableSet isSet
  rw [bag_eq_iff.mpr hl]
  rw [ok_bind]
  rw [if_pos ((isPlainSet_iff ho _).mpr ⟨rfl, A, rfl, hsorted⟩)]
  rfl

theorem asPlainSet_spec [DecidableEq E] {h : PlistHeap E} {list : Nat} {bag : SmallList E}
    (hbag : h.bags[list]? = some bag)
    : ∃ h' list' l, asPlainSet eq lt h list = .ok (h', list') ∧ h'.Holds list' l
        ∧ StrictlySorted lt l ∧ (∀ x, memSet eq x l = memSet eq x bag.entries.reduceOption)
        ∧ ∀ list'', list'' < h.bags.length → h'.bags[list'']? = h.bags[list'']? := by
  unfold asPlainSet
  rw [bag_eq_iff.mpr hbag]
  rw [ok_bind]
  by_cases hset : isPlainSet lt bag = true
  . rw [if_neg (by simp [hset])]
    obtain ⟨hplist, l, hl, hsorted⟩ := (isPlainSet_iff ho bag).mp hset
    refine ⟨h, list, l, rfl, ?_, hsorted, ?_, fun _ _ => rfl⟩
    . unfold Holds
      rw [hbag, ← hl, ← hplist]
    . intro x
      rw [hl]
      simp [List.reduceOption]
  . rw [if_pos (by simp [hset])]
    obtain ⟨l, hl, hsorted, hmem⟩ := setList_spec ho bag.entries
    rw [hl]
    rw [ok_bind]
    refine ⟨_, _, l, rfl, ?_, hsorted, hmem, ?_⟩
    . apply holds_newPlist
    . intro list'' hlt
      apply newPlist_old
      exact hlt

end

end PlainSetImpl
