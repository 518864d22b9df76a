import GapKernel.PlainSet.Lemmas.Change
import GapKernel.PlainSet.Lemmas.Inter

open List Nat

namespace PlainSetImpl

open PlistHeap

variable {E : Type} {eq lt : E → E → Bool} {h : PlistHeap E} {set1 set2 : Nat}

def Becomes (eq lt : E → E → Bool) (h : PlistHeap E) (set1 : Nat) (p : E → Bool)
    (res : Result (PlistHeap E)) : Prop :=
  ∃ h' l, res = .ok h' ∧ h'.Holds set1 l ∧ StrictlySorted lt l ∧ (∀ x, memSet eq x l = p x)
    ∧ SameExcept set1 h h'

def resizeResult (set1 : Nat) (res : Result (PlistHeap E × Nat)) : Result (PlistHeap E) := do
  let (h, lenr) ← res
  h.setLen set1 lenr

theorem resizeResult_ok (out rest : List E) (hset1 : set1 < h.bags.length)
    : resizeResult set1 (.ok (h.store set1 (out ++ rest), out.length))
        = .ok (h.store set1 out) := by
  unfold resizeResult
  rw [ok_bind]
  dsimp only
  rw [(holds_store hset1).setLen rfl]
  rw [store_store]

theorem Holds.resizeResult_same {A : List E} (hA : h.Holds set1 A)
    : resizeResult set1 (.ok (h, A.length)) = .ok (h.store set1 A) := by
  have := resizeResult_ok A [] hA.lt_length
  rw [append_nil, hA.store_self] at this
  rw [hA.store_self]
  exact this

section

variable (ho : IsSetOrder eq lt) {A B : List E}
variable (hA : h.Holds set1 A) (hAsorted : StrictlySorted lt A)
variable (hB : h.Holds set2 B) (hBsorted : StrictlySorted lt B)

include ho

include hA hAsorted hB hBsorted

theorem interSetInner1_spec
    : resizeResult set1 (interSetInner1 eq lt h set1 set2 A.length B.length)
        = .ok (h.store set1 (inter eq A B)) := by
  unfold interSetInner1
  by_cases hne : set2 = set1
  . subst hne
    rw [Holds.unique hB hA, ho.inter_self]
    have hrun := interLoop1_self ho (Reading.start hA)
      (by omega : A.length < A.length + A.length + 1)
    rw [length_nil, nil_append] at hrun
    rw [hrun]
    exact Holds.resizeResult_same hA
  . obtain ⟨rest, hrun⟩ := interLoop1_spec ho hne [] (Reading.start hA) (Reading.start hB)
      hAsorted hBsorted (lt_succ_self _)
    rw [length_nil] at hrun
    rw [hrun, nil_append, resizeResult_ok _ _ hA.lt_length]

theorem interSetInner2_short
    : resizeResult set1 (interSetInner2 eq lt h set1 set2 set1 A.length B.length)
        = .ok (h.store set1 (inter eq A B)) := by
  unfold interSetInner2
  by_cases hne : set2 = set1
  . subst hne
    rw [Holds.unique hB hA, ho.inter_self]
    have hrun := interLoop2_self ho (Reading.start hA) hAsorted (lt_succ_self _)
    rw [length_nil, nil_append] at hrun
    rw [hrun]
    exact Holds.resizeResult_same hA
  . obtain ⟨rest, hrun⟩ := interLoop2_short ho hne [] (Reading.start hA) (Reading.start hB)
      hAsorted hBsorted (lt_succ_self _)
    rw [length_nil] at hrun
    rw [hrun, nil_append, resizeResult_ok _ _ hA.lt_length]

theorem interSetInner2_long
    : resizeResult set1 (interSetInner2 eq lt h set2 set1 set1 B.length A.length)
        = .ok (h.store set1 (inter eq B A)) := by
  unfold interSetInner2
  by_cases hne : set2 = set1
  . subst hne
    rw [Holds.unique hB hA, ho.inter_self]
    have hrun := interLoop2_self ho (Reading.start hA) hAsorted (lt_succ_self _)
    rw [length_nil, nil_append] at hrun
    rw [hrun]
    exact Holds.resizeResult_same hA
  . obtain ⟨rest, hrun⟩ := interLoop2_long ho hne [] (Reading.start hB) (Reading.start hA)
      hBsorted hAsorted (lt_succ_self _)
    rw [length_nil] at hrun
    rw [hrun, nil_append, resizeResult_ok _ _ hA.lt_length]

theorem subtrSetInner1_spec
    : resizeResult set1 (subtrSetInner1 eq lt h set1 set2 A.length B.length)
        = .ok (h.store set1 (diff eq A B)) := by
  unfold subtrSetInner1
  by_cases hne : set2 = set1
  . subst hne
    rw [Holds.unique hB hA, ho.diff_self]
    obtain ⟨i1', hrun, hlast⟩ := subtrLoop1_self ho (Reading.start hA)
      (by omega : A.length < A.length + A.length + 1)
    rw [hrun]
    rw [ok_bind]
    dsimp only
    unfold subtrRestLoop
    rw [if_neg hlast]
    have := resizeResult_ok [] A hA.lt_length
    rw [nil_append, hA.store_self] at this
    exact this
  . obtain ⟨h', out', mid', A', i1', hrun, hr, hle, hout, hstore⟩ := subtrLoop1_spec ho hne []
      (Reading.start hA) (Reading.start hB) hAsorted hBsorted (lt_succ_self _)
    rw [length_nil] at hrun
    rw [hrun]
    rw [ok_bind]
    dsimp only
    obtain ⟨rest, hrest⟩ := subtrRestLoop_spec out' hr (lt_succ_of_le hle)
    rw [hrest, hstore, hout, nil_append, resizeResult_ok _ _ hA.lt_length]

theorem subtrSetInner2_spec
    : resizeResult set1 (subtrSetInner2 eq lt h set1 set2 A.length B.length)
        = .ok (h.store set1 (diff eq A B)) := by
  unfold subtrSetInner2
  by_cases hne : set2 = set1
  . subst hne
    rw [Holds.unique hB hA, ho.diff_self]
    rw [subtrLoop2_self ho (Reading.start hA) hAsorted (lt_succ_self _)]
    have := resizeResult_ok [] A hA.lt_length
    rw [nil_append, hA.store_self] at this
    exact this
  . obtain ⟨rest, hrun⟩ := subtrLoop2_spec ho hne [] (Reading.start hA) (Reading.start hB)
      hAsorted hBsorted (lt_succ_self _)
    rw [length_nil] at hrun
    rw [hrun, nil_append, resizeResult_ok _ _ hA.lt_length]

end

theorem becomes_of_store {h' : PlistHeap E} {A l : List E} {p : E → Bool}
    {res : Result (PlistHeap E)} (hA : h.Holds set1 A)
    (hold : ∀ list, list < h.bags.length → h'.bags[list]? = h.bags[list]?)
    (hres : res = .ok (h'.store set1 l)) (hl : StrictlySorted lt l)
    (hmem : ∀ x, memSet eq x l = p x) : Becomes eq lt h set1 p res := by
  have hA' : h'.Holds set1 A := hA.of_eq (hold set1 hA.lt_length)
  refine ⟨h'.store set1 l, l, hres, hA'.store, hl, hmem, ?_⟩
  intro list hne hlt
  rw [store_bags_of_ne hne]
  exact hold list hlt

section

variable [DecidableEq E] (ho : IsSetOrder eq lt) {A : List E} {bag : SmallList E}
variable (hA : h.Holds set1 A) (hAsorted : StrictlySorted lt A) (hset2 : h.bags[set2]? = some bag)

include ho hset2

theorem isSubsetSet_spec {bag1 : SmallList E} (hset1 : h.bags[set1]? = some bag1)
    : ∃ result, isSubsetSet eq lt h set1 set2 = .ok result
        ∧ (result = true ↔ ∀ x, memSet eq x bag.entries.reduceOption = true
            → memSet eq x bag1.entries.reduceOption = true) := by
  have hlt : set2 < h.bags.length := (List.getElem?_eq_some_iff.mp hset2).1
  obtain ⟨h1, set1', A, hrun1, hA, hAsorted, hAmem, hold1⟩ := asPlainSet_spec ho hset1
  rw [← hold1 set2 hlt] at hset2
  obtain ⟨h2, set2', B, hrun2, hB, hBsorted, hBmem, hold2⟩ := asPlainSet_spec ho hset2
  have hA' := hA.of_eq (hold2 set1' hA.lt_length)
  obtain ⟨i2, hrun, hiff⟩ := isSubsetLoop_spec ho (Reading.start hA') (Reading.start hB) hAsorted
    hBsorted (lt_succ_self _)
  unfold isSubsetSet
  rw [hrun1]
  rw [ok_bind]
  dsimp only
  rw [hrun2]
  rw [ok_bind]
  dsimp only
  rw [hA'.lenPlist]
  rw [ok_bind]
  rw [hB.lenPlist]
  rw [ok_bind]
  rw [hrun]
  rw [ok_bind]
  refine ⟨decide (i2 = B.length + 1), rfl, ?_⟩
  rw [decide_eq_true_iff, hiff]
  simp only [← hBmem, ← hAmem]
  constructor
  . intro hsub x hx
    unfold memSet at hx
    rw [any_eq_true] at hx
    obtain ⟨b, hb, hxb⟩ := hx
    rw [ho.memSet_congr hxb]
    exact hsub b hb
  . intro hsub b hb
    exact hsub b (ho.memSet_of_mem hb)

include hA hAsorted

omit [DecidableEq E] hset2 in
theorem addSet_becomes (obj : E)
    : Becomes eq lt h set1 (fun x => eq x obj || memSet eq x A) (addSet eq lt h set1 obj) := by
  obtain ⟨l, hrun, hl, hmem⟩ := addSet_spec ho hA hAsorted obj
  exact becomes_of_store hA (fun _ _ => rfl) hrun hl hmem

omit [DecidableEq E] hset2 in
theorem remSet_becomes (obj : E)
    : Becomes eq lt h set1 (fun x => !eq x obj && memSet eq x A) (remSet eq lt h set1 obj) := by
  obtain ⟨l, hrun, hl, hmem⟩ := remSet_spec ho hA hAsorted obj
  exact becomes_of_store hA (fun _ _ => rfl) hrun hl hmem

theorem uniteSet_becomes
    : Becomes eq lt h set1 (fun x => memSet eq x A || memSet eq x bag.entries.reduceOption)
        (uniteSet eq lt h set1 set2) := by
  obtain ⟨h', set2', B, hoperand, hB, hBsorted, hBmem, hold⟩ := asPlainSet_spec ho hset2
  have hA' := hA.of_eq (hold set1 hA.lt_length)
  obtain ⟨l, pre1, A', i1, pre2, B', i2, hrun, hr1, hr2, hsorted, hmem, _⟩ := uniteLoop_spec ho []
    (Reading.start hA') (Reading.start hB) hAsorted hBsorted (lt_succ_self _)
  have hrest1 : A'.length < A.length + 1 := by
    have := hr1.len_eq
    omega
  have hrest2 : B'.length < B.length + 1 := by
    have := hr2.len_eq
    omega
  rw [map_nil, nil_append] at hrun
  apply becomes_of_store hA hold _ hsorted
  . intro x
    rw [hmem, hBmem]
  . unfold uniteSet
    rw [requireMutableSet_spec ho hA hAsorted]
    rw [ok_bind]
    rw [hoperand]
    rw [ok_bind]
    dsimp only
    rw [hA'.lenPlist]
    rw [ok_bind]
    rw [hB.lenPlist]
    rw [ok_bind]
    rw [hrun]
    rw [ok_bind]
    dsimp only
    rw [uniteRestLoop_spec _ hr1 hrest1]
    rw [ok_bind]
    rw [uniteRestLoop_spec _ hr2 hrest2]
    rfl

theorem interSet_becomes (bits : Nat)
    : Becomes eq lt h set1 (fun x => memSet eq x A && memSet eq x bag.entries.reduceOption)
        (interSet eq lt bits h set1 set2) := by
  obtain ⟨h', set2', B, hoperand, hB, hBsorted, hBmem, hold⟩ := asPlainSet_spec ho hset2
  have hA' := hA.of_eq (hold set1 hA.lt_length)
  have hAB : ∀ res, res = .ok (h'.store set1 (inter eq A B)) →
      Becomes eq lt h set1 (fun x => memSet eq x A && memSet eq x bag.entries.reduceOption)
        res := by
    intro res hres
    apply becomes_of_store hA hold hres (hAsorted.filter _)
    intro x
    rw [← hBmem]
    exact ho.memSet_inter x A B
  have hBA : ∀ res, res = .ok (h'.store set1 (inter eq B A)) →
      Becomes eq lt h set1 (fun x => memSet eq x A && memSet eq x bag.entries.reduceOption)
        res := by
    intro res hres
    apply becomes_of_store hA hold hres (hBsorted.filter _)
    intro x
    rw [← hBmem, Bool.and_comm]
    exact ho.memSet_inter x B A
  unfold interSet
  rw [requireMutableSet_spec ho hA hAsorted]
  rw [ok_bind]
  rw [hoperand]
  rw [ok_bind]
  dsimp only
  rw [hA'.lenPlist]
  rw [ok_bind]
  rw [hB.lenPlist]
  rw [ok_bind]
  split
  next =>
    split
    next => exact hAB _ (interSetInner2_short ho hA' hAsorted hB hBsorted)
    next => exact hAB _ (interSetInner1_spec ho hA' hAsorted hB hBsorted)
  next =>
    split
    next => exact hBA _ (interSetInner2_long ho hA' hAsorted hB hBsorted)
    next => exact hAB _ (interSetInner1_spec ho hA' hAsorted hB hBsorted)

theorem subtrSet_becomes (bits : Nat)
    : Becomes eq lt h set1 (fun x => memSet eq x A && !memSet eq x bag.entries.reduceOption)
        (subtrSet eq lt bits h set1 set2) := by
  obtain ⟨h', set2', B, hoperand, hB, hBsorted, hBmem, hold⟩ := asPlainSet_spec ho hset2
  have hA' := hA.of_eq (hold set1 hA.lt_length)
  have hAB : ∀ res, res = .ok (h'.store set1 (diff eq A B)) →
      Becomes eq lt h set1 (fun x => memSet eq x A && !memSet eq x bag.entries.reduceOption)
        res := by
    intro res hres
    apply becomes_of_store hA hold hres (hAsorted.filter _)
    intro x
    rw [← hBmem]
    exact ho.memSet_diff x A B
  unfold subtrSet
  rw [requireMutableSet_spec ho hA hAsorted]
  rw [ok_bind]
  rw [hoperand]
  rw [ok_bind]
  dsimp only
  rw [hA'.lenPlist]
  rw [ok_bind]
  rw [hB.lenPlist]
  rw [ok_bind]
  split
  next => exact hAB _ (subtrSetInner2_spec ho hA' hAsorted hB hBsorted)
  next => exact hAB _ (subtrSetInner1_spec ho hA' hAsorted hB hBsorted)

end

structure MethodsAgree (eq lt : E → E → Bool) (h : PlistHeap E) (set1 set2 len1 len2 : Nat)
    : Prop where
  inter : ∃ l l',
    resizeResult set1 (interSetInner1 eq lt h set1 set2 len1 len2) = .ok (h.store set1 l)
      ∧ resizeResult set1 (interSetInner2 eq lt h set1 set2 set1 len1 len2) = .ok (h.store set1 l)
      ∧ resizeResult set1 (interSetInner2 eq lt h set2 set1 set1 len2 len1) = .ok (h.store set1 l')
      ∧ List.Forall₂ (fun a b => eq a b = true) l l'
  subtr : ∃ l,
    resizeResult set1 (subtrSetInner1 eq lt h set1 set2 len1 len2) = .ok (h.store set1 l)
      ∧ resizeResult set1 (subtrSetInner2 eq lt h set1 set2 len1 len2) = .ok (h.store set1 l)

theorem methodsAgree_spec (ho : IsSetOrder eq lt) {A B : List E} (hA : h.Holds set1 A)
    (hAsorted : StrictlySorted lt A) (hB : h.Holds set2 B) (hBsorted : StrictlySorted lt B)
    : MethodsAgree eq lt h set1 set2 A.length B.length where
  inter := by
    refine ⟨inter eq A B, inter eq B A, ?_, ?_, ?_, ?_⟩
    . exact interSetInner1_spec ho hA hAsorted hB hBsorted
    . exact interSetInner2_short ho hA hAsorted hB hBsorted
    . exact interSetInner2_long ho hA hAsorted hB hBsorted
    . apply ho.forall₂_of_memSet (hAsorted.filter _) (hBsorted.filter _)
      intro x
      have hAB := ho.memSet_inter x A B
      have hBA := ho.memSet_inter x B A
      rw [Bool.and_comm, ← hAB] at hBA
      exact hBA.symm
  subtr :=
    ⟨diff eq A B, subtrSetInner1_spec ho hA hAsorted hB hBsorted,
      subtrSetInner2_spec ho hA hAsorted hB hBsorted⟩

theorem plainSet_spec [DecidableEq E] (ho : IsSetOrder eq lt) (bits : Nat) (h : PlistHeap E)
    (set1 set2 : Nat) (A : List E) (bag : SmallList E) (hA : h.Holds set1 A)
    (hsorted : StrictlySorted lt A) (hset2 : h.bags[set2]? = some bag)
    : (∀ obj, Becomes eq lt h set1 (fun x => eq x obj || memSet eq x A) (addSet eq lt h set1 obj))
      ∧ (∀ obj, Becomes eq lt h set1 (fun x => !eq x obj && memSet eq x A)
          (remSet eq lt h set1 obj))
      ∧ Becomes eq lt h set1 (fun x => memSet eq x A || memSet eq x bag.entries.reduceOption)
          (uniteSet eq lt h set1 set2)
      ∧ Becomes eq lt h set1 (fun x => memSet eq x A && memSet eq x bag.entries.reduceOption)
          (interSet eq lt bits h set1 set2)
      ∧ Becomes eq lt h set1 (fun x => memSet eq x A && !memSet eq x bag.entries.reduceOption)
          (subtrSet eq lt bits h set1 set2)
      ∧ (∃ result, isSubsetSet eq lt h set1 set2 = .ok result
          ∧ (result = true
            ↔ ∀ x, memSet eq x bag.entries.reduceOption = true → memSet eq x A = true))
      ∧ ∀ B, h.Holds set2 B → StrictlySorted lt B →
          MethodsAgree eq lt h set1 set2 A.length B.length := by
  refine ⟨?_, ?_, ?_, ?_, ?_, ?_, ?_⟩
  . exact addSet_becomes ho hA hsorted
  . exact remSet_becomes ho hA hsorted
  . exact uniteSet_becomes ho hA hsorted hset2
  . exact interSet_becomes ho hA hsorted hset2 bits
  . exact subtrSet_becomes ho hA hsorted hset2 bits
  . have := isSubsetSet_spec ho hset2 hA
    simpa [List.reduceOption] using this
  . intro B hB hBsorted
    exact methodsAgree_spec ho hA hsorted hB hBsorted

theorem plainSet_spec_numbers
    : ∃ h' l, uniteSet (fun a b : Nat => a == b) (fun a b => decide (a < b))
        ⟨[⟨true, [some 1, some 4]⟩, ⟨true, [some 3, none, some 1]⟩]⟩ 0 1 = .ok h'
      ∧ h'.Holds 0 l
      ∧ ∀ x, memSet (fun a b : Nat => a == b) x l = (x == 1 || x == 3 || x == 4) := by
  have ho : IsSetOrder (fun a b : Nat => a == b) (fun a b => decide (a < b)) := by
    constructor
    . simp only [decide_eq_true_eq]
      exact isStrictWeakOrder_of_isOrderConnected
    . intro a b
      simp only [beq_iff_eq, decide_eq_false_iff_not]
      omega
  obtain ⟨h', l, hrun, hl, _, hmem, _⟩ := (plainSet_spec ho 64
    ⟨[⟨true, [some 1, some 4]⟩, ⟨true, [some 3, none, some 1]⟩]⟩ 0 1 [1, 4]
    ⟨true, [some 3, none, some 1]⟩ rfl (by simp [StrictlySorted]) rfl).2.2.1
  refine ⟨h', l, hrun, hl, ?_⟩
  intro x
  rw [hmem, Bool.eq_iff_iff]
  simp [memSet, List.reduceOption]
  tauto

end PlainSetImpl
