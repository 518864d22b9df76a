import GapKernel.OnLists.Impl
import GapKernel.PPerm.Lemmas.Bag
import GapKernel.Trans.Lemmas.Derived

open OnListsImpl PermList PartialBijection List

structure HasTrueTag {E F : Type} (r : E → E → Prop) (family : E → F) (tnum : PlistKTNum)
    (l : List E) : Prop where
  dense : tnum ≠ .ndense
  empty : tnum = .empty → l = []
  ssort : tnum.isSsort = true → l.Pairwise r
  nsort : tnum.isNsort = true → ¬l.Pairwise r
  homog : tnum.isHomog = true → tnum ≠ .empty → l ≠ [] ∧ ∀ x ∈ l, ∀ y ∈ l, family x = family y
  nhomog : tnum.isNhomog = true → ∃ x ∈ l, ∃ y ∈ l, family x ≠ family y

def IntPlist.IsTrue (list : IntPlist) : Prop :=
  HasTrueTag (· < ·) (fun _ => ()) list.tnum list.entries

def IntList.IsTrue (list : IntList) : Prop :=
  match list with
  | plist list => list.IsTrue
  | range isSsort elms => isSsort = true ↔ elms.Pairwise (· < ·)

def pointOf (φ : Nat → Nat) (k : Nat) : Nat :=
  φ (k - 1) + 1

def partialPointOf (φ : Nat ≃. Nat) (k : Nat) : Option Nat :=
  (φ (k - 1)).map (· + 1)

namespace PlistKTNum

section Reset

variable (tnum : PlistKTNum)

theorem isSsort_resetNsort : tnum.resetNsort.isSsort = tnum.isSsort := by
  cases tnum <;> rfl

theorem isNsort_resetNsort : tnum.resetNsort.isNsort = false := by
  cases tnum <;> rfl

theorem isHomog_resetNsort : tnum.resetNsort.isHomog = tnum.isHomog := by
  cases tnum <;> rfl

theorem isNhomog_resetNsort : tnum.resetNsort.isNhomog = tnum.isNhomog := by
  cases tnum <;> rfl

theorem resetNsort_eq_empty_iff : tnum.resetNsort = .empty ↔ tnum = .empty := by
  cases tnum <;> decide

theorem resetNsort_eq_ndense_iff : tnum.resetNsort = .ndense ↔ tnum = .ndense := by
  cases tnum <;> decide

theorem isSsort_resetSorts : tnum.resetSsort.resetNsort.isSsort = false := by
  cases tnum <;> rfl

theorem isNsort_resetSorts : tnum.resetSsort.resetNsort.isNsort = false := by
  cases tnum <;> rfl

theorem isHomog_resetSorts
    : tnum.resetSsort.resetNsort.isHomog = (tnum.isHomog && decide (tnum ≠ .empty)) := by
  cases tnum <;> rfl

theorem isNhomog_resetSorts : tnum.resetSsort.resetNsort.isNhomog = tnum.isNhomog := by
  cases tnum <;> rfl

theorem resetSorts_ne_empty : tnum.resetSsort.resetNsort ≠ .empty := by
  cases tnum <;> decide

theorem resetSorts_eq_ndense_iff : tnum.resetSsort.resetNsort = .ndense ↔ tnum = .ndense := by
  cases tnum <;> decide

end Reset

end PlistKTNum

namespace OnLists

section Tags

theorem isTrue_plist (l : List Nat) : IntPlist.IsTrue ⟨.plist, l⟩ := by
  constructor
  . exact fun h => by contradiction
  . exact fun h => by contradiction
  . exact fun h => by contradiction
  . exact fun h => by contradiction
  . exact fun h => by contradiction
  . exact fun h => by contradiction

theorem plainListCopy_entries (list : IntList) : (plainListCopy list).entries = list.elms := by
  cases list with
  | plist list => rfl
  | range isSsort elms =>
    unfold plainListCopy IntList.elms
    dsimp only
    split
    . next h => exact (length_eq_zero_iff.mp h).symm
    . rfl

theorem plainListCopy_isTrue {list : IntList} (h : list.IsTrue) : (plainListCopy list).IsTrue := by
  cases list with
  | plist list => exact h
  | range isSsort elms =>
    unfold plainListCopy
    dsimp only
    split
    . constructor
      . exact fun h => by contradiction
      . exact fun _ => rfl
      . exact fun _ => List.Pairwise.nil
      . exact fun h => by contradiction
      . exact fun _ h => by contradiction
      . exact fun h => by contradiction
    . apply isTrue_plist

theorem isTrue_cycSsort_iff {l : List Nat} (hl : l.Pairwise (· < ·))
    : IntPlist.IsTrue ⟨.cycSsort, l⟩ ↔ l ≠ [] := by
  constructor
  . exact fun h => (h.homog rfl PlistKTNum.noConfusion).1
  . intro hne
    constructor
    . exact fun h => by contradiction
    . exact fun h => by contradiction
    . exact fun _ => hl
    . exact fun h => by contradiction
    . exact fun _ _ => ⟨hne, fun _ _ _ _ => rfl⟩
    . exact fun h => by contradiction

variable {list : IntPlist}

theorem IntPlist.IsTrue.not_nhomog (h : list.IsTrue)
    : list.tnum.isNhomog = false := by
  rw [← Bool.not_eq_true]
  intro hn
  obtain ⟨x, _, y, _, hxy⟩ := h.nhomog hn
  exact hxy rfl

theorem isTrue_resetSorts_iff (h : list.IsTrue) (l : List Nat)
    : IntPlist.IsTrue ⟨list.tnum.resetSsort.resetNsort, l⟩
      ↔ (list.tnum.isHomog = true → list.tnum ≠ .empty → l ≠ []) := by
  constructor
  . intro ht hhom hne
    apply (ht.homog _ list.tnum.resetSorts_ne_empty).1
    rw [list.tnum.isHomog_resetSorts, hhom, decide_eq_true hne]
    rfl
  . intro hl
    constructor
    . exact fun hd => h.dense (list.tnum.resetSorts_eq_ndense_iff.mp hd)
    . exact fun he => absurd he list.tnum.resetSorts_ne_empty
    . intro hs
      rw [PlistKTNum.isSsort_resetSorts] at hs
      contradiction
    . intro hn
      rw [PlistKTNum.isNsort_resetSorts] at hn
      contradiction
    . intro hhom _
      rw [PlistKTNum.isHomog_resetSorts, Bool.and_eq_true, decide_eq_true_eq] at hhom
      exact ⟨hl hhom.1 hhom.2, fun _ _ _ _ => rfl⟩
    . intro hn
      rw [PlistKTNum.isNhomog_resetSorts, IntPlist.IsTrue.not_nhomog h] at hn
      contradiction

theorem isTrue_resetNsort_iff (h : list.IsTrue) {l : List Nat} (hlen : l = [] ↔ list.entries = [])
    : IntPlist.IsTrue ⟨list.tnum.resetNsort, l⟩
      ↔ (list.tnum.isSsort = true → l.Pairwise (· < ·)) := by
  constructor
  . intro ht hs
    apply ht.ssort
    rw [PlistKTNum.isSsort_resetNsort, hs]
  . intro hl
    constructor
    . exact fun hd => h.dense (list.tnum.resetNsort_eq_ndense_iff.mp hd)
    . exact fun he => hlen.mpr (h.empty (list.tnum.resetNsort_eq_empty_iff.mp he))
    . intro hs
      rw [PlistKTNum.isSsort_resetNsort] at hs
      exact hl hs
    . intro hn
      rw [PlistKTNum.isNsort_resetNsort] at hn
      contradiction
    . intro hhom hne
      rw [PlistKTNum.isHomog_resetNsort] at hhom
      rw [Ne, PlistKTNum.resetNsort_eq_empty_iff] at hne
      exact ⟨fun hnil => (h.homog hhom hne).1 (hlen.mp hnil), fun _ _ _ _ => rfl⟩
    . intro hn
      rw [PlistKTNum.isNhomog_resetNsort, IntPlist.IsTrue.not_nhomog h] at hn
      contradiction

end Tags

section Loops

theorem forLoop_entries {α σ : Type} {body : Nat → σ → Result σ} (I : List α → List α → σ → Prop)
    {done l : List α} {s : σ}
    (hstep : ∀ done x rest s, I done (x :: rest) s
      → ∃ s', body (done.length + 1) s = .ok s' ∧ I (done ++ [x]) rest s')
    (hs : I done l s)
    : ∃ s', forLoop body l.length (done.length + 1) s = .ok s' ∧ I (done ++ l) [] s' := by
  induction l generalizing done s with
  | nil =>
    rw [append_nil]
    exact ⟨s, rfl, hs⟩
  | cons x l ih =>
    obtain ⟨s1, hbody, hs1⟩ := hstep done x l s hs
    obtain ⟨s', hrun, hs'⟩ := ih hs1
    rw [append_assoc] at hs'
    refine ⟨s', ?_, hs'⟩
    rw [length_cons]
    unfold forLoop
    rw [hbody, ok_bind, ← hrun, length_append]
    rfl

variable {l : List Nat}

theorem mapLoop_spec {point : Nat → Result Nat} {g : Nat → Nat}
    (hpoint : ∀ k ∈ l, point k = .ok (g k)) : mapLoop point l = .ok (l.map g) := by
  unfold mapLoop
  have hloop := @forLoop_entries Nat (List Nat) (fun i res => do
      let tmp ← elmPlist res i
      let img ← point tmp
      setElmPlist res i img)
    (fun done rest res => res = done.map g ++ rest ∧ ∀ k ∈ rest, point k = .ok (g k)) [] l l ?_
    ⟨rfl, hpoint⟩
  . obtain ⟨res, hrun, hres, _⟩ := hloop
    rw [append_nil, nil_append] at hres
    rw [← hres]
    exact hrun
  . intro done x rest res ⟨hres, hpoint⟩
    rw [← length_map g] at *
    refine ⟨done.map g ++ g x :: rest, ?_, ?_, fun k hk => hpoint k (mem_cons_of_mem x hk)⟩
    . rw [hres, elmPlist_append_cons, ok_bind, hpoint x mem_cons_self, ok_bind]
      apply setElmPlist_append_cons
    . simp

structure IsDupsState (done rest : List Nat) (s : DupsState) : Prop where
  split : ∃ out gap, s.data = (out ++ [s.tmp]) ++ gap ++ rest ∧ (out ++ [s.tmp]).length = s.k
    ∧ s.k + gap.length = done.length ∧ (out ++ [s.tmp]).Pairwise (· < ·)
    ∧ ∀ x, x ∈ out ++ [s.tmp] ↔ x ∈ done
  sorted : (done ++ rest).Pairwise (· ≤ ·)

theorem removeDupsBody_spec {done rest : List Nat} {x : Nat} {s : DupsState}
    (h : IsDupsState done (x :: rest) s)
    : ∃ s', removeDupsBody (done.length + 1) s = .ok s' ∧ IsDupsState (done ++ [x]) rest s' := by
  obtain ⟨out, gap, hdata, hk, hlen, hsorted, hmem⟩ := h.split
  have hle := h.sorted
  have hnext : (done ++ [x] ++ rest).Pairwise (· ≤ ·) := by
    rw [append_assoc]
    exact hle
  have helm : elmPlist s.data (done.length + 1) = .ok x := by
    rw [← hlen, ← hk, hdata, ← length_append]
    apply elmPlist_append_cons
  unfold removeDupsBody
  rw [helm, ok_bind]
  by_cases heq : s.tmp = x
  . rw [if_neg (not_not_intro heq)]
    refine ⟨s, rfl, ⟨out, gap ++ [x], ?_, hk, ?_, hsorted, ?_⟩, hnext⟩
    . rw [hdata]
      simp
    . simp only [length_append, length_singleton]
      omega
    . intro y
      rw [hmem, mem_append, mem_singleton]
      constructor
      . exact Or.inl
      . intro hy
        cases hy with
        | inl hy => exact hy
        | inr hy =>
          rw [hy, ← heq, ← hmem]
          simp
  . rw [if_pos heq]
    have hlt : ∀ y ∈ out ++ [s.tmp], y < x := by
      intro y hy
      have htmp : s.tmp ≤ x := by
        apply (pairwise_append.mp hle).2.2
        . rw [← hmem]
          simp
        . exact mem_cons_self
      have hy' : y ≤ s.tmp := by
        cases mem_append.mp hy with
        | inl hy =>
          exact Nat.le_of_lt ((pairwise_append.mp hsorted).2.2 y hy _ mem_cons_self)
        | inr hy => exact Nat.le_of_eq (mem_singleton.mp hy)
      omega
    have hsorted' : (out ++ [s.tmp] ++ [x]).Pairwise (· < ·) := by
      rw [pairwise_append]
      refine ⟨hsorted, pairwise_singleton _ _, ?_⟩
      intro y hy z hz
      rw [mem_singleton.mp hz]
      exact hlt y hy
    have hmem' : ∀ y, y ∈ out ++ [s.tmp] ++ [x] ↔ y ∈ done ++ [x] := by
      intro y
      rw [mem_append, hmem, mem_append]
    have hset : ∃ gap', setElmPlist s.data (s.k + 1) x
          = .ok ((out ++ [s.tmp] ++ [x]) ++ gap' ++ rest)
        ∧ gap'.length = gap.length := by
      rw [hdata, ← hk]
      cases gap with
      | nil =>
        refine ⟨[], ?_, rfl⟩
        rw [append_nil, setElmPlist_append_cons]
        simp
      | cons g gap =>
        refine ⟨gap ++ [x], ?_, by simp⟩
        rw [append_assoc, cons_append, setElmPlist_append_cons]
        simp
    obtain ⟨gap', hset, hgap⟩ := hset
    rw [hset, ok_bind]
    refine ⟨_, rfl, ⟨out ++ [s.tmp], gap', rfl, ?_, ?_, hsorted', hmem'⟩, hnext⟩
    . rw [length_append, hk]
      rfl
    . rw [hgap, length_append, ← hlen, length_singleton]
      dsimp only
      omega

theorem removeDupsPlistIntobj_spec (hsorted : l.Pairwise (· ≤ ·))
    : ∃ l', removeDupsPlistIntobj l = .ok l' ∧ l'.Pairwise (· < ·) ∧ ∀ x, x ∈ l' ↔ x ∈ l := by
  unfold removeDupsPlistIntobj
  cases l with
  | nil => exact ⟨[], rfl, List.Pairwise.nil, fun _ => Iff.rfl⟩
  | cons x l =>
    rw [if_pos (by simp), show elmPlist (x :: l) 1 = .ok x from rfl, ok_bind]
    have hinit : IsDupsState [x] l ⟨x :: l, 1, x⟩ :=
      ⟨⟨[], [], rfl, rfl, rfl, pairwise_singleton _ _, fun _ => Iff.rfl⟩, hsorted⟩
    obtain ⟨s, hrun, hs⟩ := forLoop_entries IsDupsState
      (fun done y rest s => removeDupsBody_spec) hinit
    obtain ⟨out, gap, hdata, hk, _, hlt, hmem⟩ := hs.split
    rw [show (x :: l).length - 1 = l.length from rfl, show 2 = [x].length + 1 from rfl, hrun,
      ok_bind]
    refine ⟨_, rfl, ?_, ?_⟩
    . rw [hdata, append_nil, take_left' hk]
      exact hlt
    . intro y
      rw [hdata, append_nil, take_left' hk, hmem]
      rfl

theorem compactLoop_spec {msg : String} {φ : Nat ≃. Nat} {ptf : List Nat} (hpt : IsImageList φ ptf)
    (hpos : ∀ k ∈ l, 0 < k)
    : compactLoop msg ptf l = .ok (l.filterMap (partialPointOf φ)) := by
  unfold compactLoop
  have hloop := @forLoop_entries Nat (List Nat × Nat) (compactBody msg ptf)
    (fun done rest s => (∀ k ∈ rest, 0 < k)
      ∧ ∃ gap, s.1 = done.filterMap (partialPointOf φ) ++ gap ++ rest
        ∧ s.2 = (done.filterMap (partialPointOf φ)).length ∧ s.2 + gap.length = done.length)
    [] l (l, 0) ?_ ⟨hpos, [], rfl, rfl, rfl⟩
  . obtain ⟨s, hrun, _, gap, hs, hlen, _⟩ := hloop
    rw [length_nil, Nat.zero_add] at hrun
    rw [hrun, ok_bind, hs, append_nil, nil_append]
    rw [nil_append] at hlen
    rw [take_left' hlen.symm]
    rfl
  . intro done k rest s ⟨hpos, gap, hs, hreslen, hlen⟩
    have hk : 0 < k := hpos k mem_cons_self
    have hpos' : ∀ k ∈ rest, 0 < k := fun x hx => hpos x (mem_cons_of_mem k hx)
    have helm : elmPlist s.1 (done.length + 1) = .ok k := by
      rw [← hlen, hs, hreslen, ← length_append]
      apply elmPlist_append_cons
    have hstay : partialPointOf φ k = none → ∃ s', Except.ok s = (Except.ok s' : Result _)
        ∧ (∀ k ∈ rest, 0 < k)
        ∧ ∃ gap, s'.1 = (done ++ [k]).filterMap (partialPointOf φ) ++ gap ++ rest
          ∧ s'.2 = ((done ++ [k]).filterMap (partialPointOf φ)).length
          ∧ s'.2 + gap.length = (done ++ [k]).length := by
      intro hnone
      have hfilter : (done ++ [k]).filterMap (partialPointOf φ)
          = done.filterMap (partialPointOf φ) := by
        rw [filterMap_append]
        simp [hnone]
      refine ⟨s, rfl, hpos', gap ++ [k], ?_, ?_, ?_⟩
      . rw [hfilter, hs]
        simp
      . rw [hfilter, hreslen]
      . simp only [length_append, length_singleton]
        omega
    unfold compactBody
    rw [helm, ok_bind, if_pos hk]
    by_cases hle : k ≤ ptf.length
    . rw [if_pos hle, readEntry_images hpt (by omega), ok_bind]
      cases himg : φ (k - 1) with
      | none =>
        rw [entryOf_none, if_neg (by decide)]
        apply hstay
        unfold partialPointOf
        rw [himg]
        rfl
      | some v =>
        have hpoint : partialPointOf φ k = some (v + 1) := by
          unfold partialPointOf
          rw [himg]
          rfl
        have hfilter : (done ++ [k]).filterMap (partialPointOf φ)
            = done.filterMap (partialPointOf φ) ++ [v + 1] := by
          rw [filterMap_append]
          simp [hpoint]
        have hset : ∃ gap', setElmPlist s.1 (s.2 + 1) (v + 1)
            = .ok (done.filterMap (partialPointOf φ) ++ [v + 1] ++ gap' ++ rest)
              ∧ gap'.length = gap.length := by
          rw [hs, hreslen]
          cases gap with
          | nil =>
            refine ⟨[], ?_, rfl⟩
            rw [append_nil, setElmPlist_append_cons]
            simp
          | cons g gap =>
            refine ⟨gap ++ [k], ?_, by simp⟩
            rw [append_assoc, cons_append, setElmPlist_append_cons]
            simp
        obtain ⟨gap', hset, hgap⟩ := hset
        rw [entryOf_some, if_pos (Nat.succ_ne_zero v), hset, ok_bind]
        refine ⟨_, rfl, hpos', gap', ?_, ?_, ?_⟩
        . rw [hfilter]
        . rw [hfilter, length_append, hreslen]
          rfl
        . rw [hgap, length_append, ← hlen, length_singleton]
          omega
    . rw [if_neg hle]
      apply hstay
      unfold partialPointOf
      rw [hpt.eq_none (by omega)]
      rfl

end Loops

end OnLists
