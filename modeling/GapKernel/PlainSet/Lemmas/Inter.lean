import GapKernel.PlainSet.Lemmas.Search

open List Bool

namespace PlainSetImpl

open PlistHeap

variable {E : Type} {eq lt : E → E → Bool} {set1 set2 len1 len2 i1 i2 fuel : Nat} {h : PlistHeap E}

section

variable (ho : IsSetOrder eq lt)

include ho

variable {mid A pre B : List E}

theorem interLoop1_spec (hne : set2 ≠ set1) (out : List E)
    (h1 : Reading h set1 (out ++ mid) A len1 i1) (h2 : Reading h set2 pre B len2 i2)
    (hA : StrictlySorted lt A) (hB : StrictlySorted lt B) (hfuel : A.length + B.length < fuel)
    : ∃ rest, interLoop1 eq lt set1 set2 len1 len2 fuel h out.length i1 i2
        = .ok (h.store set1 (out ++ inter eq A B ++ rest), (out ++ inter eq A B).length) := by
  induction fuel generalizing h out mid A pre B i1 i2 with
  | zero => omega
  | succ fuel ih =>
    unfold interLoop1
    cases A with
    | nil =>
      rw [if_neg (by simp [h1.not_le])]
      have hstore := h1.holds.store_self
      rw [append_nil] at hstore
      refine ⟨mid, ?_⟩
      rw [show inter eq [] B = [] from rfl, append_nil, hstore]
      rfl
    | cons a A =>
      cases B with
      | nil =>
        rw [if_neg (by simp [h2.not_le])]
        have hstore := h1.holds.store_self
        refine ⟨mid ++ a :: A, ?_⟩
        rw [inter_nil_right, append_nil, ← append_assoc, hstore]
        rfl
      | cons b B =>
        rw [if_pos ⟨h1.le, h2.le⟩]
        rw [h1.elm]
        rw [ok_bind]
        rw [h2.elm]
        rw [ok_bind]
        simp only [length_cons] at hfuel
        have hA' := StrictlySorted.cons_iff.mp hA
        have hB' := StrictlySorted.cons_iff.mp hB
        have h1' := h1.next
        rw [append_assoc] at h1'
        split
        next hab =>
          obtain ⟨mid', hset, hr⟩ := h1'.write (y := a) (by simp)
          rw [hset]
          rw [ok_bind]
          obtain ⟨rest, hrun⟩ := ih (out ++ [a]) hr (h2.next.store_of_ne hne) hA'.2 hB'.2 (by omega)
          have hba : lt a b = false := ((ho.eq_iff a b).mp hab).1
          refine ⟨rest, ?_⟩
          rw [length_append, length_singleton] at hrun
          rw [hrun, store_store]
          rw [inter_cons, if_pos (by simp [hab])]
          rw [inter_congr (fun x hx => ho.memSet_tail hA hba hx B)]
          simp
        next hab =>
          rw [not_eq_true] at hab
          split
          next hlt =>
            obtain ⟨rest, hrun⟩ := ih out h1' h2 hA'.2 hB (by simp; omega)
            refine ⟨rest, ?_⟩
            rw [hrun]
            rw [inter_cons, if_neg]
            rw [memSet_cons, hab, ho.memSet_of_gt (fun x hx => ho.lt_trans hlt (hB'.1 x hx))]
            simp
          next hlt =>
            rw [not_eq_true] at hlt
            obtain ⟨rest, hrun⟩ := ih out h1 h2.next hA hB'.2 (by simp; omega)
            have htail : inter eq (a :: A) (b :: B) = inter eq (a :: A) B := by
              apply inter_congr
              intro x hx
              rcases mem_cons.mp hx with rfl | hx
              . rw [memSet_cons, hab, Bool.false_or]
              . exact ho.memSet_tail hA hlt hx B
            refine ⟨rest, ?_⟩
            rw [hrun, htail]

theorem interLoop1_self (h1 : Reading h set1 pre A len1 i1) (hfuel : A.length < fuel)
    : interLoop1 eq lt set1 set1 len1 len1 fuel h pre.length i1 i1
        = .ok (h, (pre ++ A).length) := by
  induction fuel generalizing pre A i1 with
  | zero => omega
  | succ fuel ih =>
    unfold interLoop1
    cases A with
    | nil =>
      rw [if_neg (by simp [h1.not_le])]
      rw [append_nil]
      rfl
    | cons a A =>
      rw [if_pos ⟨h1.le, h1.le⟩]
      rw [h1.elm]
      rw [ok_bind]
      rw [ok_bind]
      rw [if_pos (ho.eq_self a)]
      rw [h1.holds.setElm rfl]
      rw [ok_bind]
      rw [h1.holds.store_self]
      have := ih h1.next (by simp only [length_cons] at hfuel; omega)
      rw [length_append, length_singleton] at this
      rw [this]
      simp

theorem interLoop2_short (hne : set2 ≠ set1) (out : List E)
    (h1 : Reading h set1 (out ++ mid) A len1 i1) (h2 : Reading h set2 pre B len2 i2)
    (hA : StrictlySorted lt A) (hB : StrictlySorted lt B) (hfuel : A.length < fuel)
    : ∃ rest, interLoop2 eq lt set1 set2 set1 len1 len2 fuel h out.length i1 i2
        = .ok (h.store set1 (out ++ inter eq A B ++ rest), (out ++ inter eq A B).length) := by
  induction fuel generalizing h out mid A pre B i1 i2 with
  | zero => omega
  | succ fuel ih =>
    unfold interLoop2
    cases A with
    | nil =>
      rw [if_neg h1.not_le]
      have hstore := h1.holds.store_self
      rw [append_nil] at hstore
      refine ⟨mid, ?_⟩
      rw [show inter eq [] B = [] from rfl, append_nil, hstore]
      rfl
    | cons a A =>
      rw [if_pos h1.le]
      rw [h1.elm]
      rw [ok_bind]
      obtain ⟨l, r, rfl, hle, _, hsearch⟩ := searchLoop_window ho (e := a) h2.holds hB h2.pos_eq
        h2.len_eq (Nat.lt_succ_self len2)
      rw [hsearch]
      rw [ok_bind]
      dsimp only
      simp only [length_cons] at hfuel
      have hA' := StrictlySorted.cons_iff.mp hA
      have hr := (StrictlySorted.append_iff.mp hB).2.1
      have h1' := h1.next
      rw [append_assoc] at h1'
      have htail : inter eq A (l ++ r) = inter eq A r :=
        inter_congr (fun x hx => memSet_rest ho hle (hA'.1 x hx))
      rw [inter_cons, htail]
      split
      next hfound =>
        obtain ⟨mid', hset, hw⟩ := h1'.write (y := a) (by simp)
        rw [hset]
        rw [ok_bind]
        obtain ⟨rest, hrun⟩ := ih (out ++ [a]) hw (h2.skip.store_of_ne hne) hA'.2 hr (by omega)
        refine ⟨rest, ?_⟩
        rw [length_append, length_singleton] at hrun
        rw [hrun, store_store]
        simp
      next hfound =>
        obtain ⟨rest, hrun⟩ := ih out h1' h2.skip hA'.2 hr (by omega)
        exact ⟨rest, hrun⟩

theorem interLoop2_long (hne : set1 ≠ set2) (out : List E) (h1 : Reading h set1 pre A len1 i1)
    (h2 : Reading h set2 (out ++ mid) B len2 i2) (hA : StrictlySorted lt A)
    (hB : StrictlySorted lt B) (hfuel : A.length < fuel)
    : ∃ rest, interLoop2 eq lt set1 set2 set2 len1 len2 fuel h out.length i1 i2
        = .ok (h.store set2 (out ++ inter eq A B ++ rest), (out ++ inter eq A B).length) := by
  induction fuel generalizing h out mid A pre B i1 i2 with
  | zero => omega
  | succ fuel ih =>
    unfold interLoop2
    cases A with
    | nil =>
      rw [if_neg h1.not_le]
      have hstore := h2.holds.store_self
      refine ⟨mid ++ B, ?_⟩
      rw [show inter eq [] B = [] from rfl, append_nil, ← append_assoc, hstore]
      rfl
    | cons a A =>
      rw [if_pos h1.le]
      rw [h1.elm]
      rw [ok_bind]
      obtain ⟨l, r, rfl, hle, hl, hsearch⟩ := searchLoop_window ho (e := a) h2.holds hB h2.pos_eq
        h2.len_eq (Nat.lt_succ_self len2)
      rw [hsearch]
      rw [ok_bind]
      dsimp only
      simp only [length_cons] at hfuel
      have hA' := StrictlySorted.cons_iff.mp hA
      have hr := (StrictlySorted.append_iff.mp hB).2.1
      have h2' := h2.skip
      rw [append_assoc] at h2'
      have htail : inter eq A (l ++ r) = inter eq A r :=
        inter_congr (fun x hx => memSet_rest ho hle (hA'.1 x hx))
      rw [inter_cons, htail]
      split
      next hfound =>
        -- The entry that is written over is not in the rest of the window.
        obtain ⟨mid', hset, hw⟩ := h2'.write (y := a) (by simp [hl hfound])
        rw [hset]
        rw [ok_bind]
        obtain ⟨rest, hrun⟩ := ih (out ++ [a]) (h1.next.store_of_ne hne) hw hA'.2 hr (by omega)
        refine ⟨rest, ?_⟩
        rw [length_append, length_singleton] at hrun
        rw [hrun, store_store]
        simp
      next hfound =>
        obtain ⟨rest, hrun⟩ := ih out h1.next h2' hA'.2 hr (by omega)
        exact ⟨rest, hrun⟩

theorem searchLoop_head {a : E} (h2 : Reading h set2 pre (a :: A) len2 i2)
    (hA : StrictlySorted lt (a :: A))
    : searchLoop eq lt h set2 a (len2 + 1) i2 len2 = .ok (true, i2 + 1) := by
  obtain ⟨l, r, hsplit, hle, hl, hsearch⟩ := searchLoop_window ho (e := a) h2.holds hA h2.pos_eq
    h2.len_eq (Nat.lt_succ_self len2)
  have hmem : memSet eq a (a :: A) = true := ho.memSet_of_mem mem_cons_self
  have hsingle : l = [a] := by
    have hne := hl hmem
    cases l with
    | nil => exact absurd rfl hne
    | cons x l =>
      rw [cons_append, List.cons.injEq] at hsplit
      cases l with
      | nil => rw [hsplit.1]
      | cons y l =>
        have hlt := (StrictlySorted.cons_iff.mp hA).1 y (by simp [hsplit.2])
        rw [hle y (by simp)] at hlt
        cases hlt
  rw [hsearch, hmem, hsingle, h2.pos_eq]
  rfl

theorem interLoop2_self (h1 : Reading h set1 pre A len1 i1) (hA : StrictlySorted lt A)
    (hfuel : A.length < fuel)
    : interLoop2 eq lt set1 set1 set1 len1 len1 fuel h pre.length i1 i1
        = .ok (h, (pre ++ A).length) := by
  induction fuel generalizing pre A i1 with
  | zero => omega
  | succ fuel ih =>
    unfold interLoop2
    cases A with
    | nil =>
      rw [if_neg h1.not_le]
      rw [append_nil]
      rfl
    | cons a A =>
      rw [if_pos h1.le]
      rw [h1.elm]
      rw [ok_bind]
      rw [searchLoop_head ho h1 hA]
      rw [ok_bind]
      dsimp only
      rw [if_pos rfl]
      rw [h1.holds.setElm rfl]
      rw [ok_bind]
      rw [h1.holds.store_self]
      have := ih h1.next (StrictlySorted.cons_iff.mp hA).2 (by
        simp only [length_cons] at hfuel
        omega)
      rw [length_append, length_singleton] at this
      rw [this]
      simp

end

end PlainSetImpl

namespace PlainSetImpl

open PlistHeap

variable {E : Type} {eq lt : E → E → Bool} {set1 set2 len1 len2 i1 i2 fuel : Nat} {h : PlistHeap E}

theorem subtrRestLoop_spec (out : List E) {mid A : List E}
    (h1 : Reading h set1 (out ++ mid) A len1 i1) (hfuel : A.length < fuel)
    : ∃ rest, subtrRestLoop set1 len1 fuel h out.length i1
        = .ok (h.store set1 (out ++ A ++ rest), (out ++ A).length) := by
  induction fuel generalizing h out mid A i1 with
  | zero => omega
  | succ fuel ih =>
    unfold subtrRestLoop
    cases A with
    | nil =>
      rw [if_neg h1.not_le]
      have hstore := h1.holds.store_self
      rw [append_nil] at hstore
      refine ⟨mid, ?_⟩
      rw [append_nil, hstore]
      rfl
    | cons a A =>
      rw [if_pos h1.le]
      rw [h1.elm]
      rw [ok_bind]
      simp only [length_cons] at hfuel
      have h1' := h1.next
      rw [append_assoc] at h1'
      obtain ⟨mid', hset, hw⟩ := h1'.write (y := a) (by simp)
      rw [hset]
      rw [ok_bind]
      obtain ⟨rest, hrun⟩ := ih (out ++ [a]) hw (by omega)
      refine ⟨rest, ?_⟩
      rw [length_append, length_singleton] at hrun
      rw [hrun, store_store]
      simp

section

variable (ho : IsSetOrder eq lt)

include ho

variable {A pre : List E}

theorem subtrLoop1_spec (hne : set2 ≠ set1) (out : List E) {mid B : List E}
    (h1 : Reading h set1 (out ++ mid) A len1 i1) (h2 : Reading h set2 pre B len2 i2)
    (hA : StrictlySorted lt A) (hB : StrictlySorted lt B) (hfuel : A.length + B.length < fuel)
    : ∃ h' out' mid' A' i1',
        subtrLoop1 eq lt set1 set2 len1 len2 fuel h out.length i1 i2 = .ok (h', out'.length, i1')
          ∧ Reading h' set1 (out' ++ mid') A' len1 i1' ∧ A'.length ≤ len1
          ∧ out' ++ A' = out ++ diff eq A B ∧ ∀ l, h'.store set1 l = h.store set1 l := by
  induction fuel generalizing h out mid A pre B i1 i2 with
  | zero => omega
  | succ fuel ih =>
    unfold subtrLoop1
    cases A with
    | nil =>
      rw [if_neg (by simp [h1.not_le])]
      exact ⟨h, out, mid, [], i1, rfl, h1, Nat.zero_le _, rfl, fun _ => rfl⟩
    | cons a A =>
      cases B with
      | nil =>
        rw [if_neg (by simp [h2.not_le])]
        refine ⟨h, out, mid, a :: A, i1, rfl, h1, ?_, ?_, fun _ => rfl⟩
        . rw [h1.len_eq]
          omega
        . rw [diff_nil_right]
      | cons b B =>
        rw [if_pos ⟨h1.le, h2.le⟩]
        rw [h1.elm]
        rw [ok_bind]
        rw [h2.elm]
        rw [ok_bind]
        simp only [length_cons] at hfuel
        have hA' := StrictlySorted.cons_iff.mp hA
        have hB' := StrictlySorted.cons_iff.mp hB
        have h1' := h1.next
        rw [append_assoc] at h1'
        split
        next hab =>
          have hba : lt a b = false := ((ho.eq_iff a b).mp hab).1
          have hdiff : diff eq (a :: A) (b :: B) = diff eq A B := by
            rw [diff_cons, if_pos (by simp [hab])]
            exact diff_congr (fun x hx => ho.memSet_tail hA hba hx B)
          rw [hdiff]
          exact ih out h1' h2.next hA'.2 hB'.2 (by omega)
        next hab =>
          rw [not_eq_true] at hab
          split
          next hlt =>
            obtain ⟨mid', hset, hw⟩ := h1'.write (y := a) (by simp)
            rw [hset]
            rw [ok_bind]
            obtain ⟨h', out', mid'', A', i1', hrun, hr, hle, hout, hstore⟩ := ih (out ++ [a]) hw
              (h2.store_of_ne hne) hA'.2 hB (by simp only [length_cons]; omega)
            refine ⟨h', out', mid'', A', i1', ?_, hr, hle, ?_, ?_⟩
            . rw [length_append, length_singleton] at hrun
              exact hrun
            . rw [hout, diff_cons, if_neg, append_assoc]
              . rfl
              . rw [memSet_cons, hab, ho.memSet_of_gt (fun x hx => ho.lt_trans hlt (hB'.1 x hx))]
                simp
            . intro l
              rw [hstore, store_store]
          next hlt =>
            rw [not_eq_true] at hlt
            have hdiff : diff eq (a :: A) (b :: B) = diff eq (a :: A) B := by
              apply diff_congr
              intro x hx
              rcases mem_cons.mp hx with rfl | hx
              . rw [memSet_cons, hab, Bool.false_or]
              . exact ho.memSet_tail hA hlt hx B
            rw [hdiff]
            exact ih out h1 h2.next hA hB'.2 (by simp only [length_cons]; omega)

theorem subtrLoop1_self (h1 : Reading h set1 pre A len1 i1) (hfuel : A.length < fuel)
    : ∃ i1', subtrLoop1 eq lt set1 set1 len1 len1 fuel h 0 i1 i1 = .ok (h, 0, i1')
        ∧ ¬i1' ≤ len1 := by
  induction fuel generalizing pre A i1 with
  | zero => omega
  | succ fuel ih =>
    unfold subtrLoop1
    cases A with
    | nil =>
      rw [if_neg (by simp [h1.not_le])]
      exact ⟨i1, rfl, h1.not_le⟩
    | cons a A =>
      rw [if_pos ⟨h1.le, h1.le⟩]
      rw [h1.elm]
      rw [ok_bind]
      rw [ok_bind]
      rw [if_pos (ho.eq_self a)]
      exact ih h1.next (by simp only [length_cons] at hfuel; omega)

theorem subtrLoop2_spec (hne : set2 ≠ set1) (out : List E) {mid B : List E}
    (h1 : Reading h set1 (out ++ mid) A len1 i1) (h2 : Reading h set2 pre B len2 i2)
    (hA : StrictlySorted lt A) (hB : StrictlySorted lt B) (hfuel : A.length < fuel)
    : ∃ rest, subtrLoop2 eq lt set1 set2 len1 len2 fuel h out.length i1 i2
        = .ok (h.store set1 (out ++ diff eq A B ++ rest), (out ++ diff eq A B).length) := by
  induction fuel generalizing h out mid A pre B i1 i2 with
  | zero => omega
  | succ fuel ih =>
    unfold subtrLoop2
    cases A with
    | nil =>
      rw [if_neg h1.not_le]
      have hstore := h1.holds.store_self
      rw [append_nil] at hstore
      refine ⟨mid, ?_⟩
      rw [show diff eq [] B = [] from rfl, append_nil, hstore]
      rfl
    | cons a A =>
      rw [if_pos h1.le]
      rw [h1.elm]
      rw [ok_bind]
      obtain ⟨l, r, rfl, hle, _, hsearch⟩ := searchLoop_window ho (e := a) h2.holds hB h2.pos_eq
        h2.len_eq (Nat.lt_succ_self len2)
      rw [hsearch]
      rw [ok_bind]
      dsimp only
      simp only [length_cons] at hfuel
      have hA' := StrictlySorted.cons_iff.mp hA
      have hr := (StrictlySorted.append_iff.mp hB).2.1
      have h1' := h1.next
      rw [append_assoc] at h1'
      have htail : diff eq A (l ++ r) = diff eq A r :=
        diff_congr (fun x hx => memSet_rest ho hle (hA'.1 x hx))
      rw [diff_cons, htail]
      by_cases hfound : memSet eq a (l ++ r) = true
      . rw [if_neg (by simp [hfound]), if_pos hfound]
        obtain ⟨rest, hrun⟩ := ih out h1' h2.skip hA'.2 hr (by omega)
        exact ⟨rest, hrun⟩
      . rw [if_pos (by simp [hfound]), if_neg hfound]
        obtain ⟨mid', hset, hw⟩ := h1'.write (y := a) (by simp)
        rw [hset]
        rw [ok_bind]
        obtain ⟨rest, hrun⟩ := ih (out ++ [a]) hw (h2.skip.store_of_ne hne) hA'.2 hr (by omega)
        refine ⟨rest, ?_⟩
        rw [length_append, length_singleton] at hrun
        rw [hrun, store_store]
        simp

theorem subtrLoop2_self (h1 : Reading h set1 pre A len1 i1) (hA : StrictlySorted lt A)
    (hfuel : A.length < fuel)
    : subtrLoop2 eq lt set1 set1 len1 len1 fuel h 0 i1 i1 = .ok (h, 0) := by
  induction fuel generalizing pre A i1 with
  | zero => omega
  | succ fuel ih =>
    unfold subtrLoop2
    cases A with
    | nil =>
      rw [if_neg h1.not_le]
      rfl
    | cons a A =>
      rw [if_pos h1.le]
      rw [h1.elm]
      rw [ok_bind]
      rw [searchLoop_head ho h1 hA]
      rw [ok_bind]
      dsimp only
      rw [if_neg (by simp)]
      exact ih h1.next (StrictlySorted.cons_iff.mp hA).2 (by
        simp only [length_cons] at hfuel
        omega)

end

end PlainSetImpl
