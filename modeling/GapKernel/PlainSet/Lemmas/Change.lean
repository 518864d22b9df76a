import GapKernel.PlainSet.Lemmas.SetList

open List

namespace PlistHeap

variable {E : Type} {h : PlistHeap E} {list : Nat}

theorem memmove_eq {entries : List (Option E)} (hentries : h.plist list = .ok entries)
    (dst src n : Nat) (hdst : dst + n ≤ entries.length) (hsrc : src + n ≤ entries.length)
    : h.memmove list (dst + 1) (src + 1) n
        = .ok (h.put list
            (entries.take dst ++ (entries.drop src).take n ++ entries.drop (dst + n))) := by
  unfold memmove
  rw [hentries]
  rw [ok_bind]
  rw [if_pos (by omega)]
  rfl

theorem plist_put {entries : List (Option E)} (hlist : list < h.bags.length)
    : (h.put list entries).plist list = .ok entries := by
  have hbag : (h.put list entries).bags[list]? = some { isPlist := true, entries := entries } := by
    unfold put
    rw [getElem?_set_self hlist]
  rw [plist_of_bag hbag rfl]

@[simp]
theorem put_put (h : PlistHeap E) (list : Nat) (entries entries' : List (Option E))
    : (h.put list entries).put list entries' = h.put list entries' := by
  unfold put
  simp

end PlistHeap

namespace PlainSetImpl

open PlistHeap

variable {E : Type} {eq lt : E → E → Bool} {h : PlistHeap E} {set : Nat} {A : List E}

theorem insert_spec {l r : List E} (obj : E) (hl : h.Holds set (l ++ r))
    : (do
        let h ← h.setLen set ((l ++ r).length + 1)
        let h ← h.memmove set (l.length + 1 + 1) (l.length + 1)
          ((l ++ r).length + 1 - (l.length + 1))
        h.setElm set (l.length + 1) (some obj) : Result (PlistHeap E))
      = .ok (h.store set (l ++ obj :: r)) := by
  have hlong : h.setLen set ((l ++ r).length + 1)
      = .ok (h.put set (l.map some ++ (r.map some ++ [none]))) := by
    unfold PlistHeap.setLen
    rw [hl.plist]
    rw [ok_bind]
    rw [take_of_length_le (by simp)]
    simp
    rfl
  rw [hlong]
  rw [ok_bind]
  have hlt := hl.lt_length
  -- The first of the entries that are moved is still there.
  obtain ⟨y, rest, hy⟩ : ∃ y rest, r.map some ++ [none] = y :: rest := by
    cases r with
    | nil => exact ⟨none, [], rfl⟩
    | cons x r => exact ⟨some x, _, rfl⟩
  have hrest : rest.length = r.length := by
    have := congrArg List.length hy
    simp only [length_append, length_map, length_cons, length_nil] at this
    omega
  rw [show (l ++ r).length + 1 - (l.length + 1) = r.length by simp]
  rw [memmove_eq (plist_put hlt) _ _ _ (by simp; omega) (by simp)]
  rw [ok_bind]
  have hmoved : (l.map some ++ (r.map some ++ [none])).take (l.length + 1)
      ++ ((l.map some ++ (r.map some ++ [none])).drop l.length).take r.length
      ++ (l.map some ++ (r.map some ++ [none])).drop (l.length + 1 + r.length)
        = l.map some ++ y :: r.map some := by
    have hdrop : (l.map some ++ (r.map some ++ [none])).drop l.length = r.map some ++ [none] :=
      drop_left' (by simp)
    have htake : (r.map some ++ [none]).take r.length = r.map some :=
      take_left' (by simp)
    rw [hdrop, htake]
    rw [hy, ← singleton_append, ← append_assoc, take_left' (by simp)]
    rw [drop_of_length_le (by simp [hrest]; omega)]
    simp
  rw [hmoved, put_put]
  unfold PlistHeap.setElm
  rw [plist_put hlt]
  rw [ok_bind]
  rw [show l.length + 1 = (l.map some).length + 1 by simp]
  rw [setElmPlist_append_cons]
  rw [ok_bind]
  rw [put_put]
  unfold PlistHeap.store
  rw [map_append, map_cons]
  rfl

theorem remove_spec {l r : List E} {x : E} (hl : h.Holds set (l ++ x :: r))
    : (do
        let h ← h.memmove set (l.length + 1) (l.length + 1 + 1)
          ((l ++ x :: r).length - (l.length + 1))
        let h ← h.setElm set (l ++ x :: r).length none
        h.setLen set ((l ++ x :: r).length - 1) : Result (PlistHeap E))
      = .ok (h.store set (l ++ r)) := by
  have hlt := hl.lt_length
  rw [show (l ++ x :: r).length - (l.length + 1) = r.length by simp; omega]
  rw [memmove_eq hl.plist _ _ _ (by simp) (by simp; omega)]
  rw [ok_bind]
  -- The last entry is still there after the others have been moved.
  obtain ⟨z, hz⟩ : ∃ z, ((l ++ x :: r).map some).drop (l.length + r.length) = [z] := by
    apply length_eq_one_iff.mp
    simp
    omega
  have hmoved : ((l ++ x :: r).map some).take l.length
      ++ (((l ++ x :: r).map some).drop (l.length + 1)).take r.length
      ++ ((l ++ x :: r).map some).drop (l.length + r.length)
        = (l ++ r).map some ++ [z] := by
    have htake : ((l ++ x :: r).map some).take l.length = l.map some := by
      rw [map_append, take_left' (by simp)]
    have hdrop : ((l ++ x :: r).map some).drop (l.length + 1) = r.map some := by
      rw [show l ++ x :: r = (l ++ [x]) ++ r by simp]
      rw [map_append, drop_left' (by simp)]
    rw [hz, htake, hdrop, take_of_length_le (by simp), map_append]
  rw [hmoved]
  unfold PlistHeap.setElm
  rw [plist_put hlt]
  rw [ok_bind]
  rw [show (l ++ x :: r).length = ((l ++ r).map some).length + 1 by simp; omega]
  rw [setElmPlist_append_cons]
  rw [ok_bind]
  rw [pure_bind]
  rw [put_put]
  unfold PlistHeap.setLen
  rw [plist_put hlt]
  rw [ok_bind]
  rw [Nat.add_sub_cancel, take_left]
  rw [Nat.sub_eq_zero_of_le (by simp)]
  rw [put_put, replicate_zero, append_nil]
  rfl

section

variable (ho : IsSetOrder eq lt)

include ho

theorem addSet_spec (hset : h.Holds set A) (hsorted : StrictlySorted lt A) (obj : E)
    : ∃ l, addSet eq lt h set obj = .ok (h.store set l) ∧ StrictlySorted lt l
        ∧ ∀ x, memSet eq x l = (eq x obj || memSet eq x A) := by
  obtain ⟨l, r, rfl, hl, hr, hpos⟩ := positionSortedDensePlist_spec ho obj hset hsorted
  unfold addSet
  rw [requireMutableSet_spec ho hset hsorted]
  rw [ok_bind]
  rw [hset.lenPlist]
  rw [ok_bind]
  rw [hpos]
  rw [ok_bind]
  have hsorted' := StrictlySorted.append_iff.mp hsorted
  -- The head of `r` is the only element that can be equal to `obj`.
  have hnew : ∀ isNew : Bool, (isNew = true → ∀ x ∈ r, lt obj x = true) →
      (isNew = false → memSet eq obj r = true) →
      ∃ l', (if isNew = true then do
            let h ← h.setLen set ((l ++ r).length + 1)
            let h ← h.memmove set (l.length + 1 + 1) (l.length + 1)
              ((l ++ r).length + 1 - (l.length + 1))
            h.setElm set (l.length + 1) (some obj)
          else pure h : Result (PlistHeap E)) = .ok (h.store set l') ∧ StrictlySorted lt l'
        ∧ ∀ x, memSet eq x l' = (eq x obj || memSet eq x (l ++ r)) := by
    intro isNew htrue hfalse
    cases isNew with
    | true =>
      rw [if_pos rfl, insert_spec obj hset]
      refine ⟨l ++ obj :: r, rfl, ?_, ?_⟩
      . rw [StrictlySorted.append_iff, StrictlySorted.cons_iff]
        refine ⟨hsorted'.1, ⟨htrue rfl, hsorted'.2.1⟩, ?_⟩
        intro a ha b hb
        rcases mem_cons.mp hb with rfl | hb
        . exact hl a ha
        . exact hsorted'.2.2 a ha b hb
      . intro x
        rw [memSet_append, memSet_append, memSet_cons]
        cases eq x obj with
        | true => simp
        | false => simp
    | false =>
      rw [if_neg (by simp)]
      refine ⟨l ++ r, ?_, hsorted, ?_⟩
      . rw [hset.store_self]
        rfl
      . intro x
        by_cases hx : eq x obj = true
        . rw [memSet_append, ho.memSet_congr hx r, hfalse rfl, hx]
          simp
        . simp [hx]
  cases r with
  | nil =>
    rw [if_pos (by simp)]
    rw [pure_bind]
    exact hnew true (by simp) (by simp)
  | cons y r =>
    rw [if_neg (by simp)]
    rw [hset.elm rfl]
    rw [ok_bind]
    rw [pure_bind]
    apply hnew
    . intro hne x hx
      rw [Bool.not_eq_true'] at hne
      have hlt := ho.lt_of_not_eq hne (hr y mem_cons_self)
      rcases mem_cons.mp hx with rfl | hx
      . exact hlt
      . exact ho.lt_trans hlt ((StrictlySorted.cons_iff.mp hsorted'.2.1).1 x hx)
    . intro heq
      rw [Bool.not_eq_false'] at heq
      rw [ho.eq_comm] at heq
      simp [heq]

theorem remSet_spec (hset : h.Holds set A) (hsorted : StrictlySorted lt A) (obj : E)
    : ∃ l, remSet eq lt h set obj = .ok (h.store set l) ∧ StrictlySorted lt l
        ∧ ∀ x, memSet eq x l = (!eq x obj && memSet eq x A) := by
  obtain ⟨l, r, rfl, hl, hr, hpos⟩ := positionSortedDensePlist_spec ho obj hset hsorted
  unfold remSet
  rw [requireMutableSet_spec ho hset hsorted]
  rw [ok_bind]
  rw [hset.lenPlist]
  rw [ok_bind]
  rw [hpos]
  rw [ok_bind]
  have hsorted' := StrictlySorted.append_iff.mp hsorted
  have hkeep : memSet eq obj (l ++ r) = false →
      ∃ l', (pure h : Result (PlistHeap E)) = .ok (h.store set l') ∧ StrictlySorted lt l'
        ∧ ∀ x, memSet eq x l' = (!eq x obj && memSet eq x (l ++ r)) := by
    intro hnot
    refine ⟨l ++ r, ?_, hsorted, ?_⟩
    . rw [hset.store_self]
      rfl
    . intro x
      cases hx : eq x obj with
      | true => rw [ho.memSet_congr hx, hnot, Bool.and_false]
      | false => simp
  have hnotl := ho.memSet_of_lt hl
  cases r with
  | nil =>
    rw [if_neg (by simp)]
    rw [pure_bind]
    rw [if_neg (by simp)]
    apply hkeep
    rw [append_nil]
    exact hnotl
  | cons y r =>
    rw [if_pos (by simp)]
    rw [hset.elm rfl]
    rw [ok_bind]
    rw [pure_bind]
    have hr' := StrictlySorted.cons_iff.mp hsorted'.2.1
    split
    next heq =>
      rw [remove_spec hset]
      refine ⟨l ++ r, rfl, ?_, ?_⟩
      . rw [StrictlySorted.append_iff]
        exact ⟨hsorted'.1, hr'.2, fun a ha b hb => hsorted'.2.2 a ha b (mem_cons_of_mem _ hb)⟩
      . intro x
        rw [memSet_append, memSet_append, memSet_cons]
        cases hx : eq x obj with
        | true =>
          have hnotr : memSet eq obj r = false := by
            apply ho.memSet_of_gt
            intro b hb
            rw [ho.eq_comm] at heq
            exact ho.lt_of_eq_of_lt heq (hr'.1 b hb)
          rw [ho.memSet_congr hx l, ho.memSet_congr hx r, hnotl, hnotr]
          rfl
        | false =>
          have hxy : eq x y = false := by
            rw [← Bool.not_eq_true]
            intro hxy
            rw [ho.eq_trans hxy heq] at hx
            cases hx
          rw [hxy]
          rfl
    next hne =>
      apply hkeep
      rw [Bool.not_eq_true] at hne
      have hlt := ho.lt_of_not_eq hne (hr y mem_cons_self)
      rw [memSet_append, hnotl, Bool.false_or]
      apply ho.memSet_of_gt
      intro b hb
      rcases mem_cons.mp hb with rfl | hb
      . exact hlt
      . exact ho.lt_trans hlt (hr'.1 b hb)

end

end PlainSetImpl

namespace PlainSetImpl

open PlistHeap

variable {E : Type} {eq lt : E → E → Bool} {set1 set2 len1 len2 i1 i2 fuel : Nat} {h : PlistHeap E}

theorem uniteRestLoop_spec {set len i : Nat} {done rest : List E} (out : List E)
    (hr : Reading h set done rest len i) (hfuel : rest.length < fuel)
    : uniteRestLoop h set len fuel (out.map some) i = .ok ((out ++ rest).map some) := by
  induction fuel generalizing done rest out i with
  | zero => omega
  | succ fuel ih =>
    unfold uniteRestLoop
    cases rest with
    | nil =>
      rw [if_neg hr.not_le]
      rw [append_nil]
      rfl
    | cons x rest =>
      rw [if_pos hr.le]
      rw [hr.elm]
      rw [ok_bind]
      have := ih (out ++ [x]) hr.next (by simp only [length_cons] at hfuel; omega)
      simpa using this

section

variable (ho : IsSetOrder eq lt)

include ho

theorem uniteLoop_spec {pre1 A pre2 B : List E} (out : List E)
    (h1 : Reading h set1 pre1 A len1 i1) (h2 : Reading h set2 pre2 B len2 i2)
    (hA : StrictlySorted lt A) (hB : StrictlySorted lt B) (hfuel : A.length + B.length < fuel)
    : ∃ l pre1' A' i1' pre2' B' i2',
        uniteLoop eq lt h set1 set2 len1 len2 fuel (out.map some) i1 i2
            = .ok ((out ++ l).map some, i1', i2')
          ∧ Reading h set1 pre1' A' len1 i1' ∧ Reading h set2 pre2' B' len2 i2'
          ∧ StrictlySorted lt (l ++ A' ++ B')
          ∧ (∀ x, memSet eq x (l ++ A' ++ B') = (memSet eq x A || memSet eq x B))
          ∧ ∀ a, (∀ b ∈ A, lt a b = true) → (∀ b ∈ B, lt a b = true) →
              ∀ b ∈ l ++ A' ++ B', lt a b = true := by
  induction fuel generalizing pre1 A pre2 B out i1 i2 with
  | zero => omega
  | succ fuel ih =>
    unfold uniteLoop
    cases A with
    | nil =>
      rw [if_neg (by simp [h1.not_le])]
      refine ⟨[], pre1, [], i1, pre2, B, i2, ?_, h1, h2, hB, fun _ => rfl, fun _ _ hlt => hlt⟩
      rw [append_nil]
      rfl
    | cons a A =>
      cases B with
      | nil =>
        rw [if_neg (by simp [h2.not_le])]
        refine ⟨[], pre1, a :: A, i1, pre2, [], i2, ?_, h1, h2, ?_, ?_, ?_⟩
        . rw [append_nil]
          rfl
        . simpa using hA
        . simp [memSet]
        . intro x hlt _ b hb
          apply hlt
          simpa using hb
      | cons b B =>
        rw [if_pos ⟨h1.le, h2.le⟩]
        rw [h1.elm]
        rw [ok_bind]
        rw [h2.elm]
        rw [ok_bind]
        simp only [length_cons] at hfuel
        have hA' := StrictlySorted.cons_iff.mp hA
        have hB' := StrictlySorted.cons_iff.mp hB
        have hconcat : ∀ x : E, out.map some ++ [some x] = (out ++ [x]).map some := by
          simp
        split
        next hab =>
          have hblt : ∀ x ∈ B, lt a x = true := fun x hx => ho.lt_of_eq_of_lt hab (hB'.1 x hx)
          obtain ⟨l, pre1', A', i1', pre2', B', i2', hrun, hr1, hr2, hs, hmem, hlt⟩ :=
            ih (out ++ [a]) h1.next h2.next hA'.2 hB'.2 (by omega)
          refine ⟨a :: l, pre1', A', i1', pre2', B', i2', ?_, hr1, hr2, ?_, ?_, ?_⟩
          . rw [hconcat, hrun]
            simp
          . exact StrictlySorted.cons_iff.mpr ⟨hlt a hA'.1 hblt, hs⟩
          . intro x
            rw [cons_append, cons_append, memSet_cons, hmem, memSet_cons, memSet_cons]
            cases hx : eq x a with
            | true => simp
            | false =>
              have : eq x b = false := by
                rw [← Bool.not_eq_true]
                intro hxb
                rw [ho.eq_comm] at hab
                rw [ho.eq_trans hxb hab] at hx
                cases hx
              rw [this]
              simp
          . intro y hyA hyB z hz
            rcases mem_cons.mp hz with rfl | hz
            . exact hyA _ mem_cons_self
            . exact hlt y (fun z hz => hyA z (mem_cons_of_mem _ hz))
                (fun z hz => hyB z (mem_cons_of_mem _ hz)) z hz
        next hab =>
          rw [Bool.not_eq_true] at hab
          split
          next hltab =>
            have hblt : ∀ x ∈ b :: B, lt a x = true := by
              intro x hx
              rcases mem_cons.mp hx with rfl | hx
              . exact hltab
              . exact ho.lt_trans hltab (hB'.1 x hx)
            obtain ⟨l, pre1', A', i1', pre2', B', i2', hrun, hr1, hr2, hs, hmem, hlt⟩ :=
              ih (out ++ [a]) h1.next h2 hA'.2 hB (by simp only [length_cons]; omega)
            refine ⟨a :: l, pre1', A', i1', pre2', B', i2', ?_, hr1, hr2, ?_, ?_, ?_⟩
            . rw [hconcat, hrun]
              simp
            . exact StrictlySorted.cons_iff.mpr ⟨hlt a hA'.1 hblt, hs⟩
            . intro x
              rw [cons_append, cons_append, memSet_cons, hmem, memSet_cons x a A]
              rw [Bool.or_assoc]
            . intro y hyA hyB z hz
              rcases mem_cons.mp hz with rfl | hz
              . exact hyA _ mem_cons_self
              . exact hlt y (fun z hz => hyA z (mem_cons_of_mem _ hz)) hyB z hz
          next hltab =>
            rw [Bool.not_eq_true] at hltab
            have hba := ho.lt_of_not_eq hab hltab
            have halt : ∀ x ∈ a :: A, lt b x = true := by
              intro x hx
              rcases mem_cons.mp hx with rfl | hx
              . exact hba
              . exact ho.lt_trans hba (hA'.1 x hx)
            obtain ⟨l, pre1', A', i1', pre2', B', i2', hrun, hr1, hr2, hs, hmem, hlt⟩ :=
              ih (out ++ [b]) h1 h2.next hA hB'.2 (by simp only [length_cons]; omega)
            refine ⟨b :: l, pre1', A', i1', pre2', B', i2', ?_, hr1, hr2, ?_, ?_, ?_⟩
            . rw [hconcat, hrun]
              simp
            . exact StrictlySorted.cons_iff.mpr ⟨hlt b halt hB'.1, hs⟩
            . intro x
              rw [cons_append, cons_append, memSet_cons, hmem, memSet_cons x b B]
              rw [Bool.or_left_comm]
            . intro y hyA hyB z hz
              rcases mem_cons.mp hz with rfl | hz
              . exact hyB _ mem_cons_self
              . exact hlt y hyA (fun z hz => hyB z (mem_cons_of_mem _ hz)) z hz

theorem isSubsetLoop_spec {pre1 A pre2 B : List E}
    (h1 : Reading h set1 pre1 A len1 i1) (h2 : Reading h set2 pre2 B len2 i2)
    (hA : StrictlySorted lt A) (hB : StrictlySorted lt B) (hfuel : A.length + B.length < fuel)
    : ∃ i2', isSubsetLoop eq lt h set1 set2 len1 len2 fuel i1 i2 = .ok i2'
        ∧ (i2' = len2 + 1 ↔ ∀ x ∈ B, memSet eq x A = true) := by
  induction fuel generalizing pre1 A pre2 B i1 i2 with
  | zero => omega
  | succ fuel ih =>
    have hlen1 := h1.len_eq
    have hlen2 := h2.len_eq
    have hpos1 := h1.pos_eq
    have hpos2 := h2.pos_eq
    unfold isSubsetLoop
    cases B with
    | nil =>
      rw [if_neg (by simp [h2.not_le])]
      refine ⟨i2, rfl, ?_⟩
      simp only [length_nil, not_mem_nil, false_implies, implies_true, iff_true] at *
      omega
    | cons b B =>
      have hnot : ∀ i2', i2' ≤ len2 → ¬(∀ x ∈ b :: B, memSet eq x A = true) →
          (i2' = len2 + 1 ↔ ∀ x ∈ b :: B, memSet eq x A = true) := by
        intro i2' hle hsub
        constructor
        . omega
        . intro h
          exact absurd h hsub
      split
      next hguard =>
        cases A with
        | nil => exact absurd hguard.1 h1.not_le
        | cons a A =>
          rw [h1.elm]
          rw [ok_bind]
          rw [h2.elm]
          rw [ok_bind]
          simp only [length_cons] at hfuel
          have hA' := StrictlySorted.cons_iff.mp hA
          have hB' := StrictlySorted.cons_iff.mp hB
          split
          next hab =>
            obtain ⟨i2', hrun, hiff⟩ := ih h1.next h2.next hA'.2 hB'.2 (by omega)
            refine ⟨i2', hrun, ?_⟩
            rw [hiff, forall_mem_cons]
            have hba : lt b a = false := ((ho.eq_iff a b).mp hab).2
            rw [ho.eq_comm] at hab
            simp only [memSet_cons, hab, Bool.true_or, true_and]
            apply forall_congr'
            intro x
            apply imp_congr_right
            intro hx
            rw [← memSet_cons, ho.memSet_tail hB hba hx A]
          next hab =>
            rw [Bool.not_eq_true] at hab
            split
            next hlt =>
              obtain ⟨i2', hrun, hiff⟩ := ih h1.next h2 hA'.2 hB
                (by simp only [length_cons]; omega)
              refine ⟨i2', hrun, ?_⟩
              rw [hiff]
              apply forall_congr'
              intro x
              apply imp_congr_right
              intro hx
              have : lt a x = true := by
                rcases mem_cons.mp hx with rfl | hx
                . exact hlt
                . exact ho.lt_trans hlt (hB'.1 x hx)
              rw [memSet_cons, ho.eq_of_gt this, Bool.false_or]
            next hlt =>
              refine ⟨i2, rfl, ?_⟩
              apply hnot i2 h2.le
              intro hsub
              rw [Bool.not_eq_true] at hlt
              have hba := ho.lt_of_not_eq hab hlt
              have hmem := hsub b mem_cons_self
              rw [ho.memSet_of_gt] at hmem
              . cases hmem
              . intro x hx
                rcases mem_cons.mp hx with rfl | hx
                . exact hba
                . exact ho.lt_trans hba (hA'.1 x hx)
      next hguard =>
        refine ⟨i2, rfl, ?_⟩
        apply hnot i2 h2.le
        intro hsub
        have hle := ho.length_le_of_subset hB hA hsub
        have := h2.le
        apply hguard
        simp only [length_cons] at *
        omega

end

end PlainSetImpl
