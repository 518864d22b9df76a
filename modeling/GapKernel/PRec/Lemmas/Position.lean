import GapKernel.PRec.Lemmas.Sort

open List

namespace PRec

variable {V : Type} {w : IntSize} {rec : PRec V}

def IsPosition (entries : List (Int × V)) (rnam i : Nat) : Prop :=
  (i = 0 ∧ ∀ entry ∈ entries, entry.1.natAbs ≠ rnam)
    ∨ ∃ u entry v, entries = u ++ entry :: v ∧ entry.1.natAbs = rnam ∧ i = u.length + 1

theorem getRNam_eq {u v : List (Int × V)} {entry : Int × V} {i : Nat}
    (h : rec.entries = u ++ entry :: v) (hi : i = u.length + 1)
    : rec.getRNam i = .ok entry.1 := by
  rw [hi]
  exact getRNam_append_cons u v h

theorem exists_split_at {l : List (Int × V)} {k : Nat} (hk : k < l.length)
    : ∃ u x v, l = u ++ x :: v ∧ u.length = k := by
  apply Exists.intro (l.take k)
  apply Exists.intro l[k]
  apply Exists.intro (l.drop (k + 1))
  constructor
  . rw [getElem_cons_drop, take_append_drop]
  . rw [length_take]
    omega

theorem searchSorted_spec (rnam : RNam w) (rounds : Nat)
    : ∀ (lo mid hi : List (Int × V)), rec.entries = lo ++ mid ++ hi
      → (∀ entry ∈ mid, entry.1 < 0 ∧ entry.1.natAbs < 2 ^ (w.bits - 1))
      → mid.Pairwise (fun a b => -a.1 < -b.1) → mid.length < rounds
      → ∃ i, rec.searchSorted w (w.asUInt (-rnam.val)) rounds (lo.length + 1)
            (lo.length + mid.length + 1) = .ok i
        ∧ ((i = 0 ∧ ∀ entry ∈ mid, entry.1.natAbs ≠ rnam.val)
          ∨ ∃ u entry v, mid = u ++ entry :: v ∧ entry.1.natAbs = rnam.val
            ∧ i = lo.length + u.length + 1) := by
  have hneg : w.asUInt (-rnam.val) = 2 ^ w.bits - rnam.val := by
    have h0 := rnam.pos
    have hlt := rnam.lt
    rw [IntSize.asUInt_of_neg (by omega) (by rw [Int.natAbs_neg]; exact hlt)]
    simp
  have hr0 := rnam.pos
  have hr := IntSize.lt_two_pow_bits rnam.lt
  induction rounds with
  | zero =>
    intro lo mid hi _ _ _ hlt
    omega
  | succ rounds ih =>
    intro lo mid hi hrec hmid hsorted hlt
    unfold searchSorted
    split
    . next hlow =>
      have hk : (lo.length + 1 + (lo.length + mid.length + 1)) / 2 - (lo.length + 1) < mid.length := by
        omega
      obtain ⟨u, x, v, huv, hu⟩ := exists_split_at hk
      have hpos : (lo.length + 1 + (lo.length + mid.length + 1)) / 2 = (lo ++ u).length + 1 := by
        rw [length_append, hu]
        omega
      have hget : rec.getRNam ((lo ++ u).length + 1) = .ok x.1 := by
        apply getRNam_append_cons (lo ++ u) (v ++ hi)
        rw [hrec, huv]
        simp
      dsimp only
      rw [hpos, hget, ok_bind, hneg]
      have hx := hmid x (by rw [huv]; simp)
      have hkey := IntSize.lt_two_pow_bits hx.2
      rw [IntSize.asUInt_of_neg hx.1 hx.2]
      rw [huv, pairwise_append, pairwise_cons] at hsorted
      have hlen : mid.length = u.length + v.length + 1 := by
        rw [huv]
        simp
        omega
      split
      . next hgt =>
        -- the names up to the middle are too small
        obtain ⟨i, hrun, hi'⟩ := ih (lo ++ u ++ [x]) v hi (by rw [hrec, huv]; simp)
          (fun entry he => hmid entry (by rw [huv]; simp [he])) hsorted.2.1.2 (by omega)
        have hlow' : (lo ++ u).length + 1 + 1 = (lo ++ u ++ [x]).length + 1 := by
          simp
          omega
        have hhigh' : lo.length + mid.length + 1 = (lo ++ u ++ [x]).length + v.length + 1 := by
          simp
          omega
        rw [hlow', hhigh']
        rw [hneg] at hrun
        apply Exists.intro i
        apply And.intro hrun
        cases hi' with
        | inl hi' =>
          left
          apply And.intro hi'.1
          intro entry he
          rw [huv, mem_append, mem_cons] at he
          cases he with
          | inl he =>
            have := hsorted.2.2 entry he x (by simp)
            have := hmid entry (by rw [huv]; simp [he])
            omega
          | inr he =>
            cases he with
            | inl he =>
              rw [he]
              omega
            | inr he => exact hi'.2 entry he
        | inr hi' =>
          right
          obtain ⟨u', entry, v', hv, hkey', hi'⟩ := hi'
          refine ⟨u ++ x :: u', entry, v', by rw [huv, hv]; simp, hkey', ?_⟩
          rw [hi']
          simp
          omega
      . next hge =>
        split
        . next hlt' =>
          -- the names from the middle on are too large
          obtain ⟨i, hrun, hi'⟩ := ih lo u (x :: v ++ hi) (by rw [hrec, huv]; simp)
            (fun entry he => hmid entry (by rw [huv]; simp [he])) hsorted.1 (by omega)
          rw [length_append]
          rw [hneg] at hrun
          apply Exists.intro i
          apply And.intro hrun
          cases hi' with
          | inl hi' =>
            left
            apply And.intro hi'.1
            intro entry he
            rw [huv, mem_append, mem_cons] at he
            cases he with
            | inl he => exact hi'.2 entry he
            | inr he =>
              cases he with
              | inl he =>
                rw [he]
                omega
              | inr he =>
                have := hsorted.2.1.1 entry he
                have := hmid entry (by rw [huv]; simp [he])
                omega
          | inr hi' =>
            right
            obtain ⟨u', entry, v', hv, hkey', hi'⟩ := hi'
            exact ⟨u', entry, v' ++ x :: v, by rw [huv, hv]; simp, hkey', hi'⟩
        . next hle =>
          refine ⟨_, rfl, Or.inr ⟨u, x, v, huv, by omega, ?_⟩⟩
          rw [length_append]
    . next hge =>
      have : mid = [] := by
        rw [← length_eq_zero_iff]
        omega
      subst this
      exact ⟨0, rfl, Or.inl ⟨rfl, by simp⟩⟩

variable {part : List (Int × V)}

theorem searchTail_spec (rnam : RNam w)
    (hpart : ∀ entry ∈ part, entry.1 < 0 ∧ entry.1.natAbs < 2 ^ (w.bits - 1))
    {tail : List (Int × V)}
    (htail : ∀ entry ∈ tail, 0 < entry.1 ∧ entry.1.natAbs < 2 ^ (w.bits - 1))
    : ∀ rest, rec.entries = part ++ tail ++ rest
      → (rec.searchTail w rnam.val (part.length + tail.length) = .ok (false, part.length)
          ∧ ∀ entry ∈ tail, entry.1.natAbs ≠ rnam.val)
        ∨ ∃ u entry v, tail = u ++ entry :: v ∧ entry.1.natAbs = rnam.val
          ∧ rec.searchTail w rnam.val (part.length + tail.length)
            = .ok (true, part.length + u.length + 1) := by
  induction tail using List.reverseRecOn with
  | nil =>
    intro rest hrec
    left
    apply And.intro _ (by simp)
    cases eq_nil_or_concat part with
    | inl h =>
      subst h
      rfl
    | inr h =>
      obtain ⟨part, last, rfl⟩ := h
      rw [concat_eq_append] at hrec hpart ⊢
      have hlast := hpart last (by simp)
      have hr := IntSize.lt_two_pow_bits rnam.lt
      have hkey := IntSize.lt_two_pow_bits hlast.2
      have hget : rec.getRNam (part.length + 1) = .ok last.1 := by
        apply getRNam_append_cons part rest
        rw [hrec]
        simp
      have hlen : (part ++ [last]).length = part.length + 1 := by
        simp
      rw [length_nil, Nat.add_zero, hlen]
      unfold searchTail
      rw [hget, ok_bind]
      rw [IntSize.asUInt_of_neg hlast.1 hlast.2]
      rw [if_neg (by omega), if_pos hlast.1]
      rfl
  | append_singleton tail last ih =>
    intro rest hrec
    have hlast := htail last (by simp)
    have hget : rec.getRNam (part.length + tail.length + 1) = .ok last.1 := by
      rw [← length_append]
      apply getRNam_append_cons (part ++ tail) rest
      rw [hrec]
      simp
    have hlen : part.length + (tail ++ [last]).length = part.length + tail.length + 1 := by
      simp
      omega
    rw [hlen]
    unfold searchTail
    rw [hget, ok_bind]
    rw [IntSize.asUInt_of_nonneg (by omega) hlast.2]
    split
    . next heq =>
      right
      exact ⟨tail, last, [], rfl, heq.symm, rfl⟩
    . next hne =>
      rw [if_neg (by omega)]
      cases ih (fun entry he => htail entry (by simp [he])) (last :: rest) (by rw [hrec]; simp) with
      | inl h =>
        left
        apply And.intro h.1
        intro entry he
        rw [mem_append, mem_singleton] at he
        cases he with
        | inl he => exact h.2 entry he
        | inr he =>
          rw [he]
          exact Ne.symm hne
      | inr h =>
        right
        obtain ⟨u, entry, v, huv, hkey, hrun⟩ := h
        exact ⟨u, entry, v ++ [last], by rw [huv]; simp, hkey, hrun⟩

theorem searchSorted_part (rnam : RNam w) (rest : List (Int × V))
    (hrec : rec.entries = part ++ rest) (hparts : Parts part [])
    (hbound : ∀ entry ∈ part, entry.1.natAbs < 2 ^ (w.bits - 1))
    : ∃ i, rec.searchSorted w (w.asUInt (-rnam.val)) (part.length + 1) 1 (part.length + 1) = .ok i
        ∧ IsPosition part rnam.val i := by
  obtain ⟨i, hrun, hi⟩ := searchSorted_spec rnam (part.length + 1) [] part rest
    (by rw [hrec]; simp) (fun entry he => ⟨hparts.neg entry he, hbound entry he⟩) hparts.sorted
    (by omega)
  simp at hrun hi
  exact ⟨i, hrun, by unfold IsPosition; simpa using hi⟩

theorem IsPosition.append {tail : List (Int × V)} {rnam i : Nat} (h : IsPosition part rnam i)
    (htail : ∀ entry ∈ tail, entry.1.natAbs ≠ rnam)
    : IsPosition (part ++ tail) rnam i := by
  cases h with
  | inl h =>
    left
    apply And.intro h.1
    intro entry he
    rw [mem_append] at he
    cases he with
    | inl he => exact h.2 entry he
    | inr he => exact htail entry he
  | inr h =>
    right
    obtain ⟨u, entry, v, huv, hkey, hi⟩ := h
    exact ⟨u, entry, v ++ tail, by rw [huv]; simp, hkey, hi⟩

structure Keeps (w : IntSize) (rec rec' : PRec V) : Prop where
  immutable : rec'.immutable = rec.immutable
  wf : rec'.Wf w
  perm : rec'.bindings.Perm rec.bindings

theorem Keeps.refl (h : rec.Wf w) : Keeps w rec rec :=
  { immutable := rfl
    wf := h
    perm := List.Perm.refl _ }

theorem SortedFrom.keeps {rec' : PRec V} (h : SortedFrom w rec rec') : Keeps w rec rec' :=
  { immutable := h.immutable
    wf := h.clean.wf
    perm := h.perm }

theorem Clean.searchSorted (h : rec.Clean w) (rnam : RNam w)
    : ∃ i, rec.searchSorted w (w.asUInt (-rnam.val)) (rec.entries.length + 1) 1
          (rec.entries.length + 1) = .ok i
        ∧ IsPosition rec.entries rnam.val i :=
  searchSorted_part rnam [] (by simp) h.parts h.wf.bound

theorem positionPRec_spec (h : rec.Wf w) (rnam : RNam w) (cleanup : Bool)
    : ∃ rec' i, rec.positionPRec w rnam.val cleanup = .ok (rec', i) ∧ Keeps w rec rec'
        ∧ (cleanup = true → rec'.Clean w) ∧ (cleanup = false → rec' = rec)
        ∧ IsPosition rec'.entries rnam.val i := by
  obtain ⟨part, tail, hrec, hparts⟩ := h.parts
  unfold positionPRec len
  dsimp only
  cases eq_nil_or_concat tail with
  | inl htail =>
    subst htail
    rw [append_nil] at hrec
    have hclean : rec.Clean w := by
      constructor
      . exact h
      . rw [hrec]
        exact hparts
    have hdirty : (if rec.entries.length > 0 then do
          let last ← rec.getRNam rec.entries.length
          return decide (last > 0)
        else
          return false : Result Bool) = .ok false := by
      split
      . cases eq_nil_or_concat part with
        | inl hpart =>
          next hlen =>
            rw [hrec, hpart] at hlen
            cases hlen
        | inr hpart =>
          obtain ⟨part, last, rfl⟩ := hpart
          rw [concat_eq_append] at hrec hparts
          have hneg := hparts.neg last (by simp)
          rw [getRNam_eq hrec (by rw [hrec]; simp), ok_bind]
          rw [decide_eq_false (by omega)]
          rfl
      . rfl
    obtain ⟨i, hrun, hi⟩ := hclean.searchSorted rnam
    rw [hdirty, ok_bind]
    rw [if_neg (by simp)]
    rw [hrun, ok_bind]
    exact ⟨rec, i, rfl, Keeps.refl h, fun _ => hclean, fun _ => rfl, hi⟩
  | inr htail =>
    obtain ⟨u, last, rfl⟩ := htail
    rw [concat_eq_append] at hrec hparts
    have hpos := hparts.pos last (by simp)
    have hdirty : (if rec.entries.length > 0 then do
          let last ← rec.getRNam rec.entries.length
          return decide (last > 0)
        else
          return false : Result Bool) = .ok true := by
      rw [if_pos (by rw [hrec]; simp)]
      have hrec' : rec.entries = (part ++ u) ++ last :: [] := by
        rw [hrec]
        simp
      rw [getRNam_eq hrec' (by rw [hrec']; simp; omega), ok_bind]
      rw [decide_eq_true hpos]
      rfl
    rw [hdirty, ok_bind]
    rw [if_pos rfl]
    cases cleanup with
    | true =>
      obtain ⟨rec', hsort, hsorted⟩ := sortPRecRNam_spec h
      obtain ⟨i, hrun, hi⟩ := hsorted.clean.searchSorted rnam
      have hlen : rec.entries.length = rec'.entries.length := by
        have := hsorted.perm.length_eq
        unfold bindings at this
        rw [length_map, length_map] at this
        exact this.symm
      rw [if_pos rfl]
      rw [hsort, ok_bind, hlen, hrun, ok_bind]
      exact ⟨rec', i, rfl, hsorted.keeps, fun _ => hsorted.clean, by simp, hi⟩
    | false =>
      have hpart : ∀ entry ∈ part, entry.1 < 0 ∧ entry.1.natAbs < 2 ^ (w.bits - 1) := by
        intro entry he
        exact ⟨hparts.neg entry he, h.bound entry (by rw [hrec]; simp [he])⟩
      have htail : ∀ entry ∈ u ++ [last], 0 < entry.1 ∧ entry.1.natAbs < 2 ^ (w.bits - 1) := by
        intro entry he
        exact ⟨hparts.pos entry he, h.bound entry (by rw [hrec]; simp at he ⊢; tauto)⟩
      rw [if_neg (by simp)]
      have hlen : rec.entries.length = part.length + (u ++ [last]).length := by
        rw [hrec, length_append]
      rw [hlen]
      cases searchTail_spec rnam hpart htail [] (by rw [hrec]; simp) with
      | inl hsearch =>
        rw [hsearch.1, ok_bind]
        rw [if_neg (by simp)]
        split
        . next hzero =>
          refine ⟨rec, 0, rfl, Keeps.refl h, by simp, fun _ => rfl, Or.inl ⟨rfl, ?_⟩⟩
          intro entry he
          rw [hrec, eq_nil_of_length_eq_zero hzero, nil_append] at he
          exact hsearch.2 entry he
        . obtain ⟨i, hrun, hi⟩ := searchSorted_part rnam (u ++ [last]) hrec
            { neg := hparts.neg, pos := by simp, sorted := hparts.sorted }
            (fun entry he => (hpart entry he).2)
          rw [hrun, ok_bind]
          refine ⟨rec, i, rfl, Keeps.refl h, by simp, fun _ => rfl, ?_⟩
          rw [hrec]
          exact hi.append hsearch.2
      | inr hsearch =>
        obtain ⟨u', entry, v', huv, hkey, hrun⟩ := hsearch
        rw [hrun, ok_bind]
        rw [if_pos rfl]
        refine ⟨rec, _, rfl, Keeps.refl h, by simp, fun _ => rfl, Or.inr ?_⟩
        refine ⟨part ++ u', entry, v', by rw [hrec, huv]; simp, hkey, ?_⟩
        rw [length_append]

end PRec
