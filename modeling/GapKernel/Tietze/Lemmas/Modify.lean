import GapKernel.Tietze.Lemmas.Loops

open CyclicWord List Nat

namespace TietzeStack

variable {tietze : TietzeStack}

structure IsPart (pty r rest : List Int) (j1 j2 : Nat) : Prop where
  lt : j2 < pty.length
  rotate : pty.rotate j2 = r ++ rest
  last : j1 = (r.length + j2 + (pty.length - 1)) % pty.length

variable {pty r rest : List Int} {j1 j2 : Nat}

theorem IsPart.length (h : IsPart pty r rest j1 j2)
    : r.length + rest.length = pty.length := by
  have hlen := congrArg List.length h.rotate
  rw [length_rotate, length_append] at hlen
  exact hlen.symm

theorem IsPart.next {a b : Int} (h : IsPart pty (a :: r ++ [b]) rest j1 j2)
    : IsPart pty r (b :: rest ++ [a]) (prevPos (pty.length - 1) j1) (nextPos (pty.length - 1) j2) := by
  have hlt := h.lt
  have hlen : 0 < pty.length := by
    omega
  refine ⟨nextPos_lt hlt, ?_, ?_⟩
  . rw [rotate_nextPos hlt]
    rw [h.rotate]
    simp
  . rw [h.last]
    rw [length_append, length_cons, length_singleton]
    rw [show r.length + 1 + 1 + j2 + (pty.length - 1) = r.length + j2 + pty.length + 1 by omega]
    rw [prevPos_mod hlen]
    unfold nextPos
    split
    . next heq =>
      rw [show r.length + 0 + (pty.length - 1) = r.length + j2 by omega]
      rw [add_mod_right]
    . next hne => rw [show r.length + (j2 + 1) + (pty.length - 1) = r.length + j2 + pty.length by omega]

theorem cancelLetters_spec (hinv : tietze.inverses.length = 2 * tietze.numgens + 1)
    (hletters : ∀ gen ∈ pty, tietze.IsLetter gen) (m : Nat) (hm : r.length = m)
    (h : IsPart pty r rest j1 j2)
    : ∃ s r' rest' j1' j2', r = s ++ r' ++ invWord tietze.inverse s
        ∧ IsPart pty r' rest' j1' j2'
        ∧ (2 ≤ r'.length → ∀ a ∈ r'.getLast?, ∀ b ∈ r'.head?, a ≠ tietze.inverse b)
        ∧ cancelLetters tietze pty (pty.length - 1) m j1 j2 = .ok (r'.length, j1', j2') := by
  induction m using Nat.twoStepInduction generalizing r rest j1 j2 with
  | zero =>
    refine ⟨[], r, rest, j1, j2, by simp [invWord], h, by omega, ?_⟩
    rw [hm]
    rfl
  | one =>
    refine ⟨[], r, rest, j1, j2, by simp [invWord], h, by omega, ?_⟩
    rw [hm]
    rfl
  | more m ih _ =>
    cases r with
    | nil => simp at hm
    | cons a r =>
      cases eq_nil_or_concat' r with
      | inl hnil =>
        rw [hnil] at hm
        simp at hm
      | inr hconcat =>
        rcases hconcat with ⟨r1, b, hr⟩
        rw [hr] at h hm
        rw [length_cons, length_append, length_singleton] at hm
        have hreadb : readY pty j1 = .ok b := by
          have hget : (pty.rotate j2)[r1.length + 1]? = some b := by
            rw [h.rotate]
            simp
          have hread := readY_rotate hget
          rw [h.last]
          rw [← cons_append]
          rw [length_append, length_cons, length_singleton]
          have hlt := h.lt
          rw [show r1.length + 1 + 1 + j2 + (pty.length - 1)
            = r1.length + 1 + j2 + pty.length by omega]
          rw [add_mod_right]
          exact hread
        have hreada : readY pty j2 = .ok a := by
          have hget : (pty.rotate j2)[0]? = some a := by
            rw [h.rotate]
            simp
          have hread := readY_rotate hget
          rw [Nat.zero_add] at hread
          rw [mod_eq_of_lt h.lt] at hread
          exact hread
        have hmem : ∀ gen ∈ a :: (r1 ++ [b]) ++ rest, tietze.IsLetter gen := by
          intro gen hgen
          rw [← h.rotate] at hgen
          rw [mem_rotate] at hgen
          exact hletters gen hgen
        unfold cancelLetters
        unfold readY at hreada hreadb
        rw [hreadb, ok_bind, hreada, ok_bind]
        rw [invGen_eq hinv (hmem a (by simp)), ok_bind]
        by_cases hab : b = tietze.inverse a
        . rw [if_neg (by simpa using hab)]
          rcases ih (by omega) h.next with ⟨s, r', rest', j1', j2', hrec⟩
          refine ⟨a :: s, r', rest', j1', j2', ?_, hrec.2⟩
          rw [hr, hrec.1, hab]
          simp [invWord]
        . rw [if_pos hab]
          refine ⟨[], a :: r, rest, j1, j2, by simp [invWord], ?_, ?_, ?_⟩
          . rw [hr]
            exact h
          . intro _ a' ha' b' hb'
            rw [hr] at ha'
            rw [← cons_append, getLast?_concat] at ha'
            rw [head?_cons] at hb'
            rw [← Option.some.inj ha', ← Option.some.inj hb']
            exact hab
          . rw [hr]
            rw [length_cons, length_append, length_singleton]
            rw [← hm]
            rfl

theorem IsPart.split (h : IsPart pty r rest j1 j2) (hle : j2 + r.length ≤ pty.length)
    : ∃ p q, pty = p ++ r ++ q ∧ p.length = j2 ∧ rest = q ++ p := by
  have hlt := h.lt
  have hrot := h.rotate
  rw [rotate_eq_drop_append_take (by omega)] at hrot
  have hdrop : pty.drop j2 = r ++ (pty.drop j2).drop r.length := by
    have htake := congrArg (take r.length) hrot
    rw [take_append_of_le_length (by rw [length_drop]; omega)] at htake
    rw [take_left] at htake
    conv =>
      rhs
      rw [← htake]
    rw [length_take, length_drop]
    rw [Nat.min_eq_left (by omega)]
    rw [take_append_drop]
  refine ⟨pty.take j2, (pty.drop j2).drop r.length, ?_, ?_, ?_⟩
  . rw [append_assoc]
    rw [← hdrop]
    rw [take_append_drop]
  . rw [length_take]
    omega
  . rw [hdrop] at hrot
    rw [append_assoc] at hrot
    apply (append_cancel_left hrot).symm

theorem IsPart.split_wrap (h : IsPart pty r rest j1 j2) (hlt : pty.length < j2 + r.length)
    : ∃ a b, r = b ++ a ∧ pty = a ++ rest ++ b ∧ b.length + j2 = pty.length := by
  have hj2 := h.lt
  have hlen := h.length
  have hrot := h.rotate
  rw [rotate_eq_drop_append_take (by omega)] at hrot
  have hblen : (pty.drop j2).length + j2 = pty.length := by
    rw [length_drop]
    omega
  have hr : r = pty.drop j2 ++ (pty.take j2).take (r.length - (pty.drop j2).length) := by
    have htake := congrArg (take r.length) hrot
    rw [take_left] at htake
    rw [take_append] at htake
    rw [take_of_length_le (by omega)] at htake
    exact htake.symm
  refine ⟨(pty.take j2).take (r.length - (pty.drop j2).length), pty.drop j2, hr, ?_, hblen⟩
  have hdrop := congrArg (List.drop r.length) hrot
  rw [drop_left] at hdrop
  rw [drop_append] at hdrop
  rw [drop_eq_nil_of_le (by omega)] at hdrop
  rw [nil_append] at hdrop
  rw [← hdrop]
  rw [take_append_drop]
  rw [take_append_drop]

theorem moveParts_spec {n : Nat} (h : IsPart pty r rest j1 j2) (hr : r ≠ []) (hn : n ≤ rest.length)
    : ∃ j1' a b c d, moveParts pty pty.length r.length n j1 j2 = .ok (j1', a ++ b ++ c ++ d)
      ∧ j1' + 1 = a.length ∧ b.length = n ∧ r = c ++ a := by
  have hlt := h.lt
  have hlen := h.length
  have hpos : 0 < r.length := by
    apply length_pos_of_ne_nil hr
  unfold moveParts
  by_cases hwrap : j2 + r.length ≤ pty.length
  . have hj1 : j1 + 1 = j2 + r.length := by
      rw [h.last]
      rw [show r.length + j2 + (pty.length - 1) = j2 + r.length - 1 + pty.length by omega]
      rw [add_mod_right]
      rw [mod_eq_of_lt (by omega)]
      omega
    rcases h.split hwrap with ⟨p, q, hsplit⟩
    have hmove := moveLetters_spec (a := []) (g := p) (b := r) (c := q)
    rcases hmove with ⟨g', hmove⟩
    rw [nil_append, nil_append, length_nil, Nat.zero_add] at hmove
    rw [← hsplit.1, hsplit.2.1] at hmove
    by_cases hj2 : 0 < j2
    . rw [if_pos hj2]
      rw [if_pos (by omega)]
      rw [show j1 + 1 - j2 = r.length by omega]
      rw [hmove.1, ok_bind]
      refine ⟨r.length - 1, r, (g' ++ q).take n, [], (g' ++ q).drop n, ?_, ?_, ?_, rfl⟩
      . rw [append_assoc r g' q]
        rw [append_nil, append_assoc r (take _ _), take_append_drop]
        rfl
      . omega
      . have hrest := congrArg List.length hsplit.2.2
        rw [length_append] at hrest
        rw [length_take, length_append]
        omega
    . rw [if_neg hj2]
      have hp : p = [] := by
        apply length_eq_zero_iff.mp
        omega
      rw [hp, append_nil] at hsplit
      refine ⟨j1, r, q.take n, [], q.drop n, ?_, ?_, ?_, rfl⟩
      . rw [append_nil, append_assoc r (take _ _), take_append_drop]
        rw [hsplit.1]
        rfl
      . omega
      . rw [length_take]
        rw [← hsplit.2.2]
        omega
  . rcases h.split_wrap (by omega) with ⟨a, b, hsplit⟩
    have hab := congrArg List.length hsplit.1
    rw [length_append] at hab
    have hpty := congrArg List.length hsplit.2.1
    rw [length_append, length_append] at hpty
    have hj1 : j1 + 1 = a.length := by
      rw [h.last]
      rw [show r.length + j2 + (pty.length - 1) = a.length - 1 + pty.length + pty.length by omega]
      rw [add_mod_right]
      rw [add_mod_right]
      rw [mod_eq_of_lt (by omega)]
      omega
    rw [if_pos (by omega)]
    rw [if_neg (by omega)]
    have hmove := moveLetters_spec (a := a ++ rest.take n) (g := rest.drop n) (b := b) (c := [])
    rcases hmove with ⟨g', hmove⟩
    rw [length_append, length_take, length_drop, append_nil] at hmove
    rw [append_assoc a (rest.take n), take_append_drop] at hmove
    rw [← hsplit.2.1] at hmove
    rw [Nat.min_eq_left hn] at hmove
    rw [show pty.length - j2 = b.length by omega]
    rw [show j1 + n + 1 = a.length + n by omega]
    rw [show a.length + n + (rest.length - n) = j2 by omega] at hmove
    rw [hmove.1, ok_bind]
    refine ⟨j1, a, rest.take n, b, g', ?_, hj1, ?_, hsplit.1⟩
    . rw [append_nil]
      rfl
    . rw [length_take]
      omega

theorem modifyRelator_spec {rd : TzReading} {ptx v : List Int} {i1 : Nat}
    (h : IsPart pty r rest j1 j2) (hr : r ≠ []) (hv : ReadsWord (rd.readInv ptx) rd.backward i1 v)
    (hlen : v.length ≤ rest.length)
    : ∃ rel, modifyRelator rd ptx pty pty.length r.length v.length i1 j1 j2 = .ok rel
        ∧ rel ~r r ++ v := by
  rcases moveParts_spec h hr hlen with ⟨j1', a, b, c, d, hmove⟩
  refine ⟨a ++ v ++ c, ?_, ?_⟩
  . unfold modifyRelator
    rw [hmove.1, ok_bind]
    dsimp only
    rw [hmove.2.1]
    rw [append_assoc (a ++ b)]
    rw [writeLetters_spec hv hmove.2.2.1, ok_bind]
    rw [← append_assoc]
    rw [take_append_of_le_length]
    . rw [take_of_length_le]
      . rfl
      . rw [hmove.2.2.2]
        simp
        omega
    . rw [hmove.2.2.2]
      simp
      omega
  . rw [hmove.2.2.2]
    rw [append_assoc c]
    apply isRotated_append

theorem modifyRelator_nil {rd : TzReading} {ptx : List Int} {i1 : Nat}
    (h : IsPart pty [] rest j1 j2)
    : modifyRelator rd ptx pty pty.length 0 0 i1 j1 j2 = .ok [] := by
  have hlt := h.lt
  have hmove : ∃ j1' pty', moveParts pty pty.length 0 0 j1 j2 = .ok (j1', pty') := by
    unfold moveParts
    by_cases hj2 : 0 < j2
    . have hj1 : j1 + 1 = j2 := by
        rw [h.last]
        rw [length_nil]
        rw [show 0 + j2 + (pty.length - 1) = j2 - 1 + pty.length by omega]
        rw [add_mod_right]
        rw [mod_eq_of_lt (by omega)]
        omega
      rw [if_pos hj2]
      rw [if_neg (by omega)]
      have hmove := moveLetters_spec (a := pty.take j2) (g := []) (b := pty.drop j2) (c := [])
      rcases hmove with ⟨g', hmove⟩
      have hmove := hmove.1
      rw [append_nil, append_nil, append_nil, take_append_drop] at hmove
      rw [length_nil, length_take, length_drop] at hmove
      rw [Nat.min_eq_left (by omega)] at hmove
      rw [Nat.add_zero]
      rw [hj1]
      rw [Nat.add_zero] at hmove
      rw [hmove, ok_bind]
      exact ⟨_, _, rfl⟩
    . rw [if_neg hj2]
      exact ⟨_, _, rfl⟩
  rcases hmove with ⟨j1', pty', hmove⟩
  unfold modifyRelator
  rw [hmove, ok_bind]
  rfl

end TietzeStack
