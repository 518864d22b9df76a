import GapKernel.Tietze.Lemmas.Occurrences

open CyclicWord List Nat

namespace TietzeStack

variable {tietze : TietzeStack}

def IsMatch (tietze : TietzeStack) (x y : List Int) : TzMatch → Prop
  | .none => True
  | .replaced z => z.length = y.length ∧ Relation.TransGen (tietze.Exchanges x) y z
  | .shortened z => tietze.Exchanges x y z ∧ z.length < y.length

structure IsWholeMatch (w y p v s r : List Int) (i j : Nat) : Prop where
  given : w.rotate i = p ++ v ++ s
  current : y.rotate j = p ++ r ++ s
  head : v ≠ [] → v.head? ≠ r.head?
  last : v ≠ [] → v.getLast? ≠ r.getLast?

variable {w y p v s r : List Int} {i j : Nat}

section

variable (h : IsWholeMatch w y p v s r i j)

include h

theorem IsWholeMatch.length
    : w.length = p.length + v.length + s.length ∧ y.length = p.length + r.length + s.length := by
  have hw := congrArg List.length h.given
  have hy := congrArg List.length h.current
  rw [length_rotate, length_append, length_append] at hw hy
  exact ⟨hw, hy⟩

theorem IsWholeMatch.given_rotated : w ~r (s ++ p) ++ v := by
  apply List.IsRotated.trans ⟨i, h.given⟩
  rw [append_assoc s]
  apply isRotated_append

theorem IsWholeMatch.current_rotated : y ~r (s ++ p) ++ r := by
  apply List.IsRotated.trans ⟨j, h.current⟩
  rw [append_assoc s]
  apply isRotated_append

theorem IsWholeMatch.isPart (hj : j < y.length) (hp : p ≠ [])
    : IsPart y r (s ++ p) ((prevPos (y.length - 1))^[s.length] (prevPos (y.length - 1) j))
        ((nextPos (y.length - 1))^[p.length] j) := by
  have hppos := length_pos_of_ne_nil hp
  have hlen := h.length.2
  rw [nextPos_iterate hj]
  rw [prevPos_iterate hj (by omega)]
  refine ⟨mod_lt _ (by omega), ?_, ?_⟩
  . rw [rotate_mod]
    rw [Nat.add_comm]
    rw [← rotate_rotate]
    rw [h.current]
    rw [append_assoc]
    rw [rotate_append_length_eq]
    rw [append_assoc]
  . rw [Nat.add_right_comm]
    rw [add_mod_mod]
    rw [show r.length + (y.length - 1) + (p.length + j)
      = y.length - 1 - s.length + j + y.length by omega]
    rw [add_mod_right]

end

theorem isWholeMatch_of_matches {u q u' v' : List Int} (hwrot : w.rotate i = p ++ u)
    (hyrot : y.rotate j = p ++ v) (hlen : w.length ≤ y.length)
    (hhead : p.length < w.length → u.head? ≠ v.head?) (hu : u.reverse = q ++ u')
    (hv : v.reverse = q ++ v') (hlast : q.length < w.length - p.length → u'.head? ≠ v'.head?)
    : IsWholeMatch w y p u'.reverse q.reverse v'.reverse i j := by
  have hu' : u = u'.reverse ++ q.reverse := by
    rw [← reverse_append]
    rw [← hu]
    rw [reverse_reverse]
  have hv' : v = v'.reverse ++ q.reverse := by
    rw [← reverse_append]
    rw [← hv]
    rw [reverse_reverse]
  have hwlen := congrArg List.length hwrot
  have hylen := congrArg List.length hyrot
  rw [hu'] at hwlen
  rw [hv'] at hylen
  simp only [length_rotate, length_append, length_reverse] at hwlen hylen
  have hpos : u'.reverse ≠ [] → 0 < u'.length := by
    intro hne
    have hlt := length_pos_of_ne_nil hne
    rw [length_reverse] at hlt
    exact hlt
  constructor
  . rw [hwrot, hu', append_assoc]
  . rw [hyrot, hv', append_assoc]
  . intro hne
    have hu'pos := hpos hne
    have hvne : v'.reverse ≠ [] := by
      apply ne_nil_of_length_pos
      rw [length_reverse]
      omega
    have h := hhead (by omega)
    rw [hu', hv'] at h
    rw [head?_append_of_ne_nil _ hne, head?_append_of_ne_nil _ hvne] at h
    exact h
  . intro hne
    have hu'pos := hpos hne
    rw [getLast?_reverse, getLast?_reverse]
    apply hlast
    omega

variable {w : IntSize} {a : TzSearch w}

variable {rd : TzReading} {x word : List Int}

theorem replace_spec (hgiven : tietze.IsGiven x word)
    (hread : tietze.IsReading rd x i (word.rotate i)) (hletters : ∀ gen ∈ y, tietze.IsLetter gen)
    (hred : IsCyclicallyReduced tietze.inverse y) (hj : j < y.length)
    (hwhole : IsWholeMatch word y p v [] r i j) (hp : p ≠ []) (hpv : p.length = v.length)
    (hr : r ≠ [])
    : ∃ i1' z, writeLetters (rd.readInv x) rd.backward (nextPos (y.length - 1)) p.length
        (rd.before i) j y = .ok (i1', z) ∧ z.length = y.length ∧ tietze.Exchanges x y z := by
  have hgivenrot := hwhole.given
  have hcurrent := hwhole.current
  rw [append_nil] at hgivenrot hcurrent
  have hv : v ≠ [] := by
    apply ne_nil_of_length_pos
    rw [← hpv]
    apply length_pos_of_ne_nil hp
  have hinvreads := hread.inv
  rw [hgivenrot, invWord_append] at hinvreads
  have hpv' : p.length = (invWord tietze.inverse v).length := by
    rw [length_invWord]
    exact hpv
  rcases writeLetters_cyclic hinvreads.take hj hcurrent hpv' with ⟨z, hwrite⟩
  rw [← hpv'] at hwrite
  refine ⟨_, z, hwrite.1, hwrite.2.1, ?_⟩
  apply hgiven.exchanges ⟨i, hgivenrot⟩ ⟨j, hcurrent⟩ ⟨j, hwrite.2.2⟩ hletters hred hv hr
    (hwhole.head hv) (hwhole.last hv)
  omega

theorem replaceAll_spec (hinv : tietze.inverses.length = 2 * tietze.numgens + 1)
    (hgiven : tietze.IsGiven x x) (hi : i < x.length) (hrot : x.rotate i = p ++ v) (hp : p ≠ [])
    (hpv : p.length = v.length) (hletters : ∀ gen ∈ y, tietze.IsLetter gen)
    (hred : IsCyclicallyReduced tietze.inverse y) (hlen : x.length ≤ y.length)
    : ∃ z, replaceOccurrences tietze x x.length y.length p.length i
        (2 ^ y.length * (y.length + 2)) 0 y = .ok z ∧ tietze.Replaced x y z := by
  have hv : v ≠ [] := by
    apply ne_nil_of_length_pos
    rw [← hpv]
    apply length_pos_of_ne_nil hp
  have hmem : ∀ gen ∈ p ++ v, tietze.IsLetter gen := by
    intro gen hgen
    rw [← hrot, mem_rotate] at hgen
    exact hgiven.letters gen hgen
  have hredpv := hgiven.reduced.of_isRotated ⟨i, hrot⟩
  have hne := half_ne_invWord hmem hredpv hv
  rcases exists_difference (by rw [length_invWord]; exact hpv) hne with ⟨e, a, b, u', v', h⟩
  have hrank := rank_lt a y
  have hmul := Nat.mul_le_mul_right (y.length - p.length + 2) (succ_le_of_lt hrank)
  have hmul' := Nat.mul_le_mul_left (2 ^ y.length)
    (show y.length - p.length + 2 ≤ y.length + 2 by omega)
  rw [succ_mul] at hmul
  apply replaceOccurrences_spec hinv hgiven hi hrot hpv hp h.1 h.2.1 h.2.2.1 h.2.2.2 _
    hletters hred hlen
  . omega
  . omega

theorem modifyRelator_rest (rd : TzReading) (x : List Int) (i1 : Nat) {rest : List Int}
    {j1 j2 : Nat} (h : IsPart y r rest j1 j2)
    : ∃ z, modifyRelator rd x y y.length r.length 0 i1 j1 j2 = .ok z ∧ z ~r r := by
  by_cases hr : r = []
  . rw [hr] at h ⊢
    exact ⟨[], modifyRelator_nil h, List.IsRotated.refl _⟩
  . have hreads : ReadsWord (rd.readInv x) rd.backward i1 [] := by
      intro t a ha
      cases ha
    rcases modifyRelator_spec h hr hreads (Nat.zero_le _) with ⟨z, hz⟩
    rw [append_nil] at hz
    exact ⟨z, hz⟩

theorem shorten_spec (hinv : tietze.inverses.length = 2 * tietze.numgens + 1)
    (hgiven : tietze.IsGiven x word) (hread : tietze.IsReading rd x i (word.rotate i))
    (hletters : ∀ gen ∈ y, tietze.IsLetter gen) (hred : IsCyclicallyReduced tietze.inverse y)
    (hj : j < y.length) (hwhole : IsWholeMatch word y p v s r i j) (hp : p ≠ [])
    (hlt : v.length < p.length + s.length) (hr : v ≠ [] → r ≠ [])
    : ∃ m j1 j2 z, findFactors tietze y (y.length - 1) r.length v.length
          ((prevPos (y.length - 1))^[s.length] (prevPos (y.length - 1) j))
          ((nextPos (y.length - 1))^[p.length] j) = .ok (m, j1, j2)
        ∧ modifyRelator rd x y y.length m v.length (rd.backward^[s.length] (rd.before i)) j1 j2
          = .ok z
        ∧ tietze.Exchanges x y z ∧ z.length < y.length := by
  have hpart := hwhole.isPart hj hp
  have hlen := hwhole.length
  have hinvreads := hread.inv
  rw [hwhole.given, invWord_append] at hinvreads
  have hafter := hinvreads.drop
  rw [length_invWord, invWord_append] at hafter
  have hvreads := hafter.take
  unfold findFactors
  by_cases hv : v = []
  . rw [if_pos (length_eq_zero_iff.mpr hv)]
    rcases cancelLetters_spec hinv hletters r.length rfl hpart with
        ⟨c, r', rest', j1', j2', hcancel⟩
    rcases modifyRelator_rest rd x (rd.backward^[s.length] (rd.before i))
        hcancel.2.1 with ⟨z, hz⟩
    have hgivenrot := hwhole.given_rotated
    rw [hv, append_nil] at hgivenrot
    refine ⟨_, _, _, z, hcancel.2.2.2, ?_, ?_, ?_⟩
    . rw [hv]
      exact hz.1
    . apply hgiven.exchanges_cancel hgivenrot hwhole.current_rotated hcancel.1 hz.2
        hcancel.2.2.1 hletters hred
    . have hzlen := hz.2.perm.length_eq
      have hrlen := congrArg List.length hcancel.1
      rw [length_append, length_append] at hrlen
      have hppos := length_pos_of_ne_nil hp
      omega
  . rw [if_neg (by rw [length_eq_zero_iff]; exact hv)]
    have hvlen : v.length = (invWord tietze.inverse v).length := by
      rw [length_invWord]
    rcases modifyRelator_spec hpart (hr hv) hvreads
        (by rw [length_invWord, length_append]; omega) with ⟨z, hz⟩
    rw [← hvlen] at hz
    refine ⟨_, _, _, z, rfl, hz.1, ?_, ?_⟩
    . apply hgiven.exchanges hwhole.given_rotated hwhole.current_rotated
        (hz.2.trans isRotated_append) hletters hred hv (hr hv) (hwhole.head hv)
        (hwhole.last hv)
      rw [length_append]
      omega
    . have hzlen := hz.2.perm.length_eq
      rw [length_append, ← hvlen] at hzlen
      omega

theorem take_ne_of_head {p u v : List Int} {m : Nat} (hlt : p.length < m)
    (hhead : u.head? ≠ v.head?) : (p ++ u).take m ≠ (p ++ v).take m := by
  intro heq
  apply hhead
  have hget := congrArg (fun l => l[p.length]?) heq
  rw [getElem?_take_of_lt hlt, getElem?_take_of_lt hlt] at hget
  rw [getElem?_append_right (Nat.le_refl _), getElem?_append_right (Nat.le_refl _)] at hget
  rw [Nat.sub_self, ← head?_eq_getElem?, ← head?_eq_getElem?] at hget
  exact hget

theorem tryPosition_spec (hinv : a.tietze.inverses.length = 2 * a.tietze.numgens + 1)
    {inverse : Bool} (hgiven : a.tietze.IsGiven x word)
    (hread : a.tietze.IsReading rd x i (word.rotate i)) (hinverse : inverse = false → word = x)
    (hletters : ∀ gen ∈ y, a.tietze.IsLetter gen) (hred : IsCyclicallyReduced a.tietze.inverse y)
    (hlen : x.length ≤ y.length) (hi : i < x.length) (hj : j < y.length)
    (hhalf : x.length ≤ 2 * a.mlen)
    : ∃ result, a.tryPosition rd inverse x y x.length y.length j i = .ok result
        ∧ a.tietze.IsMatch x y result
        ∧ (result = .none → a.mlen ≤ x.length
          → (word.rotate i).take a.mlen ≠ (y.rotate j).take a.mlen) := by
  have hwlen : word.length = x.length := by
    cases hgiven.word with
    | inl heq => rw [heq]
    | inr heq =>
      rw [heq]
      apply length_invWord
  unfold TzSearch.tryPosition
  rcases matchLetters_spec (k := x.length) (n := 0) hread.forward (reads_rotate hj)
      (by rw [length_rotate]; omega) (by rw [length_rotate]; omega) with ⟨p, u, v, hmatch⟩
  dsimp only
  rw [hmatch.2.2.2.2, ok_bind]
  dsimp only
  rw [Nat.zero_add]
  by_cases hlt : p.length < a.mlen
  . rw [if_pos hlt]
    refine ⟨.none, rfl, trivial, ?_⟩
    intro _ hle
    rw [hmatch.1, hmatch.2.1]
    apply take_ne_of_head hlt
    apply hmatch.2.2.2.1
    omega
  . rw [if_neg hlt]
    have hwlen' := congrArg List.length hmatch.1
    have hylen' := congrArg List.length hmatch.2.1
    rw [length_rotate, length_append] at hwlen' hylen'
    have hbackw := hread.backward
    have hbacky := reads_reverse_rotate hj
    rw [hmatch.1, reverse_append] at hbackw
    rw [hmatch.2.1, reverse_append] at hbacky
    cases matchLetters_spec (k := x.length - p.length) (n := p.length) hbackw.take hbacky.take
        (by rw [length_reverse]; omega) (by rw [length_reverse]; omega) with
    | intro q hback =>
      rcases hback with ⟨u', v', hback⟩
      rw [hback.2.2.2.2, ok_bind]
      dsimp only
      have hwhole : IsWholeMatch word y p u'.reverse q.reverse v'.reverse i j := by
        apply isWholeMatch_of_matches hmatch.1 hmatch.2.1 (by omega) _ hback.1 hback.2.1
        . rw [hwlen]
          exact hback.2.2.2.1
        . rw [hwlen]
          exact hmatch.2.2.2.1
      have hparts := hwhole.length
      simp only [length_reverse] at hparts
      have hp : p ≠ [] := by
        apply ne_nil_of_length_pos
        omega
      by_cases heq : p.length + q.length = x.length - (p.length + q.length)
      . rw [if_pos heq]
        have hq : q = [] := by
          apply length_eq_zero_iff.mp
          omega
        rw [hq] at hwhole heq hparts
        rw [hq]
        rw [length_nil] at heq hparts
        have hpv : p.length = u'.reverse.length := by
          rw [length_reverse]
          omega
        have hr : v'.reverse ≠ [] := by
          have hppos := length_pos_of_ne_nil hp
          apply ne_nil_of_length_pos
          rw [length_reverse]
          omega
        rcases replace_spec hgiven hread hletters hred hj hwhole hp hpv hr with
            ⟨i1', z, hz⟩
        rw [length_nil, Nat.add_zero, Function.iterate_zero_apply]
        rw [hz.1, ok_bind]
        dsimp only
        cases inverse with
        | true =>
          rw [if_pos rfl]
          exact ⟨.replaced z, rfl, ⟨hz.2.1, Relation.TransGen.single hz.2.2⟩, nofun⟩
        | false =>
          rw [if_neg Bool.false_ne_true]
          have hword := hinverse rfl
          rw [hword] at hgiven
          have hrot := hwhole.given
          rw [hword, reverse_nil, append_nil] at hrot
          rcases replaceAll_spec hinv hgiven hi hrot hp hpv hz.2.2.letters
              hz.2.2.reduced (by rw [hz.2.1]; exact hlen) with ⟨z', hz'⟩
          rw [hz.2.1] at hz'
          rw [hz'.1, ok_bind]
          refine ⟨.replaced z', rfl, ⟨?_, ?_⟩, nofun⟩
          . rw [hz'.2.1, hz.2.1]
          . apply Relation.TransGen.head' hz.2.2 hz'.2.2
      . rw [if_neg heq]
        have hr : u'.reverse ≠ [] → v'.reverse ≠ [] := by
          intro hne
          have hpos := length_pos_of_ne_nil hne
          rw [length_reverse] at hpos
          apply ne_nil_of_length_pos
          rw [length_reverse]
          omega
        rcases shorten_spec hinv hgiven hread hletters hred hj hwhole hp
            (by rw [length_reverse, length_reverse]; omega) hr with
            ⟨m, j1, j2, z, hz⟩
        simp only [length_reverse] at hz
        rw [show y.length - (p.length + q.length) = v'.length by omega]
        rw [show x.length - (p.length + q.length) = u'.length by omega]
        rw [hz.1, ok_bind]
        dsimp only
        rw [hz.2.1, ok_bind]
        exact ⟨.shortened z, rfl, ⟨hz.2.2.1, hz.2.2.2⟩, nofun⟩

end TietzeStack
