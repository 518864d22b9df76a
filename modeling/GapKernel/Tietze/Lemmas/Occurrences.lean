import GapKernel.Tietze.Lemmas.Modify

open CyclicWord List

def rank (a : Int) : List Int → Nat
  | [] => 0
  | c :: w => (if c = a then 2 ^ w.length else 0) + rank a w

theorem rank_lt (a : Int) (w : List Int) : rank a w < 2 ^ w.length := by
  induction w with
  | nil => simp [rank]
  | cons c w ih =>
    unfold rank
    rw [length_cons, Nat.pow_succ]
    split
    . omega
    . omega

theorem rank_append_lt (a : Int) (u : List Int) {v w : List Int} (h : rank a v < rank a w)
    (hlen : v.length = w.length) : rank a (u ++ v) < rank a (u ++ w) := by
  induction u with
  | nil => exact h
  | cons c u ih =>
    rw [cons_append, cons_append]
    unfold rank
    rw [length_append, length_append, hlen]
    omega

theorem rank_replace_lt {a b : Int} (hab : a ≠ b) (e : List Int) {u v : List Int}
    (hlen : v.length = u.length) (c : List Int)
    : rank a (e ++ b :: v ++ c) < rank a (e ++ a :: u ++ c) := by
  rw [append_assoc, append_assoc]
  apply rank_append_lt
  . rw [cons_append, cons_append]
    unfold rank
    rw [if_neg (Ne.symm hab), if_pos rfl]
    have hlt := rank_lt a (v ++ c)
    rw [length_append] at hlt ⊢
    rw [hlen] at hlt
    omega
  . simp [hlen]

theorem exists_difference {u v : List Int} (hlen : u.length = v.length) (hne : u ≠ v)
    : ∃ e a b u' v', u = e ++ a :: u' ∧ v = e ++ b :: v' ∧ a ≠ b ∧ v'.length = u'.length := by
  induction u generalizing v with
  | nil =>
    rw [length_nil] at hlen
    exact absurd (length_eq_zero_iff.mp hlen.symm).symm hne
  | cons a u ih =>
    cases v with
    | nil => simp at hlen
    | cons b v =>
      by_cases hab : a = b
      . rw [hab] at hne
        have hne' : u ≠ v := by
          intro h
          rw [h] at hne
          exact hne rfl
        rcases ih (by simpa using hlen) hne' with ⟨e, a', b', u', v', h⟩
        refine ⟨b :: e, a', b', u', v', ?_, ?_, h.2.2⟩
        . rw [hab, h.1]
          rfl
        . rw [h.2.1]
          rfl
      . exact ⟨[], a, b, u, v, rfl, rfl, hab, by simpa using hlen.symm⟩

namespace TietzeStack

variable {tietze : TietzeStack}

theorem half_ne_invWord {u v : List Int} (hletters : ∀ gen ∈ u ++ v, tietze.IsLetter gen)
    (hred : IsCyclicallyReduced tietze.inverse (u ++ v)) (hv : v ≠ [])
    : u ≠ invWord tietze.inverse v := by
  intro hu
  cases v with
  | nil => exact hv rfl
  | cons a v =>
    have hends := (isReduced_append.mp hred.reduced).2.2
    apply hends (tietze.inverse a) _ a rfl
    . rw [inverse_inverse]
      apply hletters
      simp
    . rw [hu]
      rw [getLast?_invWord]
      rfl

theorem readY_ends {w u v : List Int} {i : Nat} (hrot : w.rotate i = u ++ v) {a b : Int}
    (ha : v.getLast? = some a) (hb : v.head? = some b)
    : readY w ((i + (w.length - 1)) % w.length) = .ok a
      ∧ readY w ((i + u.length) % w.length) = .ok b := by
  have hv : v ≠ [] := by
    intro h
    rw [h] at ha
    cases ha
  have hlen := congrArg length hrot
  rw [length_rotate, length_append] at hlen
  constructor
  . rw [Nat.add_comm]
    apply readY_rotate
    rw [hrot]
    rw [← getLast?_append_of_ne_nil u hv] at ha
    rw [getLast?_eq_getElem?] at ha
    rw [length_append, ← hlen] at ha
    exact ha
  . rw [Nat.add_comm]
    apply readY_rotate
    rw [hrot]
    rw [getElem?_append_right (Nat.le_refl _)]
    rw [Nat.sub_self]
    rw [← head?_eq_getElem?]
    exact hb

theorem before_eq {i len : Nat} (hi : i < len)
    : (tietze.relatorReading (len - 1)).before i = (i + (len - 1)) % len := by
  have hprev := prevPos_iterate hi (show 0 < len by omega)
  rw [Function.iterate_zero_apply, Nat.sub_zero, Nat.add_comm] at hprev
  exact hprev

abbrev Replaced (tietze : TietzeStack) (x y z : List Int) : Prop :=
  z.length = y.length ∧ Relation.ReflTransGen (tietze.Exchanges x) y z

theorem replaceOccurrences_spec (hinv : tietze.inverses.length = 2 * tietze.numgens + 1)
    {x u v : List Int} (hx : tietze.IsGiven x x) {i : Nat} (hi : i < x.length)
    (hrot : x.rotate i = u ++ v) (huv : u.length = v.length) (hu : u ≠ [])
    {e u' v' : List Int} {a b : Int} (hue : u = e ++ a :: u')
    (hve : invWord tietze.inverse v = e ++ b :: v') (hab : a ≠ b) (hlen' : v'.length = u'.length)
    (rounds : Nat) {y : List Int} {jj : Nat} (hletters : ∀ gen ∈ y, tietze.IsLetter gen)
    (hred : IsCyclicallyReduced tietze.inverse y) (hlen : x.length ≤ y.length)
    (hrounds : rank a y * (y.length - u.length + 2) + (y.length - u.length + 2 - jj) ≤ rounds)
    (hjj : jj ≤ y.length - u.length + 1)
    : ∃ z, replaceOccurrences tietze x x.length y.length u.length i rounds jj y = .ok z
        ∧ tietze.Replaced x y z := by
  have hxlen := congrArg length hrot
  rw [length_rotate, length_append] at hxlen
  have hupos := length_pos_of_ne_nil hu
  have hv : v ≠ [] := by
    apply ne_nil_of_length_pos
    omega
  have hreading := isReading_relator hinv hx.letters hi
  rw [hrot] at hreading
  have hforward : ReadsWord ((tietze.relatorReading (x.length - 1)).readX x)
      (tietze.relatorReading (x.length - 1)).forward i (u ++ v) := hreading.forward
  have hinvreads := hreading.inv
  rw [before_eq hi, invWord_append] at hinvreads
  induction rounds generalizing y jj with
  | zero => omega
  | succ rounds ih =>
    unfold replaceOccurrences
    by_cases hend : y.length - u.length < jj
    . rw [if_pos hend]
      exact ⟨y, rfl, rfl, Relation.ReflTransGen.refl⟩
    . rw [if_neg hend]
      have hjlt : jj < y.length := by
        omega
      have hnext : ∃ z, replaceOccurrences tietze x x.length y.length u.length i rounds (jj + 1) y
          = .ok z ∧ tietze.Replaced x y z := by
        apply ih hletters hred hlen
        . omega
        . omega
      rcases matchLetters_spec (k := u.length) (n := 0) hforward.take (reads_rotate hjlt)
          (Nat.le_refl _) (by rw [length_rotate]; omega) with ⟨p, u0, v0, hmatch⟩
      dsimp only
      rw [hmatch.2.2.2.2, ok_bind]
      dsimp only
      rw [Nat.zero_add]
      by_cases hlt : p.length < u.length
      . rw [if_pos hlt]
        exact hnext
      . rw [if_neg hlt]
        have hulen := congrArg length hmatch.1
        rw [length_append] at hulen
        have hu0 : u0 = [] := by
          apply length_eq_zero_iff.mp
          omega
        have hup : u = p := by
          rw [hmatch.1, hu0, append_nil]
        have hyrot : y.rotate jj = u ++ v0 := by
          rw [hup]
          exact hmatch.2.1
        have hpart : IsPart y u v0 ((u.length + jj + (y.length - 1)) % y.length) jj :=
          ⟨hjlt, hyrot, rfl⟩
        have hylen := hpart.length
        have hv0 : v0 ≠ [] := by
          apply ne_nil_of_length_pos
          omega
        have hx1 := readY_ends hrot (getLast?_eq_some_getLast hv)
          (head?_eq_some_head hv)
        have hy1 := readY_ends hyrot (getLast?_eq_some_getLast hv0)
          (head?_eq_some_head hv0)
        rw [before_eq hi]
        rw [hx1.1, ok_bind, hy1.1, ok_bind, hx1.2, ok_bind, hy1.2, ok_bind]
        by_cases hskip : v.getLast hv = v0.getLast hv0 ∨ v.head hv = v0.head hv0
        . rw [if_pos hskip]
          exact hnext
        . rw [if_neg hskip]
          rw [not_or] at hskip
          have huv' : u.length = (invWord tietze.inverse v).length := by
            rw [length_invWord]
            exact huv
          rcases writeLetters_cyclic hinvreads.take hjlt hyrot huv' with ⟨z, hwrite⟩
          rw [← huv'] at hwrite
          rw [hwrite.1, ok_bind]
          have hhead : v.head? ≠ v0.head? := by
            rw [head?_eq_some_head hv, head?_eq_some_head hv0]
            simpa using hskip.2
          have hlast : v.getLast? ≠ v0.getLast? := by
            rw [getLast?_eq_some_getLast hv, getLast?_eq_some_getLast hv0]
            simpa using hskip.1
          have hex : tietze.Exchanges x y z := by
            apply hx.exchanges ⟨i, hrot⟩ ⟨jj, hyrot⟩ ⟨jj, hwrite.2.2⟩ hletters hred hv hv0 hhead
              hlast
            omega
          have hrank : rank a z < rank a y := by
            rcases hpart.split (by omega) with ⟨c1, c2, hsplit⟩
            have hz : z = c1 ++ invWord tietze.inverse v ++ c2 := by
              apply rotate_injective jj
              dsimp only
              rw [hwrite.2.2]
              rw [append_assoc c1]
              rw [← hsplit.2.1]
              rw [rotate_append_length_eq]
              rw [hsplit.2.2]
              rw [append_assoc]
            rw [hz, hsplit.1, hve, hue]
            rw [← append_assoc, ← append_assoc]
            apply rank_replace_lt hab (c1 ++ e) hlen'
          have hmul := Nat.mul_le_mul_right (y.length - u.length + 2) (Nat.succ_le_of_lt hrank)
          rw [Nat.succ_mul] at hmul
          have hrec : ∃ z', replaceOccurrences tietze x x.length z.length u.length i rounds 0 z
              = .ok z' ∧ tietze.Replaced x z z' := by
            apply ih hex.letters hex.reduced
            . rw [hwrite.2.1]
              exact hlen
            . rw [hwrite.2.1]
              omega
            . omega
          rw [hwrite.2.1] at hrec
          rcases hrec with ⟨z', hrec⟩
          refine ⟨z', hrec.1, ?_, ?_⟩
          . rw [hrec.2.1, hwrite.2.1]
          . apply Relation.ReflTransGen.head hex hrec.2.2

end TietzeStack
