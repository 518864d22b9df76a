import GapKernel.Tietze.Presentation

open List Nat Function

variable {len : Nat}

theorem nextPos_mod (hlen : 0 < len) (i : Nat)
    : nextPos (len - 1) (i % len) = (i + 1) % len := by
  have hlt := mod_lt i hlen
  have hdiv := div_add_mod i len
  unfold nextPos
  split
  . next h =>
    have hmul : i + 1 = len * (i / len + 1) := by
      rw [Nat.mul_add]
      rw [Nat.mul_one]
      omega
    rw [hmul]
    rw [mul_mod_right]
  . next h =>
    have hsucc : (i + 1) % len = (i % len + 1) % len := (mod_add_mod i len 1).symm
    rw [hsucc]
    rw [mod_eq_of_lt (show i % len + 1 < len by omega)]

theorem prevPos_mod (hlen : 0 < len) (i : Nat)
    : prevPos (len - 1) ((i + 1) % len) = i % len := by
  rw [← nextPos_mod hlen]
  unfold nextPos prevPos
  split
  . next h =>
    rw [if_pos rfl]
    rw [h]
  . next h =>
    rw [if_neg (by omega)]
    omega

def ReadsWord (read : Nat → Result Int) (step : Nat → Nat) (i : Nat) (u : List Int) : Prop :=
  ∀ t a, u[t]? = some a → read (step^[t] i) = .ok a

section ReadsWord

variable {readX readY : Nat → Result Int} {stepX stepY : Nat → Nat} {i j : Nat}

variable {u : List Int}

theorem reads_cons {a : Int}
    : ReadsWord readX stepX i (a :: u) ↔ readX i = .ok a ∧ ReadsWord readX stepX (stepX i) u := by
  constructor
  . intro h
    refine ⟨h 0 a rfl, ?_⟩
    intro t b hb
    apply h (t + 1) b hb
  . intro h t b hb
    cases t with
    | zero =>
      rw [getElem?_cons_zero] at hb
      rw [← Option.some.inj hb]
      exact h.1
    | succ t => apply h.2 t b hb

variable {v : List Int}

theorem ReadsWord.drop (h : ReadsWord readX stepX i (u ++ v))
    : ReadsWord readX stepX (stepX^[u.length] i) v := by
  intro t a ha
  rw [← iterate_add_apply]
  apply h
  rw [getElem?_append_right (by omega)]
  rw [Nat.add_sub_cancel]
  exact ha

theorem ReadsWord.take (h : ReadsWord readX stepX i (u ++ v))
    : ReadsWord readX stepX i u := by
  intro t a ha
  apply h
  rw [getElem?_append_left]
  . exact ha
  . apply (List.getElem?_eq_some_iff.mp ha).1

theorem matchLetters_spec {k n : Nat} (hu : ReadsWord readX stepX i u)
    (hv : ReadsWord readY stepY j v) (hku : k ≤ u.length) (hkv : k ≤ v.length)
    : ∃ p u' v', u = p ++ u' ∧ v = p ++ v' ∧ p.length ≤ k
        ∧ (p.length < k → u'.head? ≠ v'.head?)
        ∧ matchLetters readX readY stepX stepY k n i j
            = .ok (n + p.length, stepX^[p.length] i, stepY^[p.length] j) := by
  induction k generalizing n i j u v with
  | zero => exact ⟨[], u, v, rfl, rfl, Nat.le_refl 0, by simp, rfl⟩
  | succ k ih =>
    cases u with
    | nil => simp at hku
    | cons a u =>
      cases v with
      | nil => simp at hkv
      | cons b v =>
        rw [reads_cons] at hu hv
        unfold matchLetters
        rw [hu.1, ok_bind, hv.1, ok_bind]
        by_cases hab : a = b
        . rw [if_neg (by simpa using hab)]
          rcases ih (n := n + 1) hu.2 hv.2 (by simpa using hku) (by simpa using hkv) with
              ⟨p, u', v', hp⟩
          refine ⟨a :: p, u', v', ?_, ?_, ?_, ?_, ?_⟩
          . rw [hp.1]
            rfl
          . rw [hp.2.1, hab]
            rfl
          . rw [length_cons]
            omega
          . intro hlt
            apply hp.2.2.2.1
            rw [length_cons] at hlt
            omega
          . rw [hp.2.2.2.2]
            rw [length_cons]
            rw [show n + (p.length + 1) = n + 1 + p.length by omega]
            rfl
        . rw [if_pos hab]
          refine ⟨[], a :: u, b :: v, rfl, rfl, Nat.zero_le _, ?_, rfl⟩
          intro _ heq
          apply hab
          simpa using heq

end ReadsWord

variable {i : Nat}

theorem nextPos_iterate (hi : i < len) (t : Nat)
    : (nextPos (len - 1))^[t] i = (t + i) % len := by
  induction t with
  | zero =>
    rw [Nat.zero_add]
    rw [mod_eq_of_lt hi]
    rfl
  | succ t ih =>
    rw [iterate_succ_apply']
    rw [ih]
    rw [nextPos_mod (by omega)]
    rw [Nat.add_right_comm]

theorem prevPos_iterate {t : Nat} (hi : i < len) (ht : t < len)
    : (prevPos (len - 1))^[t] (prevPos (len - 1) i) = (len - 1 - t + i) % len := by
  induction t with
  | zero =>
    rw [iterate_zero_apply]
    rw [Nat.sub_zero]
    rw [← prevPos_mod (by omega)]
    rw [show len - 1 + i + 1 = i + len by omega]
    rw [add_mod_right]
    rw [mod_eq_of_lt hi]
  | succ t ih =>
    rw [iterate_succ_apply']
    rw [ih (by omega)]
    rw [show len - 1 - t + i = len - 1 - (t + 1) + i + 1 by omega]
    rw [prevPos_mod (by omega)]

variable {w : List Int}

theorem readY_rotate {t : Nat} {a : Int} (h : (w.rotate i)[t]? = some a)
    : readY w ((t + i) % w.length) = .ok a := by
  have ht := (List.getElem?_eq_some_iff.mp h).1
  rw [length_rotate] at ht
  unfold readY
  apply elmPlist_of_getElem?
  rw [getElem?_rotate ht] at h
  exact h

theorem reads_rotate (hi : i < w.length)
    : ReadsWord (readY w) (nextPos (w.length - 1)) i (w.rotate i) := by
  intro t a ha
  rw [nextPos_iterate hi]
  apply readY_rotate ha

theorem reads_reverse_rotate (hi : i < w.length)
    : ReadsWord (readY w) (prevPos (w.length - 1)) (prevPos (w.length - 1) i)
        (w.rotate i).reverse := by
  intro t a ha
  have ht := (List.getElem?_eq_some_iff.mp ha).1
  rw [length_reverse] at ht
  rw [getElem?_reverse ht] at ha
  rw [length_rotate] at ht ha
  rw [prevPos_iterate hi ht]
  apply readY_rotate ha

section Writes

variable {readX : Nat → Result Int} {stepX : Nat → Nat} {i : Nat}

theorem writeLetters_spec {u a b c : List Int} (hu : ReadsWord readX stepX i u)
    (hlen : b.length = u.length)
    : writeLetters readX stepX (· + 1) u.length i a.length (a ++ b ++ c)
        = .ok (stepX^[u.length] i, a ++ u ++ c) := by
  induction u generalizing i a b with
  | nil =>
    rw [length_eq_zero_iff.mp hlen]
    rfl
  | cons x u ih =>
    cases b with
    | nil => simp at hlen
    | cons y b =>
      rw [reads_cons] at hu
      rw [length_cons]
      unfold writeLetters
      rw [hu.1, ok_bind]
      have hset : setElmPlist (a ++ y :: b ++ c) (a.length + 1) x
          = .ok ((a ++ [x]) ++ b ++ c) := by
        rw [append_assoc, cons_append, setElmPlist_append_cons]
        simp
      rw [hset, ok_bind]
      have hrec := ih (a := a ++ [x]) hu.2 (by simpa using hlen)
      rw [length_append] at hrec
      rw [length_singleton] at hrec
      rw [hrec]
      rw [append_assoc a]
      rfl

variable {j : Nat}

theorem rotate_set {w : List Int} (hj : j < w.length) (a : Int)
    : (w.set j a).rotate j = (w.rotate j).set 0 a := by
  have hle : j ≤ w.length := by
    omega
  rw [rotate_eq_drop_append_take (by simpa using hle)]
  rw [rotate_eq_drop_append_take hle]
  rw [take_set_of_le (Nat.le_refl j)]
  rw [drop_eq_getElem_cons hj]
  rw [drop_set]
  simp [hj]

theorem rotate_nextPos {w : List Int} (hj : j < w.length)
    : w.rotate (nextPos (w.length - 1) j) = (w.rotate j).rotate 1 := by
  rw [rotate_rotate]
  unfold nextPos
  split
  . next h =>
    rw [h]
    rw [Nat.sub_add_cancel (by omega)]
    rw [rotate_length]
    rw [rotate_zero]
  . next h => rfl

theorem nextPos_lt {len : Nat} (h : j < len) : nextPos (len - 1) j < len := by
  unfold nextPos
  split
  . omega
  . omega

theorem writeLetters_cyclic {u b c pty : List Int} (hu : ReadsWord readX stepX i u)
    (hj : j < pty.length) (hrot : pty.rotate j = b ++ c) (hlen : b.length = u.length)
    : ∃ pty', writeLetters readX stepX (nextPos (pty.length - 1)) u.length i j pty
        = .ok (stepX^[u.length] i, pty') ∧ pty'.length = pty.length
        ∧ pty'.rotate j = u ++ c := by
  induction u generalizing i j b c pty with
  | nil =>
    rw [length_eq_zero_iff.mp hlen] at hrot
    exact ⟨pty, rfl, rfl, hrot⟩
  | cons x u ih =>
    cases b with
    | nil => simp at hlen
    | cons y b =>
      rw [reads_cons] at hu
      rw [length_cons]
      unfold writeLetters
      rw [hu.1, ok_bind]
      rw [setElmPlist_eq (by omega) (by omega), ok_bind]
      rw [Nat.add_sub_cancel]
      have hlen' : (pty.set j x).length = pty.length := by
        rw [length_set]
      have hj' : j < (pty.set j x).length := by
        omega
      have hrot' : (pty.set j x).rotate (nextPos (pty.length - 1) j) = b ++ (c ++ [x]) := by
        rw [← hlen']
        rw [rotate_nextPos hj']
        rw [rotate_set hj]
        rw [hrot]
        rw [cons_append, set_cons_zero, rotate_cons_succ, rotate_zero]
        rw [append_assoc]
      have hnext : nextPos (pty.length - 1) j < (pty.set j x).length := by
        rw [hlen']
        apply nextPos_lt hj
      rcases ih hu.2 hnext hrot' (by simpa using hlen) with ⟨pty', hrec⟩
      rw [hlen'] at hrec
      refine ⟨pty', hrec.1, hrec.2.1, ?_⟩
      have hlast := hrec.2.2
      rw [← hrec.2.1] at hlast
      rw [rotate_nextPos (by omega)] at hlast
      rw [← append_assoc] at hlast
      have hcons : ((x :: u ++ c).rotate 1) = u ++ c ++ [x] := by
        rw [cons_append, rotate_cons_succ, rotate_zero]
      rw [← hcons] at hlast
      apply rotate_injective 1 hlast

end Writes

theorem moveLetters_spec {a g b c : List Int}
    : ∃ g', moveLetters b.length a.length (a.length + g.length) (a ++ g ++ b ++ c)
        = .ok (a ++ b ++ g' ++ c) ∧ g'.length = g.length := by
  induction b generalizing a g with
  | nil =>
    refine ⟨g, ?_, rfl⟩
    simp [moveLetters]
    rfl
  | cons x b ih =>
    rw [length_cons]
    unfold moveLetters
    have hget : elmPlist (a ++ g ++ x :: b ++ c) (a.length + g.length + 1) = .ok x := by
      rw [append_assoc (a ++ g), cons_append]
      rw [← length_append]
      apply elmPlist_append_cons
    rw [hget, ok_bind]
    have hset : setElmPlist (a ++ g ++ x :: b ++ c) (a.length + 1) x
        = .ok ((a ++ [x]) ++ (g ++ [x]).tail ++ b ++ c) := by
      cases g with
      | nil =>
        rw [append_nil, append_assoc, cons_append, setElmPlist_append_cons]
        simp
      | cons y g =>
        rw [append_assoc, append_assoc, cons_append, setElmPlist_append_cons]
        simp
    rw [hset, ok_bind]
    rcases ih (a := a ++ [x]) (g := (g ++ [x]).tail) with ⟨g', hg⟩
    have hlen : (g ++ [x]).tail.length = g.length := by
      simp
    rw [hlen] at hg
    refine ⟨g', ?_, hg.2⟩
    rw [length_append, length_singleton] at hg
    rw [show a.length + g.length + 1 = a.length + 1 + g.length by omega]
    rw [hg.1]
    simp

section Position

open CyclicWord

namespace TietzeStack

structure IsReading (tietze : TietzeStack) (r : TzReading) (ptx : List Int) (i : Nat)
    (u : List Int) : Prop where
  forward : ReadsWord (r.readX ptx) r.forward (r.start i) u
  backward : ReadsWord (r.readX ptx) r.backward (r.before i) u.reverse
  inv : ReadsWord (r.readInv ptx) r.backward (r.before i) (invWord tietze.inverse u)

variable {tietze : TietzeStack}

variable {i : Nat}

theorem reads_of_letter (letter : Int → Result Int) {f : Int → Int} {step : Nat → Nat}
    {w u : List Int} (hread : ReadsWord (readY w) step i u)
    (hletter : ∀ gen ∈ u, letter gen = .ok (f gen))
    : ReadsWord (fun j => do letter (← readY w j)) step i (u.map f) := by
  intro t a ha
  rw [getElem?_map] at ha
  rw [Option.map_eq_some_iff] at ha
  rcases ha with ⟨gen, hgen⟩
  dsimp only
  rw [hread t gen hgen.1, ok_bind]
  rw [hletter gen (mem_of_getElem? hgen.1)]
  rw [hgen.2]

variable (hinv : tietze.inverses.length = 2 * tietze.numgens + 1) {ptx : List Int}
  (hletters : ∀ gen ∈ ptx, tietze.IsLetter gen) (hi : i < ptx.length)

include hinv hletters hi

theorem isReading_relator
    : tietze.IsReading (tietze.relatorReading (ptx.length - 1)) ptx i (ptx.rotate i) := by
  have hback := reads_reverse_rotate hi
  constructor
  . have := reads_of_letter (fun gen => return gen) (f := id) (reads_rotate hi)
      (fun gen _ => rfl)
    rw [map_id] at this
    exact this
  . have := reads_of_letter (fun gen => return gen) (f := id) hback (fun gen _ => rfl)
    rw [map_id] at this
    exact this
  . unfold invWord
    rw [← map_reverse]
    apply reads_of_letter _ hback
    intro gen hgen
    apply invGen_eq hinv
    apply hletters
    rw [mem_reverse, mem_rotate] at hgen
    exact hgen

theorem isReading_inverse
    : tietze.IsReading (tietze.inverseReading (ptx.length - 1)) ptx i
        ((invWord tietze.inverse ptx).rotate i) := by
  have hrot : (invWord tietze.inverse ptx).rotate i
      = invWord tietze.inverse (ptx.rotate ((ptx.length - i) % ptx.length)) := by
    unfold invWord
    rw [rotate_reverse]
    rw [length_map]
    rw [mod_eq_of_lt hi]
    rw [← map_rotate]
    rw [rotate_mod]
  have hk : (ptx.length - i) % ptx.length < ptx.length := by
    apply mod_lt
    omega
  have hbefore : (tietze.inverseReading (ptx.length - 1)).before i
      = (ptx.length - i) % ptx.length := by
    dsimp only [inverseReading]
    split
    . next h =>
      rw [h]
      rw [Nat.sub_zero]
      rw [mod_self]
    . next h =>
      rw [mod_eq_of_lt (by omega)]
      omega
  have hstart : (tietze.inverseReading (ptx.length - 1)).start i
      = prevPos (ptx.length - 1) ((ptx.length - i) % ptx.length) := by
    rw [← hbefore]
    dsimp only [inverseReading]
    unfold prevPos
    by_cases h : i = 0
    . rw [if_pos h]
      rw [if_pos rfl]
      omega
    . rw [if_neg h]
      rw [if_neg (by omega)]
      omega
  have hmem : ∀ gen ∈ ptx.rotate ((ptx.length - i) % ptx.length), tietze.IsLetter gen := by
    intro gen hgen
    rw [mem_rotate] at hgen
    exact hletters gen hgen
  rw [hrot]
  constructor
  . rw [hstart]
    unfold invWord
    rw [← map_reverse]
    apply reads_of_letter _ (reads_reverse_rotate hk)
    intro gen hgen
    rw [mem_reverse] at hgen
    apply invGen_eq hinv (hmem gen hgen)
  . rw [hbefore]
    unfold invWord
    rw [reverse_reverse]
    apply reads_of_letter _ (reads_rotate hk)
    intro gen hgen
    apply invGen_eq hinv (hmem gen hgen)
  . rw [hbefore]
    rw [invWord_invWord leftInvOn_inverse hmem]
    have := reads_of_letter (fun gen => return gen) (f := id) (reads_rotate hk)
      (fun gen _ => rfl)
    rw [map_id] at this
    exact this

end TietzeStack

end Position
