import GapKernel.Fault

/-!
This module contains loops over an interval of numbers, and the rules for them.
-/

theorem exists_bind_of {α β : Type} {x : Result α} {f : α → Result β} {P : α → Prop} {Q : β → Prop}
    (hx : ∃ a, x = .ok a ∧ P a) (hf : ∀ a, P a → ∃ b, f a = .ok b ∧ Q b)
    : ∃ b, (x >>= f) = .ok b ∧ Q b := by
  rcases hx with ⟨a, ha⟩
  rw [ha.1, ok_bind]
  exact hf a ha.2

variable {σ : Type}

def forLoop (body : Nat → σ → Result σ) : Nat → Nat → σ → Result σ
  | 0, _, s => return s
  | n + 1, i, s => do
    let s ← body i s
    forLoop body n (i + 1) s

variable {body : Nat → σ → Result σ} {n i : Nat} {s : σ}

theorem forLoop_spec (I : Nat → σ → Prop)
    (hstep : ∀ j s, i ≤ j → j < i + n → I j s → ∃ s', body j s = .ok s' ∧ I (j + 1) s') (hs : I i s)
    : ∃ s', forLoop body n i s = .ok s' ∧ I (i + n) s' := by
  induction n generalizing i s with
  | zero => exact ⟨s, rfl, hs⟩
  | succ n ih =>
    unfold forLoop
    obtain ⟨s1, hrun, hs1⟩ := hstep i s (Nat.le_refl i) (by omega) hs
    rw [hrun]
    rw [ok_bind]
    have hend : i + (n + 1) = i + 1 + n := by
      omega
    rw [hend]
    apply ih
    . intro j s hle hlt
      apply hstep
      . omega
      . omega
    . exact hs1

variable {Q : σ → Prop}

theorem forLoop_of_inv (I : Nat → σ → Prop) (hs : I i s)
    (hstep : ∀ j s, i ≤ j → j < i + n → I j s → ∃ s', body j s = .ok s' ∧ I (j + 1) s')
    (hQ : ∀ s', I (i + n) s' → Q s') : ∃ s', forLoop body n i s = .ok s' ∧ Q s' := by
  obtain ⟨s', hrun, hs'⟩ := forLoop_spec I hstep hs
  exact ⟨s', hrun, hQ s' hs'⟩

theorem exists_ok_forLoop (I : Nat → σ → Prop) {k : Nat}
    (hstep : ∀ j s, i ≤ j → j < i + k → I j s → ∃ s', body j s = .ok s' ∧ I (j + 1) s') (hs : I i s)
    : ∃ s', forLoop body k i s = .ok s' := by
  cases forLoop_spec I hstep hs with
  | intro s' h => exact ⟨s', h.1⟩

theorem forLoop_ne_ok {j : Nat} (hle : i ≤ j) (hlt : j < i + n) (hfail : ∀ s s', body j s ≠ .ok s')
    (s s' : σ) : forLoop body n i s ≠ .ok s' := by
  induction n generalizing i s with
  | zero => omega
  | succ n ih =>
    unfold forLoop
    intro hrun
    cases hbody : body i s with
    | error e =>
      rw [hbody] at hrun
      cases hrun
    | ok s1 =>
      rw [hbody] at hrun
      rw [ok_bind] at hrun
      by_cases hij : i = j
      . rw [hij] at hbody
        exact hfail s s1 hbody
      . exact ih (by omega) (by omega) s1 hrun

theorem forLoop_inv_of_ok (I : σ → Prop) {s' : σ} (hstep : ∀ j s s', body j s = .ok s' → I s → I s')
    (hrun : forLoop body n i s = .ok s') (hs : I s) : I s' := by
  induction n generalizing i s with
  | zero =>
    cases hrun
    exact hs
  | succ n ih =>
    obtain ⟨s1, hbody, hrun⟩ := of_bind_eq_ok hrun
    exact ih hrun (hstep i s s1 hbody hs)

theorem forLoop_of_prefix {α : Type} (I : List α → σ → Prop) {l : List α} (hs : I [] s)
    (hstep : ∀ u x v s, l = u ++ x :: v → I u s
      → ∃ s', body (u.length + 1) s = .ok s' ∧ I (u ++ [x]) s') (hQ : ∀ s', I l s' → Q s')
    : ∃ s', forLoop body l.length 1 s = .ok s' ∧ Q s' := by
  apply forLoop_of_inv (fun j s => I (l.take (j - 1)) s)
  . exact hs
  . intro j s hle hlt hI
    have hj : j - 1 < l.length := by
      omega
    have hsplit : l = l.take (j - 1) ++ l[j - 1] :: l.drop (j - 1 + 1) := by
      rw [List.getElem_cons_drop hj, List.take_append_drop]
    obtain ⟨s', hrun, hI'⟩ := hstep _ _ _ s hsplit hI
    rw [List.length_take, show min (j - 1) l.length + 1 = j by omega] at hrun
    rw [List.take_append_getElem hj, show j - 1 + 1 = j + 1 - 1 by omega] at hI'
    exact ⟨s', hrun, hI'⟩
  . intro s' hI
    apply hQ
    rw [show 1 + l.length - 1 = l.length by omega, List.take_length] at hI
    exact hI

def stepLoop (body : Nat → σ → Result σ) (d stop : Nat) : Nat → Nat → σ → Result σ
  | 0, _, _ => throw .fuel
  | fuel + 1, i, s => do
    if i < stop then
      let s ← body i s
      stepLoop body d stop fuel (i + d) s
    else
      return s

theorem stepLoop_of_inv (I : Nat → σ → Prop) {d stop fuel : Nat} (hd : 0 < d)
    (hfuel : stop - i < fuel) (hs : I i s)
    (hstep : ∀ j s, i ≤ j → j < stop → I j s → ∃ s', body j s = .ok s' ∧ I (j + d) s')
    (hQ : ∀ j s', stop ≤ j → I j s' → Q s')
    : ∃ s', stepLoop body d stop fuel i s = .ok s' ∧ Q s' := by
  induction fuel generalizing i s with
  | zero => omega
  | succ fuel ih =>
    unfold stepLoop
    split
    next hlt =>
      obtain ⟨s1, hrun, hs1⟩ := hstep i s (Nat.le_refl i) hlt hs
      rw [hrun, ok_bind]
      apply ih
      . omega
      . exact hs1
      . intro j s hle
        apply hstep
        omega
    next hge => exact ⟨s, rfl, hQ i s (by omega) hs⟩

def breakLoop (body : Nat → σ → Result (σ × Bool)) : Nat → Nat → σ → Result σ
  | 0, _, s => return s
  | n + 1, i, s => do
    let (s, stop) ← body i s
    if stop then return s else breakLoop body n (i + 1) s

theorem breakLoop_of_inv {body : Nat → σ → Result (σ × Bool)} (I : Nat → σ → Prop) (hs : I i s)
    (hstep : ∀ j s, i ≤ j → j < i + n → I j s → ∃ s' stop, body j s = .ok (s', stop)
      ∧ (stop = true → Q s') ∧ (stop = false → I (j + 1) s')) (hQ : ∀ s', I (i + n) s' → Q s')
    : ∃ s', breakLoop body n i s = .ok s' ∧ Q s' := by
  induction n generalizing i s with
  | zero => exact ⟨s, rfl, hQ s hs⟩
  | succ n ih =>
    unfold breakLoop
    obtain ⟨s1, stop, hrun, hstop, hgo⟩ := hstep i s (Nat.le_refl i) (by omega) hs
    rw [hrun]
    rw [ok_bind]
    dsimp only
    cases stop with
    | true =>
      rw [if_pos rfl]
      exact ⟨s1, rfl, hstop rfl⟩
    | false =>
      rw [if_neg Bool.false_ne_true]
      apply ih (hgo rfl)
      . intro j s hle hlt
        apply hstep
        . omega
        . omega
      . intro s' hs'
        apply hQ
        rw [show i + (n + 1) = i + 1 + n by omega]
        exact hs'

def SucceedsIf {α : Type} (res : Result (Option α)) (p : Prop) (Q : α → Prop) : Prop :=
  (p → ∃ a, res = .ok (some a) ∧ Q a) ∧ (¬p → res = .ok none)

def failLoop (body : Nat → σ → Result (Option σ)) : Nat → Nat → σ → Result (Option σ)
  | 0, _, s => return some s
  | n + 1, i, s => do
    match ← body i s with
    | none => return none
    | some s => failLoop body n (i + 1) s

theorem failLoop_spec {body : Nat → σ → Result (Option σ)} (p : Nat → Prop) (I : Nat → σ → Prop)
    (hp : ∀ j, p (j + 1) → p j) (hs : p i) (hI : I i s)
    (hstep : ∀ j s, i ≤ j → j < i + n → p j → I j s → SucceedsIf (body j s) (p (j + 1)) (I (j + 1)))
    : SucceedsIf (failLoop body n i s) (p (i + n)) (I (i + n)) := by
  induction n generalizing i s with
  | zero => exact ⟨fun _ => ⟨s, rfl, hI⟩, fun hc => absurd hs hc⟩
  | succ n ih =>
    have hround := hstep i s (Nat.le_refl i) (by omega) hs hI
    rw [show i + (n + 1) = i + 1 + n by omega]
    unfold failLoop
    by_cases hnext : p (i + 1)
    . rcases hround.1 hnext with ⟨s1, h1⟩
      rw [h1.1, ok_bind]
      apply ih hnext h1.2
      intro j s hle hlt
      apply hstep
      . omega
      . omega
    . have hback : ∀ n, ¬p (i + 1 + n) := by
        intro n
        induction n with
        | zero => exact hnext
        | succ n ihn => exact fun hc => ihn (hp _ hc)
      rw [hround.2 hnext, ok_bind]
      exact ⟨fun hc => absurd hc (hback n), fun _ => rfl⟩
