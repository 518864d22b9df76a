import GapKernel.Permutat.Impl.Power
import GapKernel.Permutat.Lemmas.Product

open PermList PermImpl Function Equiv.Perm

variable {pt : List Nat} {σ : Equiv.Perm Nat} {p : Nat}

theorem repeatMap_eq (hacts : Acts pt σ) (hp : p < pt.length) (exp : Nat)
    : repeatMap pt exp p = .ok (σ^[exp] p) := by
  induction exp generalizing p with
  | zero => rfl
  | succ exp ih =>
    unfold repeatMap
    rw [readEntry_eq hacts hp, ok_bind]
    rw [ih (hacts.lt hp)]
    rfl

section

variable {S : Type} {body : Nat → S → Result S} (hacts : Acts pt σ) (hp : p < pt.length)
  (I : Nat → S → Prop)
  (hstep : ∀ j s, 0 < j → j < minimalPeriod σ p → I j s → ∃ s', body (σ^[j] p) s = .ok s' ∧ I (j + 1) s')

include hacts hp I hstep

theorem cycleLoop_from {fuel j : Nat} (hpos : 0 < j) (hle : j ≤ minimalPeriod σ p)
    (hfuel : minimalPeriod σ p < j + fuel) {s : S} (hs : I j s)
    : ∃ s', cycleLoop pt p body fuel (σ^[j] p) s = .ok s' ∧ I (minimalPeriod σ p) s' := by
  induction fuel generalizing j s with
  | zero => omega
  | succ fuel ih =>
    unfold cycleLoop
    by_cases hj : j = minimalPeriod σ p
    . rw [if_pos (by rw [hj, iterate_minimalPeriod])]
      rw [hj] at hs
      exact ⟨s, rfl, hs⟩
    . rw [if_neg (iterate_ne (by omega) hpos)]
      rcases hstep j s hpos (by omega) hs with ⟨s', hs'⟩
      rw [hs'.1, ok_bind]
      rw [readEntry_eq hacts (iterate_lt (fun _ hi => hacts.fix hi) hp j), ok_bind]
      rw [← iterate_succ_apply' σ j p]
      apply ih (by omega) (by omega) (by omega) hs'.2

theorem cycleLoop_spec {s : S} (hs : I 1 s)
    : ∃ s', cycleLoop pt p body pt.length (σ p) s = .ok s' ∧ I (minimalPeriod σ p) s' := by
  have hfix : ∀ i, pt.length ≤ i → σ i = i := fun i hi => hacts.fix hi
  have hpos := minimalPeriod_pos hfix p
  have hle := minimalPeriod_le hfix hp
  apply cycleLoop_from hacts hp I hstep (j := 1) (by omega) (by omega) (by omega) hs

end

def IsMet (σ : Equiv.Perm Nat) (p x : Nat) : Prop :=
  ∃ p', p' < p ∧ SameCycle σ p' x

variable {x : Nat}

theorem isMet_of_sameCycle {y : Nat} (h : SameCycle σ x y) : IsMet σ p x ↔ IsMet σ p y := by
  constructor
  . intro hx
    cases hx with
    | intro p' hp' => exact ⟨p', hp'.1, hp'.2.trans h⟩
  . intro hy
    cases hy with
    | intro p' hp' => exact ⟨p', hp'.1, hp'.2.trans h.symm⟩

theorem isMet_succ : IsMet σ (p + 1) x ↔ IsMet σ p x ∨ SameCycle σ p x := by
  constructor
  . intro h
    rcases h with ⟨p', hp'⟩
    by_cases heq : p' = p
    . right
      rw [← heq]
      exact hp'.2
    . left
      exact ⟨p', by omega, hp'.2⟩
  . intro h
    cases h with
    | inl h =>
      cases h with
      | intro p' hp' => exact ⟨p', by omega, hp'.2⟩
    | inr h => exact ⟨p, by omega, h⟩

theorem isMet_of_lt (h : x < p) : IsMet σ p x :=
  ⟨x, h, SameCycle.refl σ x⟩

structure IsKnown (σ : Equiv.Perm Nat) (n p : Nat) (known : List Nat) : Prop where
  length_eq : known.length = n
  getElem?_eq : ∀ x, p ≤ x → x < n → ∃ v, known[x]? = some v ∧ (v = 0 ↔ ¬IsMet σ p x)

theorem isKnown_replicate (σ : Equiv.Perm Nat) (n : Nat)
    : IsKnown σ n 0 (List.replicate n 0) := by
  constructor
  . simp
  . intro x _ hx
    refine ⟨0, by simp [hx], ?_⟩
    unfold IsMet
    simp

namespace IsKnown

variable {n : Nat} {known : List Nat}

theorem readEntry_known (h : IsKnown σ n p known) (hp : p < n)
    : ∃ v, readEntry known p = .ok v ∧ (v = 0 ↔ ¬IsMet σ p p) := by
  rcases h.getElem?_eq p (Nat.le_refl p) hp with ⟨v, hv⟩
  unfold readEntry
  rw [hv.1]
  exact ⟨v, rfl, hv.2⟩

theorem skip (h : IsKnown σ n p known) (hmet : IsMet σ p p) : IsKnown σ n (p + 1) known := by
  constructor
  . exact h.length_eq
  . intro x hx hxn
    rcases h.getElem?_eq x (by omega) hxn with ⟨v, hv⟩
    refine ⟨v, hv.1, ?_⟩
    rw [hv.2, isMet_succ]
    have : SameCycle σ p x → IsMet σ p x := fun hs => (isMet_of_sameCycle hs).mp hmet
    tauto

end IsKnown

structure IsMarking (σ : Equiv.Perm Nat) (p : Nat) (known : List Nat) (j : Nat)
    (s : Nat × List Nat) : Prop where
  count_eq : s.1 = j
  length_eq : s.2.length = known.length
  marked : ∀ i, 0 < i → i < j → s.2[σ^[i] p]? = some 1
  unmarked : ∀ x, (∀ i, 0 < i → i < j → σ^[i] p ≠ x) → s.2[x]? = known[x]?

theorem IsMarking.succ {known : List Nat} {j : Nat} {s : Nat × List Nat}
    (h : IsMarking σ p known j s) (hpos : 0 < j) (hj : σ^[j] p < known.length)
    : ∃ s', countPoint (σ^[j] p) s = .ok s' ∧ IsMarking σ p known (j + 1) s' := by
  have hlen := h.length_eq
  refine ⟨(s.1 + 1, s.2.set (σ^[j] p) 1), ?_, ?_⟩
  . unfold countPoint setKnown
    rw [if_pos (by omega)]
    rfl
  . constructor
    . dsimp only
      rw [h.count_eq]
    . dsimp only
      rw [List.length_set, hlen]
    . intro i hpos hlt
      dsimp only
      rw [List.getElem?_set]
      split
      . rw [if_pos (by omega)]
      . next hne =>
        apply h.marked i hpos
        have : i ≠ j := fun heq => hne (by rw [heq])
        omega
    . intro x hx
      dsimp only
      rw [List.getElem?_set_ne (hx j hpos (by omega))]
      apply h.unmarked
      intro i hi hlt
      apply hx i hi (by omega)

theorem cycleLength_spec (hacts : Acts pt σ) {known : List Nat}
    (hknown : IsKnown σ pt.length p known) (hp : p < pt.length)
    : ∃ known', cycleLength pt p known = .ok (minimalPeriod σ p, known')
        ∧ IsKnown σ pt.length (p + 1) known' := by
  have hlt : ∀ j, σ^[j] p < known.length := by
    intro j
    rw [hknown.length_eq]
    apply iterate_lt (fun _ hi => hacts.fix hi) hp
  have hstart : IsMarking σ p known 1 (1, known) := by
    constructor
    . rfl
    . rfl
    . omega
    . intro x _
      rfl
  unfold cycleLength
  rw [readEntry_eq hacts hp, ok_bind]
  rcases cycleLoop_spec hacts hp (IsMarking σ p known)
    (fun j s hpos _ hs => hs.succ hpos (hlt j)) hstart with ⟨s, hs⟩
  have hmarking := hs.2
  refine ⟨s.2, ?_, ?_⟩
  . rw [hs.1, ← hmarking.count_eq]
  . constructor
    . rw [hmarking.length_eq, hknown.length_eq]
    . intro x hx hxn
      by_cases hsame : SameCycle σ p x
      . rcases (sameCycle_iff (fun _ hi => hacts.fix hi)).mp hsame with ⟨i, hi⟩
        have hpos : 0 < i := by
          apply Nat.pos_of_ne_zero
          intro hzero
          rw [hzero] at hi
          have : p = x := hi.2
          omega
        refine ⟨1, ?_, ?_⟩
        . rw [← hi.2]
          apply hmarking.marked i hpos hi.1
        . rw [isMet_succ]
          simp [hsame]
      . rcases hknown.getElem?_eq x (by omega) hxn with ⟨v, hv⟩
        refine ⟨v, ?_, ?_⟩
        . rw [hmarking.unmarked x, hv.1]
          intro i _ _ heq
          rw [← heq] at hsame
          exact hsame (sameCycle_iterate σ p i)
        . rw [hv.2, isMet_succ]
          simp [hsame]
