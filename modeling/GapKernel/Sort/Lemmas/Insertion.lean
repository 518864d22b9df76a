import GapKernel.Sort.Lemmas.Rearrange

open Function

namespace SortMacros

variable {S L B : Type} {m : SortMacros S L B} {len : Int} {Rep : S → (Int → L) → Prop}
  {BufRep : B → Int → (Int → L) → Prop} {ans : L → L → Bool → Prop}

structure Shifted (ans : L → L → Bool → Prop) (start k k' : Int) (v : L) (g g' : Int → L)
    : Prop where
  rearranged : StablyRearranged (Less ans) start k g g'
  le : start ≤ k' ∧ k' ≤ k
  self : g' k' = v
  below : ∀ i, i < k' → g' i = g i
  moved : ∀ i, k' < i → i ≤ k → g' i = g (i - 1) ∧ Less ans v (g' i)

def Stops (ans : L → L → Bool → Prop) (start k' : Int) (v : L) (g' : Int → L) : Prop :=
  k' = start ∨ ans v (g' (k' - 1)) false

namespace Shifted

variable {start k k' : Int} {v : L} {g g' : Int → L}

theorem refl (hk : start ≤ k) (hv : g k = v) : Shifted ans start k k v g g where
  rearranged := StablyRearranged.refl _ _ _
  le := ⟨hk, Int.le_refl k⟩
  self := hv
  below := by
    intro i _
    rfl
  moved := by
    intro i hki hik
    omega

theorem step (hk : start < k) (hv : g k = v) (hless : Less ans v (g (k - 1)))
    (h : Shifted ans start (k - 1) k' v
      (update (update g k (g (k - 1))) (k - 1) v) g')
    : Shifted ans start k k' v g g' where
  rearranged := by
    have hswap : StablyRearranged (Less ans) start k g _ :=
      StablyRearranged.swap ⟨hk, Int.le_refl k⟩ (by rwa [hv])
    rw [hv] at hswap
    exact hswap.trans (h.rearranged.mono (Int.le_refl _) (by omega))
  le := by
    have := h.le
    omega
  self := h.self
  below := by
    intro i hi
    have := h.le
    rw [h.below i hi, update_of_ne (by omega), update_of_ne (by omega)]
  moved := by
    intro i hki hik
    have := h.le
    by_cases hi : i = k
    . subst hi
      have houtside : g' i = g (i - 1) := by
        rw [h.rearranged.rearranged.outside (by omega), update_of_ne (by omega),
          update_self]
      refine ⟨houtside, ?_⟩
      rw [houtside]
      exact hless
    . obtain ⟨hg, hl⟩ := h.moved i hki (by omega)
      refine ⟨?_, hl⟩
      rw [hg, update_of_ne (by omega), update_of_ne (by omega)]

theorem sorted (hans : DecidesOrder ans) (h : Shifted ans start k k' v g g')
    (hstop : Stops ans start k' v g') (hsorted : SortedOn (Less ans) start (k - 1) g)
    : SortedOn (Less ans) start k g' := by
  intro i j hi hij hj
  have hle := h.le
  rcases lt_trichotomy j k' with hjk | hjk | hjk
  . rw [h.below i (by omega), h.below j hjk]
    exact hsorted i j hi hij (by omega)
  . subst hjk
    rw [h.self]
    rcases hstop with hstart | hans'
    . omega
    . have hlast := hans.not_less hans'
      by_cases hi' : i = j - 1
      . rw [hi']
        exact hlast
      . apply hans.trans_not hlast
        rw [h.below (j - 1) (by omega), h.below i hij]
        exact hsorted i (j - 1) hi (by omega) (by omega)
  . obtain ⟨hgj, hless⟩ := h.moved j hjk hj
    rcases lt_trichotomy i k' with hik | hik | hik
    . rw [h.below i hik, hgj]
      exact hsorted i (j - 1) hi (by omega) (by omega)
    . subst hik
      rw [h.self]
      exact hans.asymm hless
    . rw [(h.moved i hik (by omega)).1, hgj]
      exact hsorted (i - 1) (j - 1) (by omega) (by omega) (by omega)

end Shifted

variable (h : m.Lawful len Rep BufRep ans)

include h

variable {s : S} {f : Int → L} {i : Int} {w : L}

theorem assListToLocalIf_spec (cond : Bool) (hs : Rep s f) (hi : cond = true → 1 ≤ i ∧ i ≤ len)
    : ∃ w', m.assListToLocalIf cond s i w = .ok w' ∧ (cond = true → w' = f i) := by
  unfold assListToLocalIf
  cases cond with
  | false => exact ⟨w, rfl, by simp⟩
  | true =>
    rw [if_pos rfl, h.assListToLocal hs (hi rfl).1 (hi rfl).2]
    exact ⟨f i, rfl, by simp⟩

theorem insertionShift_spec (fuel : Nat) (start : Int) (v : L) (k : Int) (hs : Rep s f)
    (hstart : 1 ≤ start) (hk : start ≤ k) (hlen : k ≤ len) (hw : start < k → w = f (k - 1))
    (hfuel : k - start < fuel)
    : ∃ s' k' f', m.insertionShift fuel start v s k w = .ok (s', k') ∧ Rep s' f' ∧
        Shifted ans start k k' v (update f k v) (update f' k' v) ∧
        Stops ans start k' v (update f' k' v) := by
  induction fuel generalizing s k w f with
  | zero => omega
  | succ fuel ih =>
    unfold insertionShift
    split
    . next hlt =>
      obtain ⟨hrep, hanswer⟩ := h.compCheckEq v w hs
      rw [hw hlt] at hanswer hrep ⊢
      generalize m.compCheckEq s v (f (k - 1)) = result at hrep hanswer ⊢
      obtain ⟨less, s₁⟩ := result
      cases less with
      | true =>
        obtain ⟨s₂, hass, hrep₂⟩ := h.assLocalToList (f (k - 1)) hrep (by omega) hlen
        obtain ⟨w', hlocal, hw'⟩ := assListToLocalIf_spec h (i := k - 1 - 1) (w := f (k - 1))
          (decide (start < k - 1)) hrep₂ (by simp; omega)
        dsimp only
        rw [if_pos rfl, hass, ok_bind]
        rw [hlocal, ok_bind]
        obtain ⟨s', k', f', hshift, hs', hshifted, hstop⟩ :=
          ih (k - 1) hrep₂ (by omega) (by omega) (fun hlt' => hw' (by simpa using hlt')) (by omega)
        refine ⟨s', k', f', hshift, hs', ?_, hstop⟩
        apply Shifted.step hlt (update_self _ _ _)
        . rw [update_of_ne (by omega)]
          exact hanswer
        . rw [update_of_ne (by omega : k - 1 ≠ k), update_idem]
          exact hshifted
      | false =>
        refine ⟨s₁, k, f, rfl, hrep, Shifted.refl hk (update_self _ _ _), Or.inr ?_⟩
        rw [update_of_ne (by omega)]
        exact hanswer
    . next hlt =>
      refine ⟨s, k, f, rfl, hs, Shifted.refl hk (update_self _ _ _), Or.inl ?_⟩
      omega

variable {start last : Int}

theorem insertionLoop_spec (rounds : Nat) (hs : Rep s f) (hstart : 1 ≤ start) (hi : start < i)
    (hlast : last ≤ len) (hrounds : i + rounds = last + 1)
    : ∃ s' f', m.insertionLoop rounds start s i = .ok s' ∧ Rep s' f' ∧
        StablyRearranged (Less ans) start last f f' ∧
        (DecidesOrder ans → SortedOn (Less ans) start (i - 1) f →
          SortedOn (Less ans) start last f') := by
  induction rounds generalizing s i f with
  | zero =>
    refine ⟨s, f, rfl, hs, StablyRearranged.refl _ _ _, ?_⟩
    intro _ hsorted
    have : i - 1 = last := by
      omega
    rwa [this] at hsorted
  | succ rounds ih =>
    obtain ⟨s₁, k, f₁, hshift, hs₁, hshifted, hstop⟩ :=
      insertionShift_spec h (i - start + 1).toNat start (f i) i hs hstart
        (by omega) (by omega) (fun _ => rfl) (by omega)
    rw [update_eq_self] at hshifted
    have hk := hshifted.le
    obtain ⟨s₂, hass, hs₂⟩ := h.assLocalToList (f i) hs₁ (by omega) (by omega : k ≤ len)
    obtain ⟨s', f', hloop, hs', hrearranged, hsorted⟩ :=
      ih hs₂ (by omega : start < i + 1) (by omega)
    refine ⟨s', f', ?_, hs', ?_, ?_⟩
    . unfold insertionLoop
      rw [h.assListToLocal hs (by omega) (by omega), ok_bind]
      rw [h.assListToLocal hs (by omega) (by omega), ok_bind]
      rw [hshift, ok_bind]
      dsimp only
      rw [hass, ok_bind]
      exact hloop
    . exact (hshifted.rearranged.mono (Int.le_refl _) (by omega)).trans hrearranged
    . intro hans hsorted₀
      apply hsorted hans
      rw [Int.add_sub_cancel]
      exact hshifted.sorted hans hstop hsorted₀

theorem insertion_spec (hs : Rep s f) (hstart : 1 ≤ start) (hlast : last ≤ len)
    : ∃ s' f', m.insertion s start last = .ok s' ∧ Rep s' f' ∧
        StablyRearranged (Less ans) start last f f' ∧
        (DecidesOrder ans → SortedOn (Less ans) start last f') := by
  unfold insertion
  by_cases hlt : start < last
  . obtain ⟨s', f', hloop, hs', hrearranged, hsorted⟩ :=
      insertionLoop_spec h (last - start).toNat hs hstart (by omega : start < start + 1) hlast
        (by omega)
    refine ⟨s', f', hloop, hs', hrearranged, ?_⟩
    intro hans
    apply hsorted hans
    intro i j hi hij hj
    omega
  . have hrounds : (last - start).toNat = 0 := by
      omega
    rw [hrounds]
    refine ⟨s, f, rfl, hs, StablyRearranged.refl _ _ _, ?_⟩
    intro _ i j hi hij hj
    omega

theorem limitedShift_spec (fuel : Nat) (start : Int) (v : L) (k limit : Int) (hs : Rep s f)
    (hstart : 1 ≤ start) (hk : start ≤ k) (hlen : k ≤ len) (hw : start < k → w = f (k - 1))
    (hfuel : k - start < fuel)
    : ∃ s' k' limit' f', m.limitedShift fuel start v s k w limit = .ok (s', k', limit') ∧
        Rep s' f' ∧ Shifted ans start k k' v (update f k v) (update f' k' v) ∧
        (limit' ≠ none → Stops ans start k' v (update f' k' v)) := by
  induction fuel generalizing s k w f limit with
  | zero => omega
  | succ fuel ih =>
    unfold limitedShift
    split
    . next hlt =>
      obtain ⟨hrep, hanswer⟩ := h.compCheckEq v w hs
      rw [hw hlt] at hanswer hrep ⊢
      generalize m.compCheckEq s v (f (k - 1)) = result at hrep hanswer ⊢
      obtain ⟨less, s₁⟩ := result
      cases less with
      | true =>
        dsimp only
        rw [if_pos rfl]
        split
        . refine ⟨s₁, k, none, f, rfl, hrep, Shifted.refl hk (update_self _ _ _), ?_⟩
          simp
        . obtain ⟨s₂, hass, hrep₂⟩ := h.assLocalToList (f (k - 1)) hrep (by omega) hlen
          obtain ⟨w', hlocal, hw'⟩ := assListToLocalIf_spec h (i := k - 1 - 1) (w := f (k - 1))
            (decide (start < k - 1)) hrep₂ (by simp; omega)
          rw [hass, ok_bind]
          rw [hlocal, ok_bind]
          obtain ⟨s', k', limit', f', hshift, hs', hshifted, hstop⟩ :=
            ih (k - 1) (limit - 1) hrep₂ (by omega) (by omega)
              (fun hlt' => hw' (by simpa using hlt')) (by omega)
          refine ⟨s', k', limit', f', hshift, hs', ?_, hstop⟩
          apply Shifted.step hlt (update_self _ _ _)
          . rw [update_of_ne (by omega)]
            exact hanswer
          . rw [update_of_ne (by omega : k - 1 ≠ k), update_idem]
            exact hshifted
      | false =>
        refine ⟨s₁, k, some limit, f, rfl, hrep, Shifted.refl hk (update_self _ _ _), ?_⟩
        intro _
        right
        rw [update_of_ne (by omega)]
        exact hanswer
    . next hlt =>
      refine ⟨s, k, some limit, f, rfl, hs, Shifted.refl hk (update_self _ _ _), ?_⟩
      intro _
      left
      omega

theorem limitedInsertionLoop_spec (rounds : Nat) (limit : Int) (hs : Rep s f) (hstart : 1 ≤ start)
    (hi : start < i) (hlast : last ≤ len) (hrounds : i + rounds = last + 1)
    : ∃ r s' f', m.limitedInsertionLoop rounds start s i limit = .ok (r, s') ∧ Rep s' f' ∧
        Rearranged start last f f' ∧
        (r = true → DecidesOrder ans → SortedOn (Less ans) start (i - 1) f →
          SortedOn (Less ans) start last f') := by
  induction rounds generalizing s i f limit with
  | zero =>
    refine ⟨true, s, f, rfl, hs, Rearranged.refl _ _ _, ?_⟩
    intro _ _ hsorted
    have : i - 1 = last := by
      omega
    rwa [this] at hsorted
  | succ rounds ih =>
    obtain ⟨s₁, k, limit', f₁, hshift, hs₁, hshifted, hstop⟩ :=
      limitedShift_spec h (i - start + 1).toNat start (f i) i limit hs hstart (by omega) (by omega)
        (fun _ => rfl) (by omega)
    rw [update_eq_self] at hshifted
    have hk := hshifted.le
    have hrearranged₁ := hshifted.rearranged.rearranged.mono (Int.le_refl _) (by omega : i ≤ last)
    obtain ⟨s₂, hass, hs₂⟩ := h.assLocalToList (f i) hs₁ (by omega) (by omega : k ≤ len)
    unfold limitedInsertionLoop
    rw [h.assListToLocal hs (by omega) (by omega), ok_bind]
    rw [h.assListToLocal hs (by omega) (by omega), ok_bind]
    rw [hshift, ok_bind]
    dsimp only
    rw [hass, ok_bind]
    cases limit' with
    | none =>
      refine ⟨false, s₂, _, rfl, hs₂, hrearranged₁, ?_⟩
      simp
    | some limit' =>
      obtain ⟨r, s', f', hloop, hs', hrearranged, hsorted⟩ :=
        ih limit' hs₂ (by omega : start < i + 1) (by omega)
      refine ⟨r, s', f', hloop, hs', hrearranged₁.trans hrearranged, ?_⟩
      intro hr hans hsorted₀
      apply hsorted hr hans
      rw [Int.add_sub_cancel]
      exact hshifted.sorted hans (hstop (by simp)) hsorted₀

theorem limitedInsertion_spec (hs : Rep s f) (hstart : 1 ≤ start) (hle : start ≤ last)
    (hlast : last ≤ len)
    : ∃ r s' f', m.limitedInsertion s start last = .ok (r, s') ∧ Rep s' f' ∧
        Rearranged start last f f' ∧
        (r = true → DecidesOrder ans → SortedOn (Less ans) start last f') := by
  unfold limitedInsertion
  obtain ⟨r, s', f', hloop, hs', hrearranged, hsorted⟩ :=
    limitedInsertionLoop_spec h (last - start).toNat 8 hs hstart
      (by omega : start < start + 1) hlast (by omega)
  refine ⟨r, s', f', hloop, hs', hrearranged, ?_⟩
  intro hr hans
  apply hsorted hr hans
  intro i j hi hij hj
  omega

end SortMacros

namespace SortMacros

inductive ShellGap : Int → Prop where
  | one : ShellGap 1
  | next (h : Int) : ShellGap h → ShellGap (3 * h + 1)

theorem ShellGap.pos {h : Int} (hgap : ShellGap h) : 1 ≤ h := by
  induction hgap with
  | one => omega
  | next h _ ih => omega

theorem shellWidth_spec (fuel : Nat) (len : Int) {h : Int} (hgap : ShellGap h)
    (hfuel : len - h < fuel) (hlen : 0 < fuel)
    : ∃ h', shellWidth fuel len h = .ok h' ∧ ShellGap h' := by
  induction fuel generalizing h with
  | zero => omega
  | succ fuel ih =>
    have hpos := hgap.pos
    unfold shellWidth
    split
    . exact ih (.next h hgap) (by omega) (by omega)
    . exact ⟨h, rfl, hgap⟩

variable {S L B : Type} {m : SortMacros S L B} {len : Int} {Rep : S → (Int → L) → Prop}
  {BufRep : B → Int → (Int → L) → Prop} {ans : L → L → Bool → Prop}

theorem shellShift_one (fuel : Nat) (start : Int) (v : L) (s : S) (k : Int) (w : L)
    : m.shellShift fuel start 1 v s k w = m.insertionShift fuel start v s k w := by
  have hstart : 1 + (start - 1) = start := by
    omega
  induction fuel generalizing s k w with
  | zero => rfl
  | succ fuel ih =>
    unfold shellShift insertionShift
    simp only [hstart, ih]

theorem shellPass_one (rounds : Nat) (start : Int) (s : S) (i : Int)
    : m.shellPass rounds start 1 s i = m.insertionLoop rounds start s i := by
  induction rounds generalizing s i with
  | zero => rfl
  | succ rounds ih =>
    unfold shellPass insertionLoop
    simp only [shellShift_one, ih]

variable (h : m.Lawful len Rep BufRep ans)

include h

variable {s : S} {f : Int → L}

theorem shellShift_spec (fuel : Nat) (start gap : Int) (v : L) (k : Int) {w : L} (hs : Rep s f)
    (hstart : 1 ≤ start) (hgap : 1 ≤ gap) (hk : start ≤ k) (hlen : k ≤ len)
    (hw : gap + (start - 1) < k → w = f (k - gap)) (hfuel : k - start < fuel)
    : ∃ s' k' f', m.shellShift fuel start gap v s k w = .ok (s', k') ∧ Rep s' f' ∧ start ≤ k' ∧
        k' ≤ k ∧ Rearranged start k (update f k v) (update f' k' v) := by
  induction fuel generalizing s k w f with
  | zero => omega
  | succ fuel ih =>
    unfold shellShift
    split
    . next hlt =>
      obtain ⟨hrep, -⟩ := h.compCheckEq v w hs
      rw [hw hlt] at hrep ⊢
      generalize m.compCheckEq s v (f (k - gap)) = result at hrep ⊢
      obtain ⟨less, s₁⟩ := result
      cases less with
      | true =>
        obtain ⟨s₂, hass, hrep₂⟩ := h.assLocalToList (f (k - gap)) hrep (by omega) hlen
        obtain ⟨w', hlocal, hw'⟩ := assListToLocalIf_spec h (i := k - gap - gap) (w := f (k - gap))
          (decide (gap + (start - 1) < k - gap)) hrep₂ (by simp; omega)
        dsimp only
        rw [if_pos rfl, hass, ok_bind]
        rw [hlocal, ok_bind]
        obtain ⟨s', k', f', hshift, hs', hle, hle', hrearranged⟩ :=
          ih (k - gap) hrep₂ (by omega) (by omega) (fun hlt' => hw' (by simpa using hlt'))
            (by omega)
        refine ⟨s', k', f', hshift, hs', hle, by omega, ?_⟩
        have hswap := Rearranged.swap (a := start) (b := k) (i := k - gap) (j := k) (by omega)
          (by omega) (update f k v)
        rw [update_of_ne (by omega), update_self, update_idem] at hswap
        exact hswap.trans (hrearranged.mono (Int.le_refl _) (by omega))
      | false => exact ⟨s₁, k, f, rfl, hrep, hk, Int.le_refl k, Rearranged.refl _ _ _⟩
    . exact ⟨s, k, f, rfl, hs, hk, Int.le_refl k, Rearranged.refl _ _ _⟩

variable {start last : Int}

theorem shellPass_spec (rounds : Nat) {gap i : Int} (hs : Rep s f) (hstart : 1 ≤ start)
    (hgap : 1 ≤ gap) (hi : gap + start ≤ i) (hlast : last ≤ len)
    (hrounds : rounds = 0 ∨ i + rounds = last + 1)
    : ∃ s' f', m.shellPass rounds start gap s i = .ok s' ∧ Rep s' f' ∧
        Rearranged start last f f' := by
  induction rounds generalizing s i f with
  | zero => exact ⟨s, f, rfl, hs, Rearranged.refl _ _ _⟩
  | succ rounds ih =>
    obtain ⟨s₁, k, f₁, hshift, hs₁, hle, hle', hrearranged₁⟩ :=
      shellShift_spec h (i - start + 1).toNat start gap (f i) i hs hstart hgap
        (by omega) (by omega) (fun _ => rfl) (by omega)
    rw [update_eq_self] at hrearranged₁
    obtain ⟨s₂, hass, hs₂⟩ := h.assLocalToList (f i) hs₁ (by omega) (by omega : k ≤ len)
    obtain ⟨s', f', hpass, hs', hrearranged⟩ := ih hs₂ (by omega : gap + start ≤ i + 1) (by omega)
    refine ⟨s', f', ?_, hs', ?_⟩
    . unfold shellPass
      rw [h.assListToLocal hs (by omega) (by omega), ok_bind]
      rw [h.assListToLocal hs (by omega) (by omega), ok_bind]
      rw [hshift, ok_bind]
      dsimp only
      rw [hass, ok_bind]
      exact hpass
    . exact (hrearranged₁.mono (Int.le_refl _) (by omega)).trans hrearranged

theorem shellLoop_spec (fuel : Nat) {gap : Int} (hs : Rep s f) (hstart : 1 ≤ start)
    (hgap : ShellGap gap) (hlast : last ≤ len) (hfuel : gap < fuel)
    : ∃ s' f', m.shellLoop fuel start last s gap = .ok s' ∧ Rep s' f' ∧
        Rearranged start last f f' ∧
        (DecidesOrder ans → SortedOn (Less ans) start last f') := by
  induction hgap generalizing fuel s f with
  | one =>
    obtain ⟨fuel, rfl⟩ : ∃ n, fuel = n + 2 := ⟨fuel - 2, by omega⟩
    obtain ⟨s', f', hinsertion, hs', hrearranged, hsorted⟩ := insertion_spec h hs hstart hlast
    refine ⟨s', f', ?_, hs', hrearranged.rearranged, hsorted⟩
    unfold insertion at hinsertion
    unfold shellLoop
    rw [if_pos (by omega), shellPass_one]
    rw [show last + 1 - (1 + start) = last - start by omega, Int.add_comm 1 start]
    rw [hinsertion]
    rfl
  | next gap hgap ih =>
    have hpos := hgap.pos
    obtain ⟨fuel, rfl⟩ : ∃ n, fuel = n + 1 := ⟨fuel - 1, by omega⟩
    obtain ⟨s₁, f₁, hpass, hs₁, hrearranged₁⟩ :=
      shellPass_spec h (last + 1 - (3 * gap + 1 + start)).toNat hs hstart
        (by omega : 1 ≤ 3 * gap + 1) (Int.le_refl _) hlast (by omega)
    obtain ⟨s', f', hloop, hs', hrearranged, hsorted⟩ := ih fuel hs₁ (by omega)
    refine ⟨s', f', ?_, hs', hrearranged₁.trans hrearranged, hsorted⟩
    unfold shellLoop
    rw [if_pos (by omega), hpass, ok_bind]
    rw [show (3 * gap + 1) / 3 = gap by omega]
    exact hloop

theorem shell_spec (hs : Rep s f) (hstart : 1 ≤ start) (hle : start ≤ last) (hlast : last ≤ len)
    : ∃ s' f', m.shell s start last = .ok s' ∧ Rep s' f' ∧ Rearranged start last f f' ∧
        (DecidesOrder ans → SortedOn (Less ans) start last f') := by
  obtain ⟨gap, hwidth, hgap⟩ :=
    shellWidth_spec (last - start + 1 + 1).toNat (last - start + 1) .one (by omega)
      (by omega)
  obtain ⟨s', f', hloop, hspec⟩ :=
    shellLoop_spec h (gap + 1).toNat hs hstart hgap hlast (by have := hgap.pos; omega)
  refine ⟨s', f', ?_, hspec⟩
  unfold shell
  dsimp only
  rw [hwidth, ok_bind]
  exact hloop

end SortMacros
