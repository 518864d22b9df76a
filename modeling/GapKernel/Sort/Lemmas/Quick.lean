import GapKernel.Sort.Lemmas.Insertion

open Function

def exchange {L : Type} (f : Int → L) (a b : Int) : Int → L :=
  Function.update (Function.update f b (f a)) a (f b)

section

variable {L : Type} (f : Int → L) {a b i : Int}

theorem exchange_left : exchange f a b a = f b := by
  unfold exchange
  rw [update_self]

theorem exchange_right (h : a ≠ b) : exchange f a b b = f a := by
  unfold exchange
  rw [update_of_ne (Ne.symm h), update_self]

theorem exchange_of_ne (ha : i ≠ a) (hb : i ≠ b) : exchange f a b i = f i := by
  unfold exchange
  rw [update_of_ne ha, update_of_ne hb]

end

def SplitAt {L : Type} (lt : L → L → Prop) (a p b : Int) (f : Int → L) : Prop :=
  ∀ i j, a ≤ i → i < p → p ≤ j → j ≤ b → ¬lt (f j) (f i)

namespace SplitAt

variable {L : Type} {lt : L → L → Prop} {a p b : Int} {f f' : Int → L}

theorem rearrange_left (h : SplitAt lt a p b f) (hf : Rearranged a (p - 1) f f')
    : SplitAt lt a p b f' := by
  intro i j hai hip hpj hjb
  rw [hf.outside (by omega : j < a ∨ p - 1 < j)]
  apply hf.forall_mem (p := fun x => ¬lt (f j) x) _ i hai (by omega)
  intro k hak hkp
  exact h k j hak (by omega) hpj hjb

theorem rearrange_right (h : SplitAt lt a p b f) (hf : Rearranged p b f f')
    : SplitAt lt a p b f' := by
  intro i j hai hip hpj hjb
  rw [hf.outside (by omega : i < p ∨ b < i)]
  apply hf.forall_mem (p := fun x => ¬lt x (f i)) _ j hpj hjb
  intro k hpk hkb
  exact h i k hai hip hpk hkb

end SplitAt

namespace SortMacros

variable {S L B : Type} {m : SortMacros S L B} {len : Int} {Rep : S → (Int → L) → Prop}
  {BufRep : B → Int → (Int → L) → Prop} {ans : L → L → Bool → Prop}
  (h : m.Lawful len Rep BufRep ans)

include h

variable {s : S} {f : Int → L} {a b : Int}

section

variable (hs : Rep s f) (ha : 1 ≤ a ∧ a ≤ len) (hb : 1 ≤ b ∧ b ≤ len)

include hs ha hb

theorem swap_spec
    : ∃ s', m.swap s a b = .ok s' ∧ Rep s' (exchange f a b) := by
  obtain ⟨s₁, hass₁, hs₁⟩ := h.assLocalToList (f a) hs hb.1 hb.2
  obtain ⟨s₂, hass₂, hs₂⟩ := h.assLocalToList (f b) hs₁ ha.1 ha.2
  refine ⟨s₂, ?_, hs₂⟩
  unfold swap
  rw [h.assListToLocal hs ha.1 ha.2, ok_bind]
  rw [h.assListToLocal hs hb.1 hb.2, ok_bind]
  rw [hass₁, ok_bind]
  exact hass₂

theorem compIndices_spec
    : ∃ r s', m.compIndices s a b = .ok (r, s') ∧ Rep s' f ∧ ans (f a) (f b) r := by
  obtain ⟨hrep, hanswer⟩ := h.compCheckEq (f a) (f b) hs
  refine ⟨_, _, ?_, hrep, hanswer⟩
  unfold compIndices
  rw [h.assListToLocal hs ha.1 ha.2, ok_bind]
  rw [h.assListToLocal hs hb.1 hb.2, ok_bind]
  rfl

theorem swapIfLess_spec
    : ∃ s' f', m.swapIfLess s a b = .ok s' ∧ Rep s' f' ∧
        (f' = f ∧ ans (f b) (f a) false ∨ f' = exchange f a b ∧ ans (f b) (f a) true) := by
  obtain ⟨r, s₁, hcomp, hs₁, hanswer⟩ := compIndices_spec h hs hb ha
  unfold swapIfLess
  rw [hcomp, ok_bind]
  cases r with
  | false => exact ⟨s₁, f, rfl, hs₁, Or.inl ⟨rfl, hanswer⟩⟩
  | true =>
    obtain ⟨s₂, hswap, hs₂⟩ := swap_spec h hs₁ ha hb
    exact ⟨s₂, _, hswap, hs₂, Or.inr ⟨rfl, hanswer⟩⟩

end

theorem sort3_spec {e : Int} (hs : Rep s f) (ha : 1 ≤ a) (hab : a < b) (hbe : b < e) (he : e ≤ len)
    : ∃ s' f', m.sort3 s a b e = .ok s' ∧ Rep s' f' ∧ Rearranged a e f f' ∧
        (DecidesOrder ans → ¬Less ans (f' b) (f' a) ∧ ¬Less ans (f' e) (f' b)) := by
  have hswap (i j : Int) (hi : a ≤ i ∧ i ≤ e) (hj : a ≤ j ∧ j ≤ e) (f : Int → L) :
      Rearranged a e f (exchange f i j) :=
    Rearranged.swap hi hj f
  obtain ⟨r₁, s₁, hcomp₁, hs₁, hanswer₁⟩ :=
    compIndices_spec h hs (by omega : 1 ≤ b ∧ b ≤ len) (by omega : 1 ≤ a ∧ a ≤ len)
  obtain ⟨r₂, s₂, hcomp₂, hs₂, hanswer₂⟩ :=
    compIndices_spec h hs₁ (by omega : 1 ≤ e ∧ e ≤ len) (by omega : 1 ≤ b ∧ b ≤ len)
  unfold sort3
  rw [hcomp₁, ok_bind]
  cases r₁ with
  | false =>
    dsimp only
    rw [if_pos Bool.not_false, hcomp₂, ok_bind]
    cases r₂ with
    | false =>
      refine ⟨s₂, f, rfl, hs₂, Rearranged.refl _ _ _, ?_⟩
      intro hans
      exact ⟨hans.not_less hanswer₁, hans.not_less hanswer₂⟩
    | true =>
      obtain ⟨s₃, hswap₃, hs₃⟩ :=
        swap_spec h hs₂ (by omega : 1 ≤ b ∧ b ≤ len) (by omega : 1 ≤ e ∧ e ≤ len)
      obtain ⟨s', f', hif, hs', hf'⟩ :=
        swapIfLess_spec h hs₃ (by omega : 1 ≤ a ∧ a ≤ len) (by omega : 1 ≤ b ∧ b ≤ len)
      dsimp only
      rw [if_neg (by simp), hswap₃, ok_bind]
      refine ⟨s', f', hif, hs', ?_, ?_⟩
      . have h₁ := hswap b e (by omega) (by omega) f
        rcases hf' with ⟨rfl, -⟩ | ⟨rfl, -⟩
        . exact h₁
        . exact h₁.trans (hswap a b (by omega) (by omega) _)
      . intro hans
        rw [exchange_left, exchange_of_ne f (by omega) (by omega)] at hf'
        rcases hf' with ⟨rfl, hf'⟩ | ⟨rfl, hf'⟩
        . rw [exchange_left, exchange_of_ne f (by omega) (by omega), exchange_right f (by omega)]
          exact ⟨hans.not_less hf', hans.asymm hanswer₂⟩
        . rw [exchange_right _ (by omega), exchange_left, exchange_left,
            exchange_of_ne f (by omega) (by omega), exchange_of_ne _ (by omega) (by omega),
            exchange_right f (by omega)]
          exact ⟨hans.asymm hf', hans.not_less hanswer₁⟩
  | true =>
    dsimp only
    rw [if_neg (by simp), hcomp₂, ok_bind]
    cases r₂ with
    | true =>
      obtain ⟨s₃, hswap₃, hs₃⟩ :=
        swap_spec h hs₂ (by omega : 1 ≤ a ∧ a ≤ len) (by omega : 1 ≤ e ∧ e ≤ len)
      refine ⟨s₃, _, hswap₃, hs₃, hswap a e (by omega) (by omega) f, ?_⟩
      intro hans
      rw [exchange_left, exchange_of_ne f (by omega) (by omega), exchange_right f (by omega)]
      exact ⟨hans.asymm hanswer₂, hans.asymm hanswer₁⟩
    | false =>
      obtain ⟨s₃, hswap₃, hs₃⟩ :=
        swap_spec h hs₂ (by omega : 1 ≤ a ∧ a ≤ len) (by omega : 1 ≤ b ∧ b ≤ len)
      obtain ⟨s', f', hif, hs', hf'⟩ :=
        swapIfLess_spec h hs₃ (by omega : 1 ≤ b ∧ b ≤ len) (by omega : 1 ≤ e ∧ e ≤ len)
      dsimp only
      rw [if_neg (by simp), hswap₃, ok_bind]
      refine ⟨s', f', hif, hs', ?_, ?_⟩
      . have h₁ := hswap a b (by omega) (by omega) f
        rcases hf' with ⟨rfl, -⟩ | ⟨rfl, -⟩
        . exact h₁
        . exact h₁.trans (hswap b e (by omega) (by omega) _)
      . intro hans
        rw [exchange_right f (by omega), exchange_of_ne f (by omega) (by omega)] at hf'
        rcases hf' with ⟨rfl, hf'⟩ | ⟨rfl, hf'⟩
        . rw [exchange_left, exchange_right f (by omega), exchange_of_ne f (by omega) (by omega)]
          exact ⟨hans.asymm hanswer₁, hans.not_less hf'⟩
        . rw [exchange_left, exchange_right _ (by omega), exchange_right f (by omega),
            exchange_of_ne f (by omega) (by omega), exchange_of_ne _ (by omega) (by omega),
            exchange_left]
          exact ⟨hans.not_less hanswer₂, hans.asymm hf'⟩

theorem scanLeft_spec (fuel : Nat) (pivot : L) {left right : Int} (hs : Rep s f) (hleft : 1 ≤ left)
    (hle : left ≤ right) (hright : right ≤ len) (hfuel : right - left < fuel)
    : ∃ left' s', m.scanLeft fuel pivot right s left = .ok (left', s') ∧ Rep s' f ∧ left ≤ left' ∧
        left' ≤ right ∧ (∀ i, left ≤ i → i < left' → ans pivot (f i) false) ∧
        (left' = right ∨ ans pivot (f left') true) := by
  induction fuel generalizing s left with
  | zero => omega
  | succ fuel ih =>
    unfold scanLeft
    split
    . next hlt =>
      obtain ⟨hrep, hanswer⟩ := h.compCheckEq pivot (f left) hs
      rw [h.assListToLocal hs hleft (by omega), ok_bind]
      generalize m.compCheckEq s pivot (f left) = result at hrep hanswer ⊢
      obtain ⟨less, s₁⟩ := result
      cases less with
      | true =>
        refine ⟨left, s₁, rfl, hrep, Int.le_refl _, hle, ?_, Or.inr hanswer⟩
        intro i hi hi'
        omega
      | false =>
        obtain ⟨left', s', hscan, hs', hle₁, hle₂, hfalse, hstop⟩ :=
          ih hrep (by omega : 1 ≤ left + 1) (by omega) (by omega)
        refine ⟨left', s', hscan, hs', by omega, hle₂, ?_, hstop⟩
        intro i hi hi'
        by_cases heq : i = left
        . subst heq
          exact hanswer
        . exact hfalse i (by omega) hi'
    . refine ⟨left, s, rfl, hs, Int.le_refl _, hle, ?_, Or.inl (by omega)⟩
      intro i hi hi'
      omega

theorem scanRight_spec (fuel : Nat) (pivot : L) (left right : Int) (hs : Rep s f) (hleft : 1 ≤ left)
    (hle : left ≤ right + 1) (hright : right ≤ len) (hfuel : right - left < fuel) (hpos : 0 < fuel)
    : ∃ right' s', m.scanRight fuel pivot left s right = .ok (right', s') ∧ Rep s' f ∧
        left ≤ right' + 1 ∧ right' ≤ right ∧ (∀ i, right' < i → i ≤ right → ans pivot (f i) true) ∧
        (right' ≤ left ∨ ans pivot (f right') false) := by
  induction fuel generalizing s right with
  | zero => omega
  | succ fuel ih =>
    unfold scanRight
    split
    . next hlt =>
      obtain ⟨hrep, hanswer⟩ := h.compCheckEq pivot (f right) hs
      rw [h.assListToLocal hs (by omega) hright, ok_bind]
      generalize m.compCheckEq s pivot (f right) = result at hrep hanswer ⊢
      obtain ⟨less, s₁⟩ := result
      cases less with
      | false =>
        refine ⟨right, s₁, rfl, hrep, hle, Int.le_refl _, ?_, Or.inr hanswer⟩
        intro i hi hi'
        omega
      | true =>
        obtain ⟨right', s', hscan, hs', hle₁, hle₂, htrue, hstop⟩ :=
          ih (right - 1) hrep (by omega : left ≤ right - 1 + 1) (by omega) (by omega) (by omega)
        refine ⟨right', s', hscan, hs', hle₁, by omega, ?_, hstop⟩
        intro i hi hi'
        by_cases heq : i = right
        . subst heq
          exact hanswer
        . exact htrue i hi (by omega)
    . refine ⟨right, s, rfl, hs, hle, Int.le_refl _, ?_, Or.inl (by omega)⟩
      intro i hi hi'
      omega

theorem partitionLoop_spec (fuel : Nat) (pivot : L) (firstPass : Bool) {left right : Int}
    (hs : Rep s f) (hleft : 1 ≤ left) (hle : left ≤ right) (hright : right ≤ len)
    (hfuel : right - left < fuel)
    : ∃ p pass s' f', m.partitionLoop fuel pivot s left right firstPass = .ok (p, pass, s') ∧
        Rep s' f' ∧ Rearranged left (right - 1) f f' ∧ left ≤ p ∧ p ≤ right ∧
        (DecidesOrder ans → (∀ i, left ≤ i → i < p → ¬Less ans pivot (f' i)) ∧
          ∀ i, p ≤ i → i < right → ¬Less ans (f' i) pivot) := by
  induction fuel generalizing s f left right firstPass with
  | zero => omega
  | succ fuel ih =>
    obtain ⟨left₁, s₁, hscan₁, hs₁, hle₁, hle₁', hbelow, hstop₁⟩ :=
      scanLeft_spec h (right - left + 1).toNat pivot hs hleft hle hright (by omega)
    obtain ⟨right₁, s₂, hscan₂, hs₂, hle₂, hle₂', habove, hstop₂⟩ :=
      scanRight_spec h (right - 1 - left₁ + 1).toNat.succ pivot left₁ (right - 1) hs₁
        (by omega) (by omega) (by omega) (by omega) (by omega)
    unfold partitionLoop
    rw [hscan₁, ok_bind]
    dsimp only
    rw [hscan₂, ok_bind]
    dsimp only
    split
    . refine ⟨left₁, firstPass, s₂, f, rfl, hs₂, Rearranged.refl _ _ _, hle₁, hle₁', ?_⟩
      intro hans
      constructor
      . intro i hi hi'
        exact hans.not_less (hbelow i hi hi')
      . intro i hi hi'
        apply hans.asymm
        by_cases heq : i = left₁
        . subst heq
          apply Or.resolve_left hstop₁
          omega
        . exact habove i (by omega) (by omega)
    . obtain ⟨s₃, hswap, hs₃⟩ := swap_spec h hs₂ (by omega : 1 ≤ left₁ ∧ left₁ ≤ len)
        (by omega : 1 ≤ right₁ ∧ right₁ ≤ len)
      obtain ⟨p, pass, s', f', hloop, hs', hrearranged, hp, hp', hsplit⟩ :=
        ih false hs₃ (by omega : 1 ≤ left₁ + 1) (by omega) (by omega : right₁ ≤ len)
          (by omega)
      refine ⟨p, pass, s', f', ?_, hs', ?_, by omega, by omega, ?_⟩
      . rw [hswap, ok_bind]
        exact hloop
      . have hrearranged₁ : Rearranged left (right - 1) f (exchange f left₁ right₁) :=
          Rearranged.swap (by omega) (by omega) f
        exact hrearranged₁.trans (hrearranged.mono (by omega) (by omega))
      . intro hans
        obtain ⟨hsplit₁, hsplit₂⟩ := hsplit hans
        constructor
        . intro i hi hi'
          by_cases hlt : left₁ < i
          . exact hsplit₁ i (by omega) hi'
          . rw [hrearranged.outside (by omega)]
            by_cases heq : i = left₁
            . subst heq
              rw [exchange_left]
              exact hans.not_less (Or.resolve_left hstop₂ (by omega))
            . rw [exchange_of_ne f heq (by omega)]
              exact hans.not_less (hbelow i hi (by omega))
        . intro i hi hi'
          by_cases hlt : i < right₁
          . exact hsplit₂ i hi hlt
          . rw [hrearranged.outside (by omega)]
            apply hans.asymm
            by_cases heq : i = right₁
            . subst heq
              rw [exchange_right f (by omega)]
              exact Or.resolve_left hstop₁ (by omega)
            . rw [exchange_of_ne f (by omega) heq]
              exact habove i (by omega) (by omega)

theorem partition_spec {start last : Int} (hs : Rep s f) (hstart : 1 ≤ start) (hlast : last ≤ len)
    (hsize : 24 ≤ last - start)
    : ∃ p pass s' f', m.partition s start last = .ok (p, pass, s') ∧ Rep s' f' ∧
        Rearranged start last f f' ∧ start < p ∧ p ≤ last ∧
        (DecidesOrder ans → SplitAt (Less ans) start p last f') := by
  obtain ⟨s₁, f₁, hsort, hs₁, hrearranged₁, horder⟩ :=
    sort3_spec h (a := start) (b := start / 2 + last / 2) (e := last) hs hstart (by omega)
      (by omega) hlast
  obtain ⟨p, pass, s', f', hloop, hs', hrearranged, hp, hp', hsplit⟩ :=
    partitionLoop_spec h (last - start).toNat (f₁ (start / 2 + last / 2)) true hs₁
      (by omega : 1 ≤ start + 1) (by omega) hlast (by omega)
  refine ⟨p, pass, s', f', ?_, hs', ?_, by omega, hp', ?_⟩
  . unfold partition
    rw [hsort, ok_bind]
    rw [h.assListToLocal hs₁ (by omega) (by omega), ok_bind]
    exact hloop
  . exact hrearranged₁.trans (hrearranged.mono (by omega) (by omega))
  . intro hans
    obtain ⟨hsplit₁, hsplit₂⟩ := hsplit hans
    obtain ⟨horder₁, horder₂⟩ := horder hans
    have hbelow : ∀ i, start ≤ i → i < p → ¬Less ans (f₁ (start / 2 + last / 2)) (f' i) := by
      intro i hi hi'
      by_cases heq : i = start
      . subst heq
        rw [hrearranged.outside (by omega)]
        exact horder₁
      . exact hsplit₁ i (by omega) hi'
    have habove : ∀ i, p ≤ i → i ≤ last → ¬Less ans (f' i) (f₁ (start / 2 + last / 2)) := by
      intro i hi hi'
      by_cases heq : i = last
      . subst heq
        rw [hrearranged.outside (by omega)]
        exact horder₂
      . exact hsplit₂ i hi (by omega)
    intro i j hi hip hpj hj
    exact hans.trans_not (habove j hpj hj) (hbelow i hi hip)

theorem checkBadPivot_spec {start last p : Int} (hs : Rep s f) (hstart : 1 ≤ start)
    (hlast : last ≤ len) (hsize : 24 ≤ last - start) (hp : start < p) (hp' : p ≤ last)
    : ∃ s' f₁ f', m.checkBadPivot s start last p = .ok s' ∧ Rep s' f' ∧ Rearranged p last f f₁ ∧
        Rearranged start (p - 1) f₁ f' := by
  have hfirst : ∃ s₁ f₁, (if p - start < (last - start) / 8 then do
      let s ← m.swap s p (p + (last - start) / 4)
      m.swap s last (last - (last - start) / 4)
    else return s : Result S) = .ok s₁ ∧ Rep s₁ f₁ ∧ Rearranged p last f f₁ := by
    split
    . obtain ⟨s₁, hswap₁, hs₁⟩ := swap_spec h hs (a := p) (b := p + (last - start) / 4) (by omega)
        (by omega)
      obtain ⟨s₂, hswap₂, hs₂⟩ := swap_spec h hs₁ (a := last) (b := last - (last - start) / 4)
        (by omega) (by omega)
      refine ⟨s₂, _, ?_, hs₂, ?_⟩
      . rw [hswap₁, ok_bind]
        exact hswap₂
      . have hrearranged₁ : Rearranged p last f (exchange f p (p + (last - start) / 4)) :=
          Rearranged.swap (by omega) (by omega) f
        apply hrearranged₁.trans
        exact Rearranged.swap (i := last) (j := last - (last - start) / 4) (by omega) (by omega) _
    . exact ⟨s, f, rfl, hs, Rearranged.refl _ _ _⟩
  obtain ⟨s₁, f₁, hfirst, hs₁, hrearranged₁⟩ := hfirst
  unfold checkBadPivot
  dsimp only
  rw [hfirst, ok_bind]
  split
  . obtain ⟨s₂, hswap₂, hs₂⟩ := swap_spec h hs₁ (a := start) (b := start + (last - start) / 4)
      (by omega) (by omega)
    obtain ⟨s₃, hswap₃, hs₃⟩ := swap_spec h hs₂ (a := p - 1) (b := p - 1 - (last - start) / 4)
      (by omega) (by omega)
    refine ⟨s₃, f₁, _, ?_, hs₃, hrearranged₁, ?_⟩
    . rw [hswap₂, ok_bind]
      exact hswap₃
    . have hrearranged₂ : Rearranged start (p - 1) f₁
          (exchange f₁ start (start + (last - start) / 4)) :=
        Rearranged.swap (by omega) (by omega) f₁
      apply hrearranged₂.trans
      exact Rearranged.swap (i := p - 1) (j := p - 1 - (last - start) / 4) (by omega) (by omega) _
  . exact ⟨s₁, f₁, f₁, rfl, hs₁, hrearranged₁, Rearranged.refl _ _ _⟩

end SortMacros

namespace SortMacros

variable {S L B : Type} {m : SortMacros S L B} {len : Int} {Rep : S → (Int → L) → Prop}
  {BufRep : B → Int → (Int → L) → Prop} {ans : L → L → Bool → Prop}
  (h : m.Lawful len Rep BufRep ans)

include h

variable {s : S} {f : Int → L}

theorem isSortedByInsertion_spec (firstPass : Bool) {start last : Int} (hs : Rep s f)
    (hstart : 1 ≤ start) (hle : start ≤ last) (hlast : last ≤ len)
    : ∃ r s' f', m.isSortedByInsertion firstPass s start last = .ok (r, s') ∧ Rep s' f' ∧
        Rearranged start last f f' ∧
        (r = true → DecidesOrder ans → SortedOn (Less ans) start last f') := by
  unfold isSortedByInsertion
  cases firstPass with
  | false =>
    refine ⟨false, s, f, rfl, hs, Rearranged.refl _ _ _, ?_⟩
    simp
  | true => exact limitedInsertion_spec h hs hstart hle hlast

theorem quickSort_spec {start last : Int} (depth : Int) (hs : Rep s f) (hstart : 1 ≤ start)
    (hlast : last ≤ len)
    : ∃ s' f', m.quickSort s start last depth = .ok s' ∧ Rep s' f' ∧ Rearranged start last f f' ∧
        (DecidesOrder ans → SortedOn (Less ans) start last f') := by
  induction hdepth : depth.toNat generalizing start last depth s f with
  | zero =>
    unfold quickSort
    split
    . obtain ⟨s', f', hinsertion, hs', hrearranged, hsorted⟩ := insertion_spec h hs hstart hlast
      exact ⟨s', f', hinsertion, hs', hrearranged.rearranged, hsorted⟩
    . rw [if_pos (by omega)]
      exact shell_spec h hs hstart (by omega) hlast
  | succ n ih =>
    unfold quickSort
    split
    . obtain ⟨s', f', hinsertion, hs', hrearranged, hsorted⟩ := insertion_spec h hs hstart hlast
      exact ⟨s', f', hinsertion, hs', hrearranged.rearranged, hsorted⟩
    . rw [if_neg (by omega)]
      obtain ⟨p, pass, s₁, f₁, hpartition, hs₁, hrearranged₁, hp, hp', hsplit⟩ :=
        partition_spec h hs hstart hlast (by omega)
      obtain ⟨s₂, f₂, f₃, hcheck, hs₂, hrearranged₂, hrearranged₃⟩ :=
        checkBadPivot_spec h hs₁ hstart hlast (by omega) hp hp'
      have hsplit₃ : DecidesOrder ans → SplitAt (Less ans) start p last f₃ := by
        intro hans
        exact ((hsplit hans).rearrange_right hrearranged₂).rearrange_left hrearranged₃
      have hside (a b : Int) (ha : 1 ≤ a) (hab : a ≤ b) (hb : b ≤ len) (s : S) (f : Int → L)
          (hs : Rep s f) :
          ∃ r s₁ s₂ f', m.isSortedByInsertion pass s a b = .ok (r, s₁) ∧
            (if r then pure s₁ else m.quickSort s₁ a b (depth - 1) : Result S) = .ok s₂ ∧
            Rep s₂ f' ∧ Rearranged a b f f' ∧
            (DecidesOrder ans → SortedOn (Less ans) a b f') := by
        obtain ⟨r, s₁, f₁, his, hs₁, hrearranged₁, hsorted₁⟩ :=
          isSortedByInsertion_spec h pass hs ha hab hb
        cases r with
        | true => exact ⟨true, s₁, s₁, f₁, his, rfl, hs₁, hrearranged₁, hsorted₁ rfl⟩
        | false =>
          obtain ⟨s₂, f₂, hquick, hs₂, hrearranged₂, hsorted₂⟩ :=
            ih (depth - 1) hs₁ ha hb (by omega)
          exact ⟨false, s₁, s₂, f₂, his, hquick, hs₂, hrearranged₁.trans hrearranged₂, hsorted₂⟩
      obtain ⟨r₄, s₄, s₅, f₅, his₄, hquick₅, hs₅, hrearranged₅, hsorted₅⟩ :=
        hside start (p - 1) hstart (by omega) (by omega) s₂ f₃ hs₂
      obtain ⟨r₆, s₆, s', f', his₆, hquick₇, hs', hrearranged₇, hsorted₇⟩ :=
        hside p last (by omega) hp' hlast s₅ f₅ hs₅
      refine ⟨s', f', ?_, hs', ?_, ?_⟩
      . rw [hpartition, ok_bind]
        dsimp only
        rw [hcheck, ok_bind]
        rw [his₄, ok_bind]
        dsimp only
        rw [hquick₅, ok_bind]
        rw [his₆, ok_bind]
        exact hquick₇
      . apply hrearranged₁.trans
        apply (hrearranged₂.mono (by omega) (by omega)).trans
        apply (hrearranged₃.mono (by omega) (by omega)).trans
        apply (hrearranged₅.mono (by omega) (by omega)).trans
        exact hrearranged₇.mono (by omega) (by omega)
      . intro hans
        have hsplit₇ := ((hsplit₃ hans).rearrange_left hrearranged₅).rearrange_right hrearranged₇
        have hleft : SortedOn (Less ans) start (p - 1) f' := by
          apply (hsorted₅ hans).congr
          intro i hi hi'
          exact hrearranged₇.outside (by omega)
        exact hleft.append (hsorted₇ hans) hsplit₇

theorem sort_spec (hs : Rep s f)
    : ∃ s' f', m.sort s = .ok s' ∧ Rep s' f' ∧ Rearranged 1 len f f' ∧
        (DecidesOrder ans → SortedOn (Less ans) 1 len f') := by
  unfold sort
  rw [h.lenList hs]
  exact quickSort_spec h _ hs (Int.le_refl 1) (Int.le_refl len)

end SortMacros
