import GapKernel.Sort.Impl
import Mathlib.Algebra.Group.End

open Function

section Rearrange

variable {L : Type}

def FixesOutside (a b : Int) (σ : Equiv.Perm Int) : Prop :=
  ∀ i, i < a ∨ b < i → σ i = i

def Rearranged (a b : Int) (f f' : Int → L) : Prop :=
  ∃ σ, FixesOutside a b σ ∧ ∀ i, f' i = f (σ i)

def StablyRearranged (lt : L → L → Prop) (a b : Int) (f f' : Int → L) : Prop :=
  ∃ σ, FixesOutside a b σ ∧ (∀ i, f' i = f (σ i)) ∧
    ∀ i j, i < j → σ j < σ i → lt (f' i) (f' j)

def SortedOn (lt : L → L → Prop) (a b : Int) (f : Int → L) : Prop :=
  ∀ i j, a ≤ i → i < j → j ≤ b → ¬lt (f j) (f i)

namespace FixesOutside

variable {a b : Int} {σ τ : Equiv.Perm Int}

theorem mono {a' b' : Int} (h : FixesOutside a b σ) (ha : a' ≤ a) (hb : b ≤ b')
    : FixesOutside a' b' σ := by
  intro i hi
  apply h
  omega

theorem mul (hσ : FixesOutside a b σ) (hτ : FixesOutside a b τ) : FixesOutside a b (σ * τ) := by
  intro i hi
  rw [Equiv.Perm.mul_apply, hτ i hi, hσ i hi]

theorem swap {i j : Int} (hi : a ≤ i ∧ i ≤ b) (hj : a ≤ j ∧ j ≤ b)
    : FixesOutside a b (Equiv.swap i j) := by
  intro k hk
  apply Equiv.swap_apply_of_ne_of_ne
  . omega
  . omega

theorem mem (h : FixesOutside a b σ) {i : Int} (hi : a ≤ i ∧ i ≤ b) : a ≤ σ i ∧ σ i ≤ b := by
  by_contra hout
  have hfix : σ (σ i) = σ i := by
    apply h
    omega
  rw [σ.injective hfix] at hout
  exact hout hi

end FixesOutside

namespace Rearranged

variable {a b : Int} {f f' f'' : Int → L}

theorem refl (a b : Int) (f : Int → L) : Rearranged a b f f := by
  refine ⟨1, ?_, ?_⟩
  . intro i _
    rfl
  . intro i
    rfl

theorem mono {a' b' : Int} (h : Rearranged a b f f') (ha : a' ≤ a) (hb : b ≤ b')
    : Rearranged a' b' f f' := by
  obtain ⟨σ, hσ, hf⟩ := h
  exact ⟨σ, hσ.mono ha hb, hf⟩

theorem trans (h : Rearranged a b f f') (h' : Rearranged a b f' f'') : Rearranged a b f f'' := by
  obtain ⟨σ, hσ, hf⟩ := h
  obtain ⟨τ, hτ, hf'⟩ := h'
  refine ⟨σ * τ, hσ.mul hτ, ?_⟩
  intro i
  rw [hf', hf]
  rfl

theorem outside (h : Rearranged a b f f') {i : Int} (hi : i < a ∨ b < i) : f' i = f i := by
  obtain ⟨σ, hσ, hf⟩ := h
  rw [hf, hσ i hi]

theorem forall_mem (h : Rearranged a b f f') {p : L → Prop} (hp : ∀ i, a ≤ i → i ≤ b → p (f i))
    : ∀ i, a ≤ i → i ≤ b → p (f' i) := by
  obtain ⟨σ, hσ, hf⟩ := h
  intro i hai hib
  rw [hf]
  have := hσ.mem ⟨hai, hib⟩
  exact hp _ this.1 this.2

theorem swap {i j : Int} (hi : a ≤ i ∧ i ≤ b) (hj : a ≤ j ∧ j ≤ b) (f : Int → L)
    : Rearranged a b f (update (update f j (f i)) i (f j)) := by
  refine ⟨Equiv.swap i j, FixesOutside.swap hi hj, ?_⟩
  intro k
  by_cases hki : k = i
  . subst hki
    rw [update_self, Equiv.swap_apply_left]
  . rw [update_of_ne hki]
    by_cases hkj : k = j
    . subst hkj
      rw [update_self, Equiv.swap_apply_right]
    . rw [update_of_ne hkj, Equiv.swap_apply_of_ne_of_ne hki hkj]

end Rearranged

namespace StablyRearranged

variable {lt : L → L → Prop} {a b : Int} {f f' f'' : Int → L}

theorem rearranged (h : StablyRearranged lt a b f f') : Rearranged a b f f' := by
  obtain ⟨σ, hσ, hf, -⟩ := h
  exact ⟨σ, hσ, hf⟩

theorem refl (a b : Int) (f : Int → L) : StablyRearranged lt a b f f := by
  refine ⟨1, ?_, ?_, ?_⟩
  . intro i _
    rfl
  . intro i
    rfl
  . intro i j hij hji
    simp only [Equiv.Perm.coe_one, id_eq] at hji
    omega

theorem mono {a' b' : Int} (h : StablyRearranged lt a b f f') (ha : a' ≤ a) (hb : b ≤ b')
    : StablyRearranged lt a' b' f f' := by
  obtain ⟨σ, hσ, hf⟩ := h
  exact ⟨σ, hσ.mono ha hb, hf⟩

theorem trans (h : StablyRearranged lt a b f f') (h' : StablyRearranged lt a b f' f'')
    : StablyRearranged lt a b f f'' := by
  obtain ⟨σ, hσ, hf, hlt⟩ := h
  obtain ⟨τ, hτ, hf', hlt'⟩ := h'
  refine ⟨σ * τ, hσ.mul hτ, ?_, ?_⟩
  . intro i
    rw [hf', hf]
    rfl
  . intro i j hij hji
    rw [Equiv.Perm.mul_apply, Equiv.Perm.mul_apply] at hji
    rcases lt_trichotomy (τ i) (τ j) with hτij | hτij | hτji
    . rw [hf', hf']
      exact hlt _ _ hτij hji
    . rw [hτij] at hji
      omega
    . exact hlt' i j hij hτji

theorem swap {k : Int} (hk : a < k ∧ k ≤ b) (hlt : lt (f k) (f (k - 1)))
    : StablyRearranged lt a b f
        (update (update f k (f (k - 1))) (k - 1) (f k)) := by
  refine ⟨Equiv.swap (k - 1) k, FixesOutside.swap (by omega) (by omega), ?_, ?_⟩
  . intro i
    by_cases hi : i = k - 1
    . subst hi
      rw [update_self, Equiv.swap_apply_left]
    . rw [update_of_ne hi]
      by_cases hi' : i = k
      . subst hi'
        rw [update_self, Equiv.swap_apply_right]
      . rw [update_of_ne hi', Equiv.swap_apply_of_ne_of_ne hi hi']
  . intro i j hij hji
    rw [Equiv.swap_apply_def, Equiv.swap_apply_def] at hji
    have hi : i = k - 1 := by
      grind
    have hj : j = k := by
      grind
    subst hi hj
    rw [update_self, update_of_ne (by omega), update_self]
    exact hlt

theorem moveLeft {k' k : Int} (hk : k' ≤ k) (hself : f' k' = f k)
    (hmoved : ∀ i, k' < i → i ≤ k → f' i = f (i - 1))
    (houtside : ∀ i, i < k' ∨ k < i → f' i = f i)
    (hlt : ∀ i, k' ≤ i → i < k → lt (f k) (f i)) : StablyRearranged lt k' k f f' := by
  induction hn : (k - k').toNat generalizing k f with
  | zero =>
    obtain rfl : k' = k := by
      omega
    have hff' : f' = f := by
      funext i
      by_cases hi : i = k'
      . rw [hi, hself]
      . exact houtside i (by omega)
    rw [hff']
    exact refl _ _ _
  | succ n ih =>
    have hswap : StablyRearranged lt k' k f _ := swap (by omega) (hlt (k - 1) (by omega) (by omega))
    apply hswap.trans
    apply StablyRearranged.mono _ (Int.le_refl k') (by omega : k - 1 ≤ k)
    apply ih (by omega)
    . rw [update_self, hself]
    . intro i hki hik
      rw [hmoved i hki (by omega), update_of_ne (by omega),
        update_of_ne (by omega)]
    . intro i hi
      by_cases hik : i = k
      . subst hik
        rw [hmoved i (by omega) (by omega), update_of_ne (by omega), update_self]
      . rw [houtside i (by omega), update_of_ne (by omega), update_of_ne hik]
    . intro i hki hik
      rw [update_self, update_of_ne (by omega), update_of_ne (by omega)]
      exact hlt i hki (by omega)
    . omega

end StablyRearranged

theorem SortedOn.append {lt : L → L → Prop} {a b p : Int} {f : Int → L}
    (hleft : SortedOn lt a (p - 1) f) (hright : SortedOn lt p b f)
    (hsplit : ∀ i j, a ≤ i → i < p → p ≤ j → j ≤ b → ¬lt (f j) (f i))
    : SortedOn lt a b f := by
  intro i j hai hij hjb
  by_cases hip : i < p
  . by_cases hjp : j < p
    . exact hleft i j hai hij (by omega)
    . exact hsplit i j hai hip (by omega) hjb
  . exact hright i j (by omega) hij hjb

theorem SortedOn.congr {lt : L → L → Prop} {a b : Int} {f f' : Int → L} (h : SortedOn lt a b f)
    (heq : ∀ i, a ≤ i → i ≤ b → f' i = f i) : SortedOn lt a b f' := by
  intro i j hai hij hjb
  rw [heq i hai (by omega), heq j (by omega) hjb]
  exact h i j hai hij hjb

end Rearrange

structure SortMacros.Lawful {S L B : Type} (m : SortMacros S L B) (len : Int)
    (Rep : S → (Int → L) → Prop) (BufRep : B → Int → (Int → L) → Prop) (ans : L → L → Bool → Prop)
    : Prop where
  lenList : ∀ {s f}, Rep s f → m.lenList s = len
  assListToLocal : ∀ {s f i}, Rep s f → 1 ≤ i → i ≤ len → m.assListToLocal s i = .ok (f i)
  assLocalToList : ∀ {s f i} t, Rep s f → 1 ≤ i → i ≤ len →
    ∃ s', m.assLocalToList s i t = .ok s' ∧ Rep s' (Function.update f i t)
  compCheckEq : ∀ {s f} a b, Rep s f →
    Rep (m.compCheckEq s a b).2 f ∧ ans a b (m.compCheckEq s a b).1
  createTempBuffer : ∀ g, BufRep (m.createTempBuffer len) 0 g
  assLocalToBuf : ∀ {buf n g} t, BufRep buf n g → 0 ≤ n → n < len →
    ∃ buf', m.assLocalToBuf buf (n + 1) t = .ok buf' ∧
      BufRep buf' (n + 1) (Function.update g (n + 1) t)
  assBufToLocal : ∀ {buf n g i}, BufRep buf n g → 1 ≤ i → i ≤ n → m.assBufToLocal buf i = .ok (g i)
  reuse : ∀ {buf n g}, BufRep buf n g → BufRep buf 0 g

def Less {L : Type} (ans : L → L → Bool → Prop) (a b : L) : Prop :=
  ans a b true

structure DecidesOrder {L : Type} (ans : L → L → Bool → Prop) : Prop where
  not_less : ∀ {a b}, ans a b false → ¬Less ans a b
  asymm : ∀ {a b}, Less ans a b → ¬Less ans b a
  trans_not : ∀ {a b x}, ¬Less ans a b → ¬Less ans b x → ¬Less ans a x

theorem DecidesOrder.of_strictWeakOrder {L : Type} (lt : L → L → Prop) [IsStrictWeakOrder L lt]
    {ans : L → L → Bool → Prop} (htrue : ∀ a b, ans a b true ↔ lt a b)
    (hfalse : ∀ a b, ans a b false → ¬lt a b) : DecidesOrder ans where
  not_less := by
    intro a b hab
    unfold Less
    rw [htrue]
    exact hfalse a b hab
  asymm := by
    intro a b hab hba
    unfold Less at hab hba
    rw [htrue] at hab hba
    exact irrefl_of lt a (trans_of lt hab hba)
  trans_not := by
    intro a b x hab hbx hax
    unfold Less at hab hbx hax
    rw [htrue] at hab hbx hax
    have hba : ¬lt b a := by
      intro hba
      exact hbx (trans_of lt hba hax)
    have hxb : ¬lt x b := by
      intro hxb
      exact hab (trans_of lt hax hxb)
    exact (IsStrictWeakOrder.incomp_trans a b x ⟨hab, hba⟩ ⟨hbx, hxb⟩).1 hax
