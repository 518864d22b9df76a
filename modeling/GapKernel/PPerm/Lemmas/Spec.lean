import GapKernel.PPerm.Lemmas.Compare
import GapKernel.PPerm.Lemmas.Conjugate

open PartialBijection List

namespace PPermOps

structure Correct (w : IntSize) (o : ByteOrder) (hashkeyMem : List Nat → Nat → Int) (f g : PPermBag)
    (φ γ : Nat ≃. Nat) (p : PermBag) (σ : Equiv.Perm Nat) : Prop where
  prod : ∃ h, prod f g = .ok h ∧ IsPPermBag h (φ.trans γ)
  prodPerm : ∃ h, prodPerm f p = .ok h ∧ IsPPermBag h (φ.trans σ.toPEquiv)
  permProd : ∃ h, permProd p f = .ok h ∧ IsPPermBag h (σ.toPEquiv.trans φ)
  quo : ∃ h, quo f g = .ok h ∧ IsPPermBag h (φ.trans γ.symm)
  lquo : ∃ h, lquo f g = .ok h ∧ IsPPermBag h (φ.symm.trans γ)
  permLquo : ∃ h, permLquo p f = .ok h ∧ IsPPermBag h (σ.toPEquiv.symm.trans φ)
  inv : ∃ h, inv f = .ok h ∧ IsPPermBag h φ.symm
  inv' : ∃ h, PPermOps.inv g = .ok h ∧ IsPPermBag h γ.symm
  powPerm : ∃ f' h, powPerm f p = .ok (f', h) ∧ IsPPermBag f' φ
    ∧ IsPPermBag h (σ.toPEquiv.symm.trans (φ.trans σ.toPEquiv))
  pow : ∃ h, pow f g = .ok h ∧ IsPPermBag h (γ.symm.trans (φ.trans γ))
  eq : ∃ b, eq f g = .ok b ∧ (b = true ↔ φ = γ)
  lt : ∃ b, lt f g = .ok b ∧ (b = true ↔ KeyLt φ γ)
  order : IsStrictTotalOrder (Nat ≃. Nat) KeyLt
  hash : ∃ f', IsPPermBag f' φ ∧ PPermImpl.hashFuncForPPerm w o hashkeyMem f = (do
    let k ← ppermHash w o hashkeyMem φ f.entries.length f.codeg
    return (f', k))

/--
A bag with 16 bits is multiplied by a permutation with 32 bits only if its images are not larger
than the degree of the permutation. If a bag with 32 bits is multiplied by a permutation with 16
bits, the largest image of the product is the one of the bag.
-/
def HasRightProduct (f : PPermBag) (φ : Nat ≃. Nat) (p : PermBag) (σ : Equiv.Perm Nat) : Prop :=
  match f.tnum, p.tnum with
  | .pperm2, .perm4 => f.codeg ≤ p.entries.length
  | .pperm4, .perm2 => IsDegree (φ.trans σ.toPEquiv).symm f.codeg
  | _, _ => True

section Spec

variable {w : IntSize} {f g : PPermBag} {φ γ : Nat ≃. Nat} {p : PermBag} {σ : Equiv.Perm Nat}

theorem prodPerm_iff (hf : IsPPermBag f φ) (hp : IsPermBag w p σ)
    : (∃ h, prodPerm f p = .ok h ∧ IsPPermBag h (φ.trans σ.toPEquiv))
      ↔ HasRightProduct f φ p σ := by
  unfold prodPerm HasRightProduct
  cases hf' : f.tnum with
  | pperm2 =>
    cases hp' : p.tnum with
    | perm2 =>
      refine ⟨fun _ => trivial, fun _ => ?_⟩
      apply prodPPerm2Perm2_spec hf hp hf' hp'
    | perm4 => apply prodPPerm2Perm4_iff hf hp hf' hp'
  | pperm4 =>
    cases hp' : p.tnum with
    | perm2 => apply prodPPerm4Perm2_iff hf hp hf' hp'
    | perm4 =>
      refine ⟨fun _ => trivial, fun _ => ?_⟩
      apply prodPPerm4Perm4_spec hf hp hf' hp'

end Spec

theorem isPPermBag_single (T : PermTnum) (i v : Nat) (hv : v + 1 < 2 ^ T.bits)
    : IsPPermBag (PPermImpl.newPPerm T (replicate i 0 ++ [v + 1]) (v + 1))
        (PEquiv.single i v) := by
  have hsome : PEquiv.single i v i = some v := PEquiv.single_apply i v
  have hnone : ∀ k, k ≠ i → PEquiv.single i v k = none := by
    intro k hk
    apply PEquiv.single_apply_of_ne
    exact fun h => hk h.symm
  apply isPPermBag_newPPerm _ _ _ hv
  . intro k
    rw [getD_eq_getElem?_getD]
    by_cases hk : k < i
    . rw [hnone k (by omega)]
      rw [getElem?_append_left (by rw [length_replicate]; exact hk)]
      rw [getElem?_replicate_of_lt hk]
      rfl
    . rw [getElem?_append_right (by rw [length_replicate]; omega)]
      rw [length_replicate]
      by_cases hki : k = i
      . rw [hki]
        rw [hsome]
        rw [Nat.sub_self]
        rfl
      . rw [hnone k hki]
        rw [getElem?_eq_none (by rw [length_singleton]; omega)]
        rfl
  . have hlen : (replicate i 0 ++ [v + 1]).length = i + 1 := by simp
    rw [hlen]
    constructor
    . intro k u hu
      by_contra hge
      rw [hnone k (by omega)] at hu
      contradiction
    . exact Or.inr ⟨v, hsome⟩
  . rw [PEquiv.symm_single]
    constructor
    . intro k u hu
      by_contra hge
      rw [PEquiv.single_apply_of_ne (by omega)] at hu
      contradiction
    . exact Or.inr ⟨i, PEquiv.single_apply v i⟩

def examplePPerm4 : PPermBag :=
  PPermImpl.newPPerm .perm4 [3] 3

def examplePPerm2 : PPermBag :=
  PPermImpl.newPPerm .perm2 [0, 1] 1

def examplePerm2 : PermBag where
  tnum := .perm2
  entries := [1, 0]
  storedInv := none

theorem isPermBag_examplePerm2 : IsPermBag .int8 examplePerm2 (Equiv.swap 0 1) :=
  PermOps.isPermHeap_exampleHeap.isPermBag 1 _ rfl

def exampleOne4 : PPermBag :=
  PPermImpl.newPPerm .perm4 [1] 1

end PPermOps
