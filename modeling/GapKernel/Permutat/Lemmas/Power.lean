import GapKernel.Integer.Lemmas.Division
import GapKernel.Permutat.Lemmas.Cycle
import GapKernel.Permutat.Lemmas.Compare

open PermList PermImpl Function Equiv.Perm Integer List

variable {w : IntSize} {T : PermTnum} {pt : List Nat} {σ τ α β : Equiv.Perm Nat}

structure IsStored (n : Nat) (α β : Equiv.Perm Nat) (S : Nat → Prop) (pt : List Nat) : Prop where
  length_eq : pt.length = n
  getElem?_eq : ∀ x, S x → pt[α x]? = some (β x)

structure Stores (w : IntSize) (T : PermTnum) (n : Nat) (τ α β : Equiv.Perm Nat)
    (store : List Nat → Nat → Nat → Result (List Nat)) : Prop extends IsFill w T n α β where
  store_eq : ∀ ptP x, store ptP x (τ x) = writeEntry T ptP (α x) (β x)

theorem Stores.spec {n : Nat} {store : List Nat → Nat → Nat → Result (List Nat)} {S : Nat → Prop}
    {ptP : List Nat} (c : Stores w T n τ α β store) (h : IsStored n α β S ptP) {x : Nat}
    (hx : x < n)
    : ∃ ptP', store ptP x (τ x) = .ok ptP' ∧ IsStored n α β (fun y => S y ∨ y = x) ptP' := by
  have hlen := h.length_eq
  have hα := apply_lt c.idx_fix hx
  have hβ := apply_lt c.val_fix hx
  have hdeg := c.deg_le
  have hbits := PermTnum.maxDeg_le w T
  refine ⟨ptP.set (α x) (β x), ?_, ?_⟩
  . rw [c.store_eq]
    unfold writeEntry PermTnum.cast
    rw [if_pos (by omega), Nat.mod_eq_of_lt (by omega)]
    rfl
  . constructor
    . rw [length_set, hlen]
    . intro y hy
      rw [getElem?_set]
      split
      . next heq =>
        rw [if_pos (by omega), α.injective heq]
      . next hne =>
        cases hy with
        | inl hy => apply h.getElem?_eq y hy
        | inr hy => exact absurd (by rw [hy]) hne

theorem IsStored.congr {n : Nat} {S S' : Nat → Prop} {ptP : List Nat} (h : IsStored n α β S ptP)
    (hS : ∀ x, S' x → S x)
    : IsStored n α β S' ptP :=
  ⟨h.length_eq, fun x hx => h.getElem?_eq x (hS x hx)⟩

section Raise

variable {store : List Nat → Nat → Nat → Result (List Nat)} {p : Nat} {S : Nat → Prop}

structure IsRaising (n : Nat) (σ τ α β : Equiv.Perm Nat) (p : Nat) (S : Nat → Prop) (j : Nat)
    (s : List Nat × Nat) : Prop where
  next_eq : s.2 = τ (σ^[j] p)
  isStored : IsStored n α β (fun x => S x ∨ ∃ i, i < j ∧ σ^[i] p = x) s.1

section

variable (hacts : Acts pt σ) (c : Stores w T pt.length τ α β store) (hcomm : Function.Commute σ τ)
  (hτ : ∀ x, x < pt.length → τ x < pt.length) (hp : p < pt.length)

include hacts c hcomm hτ hp

theorem IsRaising.succ {j : Nat} {s : List Nat × Nat} (h : IsRaising pt.length σ τ α β p S j s)
    : ∃ s', storeNext pt store (σ^[j] p) s = .ok s'
        ∧ IsRaising pt.length σ τ α β p S (j + 1) s' := by
  have hj : σ^[j] p < pt.length := iterate_lt (fun _ hi => hacts.fix hi) hp j
  unfold storeNext
  rw [h.next_eq]
  apply exists_bind_of (c.spec h.isStored hj)
  intro ptP hptP
  rw [readEntry_eq hacts (hτ _ hj), ok_bind]
  refine ⟨_, rfl, ?_, ?_⟩
  . dsimp only
    rw [iterate_succ_apply', hcomm]
  . apply hptP.congr
    intro x hx
    cases hx with
    | inl hx =>
      left
      left
      exact hx
    | inr hx =>
      rcases hx with ⟨i, hi⟩
      by_cases heq : i = j
      . right
        rw [← hi.2, heq]
      . left
        right
        exact ⟨i, by omega, hi.2⟩

theorem raiseCycle_spec {exp : Nat} (hexp : σ^[exp] p = τ p) {ptP : List Nat}
    (h : IsStored pt.length α β S ptP)
    : ∃ ptP', raiseCycle pt store exp p ptP = .ok ptP'
        ∧ IsStored pt.length α β (fun x => S x ∨ SameCycle σ p x) ptP' := by
  have hfix : ∀ i, pt.length ≤ i → σ i = i := fun i hi => hacts.fix hi
  unfold raiseCycle
  rw [repeatMap_eq hacts hp, ok_bind, hexp]
  apply exists_bind_of (c.spec h hp)
  intro ptP₁ h₁
  rw [readEntry_eq hacts (hτ p hp), ok_bind, readEntry_eq hacts hp, ok_bind]
  have hstart : IsRaising pt.length σ τ α β p S 1 (ptP₁, σ (τ p)) := by
    constructor
    . apply hcomm
    . apply h₁.congr
      intro x hx
      cases hx with
      | inl hx => exact Or.inl hx
      | inr hx =>
        rcases hx with ⟨i, hi⟩
        right
        rw [← hi.2, show i = 0 by omega]
        rfl
  apply exists_bind_of (cycleLoop_spec hacts hp (IsRaising pt.length σ τ α β p S)
    (fun j s _ _ hs => hs.succ hacts c hcomm hτ hp) hstart)
  intro s hs
  refine ⟨s.1, rfl, hs.isStored.congr ?_⟩
  intro x hx
  rw [← sameCycle_iff hfix]
  exact hx

end

structure IsRaised (n : Nat) (σ α β : Equiv.Perm Nat) (p : Nat) (s : List Nat × List Nat)
    : Prop where
  isKnown : IsKnown σ n p s.1
  isStored : IsStored n α β (IsMet σ p) s.2

variable (hacts : Acts pt σ) (c : Stores w T pt.length τ α β store) (hcomm : Function.Commute σ τ)
  (hτ : ∀ x, x < pt.length → τ x < pt.length) {expOf : Nat → Result Nat}
  (hexp : ∀ x, x < pt.length → ∃ e, expOf (minimalPeriod σ x) = .ok e ∧ σ^[e] x = τ x)

include hacts c hcomm hτ hexp

theorem raiseCycles_round (hp : p < pt.length) {s : List Nat × List Nat}
    (h : IsRaised pt.length σ α β p s)
    : ∃ s', raiseCycles.round pt store expOf p s = .ok s'
        ∧ IsRaised pt.length σ α β (p + 1) s' := by
  unfold raiseCycles.round
  rcases h.isKnown.readEntry_known hp with ⟨v, hv⟩
  rw [hv.1, ok_bind]
  split
  . rcases cycleLength_spec hacts h.isKnown hp with ⟨known, hknown⟩
    rw [hknown.1, ok_bind]
    dsimp only
    rcases hexp p hp with ⟨e, he⟩
    rw [he.1, ok_bind]
    apply exists_bind_of (raiseCycle_spec hacts c hcomm hτ hp he.2 h.isStored)
    intro ptP hptP
    refine ⟨_, rfl, hknown.2, hptP.congr ?_⟩
    intro x hx
    exact isMet_succ.mp hx
  . next hne =>
    have hmet : IsMet σ p p := by
      by_contra hmet
      exact hne (hv.2.mpr hmet)
    refine ⟨s, rfl, h.isKnown.skip hmet, h.isStored.congr ?_⟩
    intro x hx
    cases isMet_succ.mp hx with
    | inl hx => exact hx
    | inr hx => exact (isMet_of_sameCycle hx).mp hmet

theorem raiseCycles_spec
    : ∃ ptP, raiseCycles pt store expOf (replicate pt.length 0) = .ok ptP
        ∧ IsFilled pt.length α β pt.length ptP := by
  have hstart : IsRaised pt.length σ α β 0
      (replicate pt.length 0, replicate pt.length 0) := by
    constructor
    . apply isKnown_replicate
    . constructor
      . simp
      . intro x hx
        cases hx with
        | intro p' hp' => omega
  unfold raiseCycles
  apply exists_bind_of
  . apply forLoop_spec (IsRaised pt.length σ α β) _ hstart
    intro p s _ hp hs
    apply raiseCycles_round hacts c hcomm hτ hexp (by omega) hs
  . intro s hs
    refine ⟨s.2, rfl, hs.isStored.length_eq, ?_⟩
    intro p hp
    apply hs.isStored.getElem?_eq
    apply isMet_of_lt
    omega

end Raise

section Exponents

variable {n : Nat}

theorem zpow_fix (hσ : ∀ i, n ≤ i → σ i = i) (x : Int) (i : Nat) (hi : n ≤ i) : (σ ^ x) i = i :=
  zpow_apply_eq_self_of_apply_eq_self (hσ i hi) x

theorem commute_zpow (σ : Equiv.Perm Nat) (x : Int)
    : Function.Commute σ (σ ^ x : Equiv.Perm Nat) := by
  intro i
  rw [← Equiv.Perm.mul_apply, ← Equiv.Perm.mul_apply, (Commute.self_zpow σ x).eq]

variable {x : Int}

theorem iterate_toNat (hx : 0 ≤ x) (σ : Equiv.Perm Nat) (i : Nat)
    : σ^[x.toNat] i = (σ ^ x) i := by
  rw [iterate_eq_pow, ← zpow_natCast, Int.toNat_of_nonneg hx]

theorem iterate_toNat_emod (hσ : ∀ i, n ≤ i → σ i = i) (x : Int) (i : Nat)
    : σ^[(x % minimalPeriod σ i).toNat] i = (σ ^ x) i := by
  rcases zpow_apply_eq_iterate hσ x i with ⟨j, hj⟩
  rw [hj.2.1, ← hj.2.2]
  rfl

theorem iterate_toNat_mod (hx : 0 ≤ x) (σ : Equiv.Perm Nat) (i : Nat)
    : σ^[x.toNat % minimalPeriod σ i] i = (σ ^ x) i := by
  rw [iterate_mod_minimalPeriod_eq, iterate_toNat hx]

theorem PermTnum.isSmall_of_le {len : Nat} (h : len ≤ T.maxDeg w) : w.IsSmall len := by
  rw [isSmall_iff_lt]
  cases w <;> cases T <;>
    simp [PermTnum.maxDeg, PermTnum.maxDegPerm4, IntSize.minusIntobjMin, IntSize.nrSmallIntBits,
      IntSize.bits] at h ⊢ <;> omega

theorem modLength_eq (P : Platform w) {opR : IntegerObj} (hR : Represents w opR x) {len : Nat}
    (hpos : 0 < len) (hle : len ≤ T.maxDeg w)
    : modLength P opR len = .ok (x % len).toNat := by
  have hlen : (len : Int) ≠ 0 := by omega
  have hnonneg := Int.emod_nonneg x hlen
  have hlt := Int.emod_lt_of_pos x (show (0 : Int) < len by omega)
  have hsmall : w.IsSmall (x % len) := by
    have hsmall := PermTnum.isSmall_of_le hle
    rw [isSmall_iff_lt] at hsmall ⊢
    omega
  rcases returns_modInt P hR (represents_INTOBJ_INT (PermTnum.isSmall_of_le hle)) hlen with
      ⟨op, hop⟩
  unfold modLength
  rw [hop.1, ok_bind, hop.2.unique (represents_intobj hsmall)]
  dsimp only
  rw [INT_INTOBJ_eq]
  rfl

end Exponents

section Entries

theorem isFill_zpow (hacts : Acts pt σ) (hdeg : pt.length ≤ T.maxDeg w) (x : Int)
    : IsFill w T pt.length 1 (σ ^ x) :=
  ⟨fun _ _ => rfl, zpow_fix (fun _ hi => hacts.fix hi) x, hdeg⟩

theorem isFill_zpow_one (hacts : Acts pt σ) (hdeg : pt.length ≤ T.maxDeg w) (x : Int)
    : IsFill w T pt.length (σ ^ x) 1 :=
  ⟨zpow_fix (fun _ hi => hacts.fix hi) x, fun _ _ => rfl, hdeg⟩

theorem acts_of_isFilled {n : Nat} {ptP : List Nat} {τ : Equiv.Perm Nat} (c : IsFill w T n α β)
    (h : IsFilled n α β n ptP) (heq : α.symm.trans β = τ)
    : ptP.length = n ∧ Acts ptP τ := by
  rw [← heq]
  exact ⟨h.length_eq, acts_of_getElem? h.length_eq h.getElem?_eq c.idx_fix c.val_fix⟩

def HasPower (pt : List Nat) (σ : Equiv.Perm Nat) (x : Int) (res : Result (List Nat)) : Prop :=
  ∃ ptP, res = .ok ptP ∧ ptP.length = pt.length ∧ Acts ptP (σ ^ x)

variable {x : Int}

section

variable (hacts : Acts pt σ) (hdeg : pt.length ≤ T.maxDeg w)

include hacts hdeg

theorem hasPower_images (hx : 0 ≤ x)
    : HasPower pt σ x (scatter T 0 pt.length pure (fun p => repeatMap pt x.toNat p)
        (replicate pt.length 0)) := by
  have c : IsFill w T pt.length 1 (σ ^ x) := isFill_zpow hacts hdeg x
  have hval : ∀ p, 0 ≤ p → p < pt.length → repeatMap pt x.toNat p = .ok ((σ ^ x) p) := by
    intro p _ hp
    rw [repeatMap_eq hacts hp, iterate_toNat hx]
  cases c.exists_scatter (isFilled_replicate _ _ _) (Nat.zero_le _) (Nat.le_refl _)
    (fun _ _ _ => rfl) hval with
  | intro ptP h => exact ⟨ptP, h.1, acts_of_isFilled c h.2 rfl⟩

theorem hasPower_preimages (hx : x ≤ 0)
    : HasPower pt σ x (scatter T 0 pt.length (fun p => repeatMap pt (-x).toNat p) pure
        (replicate pt.length 0)) := by
  have c : IsFill w T pt.length (σ ^ (-x)) 1 := isFill_zpow_one hacts hdeg (-x)
  have hidx : ∀ p, 0 ≤ p → p < pt.length → repeatMap pt (-x).toNat p = .ok ((σ ^ (-x)) p) := by
    intro p _ hp
    rw [repeatMap_eq hacts hp, iterate_toNat (by omega)]
  rcases c.exists_scatter (isFilled_replicate _ _ _) (Nat.zero_le _) (Nat.le_refl _) hidx
    (fun _ _ _ => rfl) with ⟨ptP, h⟩
  refine ⟨ptP, h.1, acts_of_isFilled c h.2 ?_⟩
  rw [zpow_neg]
  rfl

theorem hasPower_raiseImages {expOf : Nat → Result Nat}
    (hexp : ∀ p, p < pt.length → ∃ e, expOf (minimalPeriod σ p) = .ok e ∧ σ^[e] p = (σ ^ x) p)
    : HasPower pt σ x (raiseCycles pt (fun ptP q r => writeEntry T ptP q r) expOf
        (replicate pt.length 0)) := by
  have c : Stores w T pt.length (σ ^ x) 1 (σ ^ x) (fun ptP q r => writeEntry T ptP q r) :=
    ⟨isFill_zpow hacts hdeg x, fun _ _ => rfl⟩
  cases raiseCycles_spec hacts c (commute_zpow σ x) (fun p hp => apply_lt c.val_fix hp) hexp with
  | intro ptP h => exact ⟨ptP, h.1, acts_of_isFilled c.toIsFill h.2 rfl⟩

theorem hasPower_raisePreimages {expOf : Nat → Result Nat}
    (hexp : ∀ p, p < pt.length → ∃ e, expOf (minimalPeriod σ p) = .ok e ∧ σ^[e] p = (σ ^ (-x)) p)
    : HasPower pt σ x (raiseCycles pt (fun ptP q r => writeEntry T ptP r q) expOf
        (replicate pt.length 0)) := by
  have c : Stores w T pt.length (σ ^ (-x)) (σ ^ (-x)) 1 (fun ptP q r => writeEntry T ptP r q) :=
    ⟨isFill_zpow_one hacts hdeg (-x), fun _ _ => rfl⟩
  rcases raiseCycles_spec hacts c (commute_zpow σ (-x)) (fun p hp => apply_lt c.idx_fix hp)
    hexp with ⟨ptP, h⟩
  refine ⟨ptP, h.1, acts_of_isFilled c.toIsFill h.2 ?_⟩
  rw [zpow_neg]
  rfl

end

theorem hasPower_powEntries (P : Platform w) (hacts : Acts pt σ) (hdeg : pt.length ≤ T.maxDeg w)
    {opR : IntegerObj} (hR : Represents w opR x) (hzero : x ≠ 0) (hone : x ≠ 1)
    : HasPower pt σ x (powEntries P T pt opR) := by
  have hfix : ∀ i, pt.length ≤ i → σ i = i := fun i hi => hacts.fix hi
  have hlen : ∀ p, p < pt.length
      → 0 < minimalPeriod σ p ∧ minimalPeriod σ p ≤ T.maxDeg w := by
    intro p hp
    exact ⟨minimalPeriod_pos hfix p, (minimalPeriod_le hfix hp).trans hdeg⟩
  unfold powEntries
  cases opR with
  | intobj o =>
    have hval : INT_INTOBJ o = x := hR.2
    dsimp only
    rw [hval]
    split
    . apply hasPower_images hacts hdeg
      omega
    . split
      . apply hasPower_raiseImages hacts hdeg
        intro p _
        exact ⟨_, rfl, iterate_toNat_mod (by omega) σ p⟩
      . split
        . apply hasPower_preimages hacts hdeg
          omega
        . split
          . apply hasPower_raisePreimages hacts hdeg
            intro p _
            exact ⟨_, rfl, iterate_toNat_mod (by omega) σ p⟩
          . omega
  | intpos limbs =>
    apply hasPower_raiseImages hacts hdeg
    intro p hp
    exact ⟨_, modLength_eq P hR (hlen p hp).1 (hlen p hp).2, iterate_toNat_emod hfix x p⟩
  | intneg limbs =>
    apply hasPower_raisePreimages hacts hdeg
    intro p hp
    refine ⟨_, ?_, iterate_toNat_emod hfix (-x) p⟩
    have hmod := modLength_eq P (represents_aInvInt hR) (hlen p hp).1 (hlen p hp).2
    have hlt := Int.emod_lt_of_pos (-x) (show (0 : Int) < minimalPeriod σ p by
      have := (hlen p hp).1
      omega)
    rw [hmod, ok_bind, Nat.mod_eq_of_lt]
    . rfl
    . have := (hlen p hp).1
      omega

end Entries

namespace PermOps

variable {h : PermHeap} {ρ : Nat → Equiv.Perm Nat}

theorem powPermInt_computes (P : Platform w) (hheap : IsPermHeap w h ρ) {f : Nat} {bag : PermBag}
    (hf : h.bags[f]? = some bag) {n : IntegerObj} {x : Int} (hn : Represents w n x)
    : Computes w h ρ (powPermInt P h f n) (ρ f ^ x) := by
  have hperm := hheap.isPermBag f bag hf
  unfold powPermInt
  rw [bag_eq hf, ok_bind]
  unfold PermImpl.powPermInt
  have hzero := hn.eq_INTOBJ_INT_iff (isSmall_zero w)
  have hone := hn.eq_INTOBJ_INT_iff (isSmall_one w)
  have hminusOne := hn.eq_INTOBJ_INT_iff (isSmall_minusOne w)
  split
  . next heq =>
    rw [hzero.mp heq, zpow_zero]
    apply Computes.identityPerm hheap
  . split
    . next heq =>
      rw [hone.mp heq, zpow_one]
      apply Computes.of_bag hheap hf
    . split
      . next heq =>
        rw [hminusOne.mp heq, zpow_neg_one]
        apply Computes.invPerm hheap hf
      . rw [constAddrPerm_eq hf, ok_bind]
        split
        . next hdeg =>
          rw [hperm.acts.eq_one hdeg, one_zpow]
          apply Computes.identityPerm hheap
        . next hne₀ hne₁ _ _ =>
          rcases hasPower_powEntries P hperm.acts hperm.deg_le hn (fun hx => hne₀ (hzero.mpr hx))
            (fun hx => hne₁ (hone.mpr hx)) with ⟨ptP, hptP⟩
          rw [hptP.1, ok_bind]
          apply Computes.newPerm hheap bag.tnum hptP.2.2
          rw [hptP.2.1]
          apply hperm.deg_le

def powerLaw (P : Platform w) (h : PermHeap) (f : Nat) (m n : IntegerObj) : Result Bool := do
  let (h, fm) ← powPermInt P h f m
  let (h, fn) ← powPermInt P h f n
  let (h, fmn) ← prod h fm fn
  let (h, pow) ← powPermInt P h f (sumInt P m n)
  eq h fmn pow

theorem powerLaw_eq (P : Platform w) (hheap : IsPermHeap w h ρ) {f : Nat}
    (hf : f < h.bags.length) {m n : IntegerObj} {x y : Int} (hm : Represents w m x)
    (hn : Represents w n y)
    : powerLaw P h f m n = .ok true := by
  obtain ⟨h₁, fm, ρ₁, heq₁, hheap₁, hext₁, hfm₁, hρfm₁⟩ :=
    (powPermInt_computes P hheap (getElem?_eq_getElem hf) hm).exists_perm
  obtain ⟨hf₁, hρf₁⟩ := hext₁.perm_eq hf
  obtain ⟨h₂, fn, ρ₂, heq₂, hheap₂, hext₂, hfn₂, hρfn₂⟩ :=
    (powPermInt_computes P hheap₁ (getElem?_eq_getElem hf₁) hn).exists_perm
  obtain ⟨hf₂, hρf₂⟩ := hext₂.perm_eq hf₁
  obtain ⟨hfm₂, hρfm₂⟩ := hext₂.perm_eq hfm₁
  obtain ⟨h₃, fmn, ρ₃, heq₃, hheap₃, hext₃, hfmn₃, hρfmn₃⟩ :=
    (correct hheap₂ hfm₂ hfn₂).prod.exists_perm
  obtain ⟨hf₃, hρf₃⟩ := hext₃.perm_eq hf₂
  obtain ⟨h₄, pow, ρ₄, heq₄, hheap₄, hext₄, hpow₄, hρpow₄⟩ :=
    (powPermInt_computes P hheap₃ (getElem?_eq_getElem hf₃)
      (represents_sumInt P hm hn)).exists_perm
  obtain ⟨hfmn₄, hρfmn₄⟩ := hext₄.perm_eq hfmn₃
  obtain ⟨res, heq, hiff⟩ := (correct hheap₄ hfmn₄ hpow₄).eq
  have hres : res = true := by
    rw [hiff, hρfmn₄, hρfmn₃, hρpow₄, hρf₃, hρf₂, hρf₁, hρfn₂, hρfm₂, hρfm₁, hρf₁]
    rw [← Equiv.Perm.mul_def, ← zpow_add, add_comm]
  unfold powerLaw
  rw [heq₁, ok_bind]
  dsimp only
  rw [heq₂, ok_bind]
  dsimp only
  rw [heq₃, ok_bind]
  dsimp only
  rw [heq₄, ok_bind]
  dsimp only
  rw [heq, hres]

/--
The power of a permutation is the power in the group of permutations for every integer object, so
that the laws of powers hold across the branches.
-/
theorem powPermInt_spec (P : Platform w) (hheap : IsPermHeap w h ρ) {f : Nat}
    (hf : f < h.bags.length)
    : (∀ n, IsCanonical w n → Computes w h ρ (powPermInt P h f n) (ρ f ^ val w n))
        ∧ ∀ m n, IsCanonical w m → IsCanonical w n → powerLaw P h f m n = .ok true := by
  constructor
  . intro n hn
    apply powPermInt_computes P hheap (List.getElem?_eq_getElem hf) ⟨hn, rfl⟩
  . intro m n hm hn
    apply powerLaw_eq P hheap hf ⟨hm, rfl⟩ ⟨hn, rfl⟩

def examplePlatform : Platform .int8 :=
  { valueGmp .int8 with haveBuiltinMulOverflow := true }

theorem powPermInt_spec_exampleHeap
    : (∀ n, IsCanonical .int8 n
          → Computes .int8 exampleHeap exampleAction (powPermInt examplePlatform exampleHeap 2 n)
              (exampleAction 2 ^ val .int8 n))
        ∧ ∀ m n, IsCanonical .int8 m → IsCanonical .int8 n
          → powerLaw examplePlatform exampleHeap 2 m n = .ok true :=
  powPermInt_spec examplePlatform isPermHeap_exampleHeap (by decide)

end PermOps
