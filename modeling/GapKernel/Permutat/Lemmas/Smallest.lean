import GapKernel.LeastGenerator
import GapKernel.Permutat.Lemmas.Power

open PermList PermImpl Function Equiv.Perm Integer Int List Nat

variable {w : IntSize} {T : PermTnum} {pt : List Nat} {σ : Equiv.Perm Nat} {p : Nat}

section Image

theorem gcdLoop_eq (gcd s : Nat) : gcdLoop gcd s = Nat.gcd gcd s := by
  induction s using Nat.strong_induction_on generalizing gcd with
  | h s ih =>
    unfold gcdLoop
    split
    . next hs => rw [hs, Nat.gcd_zero_right]
    . next hs =>
      rw [ih (gcd % s) (mod_lt gcd (Nat.pos_of_ne_zero hs)), Nat.gcd_comm s, Nat.gcd_comm gcd,
        gcd_rec s gcd]

variable {len gcd x : Nat}

def IsPossible (len gcd x l : Nat) : Prop :=
  l % gcd = x ∧ Nat.Coprime l len

structure IsSmallestBelow (σ : Equiv.Perm Nat) (p len gcd x bound l : Nat) (s : SmallestImage)
    : Prop where
  q_eq : s.q = σ^[l] p
  le : ∀ k, k < l → IsPossible len gcd x k → s.min ≤ σ^[k] p
  eq : (∀ k, k < l → ¬IsPossible len gcd x k) ∧ s.min = bound
    ∨ s.n < l ∧ IsPossible len gcd x s.n ∧ σ^[s.n] p = s.min

theorem smallestImage_round (hacts : Acts pt σ) (hp : p < pt.length) {l : Nat} {s : SmallestImage}
    (h : IsSmallestBelow σ p len gcd x (pt.length - 1) l s)
    : ∃ s', smallestImage.round pt len gcd x l s = .ok s'
        ∧ IsSmallestBelow σ p len gcd x (pt.length - 1) (l + 1) s' := by
  have hlt : σ^[l] p < pt.length := iterate_lt (fun _ hi => hacts.fix hi) hp l
  have hgcd : gcdLoop len l = 1 ↔ Nat.Coprime l len := by
    rw [gcdLoop_eq, Nat.gcd_comm]
  have hnext : σ (σ^[l] p) = σ^[l + 1] p := (iterate_succ_apply' σ l p).symm
  unfold smallestImage.round
  dsimp only
  rw [h.q_eq, readEntry_eq hacts hlt, ok_bind, hnext]
  split
  . next hcond =>
    have hpossible : IsPossible len gcd x l := ⟨hcond.1, hgcd.mp hcond.2.1⟩
    refine ⟨_, rfl, rfl, ?_, Or.inr ⟨lt_succ_self l, hpossible, rfl⟩⟩
    intro k hk hpk
    by_cases hkl : k = l
    . rw [hkl]
    . exact hcond.2.2.trans (h.le k (by omega) hpk)
  . next hcond =>
    refine ⟨_, rfl, rfl, ?_, ?_⟩
    . intro k hk hpk
      dsimp only
      by_cases hkl : k = l
      . rw [hkl] at hpk ⊢
        by_contra hle
        exact hcond ⟨hpk.1, hgcd.mpr hpk.2, by omega⟩
      . exact h.le k (by omega) hpk
    . dsimp only
      cases h.eq with
      | inl hnone =>
        left
        refine ⟨?_, hnone.2⟩
        intro k hk hpk
        by_cases hkl : k = l
        . rw [hkl] at hpk
          exact hcond ⟨hpk.1, hgcd.mpr hpk.2, by omega⟩
        . exact hnone.1 k (by omega) hpk
      | inr hsome =>
        right
        exact ⟨by omega, hsome.2⟩

theorem smallestImage_spec (hacts : Acts pt σ) (hp : p < pt.length)
    (hex : ∃ l, l < len ∧ IsPossible len gcd x l)
    : ∃ s, smallestImage pt p len gcd x = .ok s ∧ s.n < len ∧ IsPossible len gcd x s.n
        ∧ σ^[s.n] p = s.min ∧ ∀ l, l < len → IsPossible len gcd x l → s.min ≤ σ^[l] p := by
  have hstart : IsSmallestBelow σ p len gcd x (pt.length - 1) 0
      { q := p, min := pt.length - 1, n := 0 } := by
    refine ⟨rfl, ?_, Or.inl ⟨?_, rfl⟩⟩
    . intro k hk
      omega
    . intro k hk
      omega
  rcases forLoop_spec (IsSmallestBelow σ p len gcd x (pt.length - 1)) (n := len)
    (fun l s _ _ hs => smallestImage_round hacts hp hs) hstart with ⟨s, hs⟩
  have hbelow := hs.2
  rw [Nat.zero_add] at hbelow
  refine ⟨s, hs.1, ?_⟩
  cases hbelow.eq with
  | inl hnone =>
    cases hex with
    | intro l hl => exact absurd hl.2 (hnone.1 l hl.1)
  | inr hsome => exact ⟨hsome.1, hsome.2.1, hsome.2.2, hbelow.le⟩

end Image

section Store

variable {τ : Equiv.Perm Nat} {S : Nat → Prop}

structure IsPutting (n : Nat) (σ τ : Equiv.Perm Nat) (p : Nat) (S : Nat → Prop) (j : Nat)
    (s : List Nat × Nat) : Prop where
  min_eq : ∃ i, j = i + 1 ∧ s.2 = τ (σ^[i] p)
  isStored : IsStored n 1 τ (fun x => S x ∨ ∃ i, i < j ∧ σ^[i] p = x) s.1

theorem stores_writeEntry (hfill : IsFill w T pt.length 1 τ)
    : Stores w T pt.length τ 1 τ (fun ptP q r => writeEntry T ptP q r) :=
  ⟨hfill, fun _ _ => rfl⟩

variable (hacts : Acts pt σ) (hfill : IsFill w T pt.length 1 τ) (hcomm : Function.Commute σ τ)
  (hp : p < pt.length)

include hacts hfill hcomm hp

theorem IsPutting.succ {j : Nat} {s : List Nat × Nat} (h : IsPutting pt.length σ τ p S j s)
    : ∃ s', storeMin T pt (σ^[j] p) s = .ok s' ∧ IsPutting pt.length σ τ p S (j + 1) s' := by
  have hlt : ∀ i, σ^[i] p < pt.length := fun i => iterate_lt (fun _ hi => hacts.fix hi) hp i
  obtain ⟨i, hi, hmin⟩ := h.min_eq
  unfold storeMin
  rw [hmin, readEntry_eq hacts (apply_lt hfill.val_fix (hlt i)), ok_bind]
  rw [show σ (τ (σ^[i] p)) = τ (σ^[j] p) by rw [hcomm, hi, iterate_succ_apply']]
  apply exists_bind_of ((stores_writeEntry hfill).spec h.isStored (hlt j))
  intro ptSmall hptSmall
  refine ⟨_, rfl, ⟨j, rfl, rfl⟩, hptSmall.congr ?_⟩
  intro x hx
  cases hx with
  | inl hx => exact Or.inl (Or.inl hx)
  | inr hx =>
    obtain ⟨i', hi', heq⟩ := hx
    by_cases hij : i' = j
    . right
      rw [← heq, hij]
    . left
      right
      exact ⟨i', by omega, heq⟩

theorem putCycle_spec {ptSmall : List Nat} (h : IsStored pt.length 1 τ S ptSmall)
    : ∃ ptSmall', putCycle T pt p (τ p) ptSmall = .ok ptSmall'
        ∧ IsStored pt.length 1 τ (fun x => S x ∨ SameCycle σ p x) ptSmall' := by
  have hfix : ∀ i, pt.length ≤ i → σ i = i := fun i hi => hacts.fix hi
  unfold putCycle
  apply exists_bind_of ((stores_writeEntry hfill).spec h hp)
  intro ptSmall₁ h₁
  rw [readEntry_eq hacts hp, ok_bind]
  have hstart : IsPutting pt.length σ τ p S 1 (ptSmall₁, τ p) := by
    refine ⟨⟨0, rfl, rfl⟩, h₁.congr ?_⟩
    intro x hx
    cases hx with
    | inl hx => exact Or.inl hx
    | inr hx =>
      obtain ⟨i, hi, heq⟩ := hx
      right
      rw [← heq, show i = 0 by omega]
      rfl
  apply exists_bind_of (cycleLoop_spec hacts hp (IsPutting pt.length σ τ p S)
    (fun j s _ _ hs => hs.succ hacts hfill hcomm hp) hstart)
  intro s hs
  refine ⟨s.1, rfl, hs.isStored.congr ?_⟩
  intro x hx
  rw [← sameCycle_iff hfix]
  exact hx

end Store

section NewPower

theorem newPower_spec (P : Platform w) {ord pow : IntegerObj} {o k len n : Nat}
    (hord : Represents w ord o) (hpow : Represents w pow k) (hpos : 0 < len)
    (hle : len ≤ T.maxDeg w) {fuel : Nat} (hex : ∃ j, j < fuel ∧ (k + j * o) % len = n)
    : ∃ pow' j, newPower P ord len n fuel pow = .ok pow'
        ∧ Represents w pow' ((k + j * o : Nat) : Int) ∧ (k + j * o) % len = n := by
  induction fuel generalizing k pow with
  | zero =>
    obtain ⟨j, hj, _⟩ := hex
    omega
  | succ fuel ih =>
    unfold newPower
    rw [modLength_eq P hpow hpos hle, ok_bind]
    have hmod : ((k : Int) % len).toNat = k % len := by
      rw [← natCast_mod, toNat_natCast]
    rw [hmod]
    split
    . next hn =>
      refine ⟨pow, 0, rfl, ?_, ?_⟩
      . rw [Nat.zero_mul, Nat.add_zero]
        exact hpow
      . rw [Nat.zero_mul, Nat.add_zero, hn]
    . next hne =>
      have hsum : Represents w (sumInt P pow ord) ((k + o : Nat) : Int) := by
        rw [Nat.cast_add]
        exact represents_sumInt P hpow hord
      have hrest : ∃ j, j < fuel ∧ (k + o + j * o) % len = n := by
        obtain ⟨j, hj, heq⟩ := hex
        cases j with
        | zero =>
          rw [Nat.zero_mul, Nat.add_zero] at heq
          exact absurd heq hne
        | succ j =>
          refine ⟨j, by omega, ?_⟩
          rw [← heq, succ_mul, Nat.add_assoc, Nat.add_comm o]
      obtain ⟨pow', j, heq, hrep, hn⟩ := ih hsum hrest
      refine ⟨pow', j + 1, heq, ?_, ?_⟩
      . rw [succ_mul, Nat.add_comm (j * o), ← Nat.add_assoc]
        exact hrep
      . rw [succ_mul, Nat.add_comm (j * o), ← Nat.add_assoc]
        exact hn

end NewPower

section Round

theorem IsStored.congr_val {n : Nat} {α β β' : Equiv.Perm Nat} {S : Nat → Prop} {ptP : List Nat}
    (h : IsStored n α β S ptP) (heq : ∀ x, S x → β x = β' x)
    : IsStored n α β' S ptP := by
  refine ⟨h.length_eq, ?_⟩
  intro x hx
  rw [h.getElem?_eq x hx, heq x hx]

structure IsSmallestState (w : IntSize) (n : Nat) (σ : Equiv.Perm Nat) (p ord pow : Nat)
    (s : SmallestState) : Prop where
  isKnown : IsKnown σ n p s.ptKnown
  isStored : IsStored n 1 (σ ^ pow) (IsMet σ p) s.ptSmall
  ord_eq : Represents w s.ord ord
  pow_eq : Represents w s.pow pow
  isLeast : IsLeastExponent σ p ord pow

variable {ord pow : Nat} {s : SmallestState}

theorem isSmallestState_start (w : IntSize) (n : Nat) (σ : Equiv.Perm Nat)
    : IsSmallestState w n σ 0 1 0
        { ptKnown := replicate n 0
          ptSmall := replicate n 0
          ord := INTOBJ_INT w 1
          pow := INTOBJ_INT w 0 } := by
  constructor
  . apply isKnown_replicate
  . constructor
    . rw [length_replicate]
    . intro x hx
      cases hx with
      | intro p' hp' => omega
  . exact represents_INTOBJ_INT (isSmall_one w)
  . exact represents_INTOBJ_INT (isSmall_zero w)
  . exact IsLeastExponent.zero σ

theorem IsSmallestState.skip (hacts : Acts pt σ) (h : IsSmallestState w pt.length σ p ord pow s)
    (hmet : IsMet σ p p)
    : IsSmallestState w pt.length σ (p + 1) ord pow s := by
  have hfix : ∀ i, pt.length ≤ i → σ i = i := fun i hi => hacts.fix hi
  constructor
  . exact h.isKnown.skip hmet
  . apply h.isStored.congr
    intro x hx
    cases isMet_succ.mp hx with
    | inl hx => exact hx
    | inr hx => exact (isMet_of_sameCycle hx).mp hmet
  . exact h.ord_eq
  . exact h.pow_eq
  . obtain ⟨p', hp', hsame⟩ := hmet
    exact h.isLeast.skip hfix hp' hsame

-- The smallest image that the loop finds belongs to the exponent that is needed.
theorem isLeastChoice {gcd l : Nat} (hpossible : IsPossible (minimalPeriod σ p) gcd (pow % gcd) l)
    (hgcd : gcd = Nat.gcd (minimalPeriod σ p) ord) (hpos : 0 < minimalPeriod σ p)
    (hle : ∀ k, k < minimalPeriod σ p → IsPossible (minimalPeriod σ p) gcd (pow % gcd) k
      → σ^[l] p ≤ σ^[k] p)
    : IsLeastChoice σ p ord pow l := by
  have hdvd : gcd ∣ minimalPeriod σ p := by
    rw [hgcd]
    apply Nat.gcd_dvd_left
  constructor
  . rw [← hgcd]
    exact hpossible.1
  . exact hpossible.2
  . intro k hmod hcoprime
    rw [← hgcd] at hmod
    rw [← iterate_mod_minimalPeriod_eq (n := k)]
    apply hle _ (mod_lt _ hpos)
    constructor
    . rw [mod_mod_of_dvd _ hdvd]
      exact hmod
    . unfold Nat.Coprime
      rw [(Nat.mod_modEq k _).gcd_eq]
      exact hcoprime

theorem exists_smallestImage (hacts : Acts pt σ) (hp : p < pt.length)
    (h : IsLeastExponent σ p ord pow) {gcd : Nat} (hgcd : gcd = Nat.gcd (minimalPeriod σ p) ord)
    : ∃ s, smallestImage pt p (minimalPeriod σ p) gcd (pow % gcd) = .ok s
        ∧ s.n < minimalPeriod σ p ∧ IsLeastChoice σ p ord pow s.n ∧ σ^[s.n] p = s.min := by
  have hpos := minimalPeriod_pos (fun _ hi => hacts.fix hi) p
  have hcoprime : Nat.Coprime pow gcd := by
    rw [hgcd]
    exact h.coprime.coprime_dvd_right (Nat.gcd_dvd_right _ _)
  have hdvd : gcd ∣ minimalPeriod σ p := by
    rw [hgcd]
    apply Nat.gcd_dvd_left
  have hex : ∃ l, l < minimalPeriod σ p ∧ IsPossible (minimalPeriod σ p) gcd (pow % gcd) l := by
    obtain ⟨l, hlt, hmod, hl⟩ := exists_coprime_modEq hpos hdvd hcoprime
    exact ⟨l, hlt, hmod, hl⟩
  obtain ⟨s, heq, hlt, hpossible, hmin, hle⟩ := smallestImage_spec hacts hp hex
  refine ⟨s, heq, hlt, ?_, hmin⟩
  apply isLeastChoice hpossible hgcd hpos
  rw [hmin]
  exact hle

-- The loop for the new power ends, and the new power agrees with the old one below `p`.
theorem exists_newPower (P : Platform w) (hfix : ∀ i, pt.length ≤ i → σ i = i)
    (hlen : minimalPeriod σ p ≤ T.maxDeg w) (h : IsLeastExponent σ p ord pow) {n : Nat}
    (hn : IsLeastChoice σ p ord pow n) (hlt : n < minimalPeriod σ p) {ordObj powObj : IntegerObj}
    (hord : Represents w ordObj ord) (hpow : Represents w powObj pow)
    : ∃ powObj', ∃ pow' : Nat, newPower P ordObj (minimalPeriod σ p) n (minimalPeriod σ p) powObj
          = .ok powObj'
        ∧ Represents w powObj' (pow' : Int)
        ∧ IsLeastExponent σ (p + 1) (Nat.lcm ord (minimalPeriod σ p)) pow'
        ∧ pow' ≡ pow [MOD ord] ∧ σ^[pow'] p = σ^[n] p := by
  have hpos := minimalPeriod_pos hfix p
  obtain ⟨powObj', j, heq, hrep, hmod⟩ :=
    newPower_spec P hord hpow hpos hlen (exists_add_mul_mod hpos hlt hn.modEq.symm)
  have hmodord : pow + j * ord ≡ pow [MOD ord] := by
    unfold Nat.ModEq
    rw [add_mul_mod_self_right]
  have hmodlen : pow + j * ord ≡ n [MOD minimalPeriod σ p] := by
    unfold Nat.ModEq
    rw [hmod, mod_eq_of_lt hlt]
  exact ⟨powObj', _, heq, hrep, h.succ hfix hn hmodord hmodlen, hmodord,
    (iterate_eq_iff hfix).mpr hmodlen⟩

theorem IsSmallestState.putCycle (hacts : Acts pt σ) (hdeg : pt.length ≤ T.maxDeg w)
    (hp : p < pt.length) (h : IsSmallestState w pt.length σ p ord pow s) {pow' : Nat}
    (hpow : pow' ≡ pow [MOD ord])
    : ∃ ptSmall, PermImpl.putCycle T pt p (σ^[pow'] p) s.ptSmall = .ok ptSmall
        ∧ IsStored pt.length 1 (σ ^ pow') (IsMet σ (p + 1)) ptSmall := by
  have hfix : ∀ i, pt.length ≤ i → σ i = i := fun i hi => hacts.fix hi
  have hagree : ∀ x, IsMet σ p x → (σ ^ pow) x = (σ ^ pow') x := by
    intro x hx
    obtain ⟨p', hp', hsame⟩ := hx
    rw [← iterate_eq_pow, ← iterate_eq_pow]
    apply iterate_eq_of_sameCycle hfix hsame
    exact ((h.isLeast.modEq_iff pow' pow).mp hpow p' hp').symm
  have hfill : IsFill w T pt.length 1 (σ ^ pow') := by
    rw [← zpow_natCast]
    exact isFill_zpow hacts hdeg pow'
  have hcomm : Function.Commute σ (σ ^ pow' : Equiv.Perm Nat) := by
    rw [← zpow_natCast]
    exact commute_zpow σ pow'
  obtain ⟨ptSmall, hput, hstored⟩ :=
    putCycle_spec hacts hfill hcomm hp (h.isStored.congr_val hagree)
  refine ⟨ptSmall, ?_, ?_⟩
  . rw [iterate_eq_pow]
    exact hput
  . apply hstored.congr
    intro x hx
    exact isMet_succ.mp hx

variable (P : Platform w) (hacts : Acts pt σ) (hdeg : pt.length ≤ T.maxDeg w)

include P hacts hdeg

theorem smallestCycle_spec (hp : p < pt.length) (h : IsSmallestState w pt.length σ p ord pow s)
    : ∃ s' ord' pow', smallestCycle P T pt p s = .ok s'
        ∧ IsSmallestState w pt.length σ (p + 1) ord' pow' s' := by
  have hfix : ∀ i, pt.length ≤ i → σ i = i := fun i hi => hacts.fix hi
  have hpos := minimalPeriod_pos hfix p
  have hlen : minimalPeriod σ p ≤ T.maxDeg w := (minimalPeriod_le hfix hp).trans hdeg
  unfold smallestCycle
  obtain ⟨v, hread, hzero⟩ := h.isKnown.readEntry_known hp
  rw [hread, ok_bind]
  split
  . obtain ⟨known, heq, hknown⟩ := cycleLength_spec hacts h.isKnown hp
    rw [heq, ok_bind]
    dsimp only
    generalize hgcd : Nat.gcd (minimalPeriod σ p) ord = gcd
    have hdvd : gcd ∣ minimalPeriod σ p := by
      rw [← hgcd]
      apply Nat.gcd_dvd_left
    have hgcdle : gcd ≤ T.maxDeg w := (Nat.le_of_dvd hpos hdvd).trans hlen
    have hloop : gcdLoop (minimalPeriod σ p) ((ord : Int) % minimalPeriod σ p).toNat = gcd := by
      rw [gcdLoop_eq, ← natCast_mod, toNat_natCast, ← hgcd, Nat.gcd_comm, ← gcd_rec]
    have hx : ((pow : Int) % gcd).toNat = pow % gcd := by
      rw [← natCast_mod, toNat_natCast]
    rw [modLength_eq P h.ord_eq hpos hlen, ok_bind, hloop]
    rw [modLength_eq P h.pow_eq (pos_of_dvd_of_pos hdvd hpos) hgcdle, ok_bind, hx]
    obtain ⟨image, himage, hlt, hchoice, hmin⟩ := exists_smallestImage hacts hp h.isLeast hgcd.symm
    rw [himage, ok_bind]
    obtain ⟨powObj, pow', hpow, hrep, hleast, hmod, hn⟩ :=
      exists_newPower P hfix hlen h.isLeast hchoice hlt h.ord_eq h.pow_eq
    obtain ⟨ptSmall, hput, hstored⟩ := h.putCycle hacts hdeg hp hmod
    rw [← hmin, ← hn, hput, ok_bind, hpow, ok_bind]
    refine ⟨_, _, _, rfl, hknown, hstored, ?_, hrep, hleast⟩
    have hlcm : Nat.lcm ord (minimalPeriod σ p) = ord * (minimalPeriod σ p / gcd) := by
      unfold Nat.lcm
      rw [Nat.gcd_comm, hgcd, Nat.mul_div_assoc _ hdvd]
    have hsmall : w.IsSmall ((minimalPeriod σ p / gcd : Nat) : Int) :=
      PermTnum.isSmall_of_le ((Nat.div_le_self _ _).trans hlen)
    rw [hlcm, Nat.cast_mul]
    exact represents_prodInt P h.ord_eq (represents_INTOBJ_INT hsmall)
  . next hne =>
    have hmet : IsMet σ p p := by
      by_contra hmet
      exact hne (hzero.mpr hmet)
    exact ⟨s, ord, pow, rfl, h.skip hacts hmet⟩

theorem smallestCycles_spec
    : ∃ s ord pow, forLoop (smallestCycle P T pt) pt.length 0
          { ptKnown := replicate pt.length 0
            ptSmall := replicate pt.length 0
            ord := INTOBJ_INT w 1
            pow := INTOBJ_INT w 0 } = .ok s
        ∧ IsSmallestState w pt.length σ pt.length ord pow s := by
  have hstep : ∀ p s, 0 ≤ p → p < 0 + pt.length
      → (∃ ord pow, IsSmallestState w pt.length σ p ord pow s)
      → ∃ s', smallestCycle P T pt p s = .ok s'
        ∧ ∃ ord pow, IsSmallestState w pt.length σ (p + 1) ord pow s' := by
    intro p s _ hp hs
    obtain ⟨ord, pow, hs⟩ := hs
    obtain ⟨s', ord', pow', heq, hs'⟩ := smallestCycle_spec P hacts hdeg (by omega) hs
    exact ⟨s', heq, ord', pow', hs'⟩
  obtain ⟨s, heq, ord, pow, hs⟩ := forLoop_spec
    (fun p s => ∃ ord pow, IsSmallestState w pt.length σ p ord pow s) hstep
    ⟨1, 0, isSmallestState_start w pt.length σ⟩
  rw [Nat.zero_add] at hs
  exact ⟨s, ord, pow, heq, hs⟩

end Round

namespace PermOps

variable {h : PermHeap} {ρ : Nat → Equiv.Perm Nat}

theorem smallestGeneratorPerm_computes (P : Platform w) (hheap : IsPermHeap w h ρ) {f : Nat}
    {bag : PermBag} (hf : h.bags[f]? = some bag)
    : ∃ pow, Computes w h ρ (smallestGeneratorPerm P h f) (ρ f ^ pow)
        ∧ Nat.Coprime pow (orderOf (ρ f)) ∧ IsSmallestGenerator (ρ f) (ρ f ^ pow) := by
  have hperm := hheap.isPermBag f bag hf
  have hfix : ∀ i, bag.entries.length ≤ i → ρ f i = i := fun i hi => hperm.acts.fix hi
  obtain ⟨s, ord, pow, heq, hs⟩ := smallestCycles_spec P hperm.acts hperm.deg_le
  refine ⟨pow, ?_, hs.isLeast.coprime_orderOf hfix, hs.isLeast.isSmallestGenerator hfix⟩
  have hlen := hs.isStored.length_eq
  have hacts : Acts s.ptSmall (ρ f ^ pow) := by
    have hentries : ∀ p, p < bag.entries.length
        → s.ptSmall[(1 : Equiv.Perm Nat) p]? = some ((ρ f ^ pow) p) :=
      fun p hp => hs.isStored.getElem?_eq p (isMet_of_lt hp)
    apply acts_of_getElem? hlen hentries (fun _ _ => rfl)
    intro i hi
    exact pow_apply_eq_self_of_apply_eq_self (hfix i hi) pow
  unfold smallestGeneratorPerm
  rw [bag_eq hf, ok_bind]
  unfold PermImpl.smallestGeneratorPerm
  rw [constAddrPerm_eq hf, ok_bind]
  dsimp only
  rw [heq, ok_bind]
  apply Computes.newPerm hheap bag.tnum hacts
  rw [hlen]
  exact hperm.deg_le

end PermOps
