import GapKernel.Permutat.Lemmas.Product
import Mathlib.Order.PiLex

open List

section Difference

open PermImpl

variable {φ ψ : Nat → Nat}

def IsDiff (φ ψ : Nat → Nat) (lo hi : Nat) (res : Option (Nat × Nat)) : Prop :=
  match res with
  | none => ∀ p, lo ≤ p → p < hi → φ p = ψ p
  | some (x, y) => ∃ p, lo ≤ p ∧ p < hi ∧ (∀ q, lo ≤ q → q < p → φ q = ψ q) ∧ φ p ≠ ψ p
    ∧ x = φ p ∧ y = ψ p

theorem difference_isDiff {l r : Nat → Result Nat} (lo hi : Nat)
    (hl : ∀ p, lo ≤ p → p < hi → l p = .ok (φ p)) (hr : ∀ p, lo ≤ p → p < hi → r p = .ok (ψ p))
    : ∃ res, difference l r (range' lo (hi - lo)) = .ok res ∧ IsDiff φ ψ lo hi res := by
  generalize hcount : hi - lo = count
  induction count generalizing lo with
  | zero =>
    refine ⟨none, rfl, ?_⟩
    intro p hlo hhi
    omega
  | succ count ih =>
    rw [range'_succ, difference, hl lo (Nat.le_refl lo) (by omega), ok_bind,
      hr lo (Nat.le_refl lo) (by omega), ok_bind]
    by_cases hne : φ lo ≠ ψ lo
    . rw [if_pos hne]
      exact ⟨_, rfl, lo, Nat.le_refl lo, by omega, fun q _ _ => by omega, hne, rfl, rfl⟩
    . rw [if_neg hne]
      rw [not_not] at hne
      obtain ⟨res, heq, hres⟩ := ih (lo + 1) (fun p hp => hl p (by omega))
        (fun p hp => hr p (by omega)) (by omega)
      refine ⟨res, heq, ?_⟩
      have hcons : ∀ q, lo ≤ q → (lo + 1 ≤ q → φ q = ψ q) → φ q = ψ q := by
        intro q hq himp
        by_cases hqlo : q = lo
        . rw [hqlo, hne]
        . apply himp
          omega
      unfold IsDiff at hres ⊢
      split at hres
      . intro p hlo hhi
        apply hcons p hlo
        intro hlt
        apply hres p hlt hhi
      . obtain ⟨p, hlo, hhi, hbefore, hnep, hx, hy⟩ := hres
        refine ⟨p, by omega, hhi, ?_, hnep, hx, hy⟩
        intro q hq hqp
        apply hcons q hq
        intro hlt
        apply hbefore q hlt hqp

def IsFirstDiff (φ ψ : Nat → Nat) (res : Option (Nat × Nat)) : Prop :=
  match res with
  | none => φ = ψ
  | some (x, y) => ∃ p, (∀ q, q < p → φ q = ψ q) ∧ φ p ≠ ψ p ∧ x = φ p ∧ y = ψ p

-- The loops of a comparison, up to the smaller degree and from there to the larger one.
theorem isFirstDiff {m n : Nat} {res₁ res₂ : Option (Nat × Nat)} (h₁ : IsDiff φ ψ 0 m res₁)
    (h₂ : IsDiff φ ψ m n res₂) (hfix : ∀ i, n ≤ i → φ i = ψ i)
    : IsFirstDiff φ ψ (res₁.or res₂) := by
  cases res₁ with
  | some xy =>
    obtain ⟨p, _, _, hbefore, hne, hx, hy⟩ := h₁
    exact ⟨p, fun q hq => hbefore q (Nat.zero_le q) hq, hne, hx, hy⟩
  | none =>
    have hm : ∀ q, q < m → φ q = ψ q := fun q hq => h₁ q (Nat.zero_le q) hq
    cases res₂ with
    | some xy =>
      obtain ⟨p, _, _, hbefore, hne, hx, hy⟩ := h₂
      refine ⟨p, ?_, hne, hx, hy⟩
      intro q hq
      by_cases hqm : q < m
      . apply hm q hqm
      . apply hbefore q (by omega) hq
    | none =>
      apply funext
      intro q
      by_cases hqm : q < m
      . apply hm q hqm
      . by_cases hqn : q < n
        . apply h₂ q (by omega) hqn
        . apply hfix q (by omega)

theorem IsFirstDiff.isNone_iff {res : Option (Nat × Nat)} (h : IsFirstDiff φ ψ res)
    : res.isNone = true ↔ φ = ψ := by
  cases res with
  | none =>
    constructor
    . intro _
      exact h
    . intro _
      rfl
  | some xy =>
    obtain ⟨p, _, hne, _⟩ := h
    constructor
    . intro hnone
      contradiction
    . intro heq
      rw [heq] at hne
      contradiction

theorem IsFirstDiff.lt_iff {res : Option (Nat × Nat)} (h : IsFirstDiff φ ψ res)
    : (∃ xy, res = some xy ∧ xy.1 < xy.2) ↔ toLex φ < toLex ψ := by
  constructor
  . intro ⟨xy, hres, hlt⟩
    rw [hres] at h
    obtain ⟨p, hbefore, _, hx, hy⟩ := h
    rw [hx, hy] at hlt
    exact ⟨p, hbefore, hlt⟩
  . intro ⟨q, hbefore', hlt⟩
    have hlt' : φ q < ψ q := hlt
    cases res with
    | none =>
      have heq : φ = ψ := h
      rw [heq] at hlt'
      omega
    | some xy =>
      obtain ⟨p, hbefore, hne, hx, hy⟩ := h
      have hpq : p = q := by
        apply Nat.le_antisymm
        . by_contra hgt
          have := hbefore q (by omega)
          omega
        . by_contra hgt
          exact hne (hbefore' p (by omega))
      refine ⟨xy, rfl, ?_⟩
      rw [hx, hy, hpq]
      exact hlt'

theorem eqOutcome_spec (res₁ res₂ : Option (Nat × Nat))
    : IsFirstDiff φ ψ (res₁.or res₂) → ∃ res, (match res₁ with
        | some _ => (pure false : Result Bool)
        | none => match res₂ with
          | some _ => pure false
          | none => pure true) = .ok res ∧ (res = true ↔ φ = ψ) := by
  intro h
  rw [← h.isNone_iff]
  cases res₁ with
  | some xy => exact ⟨false, rfl, by simp⟩
  | none =>
    cases res₂ with
    | some xy => exact ⟨false, rfl, by simp⟩
    | none => exact ⟨true, rfl, by simp⟩

theorem ltOutcome_spec (res₁ res₂ : Option (Nat × Nat))
    : IsFirstDiff φ ψ (res₁.or res₂) → ∃ res, (match res₁ with
        | some (x, y) => (pure (decide (x < y)) : Result Bool)
        | none => match res₂ with
          | some (x, y) => pure (decide (x < y))
          | none => pure false) = .ok res ∧ (res = true ↔ toLex φ < toLex ψ) := by
  intro h
  rw [← h.lt_iff]
  cases res₁ with
  | some xy => exact ⟨_, rfl, by simp⟩
  | none =>
    cases res₂ with
    | some xy => exact ⟨_, rfl, by simp⟩
    | none => exact ⟨false, rfl, by simp⟩

end Difference

section Compare

open PermList PermImpl

variable {w : IntSize} {h : PermHeap} {ρ : Nat → Equiv.Perm Nat}

def IsDifference (σ τ : Equiv.Perm Nat) (lo hi : Nat) (res : Option (Nat × Nat)) : Prop :=
  match res with
  | none => ∀ p, lo ≤ p → p < hi → σ p = τ p
  | some (x, y) => ∃ p, lo ≤ p ∧ p < hi ∧ (∀ q, lo ≤ q → q < p → σ q = τ q) ∧ σ p ≠ τ p
    ∧ x = σ p ∧ y = τ p

variable {σ τ : Equiv.Perm Nat}

theorem difference_spec {l r : Nat → Result Nat} (lo hi : Nat)
    (hl : ∀ p, lo ≤ p → p < hi → l p = .ok (σ p)) (hr : ∀ p, lo ≤ p → p < hi → r p = .ok (τ p))
    : ∃ res, difference l r (range' lo (hi - lo)) = .ok res ∧ IsDifference σ τ lo hi res := by
  apply difference_isDiff lo hi hl hr

def IsFirstDifference (σ τ : Equiv.Perm Nat) (res : Option (Nat × Nat)) : Prop :=
  match res with
  | none => σ = τ
  | some (x, y) => ∃ p, (∀ q, q < p → σ q = τ q) ∧ σ p ≠ τ p ∧ x = σ p ∧ y = τ p

theorem isFirstDifference_iff {res : Option (Nat × Nat)}
    : IsFirstDifference σ τ res ↔ IsFirstDiff σ τ res := by
  cases res with
  | none => apply DFunLike.coe_fn_eq.symm
  | some xy => apply Iff.rfl

-- The loops of the comparisons, up to the smaller degree and from there to the larger one.
theorem isFirstDifference {m n : Nat} {res₁ res₂ : Option (Nat × Nat)}
    (h₁ : IsDifference σ τ 0 m res₁) (h₂ : IsDifference σ τ m n res₂)
    (hfix : ∀ i, n ≤ i → σ i = τ i)
    : IsFirstDifference σ τ (res₁.or res₂) := by
  rw [isFirstDifference_iff]
  apply isFirstDiff h₁ h₂ hfix

theorem compare_spec {ptL ptR : List Nat} (hl : Acts ptL σ) (hr : Acts ptR τ)
    : (ptL.length ≤ ptR.length → ∃ res₁ res₂,
        difference (readEntry ptL) (readEntry ptR) (range' 0 ptL.length) = .ok res₁
          ∧ difference pure (readEntry ptR) (range' ptL.length (ptR.length - ptL.length))
            = .ok res₂
          ∧ IsFirstDifference σ τ (res₁.or res₂))
      ∧ (¬ptL.length ≤ ptR.length → ∃ res₁ res₂,
        difference (readEntry ptL) (readEntry ptR) (range' 0 ptR.length) = .ok res₁
          ∧ difference (readEntry ptL) pure (range' ptR.length (ptL.length - ptR.length))
            = .ok res₂
          ∧ IsFirstDifference σ τ (res₁.or res₂)) := by
  constructor
  . intro hle
    obtain ⟨res₁, heq₁, h₁⟩ := difference_spec 0 ptL.length
      (fun p _ hp => readEntry_eq hl hp) (fun p _ hp => readEntry_eq hr (by omega))
    obtain ⟨res₂, heq₂, h₂⟩ := difference_spec (l := pure) ptL.length ptR.length
      (fun p hp _ => by rw [hl.fix hp]; rfl) (fun p _ hp => readEntry_eq hr hp)
    refine ⟨res₁, res₂, heq₁, heq₂, isFirstDifference h₁ h₂ ?_⟩
    intro i hi
    rw [hl.fix (by omega), hr.fix hi]
  . intro hlt
    obtain ⟨res₁, heq₁, h₁⟩ := difference_spec 0 ptR.length
      (fun p _ hp => readEntry_eq hl (by omega)) (fun p _ hp => readEntry_eq hr hp)
    obtain ⟨res₂, heq₂, h₂⟩ := difference_spec (r := pure) ptR.length ptL.length
      (fun p _ hp => readEntry_eq hl hp) (fun p hp _ => by rw [hr.fix hp]; rfl)
    refine ⟨res₁, res₂, heq₁, heq₂, isFirstDifference h₁ h₂ ?_⟩
    intro i hi
    rw [hl.fix hi, hr.fix (by omega)]

variable {opR : Nat}

section

variable (hheap : IsPermHeap w h ρ) {opL : Nat} {bagL bagR : PermBag}
  (hl : h.bags[opL]? = some bagL) (hr : h.bags[opR]? = some bagR)

include hheap hl hr

theorem eqPerm_spec
    : ∃ res, eqPerm bagL.tnum bagR.tnum h opL opR = .ok res ∧ (res = true ↔ ρ opL = ρ opR) := by
  have hcompare := compare_spec (hheap.isPermBag _ _ hl).acts (hheap.isPermBag _ _ hr).acts
  have hresult : ∀ res₁ res₂ : Option (Nat × Nat), IsFirstDifference (ρ opL) (ρ opR) (res₁.or res₂)
      → ∃ res, (match res₁ with
        | some _ => (pure false : Result Bool)
        | none => match res₂ with
          | some _ => pure false
          | none => pure true) = .ok res ∧ (res = true ↔ ρ opL = ρ opR) := by
    intro res₁ res₂ hdiff
    rw [isFirstDifference_iff] at hdiff
    rw [← DFunLike.coe_fn_eq]
    apply eqOutcome_spec _ _ hdiff
  unfold eqPerm
  rw [constAddrPerm_eq hl, ok_bind, constAddrPerm_eq hr, ok_bind]
  dsimp only
  split
  . next hle =>
    obtain ⟨res₁, res₂, heq₁, heq₂, hdiff⟩ := hcompare.1 hle
    rw [heq₁, heq₂]
    apply hresult res₁ res₂ hdiff
  . next hlt =>
    obtain ⟨res₁, res₂, heq₁, heq₂, hdiff⟩ := hcompare.2 hlt
    rw [heq₁, heq₂]
    apply hresult res₁ res₂ hdiff

theorem ltPerm_spec
    : ∃ res, ltPerm bagL.tnum bagR.tnum h opL opR = .ok res
        ∧ (res = true ↔ toLex ⇑(ρ opL) < toLex ⇑(ρ opR)) := by
  have hcompare := compare_spec (hheap.isPermBag _ _ hl).acts (hheap.isPermBag _ _ hr).acts
  have hresult : ∀ res₁ res₂ : Option (Nat × Nat), IsFirstDifference (ρ opL) (ρ opR) (res₁.or res₂)
      → ∃ res, (match res₁ with
        | some (x, y) => (pure (decide (x < y)) : Result Bool)
        | none => match res₂ with
          | some (x, y) => pure (decide (x < y))
          | none => pure false) = .ok res
        ∧ (res = true ↔ toLex ⇑(ρ opL) < toLex ⇑(ρ opR)) := by
    intro res₁ res₂ hdiff
    rw [isFirstDifference_iff] at hdiff
    apply ltOutcome_spec _ _ hdiff
  unfold ltPerm
  rw [constAddrPerm_eq hl, ok_bind, constAddrPerm_eq hr, ok_bind]
  dsimp only
  split
  . next hle =>
    obtain ⟨res₁, res₂, heq₁, heq₂, hdiff⟩ := hcompare.1 hle
    rw [heq₁, heq₂]
    apply hresult res₁ res₂ hdiff
  . next hlt =>
    obtain ⟨res₁, res₂, heq₁, heq₂, hdiff⟩ := hcompare.2 hlt
    rw [heq₁, heq₂]
    apply hresult res₁ res₂ hdiff

end

variable {opL : Int} {T : PermTnum}

theorem fix_of_lt {n : Nat} (hn : n ≤ T.maxDeg w) (hlt : w.intIntobjMax < opL)
    : n ≤ opL.toNat - 1 := by
  have hmax : (T.maxDeg w : Int) ≤ w.intIntobjMax := by
    cases w <;> cases T <;> decide
  omega

theorem plusOne_eq {v : Nat} (hv : v < T.maxDeg w) : T.plusOne v = v + 1 := by
  unfold PermTnum.plusOne
  cases T with
  | perm2 => rfl
  | perm4 =>
    apply Nat.mod_eq_of_lt
    have : PermTnum.perm4.maxDeg w ≤ 2 ^ 32 - 1 := by
      cases w <;> decide
    omega

variable {bag : PermBag}

theorem powIntPerm_spec (hheap : IsPermHeap w h ρ) (hpos : 0 < opL) (hbag : h.bags[opR]? = some bag)
    : powIntPerm w bag.tnum h opL opR = .ok ((ρ opR (opL.toNat - 1) : Int) + 1) := by
  obtain ⟨hacts, hdeg⟩ := hheap.isPermBag _ _ hbag
  unfold powIntPerm
  split
  . next hlt =>
    rw [hacts.fix (fix_of_lt hdeg hlt)]
    show Except.ok opL = _
    congr 1
    omega
  . rw [constAddrPerm_eq hbag, ok_bind]
    split
    . next hle =>
      have hlt : opL.toNat - 1 < bag.entries.length := by omega
      have := hacts.lt hlt
      rw [readEntry_eq hacts hlt, ok_bind, plusOne_eq (show _ < bag.tnum.maxDeg w by omega)]
      rfl
    . next hle =>
      rw [hacts.fix (by omega)]
      show Except.ok opL = _
      congr 1
      omega

theorem preimage_spec {pt : List Nat} (hacts : Acts pt σ) (hdeg : pt.length ≤ 2 ^ T.bits)
    {img : Nat} (himg : img < pt.length)
    : preimage T pt img pt.length (T.cast img) = .ok (σ.symm img) := by
  have hcast : T.cast img = img := Nat.mod_eq_of_lt (by omega)
  obtain ⟨k, hk, hiter⟩ := exists_iterate_eq (fun i hi => hacts.fix hi) himg
  -- After some steps the rest of the way is `k` steps long.
  have hgo : ∀ k fuel pre, k < fuel → pre < pt.length → σ^[k + 1] pre = img
      → preimage T pt img fuel pre = .ok (σ.symm img) := by
    intro k fuel
    induction fuel generalizing k with
    | zero =>
      intro pre hlt
      omega
    | succ fuel ih =>
      intro pre hlt hpre hiter
      rw [preimage, readEntry_eq hacts hpre, ok_bind, hcast]
      by_cases heq : σ pre = img
      . rw [if_neg (by simpa using heq)]
        have : σ.symm img = pre := by
          rw [Equiv.symm_apply_eq, heq]
        rw [this]
        rfl
      . rw [if_pos heq]
        cases k with
        | zero => exact absurd hiter heq
        | succ k =>
          apply ih k _ (by omega) (hacts.lt hpre)
          rwa [Function.iterate_succ_apply] at hiter
  rw [hcast]
  apply hgo k _ _ hk himg hiter

def ComputesInt (w : IntSize) (h : PermHeap) (ρ : Nat → Equiv.Perm Nat)
    (res : Result (PermHeap × Int)) (i : Int) : Prop :=
  ∃ h' ρ', res = .ok (h', i) ∧ IsPermHeap w h' ρ' ∧ Extends h ρ h' ρ'

theorem viaInverse_spec (hheap : IsPermHeap w h ρ) {inv img : Nat} (hbag : h.bags[inv]? = some bag)
    : quoIntPerm.viaInverse bag.tnum h inv img = .ok (h, (ρ inv img : Int) + 1) := by
  unfold quoIntPerm.viaInverse
  rw [constAddrPerm_eq hbag, ok_bind, IMAGE_eq (hheap.isPermBag _ _ hbag).acts, ok_bind]
  rfl

theorem quoIntPerm_spec (hheap : IsPermHeap w h ρ) (hpos : 0 < opL) (hbag : h.bags[opR]? = some bag)
    : ComputesInt w h ρ (quoIntPerm w bag.tnum h opL opR)
        (((ρ opR).symm (opL.toNat - 1) : Int) + 1) := by
  obtain ⟨hacts, hdeg⟩ := hheap.isPermBag _ _ hbag
  have hbits := PermTnum.maxDeg_le w bag.tnum
  unfold quoIntPerm
  split
  . next hlt =>
    rw [hacts.symm_fix (fix_of_lt hdeg hlt)]
    refine ⟨h, ρ, ?_, hheap, Extends.refl⟩
    show Except.ok (h, opL) = _
    congr 2
    omega
  . rw [constAddrPerm_eq hbag, ok_bind]
    dsimp only
    rw [bag_eq hbag, ok_bind]
    cases hstored : bag.storedInv with
    | some inv =>
      obtain ⟨invBag, hinv, htnum, hρ⟩ := hheap.storedInv _ _ _ hbag hstored
      dsimp only
      rw [← htnum, viaInverse_spec hheap hinv, hρ]
      exact ⟨h, ρ, rfl, hheap, Extends.refl⟩
    | none =>
      dsimp only
      split
      . obtain ⟨h', r, ρ', inv, heq, hheap', hext, hinv, htnum, hρ⟩ := invPerm_spec hheap hbag
        rw [heq, ok_bind]
        dsimp only
        rw [← htnum, viaInverse_spec hheap' hinv, hρ]
        exact ⟨h', ρ', rfl, hheap', hext⟩
      . split
        . next hle =>
          have himg : opL.toNat - 1 < bag.entries.length := by omega
          have := symm_lt (fun i hi => hacts.fix hi) himg
          rw [preimage_spec hacts (by omega) himg, ok_bind,
            plusOne_eq (show _ < bag.tnum.maxDeg w by omega)]
          exact ⟨h, ρ, rfl, hheap, Extends.refl⟩
        . next hle =>
          rw [hacts.symm_fix (by omega)]
          refine ⟨h, ρ, ?_, hheap, Extends.refl⟩
          show Except.ok (h, opL) = _
          congr 2
          omega

end Compare

open PermList PermImpl

variable {w : IntSize} {h : PermHeap} {ρ : Nat → Equiv.Perm Nat}

namespace PermOps

/--
What the operations do with the bags `f` and `g`. The point `i` of a bag stands for the integer
`i + 1`, and permutations act from the right.
-/
structure Correct (w : IntSize) (h : PermHeap) (ρ : Nat → Equiv.Perm Nat) (f g : Nat) : Prop where
  prod : Computes w h ρ (prod h f g) ((ρ f).trans (ρ g))
  quo : Computes w h ρ (quo h f g) ((ρ f).trans (ρ g).symm)
  lquo : Computes w h ρ (lquo h f g) ((ρ f).symm.trans (ρ g))
  pow : Computes w h ρ (pow h f g) ((ρ g).symm.trans ((ρ f).trans (ρ g)))
  comm : Computes w h ρ (comm h f g) ((ρ f).symm.trans ((ρ g).symm.trans ((ρ f).trans (ρ g))))
  inv : Computes w h ρ (inv h f) (ρ f).symm
  powInt : ∀ i : Int, 0 < i → powInt w h i f = .ok ((ρ f (i.toNat - 1) : Int) + 1)
  quoInt : ∀ i : Int, 0 < i → ComputesInt w h ρ (quoInt w h i f) (((ρ f).symm (i.toNat - 1) : Int) + 1)
  eq : ∃ res, eq h f g = .ok res ∧ (res = true ↔ ρ f = ρ g)
  lt : ∃ res, lt h f g = .ok res ∧ (res = true ↔ toLex ⇑(ρ f) < toLex ⇑(ρ g))

variable {f : Nat}

theorem dispatch2_eq {α : Type} {op : PermTnum → PermTnum → PermHeap → Nat → Nat → Result α}
    {g : Nat} {bagL bagR : PermBag} (hf : h.bags[f]? = some bagL) (hg : h.bags[g]? = some bagR)
    : dispatch2 op h f g = op bagL.tnum bagR.tnum h f g := by
  unfold dispatch2
  rw [bag_eq hf, ok_bind, bag_eq hg, ok_bind]

theorem inv_eq {bag : PermBag} (hf : h.bags[f]? = some bag)
    : inv h f = invPerm bag.tnum h f := by
  unfold inv
  rw [bag_eq hf, ok_bind]

theorem quo_spec (hheap : IsPermHeap w h ρ) {g : Nat} {bagL bagR : PermBag}
    (hf : h.bags[f]? = some bagL) (hg : h.bags[g]? = some bagR)
    : Computes w h ρ (quo h f g) ((ρ f).trans (ρ g).symm) := by
  obtain ⟨h₁, r₁, ρ₁, inv₁, heq₁, hheap₁, hext₁, hinv₁, _, hρ₁⟩ := invPerm_spec hheap hg
  obtain ⟨hρf, bagL₁, hf₁, _⟩ := hext₁ f bagL hf
  obtain ⟨h₂, r₂, ρ₂, bag₂, heq₂, hheap₂, hext₂, hbag₂, hperm₂⟩ :=
    prodPerm_spec hheap₁ hf₁ hinv₁
  refine ⟨h₂, r₂, ρ₂, bag₂, ?_, hheap₂, hext₁.trans hext₂, hbag₂, ?_⟩
  . unfold quo
    rw [inv_eq hg, heq₁, ok_bind]
    dsimp only
    unfold PermOps.prod
    rw [dispatch2_eq hf₁ hinv₁, heq₂]
  . rwa [← hρf, ← hρ₁]

theorem correct (hheap : IsPermHeap w h ρ) {f g : Nat} (hf : f < h.bags.length)
    (hg : g < h.bags.length)
    : Correct w h ρ f g := by
  have hl := List.getElem?_eq_getElem hf
  have hr := List.getElem?_eq_getElem hg
  constructor
  . unfold prod
    rw [dispatch2_eq hl hr]
    apply prodPerm_spec hheap hl hr
  . apply quo_spec hheap hl hr
  . unfold lquo
    rw [dispatch2_eq hl hr]
    apply lQuoPerm_spec hheap hl hr
  . unfold pow
    rw [dispatch2_eq hl hr]
    apply powPerm_spec hheap hl hr
  . unfold comm
    rw [dispatch2_eq hl hr]
    apply commPerm_spec hheap hl hr
  . rw [inv_eq hl]
    apply Computes.invPerm hheap hl
  . intro i hi
    unfold powInt
    rw [bag_eq hl, ok_bind]
    apply powIntPerm_spec hheap hi hl
  . intro i hi
    unfold quoInt
    rw [bag_eq hl, ok_bind]
    apply quoIntPerm_spec hheap hi hl
  . unfold eq
    rw [dispatch2_eq hl hr]
    apply eqPerm_spec hheap hl hr
  . unfold lt
    rw [dispatch2_eq hl hr]
    apply ltPerm_spec hheap hl hr

-- The identity, `(1,2)` with 16 bits, and `(2,3)` with 32 bits and a fixed point at the end.
def exampleHeap : PermHeap where
  bags := [
    { tnum := .perm2, entries := [], storedInv := none },
    { tnum := .perm2, entries := [1, 0], storedInv := none },
    { tnum := .perm4, entries := [0, 2, 1, 3], storedInv := some 2 }
  ]
  identityPerm := 0
  permInverseThreshold := some 10000

def exampleAction (a : Nat) : Equiv.Perm Nat :=
  match a with
  | 1 => Equiv.swap 0 1
  | 2 => Equiv.swap 1 2
  | _ => 1

theorem isPermHeap_exampleHeap : IsPermHeap .int8 exampleHeap exampleAction := by
  constructor
  . intro a bag hbag
    match a with
    | 0 =>
      cases hbag
      exact ⟨acts_nil, by decide⟩
    | 1 =>
      cases hbag
      refine ⟨?_, by decide⟩
      intro i
      match i with
      | 0 => rfl
      | 1 => rfl
      | i + 2 =>
        rw [image_of_le (by simp)]
        exact (Equiv.swap_apply_of_ne_of_ne (by omega) (by omega)).symm
    | 2 =>
      cases hbag
      refine ⟨?_, by decide⟩
      intro i
      match i with
      | 0 => rfl
      | 1 => rfl
      | 2 => rfl
      | 3 => rfl
      | i + 4 =>
        rw [image_of_le (by simp)]
        exact (Equiv.swap_apply_of_ne_of_ne (by omega) (by omega)).symm
    | a + 3 => simp [exampleHeap] at hbag
  . intro a bag b hbag hinv
    match a with
    | 0 =>
      cases hbag
      contradiction
    | 1 =>
      cases hbag
      contradiction
    | 2 =>
      cases hbag
      cases hinv
      exact ⟨_, rfl, rfl, rfl⟩
    | a + 3 => simp [exampleHeap] at hbag
  . exact ⟨_, rfl, rfl⟩

theorem correct_exampleHeap : Correct .int8 exampleHeap exampleAction 1 2 :=
  correct isPermHeap_exampleHeap (by decide) (by decide)

end PermOps
