import GapKernel.Permutat.Lemmas.Compare
import GapKernel.Trans.Lemmas.Product

open PermList TransImpl List
open PermImpl (difference)

theorem IsDiff.swap {φ ψ : Nat → Nat} {lo hi : Nat} {res : Option (Nat × Nat)}
    (h : IsDiff φ ψ lo hi res) : IsDiff ψ φ lo hi (res.map Prod.swap) := by
  cases res with
  | none =>
    intro p hlo hhi
    exact (h p hlo hhi).symm
  | some xy =>
    obtain ⟨p, hlo, hhi, hbefore, hne, hx, hy⟩ := h
    exact ⟨p, hlo, hhi, fun q hq hqp => (hbefore q hq hqp).symm, hne.symm, hy, hx⟩

section Loops

variable {TL TR : PermTnum} {ptL ptR : List Nat} {φ ψ : Nat → Nat}

variable {m : Nat}

section

variable (hl : IsEntries TL ptL φ) (hr : IsEntries TR ptR ψ)

include hl hr

theorem headLoop_spec (hL : m ≤ ptL.length) (hR : m ≤ ptR.length)
    : ∃ res, difference (readEntry ptL) (readEntry ptR) (range' 0 m) = .ok res
        ∧ IsDiff φ ψ 0 m res := by
  apply difference_isDiff 0 m
  . intro p _ hp
    apply hl.readEntry_eq (by omega)
  . intro p _ hp
    apply hr.readEntry_eq (by omega)

theorem tailLoop_spec
    : ∃ res, difference (readEntry ptL) pure (range' ptR.length (ptL.length - ptR.length))
        = .ok res ∧ IsDiff φ ψ ptR.length ptL.length res := by
  apply difference_isDiff
  . intro p _ hp
    apply hl.readEntry_eq hp
  . intro p hp _
    rw [hr.fits.fix p hp]
    rfl

theorem tailLoop_spec_pure
    : ∃ res, difference pure (readEntry ptR) (range' ptL.length (ptR.length - ptL.length))
        = .ok res ∧ IsDiff φ ψ ptL.length ptR.length res := by
  apply difference_isDiff
  . intro p hp _
    rw [hl.fits.fix p hp]
    rfl
  . intro p _ hp
    apply hr.readEntry_eq hp

theorem fix_both {i : Nat} (hL : ptL.length ≤ i) (hR : ptR.length ≤ i) : φ i = ψ i := by
  rw [hl.fits.fix i hL]
  rw [hr.fits.fix i hR]

theorem take_eq_iff (hL : m ≤ ptL.length) (hR : m ≤ ptR.length)
    : ptL.take m = ptR.take m ↔ ∀ i, i < m → φ i = ψ i := by
  constructor
  . intro h i hi
    rw [← hl.acts]
    rw [← hr.acts]
    rw [image_of_lt (by omega)]
    rw [image_of_lt (by omega)]
    have hget : (ptL.take m)[i]? = (ptR.take m)[i]? := by
      rw [h]
    rw [getElem?_take_of_lt hi] at hget
    rw [getElem?_take_of_lt hi] at hget
    rw [getElem?_eq_getElem (by omega)] at hget
    rw [getElem?_eq_getElem (by omega)] at hget
    exact Option.some.inj hget
  . intro h
    apply ext_getElem
    . rw [length_take_of_le hL]
      rw [length_take_of_le hR]
    . intro i hi hi'
      rw [length_take_of_le hL] at hi
      have heq := h i hi
      rw [← hl.acts] at heq
      rw [← hr.acts] at heq
      rw [image_of_lt (by omega)] at heq
      rw [image_of_lt (by omega)] at heq
      rw [getElem_take]
      rw [getElem_take]
      exact heq

end

theorem ne_of_last (hl : IsEntries TL ptL φ) (hlt : ptL.length < ptR.length)
    (hlast : ψ (ptR.length - 1) ≠ ptR.length - 1)
    : φ ≠ ψ := by
  intro heq
  rw [← heq] at hlast
  rw [hl.fits.fix _ (by omega)] at hlast
  contradiction

theorem lastDiffers_spec (hl : IsEntries TL ptL φ) (hr : IsEntries TR ptR ψ)
    : ∃ b, eqTrans.lastDiffers ptL ptR = .ok b ∧ (b = true → φ ≠ ψ) := by
  unfold eqTrans.lastDiffers
  split
  . next hlt =>
    rw [hr.readEntry_eq (by omega)]
    refine ⟨_, rfl, ?_⟩
    intro hb
    apply ne_of_last hl hlt
    exact of_decide_eq_true hb
  . split
    . next hlt =>
      rw [hl.readEntry_eq (by omega)]
      refine ⟨_, rfl, ?_⟩
      intro hb
      apply Ne.symm
      apply ne_of_last hr hlt
      exact of_decide_eq_true hb
    . exact ⟨false, rfl, by simp⟩

theorem PermTnum.two_pow_bits (T : PermTnum) : 2 ^ T.bits = 256 ^ T.sizeof := by
  cases T with
  | perm2 => rfl
  | perm4 => rfl

theorem IsEntries.entries_lt {T : PermTnum} (hl : IsEntries T ptL φ)
    : ∀ v ∈ ptL, v < 256 ^ T.sizeof := by
  intro v hv
  rw [mem_iff_getElem] at hv
  obtain ⟨i, hi, hv⟩ := hv
  rw [← T.two_pow_bits]
  rw [← hv]
  rw [← image_of_lt hi]
  rw [hl.acts]
  apply hl.fits.lt_bits i hi

theorem memcmp_spec {T : PermTnum} {o : ByteOrder} (hl : IsEntries T ptL φ) (hr : IsEntries T ptR ψ)
    (hL : m ≤ ptL.length) (hR : m ≤ ptR.length)
    : ∃ res, eqTrans.memcmp o T ptL ptR m = .ok res
        ∧ (res = 0 ↔ ∀ i, i < m → φ i = ψ i) := by
  rw [← take_eq_iff hl hr hL hR]
  apply Bytes.memcmp_ofEntries _ _ hL hR hl.entries_lt hr.entries_lt

end Loops

variable {f g : TransBag} {φ ψ : Nat → Nat}

theorem eqTail_spec {φ ψ : Nat → Nat} {m n : Nat} {k : Result Int} {res : Option (Nat × Nat)}
    (hfix : ∀ i, n ≤ i → φ i = ψ i) (hk : ∃ c, k = .ok c ∧ (c = 0 ↔ ∀ i, i < m → φ i = ψ i))
    : IsDiff φ ψ m n res → ∃ b, (match res with
        | some _ => (pure false : Result Bool)
        | none => do return (← k) = 0) = .ok b ∧ (b = true ↔ φ = ψ) := by
  intro hres
  cases res with
  | some xy =>
    refine ⟨false, rfl, ?_⟩
    obtain ⟨p, _, _, _, hne, _⟩ := hres
    constructor
    . intro hb
      contradiction
    . intro heq
      rw [heq] at hne
      contradiction
  | none =>
    obtain ⟨c, hk, hc⟩ := hk
    dsimp only
    rw [hk]
    refine ⟨_, rfl, ?_⟩
    rw [decide_eq_true_iff]
    rw [hc]
    constructor
    . intro h
      apply funext
      intro i
      by_cases him : i < m
      . apply h i him
      . by_cases hin : i < n
        . apply hres i (by omega) hin
        . apply hfix i (by omega)
    . intro heq i _
      rw [heq]

theorem eqTrans_spec {o : ByteOrder} (hf : IsTransBag f φ) (hg : IsTransBag g ψ)
    (htnum : f.tnum = g.tnum)
    : ∃ b, eqTrans o f.tnum.dataType f g = .ok b ∧ (b = true ↔ φ = ψ) := by
  have hef := hf.isEntries
  have heg := hg.isEntries
  rw [← htnum] at heg
  have hg' : constAddrTrans f.tnum.dataType g = .ok g.entries := by
    rw [htnum]
    apply constAddrTrans_eq
  unfold eqTrans
  rw [constAddrTrans_eq f]
  rw [ok_bind]
  rw [hg']
  rw [ok_bind]
  obtain ⟨b, hb, hne⟩ := lastDiffers_spec hef heg
  dsimp only
  rw [hb]
  rw [ok_bind]
  split
  . next htrue =>
    refine ⟨false, rfl, ?_⟩
    constructor
    . intro h
      contradiction
    . intro heq
      exact absurd heq (hne htrue)
  . split
    . next hle =>
      obtain ⟨res, hres, hdiff⟩ := tailLoop_spec heg hef
      rw [hres]
      rw [ok_bind]
      rw [eq_comm (a := φ)]
      apply eqTail_spec _ _ hdiff
      . intro i hi
        apply fix_both heg hef hi (by omega)
      . obtain ⟨c, hc, hiff⟩ := memcmp_spec (o := o) hef heg (Nat.le_refl _) hle
        refine ⟨c, hc, ?_⟩
        rw [hiff]
        constructor
        . intro h i hi
          exact (h i hi).symm
        . intro h i hi
          exact (h i hi).symm
    . next hlt =>
      obtain ⟨res, hres, hdiff⟩ := tailLoop_spec hef heg
      rw [hres]
      rw [ok_bind]
      apply eqTail_spec _ _ hdiff
      . intro i hi
        apply fix_both hef heg hi (by omega)
      . apply memcmp_spec hef heg (by omega) (Nat.le_refl _)

theorem compareLoops_spec {TL TR : PermTnum} {ptL ptR : List Nat} (hl : IsEntries TL ptL φ)
    (hr : IsEntries TR ptR ψ)
    : (ptL.length ≤ ptR.length → ∃ res₁ res₂,
        difference (readEntry ptL) (readEntry ptR) (range' 0 ptL.length) = .ok res₁
          ∧ difference pure (readEntry ptR) (range' ptL.length (ptR.length - ptL.length))
            = .ok res₂
          ∧ IsFirstDiff φ ψ (res₁.or res₂))
      ∧ (¬ptL.length ≤ ptR.length → ∃ res₁ res₂,
        difference (readEntry ptL) (readEntry ptR) (range' 0 ptR.length) = .ok res₁
          ∧ difference (readEntry ptL) pure (range' ptR.length (ptL.length - ptR.length))
            = .ok res₂
          ∧ IsFirstDiff φ ψ (res₁.or res₂)) := by
  constructor
  . intro hle
    obtain ⟨res₁, heq₁, h₁⟩ := headLoop_spec hl hr (Nat.le_refl _) hle
    obtain ⟨res₂, heq₂, h₂⟩ := tailLoop_spec_pure hl hr
    refine ⟨res₁, res₂, heq₁, heq₂, isFirstDiff h₁ h₂ ?_⟩
    intro i hi
    apply fix_both hl hr (by omega) hi
  . intro hlt
    obtain ⟨res₁, heq₁, h₁⟩ := headLoop_spec hl hr (by omega) (Nat.le_refl _)
    obtain ⟨res₂, heq₂, h₂⟩ := tailLoop_spec hl hr
    refine ⟨res₁, res₂, heq₁, heq₂, isFirstDiff h₁ h₂ ?_⟩
    intro i hi
    apply fix_both hl hr hi (by omega)

theorem eqTrans24_spec (hf : IsTransBag f φ) (hg : IsTransBag g ψ) (hf2 : f.tnum = .trans2)
    (hg4 : g.tnum = .trans4) : ∃ b, eqTrans24 f g = .ok b ∧ (b = true ↔ φ = ψ) := by
  have hef := hf.isEntries
  have heg := hg.isEntries
  have hf' : constAddrTrans .perm2 f = .ok f.entries := by
    rw [← constAddrTrans_eq f]
    rw [hf2]
    rfl
  have hg' : constAddrTrans .perm4 g = .ok g.entries := by
    rw [← constAddrTrans_eq g]
    rw [hg4]
    rfl
  unfold eqTrans24
  rw [hf']
  rw [ok_bind]
  rw [hg']
  rw [ok_bind]
  dsimp only
  split
  . next hle =>
    obtain ⟨res₁, heq₁, h₁⟩ := headLoop_spec hef heg (Nat.le_refl _) hle
    obtain ⟨res₂, heq₂, h₂⟩ := tailLoop_spec heg hef
    rw [heq₁]
    rw [ok_bind]
    rw [heq₂]
    -- The second loop compares in the other order.
    have hout := eqOutcome_spec (φ := φ) (ψ := ψ) res₁ (res₂.map Prod.swap)
    have hdiff := hout (isFirstDiff h₁ h₂.swap (fun i hi => fix_both hef heg (by omega) hi))
    cases res₂ with
    | none => exact hdiff
    | some xy => exact hdiff
  . next hlt =>
    obtain ⟨res₁, heq₁, h₁⟩ := headLoop_spec hef heg (by omega) (Nat.le_refl _)
    obtain ⟨res₂, heq₂, h₂⟩ := tailLoop_spec hef heg
    rw [heq₁]
    rw [ok_bind]
    rw [heq₂]
    apply eqOutcome_spec res₁ res₂
    apply isFirstDiff h₁ h₂
    intro i hi
    apply fix_both hef heg hi (by omega)

theorem ltTrans_spec (hf : IsTransBag f φ) (hg : IsTransBag g ψ)
    : ∃ b, ltTrans f.tnum.dataType g.tnum.dataType f g = .ok b
        ∧ (b = true ↔ toLex φ < toLex ψ) := by
  have hcompare := compareLoops_spec hf.isEntries hg.isEntries
  unfold ltTrans
  rw [constAddrTrans_eq f]
  rw [ok_bind]
  rw [constAddrTrans_eq g]
  rw [ok_bind]
  dsimp only
  split
  . next hle =>
    obtain ⟨res₁, res₂, heq₁, heq₂, hdiff⟩ := hcompare.1 hle
    rw [heq₁, heq₂]
    apply ltOutcome_spec res₁ res₂ hdiff
  . next hlt =>
    obtain ⟨res₁, res₂, heq₁, heq₂, hdiff⟩ := hcompare.2 hlt
    rw [heq₁, heq₂]
    apply ltOutcome_spec res₁ res₂ hdiff

theorem eq_spec (o : ByteOrder) (hf : IsTransBag f φ) (hg : IsTransBag g ψ)
    : ∃ b, TransOps.eq o f g = .ok b ∧ (b = true ↔ φ = ψ) := by
  unfold TransOps.eq
  split
  . next hf2 hg2 =>
    have heq := eqTrans_spec (o := o) hf hg (by rw [hf2, hg2])
    rw [hf2] at heq
    exact heq
  . next hf2 hg4 => apply eqTrans24_spec hf hg hf2 hg4
  . next hf4 hg2 =>
    rw [eq_comm (a := φ)]
    apply eqTrans24_spec hg hf hg2 hf4
  . next hf4 hg4 =>
    have heq := eqTrans_spec (o := o) hf hg (by rw [hf4, hg4])
    rw [hf4] at heq
    exact heq
