import GapKernel.Trans.Lemmas.Bag

open PermList TransImpl

def ComputesTrans (res : Result TransBag) (χ : Nat → Nat) : Prop :=
  ∃ bag, res = .ok bag ∧ IsTransBag bag χ

structure IsEntries (T : PermTnum) (pt : List Nat) (φ : Nat → Nat) : Prop where
  acts : ∀ i, image pt i = φ i
  fits : Fits T pt.length φ
  deg_le : T = .perm2 → pt.length ≤ 65536

variable {φ : Nat → Nat}

theorem IsTransBag.isEntries {f : TransBag} (h : IsTransBag f φ)
    : IsEntries f.tnum.dataType f.entries φ where
  acts := h.acts
  fits := h.fits
  deg_le := by
    intro hT
    apply h.deg_le
    rw [← f.tnum.transTnum_dataType]
    rw [hT]
    rfl

theorem IsPermBag.isEntries {w : IntSize} {p : PermBag} {σ : Equiv.Perm Nat} (h : IsPermBag w p σ)
    : IsEntries p.tnum p.entries σ where
  acts := h.acts
  fits := Fits.perm h
  deg_le := by
    intro hT
    have hdeg := h.deg_le
    rw [hT] at hdeg
    exact hdeg

theorem constAddrTrans_eq (f : TransBag)
    : constAddrTrans f.tnum.dataType f = .ok f.entries := by
  unfold constAddrTrans
  rw [f.tnum.transTnum_dataType]
  rw [if_pos rfl]
  rfl

theorem constAddrPermBag_eq (p : PermBag) : constAddrPermBag p.tnum p = .ok p.entries := by
  unfold constAddrPermBag
  rw [if_pos rfl]
  rfl

theorem IsEntries.readEntry_eq {T : PermTnum} {pt : List Nat} (h : IsEntries T pt φ) {i : Nat}
    (hi : i < pt.length) : readEntry pt i = .ok (φ i) := by
  rw [readEntry_image hi]
  rw [h.acts]

theorem IsEntries.IMAGE_eq {T : PermTnum} {pt : List Nat} (h : IsEntries T pt φ) (i : Nat)
    : IMAGE i pt pt.length = .ok (φ i) := by
  rw [IMAGE_image]
  rw [h.acts]

structure IsTransFill (T : PermTnum) (n : Nat) (α : Equiv.Perm Nat) (β : Nat → Nat) : Prop where
  idx_fix : ∀ i, n ≤ i → α i = i
  fits : Fits T n β
  deg_le : T = .perm2 → n ≤ 65536

namespace IsTransFill

variable {T : PermTnum} {n : Nat} {α : Equiv.Perm Nat} {β χ : Nat → Nat}

theorem bind_scatter (c : IsTransFill T n α β) {lo hi : Nat} {idx val : Nat → Result Nat}
    {pt : List Nat} {k : List Nat → Result TransBag} (hpt : IsWritten n α β lo pt) (hle : lo ≤ hi)
    (hn : hi ≤ n) (hidx : ∀ p, lo ≤ p → p < hi → idx p = .ok (α p))
    (hval : ∀ p, lo ≤ p → p < hi → val p = .ok (β p))
    (hk : ∀ pt', IsWritten n α β hi pt' → ComputesTrans (k pt') χ)
    : ComputesTrans (scatter T lo hi idx val pt >>= k) χ := by
  have hrun : ∃ pt', scatter T lo hi idx val pt = .ok pt' ∧ IsWritten n α β hi pt' := by
    apply scatter_isWritten hpt hle
    . intro p hlo hhi
      exact ⟨hidx p hlo hhi, apply_lt c.idx_fix (by omega)⟩
    . intro p hlo hhi
      exact ⟨hval p hlo hhi, c.fits.lt_bits p (by omega)⟩
  rcases hrun with ⟨pt', hrun⟩
  rw [hrun.1]
  rw [ok_bind]
  apply hk pt' hrun.2

theorem newTrans (c : IsTransFill T n α β) {pt : List Nat} (hpt : IsWritten n α β n pt)
    : ComputesTrans (.ok (newTrans T pt)) (β ∘ α.symm) := by
  refine ⟨_, rfl, ?_⟩
  have hsymm : ∀ i, n ≤ i → α.symm i = i := by
    intro i hi
    rw [Equiv.symm_apply_eq]
    rw [c.idx_fix i hi]
  apply isTransBag_newTrans
  . intro i
    rw [hpt.acts c.idx_fix c.fits.fix]
    rfl
  . rw [hpt.length_eq]
    constructor
    . intro i hi
      rw [Function.comp_apply]
      rw [hsymm i hi]
      apply c.fits.fix i hi
    . intro i hi
      apply c.fits.lt
      apply symm_lt c.idx_fix hi
    . intro i hi
      apply c.fits.lt_bits
      apply symm_lt c.idx_fix hi
  . intro hT
    rw [hpt.length_eq]
    apply c.deg_le hT

end IsTransFill

section Product

variable {TL TR : PermTnum} {ptL ptR : List Nat} {φ ψ : Nat → Nat}

theorem isTransFill_comp (hl : IsEntries TL ptL φ) (hr : IsEntries TR ptR ψ) {α : Equiv.Perm Nat}
    (hα : ∀ i, max ptL.length ptR.length ≤ i → α i = i)
    : IsTransFill (TL.resultType TR) (max ptL.length ptR.length) α (ψ ∘ φ) where
  idx_fix := hα
  fits := (hl.fits.widen (TL.bits_left TR)).comp (hr.fits.widen (TL.bits_right TR))
  deg_le := by
    intro hT
    have h1 := hl.deg_le
    have h2 := hr.deg_le
    cases TL with
    | perm4 => contradiction
    | perm2 =>
      cases TR with
      | perm4 => contradiction
      | perm2 =>
        have h3 := h1 rfl
        have h4 := h2 rfl
        omega

theorem prodLoops_spec (hl : IsEntries TL ptL φ) (hr : IsEntries TR ptR ψ)
    : ComputesTrans
        (if ptL.length ≤ ptR.length then do
          let pt ← scatter (TL.resultType TR) 0 ptL.length pure
            (fun i => do readEntry ptR (← readEntry ptL i))
            (List.replicate (max ptL.length ptR.length) 0)
          let pt ← scatter (TL.resultType TR) ptL.length ptR.length pure
            (fun i => readEntry ptR i) pt
          return newTrans (TL.resultType TR) pt
        else do
          let pt ← scatter (TL.resultType TR) 0 ptL.length pure
            (fun i => do IMAGE (← readEntry ptL i) ptR ptR.length)
            (List.replicate (max ptL.length ptR.length) 0)
          return newTrans (TL.resultType TR) pt) (ψ ∘ φ) := by
  have c := isTransFill_comp hl hr (fun i _ => (rfl : (1 : Equiv.Perm Nat) i = i))
  split
  . next hle =>
    apply c.bind_scatter (isWritten_replicate _ _ _) (Nat.zero_le _) (by omega)
    . intro p _ _
      rfl
    . intro p _ hp
      have hlt := hl.fits.lt p hp
      rw [hl.readEntry_eq hp]
      rw [ok_bind]
      rw [hr.readEntry_eq (by omega)]
      rfl
    . intro pt1 hpt1
      apply c.bind_scatter hpt1 hle (by omega)
      . intro p _ _
        rfl
      . intro p hlo hhi
        rw [hr.readEntry_eq hhi]
        rw [Function.comp_apply]
        rw [hl.fits.fix p hlo]
      . intro pt2 hpt2
        apply c.newTrans
        rw [Nat.max_eq_right hle] at hpt2 ⊢
        exact hpt2
  . next hlt =>
    apply c.bind_scatter (isWritten_replicate _ _ _) (Nat.zero_le _) (by omega)
    . intro p _ _
      rfl
    . intro p _ hp
      rw [hl.readEntry_eq hp]
      rw [ok_bind]
      rw [hr.IMAGE_eq]
      rfl
    . intro pt1 hpt1
      apply c.newTrans
      rw [Nat.max_eq_left (by omega)] at hpt1 ⊢
      exact hpt1

end Product

section Spec

variable {w : IntSize} {f g : TransBag} {φ ψ : Nat → Nat} {p : PermBag} {σ : Equiv.Perm Nat}

theorem prodTrans_spec (hf : IsTransBag f φ) (hg : IsTransBag g ψ)
    : ComputesTrans (prodTrans f.tnum.dataType g.tnum.dataType f g) (ψ ∘ φ) := by
  unfold prodTrans
  rw [constAddrTrans_eq f]
  rw [ok_bind]
  rw [constAddrTrans_eq g]
  rw [ok_bind]
  apply prodLoops_spec hf.isEntries hg.isEntries

theorem prodTransPerm_spec (hf : IsTransBag f φ) (hp : IsPermBag w p σ)
    : ComputesTrans (prodTransPerm f.tnum.dataType p.tnum f p) (σ ∘ φ) := by
  unfold prodTransPerm
  rw [constAddrPermBag_eq p]
  rw [ok_bind]
  rw [constAddrTrans_eq f]
  rw [ok_bind]
  apply prodLoops_spec hf.isEntries hp.isEntries

theorem prodPermTrans_spec (hp : IsPermBag w p σ) (hf : IsTransBag f φ)
    : ComputesTrans (prodPermTrans p.tnum f.tnum.dataType p f) (φ ∘ σ) := by
  unfold prodPermTrans
  rw [constAddrPermBag_eq p]
  rw [ok_bind]
  rw [constAddrTrans_eq f]
  rw [ok_bind]
  rw [PermTnum.resultType_comm]
  dsimp only
  rw [Nat.max_comm]
  apply prodLoops_spec hp.isEntries hf.isEntries

theorem powTransPerm_spec (hf : IsTransBag f φ) (hp : IsPermBag w p σ)
    : ComputesTrans (powTransPerm f.tnum.dataType p.tnum f p) (σ ∘ φ ∘ σ.symm) := by
  have hef := hf.isEntries
  have hep := hp.isEntries
  have c := isTransFill_comp hef hep (fun i hi => hep.fits.fix i (by omega))
  unfold powTransPerm
  rw [constAddrPermBag_eq p]
  rw [ok_bind]
  rw [constAddrTrans_eq f]
  rw [ok_bind]
  dsimp only
  rw [Nat.max_comm]
  split
  . next heq =>
    apply c.bind_scatter (isWritten_replicate _ _ _) (Nat.zero_le _) (Nat.le_refl _)
    . intro i _ hi
      rw [hep.readEntry_eq (by omega)]
    . intro i _ hi
      have hlt := hef.fits.lt i (by omega)
      rw [hef.readEntry_eq (by omega)]
      rw [ok_bind]
      rw [hep.readEntry_eq (by omega)]
      rfl
    . intro pt hpt
      apply c.newTrans hpt
  . apply c.bind_scatter (isWritten_replicate _ _ _) (Nat.zero_le _) (Nat.le_refl _)
    . intro i _ _
      rw [hep.IMAGE_eq]
    . intro i _ _
      rw [hef.IMAGE_eq]
      rw [ok_bind]
      rw [hep.IMAGE_eq]
      rfl
    . intro pt hpt
      apply c.newTrans hpt

theorem lQuoPermTrans_spec (hp : IsPermBag w p σ) (hf : IsTransBag f φ)
    : ComputesTrans (lQuoPermTrans p.tnum f.tnum.dataType p f) (φ ∘ σ.symm) := by
  have hef := hf.isEntries
  have hep := hp.isEntries
  have hcomp := isTransFill_comp hep hef (fun i hi => hep.fits.fix i (by omega))
  have hid : Fits p.tnum p.entries.length id := by
    have h1 := hp.deg_le
    have h2 := p.tnum.maxDeg_le w
    apply Fits.id
    omega
  have c : IsTransFill (p.tnum.resultType f.tnum.dataType) (max p.entries.length f.entries.length)
      σ φ := by
    constructor
    . apply hcomp.idx_fix
    . apply (hid.widen (PermTnum.bits_left _ _)).comp (hef.fits.widen (PermTnum.bits_right _ _))
    . apply hcomp.deg_le
  have hmax : (if p.entries.length < f.entries.length then f.entries.length else p.entries.length)
      = max p.entries.length f.entries.length := by
    split <;> omega
  unfold lQuoPermTrans
  rw [constAddrPermBag_eq p]
  rw [ok_bind]
  rw [constAddrTrans_eq f]
  rw [ok_bind]
  dsimp only
  rw [hmax]
  split
  . next hle =>
    apply c.bind_scatter (isWritten_replicate _ _ _) (Nat.zero_le _) (by omega)
    . intro i _ hi
      rw [hep.readEntry_eq hi]
    . intro i _ hi
      rw [hef.readEntry_eq (by omega)]
    . intro pt1 hpt1
      apply c.bind_scatter hpt1 hle (by omega)
      . intro i hlo _
        rw [hep.fits.fix i hlo]
        rfl
      . intro i _ hhi
        rw [hef.readEntry_eq hhi]
      . intro pt2 hpt2
        apply c.newTrans
        rw [Nat.max_eq_right hle] at hpt2 ⊢
        exact hpt2
  . next hlt =>
    apply c.bind_scatter (isWritten_replicate _ _ _) (Nat.zero_le _) (by omega)
    . intro i _ hi
      rw [hep.readEntry_eq (by omega)]
    . intro i _ hi
      rw [hef.readEntry_eq hi]
    . intro pt1 hpt1
      apply c.bind_scatter hpt1 (by omega) (by omega)
      . intro i _ hhi
        rw [hep.readEntry_eq hhi]
      . intro i hlo _
        rw [hef.fits.fix i hlo]
        rfl
      . intro pt2 hpt2
        apply c.newTrans
        rw [Nat.max_eq_left (by omega)] at hpt2 ⊢
        exact hpt2

end Spec
