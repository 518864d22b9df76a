import GapKernel.Permutat.Lemmas.Product
import GapKernel.Trans.Impl.Trans

open PermList List Function

/--
The point `i` stands for the integer `i + 1`. The degree is the least `n` such that the points from
`n` on are fixed, and are not the images of other points.
-/
def IsTransDegree (φ : Nat → Nat) (d : Nat) : Prop :=
  IsLeast {n | ∀ p, n ≤ p → φ p = p ∧ ∀ i, φ i = p → i = p} d

structure Fits (T : PermTnum) (n : Nat) (φ : Nat → Nat) : Prop where
  fix : ∀ i, n ≤ i → φ i = i
  lt : ∀ i, i < n → φ i < n
  lt_bits : ∀ i, i < n → φ i < 2 ^ T.bits

structure IsTransBag (f : TransBag) (φ : Nat → Nat) : Prop where
  acts : ∀ i, image f.entries i = φ i
  fits : Fits f.tnum.dataType f.entries.length φ
  deg_le : f.tnum = .trans2 → f.entries.length ≤ 65536
  ext : ∀ d, f.ext = some d → IsTransDegree φ d

theorem PermTnum.dataType_transTnum (T : PermTnum) : T.transTnum.dataType = T := by
  cases T with
  | perm2 => rfl
  | perm4 => rfl

theorem TransTnum.transTnum_dataType (tnum : TransTnum) : tnum.dataType.transTnum = tnum := by
  cases tnum with
  | trans2 => rfl
  | trans4 => rfl

theorem PermTnum.bits_left (TL TR : PermTnum) : TL.bits ≤ (TL.resultType TR).bits := by
  cases TL <;> cases TR <;> decide

theorem PermTnum.bits_right (TL TR : PermTnum) : TR.bits ≤ (TL.resultType TR).bits := by
  cases TL <;> cases TR <;> decide

theorem PermTnum.resultType_comm (TL TR : PermTnum) : TL.resultType TR = TR.resultType TL := by
  cases TL <;> cases TR <;> rfl

namespace Fits

variable {T : PermTnum} {n m : Nat} {φ ψ : Nat → Nat}

theorem widen {T' : PermTnum} (h : Fits T n φ) (hT : T.bits ≤ T'.bits) : Fits T' n φ where
  fix := h.fix
  lt := h.lt
  lt_bits := by
    intro i hi
    apply Nat.lt_of_lt_of_le (h.lt_bits i hi)
    apply Nat.pow_le_pow_right (by omega) hT

theorem id (hn : n ≤ 2 ^ T.bits) : Fits T n id where
  fix := fun _ _ => rfl
  lt := fun _ hi => hi
  lt_bits := fun _ hi => Nat.lt_of_lt_of_le hi hn

theorem comp (hφ : Fits T n φ) (hψ : Fits T m ψ) : Fits T (max n m) (ψ ∘ φ) where
  fix := by
    intro i hi
    rw [comp_apply]
    rw [hφ.fix i (by omega)]
    apply hψ.fix
    omega
  lt := by
    intro i hi
    rw [comp_apply]
    have hφi : φ i < max n m := by
      by_cases hin : i < n
      . have := hφ.lt i hin
        omega
      . rw [hφ.fix i (by omega)]
        exact hi
    by_cases hm : φ i < m
    . have := hψ.lt _ hm
      omega
    . rw [hψ.fix _ (by omega)]
      exact hφi
  lt_bits := by
    intro i hi
    rw [comp_apply]
    by_cases hm : φ i < m
    . apply hψ.lt_bits _ hm
    . rw [hψ.fix _ (by omega)]
      apply hφ.lt_bits
      by_contra hin
      rw [hφ.fix i (by omega)] at hm
      omega

theorem perm {w : IntSize} {p : PermBag} {σ : Equiv.Perm Nat} (h : IsPermBag w p σ)
    : Fits p.tnum p.entries.length σ where
  fix := fun _ hi => h.acts.fix hi
  lt := fun _ hi => h.acts.lt hi
  lt_bits := by
    intro i hi
    have h1 := h.acts.lt hi
    have h2 := h.deg_le
    have h3 := p.tnum.maxDeg_le w
    omega

end Fits

theorem isTransBag_newTrans {T : PermTnum} {pt : List Nat} {φ : Nat → Nat}
    (hacts : ∀ i, image pt i = φ i) (hfits : Fits T pt.length φ)
    (hdeg : T = .perm2 → pt.length ≤ 65536) : IsTransBag (newTrans T pt) φ where
  acts := hacts
  fits := by
    unfold newTrans
    rw [T.dataType_transTnum]
    exact hfits
  deg_le := by
    intro hT
    apply hdeg
    rw [← T.dataType_transTnum]
    change T.transTnum = .trans2 at hT
    rw [hT]
    rfl
  ext := by
    intro d hd
    contradiction

theorem readEntry_image {pt : List Nat} {i : Nat} (hi : i < pt.length)
    : readEntry pt i = .ok (image pt i) := by
  unfold readEntry
  rw [getElem?_eq_getElem hi]
  rw [image_of_lt hi]
  rfl

theorem IMAGE_image (i : Nat) (pt : List Nat) : IMAGE i pt pt.length = .ok (image pt i) := by
  unfold IMAGE
  split
  . next hi => apply readEntry_image hi
  . next hi =>
    rw [image_of_le (by omega)]
    rfl

section Scatter

variable {T : PermTnum} {n : Nat} {β : Nat → Nat} {α : Equiv.Perm Nat}

structure IsWritten (n : Nat) (α : Equiv.Perm Nat) (β : Nat → Nat) (k : Nat) (pt : List Nat)
    : Prop where
  length_eq : pt.length = n
  getElem?_eq : ∀ p, p < k → pt[α p]? = some (β p)

theorem isWritten_replicate (n : Nat) (α : Equiv.Perm Nat) (β : Nat → Nat)
    : IsWritten n α β 0 (List.replicate n 0) where
  length_eq := length_replicate
  getElem?_eq := by
    intro p hp
    omega

variable {pt : List Nat}

theorem IsWritten.succ {k : Nat} (h : IsWritten n α β k pt) (hk : α k < n) (hval : β k < 2 ^ T.bits)
    : ∃ pt', writeEntry T pt (α k) (β k) = .ok pt' ∧ IsWritten n α β (k + 1) pt' := by
  have hlen := h.length_eq
  refine ⟨pt.set (α k) (β k), ?_, ?_, ?_⟩
  . unfold writeEntry PermTnum.cast
    rw [if_pos (by omega)]
    rw [Nat.mod_eq_of_lt hval]
    rfl
  . rw [length_set]
    exact hlen
  . intro p hp
    by_cases hpk : p = k
    . rw [hpk]
      rw [getElem?_set_self (by omega)]
    . rw [getElem?_set_ne (fun heq => hpk (α.injective heq).symm)]
      apply h.getElem?_eq
      omega

theorem scatter_isWritten {lo hi : Nat} {idx val : Nat → Result Nat} (h : IsWritten n α β lo pt)
    (hle : lo ≤ hi) (hidx : ∀ p, lo ≤ p → p < hi → idx p = .ok (α p) ∧ α p < n)
    (hval : ∀ p, lo ≤ p → p < hi → val p = .ok (β p) ∧ β p < 2 ^ T.bits)
    : ∃ pt', scatter T lo hi idx val pt = .ok pt' ∧ IsWritten n α β hi pt' := by
  unfold scatter
  generalize hcount : hi - lo = count
  induction count generalizing lo pt with
  | zero =>
    have heq : hi = lo := by omega
    subst heq
    exact ⟨pt, rfl, h⟩
  | succ count ih =>
    obtain ⟨hi1, hi2⟩ := hidx lo (Nat.le_refl lo) (by omega)
    obtain ⟨hv1, hv2⟩ := hval lo (Nat.le_refl lo) (by omega)
    obtain ⟨pt1, hwrite, hwritten⟩ := h.succ hi2 hv2
    obtain ⟨pt', hfold, hwritten'⟩ := ih hwritten (by omega)
      (fun p hp => hidx p (by omega)) (fun p hp => hval p (by omega)) (by omega)
    refine ⟨pt', ?_, hwritten'⟩
    rw [range'_succ, foldlM_cons, hi1, hv1]
    simp only [bind, Except.bind]
    rw [hwrite]
    apply hfold

theorem IsWritten.acts (h : IsWritten n α β n pt) (hα : ∀ i, n ≤ i → α i = i)
    (hβ : ∀ i, n ≤ i → β i = i) (i : Nat) : image pt i = β (α.symm i) := by
  by_cases hi : i < n
  . have hpt := h.getElem?_eq (α.symm i) (symm_lt hα hi)
    rw [Equiv.apply_symm_apply] at hpt
    simp [image, hpt]
  . have hsymm : α.symm i = i := by
      rw [Equiv.symm_apply_eq]
      rw [hα i (by omega)]
    rw [image_of_le]
    . rw [hsymm]
      rw [hβ i (by omega)]
    . rw [h.length_eq]
      omega

end Scatter
