import GapKernel.Permutat.Lemmas.Scan
import GapKernel.Trans.Impl.Components
import GapKernel.Trans.Lemmas.Derived

open PermList TransImpl List
open Nat (lt_succ_self lt_succ_of_lt)

section Writes

variable {T : PermTnum} {ps : List Nat} {idx val : Nat → Result Nat} {α β : Nat → Nat}
  {pt : List Nat}

structure IsOverwritten (ps : List Nat) (α β : Nat → Nat) (pt pt' : List Nat) : Prop where
  length_eq : pt'.length = pt.length
  written : ∀ p ∈ ps, ∃ q ∈ ps, α q = α p ∧ pt'[α p]? = some (β q)
  old : ∀ x, (∀ p ∈ ps, α p ≠ x) → pt'[x]? = pt[x]?

theorem foldlM_write (hidx : ∀ p ∈ ps, idx p = .ok (α p) ∧ α p < pt.length)
    (hval : ∀ p ∈ ps, val p = .ok (β p) ∧ β p < 2 ^ T.bits)
    : ∃ pt', ps.foldlM (fun pt p => do writeEntry T pt (← idx p) (← val p)) pt = .ok pt'
        ∧ IsOverwritten ps α β pt pt' := by
  induction ps generalizing pt with
  | nil => exact ⟨pt, rfl, rfl, (fun p hp => nomatch hp), fun _ _ => rfl⟩
  | cons p ps ih =>
    obtain ⟨hp1, hp2⟩ := hidx p mem_cons_self
    obtain ⟨hv1, hv2⟩ := hval p mem_cons_self
    have hwrite : writeEntry T pt (α p) (β p) = .ok (pt.set (α p) (β p)) := by
      unfold writeEntry PermTnum.cast
      rw [if_pos hp2, Nat.mod_eq_of_lt hv2]
      rfl
    have hidx' : ∀ q ∈ ps, idx q = .ok (α q) ∧ α q < (pt.set (α p) (β p)).length := by
      intro q hq
      rw [length_set]
      exact hidx q (mem_cons_of_mem p hq)
    obtain ⟨pt', hrun, hover⟩ := ih hidx' (fun q hq => hval q (mem_cons_of_mem p hq))
    refine ⟨pt', ?_, ?_, ?_, ?_⟩
    . rw [foldlM_cons, hp1, hv1]
      change (writeEntry T pt (α p) (β p) >>= _) = _
      rw [hwrite]
      exact hrun
    . rw [hover.length_eq, length_set]
    . intro q hq
      by_cases hex : ∃ r ∈ ps, α r = α q
      . obtain ⟨r, hr, heq⟩ := hex
        obtain ⟨r', hr', heq', hget⟩ := hover.written r hr
        exact ⟨r', mem_cons_of_mem p hr', heq'.trans heq, by rw [← heq]; exact hget⟩
      . have hqp : q = p := by
          cases mem_cons.mp hq with
          | inl heq => exact heq
          | inr hmem => exact absurd ⟨q, hmem, rfl⟩ hex
        subst hqp
        refine ⟨q, mem_cons_self, rfl, ?_⟩
        rw [hover.old (α q) (fun r hr heq => hex ⟨r, hr, heq⟩), getElem?_set_self hp2]
    . intro x hx
      rw [hover.old x (fun q hq => hx q (mem_cons_of_mem p hq)),
        getElem?_set_ne (hx p mem_cons_self)]

variable {lo hi : Nat} (hidx : ∀ p, lo ≤ p → p < hi → idx p = .ok (α p) ∧ α p < pt.length)
  (hval : ∀ p, lo ≤ p → p < hi → val p = .ok (β p) ∧ β p < 2 ^ T.bits)

include hidx hval

theorem scatter_write
    : ∃ pt', scatter T lo hi idx val pt = .ok pt'
        ∧ IsOverwritten (range' lo (hi - lo)) α β pt pt' := by
  apply foldlM_write
  . intro p hp
    rw [mem_range'_1] at hp
    exact hidx p hp.1 (by omega)
  . intro p hp
    rw [mem_range'_1] at hp
    exact hval p hp.1 (by omega)

theorem scatterDown_write
    : ∃ pt', scatterDown T lo hi idx val pt = .ok pt'
        ∧ IsOverwritten (range' lo (hi - lo)).reverse α β pt pt' := by
  apply foldlM_write
  . intro p hp
    rw [mem_reverse, mem_range'_1] at hp
    exact hidx p hp.1 (by omega)
  . intro p hp
    rw [mem_reverse, mem_range'_1] at hp
    exact hval p hp.1 (by omega)

end Writes

section Inverse

variable {f : TransBag} {φ : Nat → Nat}

variable {n : Nat}

theorem isIdTransLoop_spec (hf : IsTransBag f φ) {i : Nat} (hn : i + n = f.entries.length)
    : ∃ b, isIdTransLoop f.entries n i = .ok b
        ∧ (b = true ↔ ∀ j, i ≤ j → j < f.entries.length → φ j = j) := by
  induction n generalizing i with
  | zero => exact ⟨true, rfl, iff_of_true rfl fun j hj hlt => by omega⟩
  | succ n ih =>
    unfold isIdTransLoop
    rw [hf.isEntries.readEntry_eq (by omega), ok_bind]
    split
    next hne =>
      refine ⟨false, rfl, iff_of_false Bool.false_ne_true ?_⟩
      intro h
      exact hne (h i (Nat.le_refl i) (by omega))
    next heq =>
      rw [not_not] at heq
      obtain ⟨b, hrun, hb⟩ := ih (i := i + 1) (by omega)
      refine ⟨b, hrun, hb.trans ⟨?_, ?_⟩⟩
      . intro h j hj hlt
        by_cases hji : j = i
        . rw [hji, heq]
        . exact h j (by omega) hlt
      . intro h j hj hlt
        exact h j (by omega) hlt

theorem funcIsIdTrans_spec (hf : IsTransBag f φ)
    : ∃ b, funcIsIdTrans f = .ok b ∧ (b = true ↔ ∀ j, φ j = j) := by
  obtain ⟨b, hrun, hb⟩ := isIdTransLoop_spec hf (Nat.zero_add _)
  refine ⟨b, hrun, hb.trans ⟨?_, ?_⟩⟩
  . intro h j
    by_cases hj : j < f.entries.length
    . exact h j (Nat.zero_le j) hj
    . exact hf.fits.fix j (by omega)
  . intro h j _ _
    exact h j

def IsInverse (φ χ : Nat → Nat) : Prop :=
  (∀ i, φ (χ (φ i)) = φ i) ∧ ∀ i, χ (φ (χ i)) = χ i

theorem IsTransBag.length_le (hf : IsTransBag f φ) (hlt : f.entries.length < 2 ^ 32)
    : f.entries.length ≤ 2 ^ f.tnum.dataType.bits := by
  cases htnum : f.tnum with
  | trans2 => exact hf.deg_le htnum
  | trans4 => exact Nat.le_of_lt hlt

theorem fits_of_entries {T : PermTnum} {l : List Nat} (hlen : l.length = n) (hn : n ≤ 2 ^ T.bits)
    (h : ∀ y, y < n → ∃ v, v < n ∧ l[y]? = some v)
    : Fits T l.length (image l) where
  fix := fun _ hi => image_of_le hi
  lt := by
    intro i hi
    obtain ⟨v, hv, hget⟩ := h i (by omega)
    rw [image_eq_of_getElem? hget]
    omega
  lt_bits := by
    intro i hi
    obtain ⟨v, hv, hget⟩ := h i (by omega)
    rw [image_eq_of_getElem? hget]
    omega

theorem isInverse_of_entries (hf : IsTransBag f φ) (hn : n = f.entries.length) {l : List Nat}
    (hlen : l.length = n) (himg : ∀ i, i < n → ∃ j, j < n ∧ φ j = φ i ∧ l[φ i]? = some j)
    (hother : ∀ y, y < n → (∀ i, i < n → φ i ≠ y) → l[y]? = some 0) (hzero : l[φ 0]? = some 0)
    : IsInverse φ (image l) := by
  have hpre : ∀ i, φ (image l (φ i)) = φ i := by
    intro i
    by_cases hi : i < n
    . obtain ⟨j, _, hj, hget⟩ := himg i hi
      rw [image_eq_of_getElem? hget, hj]
    . rw [hf.fits.fix i (by omega), image_of_le (by omega), hf.fits.fix i (by omega)]
  refine ⟨hpre, fun y => ?_⟩
  by_cases hy : y < n
  . by_cases hex : ∃ i, i < n ∧ φ i = y
    . obtain ⟨i, hi, rfl⟩ := hex
      rw [hpre]
    . rw [image_eq_of_getElem? (hother y hy fun i hi heq => hex ⟨i, hi, heq⟩),
        image_eq_of_getElem? hzero]
  . have hy' : image l y = y := image_of_le (by omega)
    rw [hy', hf.fits.fix y (by omega), hy']

theorem funcInverseOfTransformation_spec (hf : IsTransBag f φ) (hlt : f.entries.length < 2 ^ 32)
    : ∃ g χ, funcInverseOfTransformation f = .ok g ∧ IsTransBag g χ ∧ IsInverse φ χ := by
  unfold funcInverseOfTransformation
  obtain ⟨b, hid, hb⟩ := funcIsIdTrans_spec hf
  rw [hid, ok_bind]
  split
  next htrue =>
    rw [hb] at htrue
    refine ⟨f, φ, rfl, hf, ?_, ?_⟩
    . intro i
      rw [htrue, htrue]
    . intro i
      rw [htrue, htrue]
  next hfalse =>
    have hpos : 0 < f.entries.length := by
      apply Nat.pos_of_ne_zero
      intro hzero
      exact hfalse (hb.mpr fun j => hf.fits.fix j (by omega))
    have hbits := hf.length_le hlt
    have hidx : ∀ p, 1 ≤ p → p < f.entries.length → readEntry f.entries p = .ok (φ p)
        ∧ φ p < (replicate f.entries.length 0).length := by
      intro p _ hp
      rw [length_replicate]
      exact ⟨hf.isEntries.readEntry_eq hp, hf.fits.lt p hp⟩
    have hval : ∀ p, 1 ≤ p → p < f.entries.length → (pure p : Result Nat) = .ok (id p)
        ∧ id p < 2 ^ f.tnum.dataType.bits :=
      fun p _ hp => ⟨rfl, Nat.lt_of_lt_of_le hp hbits⟩
    obtain ⟨pt1, hrun, hover⟩ := scatterDown_write hidx hval
    have hlen := hover.length_eq
    rw [length_replicate] at hlen
    have h0 := hf.fits.lt 0 hpos
    have hwrite : writeEntry f.tnum.dataType pt1 (φ 0) 0 = .ok (pt1.set (φ 0) 0) := by
      unfold writeEntry PermTnum.cast
      rw [if_pos (by omega), Nat.zero_mod]
      rfl
    dsimp only
    rw [hrun, ok_bind, hf.isEntries.readEntry_eq hpos, ok_bind, hwrite, ok_bind]
    have hset : ∀ y, (pt1.set (φ 0) 0)[y]? = if φ 0 = y then some 0 else pt1[y]? := by
      intro y
      rw [getElem?_set]
      split
      next heq => rw [if_pos (by omega)]
      next => rfl
    have hmem : ∀ i, i ∈ (range' 1 (f.entries.length - 1)).reverse
        ↔ 0 < i ∧ i < f.entries.length := by
      intro i
      rw [mem_reverse, mem_range'_1]
      omega
    have himg : ∀ i, i < f.entries.length → ∃ j, j < f.entries.length ∧ φ j = φ i
        ∧ (pt1.set (φ 0) 0)[φ i]? = some j := by
      intro i hi
      rw [hset]
      split
      next heq => exact ⟨0, hpos, heq, rfl⟩
      next hne =>
        have hi0 : 0 < i := by
          apply Nat.pos_of_ne_zero
          rintro rfl
          exact hne rfl
        obtain ⟨j, hj, hji, hget⟩ := hover.written i ((hmem i).mpr ⟨hi0, hi⟩)
        exact ⟨j, ((hmem j).mp hj).2, hji, hget⟩
    have hother : ∀ y, y < f.entries.length → (∀ i, i < f.entries.length → φ i ≠ y)
        → (pt1.set (φ 0) 0)[y]? = some 0 := by
      intro y hy hne
      rw [hset, if_neg (hne 0 hpos), hover.old y fun p hp => hne p ((hmem p).mp hp).2,
        getElem?_replicate, if_pos hy]
    have hzero : (pt1.set (φ 0) 0)[φ 0]? = some 0 := by
      rw [hset, if_pos rfl]
    have hlen' : (pt1.set (φ 0) 0).length = f.entries.length := by
      rw [length_set, hlen]
    refine ⟨_, image (pt1.set (φ 0) 0), rfl, ?_,
      isInverse_of_entries hf rfl hlen' himg hother hzero⟩
    apply isTransBag_newTrans (fun _ => rfl)
    . apply fits_of_entries hlen' hbits
      intro y hy
      by_cases hex : ∃ i, i < f.entries.length ∧ φ i = y
      . obtain ⟨i, hi, rfl⟩ := hex
        obtain ⟨j, hj, _, hget⟩ := himg i hi
        exact ⟨j, hj, hget⟩
      . exact ⟨0, hpos, hother y hy fun i hi heq => hex ⟨i, hi, heq⟩⟩
    . intro htnum
      rw [hlen']
      apply hf.deg_le
      rw [← f.tnum.transTnum_dataType, htnum]
      rfl

end Inverse

section ImgConj

variable {φ ψ : Nat → Nat} {n m k : Nat} {s : ImgConjState}

structure IsImgConj (φ ψ : Nat → Nat) (n m k : Nat) (s : ImgConjState) : Prop where
  length_src : s.ptsrc.length = n
  length_dst : s.ptdst.length = n
  length_ptp : s.ptp.length = n
  src : ∀ x, x < m → ∃ v, s.ptsrc[x]? = some v ∧ (v = 0 ↔ ∀ i, i < k → φ i ≠ x)
  dst : ∀ x, x < n → ∃ v, s.ptdst[x]? = some v ∧ (v = 0 ↔ ∀ i, i < k → ψ i ≠ x)
  ptp : ∀ i, i < k → s.ptp[φ i]? = some (ψ i)

theorem isImgConj_zero (hm : m ≤ n)
    : IsImgConj φ ψ n m 0 ⟨resizeInitTmpTrans n, resizeInitTmpTrans n, resizeInitTmpTrans n⟩ where
  length_src := length_replicate
  length_dst := length_replicate
  length_ptp := length_replicate
  src := by
    intro x hx
    exact ⟨0, getElem?_replicate_of_lt (by omega), iff_of_true rfl fun i hi => by omega⟩
  dst := by
    intro x hx
    exact ⟨0, getElem?_replicate_of_lt hx, iff_of_true rfl fun i hi => by omega⟩
  ptp := by
    intro i hi
    omega

variable {l : List Nat}

theorem flag_succ {χ : Nat → Nat}
    (h : ∀ x, x < m → ∃ v, l[x]? = some v ∧ (v = 0 ↔ ∀ i, i < k → χ i ≠ x))
    : ∀ x, x < m → ∃ v, (l.set (χ k) 1)[x]? = some v ∧ (v = 0 ↔ ∀ i, i < k + 1 → χ i ≠ x) := by
  intro x hx
  obtain ⟨v, hv, hiff⟩ := h x hx
  rw [getElem?_set]
  split
  next heq =>
    subst heq
    have hlt := (List.getElem?_eq_some_iff.mp hv).1
    rw [if_pos hlt]
    refine ⟨1, rfl, iff_of_false Nat.one_ne_zero ?_⟩
    intro hne
    exact hne k (lt_succ_self k) rfl
  next hne =>
    refine ⟨v, hv, hiff.trans ⟨?_, ?_⟩⟩
    . intro hall i hi
      cases Nat.lt_succ_iff_lt_or_eq.mp hi with
      | inl hlt => exact hall i hlt
      | inr heq =>
        rw [heq]
        exact hne
    . intro hall i hi
      exact hall i (lt_succ_of_lt hi)

theorem imgConjRound_spec (h : IsImgConj φ ψ n m k s) (hker : ∀ i j, φ i = φ j → ψ i = ψ j)
    {b : Bool} {src dst : Nat → Result Nat} (hsrc : src k = .ok (φ k)) (hdst : dst k = .ok (ψ k))
    (hb : b = false → m ≤ φ k) (hφ : φ k < n) (hψ : ψ k < n) (hn : n ≤ 2 ^ 32)
    : ∃ s', imgConjRound b src dst k s = .ok s' ∧ IsImgConj φ ψ n m (k + 1) s' := by
  have hlsrc := h.length_src
  have hldst := h.length_dst
  have hlptp := h.length_ptp
  have hptp : ∀ i, i < k + 1 → (s.ptp.set (φ k) (ψ k))[φ i]? = some (ψ i) := by
    intro i hi
    rw [getElem?_set]
    split
    next heq =>
      rw [if_pos (by omega), hker k i heq]
    next hne =>
      apply h.ptp
      apply Nat.lt_of_le_of_ne (Nat.le_of_lt_succ hi)
      rintro rfl
      exact hne rfl
  have hone : 1 < 2 ^ 32 := by
    decide
  have hwsrc := writeEntry_perm4 (show φ k < s.ptsrc.length by omega) hone
  have hwdst := writeEntry_perm4 (show ψ k < s.ptdst.length by omega) hone
  have hwptp := writeEntry_perm4 (show φ k < s.ptp.length by omega) (show ψ k < 2 ^ 32 by omega)
  unfold imgConjRound
  rw [hsrc, ok_bind, hdst, ok_bind, hwdst, hwptp]
  cases b with
  | true =>
    rw [if_pos rfl, hwsrc]
    exact ⟨_, rfl, by rw [length_set, hlsrc], by rw [length_set, hldst],
      by rw [length_set, hlptp], flag_succ h.src, flag_succ h.dst, hptp⟩
  | false =>
    refine ⟨_, rfl, hlsrc, by rw [length_set, hldst], by rw [length_set, hlptp], ?_,
      flag_succ h.dst, hptp⟩
    intro x hx
    obtain ⟨v, hv, hiff⟩ := h.src x hx
    have hle := hb rfl
    refine ⟨v, hv, hiff.trans ⟨?_, ?_⟩⟩
    . intro hall i hi
      cases Nat.lt_succ_iff_lt_or_eq.mp hi with
      | inl hlt => exact hall i hlt
      | inr heq =>
        rw [heq]
        omega
    . intro hall i hi
      exact hall i (lt_succ_of_lt hi)

theorem unusedLoop_spec {U : Nat → Prop} (h : ∀ x, x < n → ∃ v, l[x]? = some v ∧ (v = 0 ↔ U x))
    {fuel j y : Nat} (hy : U y) (hyn : y < n) (hjy : j ≤ y) (hfuel : y - j < fuel)
    : ∃ j', unusedLoop l fuel j = .ok j' ∧ j ≤ j' ∧ j' < n ∧ U j'
        ∧ ∀ x, j ≤ x → x < j' → ¬U x := by
  induction fuel generalizing j with
  | zero => omega
  | succ fuel ih =>
    obtain ⟨v, hv, hiff⟩ := h j (by omega)
    unfold unusedLoop
    rw [readEntry_of_getElem? hv, ok_bind]
    split
    next hne =>
      have hj : ¬U j := fun hU => hne (hiff.mpr hU)
      have hlt : j < y := by
        apply Nat.lt_of_le_of_ne hjy
        rintro rfl
        exact hj hy
      obtain ⟨j', hrun, hle, hlt', hU, hbetween⟩ := ih hlt (by omega)
      refine ⟨j', hrun, by omega, hlt', hU, fun x hx hx' => ?_⟩
      by_cases hxj : x = j
      . rw [hxj]
        exact hj
      . exact hbetween x (by omega) hx'
    next heq =>
      rw [not_not] at heq
      exact ⟨j, rfl, Nat.le_refl j, by omega, hiff.mp heq, fun x hx hx' => by omega⟩

section Complete

variable {S U : Nat → Prop} [DecidablePred S] [DecidablePred U]

structure IsCompleted (S U : Nat → Prop) [DecidablePred S] [DecidablePred U] (pt0 : List Nat)
    (n i : Nat) (s : List Nat × Nat) : Prop where
  length_eq : s.1.length = n
  le : s.2 ≤ n
  card_eq : ((Finset.range i).filter S).card = ((Finset.range s.2).filter U).card
  new : ∀ x, x < i → S x → ∃ v, s.1[x]? = some v ∧ v < s.2 ∧ U v
  inj : ∀ x y, x < i → y < i → S x → S y → s.1[x]? = s.1[y]? → x = y
  old : ∀ x, ¬(x < i ∧ S x) → s.1[x]? = pt0[x]?

theorem filter_range_succ_card (P : Nat → Prop) [DecidablePred P] (i : Nat)
    : ((Finset.range (i + 1)).filter P).card
        = ((Finset.range i).filter P).card + if P i then 1 else 0 := by
  rw [Finset.range_add_one, Finset.filter_insert]
  split
  next h =>
    rw [Finset.card_insert_of_notMem]
    simp
  next h => rfl

variable {i : Nat}

section

variable (P : Nat → Prop) [DecidablePred P] {j : Nat} (h : i ≤ j)

include P h

theorem filter_range_card_mono
    : ((Finset.range i).filter P).card ≤ ((Finset.range j).filter P).card :=
  Finset.card_le_card (Finset.filter_subset_filter P (Finset.range_mono h))

theorem filter_range_card_eq (hne : ∀ x, i ≤ x → x < j → ¬P x)
    : ((Finset.range j).filter P).card = ((Finset.range i).filter P).card := by
  congr 1
  ext x
  rw [Finset.mem_filter, Finset.mem_filter, Finset.mem_range, Finset.mem_range]
  constructor
  . rintro ⟨hx, hP⟩
    refine ⟨?_, hP⟩
    by_contra hge
    exact hne x (by omega) hx hP
  . rintro ⟨hx, hP⟩
    exact ⟨by omega, hP⟩

end

variable {pt0 : List Nat}

theorem completeRound_spec {ptsrc ptdst : List Nat} {s : List Nat × Nat}
    (hsrc : ∃ v, ptsrc[i]? = some v ∧ (v = 0 ↔ S i))
    (hdst : ∀ x, x < n → ∃ v, ptdst[x]? = some v ∧ (v = 0 ↔ U x)) (hlen : ptdst.length = n)
    (hn : n ≤ 2 ^ 32) (hi : i < n)
    (hcard : ((Finset.range n).filter S).card = ((Finset.range n).filter U).card)
    (h : IsCompleted S U pt0 n i s)
    : ∃ s', completeRound ptsrc ptdst i s = .ok s' ∧ IsCompleted S U pt0 n (i + 1) s' := by
  obtain ⟨v, hv, hiff⟩ := hsrc
  unfold completeRound
  rw [readEntry_of_getElem? hv, ok_bind]
  split
  next hzero =>
    rw [hiff] at hzero
    have hmore := filter_range_card_mono S (Nat.succ_le_of_lt hi)
    rw [filter_range_succ_card, if_pos hzero, hcard, h.card_eq] at hmore
    obtain ⟨y, hy, hyn, hjy⟩ : ∃ y, U y ∧ y < n ∧ s.2 ≤ y := by
      by_contra hno
      have := filter_range_card_eq U h.le fun x hx hxn hU => hno ⟨x, hU, hxn, hx⟩
      omega
    obtain ⟨j', hrun, hle, hlt, hU, hbetween⟩ := unusedLoop_spec hdst hy hyn hjy
      (show y - s.2 < ptdst.length + 1 by omega)
    rw [hrun, ok_bind, writeEntry_perm4 (by rw [h.length_eq]; exact hi) (by omega), ok_bind]
    have hlen1 := h.length_eq
    have hget : (s.1.set i j')[i]? = some j' := getElem?_set_self (by omega)
    have hgetne : ∀ x, x ≠ i → (s.1.set i j')[x]? = s.1[x]? := by
      intro x hx
      exact getElem?_set_ne (fun heq => hx heq.symm)
    refine ⟨_, rfl, by rw [length_set, hlen1], hlt, ?_, ?_, ?_, ?_⟩
    . dsimp only
      rw [filter_range_succ_card, if_pos hzero, filter_range_succ_card, if_pos hU,
        filter_range_card_eq U hle hbetween, h.card_eq]
    . intro x hx hS
      by_cases hxi : x = i
      . rw [hxi]
        exact ⟨j', hget, lt_succ_self j', hU⟩
      . obtain ⟨v', hv', hlt', hU'⟩ := h.new x (by omega) hS
        exact ⟨v', (hgetne x hxi).trans hv', lt_succ_of_lt (Nat.lt_of_lt_of_le hlt' hle), hU'⟩
    . have hdiff : ∀ x, x < i → S x → s.1[x]? ≠ some j' := by
        intro x hx hS heq
        obtain ⟨v', hv', hlt', _⟩ := h.new x hx hS
        rw [hv'] at heq
        cases heq
        omega
      intro x y hx hy hSx hSy heq
      by_cases hxi : x = i
      . by_cases hyi : y = i
        . rw [hxi, hyi]
        . rw [hxi, hget, hgetne y hyi] at heq
          exact absurd heq.symm (hdiff y (by omega) hSy)
      . by_cases hyi : y = i
        . rw [hyi, hget, hgetne x hxi] at heq
          exact absurd heq (hdiff x (by omega) hSx)
        . rw [hgetne x hxi, hgetne y hyi] at heq
          exact h.inj x y (by omega) (by omega) hSx hSy heq
    . intro x hx
      have hxi : x ≠ i := by
        rintro rfl
        exact hx ⟨lt_succ_self x, hzero⟩
      rw [hgetne x hxi]
      apply h.old
      rintro ⟨hlt', hS⟩
      exact hx ⟨lt_succ_of_lt hlt', hS⟩
  next hne =>
    rw [hiff] at hne
    have hlt : ∀ x, x < i + 1 → S x → x < i := by
      intro x hx hS
      apply Nat.lt_of_le_of_ne (Nat.le_of_lt_succ hx)
      rintro rfl
      exact hne hS
    refine ⟨s, rfl, h.length_eq, h.le, ?_, ?_, ?_, ?_⟩
    . rw [filter_range_succ_card, if_neg hne, h.card_eq]
      rfl
    . intro x hx hS
      exact h.new x (hlt x hx hS) hS
    . intro x y hx hy hSx hSy heq
      exact h.inj x y (hlt x hx hSx) (hlt y hy hSy) hSx hSy heq
    . intro x hx
      apply h.old
      rintro ⟨hx', hS⟩
      exact hx ⟨lt_succ_of_lt hx', hS⟩

theorem isCompleted_zero (hlen : pt0.length = n)
    : IsCompleted S U pt0 n 0 (pt0, 0) where
  length_eq := hlen
  le := Nat.zero_le n
  card_eq := rfl
  new := by
    intro x hx
    omega
  inj := by
    intro x y hx
    omega
  old := fun _ _ => rfl

theorem IsCompleted.extend {s : List Nat × Nat} (h : IsCompleted S U pt0 n i s) (hi : i ≤ n)
    (hne : ∀ x, i ≤ x → x < n → ¬S x)
    : IsCompleted S U pt0 n n s := by
  have hlt : ∀ x, x < n → S x → x < i := by
    intro x hx hS
    by_contra hge
    exact hne x (by omega) hx hS
  refine ⟨h.length_eq, h.le, ?_, fun x hx hS => h.new x (hlt x hx hS) hS, ?_, ?_⟩
  . rw [filter_range_card_eq S hi hne, h.card_eq]
  . intro x y hx hy hSx hSy heq
    exact h.inj x y (hlt x hx hSx) (hlt y hy hSy) hSx hSy heq
  . intro x hx
    apply h.old
    rintro ⟨hx', hS⟩
    exact hx ⟨by omega, hS⟩

end Complete

theorem card_image_eq (hker : ∀ i j, φ i = φ j ↔ ψ i = ψ j) (t : Finset Nat)
    : (t.image φ).card = (t.image ψ).card := by
  have hle : ∀ α β : Nat → Nat, (∀ i j, α i = α j → β i = β j)
      → (t.image β).card ≤ (t.image α).card := by
    intro α β h
    have hsub : t.image β ⊆ (t.image α).image (fun y => β (Function.invFun α y)) := by
      intro y hy
      obtain ⟨i, hi, rfl⟩ := Finset.mem_image.mp hy
      refine Finset.mem_image.mpr ⟨α i, Finset.mem_image_of_mem α hi, ?_⟩
      exact h _ _ (Function.invFun_eq ⟨i, rfl⟩)
    exact (Finset.card_le_card hsub).trans Finset.card_image_le
  exact Nat.le_antisymm (hle ψ φ fun i j => (hker i j).mpr) (hle φ ψ fun i j => (hker i j).mp)

theorem card_filter_eq (hker : ∀ i j, φ i = φ j ↔ ψ i = ψ j) (hφ : ∀ i, i < n → φ i < n)
    (hψ : ∀ i, i < n → ψ i < n) [DecidablePred fun x => ∀ i, i < n → φ i ≠ x]
    [DecidablePred fun x => ∀ i, i < n → ψ i ≠ x]
    : ((Finset.range n).filter fun x => ∀ i, i < n → φ i ≠ x).card
        = ((Finset.range n).filter fun x => ∀ i, i < n → ψ i ≠ x).card := by
  have hcount : ∀ (χ : Nat → Nat) [DecidablePred fun x => ∀ i, i < n → χ i ≠ x],
      (∀ i, i < n → χ i < n) → ((Finset.range n).filter fun x => ∀ i, i < n → χ i ≠ x).card
        = n - ((Finset.range n).image χ).card := by
    intro χ _ hχ
    have heq : (Finset.range n).filter (fun x => ∀ i, i < n → χ i ≠ x)
        = Finset.range n \ (Finset.range n).image χ := by
      ext x
      rw [Finset.mem_filter, Finset.mem_sdiff, Finset.mem_image]
      apply and_congr_right
      intro _
      constructor
      . rintro h ⟨i, hi, heq⟩
        exact h i (Finset.mem_range.mp hi) heq
      . intro h i hi heq
        exact h ⟨i, Finset.mem_range.mpr hi, heq⟩
    rw [heq, Finset.card_sdiff_of_subset, Finset.card_range]
    intro x hx
    obtain ⟨i, hi, rfl⟩ := Finset.mem_image.mp hx
    rw [Finset.mem_range] at hi ⊢
    exact hχ i hi
  rw [hcount φ hφ, hcount ψ hψ, card_image_eq hker]

theorem acts_of_completed {S U : Nat → Prop} [DecidablePred S] [DecidablePred U] {pt0 : List Nat}
    {j : Nat} (h : IsCompleted S U pt0 n n (l, j)) (hS : ∀ x, S x ↔ ∀ i, i < n → φ i ≠ x)
    (hU : ∀ x, U x ↔ ∀ i, i < n → ψ i ≠ x) (hptp : ∀ i, i < n → pt0[φ i]? = some (ψ i))
    (hker : ∀ i j, φ i = φ j ↔ ψ i = ψ j) (hψ : ∀ i, i < n → ψ i < n)
    : ∃ σ, Acts l σ ∧ ∀ i, i < n → σ (φ i) = ψ i := by
  have himg : ∀ i, i < n → l[φ i]? = some (ψ i) := by
    intro i hi
    rw [← hptp i hi]
    apply h.old
    rintro ⟨_, hSi⟩
    exact (hS _).mp hSi i hi rfl
  have hcases : ∀ x, x < n → (∃ i, i < n ∧ φ i = x ∧ image l x = ψ i)
      ∨ S x ∧ ∃ v, l[x]? = some v ∧ v < n ∧ U v ∧ image l x = v := by
    intro x hx
    by_cases hSx : S x
    . obtain ⟨v, hv, hlt, hUv⟩ := h.new x hx hSx
      exact Or.inr ⟨hSx, v, hv, Nat.lt_of_lt_of_le hlt h.le, hUv, image_eq_of_getElem? hv⟩
    . rw [hS] at hSx
      push Not at hSx
      obtain ⟨i, hi, rfl⟩ := hSx
      exact Or.inl ⟨i, hi, rfl, image_eq_of_getElem? (himg i hi)⟩
  have hlen : l.length = n := h.length_eq
  obtain ⟨σ, hσ⟩ := exists_acts (l := l) (by
    intro x hx
    rw [hlen] at hx ⊢
    rcases hcases x hx with ⟨i, hi, _, hv⟩ | ⟨_, v, _, hlt, _, hv⟩
    . rw [hv]
      exact hψ i hi
    . rw [hv]
      exact hlt) (by
    intro x y hx hy heq
    rw [hlen] at hx hy
    rcases hcases x hx with ⟨i, hi, hix, hv⟩ | ⟨hSx, v, hgv, _, hUv, hv⟩
    . rcases hcases y hy with ⟨i', hi', hiy, hv'⟩ | ⟨_, v', _, _, hUv', hv'⟩
      . rw [hv, hv', ← hker] at heq
        rw [← hix, ← hiy, heq]
      . rw [hv, hv'] at heq
        exact absurd heq ((hU v').mp hUv' i hi)
    . rcases hcases y hy with ⟨i', hi', hiy, hv'⟩ | ⟨hSy, v', hgv', _, hUv', hv'⟩
      . rw [hv, hv'] at heq
        exact absurd heq.symm ((hU v).mp hUv i' hi')
      . rw [hv, hv'] at heq
        exact h.inj x y hx hy hSx hSy (by rw [hgv, hgv', heq]))
  refine ⟨σ, hσ, fun i hi => ?_⟩
  rw [← hσ, image_eq_of_getElem? (himg i hi)]

open Classical in
theorem funcTransImgConj_spec {f g : TransBag} (hf : IsTransBag f φ) (hg : IsTransBag g ψ)
    (hfl : f.entries.length < 2 ^ 32) (hgl : g.entries.length < 2 ^ 32)
    (hker : ∀ i j, φ i = φ j ↔ ψ i = ψ j)
    : ∃ p σ, funcTransImgConj f g = .ok p ∧ p.tnum = .perm4
        ∧ p.entries.length = max f.entries.length g.entries.length ∧ Acts p.entries σ
        ∧ ∀ i, σ (φ i) = ψ i := by
  generalize hn : max f.entries.length g.entries.length = n
  have hnl : n ≤ 2 ^ 32 := by
    omega
  have hφ : ∀ i, i < n → φ i < n := by
    intro i hi
    by_cases hlt : i < f.entries.length
    . have := hf.fits.lt i hlt
      omega
    . rw [hf.fits.fix i (by omega)]
      exact hi
  have hψ : ∀ i, i < n → ψ i < n := by
    intro i hi
    by_cases hlt : i < g.entries.length
    . have := hg.fits.lt i hlt
      omega
    . rw [hg.fits.fix i (by omega)]
      exact hi
  have hmax : (if f.entries.length < g.entries.length then g.entries.length
      else f.entries.length) = n := by
    split <;> omega
  have hmin : ∀ m, m = (if f.entries.length < g.entries.length then f.entries.length
      else g.entries.length) → m ≤ f.entries.length ∧ m ≤ g.entries.length
        ∧ (m = f.entries.length ∨ m = g.entries.length) := by
    intro m hm
    split at hm <;> omega
  unfold funcTransImgConj
  dsimp only
  rw [hmax]
  generalize hm : (if f.entries.length < g.entries.length then f.entries.length
      else g.entries.length) = m
  obtain ⟨hmf, hmg, hmor⟩ := hmin m hm.symm
  have hφψ : ∀ i j, φ i = φ j → ψ i = ψ j := fun i j => (hker i j).mp
  have hpuref : ∀ k, f.entries.length ≤ k → (pure : Nat → Result Nat) k = .ok (φ k) := by
    intro k hk
    rw [hf.fits.fix k hk]
    rfl
  have hpureg : ∀ k, g.entries.length ≤ k → (pure : Nat → Result Nat) k = .ok (ψ k) := by
    intro k hk
    rw [hg.fits.fix k hk]
    rfl
  obtain ⟨s1, hrun1, hs1⟩ := forLoop_spec (IsImgConj φ ψ n f.entries.length) (n := m)
    (fun k s _ hk hs => imgConjRound_spec (b := true) hs hφψ
      (hf.isEntries.readEntry_eq (show k < f.entries.length by omega))
      (hg.isEntries.readEntry_eq (show k < g.entries.length by omega)) (fun h => nomatch h)
      (hφ k (by omega)) (hψ k (by omega)) hnl)
    (isImgConj_zero (φ := φ) (ψ := ψ) (show f.entries.length ≤ n by omega))
  rw [Nat.zero_add] at hs1
  obtain ⟨s2, hrun2, hs2⟩ := forLoop_spec (IsImgConj φ ψ n f.entries.length)
    (n := g.entries.length - m)
    (fun k s hle hk hs => imgConjRound_spec (b := false) hs hφψ
      (hpuref k (by omega))
      (hg.isEntries.readEntry_eq (show k < g.entries.length by omega))
      (fun _ => by rw [hf.fits.fix k (by omega)]; omega) (hφ k (by omega)) (hψ k (by omega)) hnl)
    hs1
  rw [show m + (g.entries.length - m) = g.entries.length by omega] at hs2
  obtain ⟨s3, hrun3, hs3⟩ := forLoop_spec (IsImgConj φ ψ n f.entries.length)
    (n := f.entries.length - g.entries.length)
    (fun k s hle hk hs => imgConjRound_spec (b := true) hs hφψ
      (hf.isEntries.readEntry_eq (show k < f.entries.length by omega))
      (hpureg k (by omega)) (fun h => nomatch h) (hφ k (by omega))
      (hψ k (by omega)) hnl) hs2
  rw [show g.entries.length + (f.entries.length - g.entries.length) = n by omega] at hs3
  have hfn : f.entries.length ≤ n := by
    omega
  obtain ⟨⟨ptp, j⟩, hrun4, hs4⟩ := forLoop_spec
    (IsCompleted (fun x => ∀ i, i < n → φ i ≠ x) (fun x => ∀ i, i < n → ψ i ≠ x) s3.ptp n)
    (n := f.entries.length)
    (fun i s _ hi hs => completeRound_spec (hs3.src i (by omega)) hs3.dst hs3.length_dst hnl
      (by omega) (card_filter_eq hker hφ hψ) hs) (isCompleted_zero hs3.length_ptp)
  rw [Nat.zero_add] at hs4
  have hend := hs4.extend hfn fun x hx hxn hne => hne x hxn (hf.fits.fix x hx)
  obtain ⟨σ, hσ, hacts⟩ := acts_of_completed hend (fun _ => Iff.rfl) (fun _ => Iff.rfl) hs3.ptp hker
    hψ
  rw [hrun1, ok_bind, hrun2, ok_bind, hrun3, ok_bind, hrun4, ok_bind]
  have hlen : ptp.length = n := hend.length_eq
  refine ⟨_, σ, rfl, rfl, hlen, hσ, fun i => ?_⟩
  by_cases hi : i < n
  . exact hacts i hi
  . rw [hf.fits.fix i (by omega), hg.fits.fix i (by omega), hσ.fix (by omega)]

end ImgConj

section Kernels

open FirstOccurrence

variable {ξ : Nat → Nat} {len : Nat} {X : IntPlist}

variable {i : Nat}

theorem idxOf_values_inj {j : Nat} (hi : i < len)
    : (values ξ len).idxOf (ξ i) = (values ξ len).idxOf (ξ j) ↔ ξ i = ξ j := by
  apply idxOf_inj
  . exact (mem_values ξ).mpr ⟨i, hi, rfl⟩

theorem idxOf_values_le (hi : i < len) : (values ξ len).idxOf (ξ i) ≤ i := by
  have hmem : ξ i ∈ values ξ (i + 1) := (mem_values ξ).mpr ⟨i, lt_succ_self i, rfl⟩
  rw [idxOf_values ξ hi hmem]
  exact Nat.le_of_lt_succ
    (Nat.lt_of_lt_of_le (idxOf_lt_length_of_mem hmem) (length_values_le ξ (i + 1)))

theorem kerPoint_eq (hX : X.entries = flatKernel ξ len) (hi : i < len)
    : kerPoint X i = .ok ((values ξ len).idxOf (ξ i)) := by
  unfold kerPoint
  rw [hX, elmPlist_of_getElem? (getElem?_flatKernel ξ hi)]
  rfl

theorem length_resizeTmpTrans (tmp : List Nat) (n : Nat) : n ≤ (resizeTmpTrans tmp n).length := by
  unfold resizeTmpTrans
  rw [length_append, length_replicate]
  omega

theorem IsOverwritten.written_of_inj {ps : List Nat} {α β : Nat → Nat} {pt pt' : List Nat}
    (h : IsOverwritten ps α β pt pt') (hinj : ∀ p ∈ ps, ∀ q ∈ ps, α p = α q → p = q) {p : Nat}
    (hp : p ∈ ps) : pt'[α p]? = some (β p) := by
  obtain ⟨q, hq, heq, hget⟩ := h.written p hp
  rw [hinj q hq p hp heq] at hget
  exact hget

section Pow

variable {p : PermBag} {σ : Equiv.Perm Nat}

def conjugate (σ : Equiv.Perm Nat) (ξ : Nat → Nat) (i : Nat) : Nat :=
  σ (ξ (σ.symm i))

theorem symm_lt_of_setwise (hfix : ∀ i, i < len → σ i < len) {i : Nat} (hi : i < len)
    : σ.symm i < len := by
  have hsub : (Finset.range len).image σ ⊆ Finset.range len := by
    intro y hy
    obtain ⟨x, hx, rfl⟩ := Finset.mem_image.mp hy
    rw [Finset.mem_range] at hx ⊢
    exact hfix x hx
  have heq := Finset.eq_of_subset_of_card_le hsub
    (Nat.le_of_eq (Finset.card_image_of_injective _ σ.injective).symm)
  have hmem : i ∈ (Finset.range len).image σ := by
    rw [heq]
    exact Finset.mem_range.mpr hi
  obtain ⟨x, hx, rfl⟩ := Finset.mem_image.mp hmem
  rw [Equiv.symm_apply_apply]
  exact Finset.mem_range.mp hx

theorem isConjTable_of_writes {l : List Nat} (hfix : ∀ i, i < len → σ i < len)
    (h : ∀ i, i < len → l[σ i]? = some (σ ((values ξ len).idxOf (ξ i)))) {y : Nat} (hy : y < len)
    : l[y]? = some (conjugate σ (fun i => (values ξ len).idxOf (ξ i)) y) := by
  have hget := h (σ.symm y) (symm_lt_of_setwise hfix hy)
  rw [Equiv.apply_symm_apply] at hget
  exact hget

theorem mem_range'_sub {a b i : Nat} : i ∈ range' a (b - a) ↔ a ≤ i ∧ i < b := by
  rw [mem_range'_1]
  omega

theorem conjTable_spec (hX : X.entries = flatKernel ξ len) (hlen : len < 2 ^ 32)
    (hp : Acts p.entries σ) (hfix : ∀ i, i < len → σ i < len) {pt : List Nat}
    (hpt : pt.length = len)
    : ∃ l, conjTable len X p.entries pt = .ok l ∧ l.length = len ∧ ∀ y, y < len
        → l[y]? = some (conjugate σ (fun i => (values ξ len).idxOf (ξ i)) y) := by
  have hK : ∀ i, i < len → (values ξ len).idxOf (ξ i) ≤ i := fun i hi => idxOf_values_le hi
  have hread : ∀ i, i < p.entries.length → readEntry p.entries i = .ok (σ i) :=
    fun i hi => readEntry_of_getElem? (hp.getElem?_eq hi)
  have hbits : ∀ i, i < len → σ ((values ξ len).idxOf (ξ i)) < 2 ^ PermTnum.perm4.bits := by
    intro i hi
    have hKi := hK i hi
    exact Nat.lt_trans (hfix _ (by omega)) hlen
  have hval : ∀ n, n ≤ len → n ≤ p.entries.length → ∀ i, 0 ≤ i → i < n
      → (do readEntry p.entries (← kerPoint X i) : Result Nat)
          = .ok (σ ((values ξ len).idxOf (ξ i)))
        ∧ σ ((values ξ len).idxOf (ξ i)) < 2 ^ PermTnum.perm4.bits := by
    intro n hn hnp i _ hi
    have hKi := hK i (by omega)
    rw [kerPoint_eq hX (by omega), ok_bind, hread _ (by omega)]
    exact ⟨rfl, hbits i (by omega)⟩
  have hidx : ∀ n, n ≤ len → n ≤ p.entries.length → ∀ i, 0 ≤ i → i < n
      → readEntry p.entries i = .ok (σ i) ∧ σ i < pt.length := by
    intro n hn hnp i _ hi
    rw [hread i (by omega), hpt]
    exact ⟨rfl, hfix i (by omega)⟩
  unfold conjTable
  dsimp only
  split
  next hle =>
    obtain ⟨l1, hrun1, hover1⟩ := scatter_write (T := .perm4)
      (hidx p.entries.length hle (Nat.le_refl _)) (hval p.entries.length hle (Nat.le_refl _))
    have hlen1 : l1.length = len := hover1.length_eq.trans hpt
    have hidx2 : ∀ i, p.entries.length ≤ i → i < len → (pure i : Result Nat) = .ok (σ i)
        ∧ σ i < l1.length := by
      intro i hi hlt
      rw [hp.fix hi, hlen1]
      exact ⟨rfl, hlt⟩
    have hval2 : ∀ i, p.entries.length ≤ i → i < len
        → (do IMAGE (← kerPoint X i) p.entries p.entries.length : Result Nat)
            = .ok (σ ((values ξ len).idxOf (ξ i)))
          ∧ σ ((values ξ len).idxOf (ξ i)) < 2 ^ PermTnum.perm4.bits := by
      intro i _ hi
      rw [kerPoint_eq hX hi, ok_bind, IMAGE_image, hp]
      exact ⟨rfl, hbits i hi⟩
    obtain ⟨l2, hrun2, hover2⟩ := scatter_write (T := .perm4) hidx2 hval2
    rw [hrun1, ok_bind]
    refine ⟨l2, hrun2, hover2.length_eq.trans hlen1, fun y hy => ?_⟩
    apply isConjTable_of_writes hfix _ hy
    intro i hi
    by_cases hid : i < p.entries.length
    . rw [hover2.old]
      . exact hover1.written_of_inj (fun a _ b _ heq => σ.injective heq)
          (mem_range'_sub.mpr ⟨Nat.zero_le i, hid⟩)
      . intro q hq heq
        rw [mem_range'_sub] at hq
        have := σ.injective heq
        omega
    . exact hover2.written_of_inj (fun a _ b _ heq => σ.injective heq)
        (mem_range'_sub.mpr ⟨by omega, hi⟩)
  next hgt =>
    obtain ⟨l, hrun, hover⟩ := scatter_write (T := .perm4) (hidx len (Nat.le_refl _) (by omega))
      (hval len (Nat.le_refl _) (by omega))
    refine ⟨l, hrun, hover.length_eq.trans hpt, fun y hy => ?_⟩
    apply isConjTable_of_writes hfix _ hy
    intro i hi
    exact hover.written_of_inj (fun a _ b _ heq => σ.injective heq)
      (mem_range'_sub.mpr ⟨Nat.zero_le i, hi⟩)

section Lookup

variable {c : Nat → Nat} {l : List Nat}

def IsLookup (c : Nat → Nat) (len i : Nat) (s : List Nat × Nat × List Nat) : Prop :=
  ∃ r, s.2.1 = r + 1 ∧ IsInitState c len i ⟨s.1, r, (values c i).map (· + 1), s.2.2⟩

theorem lookupRound_spec (hl : ∀ y, y < len → l[y]? = some (c y)) (hc : ∀ y, y < len → c y < len)
    (hlen : len < 2 ^ 32) {i : Nat} (hi : i < len) {s : List Nat × Nat × List Nat}
    (h : IsLookup c len i s)
    : ∃ s', lookupRound l i s = .ok s' ∧ IsLookup c len (i + 1) s' := by
  obtain ⟨r, hr, hs⟩ := h
  have hread : readEntry s.1 (c i)
      = .ok (if c i ∈ values c i then (values c i).idxOf (c i) + 1 else 0) :=
    hs.readEntry_eq (hc i hi)
  unfold lookupRound
  rw [readEntry_of_getElem? (hl i hi), ok_bind, hread, ok_bind]
  by_cases hmem : c i ∈ values c i
  . rw [if_pos hmem, if_neg (by omega), ok_bind]
    refine ⟨_, rfl, r, hr, ?_⟩
    have hskip := hs.skip hmem
    rw [idxOf_values c (Nat.le_succ i) hmem] at hskip
    rw [values_succ, if_pos hmem]
    exact hskip
  . rw [if_neg hmem, if_pos rfl]
    obtain ⟨lkp, hwrite, hread', hs'⟩ := hs.mark (by omega) (hc i hi) hmem
    dsimp only at hwrite
    rw [hr, hwrite, ok_bind, hread', ok_bind]
    refine ⟨_, rfl, r + 1, rfl, ?_⟩
    have himg := hs'.img
    dsimp only at himg
    rw [himg] at hs'
    exact hs'

theorem isLookup_zero {lkp : List Nat} (hlkp : lkp.length = len)
    (hzero : ∀ y, y < len → lkp[y]? = some 0) : IsLookup c len 0 (lkp, 1, []) :=
  ⟨0, rfl, hlkp, hzero, rfl, rfl, rfl⟩

theorem lookup_spec (hl : ∀ y, y < len → l[y]? = some (c y)) (hc : ∀ y, y < len → c y < len)
    (hlen : len < 2 ^ 32) {lkp : List Nat} (hlkp : lkp.length = len)
    (hzero : ∀ y, y < len → lkp[y]? = some 0)
    : ∃ s, forLoop (lookupRound l) len 0 (lkp, 1, []) = .ok s ∧ s.2.2 = flatKernel c len := by
  apply forLoop_of_inv (IsLookup c len) (isLookup_zero hlkp hzero)
  . intro i s _ hi hs
    exact lookupRound_spec hl hc hlen (by omega) hs
  . intro s hs
    rw [Nat.zero_add] at hs
    obtain ⟨r, _, hs⟩ := hs
    exact hs.ker

end Lookup

theorem funcPowKerPerm_spec (hX : X.entries = flatKernel ξ len) (hlen : len < 2 ^ 32)
    (hp : Acts p.entries σ) (hfix : ∀ i, i < len → σ i < len) (tmp : List Nat)
    : ∃ tnum, funcPowKerPerm tmp X p = .ok ⟨tnum, flatKernel (conjugate σ ξ) len⟩ := by
  have hXlen : X.entries.length = len := by
    rw [hX, length_flatKernel]
  unfold funcPowKerPerm
  dsimp only
  rw [hXlen]
  split
  next hzero =>
    rw [hzero]
    exact ⟨.empty, rfl⟩
  next hne =>
    have htmp := length_resizeTmpTrans tmp (2 * len)
    generalize resizeTmpTrans tmp (2 * len) = tmp' at htmp
    have htake : (tmp'.take len).length = len := by
      rw [length_take]
      omega
    have hhalf : ((tmp'.drop len).take len).length = len := by
      rw [length_take, length_drop]
      omega
    obtain ⟨l, hrun, _, hl⟩ := conjTable_spec hX hlen hp hfix htake
    have hidx : ∀ i, 0 ≤ i → i < len → (pure i : Result Nat) = .ok (id i)
        ∧ id i < ((tmp'.drop len).take len).length := by
      intro i _ hi
      rw [hhalf]
      exact ⟨rfl, hi⟩
    have hval : ∀ i, 0 ≤ i → i < len → (pure 0 : Result Nat) = .ok ((fun _ => 0) i)
        ∧ (fun _ => 0) i < 2 ^ PermTnum.perm4.bits := fun _ _ _ => ⟨rfl, Nat.two_pow_pos 32⟩
    obtain ⟨lkp, hrun2, hover⟩ := scatter_write (T := .perm4) hidx hval
    have hclear : ∀ y, y < len → lkp[y]? = some 0 := fun y hy =>
      hover.written_of_inj (fun a _ b _ heq => heq) (mem_range'_sub.mpr ⟨Nat.zero_le y, hy⟩)
    have hc : ∀ y, y < len → conjugate σ (fun i => (values ξ len).idxOf (ξ i)) y < len := by
      intro y hy
      have hy' := symm_lt_of_setwise hfix hy
      have hle := idxOf_values_le (ξ := ξ) hy'
      exact hfix _ (Nat.lt_of_le_of_lt hle hy')
    obtain ⟨s, hrun3, hs⟩ := lookup_spec hl hc hlen (hover.length_eq.trans hhalf) hclear
    have hsame : flatKernel (conjugate σ fun i => (values ξ len).idxOf (ξ i)) len
        = flatKernel (conjugate σ ξ) len := by
      apply (flatKernel_congr _ _).2
      intro i j hi hj
      unfold conjugate
      rw [EmbeddingLike.apply_eq_iff_eq, EmbeddingLike.apply_eq_iff_eq]
      exact idxOf_values_inj (symm_lt_of_setwise hfix hi)
    have hpure : (pure : Nat → Result Nat) = fun i => pure i := rfl
    rw [hrun, ok_bind, hpure, hrun2, ok_bind, hrun3, ok_bind, ← hsame, ← hs]
    exact ⟨.cyc, rfl⟩

end Pow

section Inv

def IsInjectiveOnClasses (ξ φ : Nat → Nat) (len : Nat) : Prop :=
  (values (ξ ∘ φ) len).length = (values ξ len).length

theorem IsInjectiveOnClasses.exists_eq (h : IsInjectiveOnClasses ξ φ len)
    (hφ : ∀ i, i < len → φ i < len) {i : Nat} (hi : i < len) : ∃ j, j < len ∧ ξ (φ j) = ξ i := by
  have hsub : (Finset.range len).image (ξ ∘ φ) ⊆ (Finset.range len).image ξ := by
    intro y hy
    obtain ⟨j, hj, rfl⟩ := Finset.mem_image.mp hy
    rw [Finset.mem_range] at hj
    exact Finset.mem_image.mpr ⟨φ j, Finset.mem_range.mpr (hφ j hj), rfl⟩
  have heq := Finset.eq_of_subset_of_card_le hsub (by
    rw [← length_values, ← length_values, h])
  have hmem : ξ i ∈ (Finset.range len).image (ξ ∘ φ) := by
    rw [heq]
    exact Finset.mem_image_of_mem ξ (Finset.mem_range.mpr hi)
  obtain ⟨j, hj, hji⟩ := Finset.mem_image.mp hmem
  exact ⟨j, Finset.mem_range.mp hj, hji⟩

variable {f : TransBag}

theorem transversal_spec (hf : IsTransBag f φ) (hX : X.entries = flatKernel ξ len)
    (hle : f.entries.length ≤ len) (hlen : len < 2 ^ 32) {pt : List Nat} (hpt : len ≤ pt.length)
    : ∃ l, transversal len X f.entries pt = .ok l ∧ ∀ i, i < len → ∃ j, j < len
        ∧ (values ξ len).idxOf (ξ (φ j)) = (values ξ len).idxOf (ξ (φ i))
        ∧ l[(values ξ len).idxOf (ξ (φ i))]? = some j := by
  have hφ : ∀ i, i < len → φ i < len := by
    intro i hi
    by_cases hid : i < f.entries.length
    . have := hf.fits.lt i hid
      omega
    . rw [hf.fits.fix i (by omega)]
      exact hi
  have hplace : ∀ i, i < len → (values ξ len).idxOf (ξ (φ i)) < pt.length := by
    intro i hi
    have := idxOf_values_le (ξ := ξ) (hφ i hi)
    have := hφ i hi
    omega
  have hidx : ∀ n, n ≤ f.entries.length → ∀ i, 0 ≤ i → i < n
      → (do kerPoint X (← readEntry f.entries i) : Result Nat)
          = .ok ((values ξ len).idxOf (ξ (φ i)))
        ∧ (values ξ len).idxOf (ξ (φ i)) < pt.length := by
    intro n hn i _ hi
    rw [hf.isEntries.readEntry_eq (by omega), ok_bind, kerPoint_eq hX (hφ i (by omega))]
    exact ⟨rfl, hplace i (by omega)⟩
  have hval : ∀ a n, n ≤ len → ∀ i, a ≤ i → i < n → (pure i : Result Nat) = .ok (id i)
      ∧ id i < 2 ^ PermTnum.perm4.bits := fun a n hn i _ hi => ⟨rfl, show i < 2 ^ 32 by omega⟩
  have hpure : (pure : Nat → Result Nat) = fun i => pure i := rfl
  unfold transversal
  dsimp only
  split
  next hge =>
    obtain ⟨l, hrun, hover⟩ := scatter_write (T := .perm4) (hidx len (by omega))
      (hval 0 len (Nat.le_refl len))
    rw [hpure]
    refine ⟨l, hrun, fun i hi => ?_⟩
    obtain ⟨j, hj, heq, hget⟩ := hover.written i (mem_range'_sub.mpr ⟨Nat.zero_le i, hi⟩)
    exact ⟨j, (mem_range'_sub.mp hj).2, heq, hget⟩
  next hlt =>
    obtain ⟨l1, hrun1, hover1⟩ := scatter_write (T := .perm4)
      (hidx f.entries.length (Nat.le_refl _)) (hval 0 f.entries.length hle)
    have hidx2 : ∀ i, f.entries.length ≤ i → i < len
        → kerPoint X i = .ok ((values ξ len).idxOf (ξ (φ i)))
          ∧ (values ξ len).idxOf (ξ (φ i)) < l1.length := by
      intro i hi hil
      rw [hover1.length_eq, kerPoint_eq hX hil]
      have hpl := hplace i hil
      rw [hf.fits.fix i hi] at hpl ⊢
      exact ⟨rfl, hpl⟩
    obtain ⟨l2, hrun2, hover2⟩ := scatter_write (T := .perm4) hidx2
      (hval f.entries.length len (Nat.le_refl len))
    rw [hpure, hrun1, ok_bind]
    refine ⟨l2, hrun2, fun i hi => ?_⟩
    by_cases hex : ∃ q ∈ range' f.entries.length (len - f.entries.length),
        (values ξ len).idxOf (ξ (φ q)) = (values ξ len).idxOf (ξ (φ i))
    . obtain ⟨q, hq, hqi⟩ := hex
      obtain ⟨j, hj, heq, hget⟩ := hover2.written q hq
      exact ⟨j, (mem_range'_sub.mp hj).2, heq.trans hqi, by rw [← hqi]; exact hget⟩
    . have hid : i < f.entries.length := by
        by_contra hge
        exact hex ⟨i, mem_range'_sub.mpr ⟨by omega, hi⟩, rfl⟩
      obtain ⟨j, hj, heq, hget⟩ := hover1.written i (mem_range'_sub.mpr ⟨Nat.zero_le i, hid⟩)
      have hjd := (mem_range'_sub.mp hj).2
      refine ⟨j, by omega, heq, ?_⟩
      rw [hover2.old _ fun q hq hqi => hex ⟨q, hq, hqi⟩]
      exact hget

theorem invKerTrans_spec {TG : PermTnum} (hf : IsTransBag f φ) (hX : X.entries = flatKernel ξ len)
    (hle : f.entries.length ≤ len) (hlen : len < 2 ^ 32) (hinj : IsInjectiveOnClasses ξ φ len)
    (hTG : len ≤ 2 ^ TG.bits) (tmp : List Nat)
    : ∃ g χ, invKerTrans TG tmp X f = .ok g ∧ IsTransBag g χ
        ∧ ∀ i, i < len → χ i < len ∧ ξ (φ (χ i)) = ξ i := by
  have hXlen : X.entries.length = len := by
    rw [hX, length_flatKernel]
  have hφ : ∀ i, i < len → φ i < len := by
    intro i hi
    by_cases hid : i < f.entries.length
    . have := hf.fits.lt i hid
      omega
    . rw [hf.fits.fix i (by omega)]
      exact hi
  obtain ⟨l, hrun, hl⟩ := transversal_spec hf hX hle hlen (length_resizeTmpTrans tmp len)
  have hchoose : ∀ i, ∃ j, i < len → j < len ∧ ξ (φ j) = ξ i
      ∧ l[(values ξ len).idxOf (ξ i)]? = some j := by
    intro i
    by_cases hi : i < len
    . obtain ⟨k, hk, hki⟩ := hinj.exists_eq hφ hi
      obtain ⟨j, hj, heq, hget⟩ := hl k hk
      rw [hki] at hget
      refine ⟨j, fun _ => ⟨hj, ?_, hget⟩⟩
      rw [idxOf_values_inj (hφ j hj)] at heq
      exact heq.trans hki
    . exact ⟨0, fun h => absurd h hi⟩
  choose χ hχ using hchoose
  have hidx : ∀ i, 0 ≤ i → i < len → (pure i : Result Nat) = .ok (id i)
      ∧ id i < (replicate len 0).length := by
    intro i _ hi
    rw [length_replicate]
    exact ⟨rfl, hi⟩
  have hval : ∀ i, 0 ≤ i → i < len
      → (do readEntry l (← kerPoint X i) : Result Nat) = .ok (χ i) ∧ χ i < 2 ^ TG.bits := by
    intro i _ hi
    rw [kerPoint_eq hX hi, ok_bind, readEntry_of_getElem? (hχ i hi).2.2]
    exact ⟨rfl, Nat.lt_of_lt_of_le (hχ i hi).1 hTG⟩
  obtain ⟨ptg, hrun2, hover⟩ := scatterDown_write hidx hval
  have hpure : (pure : Nat → Result Nat) = fun i => pure i := rfl
  have hptg := hover.length_eq
  rw [length_replicate] at hptg
  have hget : ∀ i, i < len → ptg[i]? = some (χ i) := by
    intro i hi
    exact hover.written_of_inj (fun a _ b _ heq => heq)
      (mem_reverse.mpr (mem_range'_sub.mpr ⟨Nat.zero_le i, hi⟩))
  unfold invKerTrans
  dsimp only
  rw [hXlen, hrun, ok_bind, hpure, hrun2, ok_bind]
  refine ⟨_, image ptg, rfl, ?_, fun i hi => ?_⟩
  . apply isTransBag_newTrans (fun _ => rfl)
    . apply fits_of_entries hptg hTG
      intro i hi
      exact ⟨χ i, (hχ i hi).1, hget i hi⟩
    . rintro rfl
      rw [hptg]
      exact hTG
  . rw [image_eq_of_getElem? (hget i hi)]
    exact ⟨(hχ i hi).1, (hχ i hi).2.1⟩

theorem funcInvKerTrans_spec (hf : IsTransBag f φ) (hX : X.entries = flatKernel ξ len)
    (hle : f.entries.length ≤ len) (hlen : len < 2 ^ 32) (hinj : IsInjectiveOnClasses ξ φ len)
    (tmp : List Nat)
    : ∃ g χ, funcInvKerTrans tmp X f = .ok g ∧ IsTransBag g χ
        ∧ ∀ i, i < len → χ i < len ∧ ξ (φ (χ i)) = ξ i := by
  have hXlen : X.entries.length = len := by
    rw [hX, length_flatKernel]
  unfold funcInvKerTrans
  split
  next hsmall => exact invKerTrans_spec hf hX hle hlen hinj (by rw [← hXlen]; exact hsmall) tmp
  next hbig =>
    have hbits : len ≤ 2 ^ PermTnum.perm4.bits := Nat.le_of_lt hlen
    exact invKerTrans_spec hf hX hle hlen hinj hbits tmp

end Inv

end Kernels

namespace TransInverse

open FirstOccurrence

variable {w : IntSize} {f g : TransBag} {φ ψ ξ : Nat → Nat} {X : IntPlist} {len : Nat}

/--
The inverse of a transformation, the permutation that maps its images to the ones of another
transformation with the same kernel, the kernel of a conjugate, and an inverse of the action on the
classes of a kernel.
-/
theorem inverses_spec (hf : IsTransBag f φ) (hg : IsTransBag g ψ)
    (hfl : f.entries.length ≤ PermTnum.perm4.maxDeg w)
    (hgl : g.entries.length ≤ PermTnum.perm4.maxDeg w) (hX : X.entries = flatKernel ξ len)
    (hlen : len < 2 ^ 32) (tmp : List Nat)
    : (∃ h χ, funcInverseOfTransformation f = .ok h ∧ IsTransBag h χ ∧ IsInverse φ χ)
      ∧ ((∀ i j, φ i = φ j ↔ ψ i = ψ j)
        → ∃ p σ, funcTransImgConj f g = .ok p ∧ IsPermBag w p σ ∧ ∀ i, σ (φ i) = ψ i)
      ∧ (∀ p σ, IsPermBag w p σ → (∀ i, i < len → σ i < len)
        → ∃ tnum, funcPowKerPerm tmp X p = .ok ⟨tnum, flatKernel (conjugate σ ξ) len⟩)
      ∧ (f.entries.length ≤ len → IsInjectiveOnClasses ξ φ len
        → ∃ h χ, funcInvKerTrans tmp X f = .ok h ∧ IsTransBag h χ
          ∧ ∀ i, i < len → X.entries[φ (χ i)]? = X.entries[i]?) := by
  have hmax : PermTnum.perm4.maxDeg w < 2 ^ 32 := by
    cases w with
    | int4 => decide
    | int8 => decide
  have hflt := Nat.lt_of_le_of_lt hfl hmax
  refine ⟨funcInverseOfTransformation_spec hf hflt, ?_, ?_, ?_⟩
  . intro hker
    obtain ⟨p, σ, hrun, htnum, hplen, hacts, himg⟩ := funcTransImgConj_spec hf hg hflt
      (Nat.lt_of_le_of_lt hgl hmax) hker
    refine ⟨p, σ, hrun, ⟨hacts, ?_⟩, himg⟩
    rw [hplen, htnum]
    exact Nat.max_le.mpr ⟨hfl, hgl⟩
  . intro p σ hp hfix
    exact funcPowKerPerm_spec hX hlen hp.acts hfix tmp
  . intro hle hinj
    obtain ⟨h, χ, hrun, hbag, hχ⟩ := funcInvKerTrans_spec hf hX hle hlen hinj tmp
    refine ⟨h, χ, hrun, hbag, fun i hi => ?_⟩
    have hφ : φ (χ i) < len := by
      by_cases hid : χ i < f.entries.length
      . have := hf.fits.lt _ hid
        omega
      . rw [hf.fits.fix _ (by omega)]
        exact (hχ i hi).1
    rw [hX, getElem?_flatKernel ξ hφ, getElem?_flatKernel ξ hi, (hχ i hi).2]

-- Two transformations with the same kernel, in different representations.
def exampleImages : TransBag :=
  newTrans .perm2 [1, 1, 0]

def exampleImages4 : TransBag :=
  newTrans .perm4 [2, 2, 1]

def exampleKernel : IntPlist :=
  ⟨.cycNsort, flatKernel (image [0, 1, 0]) 3⟩

theorem ker_exampleImages (i j : Nat)
    : image [1, 1, 0] i = image [1, 1, 0] j ↔ image [2, 2, 1] i = image [2, 2, 1] j := by
  rcases i with _ | _ | _ | i <;> rcases j with _ | _ | _ | j <;> simp [image]

def exampleSwap : PermBag :=
  { tnum := .perm2, entries := [1, 0], storedInv := none }

theorem isPermBag_exampleSwap : IsPermBag .int8 exampleSwap (Equiv.swap 0 1) where
  acts := by
    intro i
    rcases i with _ | _ | i <;> simp [exampleSwap, image, Equiv.swap_apply_of_ne_of_ne]
  deg_le := by decide

theorem inverses_example
    : (∃ h χ, funcInverseOfTransformation exampleImages = .ok h ∧ IsTransBag h χ
        ∧ IsInverse (image [1, 1, 0]) χ)
      ∧ (∃ p σ, funcTransImgConj exampleImages exampleImages4 = .ok p ∧ IsPermBag .int8 p σ
          ∧ ∀ i, σ (image [1, 1, 0] i) = image [2, 2, 1] i)
      ∧ (∃ tnum, funcPowKerPerm [7] exampleKernel exampleSwap
          = .ok ⟨tnum, flatKernel (conjugate (Equiv.swap 0 1) (image [0, 1, 0])) 3⟩)
      ∧ ∃ h χ, funcInvKerTrans [7] exampleKernel exampleImages = .ok h ∧ IsTransBag h χ
          ∧ ∀ i, i < 3 → exampleKernel.entries[image [1, 1, 0] (χ i)]?
            = exampleKernel.entries[i]? := by
  obtain ⟨hinv, himg, hker, hact⟩ := inverses_spec (w := .int8)
    (TransOps.isTransBag_image (f := exampleImages) rfl (by decide) (by decide))
    (TransOps.isTransBag_image (f := exampleImages4) rfl (by decide) (by decide))
    (by decide) (by decide) (show exampleKernel.entries = flatKernel _ 3 from rfl) (by decide) [7]
  refine ⟨hinv, himg ker_exampleImages, hker _ _ isPermBag_exampleSwap ?_, hact (by decide) rfl⟩
  decide

end TransInverse
