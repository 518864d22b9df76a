import GapKernel.PlainSet.Lemmas.SetList
import GapKernel.Trans.Lemmas.Classes

open PermList TransImpl FirstOccurrence List

structure IsImageSet (φ : Nat → Nat) (n : Nat) (l : List Nat) : Prop where
  nodup : l.Nodup
  mem : ∀ x, x ∈ l ↔ ∃ i, i < n ∧ φ i + 1 = x

/--
The bag is a valid transformation, and the image set and the flat kernel are right, if they are
stored. The type of the flat kernel may say anything about its order. The points and their number
are entries with 32 bits.
-/
structure IsKernelBag (f : TransBag) (φ : Nat → Nat) : Prop extends IsTransBag f φ where
  deg_lt : f.entries.length < 2 ^ 32
  both : f.img = none ↔ f.ker = none
  img : ∀ img, f.img = some img
    → IsImageSet φ f.entries.length img.entries ∧ IsTruthful img.tnum img.entries
  ker : ∀ ker, f.ker = some ker → ker.entries = flatKernel φ f.entries.length

theorem isImageSet_values (φ : Nat → Nat) (n : Nat)
    : IsImageSet φ n ((values φ n).map (· + 1)) where
  nodup := by
    apply List.Nodup.map _ (nodup_values φ n)
    intro a b hab
    dsimp only at hab
    omega
  mem := by
    intro x
    rw [mem_map]
    constructor
    . intro ⟨v, hv, hx⟩
      rw [mem_values] at hv
      obtain ⟨i, hi, heq⟩ := hv
      rw [← heq] at hx
      exact ⟨i, hi, hx⟩
    . intro ⟨i, hi, hx⟩
      refine ⟨φ i, ?_, hx⟩
      rw [mem_values]
      exact ⟨i, hi, rfl⟩

theorem IsImageSet.length_eq {φ : Nat → Nat} {n : Nat} {l : List Nat} (h : IsImageSet φ n l)
    : l.length = (values φ n).length := by
  have hvals := isImageSet_values φ n
  have hperm : l.Perm ((values φ n).map (· + 1)) := by
    rw [perm_ext_iff_of_nodup h.nodup hvals.nodup]
    intro x
    rw [h.mem]
    rw [hvals.mem]
  rw [hperm.length_eq]
  rw [length_map]

theorem nat_strictWeakOrder : IsStrictWeakOrder Nat (fun a b => decide (a < b) = true) := by
  exact {
    irrefl := by
      intro a
      simp
    trans := by
      intro a b x
      simp only [decide_eq_true_eq]
      omega
    incomp_trans := by
      intro a b x
      simp only [decide_eq_true_eq]
      omega }

theorem sortPlistByRawObj_spec {l : List Nat} (hl : l.Nodup)
    : ∃ l', sortPlistByRawObj l = .ok l' ∧ l'.Pairwise (· < ·) ∧ ∀ x, x ∈ l' ↔ x ∈ l := by
  obtain ⟨s', σ, hsort, hsorting⟩ :=
    sort_isSorting (fun (func : Unit) (v w : Nat) => (decide (v < w), func)) l ()
  have hpermuted := hsorting.permuted
  refine ⟨s'.list, ?_, ?_, ?_⟩
  . unfold sortPlistByRawObj
    rw [hsort]
    rfl
  . have hsorted := hsorting.sorted (fun a b => decide (a < b) = true)
      ⟨nat_strictWeakOrder, fun _ _ _ => Iff.rfl⟩
    have hnodup : s'.list.Nodup := by
      rw [nodup_iff_getElem?_ne_getElem?]
      intro i j hij hj heq
      have hget := getElem?_eq_getElem (show i < s'.list.length by omega)
      rw [hpermuted i] at hget
      have hσi := (List.getElem?_eq_some_iff.mp hget).1
      rw [hpermuted i, hpermuted j] at heq
      rw [getElem?_inj hσi hl] at heq
      have := σ.injective heq
      omega
    apply (hsorted.and hnodup).imp
    intro a b hab
    have hle := hab.1
    rw [decide_eq_true_eq] at hle
    omega
  . intro x
    rw [mem_iff_getElem?, mem_iff_getElem?]
    constructor
    . intro ⟨i, hi⟩
      rw [hpermuted i] at hi
      exact ⟨σ i, hi⟩
    . intro ⟨i, hi⟩
      refine ⟨σ.symm i, ?_⟩
      rw [hpermuted, Equiv.apply_symm_apply]
      exact hi

-- The functions in the table `IsSSortListFuncs`: `AlwaysYes`, `AlwaysNo`, or a scan of the list.
theorem isSsortList_cases (list : IntPlist)
    : (list.tnum.isSsort = true ∧ list.tnum.isNsort = false ∧ isSsortList list = (list, true))
      ∨ isSsortList list = (list, false)
      ∨ ∃ tnum : PlistKTNum, (tnum.setFiltList .isSsort).isNsort = false
        ∧ isSsortList list = isSsortList.isSsortPlist list tnum := by
  cases list with
  | mk tnum entries =>
    cases tnum
    all_goals first
      | exact .inl ⟨rfl, rfl, rfl⟩
      | exact .inr (.inl rfl)
      | exact .inr (.inr ⟨_, by rfl, rfl⟩)

theorem isSetOrder_nat
    : IsSetOrder (fun a b : Nat => decide (a = b)) (fun a b => decide (a < b)) where
  order := nat_strictWeakOrder
  eq_iff := by
    intro a b
    simp only [decide_eq_true_eq, decide_eq_false_iff_not]
    omega

theorem isSsortPlist_spec {list : IntPlist} {tnum : PlistKTNum}
    (htnum : (tnum.setFiltList .isSsort).isNsort = false)
    : (isSsortList.isSsortPlist list tnum).1.entries = list.entries
      ∧ ((isSsortList.isSsortPlist list tnum).2 = true → list.entries.Pairwise (· < ·)
        ∧ (isSsortList.isSsortPlist list tnum).1.tnum.isNsort = false) := by
  unfold isSsortList.isSsortPlist
  split
  . next h0 =>
    rw [length_eq_zero_iff] at h0
    refine ⟨rfl, fun _ => ⟨?_, rfl⟩⟩
    rw [h0]
    exact List.Pairwise.nil
  . split
    . next hs =>
      refine ⟨rfl, fun _ => ⟨?_, htnum⟩⟩
      rw [PlainSetImpl.isSSortPlist_iff isSetOrder_nat] at hs
      obtain ⟨l, hl, hsorted⟩ := hs
      have heq : list.entries = l := map_injective_iff.mpr (Option.some_injective _) hl
      rw [heq]
      exact hsorted.imp (fun h => of_decide_eq_true h)
    . exact ⟨rfl, fun hb => by contradiction⟩

theorem isSsortList_spec {list : IntPlist} (h : IsTruthful list.tnum list.entries)
    : (isSsortList list).1.entries = list.entries
      ∧ ((isSsortList list).2 = true → list.entries.Pairwise (· < ·)
        ∧ (isSsortList list).1.tnum.isNsort = false) := by
  cases isSsortList_cases list with
  | inl hyes =>
    rw [hyes.2.2]
    exact ⟨rfl, fun _ => ⟨h.ssort hyes.1, hyes.2.1⟩⟩
  | inr hrest =>
    cases hrest with
    | inl hno =>
      rw [hno]
      exact ⟨rfl, fun hb => by contradiction⟩
    | inr hscan =>
      obtain ⟨tnum, htnum, heq⟩ := hscan
      rw [heq]
      apply isSsortPlist_spec htnum

section Functions

variable {f : TransBag} {φ : Nat → Nat} {w : IntSize}

theorem IsKernelBag.setSlots (hf : IsKernelBag f φ) {img ker : IntPlist}
    (himg : IsImageSet φ f.entries.length img.entries) (htnum : IsTruthful img.tnum img.entries)
    (hker : ker.entries = flatKernel φ f.entries.length)
    : IsKernelBag { f with img := some img, ker := some ker } φ where
  acts := hf.acts
  fits := hf.fits
  deg_le := hf.deg_le
  ext := hf.ext
  deg_lt := hf.deg_lt
  both := by
    constructor
    . intro h
      contradiction
    . intro h
      contradiction
  img := by
    intro img' h
    cases h
    exact ⟨himg, htnum⟩
  ker := by
    intro ker' h
    cases h
    exact hker

def initTnum (f : TransBag) : PlistKTNum :=
  if f.entries.length = 0 then .empty else .cycNsort

section

variable (hf : IsKernelBag f φ)

include hf

theorem initTrans_spec
    : ∃ f' img, initTrans f = .ok (f', (values φ f.entries.length).length) ∧ IsKernelBag f' φ
        ∧ f' = { f with
          img := some img, ker := some ⟨initTnum f, flatKernel φ f.entries.length⟩ } := by
  unfold initTrans initTnum
  dsimp only
  split
  . next h0 =>
    rw [h0]
    refine ⟨_, ⟨.empty, []⟩, rfl, ?_, rfl⟩
    apply hf.setSlots
    . rw [h0]
      apply isImageSet_values φ 0
    . apply isTruthful_ssort rfl List.Pairwise.nil
    . rw [h0]
      rfl
  . obtain ⟨s, hrun, hs⟩ := initLoop_spec hf.isEntries hf.deg_lt
    rw [hrun]
    rw [ok_bind]
    rw [hs.rank]
    rw [hs.ker]
    refine ⟨_, ⟨.cyc, s.img⟩, rfl, ?_, rfl⟩
    apply hf.setSlots
    . rw [hs.img]
      apply isImageSet_values
    . apply isTruthful_unknown rfl rfl
    . rfl

theorem rankTrans_spec
    : ∃ f' ker, rankTrans f = .ok (f', (values φ f.entries.length).length) ∧ IsKernelBag f' φ
        ∧ f'.entries = f.entries ∧ f'.ker = some ker := by
  unfold rankTrans
  split
  . next himg =>
    obtain ⟨f', img, hrun, hf', heq⟩ := initTrans_spec hf
    rw [heq] at hf' hrun
    exact ⟨_, _, hrun, hf', rfl, rfl⟩
  . next img himg =>
    have hlen := (hf.img img himg).1.length_eq
    rw [hlen]
    cases hker : f.ker with
    | none =>
      rw [hf.both.mpr hker] at himg
      contradiction
    | some ker => exact ⟨f, ker, rfl, hf, rfl, hker⟩

theorem funcFlatKernelTrans_spec
    : ∃ f' ker, funcFlatKernelTrans f = .ok (f', ker) ∧ IsKernelBag f' φ
        ∧ f'.entries = f.entries ∧ ker.entries = flatKernel φ f.entries.length
        ∧ (match f.ker with
          | some ker' => ker = ker'
          | none => ker.tnum = initTnum f) := by
  unfold funcFlatKernelTrans
  cases hker : f.ker with
  | some ker => exact ⟨f, ker, rfl, hf, rfl, hf.ker ker hker, rfl⟩
  | none =>
    obtain ⟨f', img, hrun, hf', heq⟩ := initTrans_spec hf
    dsimp only
    rw [hrun]
    rw [ok_bind]
    rw [heq] at hf' ⊢
    exact ⟨_, _, rfl, hf', rfl, rfl, rfl⟩

theorem funcRankTransInt_spec (m : Nat)
    : ∃ f', funcRankTransInt f m = .ok (f', (((Finset.range m).image φ).card : Int))
        ∧ IsKernelBag f' φ := by
  rw [← length_values]
  unfold funcRankTransInt
  dsimp only
  split
  . next hge =>
    obtain ⟨f', _, hrun, hf', hentries, _⟩ := rankTrans_spec hf
    rw [hrun]
    rw [ok_bind]
    refine ⟨f', ?_, hf'⟩
    have hlen := length_values_of_fix hf.fits.fix hf.fits.lt hge
    rw [hlen]
    have hint : ((values φ f.entries.length).length : Int) - f.entries.length + m
        = (((values φ f.entries.length).length + (m - f.entries.length) : Nat) : Int) := by
      omega
    dsimp only
    rw [hint]
    rfl
  . next hlt =>
    obtain ⟨s, hrun, hs⟩ := markLoop_spec hf.isEntries (show m ≤ f.entries.length by omega)
    rw [hrun]
    rw [ok_bind]
    rw [hs]
    exact ⟨f, rfl, hf⟩

theorem funcRankTrans_spec {d : Nat} (hd : IsTransDegree φ d)
    : ∃ f', funcRankTrans w f = .ok (f', (((Finset.range d).image φ).card : Int)) := by
  have hw : NoWrap φ := by
    intro _ i hi
    have hdeg := hf.deg_lt
    by_cases hlt : i < f.entries.length
    . have := hf.fits.lt i hlt
      omega
    . rw [← hi]
      rw [hf.fits.fix i (by omega)]
  obtain ⟨f1, _, hrun, hf1, hentries, _⟩ := rankTrans_spec hf
  obtain ⟨f2, d', hrun2, hset⟩ := funcDegreeOfTransformation_spec (w := w) hf1.toIsTransBag hw
  have hdd : d' = d := hset.isDegree.unique hd
  unfold funcRankTrans
  rw [hrun]
  rw [ok_bind]
  dsimp only
  rw [hrun2]
  rw [ok_bind]
  refine ⟨f2, ?_⟩
  have hle := hf.fits.degree_le hd
  have hfits : Fits f.tnum.dataType d φ := hf.fits.degree hd (Or.inl (Nat.le_refl _))
  have hlen := length_values_of_fix hfits.fix hfits.lt hle
  have hf2 : f2.entries.length = f.entries.length := by
    rw [hset.eq]
    rw [← hentries]
  rw [← length_values]
  rw [hlen]
  have hint : (((values φ d).length + (f.entries.length - d) : Nat) : Int) - f2.entries.length + d'
      = ((values φ d).length : Int) := by
    omega
  dsimp only
  rw [hint]
  rfl

theorem funcFlatKernelTransInt_spec (m : Nat)
    : ∃ f' ker, funcFlatKernelTransInt f m = .ok (f', ker) ∧ IsKernelBag f' φ
        ∧ ker.entries = flatKernel φ m
        ∧ (m = 0 → ker.tnum = .empty)
        ∧ (m ≠ 0 → m = f.entries.length → match f.ker with
          | some ker' => ker = ker'
          | none => ker.tnum = initTnum f)
        ∧ (m ≠ 0 → m ≠ f.entries.length → ker.tnum = .cycNsort) := by
  unfold funcFlatKernelTransInt
  split
  . next h0 =>
    refine ⟨f, _, rfl, hf, ?_, fun _ => rfl, fun h => absurd h0 h, fun h => absurd h0 h⟩
    rw [h0]
    rfl
  . next h0 =>
    obtain ⟨f1, ker, hrun, hf1, hentries, hker, htnum⟩ := funcFlatKernelTrans_spec hf
    rw [hrun]
    rw [ok_bind]
    dsimp only
    rw [hentries]
    split
    . next heq =>
      rw [← heq] at hker
      exact ⟨f1, ker, rfl, hf1, hker, fun h => absurd h h0, fun _ _ => htnum,
        fun _ h => absurd heq h⟩
    . next hne =>
      split
      . next hlt =>
        rw [hker]
        rw [take_flatKernel φ (show m ≤ f.entries.length by omega)]
        exact ⟨f1, _, rfl, hf1, rfl, fun h => absurd h h0, fun _ h => absurd h hne,
          fun _ _ => rfl⟩
      . next hge =>
        obtain ⟨f2, _, hrun2, hf2, _, _⟩ := rankTrans_spec hf1
        rw [hrun2]
        rw [ok_bind]
        rw [hentries]
        rw [hker]
        dsimp only
        rw [← flatKernel_of_fix hf.fits.fix hf.fits.lt (show f.entries.length ≤ m by omega)]
        exact ⟨f2, _, rfl, hf2, rfl, fun h => absurd h h0, fun _ h => absurd h hne,
          fun _ _ => rfl⟩

theorem kernelLoops_spec {m min nr : Nat} (hle : min ≤ f.entries.length) (hlem : min ≤ m)
    (hor : min = m ∨ min = f.entries.length) (hcap : (values φ m).length ≤ nr)
    : ∃ s1 s2, kernelLoop (flatKernel φ f.entries.length) min 0
          ⟨replicate nr none, resizeInitTmpTrans nr, 0⟩ = .ok s1
        ∧ singletonLoop (m - f.entries.length) f.entries.length s1 = .ok s2
        ∧ IsClassList φ nr m s2 := by
  have hcap' : (values φ min).length ≤ nr := Nat.le_trans (values_mono φ hlem).length_le hcap
  obtain ⟨s, hs, hstate⟩ := kernelLoop_spec hf.deg_lt hle hcap'
  cases hor with
  | inl hor =>
    refine ⟨s, s, hs, ?_, ?_⟩
    . rw [← hor]
      rw [Nat.sub_eq_zero_of_le hle]
      rfl
    . rw [← hor]
      exact hstate.toIsClassList
  | inr hor =>
    rw [hor] at hlem hstate
    obtain ⟨s', hs', hstate'⟩ :=
      singletonLoop_spec hlem hf.fits.fix hf.fits.lt hcap hstate.toIsClassList
    exact ⟨s, s', hs, hs', hstate'⟩

theorem funcKernelTrans_spec (m : Nat)
    : ∃ f' tnum, funcKernelTrans f m = .ok (f', ⟨tnum, (classes φ m).map classPlist⟩)
        ∧ IsKernelBag f' φ ∧ tnum.isNsort = false := by
  unfold funcKernelTrans
  split
  . next h0 =>
    rw [h0]
    exact ⟨f, .empty, rfl, hf, rfl⟩
  . next h0 =>
    obtain ⟨f1, ker, hrun, hf1, hentries, hker⟩ := rankTrans_spec hf
    have hflat := hf1.ker ker hker
    rw [hentries] at hflat
    dsimp only
    rw [hrun]
    rw [ok_bind]
    dsimp only
    rw [hker]
    dsimp only
    rw [hflat]
    have hmin : (if m < f.entries.length then m else f.entries.length) ≤ f.entries.length := by
      split <;> omega
    have hmin' : (if m < f.entries.length then m else f.entries.length) ≤ m := by
      split <;> omega
    have hor : (if m < f.entries.length then m else f.entries.length) = m
        ∨ (if m < f.entries.length then m else f.entries.length) = f.entries.length := by
      split <;> omega
    generalize (if m < f.entries.length then m else f.entries.length) = min at hmin hmin' hor ⊢
    -- The room for the classes is enough, it may be more than needed.
    have hcap : (values φ m).length ≤ if min = m then (values φ f.entries.length).length
        else (values φ f.entries.length).length + m - f.entries.length := by
      split
      . next heq => apply (values_mono φ (by omega)).length_le
      . next hne =>
        have := length_values_of_fix hf.fits.fix hf.fits.lt (show f.entries.length ≤ m by omega)
        omega
    generalize (if min = m then (values φ f.entries.length).length
      else (values φ f.entries.length).length + m - f.entries.length) = nr at hcap ⊢
    obtain ⟨s1, s2, hs1, hs2, hstate⟩ := kernelLoops_spec hf hmin hmin' hor hcap
    rw [hs1]
    rw [ok_bind]
    rw [hs2]
    rw [ok_bind]
    rw [hstate.entries_eq hcap]
    exact ⟨f1, .homSsort, rfl, hf1, rfl⟩

end

structure IsSortedImage (φ : Nat → Nat) (n : Nat) (out : IntPlist) : Prop where
  sorted : out.entries.Pairwise (· < ·)
  mem : ∀ x, x ∈ out.entries ↔ ∃ i, i < n ∧ φ i + 1 = x
  truthful : IsTruthful out.tnum out.entries

theorem IsSortedImage.isImageSet {n : Nat} {out : IntPlist} (h : IsSortedImage φ n out)
    : IsImageSet φ n out.entries where
  nodup := h.sorted.imp (fun hlt => Nat.ne_of_lt hlt)
  mem := h.mem

theorem sort_isSortedImage {n : Nat} {l : List Nat} (h : IsImageSet φ n l)
    : ∃ l', sortPlistByRawObj l = .ok l' ∧ IsSortedImage φ n ⟨.cycSsort, l'⟩ := by
  obtain ⟨l', hrun, hsorted, hmem⟩ := sortPlistByRawObj_spec h.nodup
  refine ⟨l', hrun, hsorted, ?_, isTruthful_ssort rfl hsorted⟩
  intro x
  dsimp only
  rw [hmem]
  rw [h.mem]

variable (hf : IsKernelBag f φ)

include hf

theorem funcUnsortedImageSetTrans_spec
    : ∃ f' img, funcUnsortedImageSetTrans f = .ok (f', img) ∧ IsKernelBag f' φ
        ∧ f'.entries = f.entries ∧ f'.img = some img := by
  unfold funcUnsortedImageSetTrans
  cases himg : f.img with
  | some img => exact ⟨f, img, rfl, hf, rfl, himg⟩
  | none =>
    obtain ⟨f', img, hrun, hf', heq⟩ := initTrans_spec hf
    dsimp only
    rw [hrun]
    rw [ok_bind]
    rw [heq] at hf' ⊢
    exact ⟨_, _, rfl, hf', rfl, rfl⟩

theorem IsKernelBag.setImg {img out : IntPlist} (himg : f.img = some img)
    (hout : IsSortedImage φ f.entries.length out)
    : IsKernelBag { f with img := some out } φ where
  acts := hf.acts
  fits := hf.fits
  deg_le := hf.deg_le
  ext := hf.ext
  deg_lt := hf.deg_lt
  both := by
    constructor
    . intro h
      contradiction
    . intro h
      rw [hf.both.mpr h] at himg
      contradiction
  img := by
    intro img' h
    cases h
    exact ⟨hout.isImageSet, hout.truthful⟩
  ker := hf.ker

theorem funcImageSetTrans_spec
    : ∃ f' out, funcImageSetTrans f = .ok (f', out) ∧ IsKernelBag f' φ
        ∧ IsSortedImage φ f.entries.length out := by
  obtain ⟨f1, img, hrun, hf1, hentries, himg⟩ := funcUnsortedImageSetTrans_spec hf
  obtain ⟨hset, htrue⟩ := hf1.img img himg
  obtain ⟨hsame, hsorted⟩ := isSsortList_spec htrue
  unfold funcImageSetTrans
  rw [hrun]
  rw [ok_bind]
  rw [← hentries]
  dsimp only
  cases hb : (isSsortList img).2 with
  | true =>
    obtain ⟨hlt, hn⟩ := hsorted hb
    have hout : IsSortedImage φ f1.entries.length (isSsortList img).1 := by
      constructor
      . rw [hsame]
        exact hlt
      . rw [hsame]
        exact hset.mem
      . apply isTruthful_ssort hn
        rw [hsame]
        exact hlt
    exact ⟨_, _, rfl, hf1.setImg himg hout, hout⟩
  | false =>
    obtain ⟨l', hsort, hout⟩ := sort_isSortedImage hset
    rw [hsame]
    rw [hsort]
    exact ⟨_, _, rfl, hf1.setImg himg hout, hout⟩

theorem funcImageSetTransInt_spec (m : Nat)
    : ∃ f' out, funcImageSetTransInt f m = .ok (f', out) ∧ IsKernelBag f' φ
        ∧ IsSortedImage φ m out := by
  unfold funcImageSetTransInt
  dsimp only
  split
  . next heq =>
    rw [heq]
    apply funcImageSetTrans_spec hf
  . split
    . next h0 =>
      refine ⟨f, _, rfl, hf, List.Pairwise.nil, ?_, isTruthful_ssort rfl List.Pairwise.nil⟩
      intro x
      rw [h0]
      simp
    . split
      . next hlt =>
        obtain ⟨s, hrun, hs⟩ := imageSetLoop_spec hf.isEntries hf.deg_lt (Nat.le_of_lt hlt)
        rw [hrun]
        rw [ok_bind]
        rw [hs]
        obtain ⟨l', hsort, hout⟩ := sort_isSortedImage (isImageSet_values φ m)
        rw [hsort]
        exact ⟨f, _, rfl, hf, hout⟩
      . next hne _ hge =>
        obtain ⟨f1, im, hrun, hf1, him⟩ := funcImageSetTrans_spec hf
        rw [hrun]
        rw [ok_bind]
        have hsorted : (im.entries ++ range' (f.entries.length + 1)
            (m - f.entries.length)).Pairwise (· < ·) := by
          rw [pairwise_append]
          refine ⟨him.sorted, pairwise_lt_range', ?_⟩
          intro a ha b hb
          rw [him.mem] at ha
          obtain ⟨i, hi, ha⟩ := ha
          rw [mem_range'_1] at hb
          have := hf.fits.lt i hi
          omega
        refine ⟨f1, _, rfl, hf1, hsorted, ?_, isTruthful_ssort rfl hsorted⟩
        intro x
        dsimp only
        rw [mem_append]
        rw [him.mem]
        rw [mem_range'_1]
        constructor
        . intro h
          cases h with
          | inl h =>
            obtain ⟨i, hi, hx⟩ := h
            exact ⟨i, by omega, hx⟩
          | inr h =>
            refine ⟨x - 1, by omega, ?_⟩
            rw [hf.fits.fix _ (by omega)]
            omega
        . intro ⟨i, hi, hx⟩
          by_cases hid : i < f.entries.length
          . exact Or.inl ⟨i, hid, hx⟩
          . right
            rw [hf.fits.fix i (by omega)] at hx
            omega

theorem funcPreimagesTransInt_spec {pt : Nat} (hpt : 0 < pt)
    : ∃ out, funcPreimagesTransInt f pt = .ok out ∧ out.entries.Pairwise (· < ·)
        ∧ (∀ x, x ∈ out.entries ↔ ∃ i, φ i + 1 = pt ∧ i + 1 = x)
        ∧ IsTruthful out.tnum out.entries := by
  unfold funcPreimagesTransInt
  dsimp only
  split
  . next hge =>
    refine ⟨_, rfl, pairwise_singleton _ _, ?_, isTruthful_unknown rfl rfl⟩
    intro x
    dsimp only
    rw [mem_singleton]
    constructor
    . intro hx
      refine ⟨pt - 1, ?_, by omega⟩
      rw [hf.fits.fix _ hge]
      omega
    . intro ⟨i, heq, hx⟩
      have := (hf.fits.mem_degree (pt - 1) hge).2 i (by omega)
      omega
  . next hlt =>
    rw [preimagesLoop_spec hf.isEntries]
    rw [ok_bind]
    have hsorted : (((range f.entries.length).filter (fun j => φ j = pt - 1)).map
        (· + 1)).Pairwise (· < ·) := by
      rw [pairwise_map]
      apply List.Pairwise.imp _ (pairwise_lt_range.filter _)
      intro a b hab
      omega
    have hmem : ∀ x, x ∈ ((range f.entries.length).filter (fun j => φ j = pt - 1)).map
        (· + 1) ↔ ∃ i, φ i + 1 = pt ∧ i + 1 = x := by
      intro x
      rw [mem_map]
      constructor
      . intro ⟨i, hi, hx⟩
        rw [mem_filter] at hi
        have := of_decide_eq_true hi.2
        exact ⟨i, by omega, hx⟩
      . intro ⟨i, heq, hx⟩
        refine ⟨i, ?_, hx⟩
        rw [mem_filter]
        rw [mem_range]
        constructor
        . by_contra hge
          rw [hf.fits.fix i (by omega)] at heq
          omega
        . apply decide_eq_true
          omega
    generalize ((range f.entries.length).filter (fun j => φ j = pt - 1)).map
      (· + 1) = out at hsorted hmem
    split
    . exact ⟨_, rfl, hsorted, hmem, isTruthful_ssort rfl hsorted⟩
    . exact ⟨_, rfl, hsorted, hmem, isTruthful_ssort rfl hsorted⟩

end Functions
