import GapKernel.Trans.Lemmas.Derived

open PermList TransImpl FirstOccurrence List

namespace TransOps

structure IsFlatKernel (φ : Nat → Nat) (n : Nat) (ker : IntPlist) : Prop where
  entries : ker.entries = flatKernel φ n
  truthful : IsTruthful ker.tnum ker.entries

structure IsKernelPartition (φ : Nat → Nat) (n : Nat) (ker : ClassPlist) : Prop where
  entries : ker.entries.map IntPlist.entries = classes φ n
  truthful : IsTruthful ker.tnum (ker.entries.map IntPlist.entries)
  classes : ∀ l ∈ ker.entries, IsTruthful l.tnum l.entries

structure IsPreimageSet (φ : Nat → Nat) (pt : Nat) (out : IntPlist) : Prop where
  sorted : out.entries.Pairwise (· < ·)
  mem : ∀ x, x ∈ out.entries ↔ ∃ i, φ i + 1 = pt ∧ i + 1 = x
  truthful : IsTruthful out.tnum out.entries

structure DerivedData (w : IntSize) (f : TransBag) (φ : Nat → Nat) (d n : Nat) (list : List Int)
    (pt : Nat) : Prop where
  rank : ∃ f', funcRankTrans w f = .ok (f', (((Finset.range d).image φ).card : Int))
  flatKernel : ∃ f' ker, funcFlatKernelTrans f = .ok (f', ker) ∧ IsFlatKernel φ d ker
  imageSet : ∃ f' out, funcImageSetTrans f = .ok (f', out) ∧ IsSortedImage φ d out
  rankInt : ∃ f', funcRankTransInt f n = .ok (f', (((Finset.range n).image φ).card : Int))
  flatKernelInt : ∃ f' ker, funcFlatKernelTransInt f n = .ok (f', ker) ∧ IsFlatKernel φ n ker
  kernel : ∃ f' ker, funcKernelTrans f n = .ok (f', ker) ∧ IsKernelPartition φ n ker
  imageSetInt : ∃ f' out, funcImageSetTransInt f n = .ok (f', out) ∧ IsSortedImage φ n out
  rankList : funcRankTransList w f list = .ok (((listPoints list).map φ).toFinset.card : Int)
  preimages : ∃ out, funcPreimagesTransInt f pt = .ok out ∧ IsPreimageSet φ pt out

def IsInjectiveBelow (φ : Nat → Nat) (n : Nat) : Prop :=
  ∀ i j, i < n → j < n → φ i = φ j → i = j

/--
The bag has no trailing fixed points, its flat kernel has the right type or gets it, the flat kernel
on the integers from 1 to `n` is not sorted when it gets a new list, and the list has no integer
twice that is greater than the degree.
-/
structure HasRightData (f : TransBag) (φ : Nat → Nat) (d n : Nat) (list : List Int) : Prop where
  deg : f.entries.length = d
  ker : ∀ ker, f.ker = some ker → IsTruthful ker.tnum ker.entries
  init : f.ker = none → d = 0 ∨ ¬IsInjectiveBelow φ d
  kerInt : n = 0 ∨ n = d ∨ ¬IsInjectiveBelow φ n
  list : ((listPoints list).filter (d ≤ ·)).Nodup

section RankList

variable {φ : Nat → Nat} {deg : Nat}

theorem toFinset_map_of_fix (hfix : ∀ i, deg ≤ i → φ i = i) (ps : List Nat)
    : (ps.map φ).toFinset
        = ((ps.filter (· < deg)).map φ).toFinset ∪ (ps.filter (deg ≤ ·)).toFinset := by
  ext x
  rw [Finset.mem_union]
  rw [mem_toFinset, mem_toFinset, mem_toFinset]
  simp only [mem_map, mem_filter, decide_eq_true_eq]
  constructor
  . intro ⟨p, hp, hx⟩
    by_cases hpd : p < deg
    . exact Or.inl ⟨p, ⟨hp, hpd⟩, hx⟩
    . rw [hfix p (by omega)] at hx
      rw [← hx]
      exact Or.inr ⟨hp, by omega⟩
  . intro h
    cases h with
    | inl h =>
      obtain ⟨p, hp, hx⟩ := h
      exact ⟨p, hp.1, hx⟩
    | inr h => exact ⟨x, h.1, hfix x h.2⟩

theorem rankCount_eq_card_iff (hfix : ∀ i, deg ≤ i → φ i = i) (hlt : ∀ i, i < deg → φ i < deg)
    (ps : List Nat)
    : rankCount φ deg ps = (ps.map φ).toFinset.card ↔ (ps.filter (deg ≤ ·)).Nodup := by
  have hdisj : Disjoint ((ps.filter (· < deg)).map φ).toFinset (ps.filter (deg ≤ ·)).toFinset := by
    rw [Finset.disjoint_left]
    intro x hx hx'
    simp only [mem_toFinset, mem_map, mem_filter, decide_eq_true_eq] at hx hx'
    obtain ⟨p, hp, heq⟩ := hx
    have := hlt p hp.2
    omega
  rw [toFinset_map_of_fix hfix]
  rw [Finset.card_union_of_disjoint hdisj]
  unfold rankCount
  rw [length_eraseDups]
  rw [Nat.add_left_cancel_iff]
  rw [eq_comm]
  have hiff := Multiset.toFinset_card_eq_card_iff_nodup
    (m := ((ps.filter (deg ≤ ·) : List Nat) : Multiset Nat))
  rw [Multiset.coe_nodup] at hiff
  exact hiff

end RankList

section Condition

variable {f : TransBag} {φ : Nat → Nat} {w : IntSize} {d n : Nat}

variable {ker : IntPlist}

theorem isFlatKernel_of_not_injective (htnum : ker.tnum.isSsort = false)
    (hentries : ker.entries = flatKernel φ n) (h : ¬IsInjectiveBelow φ n)
    : IsFlatKernel φ n ker where
  entries := hentries
  truthful := by
    constructor
    . intro hss
      rw [htnum] at hss
      contradiction
    . intro _ hsorted
      rw [hentries] at hsorted
      rw [sorted_flatKernel_iff] at hsorted
      exact h hsorted

theorem IsFlatKernel.not_injective (hker : IsFlatKernel φ n ker) (htnum : ker.tnum.isNsort = true)
    : ¬IsInjectiveBelow φ n := by
  intro h
  apply hker.truthful.nsort htnum
  rw [hker.entries]
  rw [sorted_flatKernel_iff]
  exact h

theorem isFlatKernel_init (hlen : f.entries.length = d) (h : d = 0 ∨ ¬IsInjectiveBelow φ d)
    (htnum : ker.tnum = initTnum f) (hentries : ker.entries = flatKernel φ d)
    : IsFlatKernel φ d ker := by
  unfold initTnum at htnum
  rw [hlen] at htnum
  split at htnum
  . next h0 =>
    refine ⟨hentries, isTruthful_ssort ?_ ?_⟩
    . rw [htnum]
      rfl
    . rw [hentries]
      rw [h0]
      exact List.Pairwise.nil
  . next h0 =>
    cases h with
    | inl h => exact absurd h h0
    | inr h =>
      apply isFlatKernel_of_not_injective _ hentries h
      rw [htnum]
      rfl

variable {list : List Int}

theorem HasRightData.isFlatKernel (h : HasRightData f φ d n list)
    (hentries : ker.entries = flatKernel φ d) (htnum : match f.ker with
      | some ker' => ker = ker'
      | none => ker.tnum = initTnum f) : IsFlatKernel φ d ker := by
  have hker := h.ker
  have hinit := h.init
  cases hslot : f.ker with
  | some ker' =>
    rw [hslot] at htnum
    dsimp only at htnum
    rw [← htnum] at hslot
    exact ⟨hentries, hker ker hslot⟩
  | none =>
    rw [hslot] at htnum
    exact isFlatKernel_init h.deg (hinit hslot) htnum hentries

section

variable (hf : IsKernelBag f φ)

include hf

theorem flatKernel_of_rightData (h : HasRightData f φ d n list)
    : ∃ f' ker, funcFlatKernelTrans f = .ok (f', ker) ∧ IsFlatKernel φ d ker := by
  obtain ⟨f', ker, hrun, _, _, hentries, htnum⟩ := funcFlatKernelTrans_spec hf
  rw [h.deg] at hentries
  exact ⟨f', ker, hrun, h.isFlatKernel hentries htnum⟩

theorem flatKernelInt_of_rightData (h : HasRightData f φ d n list)
    : ∃ f' ker, funcFlatKernelTransInt f n = .ok (f', ker) ∧ IsFlatKernel φ n ker := by
  obtain ⟨f', ker, hrun, _, hentries, hzero, heq, hne⟩ := funcFlatKernelTransInt_spec hf n
  refine ⟨f', ker, hrun, ?_⟩
  by_cases h0 : n = 0
  . refine ⟨hentries, isTruthful_ssort ?_ ?_⟩
    . rw [hzero h0]
      rfl
    . rw [hentries]
      rw [h0]
      exact List.Pairwise.nil
  . by_cases hn : n = d
    . rw [hn] at hentries ⊢
      have hnd : n = f.entries.length := by
        rw [hn]
        rw [h.deg]
      exact h.isFlatKernel hentries (heq h0 hnd)
    . have hnd : n ≠ f.entries.length := by
        rw [h.deg]
        exact hn
      cases h.kerInt with
      | inl h' => exact absurd h' h0
      | inr h' =>
        cases h' with
        | inl h' => exact absurd h' hn
        | inr h' =>
          apply isFlatKernel_of_not_injective _ hentries h'
          rw [hne h0 hnd]
          rfl

section

variable (h : ∃ f' ker, funcFlatKernelTrans f = .ok (f', ker) ∧ IsFlatKernel φ d ker)

include h

theorem deg_of_flatKernel
    : f.entries.length = d := by
  obtain ⟨f', ker, hrun, hker⟩ := h
  obtain ⟨f'', ker', hrun', _, _, hentries, _⟩ := funcFlatKernelTrans_spec hf
  rw [hrun] at hrun'
  cases hrun'
  rw [hker.entries] at hentries
  have hlen := congrArg List.length hentries
  rw [length_flatKernel, length_flatKernel] at hlen
  exact hlen.symm

theorem slots_of_flatKernel
    : (∀ ker, f.ker = some ker → IsTruthful ker.tnum ker.entries)
      ∧ (f.ker = none → d = 0 ∨ ¬IsInjectiveBelow φ d) := by
  have hlen := deg_of_flatKernel hf h
  obtain ⟨f', ker, hrun, hker⟩ := h
  obtain ⟨f'', ker', hrun', _, _, _, htnum⟩ := funcFlatKernelTrans_spec hf
  rw [hrun] at hrun'
  cases hrun'
  constructor
  . intro ker' hslot
    rw [hslot] at htnum
    dsimp only at htnum
    rw [← htnum]
    exact hker.truthful
  . intro hslot
    rw [hslot] at htnum
    dsimp only at htnum
    unfold initTnum at htnum
    rw [hlen] at htnum
    split at htnum
    . next h0 => exact Or.inl h0
    . right
      apply hker.not_injective
      rw [htnum]
      rfl

end

theorem kerInt_of_flatKernelInt (hlen : f.entries.length = d)
    (h : ∃ f' ker, funcFlatKernelTransInt f n = .ok (f', ker) ∧ IsFlatKernel φ n ker)
    : n = 0 ∨ n = d ∨ ¬IsInjectiveBelow φ n := by
  obtain ⟨f', ker, hrun, hker⟩ := h
  obtain ⟨f'', ker', hrun', _, _, _, _, hne⟩ := funcFlatKernelTransInt_spec hf n
  rw [hrun] at hrun'
  cases hrun'
  by_cases h0 : n = 0
  . exact Or.inl h0
  . by_cases hn : n = d
    . exact Or.inr (Or.inl hn)
    . right
      right
      apply hker.not_injective
      rw [hne h0 (by rw [hlen]; exact hn)]
      rfl

end

theorem isKernelPartition_classes {tnum : PlistKTNum} (htnum : tnum.isNsort = false)
    : IsKernelPartition φ n ⟨tnum, (classes φ n).map classPlist⟩ where
  entries := by
    rw [map_map]
    apply map_id
  truthful := by
    apply isTruthful_ssort htnum
    rw [map_map]
    rw [show IntPlist.entries ∘ classPlist = id from rfl]
    rw [map_id]
    apply sorted_classes
  classes := by
    intro l hl
    rw [mem_map] at hl
    obtain ⟨l', hl', heq⟩ := hl
    rw [← heq]
    apply isTruthful_ssort rfl
    apply sorted_of_mem_classes φ hl'

theorem funcRankTransList_eq (hf : IsKernelBag f φ) (hlist : ∀ x ∈ list, 0 < x ∧ x ≤ w.intIntobjMax)
    : funcRankTransList w f list
        = .ok (rankCount φ f.entries.length (listPoints list) : Int) := by
  obtain ⟨s, hrun, hs⟩ := rankListLoop_spec hf.isEntries hlist
  unfold funcRankTransList
  dsimp only
  rw [hrun]
  rw [ok_bind]
  rw [hs]
  rfl

/--
The exact condition under which all data that are derived from a bag are right. The list has
positive small integers and `pt` is positive.
-/
theorem derivedData_iff (hf : IsKernelBag f φ) (hd : IsTransDegree φ d) {list : List Int}
    (hlist : ∀ x ∈ list, 0 < x ∧ x ≤ w.intIntobjMax) {pt : Nat} (hpt : 0 < pt)
    : DerivedData w f φ d n list pt ↔ HasRightData f φ d n list := by
  have hrank := rankCount_eq_card_iff hf.fits.fix hf.fits.lt (listPoints list)
  have hrun := funcRankTransList_eq hf hlist
  constructor
  . intro h
    have hlen := deg_of_flatKernel hf h.flatKernel
    obtain ⟨hker, hinit⟩ := slots_of_flatKernel hf h.flatKernel
    refine ⟨hlen, hker, hinit, kerInt_of_flatKernelInt hf hlen h.flatKernelInt, ?_⟩
    rw [← hlen]
    rw [← hrank]
    have heq := h.rankList
    rw [hrun] at heq
    rw [Except.ok.injEq] at heq
    omega
  . intro h
    constructor
    . apply funcRankTrans_spec hf hd
    . apply flatKernel_of_rightData hf h
    . obtain ⟨f', out, himg, _, hout⟩ := funcImageSetTrans_spec hf
      rw [h.deg] at hout
      exact ⟨f', out, himg, hout⟩
    . obtain ⟨f', hint, _⟩ := funcRankTransInt_spec hf n
      exact ⟨f', hint⟩
    . apply flatKernelInt_of_rightData hf h
    . obtain ⟨f', tnum, hker, _, htnum⟩ := funcKernelTrans_spec hf n
      exact ⟨f', _, hker, isKernelPartition_classes htnum⟩
    . obtain ⟨f', out, himg, _, hout⟩ := funcImageSetTransInt_spec hf n
      exact ⟨f', out, himg, hout⟩
    . have hlist' := h.list
      rw [← h.deg] at hlist'
      rw [hrun]
      rw [hrank.mpr hlist']
    . obtain ⟨out, himg, hsorted, hmem, htrue⟩ := funcPreimagesTransInt_spec hf hpt
      exact ⟨out, himg, hsorted, hmem, htrue⟩

end Condition

theorem isKernelBag_newTrans {T : PermTnum} {entries : List Nat}
    (hbag : IsTransBag (newTrans T entries) (image entries)) (hlen : entries.length < 2 ^ 32)
    : IsKernelBag (newTrans T entries) (image entries) where
  toIsTransBag := hbag
  deg_lt := hlen
  both := Iff.rfl
  img := by
    intro img h
    contradiction
  ker := by
    intro ker h
    contradiction

def exampleConstant : TransBag :=
  newTrans .perm2 [0, 0]

theorem isKernelBag_exampleConstant : IsKernelBag exampleConstant (image [0, 0]) := by
  apply isKernelBag_newTrans _ (by decide)
  apply isTransBag_image rfl (by decide) (by decide)

theorem derivedData_exampleConstant
    : DerivedData .int8 exampleConstant (image [0, 0]) 2 3 [1, 3, 2] 1 := by
  have hdeg := isKernelBag_exampleConstant.fits.isTransDegree (.inr (by decide))
  apply (derivedData_iff isKernelBag_exampleConstant hdeg (by decide) (by decide)).mpr
  have hnot : ∀ n, 2 ≤ n → ¬IsInjectiveBelow (image [0, 0]) n := by
    intro n hn h
    have := h 0 1 (by omega) (by omega) rfl
    omega
  refine ⟨rfl, ?_, ?_, ?_, by decide⟩
  . intro ker h
    contradiction
  . exact fun _ => .inr (hnot 2 (by decide))
  . exact .inr (.inr (hnot 3 (by decide)))

def exampleSwap : TransBag :=
  newTrans .perm2 [1, 0]

/--
The flat kernel of a permutation is sorted, and it is said not to be sorted.
-/
theorem derivedData_exampleSwap
    : IsKernelBag exampleSwap (image [1, 0]) ∧ IsTransDegree (image [1, 0]) 2
      ∧ ¬DerivedData .int8 exampleSwap (image [1, 0]) 2 2 [1, 2] 1 := by
  have hbag : IsKernelBag exampleSwap (image [1, 0]) := by
    apply isKernelBag_newTrans _ (by decide)
    apply isTransBag_image rfl (by decide) (by decide)
  refine ⟨hbag, hbag.fits.isTransDegree (.inr (by decide)), ?_⟩
  intro h
  obtain ⟨f', ker, hrun, hker⟩ := h.flatKernel
  have hswap : funcFlatKernelTrans exampleSwap = .ok (f', ⟨.cycNsort, [1, 2]⟩) := by
    rw [hrun]
    cases hrun
    rfl
  rw [hrun] at hswap
  cases hswap
  apply hker.truthful.nsort rfl
  decide

end TransOps
