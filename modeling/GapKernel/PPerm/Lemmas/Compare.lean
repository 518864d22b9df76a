import GapKernel.PPerm.Lemmas.Fill
import GapKernel.Trans.Lemmas.Degree

open PartialBijection PPermImpl List

section Compare

variable {f g : PPermBag} {φ γ : Nat ≃. Nat} {ptf ptg : List Nat}

section

variable (hf : IsImageList φ ptf) (hg : IsImageList γ ptg)

include hf hg

theorem differRound_of_eq {i : Nat} (hif : i < ptf.length) (hig : i < ptg.length) (heq : φ i = γ i)
    (res : Option (Nat × Nat))
    : differLoop.differRound ptf ptg i res = .ok (none, false) := by
  unfold differLoop.differRound
  rw [readEntry_images hf hif]
  rw [ok_bind]
  rw [readEntry_images hg hig]
  rw [ok_bind]
  rw [if_neg (by rw [heq]; simp)]
  rfl

theorem differRound_of_ne {i : Nat} (hif : i < ptf.length) (hig : i < ptg.length) (hne : φ i ≠ γ i)
    (res : Option (Nat × Nat))
    : differLoop.differRound ptf ptg i res
        = .ok (some (entryOf (φ i), entryOf (γ i)), true) := by
  unfold differLoop.differRound
  rw [readEntry_images hf hif]
  rw [ok_bind]
  rw [readEntry_images hg hig]
  rw [ok_bind]
  rw [if_pos (fun heq => hne (entryOf_injective heq))]
  rfl

theorem differLoop_spec (hlen : ptf.length = ptg.length)
    : ∃ res, differLoop ptf ptg ptf.length 0 none = .ok res
        ∧ IsFirstDiff (fun i => entryOf (φ i)) (fun i => entryOf (γ i)) res := by
  unfold differLoop
  apply breakLoop_of_inv (fun i res => res = none ∧ ∀ q, q < i → φ q = γ q)
  . refine ⟨rfl, ?_⟩
    intro q hq
    omega
  . intro j res _ hj hres
    by_cases heq : φ j = γ j
    . refine ⟨none, false, differRound_of_eq hf hg (by omega) (by omega) heq res, ?_, ?_⟩
      . intro h
        contradiction
      . intro _
        refine ⟨rfl, ?_⟩
        intro q hq
        by_cases hqj : q = j
        . rw [hqj]
          exact heq
        . exact hres.2 q (by omega)
    . refine ⟨_, true, differRound_of_ne hf hg (by omega) (by omega) heq res, ?_, ?_⟩
      . intro _
        refine ⟨j, ?_, ?_, rfl, rfl⟩
        . intro q hq
          dsimp only
          rw [hres.2 q hq]
        . intro h
          exact heq (entryOf_injective h)
      . intro h
        contradiction
  . intro res hres
    rw [hres.1]
    apply funext
    intro q
    by_cases hq : q < ptf.length
    . rw [hres.2 q (by omega)]
    . rw [hf.eq_none (by omega)]
      rw [hg.eq_none (by omega)]

end

theorem entries_eq_iff : (fun i => entryOf (φ i)) = (fun i => entryOf (γ i)) ↔ φ = γ := by
  constructor
  . intro h
    ext1 i
    apply entryOf_injective
    exact congrFun h i
  . intro h
    rw [h]

theorem differDom_spec (hf : IsImageList φ ptf) (hg : IsImageList γ ptg)
    (hlen : ptf.length = ptg.length) {dom : List Nat} (hdom : IsDomList φ dom)
    : ∃ res, domBreakLoop dom dom.length (differLoop.differRound ptf ptg) none = .ok res
        ∧ (res.isNone = true ↔ ∀ j u, φ j = some u → φ j = γ j) := by
  apply domBreakLoop_spec hdom (fun L res => res = none ∧ ∀ j ∈ L, φ j = γ j)
  . refine ⟨rfl, ?_⟩
    intro j hj
    contradiction
  . intro L j u res hu hres
    have hj := hf.lt_length hu
    by_cases heq : φ j = γ j
    . refine ⟨none, false, differRound_of_eq hf hg hj (by omega) heq res, ?_, ?_⟩
      . intro h
        contradiction
      . intro _
        refine ⟨rfl, ?_⟩
        intro i hi
        rw [mem_append, mem_singleton] at hi
        cases hi with
        | inl hi => exact hres.2 i hi
        | inr hi =>
          rw [hi]
          exact heq
    . refine ⟨_, true, differRound_of_ne hf hg hj (by omega) heq res, ?_, ?_⟩
      . intro _
        constructor
        . intro h
          contradiction
        . intro h
          exact absurd (h j u hu) heq
      . intro h
        contradiction
  . intro res hres
    rw [hres.1]
    constructor
    . intro _ j u hu
      exact hres.2 j (hdom.mem_domPoints hu)
    . intro _
      rfl

theorem IsDomList.length_eq {dom dom' : List Nat} (h : IsDomList φ dom) (h' : IsDomList φ dom')
    : dom.length = dom'.length := by
  have hperm : dom.Perm dom' := by
    rw [perm_ext_iff_of_nodup h.nodup h'.nodup]
    intro x
    rw [h.mem]
    rw [h'.mem]
  exact hperm.length_eq

theorem eq_of_dom {dom dom' : List Nat} (hdom : IsDomList φ dom) (hdom' : IsDomList γ dom')
    (hrank : dom.length = dom'.length) (heq : ∀ j u, φ j = some u → φ j = γ j) : φ = γ := by
  have hsub : dom ⊆ dom' := by
    intro x hx
    rw [hdom.mem] at hx
    obtain ⟨i, v, hv, hx⟩ := hx
    rw [hdom'.mem]
    refine ⟨i, v, ?_, hx⟩
    rw [← heq i v hv]
    exact hv
  have hperm := (hdom.nodup.subperm hsub).perm_of_length_le (by omega)
  ext1 j
  cases hu : φ j with
  | some u =>
    rw [← hu]
    exact heq j u hu
  | none =>
    cases hv : γ j with
    | none => rfl
    | some v =>
      have hmem := (hdom'.mem (j + 1)).mpr ⟨j, v, hv, rfl⟩
      rw [← hperm.mem_iff] at hmem
      rw [hdom.mem] at hmem
      obtain ⟨i, u, hu', hx⟩ := hmem
      rw [show i = j by omega] at hu'
      rw [hu] at hu'
      contradiction

theorem eqPPerm_spec (hf : IsPPermBag f φ) (hg : IsPPermBag g γ)
    : ∃ b, eqPPerm f.tnum.dataType g.tnum.dataType f g = .ok b ∧ (b = true ↔ φ = γ) := by
  unfold eqPPerm
  rw [constAddrPPerm_eq]
  rw [ok_bind]
  rw [constAddrPPerm_eq]
  rw [ok_bind]
  rw [hf.codegPPerm_eq]
  rw [hg.codegPPerm_eq]
  dsimp only
  split
  . next hne =>
    refine ⟨false, rfl, ?_⟩
    constructor
    . intro h
      contradiction
    . intro heq
      have hg' := hg
      rw [← heq] at hg'
      have h1 := hf.degree.unique hg'.degree
      have h2 := hf.codegree.unique hg'.codegree
      omega
  . next hne =>
    have hlen : f.entries.length = g.entries.length := by omega
    have hall : ∃ b, (do return (← differLoop f.entries g.entries f.entries.length 0 none).isNone :
        Result Bool) = .ok b ∧ (b = true ↔ φ = γ) := by
      obtain ⟨res, hrun, hdiff⟩ := differLoop_spec hf.images hg.images hlen
      rw [hrun]
      refine ⟨res.isNone, rfl, ?_⟩
      rw [hdiff.isNone_iff]
      exact entries_eq_iff
    cases hslotf : f.dom with
    | none =>
      cases hslotg : g.dom with
      | none => exact hall
      | some domg => exact hall
    | some dom =>
      cases hslotg : g.dom with
      | none => exact hall
      | some domg =>
        have hdomf := hf.dom dom hslotf
        have hdomg := hg.dom domg hslotg
        dsimp only
        rw [hf.rankPPerm_eq hslotf]
        rw [ok_bind]
        rw [hg.rankPPerm_eq hslotg]
        rw [ok_bind]
        split
        . next hrank =>
          refine ⟨false, rfl, ?_⟩
          constructor
          . intro h
            contradiction
          . intro heq
            rw [← heq] at hdomg
            exact absurd (hdomf.length_eq hdomg) hrank
        . next hrank =>
          obtain ⟨res, hrun, hres⟩ := differDom_spec hf.images hg.images hlen hdomf
          rw [hrun]
          refine ⟨res.isNone, rfl, ?_⟩
          rw [hres]
          constructor
          . intro heq
            exact eq_of_dom hdomf hdomg (by omega) heq
          . intro heq j u hu
            rw [heq]

theorem ltPPerm_spec (hf : IsPPermBag f φ) (hg : IsPPermBag g γ)
    : ∃ b, ltPPerm f.tnum.dataType g.tnum.dataType f g = .ok b ∧ (b = true ↔ KeyLt φ γ) := by
  unfold ltPPerm
  rw [constAddrPPerm_eq]
  rw [ok_bind]
  rw [constAddrPPerm_eq]
  rw [ok_bind]
  rw [hf.degree.keyLt_iff hg.degree]
  dsimp only
  split
  . next hne =>
    refine ⟨_, rfl, ?_⟩
    rw [decide_eq_true_iff]
    omega
  . next heq =>
    rw [not_not] at heq
    obtain ⟨res, hrun, hdiff⟩ := differLoop_spec hf.images hg.images heq
    have hlt := hdiff.lt_iff
    rw [hrun]
    rw [ok_bind]
    rw [← hlt]
    cases res with
    | none =>
      refine ⟨false, rfl, ?_⟩
      simp
      omega
    | some xy =>
      refine ⟨_, rfl, ?_⟩
      rw [decide_eq_true_iff]
      simp
      omega

end Compare

section Hash

variable {f : PPermBag} {φ : Nat ≃. Nat} {o : ByteOrder}

theorem funcTrimPPerm_spec (hf : IsPPermBag f φ) (hT : f.tnum = .pperm4) (hlt : f.codeg < 65536)
    : funcTrimPPerm o f = .ok { f with tnum := .pperm2 }
      ∧ IsPPermBag { f with tnum := .pperm2 } φ := by
  have hsmall : ∀ v ∈ f.codeg :: f.entries, v < 2 ^ 16 := by
    intro v hv
    rw [mem_cons] at hv
    cases hv with
    | inl hv =>
      rw [hv]
      exact hlt
    | inr hv =>
      rw [mem_iff_getElem?] at hv
      obtain ⟨i, hi⟩ := hv
      rw [hf.images.getElem?_eq (List.getElem?_eq_some_iff.mp hi).1] at hi
      rw [← Option.some.inj hi]
      apply entryOf_lt _ (by decide)
      intro i u hu
      have := (hf.image_lt hu).2.1
      omega
  constructor
  . obtain ⟨mem, hrun, hmem⟩ := narrow_spec (o := o) (d := f.entries.length + 1)
      (l := f.codeg :: f.entries) (Nat.le_refl _) (by
        intro v hv
        exact hsmall v (mem_of_mem_take hv))
    unfold funcTrimPPerm
    rw [hf.codegPPerm_eq]
    rw [if_neg (by rw [hT]; simp; omega)]
    dsimp only
    rw [hrun]
    rw [ok_bind]
    rw [hmem]
    rw [take_of_length_le (by rw [length_cons])]
    rfl
  . exact {
      images := hf.images
      degree := hf.degree
      codegree := hf.codegree
      codeg_lt := hlt
      both := hf.both
      dom := hf.dom
      img := hf.img }

/--
The hash value of a partial permutation with degree `d` and codegree `m`. There is none if the
number of bytes is no `int`.
-/
def ppermHash (w : IntSize) (o : ByteOrder) (hashkeyMem : List Nat → Nat → Int) (φ : Nat ≃. Nat)
    (d m : Nat) : Result Int :=
  hashkeyBagNC hashkeyMem
    (Bytes.ofEntries o (if m < 65536 then 2 else 4) ((List.range d).map (fun i => entryOf (φ i))))
    255 0 (toInt32 ((if m < 65536 then 2 else 4) * d % 2 ^ w.bits))

theorem hashFuncForPPerm_spec (w : IntSize) (o : ByteOrder) (hashkeyMem : List Nat → Nat → Int)
    (hf : IsPPermBag f φ)
    : ∃ f', IsPPermBag f' φ ∧ hashFuncForPPerm w o hashkeyMem f = (do
        let k ← ppermHash w o hashkeyMem φ f.entries.length f.codeg
        return (f', k)) := by
  unfold hashFuncForPPerm ppermHash
  rw [← hf.images.eq_map_range]
  cases hT : f.tnum with
  | pperm2 =>
    have hlt := hf.codeg_lt
    rw [hT] at hlt
    have hlt' : f.codeg < 65536 := hlt
    refine ⟨f, hf, ?_⟩
    rw [if_pos hlt']
    unfold hashFuncForPPerm.hashBag
    rw [hT]
    rfl
  | pperm4 =>
    dsimp only
    rw [hf.codegPPerm_eq]
    split
    . next hlt =>
      obtain ⟨hrun, hbag⟩ := funcTrimPPerm_spec (o := o) hf hT hlt
      refine ⟨_, hbag, ?_⟩
      rw [hrun]
      rfl
    . next hge =>
      refine ⟨f, hf, ?_⟩
      unfold hashFuncForPPerm.hashBag
      rw [hT]
      rfl

end Hash
