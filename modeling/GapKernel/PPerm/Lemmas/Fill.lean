import GapKernel.PPerm.Impl.Restrict
import GapKernel.PPerm.Lemmas.Bag

open PartialBijection PPermImpl List

section Loops

variable {σ : Type} {φ : Nat ≃. Nat} {dom : List Nat}

variable {s : σ} {Q : σ → Prop}

theorem pointLoop_spec {body : Nat → σ → Result σ} (I : List Nat → σ → Prop) {n lo : Nat}
    (hs : I (range lo) s)
    (hstep : ∀ L j s, lo ≤ j → j < lo + n → I L s → ∃ s', body j s = .ok s' ∧ I (L ++ [j]) s')
    (hQ : ∀ s', I (range (lo + n)) s' → Q s') : ∃ s', forLoop body n lo s = .ok s' ∧ Q s' := by
  apply forLoop_of_inv (fun i s => I (range i) s) hs
  . intro j s hlo hlt hs
    rw [range_succ]
    apply hstep _ _ _ hlo hlt hs
  . exact hQ

theorem pointBreakLoop_spec {body : Nat → σ → Result (σ × Bool)} (I : List Nat → σ → Prop) {n : Nat}
    (hs : I [] s) (hstep : ∀ L j s, j < n → I L s → ∃ s' stop, body j s = .ok (s', stop)
      ∧ (stop = true → Q s') ∧ (stop = false → I (L ++ [j]) s'))
    (hQ : ∀ s', I (range n) s' → Q s') : ∃ s', breakLoop body n 0 s = .ok s' ∧ Q s' := by
  apply breakLoop_of_inv (fun i s => I (range i) s)
  . exact hs
  . intro j s _ hlt hs
    rw [range_succ]
    apply hstep _ _ _ (by omega) hs
  . intro s' hs'
    rw [Nat.zero_add] at hs'
    exact hQ s' hs'

def domPoints (dom : List Nat) : List Nat :=
  dom.map (· - 1)

section

variable (hdom : IsDomList φ dom)

include hdom

theorem IsDomList.round {i : Nat} (h1 : 1 ≤ i) (hi : i < 1 + dom.length)
    : ∃ j v, elmPlist dom i = .ok (j + 1) ∧ φ j = some v
      ∧ domPoints (dom.take i) = domPoints (dom.take (i - 1)) ++ [j] := by
  have hlt : i - 1 < dom.length := by omega
  have hmem := (hdom.mem dom[i - 1]).mp (getElem_mem hlt)
  obtain ⟨j, v, hv, hx⟩ := hmem
  have hget := getElem?_eq_getElem hlt
  rw [hx] at hget
  refine ⟨j, v, ?_, hv, ?_⟩
  . rw [show i = i - 1 + 1 by omega]
    apply elmPlist_of_getElem? hget
  . unfold domPoints
    rw [show take i dom = take (i - 1 + 1) dom by rw [show i - 1 + 1 = i by omega]]
    rw [take_add_one]
    rw [hget]
    rw [map_append]
    rfl

theorem domLoop_spec {body : Nat → σ → Result σ} (I : List Nat → σ → Prop) (hs : I [] s)
    (hstep : ∀ L j v s, φ j = some v → I L s → ∃ s', body j s = .ok s' ∧ I (L ++ [j]) s')
    (hQ : ∀ s', I (domPoints dom) s' → Q s')
    : ∃ s', domLoop dom dom.length body s = .ok s' ∧ Q s' := by
  unfold domLoop
  apply forLoop_of_inv (fun i s => I (domPoints (dom.take (i - 1))) s)
  . exact hs
  . intro i s h1 hi hs
    obtain ⟨j, v, helm, hv, htake⟩ := hdom.round h1 hi
    rw [helm]
    rw [ok_bind]
    rw [index_succ]
    rw [ok_bind]
    rw [Nat.add_sub_cancel]
    rw [htake]
    apply hstep _ _ _ _ hv hs
  . intro s' hs'
    apply hQ
    rw [Nat.add_sub_cancel_left] at hs'
    rw [take_length] at hs'
    exact hs'

theorem domBreakLoop_spec {body : Nat → σ → Result (σ × Bool)} (I : List Nat → σ → Prop)
    (hs : I [] s)
    (hstep : ∀ L j v s, φ j = some v → I L s → ∃ s' stop, body j s = .ok (s', stop) ∧ (stop = true → Q s') ∧ (stop = false → I (L ++ [j]) s'))
    (hQ : ∀ s', I (domPoints dom) s' → Q s')
    : ∃ s', domBreakLoop dom dom.length body s = .ok s' ∧ Q s' := by
  unfold domBreakLoop
  apply breakLoop_of_inv (fun i s => I (domPoints (dom.take (i - 1))) s)
  . exact hs
  . intro i s h1 hi hs
    obtain ⟨j, v, helm, hv, htake⟩ := hdom.round h1 hi
    rw [helm]
    rw [ok_bind]
    rw [index_succ]
    rw [ok_bind]
    rw [Nat.add_sub_cancel]
    rw [htake]
    apply hstep _ _ _ _ hv hs
  . intro s' hs'
    apply hQ
    rw [Nat.add_sub_cancel_left] at hs'
    rw [take_length] at hs'
    exact hs'

theorem IsDomList.mem_domPoints {j v : Nat} (hv : φ j = some v)
    : j ∈ domPoints dom := by
  unfold domPoints
  rw [mem_map]
  refine ⟨j + 1, ?_, Nat.add_sub_cancel j 1⟩
  rw [hdom.mem]
  exact ⟨j, v, hv, rfl⟩

end

variable {f : PPermBag} (hf : IsPPermBag f φ) {body : Nat → Nat → σ → Result σ}

include hf

theorem eachPoint_spec (I : List Nat → σ → Prop) (hs : I [] s)
    (hstep : ∀ L j u s, φ j = some u → I L s → ∃ s', body j (u + 1) s = .ok s' ∧ I (L ++ [j]) s')
    (hskip : ∀ L j s, φ j = none → I L s → I (L ++ [j]) s)
    (hQ : ∀ L s', (∀ j u, φ j = some u → j ∈ L) → I L s' → Q s')
    : ∃ s', eachPoint f f.entries body s = .ok s' ∧ Q s' := by
  unfold eachPoint
  cases hslot : f.dom with
  | none =>
    apply pointLoop_spec I
    . exact hs
    . intro L j s _ hj hs
      rw [readEntry_images hf.images (by omega)]
      rw [ok_bind]
      cases hu : φ j with
      | none => exact ⟨s, rfl, hskip L j s hu hs⟩
      | some u =>
        rw [entryOf_some]
        rw [if_pos (Nat.succ_ne_zero u)]
        exact hstep L j u s hu hs
    . intro s' hs'
      apply hQ _ _ _ hs'
      intro j u hu
      have := hf.images.lt_length hu
      rw [mem_range]
      omega
  | some dom =>
    dsimp only
    rw [hf.rankPPerm_eq hslot]
    rw [ok_bind]
    have hdom := hf.dom dom hslot
    apply domLoop_spec hdom I hs
    . intro L j u s hu hs
      rw [readEntry_images hf.images (hf.images.lt_length hu)]
      rw [ok_bind]
      rw [hu]
      exact hstep L j u s hu hs
    . intro s' hs'
      apply hQ _ _ _ hs'
      intro j u hu
      exact hdom.mem_domPoints hu

theorem eachPoint_ne_ok {j u : Nat} (hu : φ j = some u) (hfail : ∀ s s', body j (u + 1) s ≠ .ok s')
    (s s' : σ)
    : eachPoint f f.entries body s ≠ .ok s' := by
  have hj := hf.images.lt_length hu
  have hread : readEntry f.entries j = .ok (u + 1) := by
    rw [readEntry_images hf.images hj]
    rw [hu]
    rfl
  unfold eachPoint
  cases hslot : f.dom with
  | none =>
    apply forLoop_ne_ok (Nat.zero_le j) (by omega)
    intro s s'
    rw [hread]
    rw [ok_bind]
    rw [if_pos (Nat.succ_ne_zero u)]
    exact hfail s s'
  | some dom =>
    dsimp only
    rw [hf.rankPPerm_eq hslot]
    rw [ok_bind]
    have hmem := ((hf.dom dom hslot).mem (j + 1)).mpr ⟨j, u, hu, rfl⟩
    rw [mem_iff_getElem?] at hmem
    obtain ⟨i, hi⟩ := hmem
    have hlt := (List.getElem?_eq_some_iff.mp hi).1
    apply forLoop_ne_ok (Nat.le_add_left 1 i) (show i + 1 < 1 + dom.length by omega)
    intro s s'
    rw [elmPlist_of_getElem? hi]
    rw [ok_bind]
    rw [index_succ]
    rw [ok_bind]
    dsimp only
    rw [hread]
    rw [ok_bind]
    exact hfail s s'

end Loops

section Fill

variable {α β : Nat ≃. Nat} {n : Nat} {L : List Nat} {T : PermTnum}

variable {pt : List Nat}

theorem writeEntry_images {i v : Nat} (hi : i < pt.length) (hv : v < 2 ^ T.bits)
    : writeEntry T pt i v = .ok (pt.set i v) := by
  have hcast : T.cast v = v := Nat.mod_eq_of_lt hv
  unfold writeEntry
  rw [if_pos hi]
  rw [hcast]
  rfl

variable {j k : Nat}

theorem PartialBijection.HasEntries.write (h : HasEntries α β n L pt) (hk : α j = some k)
    (hkn : k < n) (hv : entryOf (β j) < 2 ^ T.bits)
    : ∃ pt', writeEntry T pt k (entryOf (β j)) = .ok pt' ∧ HasEntries α β n (L ++ [j]) pt'
      ∧ readEntry pt' k = .ok (entryOf (β j)) := by
  have hlen := h.length_eq
  rw [writeEntry_images (by omega) hv]
  refine ⟨_, rfl, h.snoc hk hkn, ?_⟩
  unfold readEntry
  rw [getElem?_set_self (by omega)]
  rfl

structure IsFillState (α β : Nat ≃. Nat) (n : Nat) (L : List Nat) (s : FillState) : Prop where
  entries : HasEntries α β n L s.entries
  codeg : IsBoundOn (PartialBijection.both α β) L s.codeg

theorem isFillState_replicate (α β : Nat ≃. Nat) (n : Nat)
    : IsFillState α β n [] ⟨replicate n 0, 0⟩ where
  entries := hasEntries_replicate α β n
  codeg := isBoundOn_nil _

variable {s : FillState}

theorem IsFillState.skip (h : IsFillState α β n L s) (hj : α j = none ∨ β j = none)
    : IsFillState α β n (L ++ [j]) s where
  entries := h.entries.skip hj
  codeg := by
    apply h.codeg.snoc
    intro v hv
    rw [both_eq_some_iff] at hv
    obtain ⟨k, hk, hv⟩ := hv
    cases hj with
    | inl hj =>
      rw [hj] at hk
      contradiction
    | inr hj =>
      rw [hj] at hv
      contradiction

section

variable (h : IsFillState α β n L s) (hk : α j = some k) (hkn : k < n)
  (hlt : entryOf (β j) < 2 ^ T.bits)

include h hk hkn hlt

theorem IsFillState.store
    : ∃ s', PPermImpl.store T s k (entryOf (β j)) = .ok s' ∧ IsFillState α β n (L ++ [j]) s' := by
  obtain ⟨pt', hwrite, hentries, hread⟩ := h.entries.write hk hkn hlt
  have hcodeg := h.codeg.snoc_entry j
  rw [both_of_eq_some hk] at hcodeg
  unfold PPermImpl.store
  rw [hwrite]
  rw [ok_bind]
  rw [hread]
  exact ⟨_, rfl, hentries, hcodeg⟩

theorem IsFillState.storeImg
    : ∃ s', PPermImpl.storeImg T s k (entryOf (β j)) = .ok s'
        ∧ IsFillState α β n (L ++ [j]) s' := by
  obtain ⟨pt', hwrite, hentries, _⟩ := h.entries.write hk hkn hlt
  have hcodeg := h.codeg.snoc_entry j
  rw [both_of_eq_some hk] at hcodeg
  unfold PPermImpl.storeImg
  rw [hwrite]
  exact ⟨_, rfl, hentries, hcodeg⟩

end

theorem PartialBijection.HasEntries.isPPermBag (h : HasEntries α β n L pt) (hL : Covers α β L)
    (hn : IsDegree (α.symm.trans β) n) {codeg : Nat} (hcodeg : IsDegree (α.symm.trans β).symm codeg)
    (hlt : codeg < 2 ^ T.bits)
    : IsPPermBag (newPPerm T pt codeg) (α.symm.trans β) := by
  apply isPPermBag_newPPerm (h.isImageList hL) _ hcodeg hlt
  rw [h.length_eq]
  exact hn

theorem IsFillState.isPPermBag (h : IsFillState α β n L s) (hL : Covers α β L)
    (hn : IsDegree (α.symm.trans β) n) (hlt : ∀ j v, β j = some v → v + 1 < 2 ^ T.bits)
    : IsPPermBag (newPPerm T s.entries s.codeg) (α.symm.trans β) := by
  apply h.entries.isPPermBag hL hn (h.codeg.isDegree_symm hL)
  cases h.codeg.eq with
  | inl h0 =>
    rw [h0]
    apply Nat.two_pow_pos
  | inr hex =>
    obtain ⟨j, _, v, hv, heq⟩ := hex
    rw [both_eq_some_iff] at hv
    obtain ⟨_, _, hv⟩ := hv
    rw [heq]
    exact hlt j v hv

def degreeRound (α β : Nat ≃. Nat) (bound j dec : Nat) : Nat × Bool :=
  match PartialBijection.both β α j with
  | some k => if k + 1 > dec then (k + 1, k + 1 == bound) else (dec, false)
  | none => (dec, false)

variable {bound : Nat}

theorem degreeRound_spec {dec : Nat} (hbound : ∀ k v, (α.symm.trans β) k = some v → k < bound)
    (h : IsBoundOn (PartialBijection.both β α) L dec)
    : ((degreeRound α β bound j dec).2 = true
        → IsDegree (α.symm.trans β) (degreeRound α β bound j dec).1)
      ∧ ((degreeRound α β bound j dec).2 = false
        → IsBoundOn (PartialBijection.both β α) (L ++ [j]) (degreeRound α β bound j dec).1) := by
  unfold degreeRound
  cases hk : PartialBijection.both β α j with
  | none =>
    constructor
    . intro hstop
      contradiction
    . intro _
      apply h.snoc
      intro k hk'
      rw [hk] at hk'
      contradiction
  | some k =>
    dsimp only
    have hmax := h.snoc_max hk
    split
    . next hgt =>
      rw [if_pos hgt] at hmax
      constructor
      . intro hstop
        rw [beq_iff_eq] at hstop
        apply hmax.isDegree_of_lt
        rw [hstop]
        exact hbound
      . intro _
        exact hmax
    . next hgt =>
      rw [if_neg hgt] at hmax
      constructor
      . intro hstop
        contradiction
      . intro _
        exact hmax

theorem degreeLoop_points (hbound : ∀ k v, (α.symm.trans β) k = some v → k < bound)
    {body : Nat → Nat → Result (Nat × Bool)}
    (hbody : ∀ j dec, j < n → body j dec = .ok (degreeRound α β bound j dec))
    (hL : Covers α β (range n))
    : ∃ dec, breakLoop body n 0 0 = .ok dec ∧ IsDegree (α.symm.trans β) dec := by
  apply pointBreakLoop_spec (IsBoundOn (PartialBijection.both β α))
  . apply isBoundOn_nil
  . intro L j dec hj hdec
    obtain ⟨hstop, hgo⟩ := degreeRound_spec (j := j) hbound hdec
    exact ⟨_, _, hbody j dec hj, hstop, hgo⟩
  . intro dec hdec
    exact hdec.isDegree hL

theorem degreeLoop_dom {φ : Nat ≃. Nat} {dom : List Nat} (hdom : IsDomList φ dom)
    (hbound : ∀ k v, (α.symm.trans β) k = some v → k < bound)
    {body : Nat → Nat → Result (Nat × Bool)}
    (hbody : ∀ j v dec, φ j = some v → body j dec = .ok (degreeRound α β bound j dec))
    (hL : Covers α β (domPoints dom))
    : ∃ dec, domBreakLoop dom dom.length body 0 = .ok dec ∧ IsDegree (α.symm.trans β) dec := by
  apply domBreakLoop_spec hdom (IsBoundOn (PartialBijection.both β α))
  . apply isBoundOn_nil
  . intro L j v dec hv hdec
    obtain ⟨hstop, hgo⟩ := degreeRound_spec (j := j) hbound hdec
    exact ⟨_, _, hbody j v dec hv, hstop, hgo⟩
  . intro dec hdec
    exact hdec.isDegree hL

end Fill

structure IsImgList (φ : Nat ≃. Nat) (img : List Nat) : Prop where
  nodup : img.Nodup
  mem : ∀ x, x ∈ img ↔ ∃ i v, φ i = some v ∧ x = v + 1

structure IsSlots (f : PPermBag) (φ : Nat ≃. Nat) : Prop where
  sorted : ∀ dom, f.dom = some dom → dom.Pairwise (· < ·)
  img : ∀ img, f.img = some img → IsImgList φ img

section Slots

variable {f : PPermBag} {φ : Nat ≃. Nat}

structure IsInitImg (φ : Nat ≃. Nat) (i : Nat) (img : List Nat) : Prop where
  nodup : img.Nodup
  mem : ∀ x, x ∈ img ↔ ∃ j v, j < i ∧ φ j = some v ∧ x = v + 1

variable {img : List Nat}

theorem IsInitImg.skip {i : Nat} (h : IsInitImg φ i img) (hi : φ i = none)
    : IsInitImg φ (i + 1) img := by
  refine ⟨h.nodup, fun x => ?_⟩
  rw [h.mem]
  constructor
  . intro ⟨j, v, hj, hv⟩
    exact ⟨j, v, by omega, hv⟩
  . intro ⟨j, v, hj, hv⟩
    refine ⟨j, v, ?_, hv⟩
    by_contra hge
    rw [show j = i by omega, hi] at hv
    exact nomatch hv.1

theorem IsInitImg.snoc {i u : Nat} (h : IsInitImg φ i img) (hi : φ i = some u)
    : IsInitImg φ (i + 1) (img ++ [u + 1]) := by
  constructor
  . rw [nodup_append]
    refine ⟨h.nodup, nodup_singleton _, fun x hx y hy heq => ?_⟩
    rw [mem_singleton] at hy
    obtain ⟨j, v, hj, hv, hx⟩ := (h.mem x).mp hx
    obtain rfl : v = u := by omega
    have := PEquiv.inj φ hv hi
    omega
  . intro x
    rw [mem_append, mem_singleton, h.mem]
    constructor
    . rintro (⟨j, v, hj, hv⟩ | hx)
      . exact ⟨j, v, by omega, hv⟩
      . exact ⟨i, u, by omega, hi, hx⟩
    . intro ⟨j, v, hj, hv, hx⟩
      rcases Nat.lt_succ_iff_lt_or_eq.mp hj with hlt | rfl
      . exact .inl ⟨j, v, hlt, hv, hx⟩
      . rw [hi] at hv
        cases hv
        exact .inr hx

theorem initLoop_slots {pt : List Nat} (h : IsImageList φ pt)
    : ∃ s, initLoop pt pt.length 0 ([], []) = .ok s ∧ s.1.Pairwise (· < ·) ∧ IsImgList φ s.2 := by
  obtain ⟨s, hrun, hs⟩ := initLoop_isInit h
  refine ⟨s, hrun, hs.sorted, ?_⟩
  have himg : ∃ s, initLoop pt pt.length 0 ([], []) = .ok s ∧ IsInitImg φ pt.length s.2 := by
    unfold initLoop
    apply forLoop_of_inv (fun i s => IsInitImg φ i s.2)
    . refine ⟨nodup_nil, fun x => ?_⟩
      simp
    . intro i s _ hi hs
      rw [readEntry_images h (by omega), ok_bind]
      cases hv : φ i with
      | none => exact ⟨s, rfl, hs.skip hv⟩
      | some v => exact ⟨_, rfl, hs.snoc hv⟩
    . intro s hs
      rw [Nat.zero_add] at hs
      exact hs
  obtain ⟨s', hrun', hs'⟩ := himg
  rw [hrun] at hrun'
  cases hrun'
  refine ⟨hs'.nodup, fun x => ?_⟩
  rw [hs'.mem]
  constructor
  . intro ⟨j, v, _, hv⟩
    exact ⟨j, v, hv⟩
  . intro ⟨j, v, hv⟩
    exact ⟨j, v, h.lt_length hv.1, hv⟩

theorem rankPPerm_slots (hf : IsPPermBag f φ) (hslots : IsSlots f φ)
    : ∃ f' dom img, rankPPerm f = .ok (f', dom.length) ∧ IsPPermBag f' φ ∧ IsSlots f' φ
        ∧ f'.dom = some dom ∧ f'.img = some img ∧ f'.tnum = f.tnum ∧ f'.entries = f.entries
        ∧ f'.codeg = f.codeg := by
  obtain ⟨f', dom, hrun, hf', hdom, htnum, hentries, hcodeg⟩ := rankPPerm_spec hf
  suffices h : IsSlots f' φ by
    cases himg : f'.img with
    | none =>
      rw [hf'.both.mp himg] at hdom
      contradiction
    | some img => exact ⟨f', dom, img, hrun, hf', h, hdom, himg, htnum, hentries, hcodeg⟩
  unfold rankPPerm at hrun
  cases himg : f.img with
  | some img =>
    rw [himg] at hrun
    obtain ⟨rfl, -⟩ := Prod.mk.inj (Except.ok.inj hrun)
    exact hslots
  | none =>
    rw [himg] at hrun
    unfold initPPerm at hrun
    dsimp only at hrun
    split at hrun
    . next h0 =>
      obtain ⟨rfl, -⟩ := Prod.mk.inj (Except.ok.inj hrun)
      refine ⟨fun dom hdom => ?_, fun img himg => ?_⟩
      . cases hdom
        exact List.Pairwise.nil
      . cases himg
        refine ⟨nodup_nil, fun x => ?_⟩
        refine iff_of_false not_mem_nil fun ⟨i, v, hv, _⟩ => ?_
        have := hf.images.lt_length hv
        omega
    . obtain ⟨s, hloop, hsorted, himg⟩ := initLoop_slots hf.images
      rw [hloop, ok_bind] at hrun
      obtain ⟨rfl, -⟩ := Prod.mk.inj (Except.ok.inj hrun)
      refine ⟨fun dom hdom => ?_, fun img himg' => ?_⟩
      . cases hdom
        exact hsorted
      . cases himg'
        exact himg

theorem IsImgList.perm {img' : List Nat} (h : IsImgList φ img) (hperm : img'.Perm img)
    : IsImgList φ img' where
  nodup := hperm.nodup_iff.mpr h.nodup
  mem x := by
    rw [hperm.mem_iff]
    exact h.mem x

theorem pairwise_lt_insertionSort {l : List Nat} (h : l.Nodup)
    : (l.insertionSort (· ≤ ·)).Pairwise (· < ·) := by
  have hsorted := pairwise_insertionSort (· ≤ ·) l
  have hnodup : (l.insertionSort (· ≤ ·)).Nodup := (perm_insertionSort _ l).nodup_iff.mpr h
  exact (hsorted.and hnodup).imp fun ⟨hle, hne⟩ => Nat.lt_of_le_of_ne hle hne

theorem funcImageSetPPerm_spec (hf : IsPPermBag f φ) (hslots : IsSlots f φ)
    : ∃ f' dom set, funcImageSetPPerm f = .ok (f', set) ∧ IsPPermBag f' φ ∧ IsSlots f' φ
        ∧ f'.dom = some dom ∧ f'.img = some set ∧ f'.tnum = f.tnum ∧ f'.entries = f.entries
        ∧ f'.codeg = f.codeg ∧ set.Pairwise (· < ·) := by
  obtain ⟨f', dom, img, hrun, hf', hslots', hdom, himg, htnum, hentries, hcodeg⟩ :=
    rankPPerm_slots hf hslots
  have himgs := hslots'.img img himg
  unfold funcImageSetPPerm
  rw [hrun, ok_bind]
  dsimp only
  rw [himg]
  -- The sorted list has the same elements.
  have hset : ∀ set, set.Perm img → IsPPermBag { f' with img := some set } φ
      ∧ IsSlots { f' with img := some set } φ := by
    intro set hperm
    refine ⟨{ hf' with both := ?_, img := ?_ }, ⟨hslots'.sorted, fun img' heq => ?_⟩⟩
    . simp [hdom]
    . intro dom' img' hdom' heq
      cases heq
      rw [hperm.length_eq]
      exact hf'.img dom' img hdom' himg
    . cases heq
      exact himgs.perm hperm
  dsimp only
  split
  . next hsorted =>
    exact ⟨_, dom, img, rfl, (hset img (.refl img)).1, (hset img (.refl img)).2, hdom, rfl, htnum,
      hentries, hcodeg, hsorted⟩
  . have hperm := perm_insertionSort (· ≤ ·) img
    exact ⟨_, dom, _, rfl, (hset _ hperm).1, (hset _ hperm).2, hdom, rfl, htnum, hentries, hcodeg,
      pairwise_lt_insertionSort himgs.nodup⟩

end Slots
