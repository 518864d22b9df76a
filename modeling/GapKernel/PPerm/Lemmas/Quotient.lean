import GapKernel.PPerm.Lemmas.Product

open PartialBijection PPermImpl List

section Inverse

variable {f : PPermBag} {φ : Nat ≃. Nat} {T : PermTnum}

theorem symm_quotient_refl : φ.symm.trans (PEquiv.refl Nat) = φ.symm := by
  rw [PEquiv.trans_refl]

theorem invert_spec (hf : IsPPermBag f φ) (hlt : f.entries.length < 2 ^ T.bits)
    : ∃ pt, invert T f f.entries f.codeg = .ok pt ∧ IsImageList φ.symm pt
        ∧ pt.length = f.codeg := by
  unfold invert
  apply eachPoint_spec hf (HasEntries φ (PEquiv.refl Nat) f.codeg)
  . apply hasEntries_replicate
  . intro L j u pt hu hpt
    have hj := hf.images.lt_length hu
    rw [index_succ]
    rw [ok_bind]
    obtain ⟨pt', hwrite, hpt', _⟩ := hpt.write (T := T) hu (hf.codegree.image_lt hu) (by
      rw [PEquiv.refl_apply]
      rw [entryOf_some]
      omega)
    exact ⟨pt', hwrite, hpt'⟩
  . intro L j pt hu hpt
    exact hpt.skip (Or.inl hu)
  . intro L pt hL hpt
    refine ⟨?_, hpt.length_eq⟩
    rw [← symm_quotient_refl]
    apply hpt.isImageList
    intro j k v hk _
    exact hL j k hk

theorem invPPerm_spec (res T : PermTnum) (hf : IsPPermBag f φ) (hT : f.tnum = T.ppermTnum)
    (hlt : f.entries.length < 2 ^ res.bits)
    : ∃ inv, invPPerm res T f = .ok inv ∧ IsPPermBag inv φ.symm := by
  obtain ⟨pt, hrun, himages, hlen⟩ := invert_spec (T := res) hf hlt
  unfold invPPerm
  rw [constAddrPPerm_of_tnum T hT]
  rw [ok_bind]
  rw [hf.codegPPerm_eq]
  rw [hrun]
  refine ⟨_, rfl, ?_⟩
  apply isPPermBag_newPPerm himages _ _ hlt
  . rw [hlen]
    exact hf.codegree
  . exact hf.degree

theorem inv_iff (hf : IsPPermBag f φ)
    : (∃ inv, PPermOps.inv f = .ok inv ∧ IsPPermBag inv φ.symm) ↔ f.entries.length < 2 ^ 32 := by
  constructor
  . intro ⟨inv, _, hinv⟩
    have hlt := hinv.codeg_lt
    rw [hinv.codegree.unique hf.degree] at hlt
    apply Nat.lt_of_lt_of_le hlt
    cases inv.tnum with
    | pperm2 => decide
    | pperm4 => decide
  . intro hlt
    unfold PPermOps.inv
    split
    . next h2 =>
      unfold invPPerm2
      split
      . next hdeg => apply invPPerm_spec .perm2 .perm2 hf h2 hdeg
      . next hdeg => apply invPPerm_spec .perm4 .perm2 hf h2 hlt
    . next h4 =>
      unfold invPPerm4
      split
      . next hdeg => apply invPPerm_spec .perm2 .perm4 hf h4 hdeg
      . next hdeg => apply invPPerm_spec .perm4 .perm4 hf h4 hlt

end Inverse

section Quotient

variable {f g : PPermBag} {φ γ : Nat ≃. Nat}

theorem quoPPerm_spec (hf : IsPPermBag f φ) (hg : IsPPermBag g γ)
    (hlt : g.entries.length < 2 ^ 32)
    : ∃ quo, quoPPerm f.tnum.dataType g.tnum.dataType f g = .ok quo
        ∧ IsPPermBag quo (φ.trans γ.symm) := by
  unfold quoPPerm
  rw [constAddrPPerm_eq]
  rw [ok_bind]
  rw [constAddrPPerm_eq]
  rw [ok_bind]
  split
  . next h0 =>
    have hbot : φ.trans γ.symm = ⊥ := by
      cases h0 with
      | inl h0 =>
        have hdeg := hg.degree
        rw [h0] at hdeg
        rw [eq_bot_of_isDegree hdeg]
        apply PEquiv.trans_bot
      | inr h0 =>
        have hdeg := hf.degree
        rw [h0] at hdeg
        rw [eq_bot_of_isDegree hdeg]
        apply PEquiv.bot_trans
    rw [hbot]
    exact ⟨_, rfl, isPPermBag_emptyPartialPerm⟩
  . rw [hg.codegPPerm_eq]
    dsimp only
    obtain ⟨pt, hinv, himages, hlen⟩ := invert_spec (T := .perm4) hg hlt
    rw [hinv]
    rw [ok_bind]
    rw [← hlen]
    obtain ⟨deg, hrun, hdeg⟩ := prodDegree_spec hf.images himages (Nat.le_refl _) (by
      intro i v hv
      obtain ⟨u, hu, _⟩ := exists_of_trans hv
      exact hf.images.lt_length hu)
    rw [hrun]
    rw [ok_bind]
    split
    . next h0 =>
      rw [h0] at hdeg
      rw [eq_bot_of_isDegree hdeg]
      exact ⟨_, rfl, isPPermBag_emptyPartialPerm⟩
    . obtain ⟨s, hs, hbag⟩ := prodFill_spec (T := .perm4) hf himages (by
        intro i v hv
        rw [PEquiv.eq_some_iff] at hv
        have := hg.images.lt_length hv
        change v + 1 < 4294967296
        omega) hdeg
      rw [hs]
      exact ⟨_, rfl, hbag⟩

end Quotient

section LeftPermQuotient

variable {f : PPermBag} {φ : Nat ≃. Nat} {σ : Equiv.Perm Nat} {p : PermBag} {w : IntSize}

theorem codegree_perm_quotient {codeg : Nat} (h : IsDegree φ.symm codeg)
    : IsDegree (σ.toPEquiv.symm.trans φ).symm codeg := by
  rw [symm_quotient]
  exact h.trans_perm

theorem degree_perm_quotient {dep deg : Nat} (hfix : ∀ i, dep ≤ i → σ i = i) (h : IsDegree φ deg)
    (hlt : dep < deg) : IsDegree (σ.toPEquiv.symm.trans φ) deg where
  lt := by
    intro k v hkv
    rw [quotient_eq_some_iff] at hkv
    obtain ⟨j, hk, hv⟩ := hkv
    rw [Equiv.toPEquiv_apply, Option.some.injEq] at hk
    have hj := h.lt j v hv
    rw [← hk]
    by_cases hjd : j < dep
    . have := PermList.apply_lt hfix hjd
      omega
    . rw [hfix j (by omega)]
      exact hj
  last := by
    cases h.last with
    | inl h0 => exact Or.inl h0
    | inr hlast =>
      obtain ⟨v, hv⟩ := hlast
      right
      refine ⟨v, ?_⟩
      rw [quotient_eq_some_iff]
      refine ⟨deg - 1, ?_, hv⟩
      rw [Equiv.toPEquiv_apply]
      rw [hfix _ (by omega)]

theorem perm_quotient_lt {dep : Nat} (hfix : ∀ i, dep ≤ i → σ i = i)
    (hlt : ∀ i v, φ i = some v → i < dep)
    : ∀ k v, (σ.toPEquiv.symm.trans φ) k = some v → k < dep := by
  intro k v hkv
  rw [quotient_eq_some_iff] at hkv
  obtain ⟨j, hk, hv⟩ := hkv
  rw [Equiv.toPEquiv_apply, Option.some.injEq] at hk
  rw [← hk]
  exact PermList.apply_lt hfix (hlt j v hv)

theorem PermTnum.plusOne_eq {T : PermTnum} (hT : p.tnum = T) (hp : IsPermBag w p σ) {v : Nat}
    (hv : v < p.entries.length) : T.plusOne v = v + 1 := by
  cases T with
  | perm2 => rfl
  | perm4 =>
    have hdeg := hp.deg_le
    rw [hT] at hdeg
    have := maxDeg_perm4_lt w
    apply Nat.mod_eq_of_lt
    omega

theorem lquoPermDegree_eq (hp : IsPermBag w p σ) {j v dec : Nat} (hv : φ j = some v)
    (hj : j < p.entries.length)
    : lquoPermDegree p.tnum p.entries p.entries.length j dec
        = .ok (degreeRound σ.toPEquiv φ p.entries.length j dec) := by
  have hσ := hp.acts.lt hj
  unfold lquoPermDegree degreeRound
  rw [readEntry_eq hp.acts hj]
  rw [ok_bind]
  rw [PermTnum.plusOne_eq rfl hp hσ]
  rw [both_of_eq_some hv]
  rw [Equiv.toPEquiv_apply]
  dsimp only
  split
  . rw [if_pos (by omega)]
    rfl
  . rw [if_neg (by omega)]
    rfl

theorem degreeRound_of_eq_none {α : Nat ≃. Nat} {bound j dec : Nat} (hv : φ j = none)
    : degreeRound α φ bound j dec = (dec, false) := by
  have hnone : PartialBijection.both φ α j = none := by
    unfold PartialBijection.both
    rw [hv]
    rfl
  unfold degreeRound
  rw [hnone]

section

variable {n : Nat} {L pt : List Nat} (hf : IsPPermBag f φ) (hpt : HasEntries σ.toPEquiv φ n L pt)

include hf hpt

theorem PartialBijection.HasEntries.perm_quotient (hL : ∀ j v, φ j = some v → j ∈ L)
    (hn : IsDegree (σ.toPEquiv.symm.trans φ) n)
    : IsPPermBag (newPPerm f.tnum.dataType pt f.codeg) (σ.toPEquiv.symm.trans φ) := by
  apply hpt.isPPermBag
  . intro j k v _ hv
    exact hL j v hv
  . exact hn
  . exact codegree_perm_quotient hf.codegree
  . exact hf.codeg_lt

theorem PartialBijection.HasEntries.write_perm {j : Nat} (hj : σ j < n)
    : ∃ pt', writeEntry f.tnum.dataType pt (σ j) (entryOf (φ j)) = .ok pt'
        ∧ HasEntries σ.toPEquiv φ n (L ++ [j]) pt' := by
  obtain ⟨pt', hwrite, hpt', _⟩ := hpt.write (Equiv.toPEquiv_apply σ j) hj (hf.entry_lt j)
  exact ⟨pt', hwrite, hpt'⟩

end

variable (hf : IsPPermBag f φ) (hp : IsPermBag w p σ)

include hf hp

theorem lQuoPermPPerm_large (hlt : p.entries.length < f.entries.length)
    : ∃ lquo, lQuoPermPPerm p.tnum f.tnum.dataType p f = .ok lquo
        ∧ IsPPermBag lquo (σ.toPEquiv.symm.trans φ) := by
  have hacts := hp.acts
  have hfix := fun i (hi : p.entries.length ≤ i) => hacts.fix hi
  have hdeg := degree_perm_quotient hfix hf.degree hlt
  have hσ : ∀ j, j < f.entries.length → σ j < f.entries.length := by
    intro j hj
    by_cases hjd : j < p.entries.length
    . have := hacts.lt hjd
      omega
    . rw [hfix j (by omega)]
      exact hj
  unfold lQuoPermPPerm
  rw [constAddrPPerm_eq]
  rw [ok_bind]
  rw [constAddrPermBag_of_tnum rfl]
  rw [ok_bind]
  rw [hf.codegPPerm_eq]
  rw [if_neg (by omega)]
  rw [if_pos hlt]
  cases hslot : f.dom with
  | none =>
    dsimp only
    have hfirst : ∃ pt, forLoop (fun i pt => do
        writeEntry f.tnum.dataType pt (← readEntry p.entries i) (← readEntry f.entries i))
          p.entries.length 0 (replicate f.entries.length 0) = .ok pt
        ∧ HasEntries σ.toPEquiv φ f.entries.length (List.range p.entries.length) pt := by
      apply pointLoop_spec (HasEntries σ.toPEquiv φ f.entries.length)
      . apply hasEntries_replicate
      . intro L j pt _ hj hpt
        rw [readEntry_eq hacts (by omega)]
        rw [ok_bind]
        rw [readEntry_images hf.images (by omega)]
        rw [ok_bind]
        apply hpt.write_perm hf (hσ j (by omega))
      . intro pt hpt
        rw [Nat.zero_add] at hpt
        exact hpt
    obtain ⟨pt1, hrun1, hpt1⟩ := hfirst
    have hsecond : ∃ pt, forLoop (fun i pt => do
        writeEntry f.tnum.dataType pt i (← readEntry f.entries i))
          (f.entries.length - p.entries.length) p.entries.length pt1 = .ok pt
        ∧ HasEntries σ.toPEquiv φ f.entries.length (List.range f.entries.length) pt := by
      apply pointLoop_spec (HasEntries σ.toPEquiv φ f.entries.length)
      . exact hpt1
      . intro L j pt hle hj hpt
        rw [readEntry_images hf.images (by omega)]
        rw [ok_bind]
        have h := hpt.write_perm hf (hσ j (by omega))
        rw [hfix j hle] at h
        exact h
      . intro pt hpt
        rw [show p.entries.length + (f.entries.length - p.entries.length) = f.entries.length
          by omega] at hpt
        exact hpt
    obtain ⟨pt2, hrun2, hpt2⟩ := hsecond
    rw [hrun1]
    rw [ok_bind]
    rw [hrun2]
    refine ⟨_, rfl, hpt2.perm_quotient hf ?_ hdeg⟩
    intro j v hv
    rw [mem_range]
    exact hf.images.lt_length hv
  | some dom =>
    dsimp only
    have hdom := hf.dom dom hslot
    have hfill : ∃ pt, domLoop dom dom.length (fun j pt => do
        writeEntry f.tnum.dataType pt (← IMAGE j p.entries p.entries.length)
          (← readEntry f.entries j)) (replicate f.entries.length 0) = .ok pt
        ∧ HasEntries σ.toPEquiv φ f.entries.length (domPoints dom) pt := by
      apply domLoop_spec hdom (HasEntries σ.toPEquiv φ f.entries.length)
      . apply hasEntries_replicate
      . intro L j v pt hv hpt
        have hj := hf.images.lt_length hv
        rw [IMAGE_eq hacts]
        rw [ok_bind]
        rw [readEntry_images hf.images hj]
        rw [ok_bind]
        apply hpt.write_perm hf (hσ j hj)
      . intro pt hpt
        exact hpt
    obtain ⟨pt, hrun, hpt⟩ := hfill
    rw [hrun]
    refine ⟨_, rfl, hpt.perm_quotient hf ?_ hdeg⟩
    intro j v hv
    exact hdom.mem_domPoints hv

theorem lQuoPermPPerm_small (hge : f.entries.length ≤ p.entries.length) (h0 : f.entries.length ≠ 0)
    : ∃ lquo, lQuoPermPPerm p.tnum f.tnum.dataType p f = .ok lquo
        ∧ IsPPermBag lquo (σ.toPEquiv.symm.trans φ) := by
  have hacts := hp.acts
  have hfix := fun i (hi : p.entries.length ≤ i) => hacts.fix hi
  have hbound := perm_quotient_lt hfix
    (fun i v (hv : φ i = some v) => Nat.lt_of_lt_of_le (hf.images.lt_length hv) hge)
  unfold lQuoPermPPerm
  rw [constAddrPPerm_eq]
  rw [ok_bind]
  rw [constAddrPermBag_of_tnum rfl]
  rw [ok_bind]
  rw [hf.codegPPerm_eq]
  rw [if_neg h0]
  rw [if_neg (by omega)]
  -- A point where `f` is defined
  have hround : ∀ {del : Nat} {L pt : List Nat} {j v : Nat}, φ j = some v
      → IsDegree (σ.toPEquiv.symm.trans φ) del → HasEntries σ.toPEquiv φ del L pt
      → ∃ pt', writeEntry f.tnum.dataType pt (σ j) (entryOf (φ j)) = .ok pt'
        ∧ HasEntries σ.toPEquiv φ del (L ++ [j]) pt' := by
    intro del L pt j v hv hdel hpt
    apply hpt.write_perm hf
    apply hdel.lt (σ j) v
    rw [quotient_eq_some_iff]
    exact ⟨j, Equiv.toPEquiv_apply σ j, hv⟩
  cases hslot : f.dom with
  | none =>
    have hdegree : ∃ del, breakLoop (fun i del => do
        if (← readEntry f.entries i) ≠ 0 then
          lquoPermDegree p.tnum p.entries p.entries.length i del
        else
          return (del, false)) f.entries.length 0 0 = .ok del
        ∧ IsDegree (σ.toPEquiv.symm.trans φ) del := by
      apply degreeLoop_points hbound
      . intro j del hj
        rw [readEntry_images hf.images hj]
        rw [ok_bind]
        cases hv : φ j with
        | none =>
          rw [degreeRound_of_eq_none hv]
          rfl
        | some v =>
          rw [entryOf_some]
          rw [if_pos (Nat.succ_ne_zero v)]
          apply lquoPermDegree_eq hp hv
          omega
      . apply covers_range
        intro j k v _ hv
        exact hf.images.lt_length hv
    obtain ⟨del, hrun, hdel⟩ := hdegree
    have hfill : ∃ pt, forLoop (fun i pt => do
        let v ← readEntry f.entries i
        if v ≠ 0 then writeEntry f.tnum.dataType pt (← readEntry p.entries i) v else return pt)
          f.entries.length 0 (replicate del 0) = .ok pt
        ∧ HasEntries σ.toPEquiv φ del (List.range f.entries.length) pt := by
      apply pointLoop_spec (HasEntries σ.toPEquiv φ del)
      . apply hasEntries_replicate
      . intro L j pt _ hj hpt
        rw [Nat.zero_add] at hj
        rw [readEntry_images hf.images hj]
        rw [ok_bind]
        cases hv : φ j with
        | none => exact ⟨pt, rfl, hpt.skip (Or.inr hv)⟩
        | some v =>
          rw [entryOf_some]
          rw [if_pos (Nat.succ_ne_zero v)]
          rw [readEntry_eq hacts (by omega)]
          rw [ok_bind]
          have h := hround hv hdel hpt
          rw [hv] at h
          exact h
      . intro pt hpt
        rw [Nat.zero_add] at hpt
        exact hpt
    obtain ⟨pt, hrun', hpt⟩ := hfill
    rw [hrun]
    rw [ok_bind]
    rw [hrun']
    refine ⟨_, rfl, hpt.perm_quotient hf ?_ hdel⟩
    intro j v hv
    rw [mem_range]
    exact hf.images.lt_length hv
  | some dom =>
    dsimp only
    have hdom := hf.dom dom hslot
    have hdegree : ∃ del, domBreakLoop dom dom.length
        (lquoPermDegree p.tnum p.entries p.entries.length) 0 = .ok del
        ∧ IsDegree (σ.toPEquiv.symm.trans φ) del := by
      apply degreeLoop_dom hdom hbound
      . intro j v del hv
        have := hf.images.lt_length hv
        apply lquoPermDegree_eq hp hv
        omega
      . apply hdom.covers
        intro j _ v _ hv
        exact ⟨v, hv⟩
    obtain ⟨del, hrun, hdel⟩ := hdegree
    have hfill : ∃ pt, domLoop dom dom.length (fun j pt => do
        writeEntry f.tnum.dataType pt (← readEntry p.entries j) (← readEntry f.entries j))
          (replicate del 0) = .ok pt
        ∧ HasEntries σ.toPEquiv φ del (domPoints dom) pt := by
      apply domLoop_spec hdom (HasEntries σ.toPEquiv φ del)
      . apply hasEntries_replicate
      . intro L j v pt hv hpt
        have hj := hf.images.lt_length hv
        rw [readEntry_eq hacts (by omega)]
        rw [ok_bind]
        rw [readEntry_images hf.images hj]
        rw [ok_bind]
        apply hround hv hdel hpt
      . intro pt hpt
        exact hpt
    obtain ⟨pt, hrun', hpt⟩ := hfill
    rw [hrun]
    rw [ok_bind]
    rw [hrun']
    refine ⟨_, rfl, hpt.perm_quotient hf ?_ hdel⟩
    intro j v hv
    exact hdom.mem_domPoints hv

theorem lQuoPermPPerm_spec
    : ∃ lquo, lQuoPermPPerm p.tnum f.tnum.dataType p f = .ok lquo
        ∧ IsPPermBag lquo (σ.toPEquiv.symm.trans φ) := by
  by_cases h0 : f.entries.length = 0
  . have hdeg := hf.degree
    rw [h0] at hdeg
    rw [eq_bot_of_isDegree hdeg]
    rw [PEquiv.trans_bot]
    unfold lQuoPermPPerm
    rw [constAddrPPerm_eq]
    rw [ok_bind]
    rw [constAddrPermBag_of_tnum rfl]
    rw [ok_bind]
    rw [if_pos h0]
    exact ⟨_, rfl, isPPermBag_emptyPartialPerm⟩
  . by_cases hlt : p.entries.length < f.entries.length
    . apply lQuoPermPPerm_large hf hp hlt
    . apply lQuoPermPPerm_small hf hp (by omega) h0

end LeftPermQuotient
