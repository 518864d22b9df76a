import GapKernel.PPerm.Lemmas.Quotient

open PartialBijection PPermImpl List
open Nat (succ_ne_zero)

section LeftQuotient

variable {f g : PPermBag} {φ γ : Nat ≃. Nat}

theorem domImage_eq {ptg : List Nat} (hg : IsImageList γ ptg) {large : Bool} {j : Nat}
    (hj : large = false → j < ptg.length)
    : domImage large ptg ptg.length j = .ok (entryOf (γ j)) := by
  unfold domImage
  cases large with
  | true =>
    rw [if_pos rfl]
    apply imagePP_eq hg
  | false =>
    rw [if_neg Bool.false_ne_true]
    apply readEntry_images hg (hj rfl)

theorem quotient_lt {codeg : Nat} (hcodeg : IsDegree φ.symm codeg)
    : ∀ k v, (φ.symm.trans γ) k = some v → k < codeg := by
  intro k v hkv
  rw [quotient_eq_some_iff] at hkv
  obtain ⟨j, hk, _⟩ := hkv
  exact hcodeg.image_lt hk

theorem PartialBijection.IsDegree.quotient_point {deg j k v : Nat}
    (h : IsDegree (φ.symm.trans γ) deg) (hk : φ j = some k) (hv : γ j = some v) : k < deg := by
  apply h.lt k v
  rw [quotient_eq_some_iff]
  exact ⟨j, hk, hv⟩

theorem degreeRound_of_eq_some {bound j v : Nat} (hv : γ j = some v) (del : Nat)
    : degreeRound φ γ bound j del
        = if entryOf (φ j) > del then (entryOf (φ j), entryOf (φ j) == bound) else (del, false) := by
  unfold degreeRound
  rw [both_of_eq_some hv]
  cases hk : φ j with
  | none => rfl
  | some k => rfl

theorem lQuoPPerm_fill (hg : IsPPermBag g γ) {L : List Nat} (hL : Covers φ γ L) {del : Nat}
    (hdel : IsDegree (φ.symm.trans γ) del) {s : FillState} (hs : IsFillState φ γ del L s)
    : IsPPermBag (newPPerm g.tnum.dataType s.entries s.codeg) (φ.symm.trans γ) := by
  apply hs.isPPermBag hL hdel
  intro j v hv
  exact (hg.image_lt hv).2.2

variable (hf : IsPPermBag f φ) (hg : IsPPermBag g γ)

include hf hg

theorem lQuoPPerm_points (hdom : g.dom = none) (h0 : ¬(f.entries.length = 0 ∨ g.entries.length = 0))
    : ∃ lquo, lQuoPPerm f.tnum.dataType g.tnum.dataType f g = .ok lquo
        ∧ IsPPermBag lquo (φ.symm.trans γ) := by
  unfold lQuoPPerm
  rw [constAddrPPerm_eq]
  rw [ok_bind]
  rw [constAddrPPerm_eq]
  rw [ok_bind]
  rw [hf.codegPPerm_eq]
  rw [if_neg h0]
  rw [hdom]
  dsimp only
  have hmin : (if f.entries.length < g.entries.length then f.entries.length else g.entries.length)
      = min f.entries.length g.entries.length := by
    split <;> omega
  rw [hmin]
  have hcovers : Covers φ γ (List.range (min f.entries.length g.entries.length)) := by
    apply covers_range
    intro j k v hk hv
    have h1 := hf.images.lt_length hk
    have h2 := hg.images.lt_length hv
    omega
  have hdegree : ∃ del, breakLoop (fun i del => do
      if (← readEntry g.entries i) ≠ 0 then
        let v ← readEntry f.entries i
        if v > del then return (v, v == f.codeg) else return (del, false)
      else
        return (del, false)) (min f.entries.length g.entries.length) 0 0 = .ok del
      ∧ IsDegree (φ.symm.trans γ) del := by
    apply degreeLoop_points (quotient_lt hf.codegree) _ hcovers
    intro j del hj
    rw [readEntry_images hg.images (by omega)]
    rw [ok_bind]
    cases hv : γ j with
    | none =>
      rw [degreeRound_of_eq_none hv]
      rfl
    | some v =>
      rw [entryOf_some]
      rw [if_pos (succ_ne_zero v)]
      rw [readEntry_images hf.images (by omega)]
      rw [ok_bind]
      rw [degreeRound_of_eq_some hv]
      split
      . rfl
      . rfl
  obtain ⟨del, hrun, hdel⟩ := hdegree
  rw [hrun]
  rw [ok_bind]
  split
  . next hz =>
    rw [hz] at hdel
    rw [eq_bot_of_isDegree hdel]
    exact ⟨_, rfl, isPPermBag_emptyPartialPerm⟩
  . have hfill : ∃ s, forLoop (fun i s => do
        let v ← readEntry f.entries i
        if v = 0 then
          return s
        else
          let x ← readEntry g.entries i
          if x ≠ 0 then storeImg g.tnum.dataType s (← index v) x else return s)
        (min f.entries.length g.entries.length) 0 ⟨replicate del 0, 0⟩ = .ok s
        ∧ IsPPermBag (newPPerm g.tnum.dataType s.entries s.codeg) (φ.symm.trans γ) := by
      apply pointLoop_spec (IsFillState φ γ del)
      . apply isFillState_replicate
      . intro L j s _ hj hs
        rw [Nat.zero_add] at hj
        rw [readEntry_images hf.images (by omega)]
        rw [ok_bind]
        cases hk : φ j with
        | none => exact ⟨s, rfl, hs.skip (Or.inl hk)⟩
        | some k =>
          rw [entryOf_some]
          rw [if_neg (succ_ne_zero k)]
          rw [readEntry_images hg.images (by omega)]
          rw [ok_bind]
          cases hv : γ j with
          | none => exact ⟨s, rfl, hs.skip (Or.inr hv)⟩
          | some v =>
            rw [entryOf_some]
            rw [if_pos (succ_ne_zero v)]
            rw [index_succ]
            rw [ok_bind]
            have h := hs.storeImg hk (hdel.quotient_point hk hv) (hg.entry_lt j)
            rw [hv] at h
            exact h
      . intro s hs
        rw [Nat.zero_add] at hs
        exact lQuoPPerm_fill hg hcovers hdel hs
    obtain ⟨s, hrun', hbag⟩ := hfill
    rw [hrun']
    exact ⟨_, rfl, hbag⟩

theorem lQuoPPerm_dom {dom : List Nat} (hslot : g.dom = some dom)
    (h0 : ¬(f.entries.length = 0 ∨ g.entries.length = 0))
    : ∃ lquo, lQuoPPerm f.tnum.dataType g.tnum.dataType f g = .ok lquo
        ∧ IsPPermBag lquo (φ.symm.trans γ) := by
  have hdom := hg.dom dom hslot
  unfold lQuoPPerm
  rw [constAddrPPerm_eq]
  rw [ok_bind]
  rw [constAddrPPerm_eq]
  rw [ok_bind]
  rw [hf.codegPPerm_eq]
  rw [if_neg h0]
  rw [hslot]
  dsimp only
  -- The image under `f` of a point where `g` is defined
  have hread : ∀ {j v : Nat}, γ j = some v
      → domImage (decide (g.entries.length > f.entries.length)) f.entries f.entries.length j
        = .ok (entryOf (φ j)) := by
    intro j v hv
    apply domImage_eq hf.images
    intro hlarge
    have h1 := of_decide_eq_false hlarge
    have h2 := hg.images.lt_length hv
    omega
  have hcovers : Covers φ γ (domPoints dom) := hdom.covers (fun j _ v _ hv => ⟨v, hv⟩)
  have hdegree : ∃ del, domBreakLoop dom dom.length
      (lquoDomRound (decide (g.entries.length > f.entries.length)) f.codeg f.entries
        f.entries.length) 0 = .ok del
      ∧ IsDegree (φ.symm.trans γ) del := by
    apply degreeLoop_dom hdom (quotient_lt hf.codegree) _ hcovers
    intro j v del hv
    unfold lquoDomRound
    rw [hread hv]
    rw [ok_bind]
    rw [degreeRound_of_eq_some hv]
    cases hk : φ j with
    | none => rfl
    | some k =>
      split
      . rw [readEntry_images hf.images (hf.images.lt_length hk)]
        rw [hk]
        rfl
      . rfl
  obtain ⟨del, hrun, hdel⟩ := hdegree
  rw [hrun]
  rw [ok_bind]
  have hfill : ∃ s, domLoop dom dom.length
      (lquoDomFillRound g.tnum.dataType (decide (g.entries.length > f.entries.length)) f.entries
        g.entries f.entries.length) ⟨replicate del 0, 0⟩ = .ok s
      ∧ IsPPermBag (newPPerm g.tnum.dataType s.entries s.codeg) (φ.symm.trans γ) := by
    apply domLoop_spec hdom (IsFillState φ γ del)
    . apply isFillState_replicate
    . intro L j v s hv hs
      unfold lquoDomFillRound
      rw [hread hv]
      rw [ok_bind]
      cases hk : φ j with
      | none => exact ⟨s, rfl, hs.skip (Or.inl hk)⟩
      | some k =>
        rw [entryOf_some]
        rw [if_pos (succ_ne_zero k)]
        rw [readEntry_images hf.images (hf.images.lt_length hk)]
        rw [ok_bind]
        rw [hk]
        rw [entryOf_some]
        rw [index_succ]
        rw [ok_bind]
        rw [readEntry_images hg.images (hg.images.lt_length hv)]
        rw [ok_bind]
        apply hs.storeImg hk (hdel.quotient_point hk hv) (hg.entry_lt j)
    . intro s hs
      exact lQuoPPerm_fill hg hcovers hdel hs
  obtain ⟨s, hrun', hbag⟩ := hfill
  rw [hrun']
  exact ⟨_, rfl, hbag⟩

theorem lQuoPPerm_spec
    : ∃ lquo, lQuoPPerm f.tnum.dataType g.tnum.dataType f g = .ok lquo
        ∧ IsPPermBag lquo (φ.symm.trans γ) := by
  by_cases h0 : f.entries.length = 0 ∨ g.entries.length = 0
  . have hbot : φ.symm.trans γ = ⊥ := by
      cases h0 with
      | inl h0 =>
        have hdeg := hf.degree
        rw [h0] at hdeg
        rw [eq_bot_of_isDegree hdeg]
        rw [PEquiv.symm_bot]
        apply PEquiv.bot_trans
      | inr h0 =>
        have hdeg := hg.degree
        rw [h0] at hdeg
        rw [eq_bot_of_isDegree hdeg]
        apply PEquiv.trans_bot
    rw [hbot]
    unfold lQuoPPerm
    rw [constAddrPPerm_eq]
    rw [ok_bind]
    rw [constAddrPPerm_eq]
    rw [ok_bind]
    rw [if_pos h0]
    exact ⟨_, rfl, isPPermBag_emptyPartialPerm⟩
  . cases hslot : g.dom with
    | none => apply lQuoPPerm_points hf hg hslot h0
    | some dom => apply lQuoPPerm_dom hf hg hslot h0

end LeftQuotient

section Conjugate

variable {f g : PPermBag} {φ γ : Nat ≃. Nat}

theorem powImage_eq (hf : IsPPermBag f φ) (hg : IsPPermBag g γ) {j u : Nat} (hu : φ j = some u)
    : powImage f.codeg g.entries g.entries.length (u + 1)
        = .ok (entryOf ((φ.trans γ) j)) := by
  rw [trans_of_eq_some hu]
  unfold powImage
  split
  . next hle =>
    have := (hf.image_lt hu).2.1
    rw [index_succ]
    rw [ok_bind]
    apply readEntry_images hg.images
    omega
  . apply imagePP_eq hg.images

theorem degreeRound_eq {α β : Nat ≃. Nat} {bound j dec : Nat}
    : degreeRound α β bound j dec
        = if entryOf (α j) > dec then
            if entryOf (β j) ≠ 0 then (entryOf (α j), entryOf (α j) == bound) else (dec, false)
          else (dec, false) := by
  cases hv : β j with
  | none =>
    rw [degreeRound_of_eq_none hv]
    rw [entryOf_none]
    simp
  | some v =>
    rw [degreeRound_of_eq_some hv]
    rw [entryOf_some]
    rw [if_pos (succ_ne_zero v)]

theorem powPPerm_lt (hg : IsPPermBag g γ)
    : ∀ j v, (φ.trans γ) j = some v → v + 1 < 2 ^ g.tnum.dataType.bits := by
  intro j v hv
  obtain ⟨u, _, hv⟩ := exists_of_trans hv
  exact (hg.image_lt hv).2.2

theorem powPPerm_fill (hg : IsPPermBag g γ) {L : List Nat} (hL : Covers γ (φ.trans γ) L)
    {dec : Nat} (hdec : IsDegree (γ.symm.trans (φ.trans γ)) dec) {s : FillState} {TF : PermTnum}
    (hs : IsFillState γ (φ.trans γ) dec L s)
    : IsPPermBag (newPPerm (TF.resultType g.tnum.dataType) s.entries s.codeg)
        (γ.symm.trans (φ.trans γ)) := by
  apply hs.isPPermBag hL hdec
  intro j v hv
  apply Nat.lt_of_lt_of_le (powPPerm_lt hg j v hv)
  apply Nat.pow_le_pow_right (by omega) (PermTnum.bits_right TF g.tnum.dataType)

theorem IsFillState.storePow (hg : IsPPermBag g γ) {TF : PermTnum} {L : List Nat} {dec : Nat}
    (hdec : IsDegree (γ.symm.trans (φ.trans γ)) dec) {s : FillState}
    (hs : IsFillState γ (φ.trans γ) dec L s) {j k v : Nat} (hk : γ j = some k)
    (hv : (φ.trans γ) j = some v)
    : ∃ s', PPermImpl.storeImg (TF.resultType g.tnum.dataType) s k (entryOf ((φ.trans γ) j)) = .ok s'
        ∧ IsFillState γ (φ.trans γ) dec (L ++ [j]) s' := by
  apply hs.storeImg hk (hdec.quotient_point hk hv)
  apply entryOf_lt _ (Nat.two_pow_pos _)
  intro i v hv
  apply Nat.lt_of_lt_of_le (powPPerm_lt hg i v hv)
  apply Nat.pow_le_pow_right (by omega) (PermTnum.bits_right TF g.tnum.dataType)

variable (hf : IsPPermBag f φ) (hg : IsPPermBag g γ)

include hf hg

theorem powPPerm_points (hdom : f.dom = none) (h0 : ¬(f.entries.length = 0 ∨ g.entries.length = 0))
    : ∃ conj, powPPerm f.tnum.dataType g.tnum.dataType f g = .ok conj
        ∧ IsPPermBag conj (γ.symm.trans (φ.trans γ)) := by
  unfold powPPerm
  rw [constAddrPPerm_eq]
  rw [ok_bind]
  rw [constAddrPPerm_eq]
  rw [ok_bind]
  rw [hf.codegPPerm_eq]
  rw [hg.codegPPerm_eq]
  rw [if_neg h0]
  rw [hdom]
  dsimp only
  have hmin : (if f.entries.length < g.entries.length then f.entries.length else g.entries.length)
      = min f.entries.length g.entries.length := by
    split <;> omega
  rw [hmin]
  have hcovers : Covers γ (φ.trans γ) (List.range (min f.entries.length g.entries.length)) := by
    apply covers_range
    intro j k v hk hv
    obtain ⟨u, hu, _⟩ := exists_of_trans hv
    have h1 := hf.images.lt_length hu
    have h2 := hg.images.lt_length hk
    omega
  have hdegree : ∃ dec, breakLoop
      (powDegRound f.codeg g.codeg f.entries g.entries g.entries.length)
      (min f.entries.length g.entries.length) 0 0 = .ok dec
      ∧ IsDegree (γ.symm.trans (φ.trans γ)) dec := by
    apply degreeLoop_points (quotient_lt hg.codegree) _ hcovers
    intro j dec hj
    unfold powDegRound
    rw [readEntry_images hf.images (by omega)]
    rw [ok_bind]
    cases hu : φ j with
    | none =>
      rw [degreeRound_of_eq_none (trans_of_eq_none hu)]
      rfl
    | some u =>
      rw [entryOf_some]
      rw [if_neg (succ_ne_zero u)]
      rw [readEntry_images hg.images (by omega)]
      rw [ok_bind]
      rw [powImage_eq hf hg hu]
      rw [degreeRound_eq]
      split
      . rw [ok_bind]
        split
        . rfl
        . rfl
      . rfl
  obtain ⟨dec, hrun, hdec⟩ := hdegree
  rw [hrun]
  rw [ok_bind]
  split
  . next hz =>
    rw [hz] at hdec
    rw [eq_bot_of_isDegree hdec]
    exact ⟨_, rfl, isPPermBag_emptyPartialPerm⟩
  . have hfill : ∃ s, forLoop (powFillRound (f.tnum.dataType.resultType g.tnum.dataType) f.codeg
        f.entries g.entries g.entries.length) (min f.entries.length g.entries.length) 0
        ⟨replicate dec 0, 0⟩ = .ok s
        ∧ IsPPermBag (newPPerm (f.tnum.dataType.resultType g.tnum.dataType) s.entries s.codeg)
          (γ.symm.trans (φ.trans γ)) := by
      apply pointLoop_spec (IsFillState γ (φ.trans γ) dec)
      . apply isFillState_replicate
      . intro L j s _ hj hs
        rw [Nat.zero_add] at hj
        unfold powFillRound
        rw [readEntry_images hf.images (by omega)]
        rw [ok_bind]
        cases hu : φ j with
        | none => exact ⟨s, rfl, hs.skip (Or.inr (trans_of_eq_none hu))⟩
        | some u =>
          rw [entryOf_some]
          rw [if_neg (succ_ne_zero u)]
          rw [readEntry_images hg.images (by omega)]
          rw [ok_bind]
          cases hk : γ j with
          | none => exact ⟨s, rfl, hs.skip (Or.inl hk)⟩
          | some k =>
            rw [entryOf_some]
            rw [if_neg (succ_ne_zero k)]
            rw [powImage_eq hf hg hu]
            rw [ok_bind]
            cases hv : (φ.trans γ) j with
            | none => exact ⟨s, rfl, hs.skip (Or.inr hv)⟩
            | some v =>
              rw [entryOf_some]
              rw [if_pos (succ_ne_zero v)]
              rw [index_succ]
              rw [ok_bind]
              rw [← entryOf_some]
              rw [← hv]
              exact hs.storePow hg hdec hk hv
      . intro s hs
        rw [Nat.zero_add] at hs
        exact powPPerm_fill hg hcovers hdec hs
    obtain ⟨s, hrun', hbag⟩ := hfill
    rw [hrun']
    exact ⟨_, rfl, hbag⟩

theorem powPPerm_dom {dom : List Nat} (hslot : f.dom = some dom)
    (h0 : ¬(f.entries.length = 0 ∨ g.entries.length = 0))
    : ∃ conj, powPPerm f.tnum.dataType g.tnum.dataType f g = .ok conj
        ∧ IsPPermBag conj (γ.symm.trans (φ.trans γ)) := by
  have hdom := hf.dom dom hslot
  unfold powPPerm
  rw [constAddrPPerm_eq]
  rw [ok_bind]
  rw [constAddrPPerm_eq]
  rw [ok_bind]
  rw [hf.codegPPerm_eq]
  rw [hg.codegPPerm_eq]
  rw [if_neg h0]
  rw [hslot]
  dsimp only
  have hread : ∀ {j u : Nat}, φ j = some u
      → domImage (decide (f.entries.length > g.entries.length)) g.entries g.entries.length j
        = .ok (entryOf (γ j)) := by
    intro j u hu
    apply domImage_eq hg.images
    intro hlarge
    have h1 := of_decide_eq_false hlarge
    have h2 := hf.images.lt_length hu
    omega
  have hcovers : Covers γ (φ.trans γ) (domPoints dom) := by
    apply hdom.covers
    intro j _ v _ hv
    obtain ⟨u, hu, _⟩ := exists_of_trans hv
    exact ⟨u, hu⟩
  have hdegree : ∃ dec, domBreakLoop dom dom.length
      (powDomRound (decide (f.entries.length > g.entries.length)) f.codeg g.codeg f.entries
        g.entries g.entries.length) 0 = .ok dec
      ∧ IsDegree (γ.symm.trans (φ.trans γ)) dec := by
    apply degreeLoop_dom hdom (quotient_lt hg.codegree) _ hcovers
    intro j u dec hu
    unfold powDomRound
    rw [hread hu]
    rw [ok_bind]
    rw [degreeRound_eq]
    split
    . next hgt =>
      rw [readEntry_images hf.images (hf.images.lt_length hu)]
      rw [ok_bind]
      rw [hu]
      rw [entryOf_some]
      rw [powImage_eq hf hg hu]
      rw [ok_bind]
      split
      . cases hk : γ j with
        | none =>
          rw [hk] at hgt
          contradiction
        | some k =>
          rw [readEntry_images hg.images (hg.images.lt_length hk)]
          rw [hk]
          rfl
      . rfl
    . rfl
  obtain ⟨dec, hrun, hdec⟩ := hdegree
  rw [hrun]
  rw [ok_bind]
  have hfill : ∃ s, domLoop dom dom.length
      (powDomFillRound (f.tnum.dataType.resultType g.tnum.dataType)
        (decide (f.entries.length > g.entries.length)) f.codeg f.entries g.entries
        g.entries.length) ⟨replicate dec 0, 0⟩ = .ok s
      ∧ IsPPermBag (newPPerm (f.tnum.dataType.resultType g.tnum.dataType) s.entries s.codeg)
        (γ.symm.trans (φ.trans γ)) := by
    apply domLoop_spec hdom (IsFillState γ (φ.trans γ) dec)
    . apply isFillState_replicate
    . intro L j u s hu hs
      unfold powDomFillRound
      rw [hread hu]
      rw [ok_bind]
      cases hk : γ j with
      | none => exact ⟨s, rfl, hs.skip (Or.inl hk)⟩
      | some k =>
        rw [entryOf_some]
        rw [if_pos (succ_ne_zero k)]
        rw [readEntry_images hf.images (hf.images.lt_length hu)]
        rw [ok_bind]
        rw [hu]
        rw [entryOf_some]
        rw [powImage_eq hf hg hu]
        rw [ok_bind]
        cases hv : (φ.trans γ) j with
        | none => exact ⟨s, rfl, hs.skip (Or.inr hv)⟩
        | some v =>
          rw [entryOf_some]
          rw [if_pos (succ_ne_zero v)]
          rw [readEntry_images hg.images (hg.images.lt_length hk)]
          rw [ok_bind]
          rw [hk]
          rw [entryOf_some]
          rw [index_succ]
          rw [ok_bind]
          rw [← entryOf_some]
          rw [← hv]
          exact hs.storePow hg hdec hk hv
    . intro s hs
      exact powPPerm_fill hg hcovers hdec hs
  obtain ⟨s, hrun', hbag⟩ := hfill
  rw [hrun']
  exact ⟨_, rfl, hbag⟩

theorem powPPerm_spec
    : ∃ conj, powPPerm f.tnum.dataType g.tnum.dataType f g = .ok conj
        ∧ IsPPermBag conj (γ.symm.trans (φ.trans γ)) := by
  by_cases h0 : f.entries.length = 0 ∨ g.entries.length = 0
  . have hbot : γ.symm.trans (φ.trans γ) = ⊥ := by
      cases h0 with
      | inl h0 =>
        have hdeg := hf.degree
        rw [h0] at hdeg
        rw [eq_bot_of_isDegree hdeg]
        rw [PEquiv.bot_trans]
        apply PEquiv.trans_bot
      | inr h0 =>
        have hdeg := hg.degree
        rw [h0] at hdeg
        rw [eq_bot_of_isDegree hdeg]
        rw [PEquiv.symm_bot]
        apply PEquiv.bot_trans
    rw [hbot]
    unfold powPPerm
    rw [constAddrPPerm_eq]
    rw [ok_bind]
    rw [constAddrPPerm_eq]
    rw [ok_bind]
    rw [if_pos h0]
    exact ⟨_, rfl, isPPermBag_emptyPartialPerm⟩
  . cases hslot : f.dom with
    | none => apply powPPerm_points hf hg hslot h0
    | some dom => apply powPPerm_dom hf hg hslot h0

end Conjugate

section PermConjugate

variable {f : PPermBag} {φ : Nat ≃. Nat} {σ : Equiv.Perm Nat} {p : PermBag} {w : IntSize}

theorem powPermDegree_spec (hp : IsPermBag w p σ) {dom : List Nat} (hdom : IsDomList φ dom)
    (hlt : ∀ j u, φ j = some u → j < p.entries.length)
    : ∃ deg, domLoop dom dom.length (fun j degconj => do
        let v ← readEntry p.entries j
        if v ≥ degconj then return p.tnum.plusOne v else return degconj) 0 = .ok deg
      ∧ IsDegree (σ.toPEquiv.symm.trans (φ.trans σ.toPEquiv)) deg := by
  apply domLoop_spec hdom
    (IsBoundOn (PartialBijection.both (φ.trans σ.toPEquiv) σ.toPEquiv))
  . apply isBoundOn_nil
  . intro L j u deg hu hdeg
    have hj := hlt j u hu
    have hσ := hp.acts.lt hj
    have hboth : PartialBijection.both (φ.trans σ.toPEquiv) σ.toPEquiv j = some (σ j) := by
      rw [both_of_eq_some (trans_perm_of_eq_some hu)]
      apply Equiv.toPEquiv_apply
    have hmax := hdeg.snoc_max hboth
    rw [readEntry_eq hp.acts hj]
    rw [ok_bind]
    rw [PermTnum.plusOne_eq rfl hp hσ]
    split
    . next hge =>
      rw [if_pos (by omega)] at hmax
      exact ⟨_, rfl, hmax⟩
    . next hge =>
      rw [if_neg (by omega)] at hmax
      exact ⟨_, rfl, hmax⟩
  . intro deg hdeg
    apply hdeg.isDegree
    apply hdom.covers
    intro j _ v _ hv
    obtain ⟨u, hu, _⟩ := exists_of_trans_perm hv
    exact ⟨u, hu⟩

theorem conj_point {deg j u : Nat} (hdeg : IsDegree (σ.toPEquiv.symm.trans (φ.trans σ.toPEquiv)) deg)
    (hu : φ j = some u) : σ j < deg :=
  hdeg.quotient_point (Equiv.toPEquiv_apply σ j) (trans_perm_of_eq_some hu)

theorem powPPermPerm_spec (res : PermTnum) (hf : IsPPermBag f φ) (hp : IsPermBag w p σ)
    (hdep : p.entries.length < 2 ^ res.bits) (hcodeg : f.codeg < 2 ^ res.bits)
    : ∃ f' conj, powPPermPerm res f.tnum.dataType p.tnum f p = .ok (f', conj) ∧ IsPPermBag f' φ
        ∧ IsPPermBag conj (σ.toPEquiv.symm.trans (φ.trans σ.toPEquiv)) := by
  have hacts := hp.acts
  have hfix := fun i (hi : p.entries.length ≤ i) => hacts.fix hi
  unfold powPPermPerm
  rw [constAddrPPerm_eq]
  rw [ok_bind]
  rw [constAddrPermBag_of_tnum rfl]
  rw [ok_bind]
  dsimp only
  split
  . next h0 =>
    have hdeg := hf.degree
    rw [h0] at hdeg
    have hbot := eq_bot_of_isDegree hdeg
    have hconj : σ.toPEquiv.symm.trans (φ.trans σ.toPEquiv) = ⊥ := by
      rw [hbot]
      rw [PEquiv.bot_trans]
      apply PEquiv.trans_bot
    rw [hconj]
    exact ⟨f, _, rfl, hf, isPPermBag_emptyPartialPerm⟩
  . obtain ⟨f', dom, hrank, hf', hslot, _, _, hcodeg'⟩ := rankPPerm_spec hf
    have hdom := hf'.dom dom hslot
    rw [hrank]
    rw [ok_bind]
    rw [hslot]
    dsimp only
    rw [hf'.codegPPerm_eq]
    rw [hcodeg']
    -- The degree of the conjugate
    have hdegree : ∃ deg, (if f.entries.length > p.entries.length then
          (return f.entries.length : Result Nat)
        else
          domLoop dom dom.length (fun j degconj => do
            let v ← readEntry p.entries j
            if v ≥ degconj then return p.tnum.plusOne v else return degconj) 0) = .ok deg
        ∧ IsDegree (σ.toPEquiv.symm.trans (φ.trans σ.toPEquiv)) deg := by
      split
      . next hgt =>
        exact ⟨_, rfl, degree_perm_quotient hfix hf.degree.trans_perm hgt⟩
      . next hle =>
        apply powPermDegree_spec hp hdom
        intro j u hu
        have := hf.images.lt_length hu
        omega
    obtain ⟨deg, hdegrun, hdeg⟩ := hdegree
    rw [hdegrun]
    rw [ok_bind]
    have hcovers : Covers σ.toPEquiv (φ.trans σ.toPEquiv) (domPoints dom) := by
      apply hdom.covers
      intro j _ v _ hv
      obtain ⟨u, hu, _⟩ := exists_of_trans_perm hv
      exact ⟨u, hu⟩
    have hlt : ∀ j v, (φ.trans σ.toPEquiv) j = some v → v + 1 < 2 ^ res.bits := by
      intro j v hv
      obtain ⟨u, hu, heq⟩ := exists_of_trans_perm hv
      rw [← heq]
      apply image_succ_lt hfix hf hdep hcodeg j u hu
    split
    . next hgt =>
      have hfill : ∃ pt, domLoop dom dom.length (fun j pt => do
          writeEntry res pt (← IMAGE j p.entries p.entries.length)
            ((← IMAGE (← index (← readEntry f.entries j)) p.entries p.entries.length) + 1))
            (replicate deg 0) = .ok pt
          ∧ IsPPermBag (newPPerm res pt f.codeg)
            (σ.toPEquiv.symm.trans (φ.trans σ.toPEquiv)) := by
        apply domLoop_spec hdom (HasEntries σ.toPEquiv (φ.trans σ.toPEquiv) deg)
        . apply hasEntries_replicate
        . intro L j u pt hu hpt
          rw [IMAGE_eq hacts]
          rw [ok_bind]
          rw [readEntry_images hf.images (hf.images.lt_length hu)]
          rw [ok_bind]
          rw [hu]
          rw [entryOf_some]
          rw [index_succ]
          rw [ok_bind]
          rw [IMAGE_eq hacts]
          rw [ok_bind]
          have h := hpt.write (T := res) (Equiv.toPEquiv_apply σ j) (conj_point hdeg hu)
            (entryOf_lt hlt (Nat.two_pow_pos _) j)
          rw [trans_perm_of_eq_some hu] at h
          obtain ⟨pt', hwrite, hpt', _⟩ := h
          exact ⟨pt', hwrite, hpt'⟩
        . intro pt hpt
          apply hpt.isPPermBag hcovers hdeg _ hcodeg
          apply codegree_perm_quotient
          apply codegree_of_fix hfix hf.codegree hgt
      obtain ⟨pt, hrun, hbag⟩ := hfill
      rw [hrun]
      exact ⟨f', _, rfl, hf', hbag⟩
    . next hle =>
      have hfill : ∃ s, domLoop dom dom.length (fun j s => do
          let k := p.tnum.plusOne (← readEntry p.entries (← index (← readEntry f.entries j)))
          storeImg res s (← IMAGE j p.entries p.entries.length) k)
            ⟨replicate deg 0, 0⟩ = .ok s
          ∧ IsPPermBag (newPPerm res s.entries s.codeg)
            (σ.toPEquiv.symm.trans (φ.trans σ.toPEquiv)) := by
        apply domLoop_spec hdom (IsFillState σ.toPEquiv (φ.trans σ.toPEquiv) deg)
        . apply isFillState_replicate
        . intro L j u s hu hs
          have hulen := (hf.image_lt hu).2.1
          have hσ := hacts.lt (show u < p.entries.length by omega)
          rw [readEntry_images hf.images (hf.images.lt_length hu)]
          rw [ok_bind]
          rw [hu]
          rw [entryOf_some]
          rw [index_succ]
          rw [ok_bind]
          rw [readEntry_eq hacts (by omega)]
          rw [ok_bind]
          rw [IMAGE_eq hacts]
          rw [ok_bind]
          rw [PermTnum.plusOne_eq rfl hp hσ]
          have h := hs.storeImg (T := res) (Equiv.toPEquiv_apply σ j) (conj_point hdeg hu)
            (entryOf_lt hlt (Nat.two_pow_pos _) j)
          rw [trans_perm_of_eq_some hu] at h
          exact h
        . intro s hs
          exact hs.isPPermBag hcovers hdeg hlt
      obtain ⟨s, hrun, hbag⟩ := hfill
      rw [hrun]
      exact ⟨f', _, rfl, hf', hbag⟩

theorem conjPerm_spec (hf : IsPPermBag f φ) (hp : IsPermBag w p σ)
    : ∃ f' conj, PPermOps.powPerm f p = .ok (f', conj) ∧ IsPPermBag f' φ
        ∧ IsPPermBag conj (σ.toPEquiv.symm.trans (φ.trans σ.toPEquiv)) := by
  have hdeg := hp.deg_le
  have hcodeg := hf.codeg_lt
  have hmax := maxDeg_perm4_lt w
  -- The result has 32 bits, except for two operands with 16 bits.
  have hlarge : ∀ TF TP, f.tnum.dataType = TF → p.tnum = TP
      → ∃ f' conj, powPPermPerm .perm4 TF TP f p = .ok (f', conj) ∧ IsPPermBag f' φ
        ∧ IsPPermBag conj (σ.toPEquiv.symm.trans (φ.trans σ.toPEquiv)) := by
    intro TF TP hTF hTP
    rw [← hTF, ← hTP]
    apply powPPermPerm_spec .perm4 hf hp
    . change p.entries.length < 4294967296
      cases hT : p.tnum with
      | perm2 =>
        rw [hT] at hdeg
        change p.entries.length ≤ 65536 at hdeg
        omega
      | perm4 =>
        rw [hT] at hdeg
        omega
    . apply Nat.lt_of_lt_of_le hcodeg
      cases f.tnum <;> decide
  unfold PPermOps.powPerm
  split
  . next h2 hp2 =>
    unfold powPPerm2Perm2
    split
    . apply hlarge
      . rw [h2]
        rfl
      . exact hp2
    . next hne =>
      rw [hp2] at hdeg
      change p.entries.length ≤ 65536 at hdeg
      rw [h2] at hcodeg
      have h := powPPermPerm_spec .perm2 hf hp (show p.entries.length < 65536 by omega) hcodeg
      rw [h2, hp2] at h
      exact h
  . next h2 hp4 =>
    apply hlarge
    . rw [h2]
      rfl
    . exact hp4
  . next h4 hp2 =>
    apply hlarge
    . rw [h4]
      rfl
    . exact hp2
  . next h4 hp4 =>
    apply hlarge
    . rw [h4]
      rfl
    . exact hp4

end PermConjugate
