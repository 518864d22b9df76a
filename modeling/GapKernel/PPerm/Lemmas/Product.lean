import GapKernel.PPerm.Lemmas.Fill

open PartialBijection PPermImpl List

section Domain

variable {f : PPermBag} {φ α β : Nat ≃. Nat} {dom : List Nat}

theorem covers_range {n : Nat} (h : ∀ j k v, α j = some k → β j = some v → j < n)
    : Covers α β (range n) := by
  intro j k v hk hv
  rw [mem_range]
  exact h j k v hk hv

theorem IsDomList.covers (hdom : IsDomList φ dom)
    (h : ∀ j k v, α j = some k → β j = some v → ∃ u, φ j = some u)
    : Covers α β (domPoints dom) := by
  intro j k v hk hv
  obtain ⟨u, hu⟩ := h j k v hk hv
  exact hdom.mem_domPoints hu

theorem exists_of_trans {φ γ : Nat ≃. Nat} {j v : Nat} (h : (φ.trans γ) j = some v)
    : ∃ u, φ j = some u ∧ γ u = some v := by
  rw [PEquiv.trans_eq_some] at h
  exact h

theorem trans_of_eq_some {φ γ : Nat ≃. Nat} {j u : Nat} (h : φ j = some u)
    : (φ.trans γ) j = γ u := by
  change (φ j).bind γ = γ u
  rw [h]
  rfl

theorem trans_of_eq_none {φ γ : Nat ≃. Nat} {j : Nat} (h : φ j = none)
    : (φ.trans γ) j = none := by
  change (φ j).bind γ = none
  rw [h]
  rfl

end Domain

section Product

variable {f : PPermBag} {φ γ : Nat ≃. Nat} {ptf ptg : List Nat} {T : PermTnum}

theorem prodDegree_spec (hf : IsImageList φ ptf) (hg : IsImageList γ ptg) {n : Nat}
    (hn : n ≤ ptf.length) (hlt : ∀ i v, (φ.trans γ) i = some v → i < n)
    : ∃ deg, prodDegree ptf ptg ptg.length n = .ok deg ∧ IsDegree (φ.trans γ) deg := by
  induction n with
  | zero => exact ⟨0, rfl, hlt, Or.inl rfl⟩
  | succ n ih =>
    unfold prodDegree
    rw [readEntry_images hf (by omega)]
    rw [ok_bind]
    -- The point `n` is not in the domain of the product.
    have hgo : (φ.trans γ) n = none → ∀ i v, (φ.trans γ) i = some v → i < n := by
      intro hnone i v hv
      have := hlt i v hv
      by_cases hi : i = n
      . rw [hi] at hv
        rw [hnone] at hv
        contradiction
      . omega
    cases hu : φ n with
    | none =>
      rw [entryOf_none]
      rw [if_pos rfl]
      exact ih (by omega) (hgo (trans_of_eq_none hu))
    | some u =>
      rw [entryOf_some]
      rw [if_neg (Nat.succ_ne_zero u)]
      rw [imagePP_eq hg]
      rw [ok_bind]
      cases hv : γ u with
      | none =>
        rw [entryOf_none]
        rw [if_pos rfl]
        apply ih (by omega)
        apply hgo
        rw [trans_of_eq_some hu]
        exact hv
      | some v =>
        rw [entryOf_some]
        rw [if_neg (Nat.succ_ne_zero v)]
        refine ⟨n + 1, rfl, hlt, Or.inr ⟨v, ?_⟩⟩
        rw [Nat.add_sub_cancel]
        rw [trans_of_eq_some hu]
        exact hv

theorem prodFill_spec (hf : IsPPermBag f φ) (hg : IsImageList γ ptg)
    (hlt : ∀ i v, γ i = some v → v + 1 < 2 ^ T.bits) {deg : Nat} (hdeg : IsDegree (φ.trans γ) deg)
    : ∃ s, prodFill T f f.entries ptg deg ptg.length = .ok s
        ∧ IsPPermBag (newPPerm T s.entries s.codeg) (φ.trans γ) := by
  have hprod : (PEquiv.refl Nat).symm.trans (φ.trans γ) = φ.trans γ := refl_quotient
  have hlt' : ∀ j v, (φ.trans γ) j = some v → v + 1 < 2 ^ T.bits := by
    intro j v hv
    obtain ⟨u, _, hv⟩ := exists_of_trans hv
    exact hlt u v hv
  have hfinal : ∀ L s, IsFillState (PEquiv.refl Nat) (φ.trans γ) deg L s
      → Covers (PEquiv.refl Nat) (φ.trans γ) L
      → IsPPermBag (newPPerm T s.entries s.codeg) (φ.trans γ) := by
    intro L s hs hL
    rw [← hprod]
    apply hs.isPPermBag hL
    . rw [hprod]
      exact hdeg
    . exact hlt'
  -- One round, at a point below the degree where `f` is defined.
  have hround : ∀ L j u s, φ j = some u → j < deg
      → IsFillState (PEquiv.refl Nat) (φ.trans γ) deg L s
      → ∃ s', (if u + 1 ≤ ptg.length then do store T s j (← readEntry ptg (← index (u + 1)))
          else return s) = .ok s' ∧ IsFillState (PEquiv.refl Nat) (φ.trans γ) deg (L ++ [j]) s' := by
    intro L j u s hu hj hs
    have hval : (φ.trans γ) j = γ u := trans_of_eq_some hu
    split
    . next hle =>
      rw [index_succ]
      rw [ok_bind]
      rw [readEntry_images hg (by omega)]
      rw [ok_bind]
      rw [← hval]
      apply hs.store (PEquiv.refl_apply j) hj
      apply entryOf_lt hlt' (Nat.two_pow_pos _)
    . next hle =>
      refine ⟨s, rfl, hs.skip (Or.inr ?_)⟩
      rw [hval]
      apply hg.eq_none
      omega
  unfold prodFill
  cases hslot : f.dom with
  | some dom =>
    dsimp only
    rw [hf.rankPPerm_eq hslot]
    rw [ok_bind]
    have hdom := hf.dom dom hslot
    apply domLoop_spec hdom (IsFillState (PEquiv.refl Nat) (φ.trans γ) deg)
    . apply isFillState_replicate
    . intro L j u s hu hs
      unfold prodDomRound
      split
      . next hj =>
        rw [readEntry_images hf.images (hf.images.lt_length hu)]
        rw [ok_bind]
        rw [hu]
        apply hround L j u s hu hj hs
      . next hj => exact ⟨s, rfl, hs.skip (Or.inr (hdeg.eq_none (by omega)))⟩
    . intro s hs
      apply hfinal _ _ hs
      apply hdom.covers
      intro j k v _ hv
      obtain ⟨u, hu, _⟩ := exists_of_trans hv
      exact ⟨u, hu⟩
  | none =>
    have hle : deg ≤ f.entries.length := by
      apply hdeg.le_of_lt
      intro i v hv
      obtain ⟨u, hu, _⟩ := exists_of_trans hv
      exact hf.images.lt_length hu
    apply pointLoop_spec (IsFillState (PEquiv.refl Nat) (φ.trans γ) deg)
    . apply isFillState_replicate
    . intro L j s _ hj hs
      rw [Nat.zero_add] at hj
      unfold prodDegRound
      rw [readEntry_images hf.images (by omega)]
      rw [ok_bind]
      cases hu : φ j with
      | none => exact ⟨s, rfl, hs.skip (Or.inr (trans_of_eq_none hu))⟩
      | some u =>
        have hiff : (entryOf (some u) ≠ 0 ∧ entryOf (some u) ≤ ptg.length)
            ↔ u + 1 ≤ ptg.length := by
          rw [entryOf_some]
          omega
        simp only [hiff]
        apply hround L j u s hu hj hs
    . intro s hs
      rw [Nat.zero_add] at hs
      apply hfinal _ _ hs
      apply covers_range
      intro j k v _ hv
      exact hdeg.lt j v hv

theorem prodPPerm_spec {g : PPermBag} (hf : IsPPermBag f φ) (hg : IsPPermBag g γ)
    : ∃ fg, prodPPerm f.tnum.dataType g.tnum.dataType f g = .ok fg
        ∧ IsPPermBag fg (φ.trans γ) := by
  unfold prodPPerm
  rw [constAddrPPerm_eq]
  rw [ok_bind]
  rw [constAddrPPerm_eq]
  rw [ok_bind]
  dsimp only
  split
  . next h0 =>
    have hbot : φ.trans γ = ⊥ := by
      cases h0 with
      | inl h0 =>
        have hdeg := hf.degree
        rw [h0] at hdeg
        rw [eq_bot_of_isDegree hdeg]
        apply PEquiv.bot_trans
      | inr h0 =>
        have hdeg := hg.degree
        rw [h0] at hdeg
        rw [eq_bot_of_isDegree hdeg]
        apply PEquiv.trans_bot
    rw [hbot]
    exact ⟨_, rfl, isPPermBag_emptyPartialPerm⟩
  . obtain ⟨deg, hrun, hdeg⟩ := prodDegree_spec hf.images hg.images (Nat.le_refl _) (by
      intro i v hv
      obtain ⟨u, hu, _⟩ := exists_of_trans hv
      exact hf.images.lt_length hu)
    rw [hrun]
    rw [ok_bind]
    split
    . next h0 =>
      rw [h0] at hdeg
      rw [eq_bot_of_isDegree hdeg]
      exact ⟨_, rfl, isPPermBag_emptyPartialPerm⟩
    . obtain ⟨s, hs, hbag⟩ := prodFill_spec (T := g.tnum.dataType) hf hg.images
        (fun i v hv => (hg.image_lt hv).2.2) hdeg
      rw [hs]
      exact ⟨_, rfl, hbag⟩

end Product

section PermProduct

variable {f : PPermBag} {φ : Nat ≃. Nat} {σ : Equiv.Perm Nat} {ptp : List Nat} {T : PermTnum}

theorem trans_perm_of_eq_some {j u : Nat} (h : φ j = some u)
    : (φ.trans σ.toPEquiv) j = some (σ u) := by
  rw [trans_of_eq_some h]
  apply Equiv.toPEquiv_apply

theorem exists_of_trans_perm {j v : Nat} (h : (φ.trans σ.toPEquiv) j = some v)
    : ∃ u, φ j = some u ∧ σ u = v := by
  obtain ⟨u, hu, hv⟩ := exists_of_trans h
  rw [Equiv.toPEquiv_apply] at hv
  exact ⟨u, hu, Option.some.inj hv⟩

theorem PartialBijection.IsDegree.trans_perm {n : Nat} (h : IsDegree φ n)
    : IsDegree (φ.trans σ.toPEquiv) n where
  lt := by
    intro i v hv
    obtain ⟨u, hu, _⟩ := exists_of_trans_perm hv
    exact h.lt i u hu
  last := by
    cases h.last with
    | inl h0 => exact Or.inl h0
    | inr hlast =>
      cases hlast with
      | intro u hu => exact Or.inr ⟨σ u, trans_perm_of_eq_some hu⟩

theorem codegree_trans_perm_iff {codeg : Nat}
    : IsDegree (φ.trans σ.toPEquiv).symm codeg
      ↔ (∀ i u, φ i = some u → σ u < codeg)
        ∧ (codeg = 0 ∨ ∃ i u, φ i = some u ∧ σ u + 1 = codeg) := by
  constructor
  . intro h
    constructor
    . intro i u hu
      exact h.image_lt (trans_perm_of_eq_some hu)
    . cases h.last with
      | inl h0 => exact Or.inl h0
      | inr hlast =>
        rcases hlast with ⟨i, hi⟩
        by_cases h0 : codeg = 0
        . exact Or.inl h0
        . rw [PEquiv.eq_some_iff] at hi
          obtain ⟨u, hu, hv⟩ := exists_of_trans_perm hi
          exact Or.inr ⟨i, u, hu, by omega⟩
  . intro ⟨hlt, hlast⟩
    constructor
    . intro v i hv
      rw [PEquiv.eq_some_iff] at hv
      obtain ⟨u, hu, heq⟩ := exists_of_trans_perm hv
      rw [← heq]
      exact hlt i u hu
    . cases hlast with
      | inl h0 => exact Or.inl h0
      | inr hlast =>
        obtain ⟨i, u, hu, heq⟩ := hlast
        right
        refine ⟨i, ?_⟩
        rw [PEquiv.eq_some_iff]
        rw [trans_perm_of_eq_some hu]
        rw [← heq]
        rfl

theorem codegree_of_fix {dep codeg : Nat} (hfix : ∀ i, dep ≤ i → σ i = i) (h : IsDegree φ.symm codeg)
    (hgt : dep < codeg) : IsDegree (φ.trans σ.toPEquiv).symm codeg := by
  rw [codegree_trans_perm_iff]
  constructor
  . intro i u hu
    have := h.image_lt hu
    by_cases hlt : u < dep
    . have := PermList.apply_lt hfix hlt
      omega
    . rw [hfix u (by omega)]
      exact this
  . cases h.last with
    | inl h0 => exact Or.inl h0
    | inr hlast =>
      rcases hlast with ⟨i, hi⟩
      rw [PEquiv.eq_some_iff] at hi
      right
      refine ⟨i, codeg - 1, hi, ?_⟩
      rw [hfix _ (by omega)]
      omega

section

variable (hf : IsPPermBag f φ) (hp : PermList.Acts ptp σ)

include hf hp

theorem permFill_spec (hle : f.codeg ≤ ptp.length) (hlt : ptp.length < 2 ^ T.bits)
    : ∃ s, permFill T f f.entries ptp = .ok s
        ∧ IsPPermBag (newPPerm T s.entries s.codeg) (φ.trans σ.toPEquiv) := by
  have hprod : (PEquiv.refl Nat).symm.trans (φ.trans σ.toPEquiv) = φ.trans σ.toPEquiv :=
    refl_quotient
  have hval : ∀ j v, (φ.trans σ.toPEquiv) j = some v → v + 1 < 2 ^ T.bits := by
    intro j v hv
    obtain ⟨u, hu, heq⟩ := exists_of_trans_perm hv
    have h1 := (hf.image_lt hu).2.1
    have h2 := hp.lt (show u < ptp.length by omega)
    omega
  unfold permFill
  apply eachPoint_spec hf (IsFillState (PEquiv.refl Nat) (φ.trans σ.toPEquiv) f.entries.length)
  . apply isFillState_replicate
  . intro L j u s hu hs
    have hulen := (hf.image_lt hu).2.1
    have hentry : entryOf ((φ.trans σ.toPEquiv) j) = σ u + 1 := by
      rw [trans_perm_of_eq_some hu]
      rfl
    rw [index_succ]
    rw [ok_bind]
    rw [readEntry_eq hp (by omega)]
    rw [ok_bind]
    rw [← hentry]
    apply hs.store (PEquiv.refl_apply j) (hf.images.lt_length hu)
    apply entryOf_lt hval (Nat.two_pow_pos _)
  . intro L j s hu hs
    apply hs.skip
    right
    exact trans_of_eq_none hu
  . intro L s hL hs
    rw [← hprod]
    apply hs.isPPermBag
    . intro j k v _ hv
      obtain ⟨u, hu, _⟩ := exists_of_trans_perm hv
      exact hL j u hu
    . rw [hprod]
      exact hf.degree.trans_perm
    . exact hval

variable (hlt : ∀ i u, φ i = some u → σ u + 1 < 2 ^ T.bits)

include hlt

theorem permFillImage_spec
    : ∃ pt, permFillImage T f f.entries ptp = .ok pt ∧ IsImageList (φ.trans σ.toPEquiv) pt
        ∧ pt.length = f.entries.length := by
  have hval : ∀ j v, (φ.trans σ.toPEquiv) j = some v → v + 1 < 2 ^ T.bits := by
    intro j v hv
    obtain ⟨u, hu, heq⟩ := exists_of_trans_perm hv
    rw [← heq]
    exact hlt j u hu
  unfold permFillImage
  apply eachPoint_spec hf (HasEntries (PEquiv.refl Nat) (φ.trans σ.toPEquiv) f.entries.length)
  . apply hasEntries_replicate
  . intro L j u pt hu hpt
    have hentry : entryOf ((φ.trans σ.toPEquiv) j) = σ u + 1 := by
      rw [trans_perm_of_eq_some hu]
      rfl
    rw [index_succ]
    rw [ok_bind]
    rw [IMAGE_eq hp]
    rw [ok_bind]
    rw [← hentry]
    obtain ⟨pt', hwrite, hpt', _⟩ := hpt.write (T := T) (PEquiv.refl_apply j)
      (hf.images.lt_length hu) (entryOf_lt hval (Nat.two_pow_pos _) j)
    exact ⟨pt', hwrite, hpt'⟩
  . intro L j s hu hs
    apply hs.skip
    right
    exact trans_of_eq_none hu
  . intro L pt hL hpt
    refine ⟨?_, hpt.length_eq⟩
    have hprod : (PEquiv.refl Nat).symm.trans (φ.trans σ.toPEquiv) = φ.trans σ.toPEquiv :=
      refl_quotient
    rw [← hprod]
    apply hpt.isImageList
    intro j k v _ hv
    obtain ⟨u, hu, _⟩ := exists_of_trans_perm hv
    exact hL j u hu

theorem permFillImage_bag (hcodeg : f.codeg < 2 ^ T.bits)
    : ∃ pt, permFillImage T f f.entries ptp = .ok pt
        ∧ (IsPPermBag (newPPerm T pt f.codeg) (φ.trans σ.toPEquiv)
          ↔ IsDegree (φ.trans σ.toPEquiv).symm f.codeg) := by
  obtain ⟨pt, hrun, himages, hlen⟩ := permFillImage_spec hf hp hlt
  refine ⟨pt, hrun, ?_⟩
  constructor
  . intro h
    have hcast : T.cast f.codeg = f.codeg := Nat.mod_eq_of_lt hcodeg
    have hcodeg' := h.codegree
    unfold newPPerm at hcodeg'
    rw [hcast] at hcodeg'
    exact hcodeg'
  . intro h
    apply isPPermBag_newPPerm himages _ h hcodeg
    rw [hlen]
    exact hf.degree.trans_perm

end

variable {p : PermBag} {w : IntSize}

theorem constAddrPPerm_of_tnum (T : PermTnum) (h : f.tnum = T.ppermTnum)
    : constAddrPPerm T f = .ok f.entries := by
  unfold constAddrPPerm
  rw [if_pos h]
  rfl

theorem constAddrPermBag_of_tnum (h : p.tnum = T) : constAddrPermBag T p = .ok p.entries := by
  unfold constAddrPermBag
  rw [if_pos h]
  rfl

theorem image_succ_lt {dep bound : Nat} (hfix : ∀ i, dep ≤ i → σ i = i) (hf : IsPPermBag f φ)
    (hdep : dep < bound) (hcodeg : f.codeg < bound)
    : ∀ i u, φ i = some u → σ u + 1 < bound := by
  intro i u hu
  have hu' := (hf.image_lt hu).2.1
  by_cases hlt : u < dep
  . have := PermList.apply_lt hfix hlt
    omega
  . rw [hfix u (by omega)]
    omega

theorem prodPPerm2Perm2_spec (hf : IsPPermBag f φ) (hp : IsPermBag w p σ) (hft : f.tnum = .pperm2)
    (hpt : p.tnum = .perm2)
    : ∃ fp, prodPPerm2Perm2 f p = .ok fp ∧ IsPPermBag fp (φ.trans σ.toPEquiv) := by
  have hdeg := hp.deg_le
  have hcodeg := hf.codeg_lt
  rw [hpt] at hdeg
  rw [hft] at hcodeg
  change p.entries.length ≤ 65536 at hdeg
  change f.codeg < 65536 at hcodeg
  unfold prodPPerm2Perm2
  rw [constAddrPPerm_of_tnum .perm2 hft]
  rw [ok_bind]
  rw [constAddrPermBag_of_tnum hpt]
  rw [ok_bind]
  rw [hf.codegPPerm_eq]
  dsimp only
  split
  . next hdep =>
    split
    . next hle =>
      obtain ⟨s, hrun, hbag⟩ := permFill_spec (T := .perm2) hf hp.acts hle hdep
      rw [hrun]
      exact ⟨_, rfl, hbag⟩
    . next hgt =>
      have hfix := fun i (hi : p.entries.length ≤ i) => hp.acts.fix hi
      obtain ⟨pt, hrun, hbag⟩ := permFillImage_bag (T := .perm2) hf hp.acts
        (image_succ_lt hfix hf hdep hcodeg) hcodeg
      rw [hrun]
      refine ⟨_, rfl, hbag.mpr ?_⟩
      apply codegree_of_fix hfix hf.codegree
      omega
  . next hdep =>
    have hlt : p.entries.length < 2 ^ PermTnum.perm4.bits := by
      change p.entries.length < 4294967296
      omega
    obtain ⟨s, hrun, hbag⟩ := permFill_spec (T := .perm4) hf hp.acts (by omega) hlt
    rw [hrun]
    exact ⟨_, rfl, hbag⟩

theorem maxDeg_perm4_lt (w : IntSize) : PermTnum.perm4.maxDeg w < 2 ^ 32 := by
  cases w with
  | int4 => decide
  | int8 => decide

variable (hf : IsPPermBag f φ) (hp : IsPermBag w p σ)

include hf hp

theorem prodPPerm4Perm4_spec (hft : f.tnum = .pperm4) (hpt : p.tnum = .perm4)
    : ∃ fp, prodPPerm4Perm4 f p = .ok fp ∧ IsPPermBag fp (φ.trans σ.toPEquiv) := by
  have hdeg := hp.deg_le
  have hcodeg := hf.codeg_lt
  rw [hpt] at hdeg
  rw [hft] at hcodeg
  have hlt : p.entries.length < 2 ^ PermTnum.perm4.bits := Nat.lt_of_le_of_lt hdeg (maxDeg_perm4_lt w)
  unfold prodPPerm4Perm4
  rw [constAddrPPerm_of_tnum .perm4 hft]
  rw [ok_bind]
  rw [constAddrPermBag_of_tnum hpt]
  rw [ok_bind]
  rw [hf.codegPPerm_eq]
  dsimp only
  split
  . next hle =>
    obtain ⟨s, hrun, hbag⟩ := permFill_spec (T := .perm4) hf hp.acts hle hlt
    rw [hrun]
    exact ⟨_, rfl, hbag⟩
  . next hgt =>
    have hfix := fun i (hi : p.entries.length ≤ i) => hp.acts.fix hi
    obtain ⟨pt, hrun, hbag⟩ := permFillImage_bag (T := .perm4) hf hp.acts
      (image_succ_lt hfix hf hlt hcodeg) hcodeg
    rw [hrun]
    refine ⟨_, rfl, hbag.mpr ?_⟩
    apply codegree_of_fix hfix hf.codegree
    omega

theorem prodPPerm4Perm2_iff (hft : f.tnum = .pperm4) (hpt : p.tnum = .perm2)
    : (∃ fp, prodPPerm4Perm2 f p = .ok fp ∧ IsPPermBag fp (φ.trans σ.toPEquiv))
      ↔ IsDegree (φ.trans σ.toPEquiv).symm f.codeg := by
  have hdeg := hp.deg_le
  have hcodeg := hf.codeg_lt
  rw [hpt] at hdeg
  rw [hft] at hcodeg
  change p.entries.length ≤ 65536 at hdeg
  have hlt : p.entries.length < 2 ^ PermTnum.perm4.bits := by
    change p.entries.length < 4294967296
    omega
  have hfix := fun i (hi : p.entries.length ≤ i) => hp.acts.fix hi
  obtain ⟨pt, hrun, hbag⟩ := permFillImage_bag (T := .perm4) hf hp.acts
    (image_succ_lt hfix hf hlt hcodeg) hcodeg
  have heq : prodPPerm4Perm2 f p = .ok (newPPerm .perm4 pt f.codeg) := by
    unfold prodPPerm4Perm2
    rw [constAddrPPerm_of_tnum .perm4 hft]
    rw [ok_bind]
    rw [constAddrPermBag_of_tnum hpt]
    rw [ok_bind]
    rw [hf.codegPPerm_eq]
    rw [hrun]
    rfl
  rw [heq]
  rw [← hbag]
  constructor
  . intro ⟨fp, hfp, h⟩
    cases hfp
    exact h
  . intro h
    exact ⟨_, rfl, h⟩

theorem prodPPerm2Perm4_iff (hft : f.tnum = .pperm2) (hpt : p.tnum = .perm4)
    : (∃ fp, prodPPerm2Perm4 f p = .ok fp ∧ IsPPermBag fp (φ.trans σ.toPEquiv))
      ↔ f.codeg ≤ p.entries.length := by
  have hdeg := hp.deg_le
  rw [hpt] at hdeg
  have hlt : p.entries.length < 2 ^ PermTnum.perm4.bits := Nat.lt_of_le_of_lt hdeg (maxDeg_perm4_lt w)
  unfold prodPPerm2Perm4
  rw [constAddrPPerm_of_tnum .perm2 hft]
  rw [ok_bind]
  rw [constAddrPermBag_of_tnum hpt]
  rw [ok_bind]
  constructor
  . intro ⟨fp, hrun, _⟩
    by_contra hgt
    cases hf.codegree.last with
    | inl h0 => omega
    | inr hlast =>
      obtain ⟨i, hi⟩ := hlast
      rw [PEquiv.eq_some_iff] at hi
      -- The largest image is beyond the permutation.
      have hfail : ∀ s, permFill .perm4 f f.entries p.entries ≠ .ok s := by
        apply eachPoint_ne_ok hf hi
        intro s s'
        rw [index_succ]
        rw [ok_bind]
        have hnone : readEntry p.entries (f.codeg - 1) = .error .access := by
          unfold readEntry
          rw [getElem?_eq_none (by omega)]
          rfl
        rw [hnone]
        intro h
        contradiction
      cases hfill : permFill .perm4 f f.entries p.entries with
      | ok s => exact hfail s hfill
      | error e =>
        rw [hfill] at hrun
        contradiction
  . intro hle
    obtain ⟨s, hrun, hbag⟩ := permFill_spec (T := .perm4) hf hp.acts hle hlt
    rw [hrun]
    exact ⟨_, rfl, hbag⟩

end PermProduct

section LeftPermProduct

variable {f : PPermBag} {φ : Nat ≃. Nat} {σ : Equiv.Perm Nat} {p : PermBag} {w : IntSize}

theorem perm_trans_apply (σ : Equiv.Perm Nat) (φ : Nat ≃. Nat) (i : Nat)
    : (σ.toPEquiv.trans φ) i = φ (σ i) := by
  apply trans_of_eq_some
  apply Equiv.toPEquiv_apply

theorem codegree_perm_trans {codeg : Nat} (h : IsDegree φ.symm codeg)
    : IsDegree (σ.toPEquiv.trans φ).symm codeg := by
  rw [PEquiv.symm_trans_rev]
  rw [← Equiv.toPEquiv_symm]
  exact h.trans_perm

theorem permProdDegree_spec (hf : IsPPermBag f φ) (hp : PermList.Acts p.entries σ) {n : Nat}
    (hn : n ≤ p.entries.length) (hlt : ∀ i v, (σ.toPEquiv.trans φ) i = some v → i < n)
    (hne : ∃ i v, (σ.toPEquiv.trans φ) i = some v)
    : ∃ deg, permProdDegree p.entries f.entries f.entries.length n = .ok deg
        ∧ IsDegree (σ.toPEquiv.trans φ) deg ∧ deg ≤ n := by
  induction n with
  | zero =>
    obtain ⟨i, v, hv⟩ := hne
    have := hlt i v hv
    omega
  | succ n ih =>
    unfold permProdDegree
    rw [readEntry_eq hp (by omega)]
    rw [ok_bind]
    have hgo : φ (σ n) = none → ∃ deg, permProdDegree p.entries f.entries f.entries.length n = .ok deg
        ∧ IsDegree (σ.toPEquiv.trans φ) deg ∧ deg ≤ n + 1 := by
      intro hnone
      have hlt' : ∀ i v, (σ.toPEquiv.trans φ) i = some v → i < n := by
        intro i v hv
        have := hlt i v hv
        by_cases hi : i = n
        . rw [hi] at hv
          rw [perm_trans_apply] at hv
          rw [hnone] at hv
          contradiction
        . omega
      obtain ⟨deg, hrun, hdeg, hle⟩ := ih (by omega) hlt'
      exact ⟨deg, hrun, hdeg, by omega⟩
    split
    . next hge =>
      apply hgo
      apply hf.images.eq_none hge
    . next hge =>
      rw [readEntry_images hf.images (by omega)]
      rw [ok_bind]
      cases hv : φ (σ n) with
      | none =>
        rw [entryOf_none]
        rw [if_pos rfl]
        exact hgo hv
      | some v =>
        rw [entryOf_some]
        rw [if_neg (Nat.succ_ne_zero v)]
        refine ⟨n + 1, rfl, ⟨hlt, Or.inr ⟨v, ?_⟩⟩, Nat.le_refl _⟩
        rw [Nat.add_sub_cancel]
        rw [perm_trans_apply]
        exact hv

theorem PartialBijection.HasEntries.perm_trans {n : Nat} {L pt : List Nat} (hf : IsPPermBag f φ)
    (hpt : HasEntries (PEquiv.refl Nat) (σ.toPEquiv.trans φ) n L pt)
    (hL : ∀ j v, φ (σ j) = some v → j ∈ L) (hn : IsDegree (σ.toPEquiv.trans φ) n)
    : IsPPermBag (newPPerm f.tnum.dataType pt f.codeg) (σ.toPEquiv.trans φ) := by
  have hprod : (PEquiv.refl Nat).symm.trans (σ.toPEquiv.trans φ) = σ.toPEquiv.trans φ :=
    refl_quotient
  rw [← hprod]
  apply hpt.isPPermBag
  . intro j k v _ hv
    rw [perm_trans_apply] at hv
    exact hL j v hv
  . rw [hprod]
    exact hn
  . rw [hprod]
    exact codegree_perm_trans hf.codegree
  . exact hf.codeg_lt

theorem IsPPermBag.entry_lt (hf : IsPPermBag f φ) (i : Nat)
    : entryOf (φ i) < 2 ^ f.tnum.dataType.bits := by
  apply entryOf_lt _ (Nat.two_pow_pos _)
  intro i v hv
  exact (hf.image_lt hv).2.2

theorem prodPermPPerm_spec (hf : IsPPermBag f φ) (hp : IsPermBag w p σ)
    : ∃ pf, prodPermPPerm p.tnum f.tnum.dataType p f = .ok pf
        ∧ IsPPermBag pf (σ.toPEquiv.trans φ) := by
  have hacts := hp.acts
  have hfix := fun i (hi : p.entries.length ≤ i) => hacts.fix hi
  unfold prodPermPPerm
  rw [constAddrPPerm_eq]
  rw [ok_bind]
  rw [constAddrPermBag_of_tnum rfl]
  rw [ok_bind]
  rw [hf.codegPPerm_eq]
  dsimp only
  split
  . next h0 =>
    have hdeg := hf.degree
    rw [h0] at hdeg
    rw [eq_bot_of_isDegree hdeg]
    rw [PEquiv.trans_bot]
    exact ⟨_, rfl, isPPermBag_emptyPartialPerm⟩
  . next h0 =>
    split
    . next hlt =>
      have hdeg : IsDegree (σ.toPEquiv.trans φ) f.entries.length := by
        constructor
        . intro i v hv
          rw [perm_trans_apply] at hv
          have := hf.images.lt_length hv
          by_contra hge
          rw [hfix i (by omega)] at this
          exact hge this
        . cases hf.degree.last with
          | inl hz => exact Or.inl hz
          | inr hlast =>
            right
            rw [perm_trans_apply]
            rw [hfix _ (by omega)]
            exact hlast
      have hfirst : ∃ pt, forLoop (fun i pt => do
          writeEntry f.tnum.dataType pt i (← readEntry f.entries (← readEntry p.entries i)))
            p.entries.length 0 (replicate f.entries.length 0) = .ok pt
          ∧ HasEntries (PEquiv.refl Nat) (σ.toPEquiv.trans φ) f.entries.length
            (range p.entries.length) pt := by
        apply pointLoop_spec
          (HasEntries (PEquiv.refl Nat) (σ.toPEquiv.trans φ) f.entries.length)
        . apply hasEntries_replicate
        . intro L j pt _ hj hpt
          rw [Nat.zero_add] at hj
          have hσ := hacts.lt hj
          rw [readEntry_eq hacts hj]
          rw [ok_bind]
          rw [readEntry_images hf.images (by omega)]
          rw [ok_bind]
          rw [← perm_trans_apply σ φ j]
          obtain ⟨pt', hwrite, hpt', _⟩ := hpt.write (T := f.tnum.dataType) (PEquiv.refl_apply j)
            (by omega) (by rw [perm_trans_apply]; apply hf.entry_lt)
          exact ⟨pt', hwrite, hpt'⟩
        . intro pt hpt
          rw [Nat.zero_add] at hpt
          exact hpt
      obtain ⟨pt1, hrun1, hpt1⟩ := hfirst
      have hsecond : ∃ pt, forLoop (fun i pt => do
          writeEntry f.tnum.dataType pt i (← readEntry f.entries i))
            (f.entries.length - p.entries.length) p.entries.length pt1 = .ok pt
          ∧ HasEntries (PEquiv.refl Nat) (σ.toPEquiv.trans φ) f.entries.length
            (range f.entries.length) pt := by
        apply pointLoop_spec
          (HasEntries (PEquiv.refl Nat) (σ.toPEquiv.trans φ) f.entries.length)
        . exact hpt1
        . intro L j pt hle hj hpt
          have hval : (σ.toPEquiv.trans φ) j = φ j := by
            rw [perm_trans_apply]
            rw [hfix j hle]
          rw [readEntry_images hf.images (by omega)]
          rw [ok_bind]
          rw [← hval]
          obtain ⟨pt', hwrite, hpt', _⟩ := hpt.write (T := f.tnum.dataType) (PEquiv.refl_apply j)
            (by omega) (by rw [hval]; apply hf.entry_lt)
          exact ⟨pt', hwrite, hpt'⟩
        . intro pt hpt
          rw [show p.entries.length + (f.entries.length - p.entries.length) = f.entries.length
            by omega] at hpt
          exact hpt
      obtain ⟨pt2, hrun2, hpt2⟩ := hsecond
      rw [hrun1]
      rw [ok_bind]
      rw [hrun2]
      refine ⟨_, rfl, hpt2.perm_trans hf ?_ hdeg⟩
      intro j v hv
      rw [← perm_trans_apply] at hv
      rw [mem_range]
      exact hdeg.lt j v hv
    . next hge =>
      have hbelow : ∀ i v, (σ.toPEquiv.trans φ) i = some v → i < p.entries.length := by
        intro i v hv
        rw [perm_trans_apply] at hv
        have := hf.images.lt_length hv
        by_contra hi
        rw [hfix i (by omega)] at this
        omega
      have hne : ∃ i v, (σ.toPEquiv.trans φ) i = some v := by
        cases hf.degree.last with
        | inl hz => exact absurd hz h0
        | inr hlast =>
          obtain ⟨v, hv⟩ := hlast
          refine ⟨σ.symm (f.entries.length - 1), v, ?_⟩
          rw [perm_trans_apply]
          rw [Equiv.apply_symm_apply]
          exact hv
      obtain ⟨deg, hrun, hdeg, hle⟩ := permProdDegree_spec hf hacts (Nat.le_refl _) hbelow hne
      have hfill : ∃ pt, forLoop (fun i pt => do
          let j ← readEntry p.entries i
          if j < f.entries.length then
            writeEntry f.tnum.dataType pt i (← readEntry f.entries j)
          else
            return pt) deg 0 (replicate deg 0) = .ok pt
          ∧ HasEntries (PEquiv.refl Nat) (σ.toPEquiv.trans φ) deg (range deg) pt := by
        apply pointLoop_spec (HasEntries (PEquiv.refl Nat) (σ.toPEquiv.trans φ) deg)
        . apply hasEntries_replicate
        . intro L j pt _ hj hpt
          rw [Nat.zero_add] at hj
          rw [readEntry_eq hacts (by omega)]
          rw [ok_bind]
          split
          . next hσ =>
            rw [readEntry_images hf.images hσ]
            rw [ok_bind]
            rw [← perm_trans_apply σ φ j]
            obtain ⟨pt', hwrite, hpt', _⟩ := hpt.write (T := f.tnum.dataType)
              (PEquiv.refl_apply j) hj (by rw [perm_trans_apply]; apply hf.entry_lt)
            exact ⟨pt', hwrite, hpt'⟩
          . next hσ =>
            refine ⟨pt, rfl, hpt.skip (Or.inr ?_)⟩
            rw [perm_trans_apply]
            apply hf.images.eq_none
            omega
        . intro pt hpt
          rw [Nat.zero_add] at hpt
          exact hpt
      obtain ⟨pt, hrun', hpt⟩ := hfill
      rw [hrun]
      rw [ok_bind]
      rw [hrun']
      refine ⟨_, rfl, hpt.perm_trans hf ?_ hdeg⟩
      intro j v hv
      rw [← perm_trans_apply] at hv
      rw [mem_range]
      exact hdeg.lt j v hv

end LeftPermProduct
