import GapKernel.PPerm.Lemmas.Restrict

open PartialBijection PPermImpl List

/--
A permutation with 16 bits gives a right partial permutation, unless its degree is 65536 and the
point 65536 is an image of a smaller set, or no image of a set with this point. For a permutation
with 32 bits and a degree that is not smaller, the set has to be an interval that starts with 1. It
is mapped to points below 65536 or to itself.
-/
def HasRightPoints (p : PermBag) (σ : Equiv.Perm Nat) (set : List Nat) : Prop :=
  let deg := set.getLastD 0
  deg < 2 ^ 32 ∧ match p.tnum with
    | .perm2 => deg ≤ 65536 → ((∃ j, j + 1 ∈ set ∧ σ j = 65535) ↔ deg = 65536)
    | .perm4 => deg ≤ p.entries.length → set.length = deg
      ∧ ((∀ j, j + 1 ∈ set → σ j < 65535) ∨ ∀ j, j + 1 ∈ set → σ j < deg)

section Conversion

variable {p : PermBag} {σ : Equiv.Perm Nat} {init : List Nat} {deg : Nat}

def IsRestriction (σ : Equiv.Perm Nat) (set : List Nat) (res : Result PPermBag) : Prop :=
  ∃ h, res = .ok h ∧ IsPPermBag h (restrict σ.toPEquiv set)

theorem isDegree_restrict (hset : IsPosSet (init ++ [deg]))
    : IsDegree (restrict σ.toPEquiv (init ++ [deg])) deg := by
  have hmem : deg ∈ init ++ [deg] := mem_append_right _ (mem_singleton_self deg)
  have hpos := hset.pos deg hmem
  constructor
  . intro j v hv
    exact hset.le_last (restrict_perm_eq_some_iff.mp hv).1
  . refine .inr ⟨σ (deg - 1), restrict_perm_eq_some_iff.mpr ⟨?_, rfl⟩⟩
    rw [Nat.sub_add_cancel hpos]
    exact hmem

theorem codegree_restrict_iff (hset : IsPosSet (init ++ [deg]))
    (hlt : ∀ j, j + 1 ∈ init ++ [deg] → σ j < deg)
    : IsDegree (restrict σ.toPEquiv (init ++ [deg])).symm deg
      ↔ ∃ j, j + 1 ∈ init ++ [deg] ∧ σ j + 1 = deg := by
  have hpos := hset.pos deg (mem_append_right _ (mem_singleton_self deg))
  constructor
  . intro h
    obtain ⟨j, hj⟩ := h.last.resolve_left (by omega)
    rw [PEquiv.eq_some_iff, restrict_perm_eq_some_iff] at hj
    exact ⟨j, hj.1, by omega⟩
  . intro ⟨j, hj, heq⟩
    constructor
    . intro v i hv
      rw [PEquiv.eq_some_iff, restrict_perm_eq_some_iff] at hv
      rw [← hv.2]
      exact hlt i hv.1
    . refine .inr ⟨j, ?_⟩
      rw [PEquiv.eq_some_iff, restrict_perm_eq_some_iff]
      exact ⟨hj, by omega⟩

theorem asImages_bag (T : PermTnum) (hp : PermList.Acts p.entries σ)
    (hset : IsPosSet (init ++ [deg])) (hdep : p.entries.length ≤ deg) (hbits : deg < 2 ^ T.bits)
    (hex : ∃ j, j + 1 ∈ init ++ [deg] ∧ σ j + 1 = deg)
    : IsRestriction σ (init ++ [deg]) (do
        return newPPerm T (← asImages T p.entries (init ++ [deg]) deg) deg) := by
  have hlt : ∀ j, j + 1 ∈ init ++ [deg] → σ j < deg := fun j hj =>
    PermList.apply_lt (fun i hi => hp.fix (Nat.le_trans hdep hi)) (hset.le_last hj)
  obtain ⟨pt, hrun, hpt⟩ := asImages_spec (T := T) hp hset fun j hj =>
    Nat.lt_of_le_of_lt (hlt j hj) hbits
  rw [hrun]
  refine ⟨_, rfl, ?_⟩
  have hbag : IsPPermBag (newPPerm T pt deg) _ := hpt.isPPermBag covers_restrict
    (by rw [refl_quotient]; exact isDegree_restrict hset)
    (by rw [refl_quotient]; exact (codegree_restrict_iff hset hlt).mpr hex) hbits
  rwa [refl_quotient] at hbag

theorem exists_last (hp : PermList.Acts p.entries σ) (init : List Nat)
    (hdep : p.entries.length < deg) : ∃ j, j + 1 ∈ init ++ [deg] ∧ σ j + 1 = deg := by
  refine ⟨deg - 1, ?_, ?_⟩
  . rw [Nat.sub_add_cancel (by omega)]
    exact mem_append_right _ (mem_singleton_self deg)
  . rw [hp.fix (by omega)]
    omega

theorem IsRestriction.lt {set : List Nat} {res : Result PPermBag} (h : IsRestriction σ set res)
    {T : PermTnum} (hT : ∀ bag, res = .ok bag → bag.tnum = T.ppermTnum) {j : Nat}
    (hj : j + 1 ∈ set) : σ j + 1 < 2 ^ T.bits := by
  obtain ⟨bag, hrun, hbag⟩ := h
  have := (hbag.image_lt (restrict_perm_eq_some_iff.mpr ⟨hj, rfl⟩)).2.2
  rwa [hT bag hrun, T.dataType_ppermTnum] at this

theorem asImages_tnum {T : PermTnum} {set : List Nat} (bag : PPermBag)
    (h : (do return newPPerm T (← asImages T p.entries set deg) deg : Result PPermBag) = .ok bag)
    : bag.tnum = T.ppermTnum ∧ bag.codeg = T.cast deg := by
  obtain ⟨pt, -, hbag⟩ := of_bind_eq_ok h
  cases hbag
  exact ⟨rfl, rfl⟩

theorem mem_set (init : List Nat) (deg : Nat) : deg ∈ init ++ [deg] :=
  mem_append_right _ (mem_singleton_self deg)

theorem asImages_iff_of_lt (T : PermTnum) (hp : PermList.Acts p.entries σ)
    (hset : IsPosSet (init ++ [deg])) (hdep : p.entries.length < deg)
    : IsRestriction σ (init ++ [deg]) (do
        return newPPerm T (← asImages T p.entries (init ++ [deg]) deg) deg)
      ↔ deg < 2 ^ T.bits := by
  constructor
  . intro h
    obtain ⟨j, hj, heq⟩ := exists_last hp init hdep
    rw [← heq]
    exact h.lt (fun bag hbag => (asImages_tnum bag hbag).1) hj
  . intro hbits
    exact asImages_bag T hp hset (Nat.le_of_lt hdep) hbits (exists_last hp init hdep)

theorem asImages_iff_perm4 (hp : PermList.Acts p.entries σ) (hdep : p.entries.length ≤ 65536)
    (hset : IsPosSet (init ++ [deg])) (hdeg : 65536 ≤ deg)
    : IsRestriction σ (init ++ [deg]) (do
        return newPPerm .perm4 (← asImages .perm4 p.entries (init ++ [deg]) deg) deg)
      ↔ deg < 2 ^ 32 ∧ (deg = 65536 → ∃ j, j + 1 ∈ init ++ [deg] ∧ σ j = 65535) := by
  rcases Nat.lt_or_eq_of_le (Nat.le_trans hdep hdeg) with hlt | heq
  . rw [asImages_iff_of_lt .perm4 hp hset hlt]
    refine (and_iff_left fun h => ?_).symm
    obtain ⟨j, hj, hjeq⟩ := exists_last hp init hlt
    exact ⟨j, hj, by omega⟩
  . obtain rfl : deg = 65536 := by omega
    have hlt : ∀ j, j + 1 ∈ init ++ [65536] → σ j < 65536 := fun j hj =>
      PermList.apply_lt (fun i hi => hp.fix (Nat.le_trans hdep hi)) (hset.le_last hj)
    constructor
    . intro ⟨bag, hrun, hbag⟩
      refine ⟨by decide, fun _ => ?_⟩
      have hcodeg := hbag.codegree
      rw [(asImages_tnum bag hrun).2] at hcodeg
      obtain ⟨j, hj, hjeq⟩ := (codegree_restrict_iff hset hlt).mp hcodeg
      exact ⟨j, hj, by omega⟩
    . intro ⟨_, hex⟩
      obtain ⟨j, hj, hjeq⟩ := hex rfl
      exact asImages_bag .perm4 hp hset hdep (by decide) ⟨j, hj, by omega⟩

theorem asFill_iff_perm2 (hp : PermList.Acts p.entries σ) (hset : IsPosSet (init ++ [deg]))
    (hdep : deg ≤ p.entries.length) (hbits : p.entries.length ≤ 65536)
    : IsRestriction σ (init ++ [deg]) (do
        let s ← asFill .perm2 p.entries (init ++ [deg]) deg 0
        return newPPerm .perm2 s.entries s.codeg)
      ↔ ¬∃ j, j + 1 ∈ init ++ [deg] ∧ σ j = 65535 := by
  constructor
  . intro h ⟨j, hj, heq⟩
    have := h.lt (T := .perm2) (fun bag hbag => by
      obtain ⟨s, -, hbag⟩ := of_bind_eq_ok hbag
      cases hbag
      rfl) hj
    rw [heq] at this
    exact absurd this (by decide)
  . intro hnot
    have hlt : ∀ j, j + 1 ∈ init ++ [deg] → σ j + 1 < 2 ^ PermTnum.perm2.bits := by
      intro j hj
      have hj' := hset.le_last hj
      have hval := PermList.apply_lt (fun i hi => hp.fix hi) (show j < p.entries.length by omega)
      have hne : σ j ≠ 65535 := fun heq => hnot ⟨j, hj, heq⟩
      change σ j + 1 < 65536
      omega
    obtain ⟨s, hrun, hs⟩ := asFill_spec hp hset hdep hlt 0
    rw [hrun]
    refine ⟨_, rfl, ?_⟩
    have hfill : IsFillState (PEquiv.refl Nat) (restrict σ.toPEquiv (init ++ [deg])) deg
        (domPoints (init ++ [deg])) s := ⟨hs.entries, hs.codeg rfl⟩
    have hbag := hfill.isPPermBag (T := .perm2) covers_restrict
      (by rw [refl_quotient]; exact isDegree_restrict hset) fun j v hv => by
        rw [restrict_perm_eq_some_iff] at hv
        rw [← hv.2]
        exact hlt j hv.1
    rwa [refl_quotient] at hbag

theorem exists_last_apply_eq (hpos : 0 < deg) (hlt : ∀ j, j < deg → σ j < deg)
    : ∃ j, j < deg ∧ σ j + 1 = deg := by
  have hsub : (Finset.range deg).image σ ⊆ Finset.range deg := by
    intro v hv
    obtain ⟨j, hj, rfl⟩ := Finset.mem_image.mp hv
    exact Finset.mem_range.mpr (hlt j (Finset.mem_range.mp hj))
  have heq := Finset.eq_of_subset_of_card_le hsub
    (Nat.le_of_eq (Finset.card_image_of_injective _ σ.injective).symm)
  have hmem : deg - 1 ∈ (Finset.range deg).image σ := by
    rw [heq]
    exact Finset.mem_range.mpr (by omega)
  obtain ⟨j, hj, hjeq⟩ := Finset.mem_image.mp hmem
  exact ⟨j, Finset.mem_range.mp hj, by omega⟩

variable (hp : PermList.Acts p.entries σ) (hset : IsPosSet (init ++ [deg]))

include hp hset

theorem asEntries_bag (hdep : deg ≤ p.entries.length) {c : Nat} (hc : c < 65536)
    (hbound : ∀ j, j + 1 ∈ init ++ [deg] → σ j < c)
    (heq : c = 0 ∨ ∃ j, j + 1 ∈ init ++ [deg] ∧ c = σ j + 1)
    : IsRestriction σ (init ++ [deg]) (do
        return newPPerm .perm2 (← asEntries .perm2 p.entries (init ++ [deg]) deg) c) := by
  obtain ⟨pt, hrun, hpt⟩ := asEntries_spec (T := .perm2) hp hset hdep fun j hj =>
    Nat.lt_of_le_of_lt (hbound j hj) hc
  rw [hrun]
  refine ⟨_, rfl, ?_⟩
  have hbag : IsPPermBag (newPPerm .perm2 pt c) _ := hpt.isPPermBag covers_restrict
    (by rw [refl_quotient]; exact isDegree_restrict hset) (by
      rw [refl_quotient]
      constructor
      . intro v i hv
        rw [PEquiv.eq_some_iff, restrict_perm_eq_some_iff] at hv
        rw [← hv.2]
        exact hbound i hv.1
      . refine heq.imp_right fun ⟨j, hj, hjeq⟩ => ⟨j, ?_⟩
        rw [PEquiv.eq_some_iff, restrict_perm_eq_some_iff]
        exact ⟨hj, by omega⟩) hc
  rwa [refl_quotient] at hbag

theorem asFill_iff_perm4 (hlen : (init ++ [deg]).length = deg) (hdep : deg ≤ p.entries.length)
    (hbits : p.entries.length < 2 ^ 32) (codeg : Nat)
    : IsRestriction σ (init ++ [deg]) (do
        let s ← asFill .perm4 p.entries (init ++ [deg]) deg codeg
        return newPPerm .perm4 s.entries deg)
      ↔ ∀ j, j + 1 ∈ init ++ [deg] → σ j < deg := by
  have hcast : PermTnum.perm4.cast deg = deg := Nat.mod_eq_of_lt (Nat.lt_of_le_of_lt hdep hbits)
  constructor
  . intro ⟨bag, hrun, hbag⟩ j hj
    obtain ⟨s, -, hrun⟩ := of_bind_eq_ok hrun
    cases hrun
    have := (hbag.image_lt (restrict_perm_eq_some_iff.mpr ⟨hj, rfl⟩)).2.1
    change σ j + 1 ≤ PermTnum.perm4.cast deg at this
    omega
  . intro hlt
    have hpos := hset.pos deg (mem_set init deg)
    have hmem : ∀ j, j < deg → j + 1 ∈ init ++ [deg] := fun j hj =>
      hset.mem_of_length_eq (fun x hx => hset.le_last hx) hlen (Nat.succ_pos j) hj
    obtain ⟨j, hj, hjeq⟩ := exists_last_apply_eq hpos fun j hj => hlt j (hmem j hj)
    obtain ⟨s, hrun, hs⟩ := asFill_spec (T := .perm4) hp hset hdep
      (fun j hj => Nat.lt_of_le_of_lt (hlt j hj) (Nat.lt_of_le_of_lt hdep hbits)) codeg
    rw [hrun]
    refine ⟨_, rfl, ?_⟩
    have hbag : IsPPermBag (newPPerm .perm4 s.entries deg) _ := hs.entries.isPPermBag covers_restrict
      (by rw [refl_quotient]; exact isDegree_restrict hset)
      (by
        rw [refl_quotient]
        exact (codegree_restrict_iff hset hlt).mpr ⟨j, hmem j hj, hjeq⟩)
      (Nat.lt_of_le_of_lt hdep hbits)
    rwa [refl_quotient] at hbag

end Conversion

section Points

variable {p : PermBag} {σ : Equiv.Perm Nat} {w : IntSize} {set : List Nat}

theorem funcAsPPermPerm_perm2_iff {init : List Nat} {deg : Nat} (hp : IsPermBag w p σ)
    (htnum : p.tnum = .perm2) (hset : IsPosSet (init ++ [deg]))
    : IsRestriction σ (init ++ [deg]) (funcAsPPermPerm p (init ++ [deg]))
      ↔ deg < 2 ^ 32
        ∧ (deg ≤ 65536 → ((∃ j, j + 1 ∈ init ++ [deg] ∧ σ j = 65535) ↔ deg = 65536)) := by
  have hbits : p.entries.length ≤ 65536 := by
    have := hp.deg_le
    rwa [htnum] at this
  have hlen : (init ++ [deg]).length ≠ 0 := by simp
  unfold funcAsPPermPerm
  rw [if_neg hlen, elmList_concat, ok_bind, htnum]
  dsimp only
  split
  . next hlt =>
    split
    . next hdep =>
      rw [asImages_iff_of_lt .perm2 hp.acts hset hdep]
      have hnot : ¬∃ j, j + 1 ∈ init ++ [deg] ∧ σ j = 65535 := by
        intro ⟨j, hj, heq⟩
        have := PermList.apply_lt (fun i hi => hp.acts.fix (Nat.le_trans (Nat.le_of_lt hdep) hi))
          (hset.le_last hj)
        omega
      exact iff_of_true hlt ⟨by omega, fun _ => iff_of_false hnot (by omega)⟩
    . next hdep =>
      rw [asFill_iff_perm2 hp.acts hset (Nat.not_lt.mp hdep) hbits]
      constructor
      . exact fun h => ⟨by omega, fun _ => iff_of_false h (by omega)⟩
      . exact fun h hex => absurd ((h.2 (by omega)).mp hex) (by omega)
  . next hge =>
    rw [asImages_iff_perm4 hp.acts hbits hset (Nat.not_lt.mp hge)]
    refine and_congr_right fun _ => ?_
    constructor
    . exact fun h hle => ⟨fun _ => by omega, h⟩
    . exact fun h heq => (h (Nat.le_of_eq heq)).mpr heq

theorem funcAsPPermPerm_perm4_iff {init : List Nat} {deg : Nat} (hp : IsPermBag w p σ)
    (htnum : p.tnum = .perm4) (hset : IsPosSet (init ++ [deg]))
    : IsRestriction σ (init ++ [deg]) (funcAsPPermPerm p (init ++ [deg]))
      ↔ deg < 2 ^ 32 ∧ (deg ≤ p.entries.length → (init ++ [deg]).length = deg
        ∧ ((∀ j, j + 1 ∈ init ++ [deg] → σ j < 65535)
          ∨ ∀ j, j + 1 ∈ init ++ [deg] → σ j < deg)) := by
  have hbits : p.entries.length < 2 ^ 32 := by
    have := hp.deg_le
    rw [htnum] at this
    refine Nat.lt_of_le_of_lt this ?_
    cases w with
    | int4 => decide
    | int8 => decide
  have hlen : (init ++ [deg]).length ≠ 0 := by simp
  have hle : (init ++ [deg]).length ≤ deg := hset.length_le fun x hx => hset.le_last hx
  unfold funcAsPPermPerm
  rw [if_neg hlen, elmList_concat, ok_bind, htnum]
  dsimp only
  split
  . next hdep =>
    rw [asImages_iff_of_lt .perm4 hp.acts hset hdep]
    exact (and_iff_left fun h => absurd h (Nat.not_le.mpr hdep)).symm
  . next hdep =>
    rw [Nat.not_lt] at hdep
    rw [and_iff_right (Nat.lt_of_le_of_lt hdep hbits), imp_iff_right hdep]
    by_cases hn : (init ++ [deg]).length = deg
    . have hall : ∀ x ∈ init ++ [deg], x ≤ p.entries.length := fun x hx =>
        Nat.le_trans (hset.le_last hx) hdep
      obtain ⟨c, hrun, -, hbound, heq⟩ :=
        findCodeg_spec hp.acts hset hall (Nat.le_of_eq hn.symm) 0
      rw [hrun, ok_bind, and_iff_right hn]
      rw [take_of_length_le (Nat.le_of_eq hn)] at hbound heq
      split
      . next hc =>
        refine iff_of_true (asEntries_bag hp.acts hset hdep hc (hbound hc) heq) (.inl fun j hj => ?_)
        have := hbound hc j hj
        omega
      . next hc =>
        rw [asFill_iff_perm4 hp.acts hset hn hdep hbits]
        refine ⟨.inr, fun h => h.resolve_left fun hsmall => ?_⟩
        obtain ⟨j, hj, hjeq⟩ := heq.resolve_left (by omega)
        have := hsmall j hj
        omega
    . -- The set has no element at the position `deg`.
      refine iff_of_false (fun h => ?_) fun h => hn h.1
      obtain ⟨bag, hrun, -⟩ := h
      have hpos := hset.pos deg (mem_set init deg)
      obtain ⟨k, rfl⟩ : ∃ k, deg = k + 1 := ⟨deg - 1, by omega⟩
      have hfail : elmList (init ++ [k + 1]) (k + 1)
          = .error (.quit "List Element: <list>[%d] must have an assigned value" (k + 1) 0) := by
        unfold elmList
        rw [if_neg (by omega)]
        rfl
      unfold findCodeg at hrun
      rw [if_pos (by decide), hfail] at hrun
      contradiction

theorem funcAsPPermPerm_iff (hp : IsPermBag w p σ) (hset : IsPosSet set)
    : IsRestriction σ set (funcAsPPermPerm p set) ↔ HasRightPoints p σ set := by
  unfold HasRightPoints
  rcases eq_nil_or_concat set with rfl | ⟨init, deg, rfl⟩
  . have hbot : restrict σ.toPEquiv [] = ⊥ := by
      ext1 i
      exact restrict_of_notMem not_mem_nil
    refine iff_of_true ⟨_, rfl, ?_⟩ ⟨by decide, ?_⟩
    . rw [hbot]
      exact isPPermBag_emptyPartialPerm
    . cases p.tnum with
      | perm2 => exact fun _ => ⟨fun ⟨j, hj, _⟩ => absurd hj not_mem_nil,
        fun h => absurd h (by decide)⟩
      | perm4 => exact fun _ => ⟨rfl, .inl fun j hj => absurd hj not_mem_nil⟩
  . rw [concat_eq_append] at hset ⊢
    have hlast : (init ++ [deg]).getLastD 0 = deg := by simp
    rw [hlast]
    cases htnum : p.tnum with
    | perm2 => exact funcAsPPermPerm_perm2_iff hp htnum hset
    | perm4 => exact funcAsPPermPerm_perm4_iff hp htnum hset

end Points

section AsPerm

variable {f : PPermBag} {φ : Nat ≃. Nat} {dom : List Nat}

def SameDomImg (φ : Nat ≃. Nat) : Prop :=
  ∀ i, (∃ v, φ i = some v) ↔ ∃ j, φ j = some i

def extendPerm (φ : Nat ≃. Nat) (h : SameDomImg φ) : Equiv.Perm Nat where
  toFun i := (φ i).getD i
  invFun v := (φ.symm v).getD v
  left_inv i := by
    dsimp only
    cases hv : φ i with
    | some v =>
      rw [Option.getD_some, φ.eq_some_iff.mpr hv]
      rfl
    | none =>
      rw [Option.getD_none]
      cases hj : φ.symm i with
      | none => rfl
      | some j =>
        obtain ⟨v, hv'⟩ := (h i).mpr ⟨j, φ.eq_some_iff.mp hj⟩
        rw [hv] at hv'
        contradiction
  right_inv v := by
    dsimp only
    cases hi : φ.symm v with
    | some i =>
      rw [Option.getD_some, φ.eq_some_iff.mp hi]
      rfl
    | none =>
      rw [Option.getD_none]
      cases hu : φ v with
      | none => rfl
      | some u =>
        obtain ⟨j, hj⟩ := (h v).mp ⟨u, hu⟩
        rw [φ.eq_some_iff.mpr hj] at hi
        contradiction

structure IsPermFill (φ : Nat ≃. Nat) (n : Nat) (L : List Nat) (pt : List Nat) : Prop where
  length_eq : pt.length = n
  get : ∀ k, k < n → pt[k]? = some (if k ∈ L then (φ k).getD k else k)

theorem identityLoop_spec {T : PermTnum} {n : Nat} (hn : n ≤ 2 ^ T.bits)
    : ∃ pt, forLoop (fun i pt => writeEntry T pt i i) n 0 (List.replicate n 0) = .ok pt
        ∧ IsPermFill φ n [] pt := by
  apply forLoop_of_inv (fun i pt => pt.length = n ∧ ∀ k, k < i → k < n → pt[k]? = some k)
  . exact ⟨length_replicate, fun k hk => by omega⟩
  . intro i pt _ hi ⟨hlen, hget⟩
    rw [writeEntry_images (by omega) (by omega)]
    refine ⟨_, rfl, by rw [length_set]; exact hlen, fun k hk hkn => ?_⟩
    by_cases hki : k = i
    . rw [hki, getElem?_set_self (by omega)]
    . rw [getElem?_set_ne (fun h => hki h.symm)]
      exact hget k (by omega) hkn
  . intro pt ⟨hlen, hget⟩
    refine ⟨hlen, fun k hk => ?_⟩
    rw [hget k (by omega) hk, if_neg not_mem_nil]

theorem IsPermFill.write {T : PermTnum} {n j v : Nat} {L pt : List Nat} (h : IsPermFill φ n L pt)
    (hj : j < n) (hv : φ j = some v) (hlt : v < 2 ^ T.bits)
    : ∃ pt', writeEntry T pt j v = .ok pt' ∧ IsPermFill φ n (L ++ [j]) pt' := by
  have hlen := h.length_eq
  rw [writeEntry_images (by omega) hlt]
  refine ⟨_, rfl, by rw [length_set]; exact hlen, fun k hk => ?_⟩
  by_cases hkj : k = j
  . rw [hkj, getElem?_set_self (by omega), hv, if_pos (by simp)]
    rfl
  . rw [getElem?_set_ne (fun h => hkj h.symm), h.get k hk]
    have hmem : k ∈ L ++ [j] ↔ k ∈ L := by simp [hkj]
    simp only [hmem]

def IsPermOf (φ : Nat ≃. Nat) (T : PermTnum) (res : Option PermBag) : Prop :=
  match res with
  | none => ¬SameDomImg φ
  | some p => ∃ h : SameDomImg φ, PermList.Acts p.entries (extendPerm φ h) ∧ p.tnum = T

theorem eq_of_sameDomImg {dom set : List Nat} (hdom : IsDomList φ dom) (hset : IsImgList φ set)
    (hdoms : dom.Pairwise (· < ·)) (hsets : set.Pairwise (· < ·))
    : set = dom ↔ SameDomImg φ := by
  have hmem : (∀ x, x ∈ set ↔ x ∈ dom) ↔ SameDomImg φ := by
    constructor
    . intro h i
      have := h (i + 1)
      rw [hset.mem, hdom.mem] at this
      constructor
      . intro ⟨v, hv⟩
        obtain ⟨j, u, hu, heq⟩ := this.mpr ⟨i, v, hv, rfl⟩
        obtain rfl : i = u := by omega
        exact ⟨j, hu⟩
      . intro ⟨j, hj⟩
        obtain ⟨k, v, hv, heq⟩ := this.mp ⟨j, i, hj, rfl⟩
        obtain rfl : i = k := by omega
        exact ⟨v, hv⟩
    . intro h x
      rw [hset.mem, hdom.mem]
      constructor
      . intro ⟨j, v, hv, heq⟩
        obtain ⟨u, hu⟩ := (h v).mpr ⟨j, hv⟩
        exact ⟨v, u, hu, heq⟩
      . intro ⟨i, v, hv, heq⟩
        obtain ⟨j, hj⟩ := (h i).mp ⟨v, hv⟩
        exact ⟨j, i, hj, heq⟩
  rw [← hmem]
  constructor
  . intro heq x
    rw [heq]
  . intro h
    have hperm : set.Perm dom := (perm_ext_iff_of_nodup hset.nodup hdom.nodup).mpr h
    exact hperm.eq_of_pairwise (fun a b _ _ hab hba => absurd hab (Nat.lt_asymm hba)) hsets hdoms

theorem IsPPermBag.degree_lt_of_same (hf : IsPPermBag f φ) (h : SameDomImg φ)
    : f.entries.length < 2 ^ f.tnum.dataType.bits := by
  rcases hf.degree.last with h0 | ⟨v, hv⟩
  . rw [h0]
    exact Nat.two_pow_pos _
  . obtain ⟨j, hj⟩ := (h _).mp ⟨v, hv⟩
    have h1 := hf.degree.lt _ v hv
    have h2 := (hf.image_lt hj).2.2
    omega

theorem funcAsPermPPerm_spec (hf : IsPPermBag f φ) (hslots : IsSlots f φ)
    : ∃ f' res, funcAsPermPPerm f = .ok (f', res) ∧ IsPPermBag f' φ
        ∧ IsPermOf φ f.tnum.dataType res := by
  obtain ⟨f', dom, set, hrun, hf', hslots', hdom, himg, htnum, hentries, hcodeg, hsorted⟩ :=
    funcImageSetPPerm_spec hf hslots
  have hdoms := hf'.dom dom hdom
  have hiff := eq_of_sameDomImg hdoms (hslots'.img set himg) (hslots'.sorted dom hdom) hsorted
  unfold funcAsPermPPerm
  rw [hrun, ok_bind]
  dsimp only
  rw [hdom]
  dsimp only
  split
  . next hne => exact ⟨f', none, rfl, hf', fun h => hne (hiff.mpr h)⟩
  . next heq =>
    have hsame := hiff.mp (not_not.mp heq)
    have hdeg := hf'.degree_lt_of_same hsame
    obtain ⟨pt, hloop, hpt⟩ := @identityLoop_spec φ f'.tnum.dataType
      f'.entries.length (Nat.le_of_lt hdeg)
    have hfill : ∃ pt', domLoop dom dom.length (fun j pt => do
        writeEntry f'.tnum.dataType pt j (← index (← readEntry f'.entries j))) pt = .ok pt'
        ∧ IsPermFill φ f'.entries.length (domPoints dom) pt' := by
      apply domLoop_spec hdoms (IsPermFill φ f'.entries.length) hpt
      . intro L j v s hv hs
        have hlt := hf'.image_lt hv
        rw [readEntry_images hf'.images hlt.1, ok_bind, hv, entryOf_some, index_succ, ok_bind]
        exact hs.write hlt.1 hv (by omega)
      . exact fun s hs => hs
    obtain ⟨pt', hloop', hpt'⟩ := hfill
    rw [hloop, ok_bind, hf'.rankPPerm_eq hdom, ok_bind]
    rw [hloop', ok_bind]
    refine ⟨f', some _, rfl, hf', hsame, fun i => ?_, congrArg PPermTnum.dataType htnum⟩
    change PermList.image pt' i = (φ i).getD i
    have hlen := hpt'.length_eq
    by_cases hi : i < f'.entries.length
    . have hget := hpt'.get i hi
      rw [getElem?_eq_getElem (by omega), Option.some.injEq] at hget
      rw [PermList.image_of_lt (by omega), hget]
      split
      . rfl
      . next hmem =>
        cases hv : φ i with
        | none => rfl
        | some v => exact absurd (hdoms.mem_domPoints hv) hmem
    . rw [PermList.image_of_le (by omega), hf'.images.eq_none (by omega)]
      rfl

end AsPerm
