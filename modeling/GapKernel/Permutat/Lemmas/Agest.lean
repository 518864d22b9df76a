import GapKernel.Permutat.Impl.Mapping
import GapKernel.Permutat.Lemmas.Compare
import Mathlib.Data.Int.Interval

open PermList PermImpl List

section Lists

variable {α : Type} {list : List (Option α)} {pos : Nat}

def entryAt (list : List (Option α)) (pos : Nat) : Option α :=
  list[pos - 1]?.join

theorem isBound_eq (hpos : 0 < pos) : isBound list pos = .ok (entryAt list pos).isSome := by
  unfold isBound entryAt
  split
  . next hle =>
    have hget := getElem?_eq_getElem (show pos - 1 < list.length by omega)
    have helm := elmPlist_of_getElem? hget
    rw [Nat.sub_add_cancel hpos] at helm
    rw [helm, ok_bind, hget]
    rfl
  . rw [getElem?_eq_none (by omega)]
    rfl

theorem assSparse_spec (list : List (Option α)) (hpos : 0 < pos) (obj : α)
    : ∃ list', assSparse list pos obj = .ok list'
        ∧ ∀ x, 0 < x → entryAt list' x = if x = pos then some obj else entryAt list x := by
  unfold assSparse
  rw [if_neg (by omega)]
  split
  . next hle =>
    refine ⟨_, rfl, ?_⟩
    intro x hx
    unfold entryAt
    rw [getElem?_set]
    split
    . rw [if_pos (by omega), if_pos (by omega)]
      rfl
    . rw [if_neg (by omega)]
  . next hle =>
    refine ⟨_, rfl, ?_⟩
    intro x hx
    unfold entryAt
    rw [append_assoc]
    split
    . next heq =>
      rw [heq, getElem?_append_right (by omega), getElem?_append_right (by simp)]
      simp
    . next hne =>
      by_cases hlt : x - 1 < list.length
      . rw [getElem?_append_left hlt]
      . rw [getElem?_append_right (by omega), getElem?_eq_none (by omega : list.length ≤ _)]
        by_cases hlt' : x < pos
        . rw [getElem?_append_left (by simp; omega), getElem?_replicate,
            if_pos (by omega)]
          rfl
        . rw [getElem?_eq_none]
          simp
          omega

end Lists

section Points

variable {w : IntSize} {σ : Equiv.Perm Nat} {x : Int}

def pointImage (σ : Equiv.Perm Nat) (x : Int) : Int :=
  (σ (x.toNat - 1) : Int) + 1

theorem pointImage_pos (σ : Equiv.Perm Nat) (x : Int) : 0 < pointImage σ x := by
  unfold pointImage
  omega

theorem pointImage_symm (σ : Equiv.Perm Nat) (hx : 0 < x)
    : pointImage σ (pointImage σ.symm x) = x := by
  unfold pointImage
  rw [show ((σ.symm (x.toNat - 1) : Int) + 1).toNat - 1 = σ.symm (x.toNat - 1) by omega,
    Equiv.apply_symm_apply]
  omega

theorem pointImage_inj {y : Int} (hx : 0 < x) (hy : 0 < y)
    (heq : pointImage σ x = pointImage σ y)
    : x = y := by
  rw [← pointImage_symm σ.symm hx, ← pointImage_symm σ.symm hy, Equiv.symm_symm, heq]

def IsPoint (w : IntSize) (x : Int) : Prop :=
  0 < x ∧ w.IsSmall x

def IsClosedUnder (orbit : List Int) (σ : Equiv.Perm Nat) : Prop :=
  ∀ x ∈ orbit, pointImage σ x ∈ orbit

theorem IsClosedUnder.symm {orbit : List Int} (h : IsClosedUnder orbit σ)
    (hpos : ∀ x ∈ orbit, 0 < x)
    : IsClosedUnder orbit σ.symm := by
  intro x hx
  have hinj : Set.InjOn (pointImage σ) orbit.toFinset := by
    intro a ha b hb heq
    rw [Finset.mem_coe, mem_toFinset] at ha hb
    exact pointImage_inj (hpos a ha) (hpos b hb) heq
  have hmaps : Set.MapsTo (pointImage σ) orbit.toFinset orbit.toFinset := by
    intro a ha
    rw [Finset.mem_coe, mem_toFinset] at ha ⊢
    exact h a ha
  have hsurj := Finset.surjOn_of_injOn_of_card_le (pointImage σ) hmaps hinj (Nat.le_refl _)
  have hmem : x ∈ (orbit.toFinset : Set Int) := by
    rw [Finset.mem_coe, mem_toFinset]
    exact hx
  rcases hsurj hmem with ⟨y, hy⟩
  have hy₁ := hy.1
  rw [Finset.mem_coe, mem_toFinset] at hy₁
  rw [← hy.2]
  have := pointImage_symm σ.symm (hpos y hy₁)
  rw [Equiv.symm_symm] at this
  rw [this]
  exact hy₁

theorem isSmall_of_le_maxDegPerm4 (hpos : 0 < x) (hle : x ≤ PermTnum.maxDegPerm4 w)
    : w.IsSmall x := by
  unfold IntSize.IsSmall IntSize.intIntobjMin IntSize.intIntobjMax IntSize.nrSmallIntBits
  cases w with
  | int4 =>
    simp only [PermTnum.maxDegPerm4, IntSize.bits] at *
    omega
  | int8 =>
    simp only [PermTnum.maxDegPerm4, IntSize.bits] at *
    omega

theorem PermTnum.maxDeg_le_maxDegPerm4 (w : IntSize) (T : PermTnum)
    : T.maxDeg w ≤ PermTnum.maxDegPerm4 w := by
  cases w <;> cases T <;> decide

variable {h : PermHeap} {ρ : Nat → Equiv.Perm Nat}

theorem myquo_spec (hheap : IsPermHeap w h ρ) {perm : Nat} (hperm : perm < h.bags.length)
    (hx : IsPoint w x)
    : ∃ h' ρ' img, myquo w h x perm = .ok (h', img) ∧ IsPermHeap w h' ρ' ∧ Extends h ρ h' ρ'
        ∧ (img : Int) = pointImage (ρ perm).symm x
        ∧ ((img : Int) = x ∨ img ≤ PermTnum.maxDegPerm4 w) := by
  obtain ⟨h', ρ', heq, hheap', hext⟩ := (PermOps.correct hheap hperm hperm).quoInt x hx.1
  have hbag := hheap.isPermBag perm _ (getElem?_eq_getElem hperm)
  have hcases : pointImage (ρ perm).symm x = x
      ∨ pointImage (ρ perm).symm x ≤ PermTnum.maxDegPerm4 w := by
    have hle := hbag.deg_le.trans (PermTnum.maxDeg_le_maxDegPerm4 w _)
    have hpos := hx.1
    unfold pointImage
    by_cases hlt : x.toNat - 1 < (h.bags[perm]).entries.length
    . right
      have := symm_lt (fun i hi => hbag.acts.fix hi) hlt
      omega
    . left
      rw [hbag.acts.symm_fix (by omega)]
      omega
  have hpos := pointImage_pos (ρ perm).symm x
  have hsmall : w.IsSmall (pointImage (ρ perm).symm x) := by
    cases hcases with
    | inl heq =>
      rw [heq]
      exact hx.2
    | inr hle => exact isSmall_of_le_maxDegPerm4 hpos hle
  refine ⟨h', ρ', (pointImage (ρ perm).symm x).toNat, ?_, hheap', hext, by omega, ?_⟩
  . unfold myquo
    rw [heq, ok_bind]
    dsimp only
    exact if_pos ⟨hpos, hsmall⟩
  . cases hcases with
    | inl heq => left; omega
    | inr hle => right; omega

end Points

section Step

variable {w : IntSize} {ρ : Nat → Equiv.Perm Nat} {labels : List Nat} {s₀ s : AgestState}
  {new : List Int}

structure IsExtension (w : IntSize) (ρ : Nat → Equiv.Perm Nat) (labels : List Nat)
    (s₀ : AgestState) (new : List Int) (s : AgestState) : Prop where
  heap : ∃ ρ', IsPermHeap w s.heap ρ' ∧ Extends s₀.heap ρ s.heap ρ'
  orbit_eq : s.orbit = s₀.orbit ++ new
  len2_eq : s.len2 = s.orbit.length
  nodup : new.Nodup
  disjoint : ∀ x ∈ new, x ∉ s₀.orbit
  isPoint : ∀ x ∈ s.orbit, IsPoint w x
  le_maxDeg : ∀ x ∈ new, x ≤ PermTnum.maxDegPerm4 w
  isBound_iff : ∀ x : Nat, 0 < x → ((entryAt s.translabels x).isSome = true ↔ (x : Int) ∈ s.orbit)
  kept : ∀ x : Nat, 0 < x → (x : Int) ∉ new
    → entryAt s.translabels x = entryAt s₀.translabels x
      ∧ entryAt s.transversal x = entryAt s₀.transversal x
  edge : ∀ k x, new[k]? = some x → ∃ oj lj, labels[oj - 1]? = some lj
    ∧ entryAt s.translabels x.toNat = some oj ∧ entryAt s.transversal x.toNat = some lj
    ∧ pointImage (ρ lj) x ∈ s₀.orbit ++ new.take k

def IsLabel (labels : List Nat) (h : PermHeap) (oj lj : Nat) : Prop :=
  0 < oj ∧ labels[oj - 1]? = some lj ∧ lj < h.bags.length

theorem assCycles_ok (cycles : Option (List (Option Bool))) {pos : Nat} (hpos : 0 < pos)
    (val : Bool)
    : ∃ cycles', assCycles cycles pos val = .ok cycles' := by
  unfold assCycles
  cases cycles with
  | none => exact ⟨none, rfl⟩
  | some list =>
    rcases assSparse_spec list hpos val with ⟨list', h⟩
    dsimp only
    rw [h.1]
    exact ⟨some list', rfl⟩

theorem IsExtension.concat (h : IsExtension w ρ labels s₀ new s) {oj lj img : Nat} {pt : Int}
    {s' : AgestState} (hlabel : labels[oj - 1]? = some lj)
    (hheap : ∃ ρ', IsPermHeap w s'.heap ρ' ∧ Extends s₀.heap ρ s'.heap ρ')
    (hpt : pt ∈ s.orbit) (himg : (img : Int) = pointImage (ρ lj).symm pt)
    (hle : (img : Int) = pt ∨ img ≤ PermTnum.maxDegPerm4 w) (hunmet : (img : Int) ∉ s.orbit)
    (horbit : s'.orbit = s.orbit ++ [(img : Int)]) (hlen2 : s'.len2 = s.len2 + 1)
    (htranslabels : ∀ x, 0 < x
      → entryAt s'.translabels x = if x = img then some oj else entryAt s.translabels x)
    (htransversal : ∀ x, 0 < x
      → entryAt s'.transversal x = if x = img then some lj else entryAt s.transversal x)
    : IsExtension w ρ labels s₀ (new ++ [(img : Int)]) s' := by
  have hpos := pointImage_pos (ρ lj).symm pt
  have hmaxDeg : img ≤ PermTnum.maxDegPerm4 w := by
    cases hle with
    | inl heq =>
      rw [heq] at hunmet
      exact absurd hpt hunmet
    | inr hle => exact hle
  have hsplit := h.orbit_eq
  rw [hsplit, mem_append, not_or] at hunmet
  constructor
  . exact hheap
  . rw [horbit, hsplit, append_assoc]
  . rw [hlen2, h.len2_eq, horbit, length_append]
    rfl
  . rw [nodup_append]
    refine ⟨h.nodup, nodup_singleton _, ?_⟩
    intro a ha b hb heq
    rw [mem_singleton] at hb
    rw [heq, hb] at ha
    exact hunmet.2 ha
  . intro x hx
    rw [mem_append, mem_singleton] at hx
    cases hx with
    | inl hx => exact h.disjoint x hx
    | inr hx =>
      rw [hx]
      exact hunmet.1
  . intro x hx
    rw [horbit, mem_append, mem_singleton] at hx
    cases hx with
    | inl hx => exact h.isPoint x hx
    | inr hx =>
      rw [hx]
      exact ⟨by omega, isSmall_of_le_maxDegPerm4 (by omega) (by omega)⟩
  . intro x hx
    rw [mem_append, mem_singleton] at hx
    cases hx with
    | inl hx => exact h.le_maxDeg x hx
    | inr hx => omega
  . intro x hx
    rw [htranslabels x hx, horbit, mem_append, mem_singleton, ← h.isBound_iff x hx]
    split
    . next heq =>
      rw [heq]
      simp
    . next hne =>
      have : (x : Int) ≠ img := by omega
      simp [this]
  . intro x hx hnew
    rw [mem_append, mem_singleton, not_or] at hnew
    rw [htranslabels x hx, htransversal x hx, if_neg (by omega), if_neg (by omega)]
    exact h.kept x hx hnew.1
  . intro k x hk
    rw [getElem?_append] at hk
    split at hk
    . next hlt =>
      obtain ⟨oj', lj', hlabel', htl, htv, hedge⟩ := h.edge k x hk
      have hx := mem_of_getElem? hk
      have hxpos := (h.isPoint x (by rw [hsplit]; exact mem_append_right _ hx)).1
      have hne : x.toNat ≠ img := by
        intro heq
        apply hunmet.2
        rw [show (img : Int) = x by omega]
        exact hx
      refine ⟨oj', lj', hlabel', ?_, ?_, ?_⟩
      . rw [htranslabels _ (by omega), if_neg hne, htl]
      . rw [htransversal _ (by omega), if_neg hne, htv]
      . rw [take_append_of_le_length (by omega)]
        exact hedge
    . next hge =>
      have hk' : k = new.length ∧ x = img := by
        rw [getElem?_singleton] at hk
        split at hk
        . cases hk
          exact ⟨by omega, rfl⟩
        . cases hk
      have hxnat : x.toNat = img := by omega
      refine ⟨oj, lj, hlabel, ?_, ?_, ?_⟩
      . rw [hxnat, htranslabels _ (by omega), if_pos rfl]
      . rw [hxnat, htransversal _ (by omega), if_pos rfl]
      . rw [hk'.1, hk'.2, take_left, himg]
        rw [pointImage_symm _ (h.isPoint pt hpt).1, ← hsplit]
        exact hpt

theorem addImage_spec (h : IsExtension w ρ labels s₀ new s) {oj lj : Nat}
    (hlabel : IsLabel labels s₀.heap oj lj) {i : Nat} (hi : 0 < i) {pt : Int} (hpt : pt ∈ s.orbit)
    : ∃ s', addImage w labels i pt oj s = .ok s'
        ∧ ∃ more, IsExtension w ρ labels s₀ (new ++ more) s'
          ∧ pointImage (ρ lj).symm pt ∈ s'.orbit := by
  obtain ⟨ρ₁, hheap₁, hext₁⟩ := h.heap
  obtain ⟨hlj, hρ₁⟩ := hext₁.perm_eq hlabel.2.2
  obtain ⟨heap, ρ', img, hmyquo, hheap', hext', himg, hle⟩ :=
    myquo_spec hheap₁ hlj (h.isPoint pt hpt)
  rw [hρ₁] at himg
  have hpos := pointImage_pos (ρ lj).symm pt
  have helm := elmPlist_of_getElem? hlabel.2.1
  rw [Nat.sub_add_cancel hlabel.1] at helm
  have hnewheap : ∃ ρ', IsPermHeap w heap ρ' ∧ Extends s₀.heap ρ heap ρ' :=
    ⟨ρ', hheap', hext₁.trans hext'⟩
  unfold addImage
  rw [helm, ok_bind, hmyquo, ok_bind]
  dsimp only
  rw [isBound_eq (by omega), ok_bind]
  split
  . next hbound =>
    rw [h.isBound_iff img (by omega)] at hbound
    rcases assCycles_ok s.cycles hi true with ⟨cycles, hcycles⟩
    rw [hcycles, ok_bind]
    refine ⟨_, rfl, [], ?_, ?_⟩
    . rw [append_nil]
      exact ⟨hnewheap, h.orbit_eq, h.len2_eq, h.nodup, h.disjoint, h.isPoint, h.le_maxDeg,
        h.isBound_iff, h.kept, h.edge⟩
    . rw [← himg]
      exact hbound
  . next hunbound =>
    rw [h.isBound_iff img (by omega)] at hunbound
    obtain ⟨translabels, htl, htranslabels⟩ :=
      assSparse_spec s.translabels (show 0 < img by omega) oj
    obtain ⟨transversal, htv, htransversal⟩ :=
      assSparse_spec s.transversal (show 0 < img by omega) lj
    have horbit : assDense s.orbit (s.len2 + 1) (img : Int) = .ok (s.orbit ++ [(img : Int)]) := by
      unfold assDense
      rw [h.len2_eq, if_pos rfl]
      rfl
    rw [htl, ok_bind, htv, ok_bind, horbit, ok_bind]
    rcases assCycles_ok s.cycles (show 0 < s.len2 + 1 by omega) false with ⟨cycles, hcycles⟩
    rw [hcycles, ok_bind]
    refine ⟨_, rfl, [(img : Int)], ?_, ?_⟩
    . apply h.concat hlabel.2.1 hnewheap hpt himg hle hunbound
      . rfl
      . rfl
      . exact htranslabels
      . exact htransversal
    . rw [← himg]
      exact mem_append_right _ mem_cons_self

end Step

variable {w : IntSize} {ρ : Nat → Equiv.Perm Nat} {labels labs : List Nat} {s₀ s s' : AgestState}
  {new more : List Int}

section Loops

def IsSwept (ρ : Nat → Equiv.Perm Nat) (labels labs : List Nat) (pt : Int) (s : AgestState)
    : Prop :=
  ∀ oj ∈ labs, ∀ lj, labels[oj - 1]? = some lj → pointImage (ρ lj).symm pt ∈ s.orbit

theorem IsExtension.subset (h : IsExtension w ρ labels s₀ new s)
    (h' : IsExtension w ρ labels s₀ (new ++ more) s')
    : s.orbit ⊆ s'.orbit := by
  rw [h.orbit_eq, h'.orbit_eq, ← append_assoc]
  apply subset_append_left

theorem IsSwept.mono {pt : Int} (h : IsSwept ρ labels labs pt s) (hsub : s.orbit ⊆ s'.orbit)
    : IsSwept ρ labels labs pt s' :=
  fun oj hoj lj hlj => hsub (h oj hoj lj hlj)

def AreLabels (labels : List Nat) (h : PermHeap) (labs : List Nat) : Prop :=
  ∀ oj ∈ labs, ∃ lj, IsLabel labels h oj lj

theorem addImages_spec (h : IsExtension w ρ labels s₀ new s)
    (hlabs : AreLabels labels s₀.heap labs) {i : Nat} {pt : Int} (hpt : s.orbit[i]? = some pt)
    : ∃ s', addImages w labels labs (i + 1) s = .ok s'
        ∧ ∃ more, IsExtension w ρ labels s₀ (new ++ more) s' ∧ IsSwept ρ labels labs pt s' := by
  unfold addImages
  rw [elmPlist_of_getElem? hpt, ok_bind]
  apply forLoop_of_inv (fun j s' => ∃ more, IsExtension w ρ labels s₀ (new ++ more) s'
    ∧ IsSwept ρ labels (labs.take (j - 1)) pt s')
  . refine ⟨[], ?_, ?_⟩
    . rw [append_nil]
      exact h
    . intro oj hoj
      cases hoj
  . intro j s₁ hj hlt h₁
    rcases h₁ with ⟨more, hmore⟩
    have hlt' : j - 1 < labs.length := by omega
    have helm := elmPlist_of_getElem? (getElem?_eq_getElem hlt')
    rw [Nat.sub_add_cancel hj] at helm
    rw [helm, ok_bind]
    rcases hlabs _ (getElem_mem hlt') with ⟨lj, hlj⟩
    have hmem := h.subset hmore.1 (mem_of_getElem? hpt)
    rcases addImage_spec hmore.1 hlj (show 0 < i + 1 by omega) hmem with ⟨s₂, h₂⟩
    refine ⟨s₂, h₂.1, ?_⟩
    rcases h₂.2 with ⟨more', hmore'⟩
    refine ⟨more ++ more', ?_, ?_⟩
    . rw [← append_assoc]
      exact hmore'.1
    . intro oj hoj lj' hlj'
      rw [show j + 1 - 1 = j - 1 + 1 by omega, take_succ_eq_append_getElem hlt',
        mem_append, mem_singleton] at hoj
      cases hoj with
      | inl hoj =>
        apply hmore.1.subset hmore'.1
        exact hmore.2 oj hoj lj' hlj'
      | inr hoj =>
        rw [hoj, hlj.2.1] at hlj'
        cases hlj'
        exact hmore'.2
  . intro s₁ h₁
    rcases h₁ with ⟨more, hmore⟩
    refine ⟨more, hmore.1, ?_⟩
    have := hmore.2
    rw [Nat.add_sub_cancel_left, take_length] at this
    exact this

theorem IsExtension.length_le (h : IsExtension w ρ labels s₀ new s)
    : new.length ≤ PermTnum.maxDegPerm4 w := by
  have hsub : new.toFinset ⊆ Finset.Icc 1 (PermTnum.maxDegPerm4 w : Int) := by
    intro x hx
    rw [mem_toFinset] at hx
    rw [Finset.mem_Icc]
    have hpos := (h.isPoint x (by rw [h.orbit_eq]; exact mem_append_right _ hx)).1
    exact ⟨by omega, h.le_maxDeg x hx⟩
  have hcard := Finset.card_le_card hsub
  rw [toFinset_card_of_nodup h.nodup, Int.card_Icc] at hcard
  omega

theorem addOldImages_spec (h : IsExtension w ρ labels s₀ [] s)
    (hlabs : AreLabels labels s₀.heap labs)
    : ∃ s', forLoop (addImages w labels labs) s₀.orbit.length 1 s = .ok s'
        ∧ ∃ new, IsExtension w ρ labels s₀ new s'
          ∧ ∀ pt ∈ s₀.orbit, IsSwept ρ labels labs pt s' := by
  apply forLoop_of_inv (fun i s' => ∃ new, IsExtension w ρ labels s₀ new s'
    ∧ ∀ pt ∈ s₀.orbit.take (i - 1), IsSwept ρ labels labs pt s')
  . refine ⟨[], h, ?_⟩
    intro pt hpt
    cases hpt
  . intro i s₁ hi hlt h₁
    rcases h₁ with ⟨new, hnew⟩
    have hlt' : i - 1 < s₀.orbit.length := by omega
    have hpt : s₁.orbit[i - 1]? = some s₀.orbit[i - 1] := by
      rw [hnew.1.orbit_eq, getElem?_append_left hlt', getElem?_eq_getElem hlt']
    have himages := addImages_spec hnew.1 hlabs hpt
    rw [Nat.sub_add_cancel hi] at himages
    rcases himages with ⟨s₂, h₂⟩
    refine ⟨s₂, h₂.1, ?_⟩
    rcases h₂.2 with ⟨more, hmore⟩
    refine ⟨new ++ more, hmore.1, ?_⟩
    intro pt hpt
    rw [show i + 1 - 1 = i - 1 + 1 by omega, take_succ_eq_append_getElem hlt',
      mem_append, mem_singleton] at hpt
    cases hpt with
    | inl hpt => exact (hnew.2 pt hpt).mono (hnew.1.subset hmore.1)
    | inr hpt =>
      rw [hpt]
      exact hmore.2
  . intro s₁ h₁
    rw [Nat.add_sub_cancel_left, take_length] at h₁
    exact h₁

theorem addNewImages_spec (h : IsExtension w ρ labels s₀ new s)
    (hlabs : AreLabels labels s₀.heap labs) {fuel k : Nat} (hk : k ≤ new.length)
    (hfuel : PermTnum.maxDegPerm4 w < k + fuel)
    (hswept : ∀ pt ∈ new.take k, IsSwept ρ labels labs pt s)
    : ∃ s', addNewImages w labels labs fuel (s₀.orbit.length + k + 1) s = .ok s'
        ∧ ∃ more, IsExtension w ρ labels s₀ (new ++ more) s'
          ∧ ∀ pt ∈ new ++ more, IsSwept ρ labels labs pt s' := by
  have hlen : s.len2 = s₀.orbit.length + new.length := by
    rw [h.len2_eq, h.orbit_eq, length_append]
  have hle := h.length_le
  induction fuel generalizing k new s with
  | zero => omega
  | succ fuel ih =>
    unfold addNewImages
    split
    . next hlt =>
      have hlt' : k < new.length := by omega
      have hpt : s.orbit[s₀.orbit.length + k]? = some new[k] := by
        rw [h.orbit_eq, getElem?_append_right (by omega), Nat.add_sub_cancel_left,
          getElem?_eq_getElem hlt']
      rcases addImages_spec h hlabs hpt with ⟨s₁, h₁⟩
      rw [h₁.1, ok_bind]
      rcases h₁.2 with ⟨more, hmore⟩
      have hnext := ih hmore.1 (k := k + 1) (by rw [length_append]; omega) (by omega) ?_
        (by rw [hmore.1.len2_eq, hmore.1.orbit_eq, length_append]) hmore.1.length_le
      . rcases hnext with ⟨s₂, h₂⟩
        refine ⟨s₂, h₂.1, ?_⟩
        rcases h₂.2 with ⟨more', hmore'⟩
        refine ⟨more ++ more', ?_, ?_⟩
        . rw [← append_assoc]
          exact hmore'.1
        . rw [← append_assoc]
          exact hmore'.2
      . intro pt hpt'
        rw [take_append_of_le_length (by omega), take_succ_eq_append_getElem hlt',
          mem_append, mem_singleton] at hpt'
        cases hpt' with
        | inl hpt' => exact (hswept pt hpt').mono (h.subset hmore.1)
        | inr hpt' =>
          rw [hpt']
          exact hmore.2
    . next hge =>
      refine ⟨s, rfl, [], ?_, ?_⟩
      . rw [append_nil]
        exact h
      . rw [append_nil]
        rw [take_of_length_le (by omega)] at hswept
        exact hswept

end Loops

section Result

def Follows (ρ : Nat → Equiv.Perm Nat) (transversal : List (Option Nat)) (x y : Int) : Prop :=
  ∃ lj, entryAt transversal x.toNat = some lj ∧ y = pointImage (ρ lj) x

def IsBoundAt {α : Type} (list : List (Option α)) (orbit : List Int) : Prop :=
  ∀ x : Nat, 0 < x → ((entryAt list x).isSome = true ↔ (x : Int) ∈ orbit)

def ReachesBase (ρ : Nat → Equiv.Perm Nat) (transversal : List (Option Nat)) (orbit : List Int)
    (base : Int) : Prop :=
  ∀ x ∈ orbit, Relation.ReflTransGen (Follows ρ transversal) x base

structure IsExtended (ρ : Nat → Equiv.Perm Nat) (labels genlabels : List Nat) (orbit : List Int)
    (transversal : List (Option Nat)) (s : AgestState) : Prop where
  start : orbit <+: s.orbit
  nodup : orbit.Nodup → s.orbit.Nodup
  closed : ∀ oj ∈ genlabels, ∀ lj, labels[oj - 1]? = some lj → IsClosedUnder s.orbit (ρ lj)
  translabels_bound : IsBoundAt s.translabels s.orbit
  transversal_bound : IsBoundAt transversal orbit → IsBoundAt s.transversal s.orbit
  earlier : ∀ k x, orbit.length ≤ k → s.orbit[k]? = some x
    → ∃ lj, entryAt s.transversal x.toNat = some lj
      ∧ ∃ i, i < k ∧ s.orbit[i]? = some (pointImage (ρ lj) x)
  reachesBase : ∀ base, IsBoundAt transversal orbit
    → ReachesBase ρ transversal orbit base → ReachesBase ρ s.transversal s.orbit base

section

variable (h : IsExtension w ρ labels s₀ new s)

include h

theorem IsExtension.earlier {k : Nat} {x : Int} (hk : s₀.orbit.length ≤ k)
    (hx : s.orbit[k]? = some x)
    : ∃ lj, entryAt s.transversal x.toNat = some lj
        ∧ ∃ i, i < k ∧ s.orbit[i]? = some (pointImage (ρ lj) x) := by
  rw [h.orbit_eq, getElem?_append_right hk] at hx
  obtain ⟨oj, lj, _, _, htv, hedge⟩ := h.edge _ x hx
  refine ⟨lj, htv, ?_⟩
  have htake : s₀.orbit ++ new.take (k - s₀.orbit.length) = s.orbit.take k := by
    rw [h.orbit_eq, take_append, take_of_length_le hk]
  rw [htake, mem_iff_getElem?] at hedge
  rcases hedge with ⟨i, hi⟩
  rw [getElem?_take] at hi
  split at hi
  . next hik => exact ⟨i, hik, hi⟩
  . cases hi

theorem IsExtension.kept_of_mem {x : Int} (hx : x ∈ s₀.orbit)
    : entryAt s.transversal x.toNat = entryAt s₀.transversal x.toNat := by
  have hpos := (h.isPoint x (by rw [h.orbit_eq]; exact mem_append_left _ hx)).1
  have hnew : (x.toNat : Int) ∉ new := by
    intro hmem
    apply h.disjoint _ hmem
    rw [Int.toNat_of_nonneg (by omega)]
    exact hx
  exact (h.kept x.toNat (by omega) hnew).2

theorem IsExtension.transversal_isBoundAt (hbound : IsBoundAt s₀.transversal s₀.orbit)
    : IsBoundAt s.transversal s.orbit := by
  intro x hx
  rw [h.orbit_eq, mem_append]
  by_cases hnew : (x : Int) ∈ new
  . simp only [hnew, or_true, iff_true]
    rcases mem_iff_getElem?.mp hnew with ⟨k, hk⟩
    obtain ⟨oj, lj, _, _, htv, _⟩ := h.edge k x hk
    rw [Int.toNat_natCast] at htv
    rw [htv]
    rfl
  . rw [(h.kept x hx hnew).2, hbound x hx]
    simp [hnew]

theorem IsExtension.reachesBase {base : Int} (hbound : IsBoundAt s₀.transversal s₀.orbit)
    (hreaches : ReachesBase ρ s₀.transversal s₀.orbit base)
    : ReachesBase ρ s.transversal s.orbit base := by
  have hold : ∀ x ∈ s₀.orbit, Relation.ReflTransGen (Follows ρ s.transversal) x base := by
    intro x hx
    have hpath := hreaches x hx
    clear hreaches
    induction hpath using Relation.ReflTransGen.head_induction_on with
    | refl => exact Relation.ReflTransGen.refl
    | @head a b hstep hpath ih =>
      rcases hstep with ⟨lj, hlj⟩
      have hpos : 0 < b := by
        rw [hlj.2]
        apply pointImage_pos
      have hstep' : Follows ρ s.transversal a b := by
        refine ⟨lj, ?_, hlj.2⟩
        rw [h.kept_of_mem hx]
        exact hlj.1
      cases Relation.ReflTransGen.cases_head hpath with
      | inl hbase =>
        rw [← hbase]
        exact Relation.ReflTransGen.single hstep'
      | inr hnext =>
        -- The path goes on, so the transversal is bound at the next point.
        have hmem : b ∈ s₀.orbit := by
          obtain ⟨d, ⟨lj', hlj', _⟩, _⟩ := hnext
          have := (hbound b.toNat (by omega)).mp (by rw [hlj']; rfl)
          rw [Int.toNat_of_nonneg (by omega)] at this
          exact this
        exact Relation.ReflTransGen.head hstep' (ih hmem)
  have hall : ∀ (k : Nat) (x : Int), s.orbit[k]? = some x
      → Relation.ReflTransGen (Follows ρ s.transversal) x base := by
    intro k
    induction k using Nat.strong_induction_on with
    | _ k ih =>
      intro x hx
      by_cases hk : k < s₀.orbit.length
      . apply hold
        rw [h.orbit_eq, getElem?_append_left hk] at hx
        exact mem_of_getElem? hx
      . rcases h.earlier (by omega) hx with ⟨lj, hlj⟩
        rcases hlj.2 with ⟨i, hi⟩
        apply Relation.ReflTransGen.head ⟨lj, hlj.1, rfl⟩
        exact ih i hi.1 _ hi.2
  intro x hx
  cases mem_iff_getElem?.mp hx with
  | intro k hk => exact hall k x hk

end

theorem extendOrbit_spec {newlabs genlabels oldlabs : List Nat}
    (hheap : IsPermHeap w s₀.heap ρ) (hgenlabels : AreLabels labels s₀.heap genlabels)
    (hnewlabs : AreLabels labels s₀.heap newlabs)
    (hsplit : ∀ oj ∈ genlabels, oj ∈ oldlabs ∨ oj ∈ newlabs)
    (hpoints : ∀ x ∈ s₀.orbit, IsPoint w x)
    (hclosed : ∀ oj ∈ oldlabs, ∀ lj, labels[oj - 1]? = some lj → IsClosedUnder s₀.orbit (ρ lj))
    (hbound : IsBoundAt s₀.translabels s₀.orbit)
    : ∃ s, extendOrbit w newlabs labels genlabels s₀ = .ok s
        ∧ IsExtended ρ labels genlabels s₀.orbit s₀.transversal s := by
  have hstart : IsExtension w ρ labels s₀ [] { s₀ with len2 := s₀.orbit.length } := by
    constructor
    . exact ⟨ρ, hheap, Extends.refl⟩
    . rw [append_nil]
    . rfl
    . exact nodup_nil
    . intro x hx
      cases hx
    . exact hpoints
    . intro x hx
      cases hx
    . exact hbound
    . intro x _ _
      exact ⟨rfl, rfl⟩
    . intro k x hx
      cases hx
  unfold extendOrbit
  dsimp only
  apply exists_bind_of (addOldImages_spec hstart hnewlabs)
  intro s₁ h₁
  rcases h₁ with ⟨new, hnew⟩
  rcases addNewImages_spec hnew.1 hgenlabels (Nat.zero_le new.length)
    (show PermTnum.maxDegPerm4 w < 0 + (PermTnum.maxDegPerm4 w + 1) by omega)
    (fun pt hpt => by cases hpt) with ⟨s, hs⟩
  refine ⟨s, hs.1, ?_⟩
  rcases hs.2 with ⟨more, hmore⟩
  have hsub := hnew.1.subset hmore.1
  have hext := hmore.1
  constructor
  . rw [hext.orbit_eq]
    apply prefix_append
  . intro hnodup
    rw [hext.orbit_eq, nodup_append]
    refine ⟨hnodup, hext.nodup, ?_⟩
    intro a ha b hb heq
    rw [← heq] at hb
    exact hext.disjoint a hb ha
  . intro oj hoj lj hlj
    -- All points have their images under the label in the orbit.
    have hsymm : IsClosedUnder s.orbit (ρ lj).symm := by
      intro x hx
      rw [hext.orbit_eq, mem_append] at hx
      cases hx with
      | inl hx =>
        cases hsplit oj hoj with
        | inl hold =>
          have hpre := (hclosed oj hold lj hlj).symm (fun y hy => (hpoints y hy).1) x hx
          rw [hext.orbit_eq]
          exact mem_append_left _ hpre
        | inr hnewlab => exact hsub (hnew.2 x hx oj hnewlab lj hlj)
      | inr hx => exact hmore.2 x hx oj hoj lj hlj
    have := hsymm.symm (fun y hy => (hext.isPoint y hy).1)
    rw [Equiv.symm_symm] at this
    exact this
  . exact hext.isBound_iff
  . exact hext.transversal_isBoundAt
  . intro k x hk hx
    exact hext.earlier hk hx
  . intro base hbound' hreaches
    exact hext.reachesBase hbound' hreaches

end Result

namespace PermOps

/--
The orbit of a stabilizer chain that is closed under the old labels is extended to one that is
closed under all labels, for `AGEST` and `AGESTC`.
-/
theorem agest_agestc_spec {heap : PermHeap} (hheap : IsPermHeap w heap ρ) {orbit : List Int}
    {newlabs labels genlabels : List Nat} {translabels transversal : List (Option Nat)}
    (oldlabs : List Nat) (hgenlabels : AreLabels labels heap genlabels)
    (hnewlabs : AreLabels labels heap newlabs)
    (hsplit : ∀ oj ∈ genlabels, oj ∈ oldlabs ∨ oj ∈ newlabs)
    (hpoints : ∀ x ∈ orbit, IsPoint w x)
    (hclosed : ∀ oj ∈ oldlabs, ∀ lj, labels[oj - 1]? = some lj → IsClosedUnder orbit (ρ lj))
    (hbound : IsBoundAt translabels orbit)
    : (∃ s, agest w heap orbit newlabs labels translabels transversal genlabels = .ok s
          ∧ IsExtended ρ labels genlabels orbit transversal s)
        ∧ ∀ cycles, ∃ s,
          agestc w heap orbit newlabs cycles labels translabels transversal genlabels = .ok s
            ∧ IsExtended ρ labels genlabels orbit transversal s := by
  constructor
  . apply extendOrbit_spec hheap hgenlabels hnewlabs hsplit hpoints hclosed hbound
  . intro cycles
    apply extendOrbit_spec hheap hgenlabels hnewlabs hsplit hpoints hclosed hbound

theorem agest_agestc_spec_exampleHeap
    : (∃ s, agest .int8 exampleHeap [1, 2] [3] [0, 1, 2] [some 1, some 2] [some 0, some 1] [2, 3]
            = .ok s
          ∧ IsExtended exampleAction [0, 1, 2] [2, 3] [1, 2] [some 0, some 1] s)
        ∧ ∀ cycles, ∃ s,
          agestc .int8 exampleHeap [1, 2] [3] cycles [0, 1, 2] [some 1, some 2] [some 0, some 1]
              [2, 3] = .ok s
            ∧ IsExtended exampleAction [0, 1, 2] [2, 3] [1, 2] [some 0, some 1] s := by
  have hlabel : ∀ oj ∈ [2, 3], ∃ lj, IsLabel [0, 1, 2] exampleHeap oj lj := by
    intro oj hoj
    rw [List.mem_pair] at hoj
    cases hoj with
    | inl hoj => exact ⟨1, by rw [hoj]; decide, by rw [hoj]; rfl, by decide⟩
    | inr hoj => exact ⟨2, by rw [hoj]; decide, by rw [hoj]; rfl, by decide⟩
  apply agest_agestc_spec isPermHeap_exampleHeap [2] hlabel
  . intro oj hoj
    apply hlabel
    rw [List.mem_singleton] at hoj
    rw [hoj]
    decide
  . decide
  . intro x hx
    rw [List.mem_pair] at hx
    cases hx with
    | inl hx => rw [hx]; exact ⟨by decide, by decide⟩
    | inr hx => rw [hx]; exact ⟨by decide, by decide⟩
  . intro oj hoj lj hlj
    rw [List.mem_singleton] at hoj
    rw [hoj] at hlj
    cases hlj
    intro x hx
    rw [List.mem_pair] at hx
    cases hx with
    | inl hx => rw [hx]; decide
    | inr hx => rw [hx]; decide
  . intro x hx
    match x with
    | 1 => decide
    | 2 => decide
    | x + 3 =>
      simp [entryAt]
      omega

end PermOps
