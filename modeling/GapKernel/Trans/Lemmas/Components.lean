import GapKernel.PPerm.Lemmas.ComponentsSpec
import GapKernel.Trans.Impl.Components
import GapKernel.Trans.Lemmas.Derived

open Function FunctionalGraph TransImpl List
open Nat (succ_ne_zero lt_succ_of_le)
open PPermComponents (setAll length_setAll getElem?_setAll readEntry_of_eq_some)

namespace TransComponents

variable {σ : Type} {φ : Nat → Nat} {ptf seen : List Nat} {deg : Nat}

section Loops

structure IsGraph (φ : Nat → Nat) (ptf : List Nat) (deg : Nat) : Prop where
  read : ∀ x, x < deg → readEntry ptf x = .ok (φ x)
  lt : ∀ x, x < deg → φ x < deg
  fix : ∀ x, deg ≤ x → φ x = x

variable {x : Nat}

theorem IsGraph.iterate_lt (hg : IsGraph φ ptf deg) (hx : x < deg) (k : Nat)
    : φ^[k] x < deg :=
  iterate_mem (p := (· < deg)) hg.lt hx k

theorem IsGraph.mem_lt (hg : IsGraph φ ptf deg) {k y : Nat} (hx : x < deg)
    (hy : y ∈ List.iterate φ x k) : y < deg := by
  obtain ⟨t, _, rfl⟩ := mem_iterate.mp hy
  exact hg.iterate_lt hx t

theorem IsGraph.iterate_of_le (hg : IsGraph φ ptf deg) (hx : deg ≤ x) (k : Nat)
    : φ^[k] x = x :=
  iterate_fixed (hg.fix x hx) k

def HasBody (body : Nat → List Nat × σ → Result (List Nat × σ)) (v : Nat)
    (upd : Nat → σ → Result σ) : Prop :=
  ∀ y seen s, y < seen.length → body y (seen, s) = (do return (seen.set y v, ← upd y s))

theorem hasBody_setLabel {v : Nat} (hv : v < 2 ^ 32) (upd : Nat → σ → σ)
    : HasBody (setLabel v upd) v (fun y s => .ok (upd y s)) := by
  intro y seen s hy
  unfold setLabel
  rw [writeEntry_perm4 hy hv]
  rfl

variable {body : Nat → List Nat × σ → Result (List Nat × σ)} {upd : Nat → σ → Result σ}
  {label v x k : Nat}

theorem foldlM_ok {α : Type} (g : α → σ → σ) (l : List α) (s : σ)
    : l.foldlM (fun s y => (.ok (g y s) : Result σ)) s = .ok (l.foldl (fun s y => g y s) s) := by
  induction l generalizing s with
  | nil => rfl
  | cons y l ih =>
    rw [foldlM_cons, ok_bind, ih]
    rfl

theorem foldl_succ {α : Type} (l : List α) (n : Nat)
    : l.foldl (fun s _ => s + 1) n = n + l.length := by
  induction l generalizing n with
  | nil => rfl
  | cons y l ih =>
    rw [foldl_cons, ih, length_cons]
    omega

theorem walk_rest (hne : v ≠ label) (hx : x < seen.length)
    (hnodup : (List.iterate φ x (k + 1)).Nodup)
    (hpts : ∀ y ∈ List.iterate φ x (k + 1), y ≠ x → seen[y]? = some label)
    (hend : φ^[k + 1] x ∈ List.iterate φ x (k + 1) ∨ seen[φ^[k + 1] x]? ≠ some label)
    : (List.iterate φ (φ x) k).Nodup
      ∧ (∀ y ∈ List.iterate φ (φ x) k, (seen.set x v)[y]? = some label)
      ∧ (φ^[k] (φ x) ∈ List.iterate φ (φ x) k ∨ (seen.set x v)[φ^[k] (φ x)]? ≠ some label) := by
  have hiter : List.iterate φ x (k + 1) = x :: List.iterate φ (φ x) k := rfl
  rw [hiter] at hnodup hpts hend
  obtain ⟨hxl, hnodup'⟩ := nodup_cons.mp hnodup
  refine ⟨hnodup', ?_, ?_⟩
  . intro y hy
    have hyx : y ≠ x := by
      intro heq
      rw [heq] at hy
      exact hxl hy
    rw [getElem?_set_ne hyx.symm]
    exact hpts y (mem_cons_of_mem x hy) hyx
  . by_cases heq : φ^[k] (φ x) = x
    . right
      rw [heq, getElem?_set_self hx]
      exact fun h => hne (Option.some.inj h)
    . rw [getElem?_set_ne (fun h => heq h.symm)]
      exact hend.imp_left fun h => (mem_cons.mp h).resolve_left heq

variable {fuel : Nat}

section

variable (hg : IsGraph φ ptf deg) (hbody : HasBody body v upd) (hne : v ≠ label) (hx : x < deg)
  (hlen : deg ≤ seen.length)

include hg hbody hne hx hlen

theorem labelLoop_spec (hnodup : (List.iterate φ x k).Nodup)
    (hpts : ∀ y ∈ List.iterate φ x k, seen[y]? = some label)
    (hend : φ^[k] x ∈ List.iterate φ x k ∨ seen[φ^[k] x]? ≠ some label) (hfuel : k < fuel) (s : σ)
    : labelLoop ptf label body fuel x (seen, s) = (do
        let s ← (List.iterate φ x k).foldlM (fun s y => upd y s) s
        return (φ^[k] x, setAll v (List.iterate φ x k) seen, s)) := by
  obtain ⟨fuel, rfl⟩ : ∃ m, fuel = m + 1 := ⟨fuel - 1, by omega⟩
  induction k generalizing x seen s fuel with
  | zero =>
    have hend : seen[x]? ≠ some label := hend.resolve_left not_mem_nil
    have hget := getElem?_eq_getElem (show x < seen.length by omega)
    unfold labelLoop
    dsimp only
    rw [readEntry_of_eq_some hget, ok_bind, if_neg]
    . rfl
    . intro heq
      rw [hget, heq] at hend
      exact hend rfl
  | succ k ih =>
    have hlt : x < seen.length := by omega
    have hfirst : x ∈ List.iterate φ x (k + 1) := mem_cons_self
    obtain ⟨hnodup', hpts', hend'⟩ := walk_rest hne hlt hnodup (fun y hy _ => hpts y hy) hend
    obtain ⟨fuel, rfl⟩ : ∃ m, fuel = m + 1 := ⟨fuel - 1, by omega⟩
    unfold labelLoop
    dsimp only
    rw [readEntry_of_eq_some (hpts x hfirst), ok_bind, if_pos rfl, hbody x seen s hlt,
      List.iterate, foldlM_cons]
    cases hupd : upd x s with
    | error e => rfl
    | ok s' =>
      have hstep := ih (hg.lt x hx) (by rwa [length_set]) hnodup' hpts' hend' s' fuel
        (by omega)
      rw [ok_bind]
      change (readEntry ptf x >>= fun y => labelLoop ptf label body (fuel + 1) y (seen.set x v, s'))
        = _
      rw [hg.read x hx, ok_bind, hstep]
      rfl

theorem doLabelLoop_spec (hk : 0 < k) (hnodup : (List.iterate φ x k).Nodup)
    (hpts : ∀ y ∈ List.iterate φ x k, y ≠ x → seen[y]? = some label)
    (hend : φ^[k] x ∈ List.iterate φ x k ∨ seen[φ^[k] x]? ≠ some label) (hfuel : k ≤ fuel) (s : σ)
    : doLabelLoop ptf label body fuel x (seen, s) = (do
        let s ← (List.iterate φ x k).foldlM (fun s y => upd y s) s
        return (φ^[k] x, setAll v (List.iterate φ x k) seen, s)) := by
  obtain ⟨k, rfl⟩ := Nat.exists_eq_succ_of_ne_zero (Nat.ne_of_gt hk)
  have hlt : x < seen.length := by omega
  obtain ⟨hnodup', hpts', hend'⟩ := walk_rest hne hlt hnodup hpts hend
  unfold doLabelLoop
  rw [hbody x seen s hlt, List.iterate, foldlM_cons]
  cases hupd : upd x s with
  | error e => rfl
  | ok s' =>
    have hstep := labelLoop_spec hg hbody hne (hg.lt x hx) (by rwa [length_set]) hnodup' hpts'
      hend' hfuel s'
    rw [ok_bind]
    change (readEntry ptf x >>= fun y => labelLoop ptf label body fuel y (seen.set x v, s')) = _
    rw [hg.read x hx, ok_bind, hstep]
    rfl

end

variable (hg : IsGraph φ ptf deg) (hv : v < 2 ^ 32) (hne : v ≠ label)

include hg hv hne

theorem labelLoop_setLabel (upd : Nat → σ → σ) (hx : x < deg) (hlen : deg ≤ seen.length)
    (hnodup : (List.iterate φ x k).Nodup)
    (hpts : ∀ y ∈ List.iterate φ x k, seen[y]? = some label)
    (hend : φ^[k] x ∈ List.iterate φ x k ∨ seen[φ^[k] x]? ≠ some label) (hfuel : k < fuel) (s : σ)
    : labelLoop ptf label (setLabel v upd) fuel x (seen, s)
        = .ok (φ^[k] x, setAll v (List.iterate φ x k) seen,
          (List.iterate φ x k).foldl (fun s y => upd y s) s) := by
  rw [labelLoop_spec hg (hasBody_setLabel hv upd) hne hx hlen hnodup hpts hend hfuel, foldlM_ok]
  rfl

theorem doLabelLoop_setLabel (upd : Nat → σ → σ) (hx : x < deg) (hlen : deg ≤ seen.length)
    (hk : 0 < k) (hnodup : (List.iterate φ x k).Nodup)
    (hpts : ∀ y ∈ List.iterate φ x k, y ≠ x → seen[y]? = some label)
    (hend : φ^[k] x ∈ List.iterate φ x k ∨ seen[φ^[k] x]? ≠ some label) (hfuel : k ≤ fuel) (s : σ)
    : doLabelLoop ptf label (setLabel v upd) fuel x (seen, s)
        = .ok (φ^[k] x, setAll v (List.iterate φ x k) seen,
          (List.iterate φ x k).foldl (fun s y => upd y s) s) := by
  rw [doLabelLoop_spec hg (hasBody_setLabel hv upd) hne hx hlen hk hnodup hpts hend hfuel,
    foldlM_ok]
  rfl

end Loops

section Found

variable {nr : Nat} {label : Nat → Nat} {i k : Nat}

structure IsFound (φ : Nat → Nat) (deg nr : Nat) (label : Nat → Nat) : Prop
    extends IsLabelling φ nr label where
  lt : ∀ x, label x ≠ 0 → x < deg

theorem isFound_zero (φ : Nat → Nat) (deg : Nat) : IsFound φ deg 0 (fun _ => 0) where
  toIsLabelling := isLabelling_zero φ
  lt := fun _ hx => absurd rfl hx

structure IsNewWalk (φ : Nat → Nat) (deg : Nat) (label : Nat → Nat) (i k : Nat) : Prop
    extends IsFirstWalk φ (label · ≠ 0) i k where
  le : k ≤ deg
  lt : ∀ y ∈ List.iterate φ i k, y < deg
  end_lt : φ^[k] i < deg
  first : i ∈ List.iterate φ i k

theorem exists_newWalk (hg : IsGraph φ ptf deg) (hi : i < deg) (h0 : label i = 0)
    : ∃ k, IsNewWalk φ deg label i k := by
  have hs : ∀ y ∈ Finset.range deg, φ y ∈ Finset.range deg := fun y hy =>
    Finset.mem_range.mpr (hg.lt y (Finset.mem_range.mp hy))
  have hmem := Finset.mem_range.mpr hi
  obtain ⟨k, hw⟩ := @exists_firstWalk _ φ _ (label · ≠ 0) hs _ hmem (not_not_intro h0)
  refine ⟨k, hw, ?_, fun y hy => hg.mem_lt hi hy, hg.iterate_lt hi k, ?_⟩
  . have hle := hw.length_le hs hmem
    rwa [Finset.card_range] at hle
  . exact mem_iterate.mpr ⟨0, hw.pos, rfl⟩

theorem IsNewWalk.label_eq (hw : IsNewWalk φ deg label i k) {y : Nat}
    (hy : y ∈ List.iterate φ i k) : label y = 0 :=
  not_not.mp (hw.new y hy)

section

variable (h : IsFound φ deg nr label) (hw : IsNewWalk φ deg label i k)

include h hw

theorem IsFound.old (hstop : label (φ^[k] i) ≠ 0)
    : IsFound φ deg nr (paint label (List.iterate φ i k) (label (φ^[k] i))) where
  toIsLabelling := h.paint_old hw.toIsFirstWalk hstop
  lt := by
    intro x hx
    rw [paint_ne_zero_iff hstop] at hx
    exact hx.elim (hw.lt x) (h.lt x)

theorem IsFound.new (hstop : φ^[k] i ∈ List.iterate φ i k)
    : IsFound φ deg (nr + 1) (paint label (List.iterate φ i k) (nr + 1)) where
  toIsLabelling := h.paint_new hw.toIsFirstWalk hstop
  lt := by
    intro x hx
    rw [paint_ne_zero_iff (succ_ne_zero nr)] at hx
    exact hx.elim (hw.lt x) (h.lt x)

end

theorem found_succ (hdone : ∀ x, x < i → label x ≠ 0) (hw : IsNewWalk φ deg label i k) {v : Nat}
    (hv : v ≠ 0) : ∀ x, x < i + 1 → paint label (List.iterate φ i k) v x ≠ 0 := by
  intro x hx
  rw [paint_ne_zero_iff hv]
  by_cases hxi : x = i
  . rw [hxi]
    exact .inl hw.first
  . exact .inr (hdone x (by omega))

theorem found_skip (hdone : ∀ x, x < i → label x ≠ 0) (hi : label i ≠ 0)
    : ∀ x, x < i + 1 → label x ≠ 0 := by
  intro x hx
  by_cases hxi : x = i
  . rwa [hxi]
  . exact hdone x (by omega)

end Found

section Components

variable {i : Nat} {label : Nat → Nat}

structure IsNrState (φ : Nat → Nat) (deg i : Nat) (label : Nat → Nat) (s : List Nat × Nat × Nat)
    : Prop where
  found : IsFound φ deg s.2.2 label
  done : ∀ x, x < i → label x ≠ 0
  length : s.1.length = deg
  walks : s.2.1 ≤ i
  seen : ∀ x, x < deg → ∃ u, s.1[x]? = some u ∧ (u = 0 ↔ label x = 0) ∧ u ≤ s.2.1

theorem nrRound_spec (hg : IsGraph φ ptf deg) (hdeg : deg < 2 ^ 32) (hi : i < deg)
    {s : List Nat × Nat × Nat} (hs : IsNrState φ deg i label s)
    : ∃ s', nrRound ptf deg i s = .ok s' ∧ ∃ label', IsNrState φ deg (i + 1) label' s' := by
  obtain ⟨u, hu, hu0, _⟩ := hs.seen i hi
  unfold nrRound
  dsimp only
  rw [readEntry_of_eq_some hu, ok_bind]
  split
  . next h0 =>
    have hwalks := hs.walks
    have hlen := hs.length
    obtain ⟨k, hw⟩ := exists_newWalk hg hi (hu0.mp h0)
    have hpts : ∀ y ∈ List.iterate φ i k, s.1[y]? = some 0 := by
      intro y hy
      obtain ⟨v, hv, hv0, _⟩ := hs.seen y (hw.lt y hy)
      rw [hv, hv0.mpr (hw.label_eq hy)]
    have hold : label (φ^[k] i) ≠ 0 → s.1[φ^[k] i]? ≠ some 0 := by
      intro hne heq
      obtain ⟨v, hv, hv0, _⟩ := hs.seen _ hw.end_lt
      rw [hv] at heq
      exact hne (hv0.mp (Option.some.inj heq))
    have hrun := labelLoop_setLabel hg (show s.2.1 + 1 < 2 ^ 32 by omega) (succ_ne_zero _)
      (fun _ _ => ()) hi (Nat.le_of_eq hlen.symm) hw.nodup hpts (hw.stop.symm.imp_right hold)
      (lt_succ_of_le hw.le) ()
    have hget : ∀ x, x < deg → (setAll (s.2.1 + 1) (List.iterate φ i k) s.1)[x]?
        = if x ∈ List.iterate φ i k then some (s.2.1 + 1) else s.1[x]? := by
      intro x hx
      apply getElem?_setAll
      rwa [hlen]
    -- The labels are right, whichever number the component has.
    have hseen : ∀ v, v ≠ 0 → ∀ x, x < deg → ∃ u,
        (setAll (s.2.1 + 1) (List.iterate φ i k) s.1)[x]? = some u
          ∧ (u = 0 ↔ paint label (List.iterate φ i k) v x = 0) ∧ u ≤ s.2.1 + 1 := by
      intro v hv x hx
      rw [hget x hx]
      by_cases hmem : x ∈ List.iterate φ i k
      . rw [if_pos hmem, paint_of_mem hmem]
        exact ⟨_, rfl, iff_of_false (succ_ne_zero _) hv, Nat.le_refl _⟩
      . rw [if_neg hmem, paint_of_not_mem hmem]
        obtain ⟨u, hu, hu0, hle⟩ := hs.seen x hx
        exact ⟨u, hu, hu0, by omega⟩
    have hend := hget _ hw.end_lt
    rw [hrun, ok_bind]
    dsimp only
    by_cases hmem : φ^[k] i ∈ List.iterate φ i k
    . rw [if_pos hmem] at hend
      rw [readEntry_of_eq_some hend, ok_bind, if_pos rfl]
      exact ⟨_, rfl, _, hs.found.new hw hmem, found_succ hs.done hw (succ_ne_zero _),
        by rw [length_setAll, hlen], Nat.succ_le_succ hwalks, hseen _ (succ_ne_zero _)⟩
    . have hstop := hw.stop.resolve_right hmem
      obtain ⟨v, hv, _, hle⟩ := hs.seen _ hw.end_lt
      rw [if_neg hmem, hv] at hend
      rw [readEntry_of_eq_some hend, ok_bind, if_neg (by omega)]
      exact ⟨_, rfl, _, hs.found.old hw hstop, found_succ hs.done hw hstop,
        by rw [length_setAll, hlen], Nat.succ_le_succ hwalks, hseen _ hstop⟩
  . next h0 =>
    exact ⟨s, rfl, label, hs.found, found_skip hs.done fun h => h0 (hu0.mpr h), hs.length,
      Nat.le_succ_of_le hs.walks, hs.seen⟩

structure IsFull (φ : Nat → Nat) (deg nr : Nat) (label : Nat → Nat) : Prop
    extends IsFound φ deg nr label where
  done : ∀ x, x < deg → label x ≠ 0

theorem IsFull.number_eq {nr nr' : Nat} {label' : Nat → Nat} (h : IsFull φ deg nr label)
    (h' : IsFull φ deg nr' label') : nr = nr' :=
  Nat.le_antisymm (h.number_le h'.toIsLabelling fun x hx => h'.done x (h.lt x hx))
    (h'.number_le h.toIsLabelling fun x hx => h.done x (h'.lt x hx))

theorem IsFound.nr_lt {nr : Nat} (h : IsFound φ deg nr label) (hi : i < deg) (h0 : label i = 0)
    : nr < deg := by
  have hpick : ∀ j : Fin nr, ∃ x, label x = j + 1 := fun j =>
    h.surj (j + 1) (Nat.succ_pos j) j.isLt
  choose pick hpick using hpick
  have hinj : Injective pick := by
    intro i j hij
    have heq := congrArg label hij
    rw [hpick, hpick] at heq
    exact Fin.ext (Nat.succ.inj heq)
  have hsub : Finset.univ.image pick ⊆ (Finset.range deg).erase i := by
    intro x hx
    obtain ⟨j, _, rfl⟩ := Finset.mem_image.mp hx
    have hne : label (pick j) ≠ 0 := by
      rw [hpick]
      exact succ_ne_zero j
    refine Finset.mem_erase.mpr ⟨?_, Finset.mem_range.mpr (h.lt _ hne)⟩
    intro heq
    rw [heq] at hne
    exact hne h0
  have hcard := Finset.card_le_card hsub
  rw [Finset.card_image_of_injective _ hinj, Finset.card_univ, Fintype.card_fin,
    Finset.card_erase_of_mem (Finset.mem_range.mpr hi), Finset.card_range] at hcard
  omega

theorem getElem?_resizeInitTmpTrans {x : Nat} (hx : x < deg)
    : (resizeInitTmpTrans deg)[x]? = some 0 :=
  getElem?_replicate_of_lt hx

theorem nrLoop_spec (hg : IsGraph φ ptf deg) (hdeg : deg < 2 ^ 32)
    : ∃ s, forLoop (nrRound ptf deg) deg 0 (resizeInitTmpTrans deg, 0, 0) = .ok s
        ∧ ∃ label, IsFull φ deg s.2.2 label := by
  apply forLoop_of_inv (fun i s => ∃ label, IsNrState φ deg i label s)
  . refine ⟨_, isFound_zero φ deg, fun x hx => absurd hx (Nat.not_lt_zero x),
      length_replicate, Nat.le_refl 0, ?_⟩
    intro x hx
    exact ⟨0, getElem?_resizeInitTmpTrans hx, Iff.rfl, Nat.le_refl 0⟩
  . intro i s _ hi ⟨label, hs⟩
    exact nrRound_spec hg hdeg (by omega) hs
  . intro s ⟨label, hs⟩
    refine ⟨label, hs.found, ?_⟩
    rw [← Nat.zero_add deg]
    exact hs.done

def pushPoint (y : Nat) (s : List Nat × Nat) : Result (List Nat × Nat) := do
  return (← setElmPlist s.1 s.2 (y + 1), s.2 + 1)

theorem hasBody_listPoint {v : Nat} (hv : v < 2 ^ 32) : HasBody (listPoint v) v pushPoint := by
  intro y seen s hy
  unfold listPoint pushPoint
  dsimp only
  cases setElmPlist s.1 s.2 (y + 1) with
  | error e => rfl
  | ok comp =>
    rw [ok_bind, writeEntry_perm4 hy hv]
    rfl

theorem foldlM_pushPoint (l comp : List Nat)
    : l.foldlM (fun s y => pushPoint y s) (comp ++ replicate l.length 0, comp.length + 1)
        = .ok (comp ++ l.map (· + 1), comp.length + l.length + 1) := by
  induction l generalizing comp with
  | nil => rfl
  | cons y l ih =>
    have hset : setElmPlist (comp ++ replicate (y :: l).length 0) (comp.length + 1) (y + 1)
        = .ok ((comp ++ [y + 1]) ++ replicate l.length 0) := by
      unfold setElmPlist
      rw [if_pos (by simp), length_cons, replicate_succ, Nat.add_sub_cancel,
        set_append_right _ _ (Nat.le_refl _), Nat.sub_self, set_cons_zero,
        append_assoc]
      rfl
    have hnext := ih (comp ++ [y + 1])
    rw [length_append, length_singleton] at hnext
    rw [foldlM_cons]
    unfold pushPoint at hnext ⊢
    rw [hset, ok_bind]
    dsimp only
    rw [pure_bind, hnext, append_assoc, map_cons, length_cons]
    congr 2
    omega

structure IsListed (φ : Nat → Nat) (deg : Nat) (label : Nat → Nat) (comps : List (List Nat))
    : Prop where
  found : IsFound φ deg comps.length label
  nodup : ∀ c ∈ comps, c.Nodup
  mem : ∀ j c, comps[j]? = some c → ∀ x, x ∈ c ↔ label x = j + 1

variable {comps : List (List Nat)} {k : Nat}

section

variable (h : IsListed φ deg label comps) (hw : IsNewWalk φ deg label i k)

include h hw

theorem IsListed.new (hstop : φ^[k] i ∈ List.iterate φ i k)
    : IsListed φ deg (paint label (List.iterate φ i k) (comps.length + 1))
        (comps ++ [List.iterate φ i k]) where
  found := by
    rw [length_append]
    exact h.found.new hw hstop
  nodup := by
    intro c hc
    cases mem_append.mp hc with
    | inl hc => exact h.nodup c hc
    | inr hc =>
      rw [mem_singleton.mp hc]
      exact hw.nodup
  mem := by
    intro j c hj x
    have hle := h.found.le x
    by_cases hlt : j < comps.length
    . rw [getElem?_append_left hlt] at hj
      rw [h.mem j c hj]
      unfold paint
      split
      . next hx =>
        have := hw.label_eq hx
        omega
      . rfl
    . rw [getElem?_append_right (Nat.le_of_not_lt hlt)] at hj
      have hj0 : j = comps.length := by
        have := (List.getElem?_eq_some_iff.mp hj).1
        rw [length_singleton] at this
        omega
      rw [hj0, Nat.sub_self] at hj
      cases hj
      rw [hj0]
      unfold paint
      split
      . next hx => exact iff_of_true hx rfl
      . next hx => exact iff_of_false hx (by omega)

theorem IsListed.old (hstop : label (φ^[k] i) ≠ 0) {j : Nat} (hj : label (φ^[k] i) = j + 1)
    {c : List Nat} (hc : comps[j]? = some c)
    : IsListed φ deg (paint label (List.iterate φ i k) (label (φ^[k] i)))
        (comps.set j (c ++ List.iterate φ i k)) where
  found := by
    rw [length_set]
    exact h.found.old hw hstop
  nodup := by
    intro d hd
    cases mem_or_eq_of_mem_set hd with
    | inl hd => exact h.nodup d hd
    | inr hd =>
      rw [hd, nodup_append]
      refine ⟨h.nodup c (mem_of_getElem? hc), hw.nodup, ?_⟩
      intro x hx y hy hxy
      rw [hxy, h.mem j c hc, hw.label_eq hy] at hx
      contradiction
  mem := by
    intro j' d hd x
    by_cases hjj : j' = j
    . rw [hjj, getElem?_set_self (List.getElem?_eq_some_iff.mp hc).1] at hd
      rw [← Option.some.inj hd, mem_append, h.mem j c hc, hjj, hj]
      unfold paint
      split
      . next hx => exact iff_of_true (.inr hx) rfl
      . next hx => exact or_iff_left hx
    . rw [getElem?_set_ne (fun h => hjj h.symm)] at hd
      rw [h.mem j' d hd]
      unfold paint
      split
      . next hx =>
        have := hw.label_eq hx
        omega
      . rfl

end

structure IsListState (φ : Nat → Nat) (deg i : Nat) (label : Nat → Nat) (comps : List (List Nat))
    (s : List Nat × List (List Nat)) : Prop where
  listed : IsListed φ deg label comps
  done : ∀ x, x < i → label x ≠ 0
  length : s.1.length = deg
  seen : ∀ x, x < deg → s.1[x]? = some (label x)
  out : s.2 = comps.map (·.map (· + 1))

theorem setAll_setAll {u v : Nat} {l seen : List Nat} {x : Nat} (hx : x < seen.length)
    : (setAll v l (setAll u l seen))[x]? = if x ∈ l then some v else seen[x]? := by
  rw [getElem?_setAll v l (by rwa [length_setAll]), getElem?_setAll u l hx]
  split
  . rfl
  . rfl

theorem IsListState.paint {s : List Nat × List (List Nat)} (hs : IsListState φ deg i label comps s)
    (l : List Nat) (u v : Nat) : ∀ x, x < deg
      → (setAll v l (setAll u l s.1))[x]? = some (paint label l v x) := by
  intro x hx
  rw [setAll_setAll (by rwa [hs.length]), hs.seen x hx]
  unfold FunctionalGraph.paint
  split
  . rfl
  . rfl

theorem componentsRound_spec (hg : IsGraph φ ptf deg) (hdeg : deg + 1 < 2 ^ 32) (hi : i < deg)
    {s : List Nat × List (List Nat)} (hs : IsListState φ deg i label comps s)
    : ∃ s', componentsRound ptf deg i s = .ok s'
        ∧ ∃ label' comps', IsListState φ deg (i + 1) label' comps' s' := by
  have hlen := hs.length
  unfold componentsRound
  rw [readEntry_of_eq_some (hs.seen i hi), ok_bind]
  split
  . next h0 =>
    obtain ⟨k, hw⟩ := exists_newWalk hg hi h0
    have hpts : ∀ y ∈ List.iterate φ i k, y ≠ i → s.1[y]? = some 0 := by
      intro y hy _
      rw [hs.seen y (hw.lt y hy), hw.label_eq hy]
    have hold : label (φ^[k] i) ≠ 0 → s.1[φ^[k] i]? ≠ some 0 := by
      intro hne
      rw [hs.seen _ hw.end_lt]
      exact fun h => hne (Option.some.inj h)
    have hrun := doLabelLoop_setLabel hg hdeg (succ_ne_zero deg) (fun _ csize => csize + 1) hi
      (Nat.le_of_eq hlen.symm) hw.pos hw.nodup hpts (hw.stop.symm.imp_right hold)
      (Nat.le_succ_of_le hw.le) 0
    rw [foldl_succ, Nat.zero_add] at hrun
    -- The walk has got the label `deg + 1`, and is gone through once more.
    have hget : ∀ x, x < deg → (setAll (deg + 1) (List.iterate φ i k) s.1)[x]?
        = if x ∈ List.iterate φ i k then some (deg + 1) else s.1[x]? := by
      intro x hx
      apply getElem?_setAll
      rwa [hlen]
    have hpts' : ∀ y ∈ List.iterate φ i k,
        (setAll (deg + 1) (List.iterate φ i k) s.1)[y]? = some (deg + 1) := by
      intro y hy
      rw [hget y (hw.lt y hy), if_pos hy]
    have hlen' : (setAll (deg + 1) (List.iterate φ i k) s.1).length = deg := by
      rw [length_setAll, hlen]
    have hnr := hs.listed.found.nr_lt hi h0
    have hend := hget _ hw.end_lt
    rw [hrun, ok_bind]
    dsimp only
    by_cases hmem : φ^[k] i ∈ List.iterate φ i k
    . rw [if_pos hmem] at hend
      have houtlen : s.2.length = comps.length := by
        rw [hs.out, length_map]
      have hloop := labelLoop_spec hg
        (hasBody_listPoint (show s.2.length + 1 < 2 ^ 32 by omega))
        (show s.2.length + 1 ≠ deg + 1 by omega) hi (Nat.le_of_eq hlen'.symm) hw.nodup hpts'
        (.inl hmem) (lt_succ_of_le hw.le) (replicate (List.iterate φ i k).length 0, 1)
      have hfold := foldlM_pushPoint (List.iterate φ i k) []
      rw [nil_append, length_nil, Nat.zero_add] at hfold
      rw [hfold] at hloop
      rw [readEntry_of_eq_some hend, ok_bind, if_neg (by omega), hloop, ok_bind]
      refine ⟨_, rfl, _, _, hs.listed.new hw hmem, found_succ hs.done hw (succ_ne_zero _), ?_,
        ?_, ?_⟩
      . rw [length_setAll, hlen']
      . rw [houtlen]
        exact hs.paint _ _ _
      . dsimp only
        rw [hs.out, map_append]
        rfl
    . have hstop := hw.stop.resolve_right hmem
      rw [if_neg hmem, hs.seen _ hw.end_lt] at hend
      obtain ⟨j, hj⟩ := Nat.exists_eq_succ_of_ne_zero hstop
      have hle := hs.listed.found.le (φ^[k] i)
      have hc := getElem?_eq_getElem (show j < comps.length by omega)
      have helm : elmPlist s.2 (label (φ^[k] i)) = .ok (comps[j].map (· + 1)) := by
        unfold elmPlist
        rw [hj]
        dsimp only
        rw [hs.out, getElem?_map, hc]
        rfl
      have hloop := labelLoop_spec hg (hasBody_listPoint (show label (φ^[k] i) < 2 ^ 32 by omega))
        (show label (φ^[k] i) ≠ deg + 1 by omega) hi (Nat.le_of_eq hlen'.symm) hw.nodup hpts'
        (.inr fun h => by
          rw [hend] at h
          have := Option.some.inj h
          omega)
        (lt_succ_of_le hw.le)
        (comps[j].map (· + 1) ++ replicate (List.iterate φ i k).length 0,
          (comps[j].map (· + 1)).length + 1)
      rw [foldlM_pushPoint] at hloop
      have hset : setElmPlist s.2 (label (φ^[k] i))
          (comps[j].map (· + 1) ++ (List.iterate φ i k).map (· + 1))
          = .ok ((comps.set j (comps[j] ++ List.iterate φ i k)).map (·.map (· + 1))) := by
        unfold setElmPlist
        rw [hs.out, length_map, if_pos (by omega), hj, map_set, map_append]
        rfl
      rw [readEntry_of_eq_some hend, ok_bind, if_pos (by omega), helm, ok_bind, hloop, ok_bind]
      rw [pure_bind, hset]
      refine ⟨_, rfl, _, _, hs.listed.old hw hstop hj hc, found_succ hs.done hw hstop, ?_,
        hs.paint _ _ _, rfl⟩
      rw [length_setAll, hlen']
  . next h0 =>
    exact ⟨s, rfl, label, comps, hs.listed, found_skip hs.done h0, hs.length, hs.seen, hs.out⟩

theorem IsListed.isPartition (h : IsListed φ deg label comps) (hdone : ∀ x, x < deg → label x ≠ 0)
    : IsPartition φ (· < deg) comps where
  nodup := by
    rw [nodup_flatten]
    refine ⟨h.nodup, ?_⟩
    rw [pairwise_iff_getElem]
    intro j j' hj hj' hlt x hx hx'
    rw [h.mem j _ (getElem?_eq_getElem hj)] at hx
    rw [h.mem j' _ (getElem?_eq_getElem hj')] at hx'
    omega
  mem := by
    intro x
    rw [mem_flatten]
    constructor
    . intro ⟨c, hc, hx⟩
      obtain ⟨j, hj⟩ := mem_iff_getElem?.mp hc
      apply h.found.lt
      rw [(h.mem j c hj x).mp hx]
      exact succ_ne_zero j
    . intro hx
      obtain ⟨j, hj⟩ := Nat.exists_eq_succ_of_ne_zero (hdone x hx)
      have hle := h.found.le x
      have hc := getElem?_eq_getElem (show j < comps.length by omega)
      exact ⟨comps[j], mem_of_getElem? hc, (h.mem j _ hc x).mpr hj⟩
  ne_nil := by
    intro c hc hnil
    obtain ⟨j, hj⟩ := mem_iff_getElem?.mp hc
    have hlt := (List.getElem?_eq_some_iff.mp hj).1
    obtain ⟨x, hx⟩ := h.found.surj (j + 1) (Nat.succ_pos j) hlt
    rw [← h.mem j c hj, hnil] at hx
    exact not_mem_nil hx
  connected := by
    intro c hc x hx y hy
    obtain ⟨j, hj⟩ := mem_iff_getElem?.mp hc
    rw [h.mem j c hj] at hx ⊢
    have hxne : label x ≠ 0 := by
      rw [hx]
      exact succ_ne_zero j
    rw [← h.found.connected x y hxne (hdone y hy), hx]
    exact eq_comm

theorem componentsLoop_spec (hg : IsGraph φ ptf deg) (hdeg : deg + 1 < 2 ^ 32)
    : ∃ s, forLoop (componentsRound ptf deg) deg 0 (resizeInitTmpTrans deg, []) = .ok s
        ∧ ∃ label comps, s.2 = comps.map (·.map (· + 1)) ∧ IsPartition φ (· < deg) comps
          ∧ IsFull φ deg comps.length label := by
  apply forLoop_of_inv (fun i s => ∃ label comps, IsListState φ deg i label comps s)
  . refine ⟨_, [], ⟨isFound_zero φ deg, fun c hc => absurd hc not_mem_nil, ?_⟩,
      fun x hx => absurd hx (Nat.not_lt_zero x), length_replicate, ?_, rfl⟩
    . intro j c hj
      exact nomatch hj
    . exact fun x hx => getElem?_resizeInitTmpTrans hx
  . intro i s _ hi ⟨label, comps, hs⟩
    exact componentsRound_spec hg hdeg (by omega) hs
  . intro s ⟨label, comps, hs⟩
    have hdone := hs.done
    rw [Nat.zero_add] at hdone
    exact ⟨label, comps, hs.out, hs.listed.isPartition hdone, hs.listed.found, hdone⟩

end Components

section Period

variable {label : Nat → Nat} {i j k nr : Nat}

structure IsPeriodState (φ : Nat → Nat) (deg i nr : Nat) (label : Nat → Nat) (s : PeriodState)
    : Prop where
  found : IsFound φ deg nr label
  done : ∀ x, x < i → label x ≠ 0
  length : s.seen.length = deg
  new : ∀ x, x < deg → label x = 0 → s.seen[x]? = some 0
  old : ∀ x, label x ≠ 0 → ∃ d, s.seen[x]? = some (d + 1) ∧ IsDepth φ x d
  two_le : 2 ≤ s.pow
  pow : ∀ i, 0 < i → (s.pow ≤ i + 1 ↔ ∀ x, label x ≠ 0 → φ^[i] x ∈ periodicPts φ)
  ord_pos : 0 < s.ord
  ord : ∀ d, s.ord ∣ d ↔ ∀ x, label x ≠ 0 → x ∈ periodicPts φ → IsPeriodicPt φ d x

variable {x : Nat}

theorem IsGraph.depth_lt (hg : IsGraph φ ptf deg) {d : Nat} (hx : x < deg) (h : IsDepth φ x d)
    : d < deg := by
  have hle := nodup_length_le_card h.nodup (s := Finset.range deg) fun y hy =>
    Finset.mem_range.mpr (hg.mem_lt hx hy)
  rwa [length_iterate, Finset.card_range] at hle

theorem distLoop_spec (hg : IsGraph φ ptf deg) (hx : x < deg) (hlen : deg ≤ seen.length)
    (hnodup : (List.iterate φ x j).Nodup) (hstop : φ^[j] x ∉ List.iterate φ x j) {fuel : Nat}
    (hfuel : j < fuel) {dist : Nat} (hdist : dist < 2 ^ 32)
    : ∃ seen', distLoop ptf (φ^[j] x) fuel x seen dist = .ok seen' ∧ seen'.length = seen.length
        ∧ (∀ t, t < j → seen'[φ^[t] x]? = some (dist - t))
        ∧ ∀ y, y ∉ List.iterate φ x j → seen'[y]? = seen[y]? := by
  obtain ⟨fuel, rfl⟩ : ∃ m, fuel = m + 1 := ⟨fuel - 1, by omega⟩
  induction j generalizing x seen dist fuel with
  | zero =>
    have hend : ¬x ≠ φ^[0] x := not_not_intro rfl
    unfold distLoop
    rw [if_neg hend]
    exact ⟨seen, rfl, rfl, fun t ht => absurd ht (Nat.not_lt_zero t), fun _ _ => rfl⟩
  | succ j ih =>
    have hiter : List.iterate φ x (j + 1) = x :: List.iterate φ (φ x) j := rfl
    rw [hiter] at hnodup hstop
    obtain ⟨hxl, hnodup'⟩ := nodup_cons.mp hnodup
    rw [mem_cons, not_or] at hstop
    have hlt : x < seen.length := by omega
    obtain ⟨fuel, rfl⟩ : ∃ m, fuel = m + 1 := ⟨fuel - 1, by omega⟩
    obtain ⟨seen', hrun, hlen', hin, hout⟩ := @ih (seen.set x dist) (φ x) (hg.lt x hx)
      (by rwa [length_set]) hnodup' hstop.2 (dist - 1) (by omega) fuel (by omega)
    unfold distLoop
    rw [if_pos (fun h => hstop.1 h.symm), writeEntry_perm4 hlt hdist, ok_bind, hg.read x hx,
      ok_bind]
    refine ⟨seen', hrun, ?_, ?_, ?_⟩
    . rw [hlen', length_set]
    . intro t ht
      cases t with
      | zero =>
        change seen'[x]? = _
        rw [hout x hxl, getElem?_set_self hlt]
        rfl
      | succ t =>
        have hget := hin t (by omega)
        rw [show dist - (t + 1) = dist - 1 - t by omega]
        exact hget
    . intro y hy
      rw [hiter, mem_cons, not_or] at hy
      rw [hout y hy.2, getElem?_set_ne (fun h => hy.1 h.symm)]

variable {s : PeriodState}

theorem IsPeriodState.step (hs : IsPeriodState φ deg i nr label s) (hw : IsNewWalk φ deg label i k)
    {nr' v : Nat} (hv : v ≠ 0) (hfound : IsFound φ deg nr' (paint label (List.iterate φ i k) v))
    {d ord : Nat} (hd : IsDepth φ i d) {seen' : List Nat} (hlen : seen'.length = deg)
    (hin : ∀ y ∈ List.iterate φ i k, ∃ e, seen'[y]? = some (e + 1) ∧ IsDepth φ y e)
    (hout : ∀ y, y < deg → y ∉ List.iterate φ i k → seen'[y]? = s.seen[y]?) (hpos : 0 < ord)
    (hord : ∀ e, ord ∣ e ↔ s.ord ∣ e ∧ ∀ y ∈ List.iterate φ i k, y ∈ periodicPts φ
      → IsPeriodicPt φ e y)
    : IsPeriodState φ deg (i + 1) nr' (paint label (List.iterate φ i k) v)
        ⟨seen', if d + 1 > s.pow then d + 1 else s.pow, ord⟩ where
  found := hfound
  done := found_succ hs.done hw hv
  length := hlen
  new := by
    intro x hx h0
    have hnot : x ∉ List.iterate φ i k := by
      intro hmem
      rw [paint_of_mem hmem] at h0
      exact hv h0
    rw [paint_of_not_mem hnot] at h0
    rw [hout x hx hnot]
    exact hs.new x hx h0
  old := by
    intro x hx
    rw [paint_ne_zero_iff hv] at hx
    by_cases hmem : x ∈ List.iterate φ i k
    . exact hin x hmem
    . have hold := hx.resolve_left hmem
      rw [hout x (hs.found.lt x hold) hmem]
      exact hs.old x hold
  two_le := by
    have := hs.two_le
    dsimp only
    split
    . omega
    . omega
  pow := by
    intro n hn
    have hsplit : (if d + 1 > s.pow then d + 1 else s.pow) ≤ n + 1 ↔ s.pow ≤ n + 1 ∧ d ≤ n := by
      split
      . omega
      . omega
    dsimp only
    rw [hsplit, hs.pow n hn, hd.le_iff]
    constructor
    . intro ⟨hold, hi⟩ x hx
      rw [paint_ne_zero_iff hv] at hx
      cases hx with
      | inl hmem =>
        obtain ⟨t, _, rfl⟩ := mem_iterate.mp hmem
        rw [← iterate_add_apply, Nat.add_comm, iterate_add_apply]
        exact iterate_mem_periodicPts hi t
      | inr hx => exact hold x hx
    . intro hall
      refine ⟨fun x hx => hall x ?_, hall i ?_⟩
      . rw [paint_ne_zero_iff hv]
        exact .inr hx
      . rw [paint_ne_zero_iff hv]
        exact .inl hw.first
  ord_pos := hpos
  ord := by
    intro e
    dsimp only
    rw [hord e, hs.ord e]
    constructor
    . intro ⟨hold, hnew⟩ x hx hper
      rw [paint_ne_zero_iff hv] at hx
      cases hx with
      | inl hmem => exact hnew x hmem hper
      | inr hx => exact hold x hx hper
    . intro hall
      refine ⟨fun x hx => hall x ?_, fun y hy => hall y ?_⟩
      . rw [paint_ne_zero_iff hv]
        exact .inr hx
      . rw [paint_ne_zero_iff hv]
        exact .inl hy

section

variable (hg : IsGraph φ ptf deg) (hdeg : deg + 1 < 2 ^ 32) (hi : i < deg)
  (hs : IsPeriodState φ deg i nr label s)

include hg hdeg hi hs

theorem periodRound_old (hw : IsNewWalk φ deg label i k) (hstop : label (φ^[k] i) ≠ 0)
    (hmem : φ^[k] i ∉ List.iterate φ i k) {seen : List Nat} (hlen : seen.length = deg)
    (hget : ∀ x, x < deg → seen[x]? = if x ∈ List.iterate φ i k then some (deg + 1) else s.seen[x]?)
    : ∃ s', (do
        let (dist, seen, ord) ← periodDist ptf deg (φ^[k] i) k s.ord seen
        let pow := if dist > s.pow then dist else s.pow
        return (⟨← distLoop ptf (φ^[k] i) (deg + 1) i seen dist, pow, ord⟩ : PeriodState)) = .ok s'
        ∧ IsPeriodState φ deg (i + 1) nr
          (paint label (List.iterate φ i k) (label (φ^[k] i))) s' := by
  obtain ⟨e, he, hdepth⟩ := hs.old _ hstop
  have helt := hg.depth_lt hw.end_lt hdepth
  have hnot : ∀ t, t < k → φ^[t] i ∉ periodicPts φ := fun t ht =>
    hw.not_periodic hs.found.old_next hstop ht
  have hbefore : ∀ t, t ≤ k → IsDepth φ (φ^[t] i) (e + (k - t)) := fun t ht =>
    hdepth.before hnot ht
  have hstart := hg.depth_lt hi (hbefore 0 (Nat.zero_le k))
  have hread := hget _ hw.end_lt
  rw [if_neg hmem, he] at hread
  obtain ⟨seen', hrun, hlen', hin, hout⟩ := distLoop_spec hg hi (Nat.le_of_eq hlen.symm) hw.nodup
    hmem (lt_succ_of_le hw.le) (show e + 1 + k < 2 ^ 32 by omega)
  unfold periodDist
  rw [readEntry_of_eq_some hread, ok_bind, if_pos (by omega), pure_bind]
  dsimp only
  rw [hrun, show e + 1 + k = e + (k - 0) + 1 by omega]
  refine ⟨_, rfl, hs.step hw hstop (hs.found.old hw hstop) (hbefore 0 (Nat.zero_le k)) ?_ ?_ ?_
    hs.ord_pos ?_⟩
  . rw [hlen', hlen]
  . intro y hy
    obtain ⟨t, ht, rfl⟩ := mem_iterate.mp hy
    refine ⟨_, ?_, hbefore t (Nat.le_of_lt ht)⟩
    rw [hin t ht]
    congr 1
    omega
  . intro y hylt hy
    rw [hout y hy, hget y hylt, if_neg hy]
  . intro d
    refine (and_iff_left ?_).symm
    intro y hy hper
    obtain ⟨t, ht, rfl⟩ := mem_iterate.mp hy
    exact absurd hper (hnot t ht)

theorem periodRound_new (hw : IsNewWalk φ deg label i k) (hmem : φ^[k] i ∈ List.iterate φ i k)
    {seen : List Nat} (hlen : seen.length = deg)
    (hget : ∀ x, x < deg → seen[x]? = if x ∈ List.iterate φ i k then some (deg + 1) else s.seen[x]?)
    : ∃ s', (do
        let (dist, seen, ord) ← periodDist ptf deg (φ^[k] i) k s.ord seen
        let pow := if dist > s.pow then dist else s.pow
        return (⟨← distLoop ptf (φ^[k] i) (deg + 1) i seen dist, pow, ord⟩ : PeriodState)) = .ok s'
        ∧ IsPeriodState φ deg (i + 1) (nr + 1) (paint label (List.iterate φ i k) (nr + 1)) s' := by
  have hread := hget _ hw.end_lt
  rw [if_pos hmem] at hread
  obtain ⟨j, hrho⟩ := hw.exists_rho hmem
  have hj := hrho.lt
  have hkle := hw.le
  have hper := hrho.isPeriodicPt
  have hon : ∀ t, t < k → j ≤ t → IsDepth φ (φ^[t] i) 0 := by
    intro t ht hjt
    apply isDepth_zero
    rw [show t = t - j + j by omega, iterate_add_apply]
    exact iterate_mem_periodicPts (mk_mem_periodicPts (show 0 < k - j by omega) hper) _
  have hbefore : ∀ t, t ≤ j → IsDepth φ (φ^[t] i) (0 + (j - t)) := fun t ht =>
    (hon j hj (Nat.le_refl j)).before (fun t ht => hrho.not_periodic ht) ht
  have hcmem : ∀ y ∈ List.iterate φ (φ^[j] i) (k - j), y ∈ List.iterate φ i k := fun y hy =>
    hrho.mem_iff.mpr (.inr hy)
  have hcend : φ^[k - j] (φ^[j] i) ∈ List.iterate φ (φ^[j] i) (k - j) := by
    rw [hper]
    exact hrho.mem_cycle
  have hjlt := hg.iterate_lt hi j
  have hloop := labelLoop_setLabel hg (show 1 < 2 ^ 32 by decide) (show 1 ≠ deg + 1 by omega)
    (fun _ cyc => cyc + 1) hjlt (Nat.le_of_eq hlen.symm) hrho.cycle_nodup
    (fun y hy => by rw [hget y (hw.lt y (hcmem y hy)), if_pos (hcmem y hy)]) (.inl hcend)
    (show k - j < deg + 1 by omega) 0
  rw [foldl_succ, length_iterate, Nat.zero_add] at hloop
  have hclen : (setAll 1 (List.iterate φ (φ^[j] i) (k - j)) seen).length = deg := by
    rw [length_setAll, hlen]
  have hjstop : φ^[j] i ∉ List.iterate φ i j := fun hmem => hrho.not_mem_cycle hmem hrho.mem_cycle
  obtain ⟨seen', hrun, hlen', hin, hout⟩ := distLoop_spec hg hi (Nat.le_of_eq hclen.symm)
    hrho.tail_nodup hjstop (show j < deg + 1 by omega) (show k - (k - j) + 1 < 2 ^ 32 by omega)
  unfold periodDist
  rw [readEntry_of_eq_some hread, ok_bind, if_neg (by omega), hrho.back, hloop, ok_bind]
  dsimp only
  rw [pure_bind]
  dsimp only
  rw [hrun, show k - (k - j) + 1 = 0 + (j - 0) + 1 by omega]
  refine ⟨_, rfl, hs.step hw (succ_ne_zero nr) (hs.found.new hw hmem)
    (hbefore 0 (Nat.zero_le j)) ?_ ?_ ?_ ?_ ?_⟩
  . rw [hlen', hclen]
  . intro y hy
    obtain ⟨t, ht, rfl⟩ := mem_iterate.mp hy
    by_cases htj : t < j
    . refine ⟨_, ?_, hbefore t (Nat.le_of_lt htj)⟩
      rw [hin t htj]
      congr 1
      omega
    . have hcyc : φ^[t] i ∈ List.iterate φ (φ^[j] i) (k - j) := by
        refine mem_iterate.mpr ⟨t - j, by omega, ?_⟩
        rw [← iterate_add_apply, Nat.sub_add_cancel (Nat.le_of_not_lt htj)]
      refine ⟨0, ?_, hon t ht (Nat.le_of_not_lt htj)⟩
      rw [hout _ fun h => hrho.not_mem_cycle h hcyc, getElem?_setAll, if_pos hcyc]
      rw [hlen]
      exact hw.lt _ hy
  . intro y hylt hy
    have hyj : y ∉ List.iterate φ i j := fun h => hy (hrho.mem_iff.mpr (.inl h))
    rw [hout y hyj, getElem?_setAll _ _ (by rwa [hlen]), if_neg fun h => hy (hcmem y h),
      hget y hylt, if_neg hy]
  . exact Nat.lcm_pos hs.ord_pos (by omega)
  . intro d
    rw [Nat.lcm_dvd_iff]
    apply and_congr_right
    intro _
    constructor
    . intro hd y hy hyper
      obtain ⟨t, ht, rfl⟩ := mem_iterate.mp hy
      have htj : j ≤ t := by
        apply Nat.le_of_not_lt
        exact fun htj => hrho.not_periodic htj hyper
      rw [show t = t - j + j by omega, iterate_add_apply]
      exact (hper.trans_dvd hd).apply_iterate _
    . intro hall
      rw [← hrho.minimalPeriod_eq]
      exact (hall _ (mem_iterate.mpr ⟨j, hj, rfl⟩)
        (hon j hj (Nat.le_refl j)).1).minimalPeriod_dvd

theorem periodRound_spec
    : ∃ s', periodRound ptf deg i s = .ok s'
        ∧ ∃ nr' label', IsPeriodState φ deg (i + 1) nr' label' s' := by
  have hlen := hs.length
  unfold periodRound
  by_cases h0 : label i = 0
  . rw [readEntry_of_eq_some (hs.new i hi h0), ok_bind, if_pos rfl]
    obtain ⟨k, hw⟩ := exists_newWalk hg hi h0
    have hpts : ∀ y ∈ List.iterate φ i k, s.seen[y]? = some 0 := fun y hy =>
      hs.new y (hw.lt y hy) (hw.label_eq hy)
    have hold : label (φ^[k] i) ≠ 0 → s.seen[φ^[k] i]? ≠ some 0 := by
      intro hne
      obtain ⟨d, hd, _⟩ := hs.old _ hne
      rw [hd]
      exact fun h => succ_ne_zero d (Option.some.inj h)
    have hrun := labelLoop_setLabel hg hdeg (succ_ne_zero deg) (fun _ len => len + 1) hi
      (Nat.le_of_eq hlen.symm) hw.nodup hpts (hw.stop.symm.imp_right hold)
      (lt_succ_of_le hw.le) 0
    rw [foldl_succ, Nat.zero_add, length_iterate] at hrun
    have hget : ∀ x, x < deg → (setAll (deg + 1) (List.iterate φ i k) s.seen)[x]?
        = if x ∈ List.iterate φ i k then some (deg + 1) else s.seen[x]? := by
      intro x hx
      apply getElem?_setAll
      rwa [hlen]
    have hlen' : (setAll (deg + 1) (List.iterate φ i k) s.seen).length = deg := by
      rw [length_setAll, hlen]
    rw [hrun, ok_bind]
    by_cases hmem : φ^[k] i ∈ List.iterate φ i k
    . obtain ⟨s', hs', hstate⟩ := periodRound_new hg hdeg hi hs hw hmem hlen' hget
      exact ⟨s', hs', _, _, hstate⟩
    . have hstop := hw.stop.resolve_right hmem
      obtain ⟨s', hs', hstate⟩ := periodRound_old hg hdeg hi hs hw hstop hmem hlen' hget
      exact ⟨s', hs', _, _, hstate⟩
  . obtain ⟨d, hd, _⟩ := hs.old i h0
    rw [readEntry_of_eq_some hd, ok_bind, if_neg (succ_ne_zero d)]
    exact ⟨s, rfl, nr, label, hs.found, found_skip hs.done h0, hs.length, hs.new, hs.old, hs.two_le,
      hs.pow, hs.ord_pos, hs.ord⟩

end

theorem periodLoop_spec (hg : IsGraph φ ptf deg) (hdeg : deg + 1 < 2 ^ 32)
    : ∃ s, forLoop (periodRound ptf deg) deg 0 ⟨resizeInitTmpTrans deg, 2, 1⟩ = .ok s
        ∧ HasIndexPeriod (fun i => φ^[i]) (s.pow - 1) s.ord := by
  apply forLoop_of_inv (fun i s => ∃ nr label, IsPeriodState φ deg i nr label s)
  . refine ⟨0, _, isFound_zero φ deg, fun x hx => absurd hx (Nat.not_lt_zero x),
      length_replicate, fun x hx _ => getElem?_resizeInitTmpTrans hx,
      fun x hx => absurd rfl hx, Nat.le_refl 2, ?_, Nat.one_pos, ?_⟩
    . intro i hi
      exact iff_of_true (Nat.succ_le_succ hi) fun x hx => absurd rfl hx
    . intro d
      exact iff_of_true (Nat.one_dvd d) fun x hx => absurd rfl hx
  . intro i s _ hi ⟨nr, label, hs⟩
    exact periodRound_spec hg hdeg (by omega) hs
  . intro s ⟨nr, label, hs⟩
    have htwo := hs.two_le
    have hdone := hs.done
    rw [Nat.zero_add] at hdone
    -- The points from the degree on are fixed.
    have hfix : ∀ x, deg ≤ x → IsPeriodicPt φ 1 x := hg.fix
    apply hasIndexPeriod_of_iff (by omega) hs.ord_pos
    . intro i hi
      rw [show s.pow - 1 ≤ i ↔ s.pow ≤ i + 1 by omega, hs.pow i hi]
      constructor
      . intro hall x
        by_cases hx : x < deg
        . exact hall x (hdone x hx)
        . rw [hg.iterate_of_le (Nat.le_of_not_lt hx)]
          exact mk_mem_periodicPts Nat.one_pos (hfix x (Nat.le_of_not_lt hx))
      . exact fun hall x _ => hall x
    . intro d
      rw [hs.ord d]
      constructor
      . intro hall x hper
        by_cases hx : x < deg
        . exact hall x (hdone x hx) hper
        . exact (hfix x (Nat.le_of_not_lt hx)).trans_dvd (Nat.one_dvd d)
      . exact fun hall x _ hper => hall x hper

theorem labelLoop_no_end (hg : IsGraph φ ptf deg) (hdeg : deg + 1 = 2 ^ 32) (hx : x < deg)
    (upd : Nat → σ → σ) (fuel : Nat) (s : σ)
    : labelLoop ptf 0 (setLabel (deg + 1) upd) fuel x (resizeInitTmpTrans deg, s)
        = .error .fuel := by
  induction fuel generalizing x s with
  | zero => rfl
  | succ fuel ih =>
    have hset : writeEntry .perm4 (resizeInitTmpTrans deg) x (deg + 1)
        = .ok (resizeInitTmpTrans deg) := by
      unfold writeEntry resizeInitTmpTrans
      rw [if_pos (by rwa [length_replicate]), hdeg]
      exact congrArg Except.ok set_replicate_self
    unfold labelLoop setLabel
    dsimp only
    rw [readEntry_of_eq_some (getElem?_resizeInitTmpTrans hx), ok_bind, if_pos rfl, hset, ok_bind,
      pure_bind, hg.read x hx, ok_bind]
    exact ih (hg.lt x hx) _

theorem periodLoop_no_end (hg : IsGraph φ ptf deg) (hdeg : deg + 1 = 2 ^ 32)
    : forLoop (periodRound ptf deg) deg 0 ⟨resizeInitTmpTrans deg, 2, 1⟩ = .error .fuel := by
  obtain ⟨n, hn⟩ : ∃ n, deg = n + 1 := ⟨2 ^ 32 - 2, by omega⟩
  have hpos : 0 < deg := by omega
  have hround : periodRound ptf deg 0 ⟨resizeInitTmpTrans deg, 2, 1⟩ = .error .fuel := by
    unfold periodRound
    dsimp only
    rw [readEntry_of_eq_some (getElem?_resizeInitTmpTrans hpos), ok_bind, if_pos rfl,
      labelLoop_no_end hg hdeg hpos]
    rfl
  suffices h : ∀ m, m = n + 1 → forLoop (periodRound ptf deg) m 0 ⟨resizeInitTmpTrans deg, 2, 1⟩
      = .error .fuel from h deg hn
  intro m hm
  rw [hm]
  unfold forLoop
  rw [hround]
  rfl

end Period

end TransComponents
