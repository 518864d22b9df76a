import GapKernel.Trans.Lemmas.Components
import GapKernel.Trans.Lemmas.DerivedSpec

open Function FunctionalGraph TransImpl Finset
open Nat (succ_ne_zero)
open PPermComponents (setAll length_setAll getElem?_setAll readEntry_of_eq_some)

namespace TransComponents

variable {φ : Nat → Nat} {ptf : List Nat} {deg i k nr : Nat} {label : Nat → Nat}

section Cycles

structure IsCycleState (φ : Nat → Nat) (deg : Nat) (pts : List Nat) (nr : Nat) (label : Nat → Nat)
    (cycles : List (List Nat)) (s : List Nat × List (List Nat)) : Prop where
  found : IsFound φ deg nr label
  length : s.1.length = deg
  new : ∀ x, x < deg → label x = 0 → s.1[x]? = some 0
  old : ∀ x, label x ≠ 0 → s.1[x]? = some 2
  out : s.2 = cycles.map (·.map (· + 1))
  cycle : ∀ c ∈ cycles, IsCycle φ c
  low : ∀ c ∈ cycles, (∀ x ∈ c, label x ≠ 0) ∨ ∃ j ∈ pts, deg ≤ j ∧ c = [j]
  meets : ∀ c ∈ cycles, ∃ x ∈ pts, ∃ y ∈ c, Connected φ x y
  back : ∀ x, label x ≠ 0 → ∃ c ∈ cycles, ∃ y ∈ c, Connected φ x y
  done : ∀ x ∈ pts, x < deg → label x ≠ 0
  high : ∀ x ∈ pts, deg ≤ x → [x] ∈ cycles
  apart : cycles.Pairwise (Apart φ) ↔ (pts.filter (deg ≤ ·)).Nodup

variable {pts : List Nat} {cycles : List (List Nat)} {s : List Nat × List (List Nat)}

theorem filter_le_snoc_of_lt (pts : List Nat) (hi : i < deg)
    : (pts ++ [i]).filter (deg ≤ ·) = pts.filter (deg ≤ ·) := by
  rw [List.filter_append, List.filter_singleton, decide_eq_false (Nat.not_le.mpr hi)]
  exact List.append_nil _

theorem filter_le_snoc_of_le (pts : List Nat) (hi : deg ≤ i)
    : (pts ++ [i]).filter (deg ≤ ·) = pts.filter (deg ≤ ·) ++ [i] := by
  rw [List.filter_append, List.filter_singleton, decide_eq_true hi]
  rfl

theorem IsCycleState.skip (hs : IsCycleState φ deg pts nr label cycles s) (hi : i < deg)
    (hne : label i ≠ 0) : IsCycleState φ deg (pts ++ [i]) nr label cycles s where
  found := hs.found
  length := hs.length
  new := hs.new
  old := hs.old
  out := hs.out
  cycle := hs.cycle
  low := by
    intro c hc
    apply (hs.low c hc).imp_right
    intro ⟨j, hj, hle, heq⟩
    exact ⟨j, List.mem_append_left _ hj, hle, heq⟩
  meets := by
    intro c hc
    obtain ⟨x, hx, h⟩ := hs.meets c hc
    exact ⟨x, List.mem_append_left _ hx, h⟩
  back := hs.back
  done := by
    intro x hx hlt
    cases List.mem_append.mp hx with
    | inl hx => exact hs.done x hx hlt
    | inr hx => rwa [List.mem_singleton.mp hx]
  high := by
    intro x hx hle
    cases List.mem_append.mp hx with
    | inl hx => exact hs.high x hx hle
    | inr hx =>
      rw [List.mem_singleton.mp hx] at hle
      omega
  apart := by
    rw [filter_le_snoc_of_lt pts hi]
    exact hs.apart

variable {seen : List Nat}

theorem IsCycleState.old_walk (hs : IsCycleState φ deg pts nr label cycles s) (hi : i < deg)
    (hw : IsNewWalk φ deg label i k) (hstop : label (φ^[k] i) ≠ 0) (hlen : seen.length = deg)
    (hget : ∀ x, x < deg → seen[x]? = if x ∈ List.iterate φ i k then some 2 else s.1[x]?)
    : IsCycleState φ deg (pts ++ [i]) nr (paint label (List.iterate φ i k) (label (φ^[k] i))) cycles
        (seen, s.2) := by
  have hpaint : ∀ x, label x ≠ 0
      → paint label (List.iterate φ i k) (label (φ^[k] i)) x ≠ 0 := fun x hx =>
    (paint_ne_zero_iff hstop).mpr (.inr hx)
  have hmid : IsCycleState φ deg pts nr (paint label (List.iterate φ i k) (label (φ^[k] i))) cycles
      (seen, s.2) := by
    refine ⟨hs.found.old hw hstop, hlen, ?_, ?_, hs.out, hs.cycle, ?_, hs.meets, ?_,
      fun x hx hlt => hpaint x (hs.done x hx hlt), hs.high, hs.apart⟩
    . intro x hx h0
      have hnot : x ∉ List.iterate φ i k := by
        intro hmem
        rw [paint_of_mem hmem] at h0
        exact hstop h0
      rw [paint_of_not_mem hnot] at h0
      dsimp only
      rw [hget x hx, if_neg hnot]
      exact hs.new x hx h0
    . intro x hx
      rw [paint_ne_zero_iff hstop] at hx
      dsimp only
      by_cases hmem : x ∈ List.iterate φ i k
      . rw [hget x (hw.lt x hmem), if_pos hmem]
      . have hold := hx.resolve_left hmem
        rw [hget x (hs.found.lt x hold), if_neg hmem]
        exact hs.old x hold
    . intro c hc
      exact (hs.low c hc).imp_left fun h x hx => hpaint x (h x hx)
    . intro x hx
      rw [paint_ne_zero_iff hstop] at hx
      cases hx with
      | inl hmem =>
        obtain ⟨c, hc, y, hy, hcon⟩ := hs.back _ hstop
        refine ⟨c, hc, y, hy, ?_⟩
        exact ((connected_of_mem_iterate hmem).symm.trans (connected_iterate i k)).trans hcon
      | inr hx => exact hs.back x hx
  exact hmid.skip hi ((paint_ne_zero_iff hstop).mpr (.inl hw.first))

section

variable (hg : IsGraph φ ptf deg) (hs : IsCycleState φ deg pts nr label cycles s)

include hg hs

theorem IsCycleState.new_walk (hi : i < deg) (hw : IsNewWalk φ deg label i k)
    (hmem : φ^[k] i ∈ List.iterate φ i k) {c : List Nat} (hc : IsCycle φ c)
    (hsub : ∀ x ∈ c, x ∈ List.iterate φ i k) (hcne : c ≠ []) (hlen : seen.length = deg)
    (hget : ∀ x, x < deg → seen[x]? = if x ∈ List.iterate φ i k then some 2 else s.1[x]?)
    : IsCycleState φ deg (pts ++ [i]) (nr + 1) (paint label (List.iterate φ i k) (nr + 1))
        (cycles ++ [c]) (seen, s.2 ++ [c.map (· + 1)]) := by
  have hnr := succ_ne_zero nr
  have hpaint : ∀ x, label x ≠ 0 → paint label (List.iterate φ i k) (nr + 1) x ≠ 0 := fun x hx =>
    (paint_ne_zero_iff hnr).mpr (.inr hx)
  have hcmem : c ∈ cycles ++ [c] := List.mem_append_right _ (List.mem_singleton_self c)
  obtain ⟨z, hz⟩ := List.exists_mem_of_ne_nil c hcne
  have hconn : ∀ x ∈ List.iterate φ i k, Connected φ x z := fun x hx =>
    (connected_of_mem_iterate hx).symm.trans (connected_of_mem_iterate (hsub z hz))
  constructor
  . exact hs.found.new hw hmem
  . exact hlen
  . intro x hx h0
    have hnot : x ∉ List.iterate φ i k := by
      intro hmem
      rw [paint_of_mem hmem] at h0
      exact hnr h0
    rw [paint_of_not_mem hnot] at h0
    dsimp only
    rw [hget x hx, if_neg hnot]
    exact hs.new x hx h0
  . intro x hx
    rw [paint_ne_zero_iff hnr] at hx
    dsimp only
    by_cases hxmem : x ∈ List.iterate φ i k
    . rw [hget x (hw.lt x hxmem), if_pos hxmem]
    . have hold := hx.resolve_left hxmem
      rw [hget x (hs.found.lt x hold), if_neg hxmem]
      exact hs.old x hold
  . rw [hs.out, List.map_append]
    rfl
  . intro d hd
    cases List.mem_append.mp hd with
    | inl hd => exact hs.cycle d hd
    | inr hd => rwa [List.mem_singleton.mp hd]
  . intro d hd
    cases List.mem_append.mp hd with
    | inl hd =>
      apply (hs.low d hd).imp
      . exact fun h x hx => hpaint x (h x hx)
      . intro ⟨j, hj, hle, heq⟩
        exact ⟨j, List.mem_append_left _ hj, hle, heq⟩
    | inr hd =>
      rw [List.mem_singleton.mp hd]
      exact .inl fun x hx => (paint_ne_zero_iff hnr).mpr (.inl (hsub x hx))
  . intro d hd
    cases List.mem_append.mp hd with
    | inl hd =>
      obtain ⟨x, hx, h⟩ := hs.meets d hd
      exact ⟨x, List.mem_append_left _ hx, h⟩
    | inr hd =>
      rw [List.mem_singleton.mp hd]
      exact ⟨i, List.mem_append_right _ (List.mem_singleton_self i), z, hz, hconn i hw.first⟩
  . intro x hx
    rw [paint_ne_zero_iff hnr] at hx
    cases hx with
    | inl hx => exact ⟨c, hcmem, z, hz, hconn x hx⟩
    | inr hx =>
      obtain ⟨d, hd, h⟩ := hs.back x hx
      exact ⟨d, List.mem_append_left _ hd, h⟩
  . intro x hx hlt
    cases List.mem_append.mp hx with
    | inl hx => exact hpaint x (hs.done x hx hlt)
    | inr hx =>
      rw [List.mem_singleton.mp hx]
      exact (paint_ne_zero_iff hnr).mpr (.inl hw.first)
  . intro x hx hle
    cases List.mem_append.mp hx with
    | inl hx => exact List.mem_append_left _ (hs.high x hx hle)
    | inr hx =>
      rw [List.mem_singleton.mp hx] at hle
      omega
  . rw [filter_le_snoc_of_lt pts hi, ← hs.apart, List.pairwise_append]
    refine ⟨fun h => h.1, fun h => ⟨h, List.pairwise_singleton _ _, ?_⟩⟩
    -- The new cycle is not connected with the old points.
    intro d hd d' hd' x hx y hy hcon
    rw [List.mem_singleton.mp hd'] at hy
    cases hs.low d hd with
    | inl hlow =>
      exact hs.found.not_connected hw.toIsFirstWalk hmem (hsub y hy) (hlow x hx) hcon.symm
    | inr hhigh =>
      obtain ⟨j, _, hle, rfl⟩ := hhigh
      rw [List.mem_singleton.mp hx] at hcon
      obtain ⟨a, b, hab⟩ := hcon
      have hlt := hg.iterate_lt (hw.lt y (hsub y hy)) b
      rw [hg.iterate_of_le hle] at hab
      omega

theorem IsCycleState.high_point (hi : deg ≤ i)
    : IsCycleState φ deg (pts ++ [i]) nr label (cycles ++ [[i]]) (s.1, s.2 ++ [[i + 1]]) where
  found := hs.found
  length := hs.length
  new := hs.new
  old := hs.old
  out := by
    rw [hs.out, List.map_append]
    rfl
  cycle := by
    intro d hd
    cases List.mem_append.mp hd with
    | inl hd => exact hs.cycle d hd
    | inr hd =>
      rw [List.mem_singleton.mp hd]
      exact ⟨i, 1, Nat.one_pos, rfl, hg.fix i hi, List.nodup_singleton i⟩
  low := by
    intro d hd
    cases List.mem_append.mp hd with
    | inl hd =>
      apply (hs.low d hd).imp_right
      intro ⟨j, hj, hle, heq⟩
      exact ⟨j, List.mem_append_left _ hj, hle, heq⟩
    | inr hd => exact .inr ⟨i, by simp, hi, List.mem_singleton.mp hd⟩
  meets := by
    intro d hd
    cases List.mem_append.mp hd with
    | inl hd =>
      obtain ⟨x, hx, h⟩ := hs.meets d hd
      exact ⟨x, List.mem_append_left _ hx, h⟩
    | inr hd =>
      rw [List.mem_singleton.mp hd]
      exact ⟨i, by simp, i, List.mem_singleton_self i, Connected.refl i⟩
  back := by
    intro x hx
    obtain ⟨d, hd, h⟩ := hs.back x hx
    exact ⟨d, List.mem_append_left _ hd, h⟩
  done := by
    intro x hx hlt
    cases List.mem_append.mp hx with
    | inl hx => exact hs.done x hx hlt
    | inr hx =>
      rw [List.mem_singleton.mp hx] at hlt
      omega
  high := by
    intro x hx hle
    cases List.mem_append.mp hx with
    | inl hx => exact List.mem_append_left _ (hs.high x hx hle)
    | inr hx =>
      rw [List.mem_singleton.mp hx]
      exact List.mem_append_right _ (List.mem_singleton_self _)
  apart := by
    rw [filter_le_snoc_of_le pts hi, List.pairwise_append, hs.apart, List.nodup_append]
    apply and_congr_right
    intro _
    refine and_congr (iff_of_true (List.pairwise_singleton _ _) (List.nodup_singleton i)) ?_
    constructor
    . intro h x hx y hy hxy
      obtain ⟨hx, hle⟩ := List.mem_filter.mp hx
      rw [List.mem_singleton.mp hy] at hxy
      have hapart := h [x] (hs.high x hx (of_decide_eq_true hle)) [i] (List.mem_singleton_self _)
      rw [hxy] at hapart
      exact hapart i (List.mem_singleton_self i) i (List.mem_singleton_self i) (Connected.refl i)
    . intro h d hd d' hd' x hx y hy hcon
      rw [List.mem_singleton.mp hd'] at hy
      obtain ⟨a, b, hab⟩ := hcon
      rw [List.mem_singleton.mp hy, hg.iterate_of_le hi] at hab
      cases hs.low d hd with
      | inl hlow =>
        have hlt := hg.iterate_lt (hs.found.lt x (hlow x hx)) a
        omega
      | inr hhigh =>
        obtain ⟨j, hj, hle, rfl⟩ := hhigh
        rw [List.mem_singleton.mp hx, hg.iterate_of_le hle] at hab
        exact h j (List.mem_filter.mpr ⟨hj, decide_eq_true hle⟩) i (List.mem_singleton_self i) hab

end

theorem foldl_points (l comp : List Nat)
    : l.foldl (fun s y => s ++ [y + 1]) comp = comp ++ l.map (· + 1) := by
  induction l generalizing comp with
  | nil => exact (List.append_nil comp).symm
  | cons y l ih =>
    rw [List.foldl_cons, ih, List.map_cons, List.append_assoc]
    rfl

theorem newCycle_rho (hg : IsGraph φ ptf deg) (hw : IsNewWalk φ deg label i k) (hi : i < deg)
    {j : Nat} (hrho : IsRho φ i k j) {seen' : List Nat} (out : List (List Nat))
    (hlen : seen'.length = deg) (hget : ∀ x, x < deg
      → seen'[x]? = if x ∈ List.iterate φ i k then some 1 else seen[x]?)
    : ∃ seen'', (do
        let (seen, out) ← newCycle ptf deg (φ^[k] i) (seen', out)
        let (_, seen, _) ← labelLoop ptf 1 (setLabel 2 fun _ _ => ()) (deg + 1) i (seen, ())
        return (seen, out))
          = .ok (seen'', out ++ [(List.iterate φ (φ^[j] i) (k - j)).map (· + 1)])
        ∧ seen''.length = deg
        ∧ ∀ x, x < deg → seen''[x]? = if x ∈ List.iterate φ i k then some 2 else seen[x]? := by
  have hj := hrho.lt
  have hkle := hw.le
  have hcmem : ∀ y ∈ List.iterate φ (φ^[j] i) (k - j), y ∈ List.iterate φ i k := fun y hy =>
    hrho.mem_iff.mpr (.inr hy)
  have hbmem : ∀ y ∈ List.iterate φ i j, y ∈ List.iterate φ i k := fun y hy =>
    hrho.mem_iff.mpr (.inl hy)
  have hback := hget _ (hg.iterate_lt hi j)
  rw [if_pos (hcmem _ hrho.mem_cycle)] at hback
  have hcend : φ^[k - j] (φ^[j] i) ∈ List.iterate φ (φ^[j] i) (k - j) := by
    rw [hrho.isPeriodicPt]
    exact hrho.mem_cycle
  have hloop := labelLoop_setLabel hg (show 2 < 2 ^ 32 by decide) (show 2 ≠ 1 by decide)
    (fun y s => s ++ [y + 1]) (hg.iterate_lt hi j) (Nat.le_of_eq hlen.symm) hrho.cycle_nodup
    (fun y hy => by rw [hget y (hw.lt y (hcmem y hy)), if_pos (hcmem y hy)]) (.inl hcend)
    (show k - j < deg + 1 by omega) []
  rw [foldl_points, List.nil_append] at hloop
  have hget' : ∀ x, x < deg → (setAll 2 (List.iterate φ (φ^[j] i) (k - j)) seen')[x]?
      = if x ∈ List.iterate φ (φ^[j] i) (k - j) then some 2 else seen'[x]? := by
    intro x hx
    apply getElem?_setAll
    rwa [hlen]
  have hclen : (setAll 2 (List.iterate φ (φ^[j] i) (k - j)) seen').length = deg := by
    rw [length_setAll, hlen]
  -- The points before the cycle still have the label 1.
  have hlast := labelLoop_setLabel hg (show 2 < 2 ^ 32 by decide) (show 2 ≠ 1 by decide)
    (fun _ _ => ()) hi (Nat.le_of_eq hclen.symm) hrho.tail_nodup
    (fun y hy => by
      rw [hget' y (hw.lt y (hbmem y hy)), if_neg (hrho.not_mem_cycle hy),
        hget y (hw.lt y (hbmem y hy)), if_pos (hbmem y hy)])
    (.inr (by
      rw [hget' _ (hg.iterate_lt hi j), if_pos hrho.mem_cycle]
      exact fun h => nomatch Option.some.inj h))
    (show j < deg + 1 by omega) ()
  unfold newCycle
  rw [hrho.back, readEntry_of_eq_some hback, ok_bind, if_pos rfl, hloop, ok_bind]
  dsimp only
  rw [pure_bind]
  dsimp only
  rw [hlast]
  refine ⟨_, rfl, ?_, ?_⟩
  . rw [length_setAll, hclen]
  . intro x hx
    rw [getElem?_setAll _ _ (by rwa [hclen]), hget' x hx, hget x hx]
    by_cases hb : x ∈ List.iterate φ i j
    . rw [if_pos hb, if_pos (hbmem x hb)]
    . rw [if_neg hb]
      by_cases hc : x ∈ List.iterate φ (φ^[j] i) (k - j)
      . rw [if_pos hc, if_pos (hcmem x hc)]
      . have hnot : x ∉ List.iterate φ i k := fun h => (hrho.mem_iff.mp h).elim hb hc
        rw [if_neg hc, if_neg hnot, if_neg hnot]

theorem cyclesRound_spec (hg : IsGraph φ ptf deg)
    (hs : IsCycleState φ deg pts nr label cycles s) (hi : i < deg)
    : ∃ s', cyclesRound ptf deg i s = .ok s'
        ∧ ∃ nr' label' cycles', IsCycleState φ deg (pts ++ [i]) nr' label' cycles' s' := by
  have hlen := hs.length
  unfold cyclesRound
  by_cases h0 : label i = 0
  . rw [readEntry_of_eq_some (hs.new i hi h0), ok_bind, if_pos rfl]
    obtain ⟨k, hw⟩ := exists_newWalk hg hi h0
    have hpts : ∀ y ∈ List.iterate φ i k, s.1[y]? = some 0 := fun y hy =>
      hs.new y (hw.lt y hy) (hw.label_eq hy)
    have hold : label (φ^[k] i) ≠ 0 → s.1[φ^[k] i]? ≠ some 0 := by
      intro hne
      rw [hs.old _ hne]
      exact fun h => nomatch Option.some.inj h
    have hrun := labelLoop_setLabel hg (show 1 < 2 ^ 32 by decide) Nat.one_ne_zero
      (fun _ _ => ()) hi (Nat.le_of_eq hlen.symm) hw.nodup hpts (hw.stop.symm.imp_right hold)
      (Nat.lt_succ_of_le hw.le) ()
    have hget : ∀ x, x < deg → (setAll 1 (List.iterate φ i k) s.1)[x]?
        = if x ∈ List.iterate φ i k then some 1 else s.1[x]? := by
      intro x hx
      apply getElem?_setAll
      rwa [hlen]
    have hlen' : (setAll 1 (List.iterate φ i k) s.1).length = deg := by
      rw [length_setAll, hlen]
    have hend := hget _ hw.end_lt
    rw [hrun, ok_bind]
    dsimp only
    by_cases hmem : φ^[k] i ∈ List.iterate φ i k
    . obtain ⟨j, hrho⟩ := hw.exists_rho hmem
      obtain ⟨seen, hcycle, hslen, hsget⟩ := newCycle_rho hg hw hi hrho s.2 hlen' hget
      exact ⟨_, hcycle, _, _, _, hs.new_walk hg hi hw hmem hrho.isCycle
        (fun x hx => hrho.mem_iff.mpr (.inr hx)) (List.ne_nil_of_mem hrho.mem_cycle) hslen hsget⟩
    . have hstop := hw.stop.resolve_right hmem
      rw [if_neg hmem, hs.old _ hstop] at hend
      have hlast := labelLoop_setLabel hg (show 2 < 2 ^ 32 by decide) (show 2 ≠ 1 by decide)
        (fun _ _ => ()) hi (Nat.le_of_eq hlen'.symm) hw.nodup
        (fun y hy => by rw [hget y (hw.lt y hy), if_pos hy])
        (.inr (by
          rw [hend]
          exact fun h => nomatch Option.some.inj h))
        (Nat.lt_succ_of_le hw.le) ()
      unfold newCycle
      rw [readEntry_of_eq_some hend, ok_bind, if_neg (by decide), pure_bind]
      dsimp only
      rw [hlast]
      refine ⟨_, rfl, _, _, _, hs.old_walk hi hw hstop ?_ ?_⟩
      . rw [length_setAll, hlen']
      . intro x hx
        exact setAll_setAll (by rwa [hlen])
  . rw [readEntry_of_eq_some (hs.old i h0), ok_bind, if_neg (by decide)]
    exact ⟨s, rfl, nr, label, cycles, hs.skip hi h0⟩

theorem isCycleState_nil (φ : Nat → Nat) (deg : Nat)
    : IsCycleState φ deg [] 0 (fun _ => 0) [] (resizeInitTmpTrans deg, []) where
  found := isFound_zero φ deg
  length := List.length_replicate
  new := fun _ hx _ => getElem?_resizeInitTmpTrans hx
  old := fun _ h => absurd rfl h
  out := rfl
  cycle := fun _ h => absurd h List.not_mem_nil
  low := fun _ h => absurd h List.not_mem_nil
  meets := fun _ h => absurd h List.not_mem_nil
  back := fun _ h => absurd rfl h
  done := fun _ h => absurd h List.not_mem_nil
  high := fun _ h => absurd h List.not_mem_nil
  apart := iff_of_true List.Pairwise.nil List.nodup_nil

theorem IsCycleState.isCycles_iff (hs : IsCycleState φ deg pts nr label cycles s)
    : IsCycles φ (· ∈ pts) cycles ↔ (pts.filter (deg ≤ ·)).Nodup := by
  rw [← hs.apart]
  refine ⟨fun h => h.apart, fun h => ⟨hs.cycle, h, hs.meets, ?_⟩⟩
  intro x hx
  by_cases hlt : x < deg
  . exact hs.back x (hs.done x hx hlt)
  . exact ⟨[x], hs.high x hx (Nat.le_of_not_lt hlt), x, List.mem_singleton_self x,
      Connected.refl x⟩

theorem cyclesLoop_spec (hg : IsGraph φ ptf deg)
    : ∃ s, forLoop (cyclesRound ptf deg) deg 0 (resizeInitTmpTrans deg, []) = .ok s
        ∧ ∃ cycles, s.2 = cycles.map (·.map (· + 1)) ∧ IsCycles φ (· < deg) cycles := by
  apply forLoop_of_inv (fun i s => ∃ nr label cycles,
    IsCycleState φ deg (List.range i) nr label cycles s)
  . exact ⟨_, _, _, isCycleState_nil φ deg⟩
  . intro i s _ hi ⟨nr, label, cycles, hs⟩
    rw [List.range_succ]
    exact cyclesRound_spec hg hs (by omega)
  . intro s ⟨nr, label, cycles, hs⟩
    rw [Nat.zero_add] at hs
    have hnil : (List.range deg).filter (deg ≤ ·) = [] := by
      rw [List.filter_eq_nil_iff]
      intro x hx hle
      have := List.mem_range.mp hx
      have := of_decide_eq_true hle
      omega
    have hcycles := hs.isCycles_iff.mpr (by rw [hnil]; exact List.nodup_nil)
    simp only [List.mem_range] at hcycles
    exact ⟨cycles, hs.out, hcycles⟩

theorem cyclesListLoop_spec {w : IntSize} (hg : IsGraph φ ptf deg) {list : List Int}
    (hlist : ∀ x ∈ list, 0 < x ∧ x ≤ w.intIntobjMax)
    : ∃ s, forLoop (cyclesListRound w ptf deg list) list.length 1 (resizeInitTmpTrans deg, [])
        = .ok s ∧ ∃ cycles, s.2 = cycles.map (·.map (· + 1))
          ∧ (IsCycles φ (· ∈ listPoints list) cycles
            ↔ ((listPoints list).filter (deg ≤ ·)).Nodup) := by
  have hlen : (listPoints list).length = list.length := List.length_map _
  apply forLoop_of_inv (fun i s => ∃ nr label cycles,
    IsCycleState φ deg ((listPoints list).take (i - 1)) nr label cycles s)
  . exact ⟨_, _, _, isCycleState_nil φ deg⟩
  . intro i s h1 hi ⟨nr, label, cycles, hs⟩
    obtain ⟨x, hx, hget⟩ := getPositiveListEntry_spec "CYCLES_TRANS_LIST" hlist
      (show i - 1 < list.length by omega)
    rw [show i - 1 + 1 = i by omega] at hx
    have htake : (listPoints list).take (i + 1 - 1)
        = (listPoints list).take (i - 1) ++ [x - 1] := by
      rw [show i + 1 - 1 = i - 1 + 1 by omega, List.take_add_one, hget]
      rfl
    unfold cyclesListRound
    rw [hx, ok_bind, htake]
    dsimp only
    split
    . next hle => exact ⟨_, rfl, _, _, _, hs.high_point hg hle⟩
    . next hlt => exact cyclesRound_spec hg hs (Nat.lt_of_not_le hlt)
  . intro s ⟨nr, label, cycles, hs⟩
    rw [Nat.add_sub_cancel_left, ← hlen, List.take_length] at hs
    exact ⟨cycles, hs.out, hs.isCycles_iff⟩

end Cycles

section Reps

variable {reps : List (List Nat)} {s : List Nat × List (List Nat)}

structure IsChosen (φ : Nat → Nat) (label : Nat → Nat) (reps : List (List Nat)) : Prop where
  nodup : ∀ c ∈ reps, c.Nodup
  ne_nil : ∀ c ∈ reps, c ≠ []
  number : ∀ j c, reps[j]? = some c → ∀ r ∈ c, label r = j + 1
  source : ∀ c ∈ reps, ∀ r ∈ c, IsSource φ r ∨ c = [r]
  reach : ∀ x, label x ≠ 0 → ∃ r ∈ reps.flatten, Reaches φ r x

section

variable (h : IsChosen φ label reps)

include h

theorem IsChosen.new (hw : IsNewWalk φ deg label i k)
    : IsChosen φ (paint label (List.iterate φ i k) (reps.length + 1)) (reps ++ [[i]]) where
  nodup := by
    intro c hc
    cases List.mem_append.mp hc with
    | inl hc => exact h.nodup c hc
    | inr hc =>
      rw [List.mem_singleton.mp hc]
      exact List.nodup_singleton i
  ne_nil := by
    intro c hc
    cases List.mem_append.mp hc with
    | inl hc => exact h.ne_nil c hc
    | inr hc =>
      rw [List.mem_singleton.mp hc]
      exact List.cons_ne_nil i []
  number := by
    intro j c hj r hr
    by_cases hlt : j < reps.length
    . rw [List.getElem?_append_left hlt] at hj
      have hlabel := h.number j c hj r hr
      rw [paint_of_not_mem, hlabel]
      intro hmem
      rw [hw.label_eq hmem] at hlabel
      contradiction
    . rw [List.getElem?_append_right (Nat.le_of_not_lt hlt)] at hj
      have hj0 : j = reps.length := by
        have := (List.getElem?_eq_some_iff.mp hj).1
        rw [List.length_singleton] at this
        omega
      rw [hj0, Nat.sub_self] at hj
      cases hj
      rw [List.mem_singleton.mp hr, hj0, paint_of_mem hw.first]
  source := by
    intro c hc r hr
    cases List.mem_append.mp hc with
    | inl hc => exact h.source c hc r hr
    | inr hc =>
      rw [List.mem_singleton.mp hc] at hr ⊢
      rw [List.mem_singleton.mp hr]
      exact .inr rfl
  reach := by
    intro x hx
    rw [paint_ne_zero_iff (succ_ne_zero _)] at hx
    rw [List.flatten_append]
    cases hx with
    | inl hmem =>
      obtain ⟨t, _, rfl⟩ := List.mem_iterate.mp hmem
      exact ⟨i, List.mem_append_right _ (by simp), t, rfl⟩
    | inr hx =>
      obtain ⟨r, hr, hreach⟩ := h.reach x hx
      exact ⟨r, List.mem_append_left _ hr, hreach⟩

theorem IsChosen.old (hall : ∀ c ∈ reps, ∀ r ∈ c, IsSource φ r) (hsource : IsSource φ i)
    (hw : IsNewWalk φ deg label i k) (hstop : label (φ^[k] i) ≠ 0) {j : Nat}
    (hj : label (φ^[k] i) = j + 1) {c : List Nat} (hc : reps[j]? = some c)
    : IsChosen φ (paint label (List.iterate φ i k) (label (φ^[k] i))) (reps.set j (c ++ [i]))
      ∧ ∀ d ∈ reps.set j (c ++ [i]), ∀ r ∈ d, IsSource φ r := by
  have hcmem := List.mem_of_getElem? hc
  have hjlt := (List.getElem?_eq_some_iff.mp hc).1
  have hcj : (reps.set j (c ++ [i]))[j]? = some (c ++ [i]) := List.getElem?_set_self hjlt
  have hcset : c ++ [i] ∈ reps.set j (c ++ [i]) := List.mem_of_getElem? hcj
  have hsrc : ∀ d ∈ reps.set j (c ++ [i]), ∀ r ∈ d, IsSource φ r := by
    intro d hd r hr
    cases List.mem_or_eq_of_mem_set hd with
    | inl hd => exact hall d hd r hr
    | inr hd =>
      rw [hd] at hr
      cases List.mem_append.mp hr with
      | inl hr => exact hall c hcmem r hr
      | inr hr => rwa [List.mem_singleton.mp hr]
  refine ⟨⟨?_, ?_, ?_, fun d hd r hr => .inl (hsrc d hd r hr), ?_⟩, hsrc⟩
  . intro d hd
    cases List.mem_or_eq_of_mem_set hd with
    | inl hd => exact h.nodup d hd
    | inr hd =>
      rw [hd, ← List.concat_eq_append]
      apply (h.nodup c hcmem).concat
      intro hi
      have := h.number j c hc i hi
      rw [hw.label_eq hw.first] at this
      contradiction
  . intro d hd
    cases List.mem_or_eq_of_mem_set hd with
    | inl hd => exact h.ne_nil d hd
    | inr hd =>
      rw [hd]
      exact List.append_ne_nil_of_right_ne_nil c (List.cons_ne_nil i [])
  . intro j' d hd r hr
    have hold : ∀ d, reps[j']? = some d → r ∈ d
        → paint label (List.iterate φ i k) (label (φ^[k] i)) r = j' + 1 := by
      intro d hd hr
      have hlabel := h.number j' d hd r hr
      rw [paint_of_not_mem, hlabel]
      intro hmem
      rw [hw.label_eq hmem] at hlabel
      contradiction
    by_cases hjj : j' = j
    . rw [hjj, hcj] at hd
      cases hd
      cases List.mem_append.mp hr with
      | inl hr =>
        rw [hjj] at hold ⊢
        exact hold c hc hr
      | inr hr => rw [List.mem_singleton.mp hr, paint_of_mem hw.first, hj, hjj]
    . rw [List.getElem?_set_ne (fun h => hjj h.symm)] at hd
      exact hold d hd hr
  . intro x hx
    rw [paint_ne_zero_iff hstop] at hx
    cases hx with
    | inl hmem =>
      obtain ⟨t, _, rfl⟩ := List.mem_iterate.mp hmem
      exact ⟨i, List.mem_flatten.mpr ⟨_, hcset, by simp⟩, t, rfl⟩
    | inr hx =>
      obtain ⟨r, hr, hreach⟩ := h.reach x hx
      refine ⟨r, ?_, hreach⟩
      obtain ⟨d, hd, hr⟩ := List.mem_flatten.mp hr
      obtain ⟨j', hj'⟩ := List.mem_iff_getElem?.mp hd
      by_cases hjj : j' = j
      . rw [hjj, hc] at hj'
        cases hj'
        exact List.mem_flatten.mpr ⟨_, hcset, List.mem_append_left _ hr⟩
      . refine List.mem_flatten.mpr ⟨d, List.mem_of_getElem? (i := j') ?_, hr⟩
        rwa [List.getElem?_set_ne (fun h => hjj h.symm)]

theorem IsChosen.isReps (hfull : IsFull φ deg reps.length label)
    : IsReps φ (· < deg) reps := by
  have hlabel : ∀ (j : Nat) (c : List Nat), reps[j]? = some c → ∀ r ∈ c, label r ≠ 0 := by
    intro j c hj r hr
    rw [h.number j c hj r hr]
    exact succ_ne_zero j
  have hapart : reps.Pairwise (Apart φ) := by
    rw [List.pairwise_iff_getElem]
    intro j j' hj hj' hlt x hx y hy hcon
    have hjc := List.getElem?_eq_getElem hj
    have hjc' := List.getElem?_eq_getElem hj'
    have heq := (hfull.connected x y (hlabel j _ hjc x hx) (hlabel j' _ hjc' y hy)).mpr hcon
    rw [h.number j _ hjc x hx, h.number j' _ hjc' y hy] at heq
    omega
  have hconn : ∀ c ∈ reps, ∀ x ∈ c, ∀ y ∈ c, Connected φ x y := by
    intro c hc x hx y hy
    obtain ⟨j, hj⟩ := List.mem_iff_getElem?.mp hc
    rw [← hfull.connected x y (hlabel j c hj x hx) (hlabel j c hj y hy), h.number j c hj x hx,
      h.number j c hj y hy]
  refine ⟨h.ne_nil, hconn, hapart, ?_, fun x hx => h.reach x (hfull.done x hx), ?_⟩
  . intro c hc x hx
    obtain ⟨j, hj⟩ := List.mem_iff_getElem?.mp hc
    exact hfull.lt x (hlabel j c hj x hx)
  . intro l hl
    have hmem : ∀ r ∈ reps.flatten, r < deg := by
      intro r hr
      obtain ⟨c, hc, hr⟩ := List.mem_flatten.mp hr
      obtain ⟨j, hj⟩ := List.mem_iff_getElem?.mp hc
      exact hfull.lt r (hlabel j c hj r hr)
    have hnodup : reps.flatten.Nodup := by
      rw [List.nodup_flatten]
      refine ⟨h.nodup, hapart.imp ?_⟩
      intro c d hcd x hx hx'
      exact hcd x hx x hx' (Connected.refl x)
    apply length_le_of_reaches hnodup _ fun r hr => hl r (hmem r hr)
    -- Two representatives of the same component are no images.
    intro r hr r' hr' hcon hne
    obtain ⟨c, hc, hr⟩ := List.mem_flatten.mp hr
    obtain ⟨c', hc', hr'⟩ := List.mem_flatten.mp hr'
    obtain ⟨j, hj⟩ := List.mem_iff_getElem?.mp hc
    obtain ⟨j', hj'⟩ := List.mem_iff_getElem?.mp hc'
    have heq := (hfull.connected r r' (hlabel j c hj r hr) (hlabel j' c' hj' r' hr')).mpr hcon
    rw [h.number j c hj r hr, h.number j' c' hj' r' hr'] at heq
    have hjj : j = j' := by omega
    rw [hjj, hj'] at hj
    cases hj
    have hsource : ∀ x ∈ c, ∀ y ∈ c, x ≠ y → IsSource φ x := by
      intro x hx y hy hxy
      apply (h.source c hc x hx).resolve_right
      intro hsingle
      rw [hsingle] at hy
      exact hxy (List.mem_singleton.mp hy).symm
    exact ⟨hsource r hr r' hr' hne, hsource r' hr' r hr hne.symm⟩

end

structure IsRepsState (φ : Nat → Nat) (deg i : Nat) (label : Nat → Nat) (reps : List (List Nat))
    (s : List Nat × List (List Nat)) : Prop where
  found : IsFound φ deg reps.length label
  length : deg ≤ s.1.length
  source : ∀ x, x < deg → label x = 0 → IsSource φ x → s.1[x]? = some 0
  image : ∀ x, x < deg → label x = 0 → ¬IsSource φ x → s.1[x]? = some 1
  old : ∀ x, label x ≠ 0 → s.1[x]? = some (label x + 1)
  out : s.2 = reps.map (·.map (· + 1))
  chosen : IsChosen φ label reps
  sources : ∀ c ∈ reps, ∀ r ∈ c, IsSource φ r
  done : ∀ x, x < i → IsSource φ x → label x ≠ 0

variable {seen : List Nat}

section

variable (hs : IsRepsState φ deg i label reps s)

include hs

theorem IsRepsState.step (hw : IsNewWalk φ deg label i k) {v : Nat} (hv : v ≠ 0)
    {reps' : List (List Nat)}
    (hfound : IsFound φ deg reps'.length (paint label (List.iterate φ i k) v))
    (hchosen : IsChosen φ (paint label (List.iterate φ i k) v) reps')
    (hsources : ∀ c ∈ reps', ∀ r ∈ c, IsSource φ r) (hlen : deg ≤ seen.length)
    (hget : ∀ x, x < deg → seen[x]? = if x ∈ List.iterate φ i k then some (v + 1) else s.1[x]?)
    : IsRepsState φ deg (i + 1) (paint label (List.iterate φ i k) v) reps'
        (seen, reps'.map (·.map (· + 1))) := by
  have hnot : ∀ x, paint label (List.iterate φ i k) v x = 0
      → x ∉ List.iterate φ i k ∧ label x = 0 := by
    intro x h0
    have hmem : x ∉ List.iterate φ i k := by
      intro hmem
      rw [paint_of_mem hmem] at h0
      exact hv h0
    rw [paint_of_not_mem hmem] at h0
    exact ⟨hmem, h0⟩
  refine ⟨hfound, hlen, ?_, ?_, ?_, rfl, hchosen, hsources, ?_⟩
  . intro x hx h0 hsource
    obtain ⟨hmem, h0⟩ := hnot x h0
    dsimp only
    rw [hget x hx, if_neg hmem]
    exact hs.source x hx h0 hsource
  . intro x hx h0 hsource
    obtain ⟨hmem, h0⟩ := hnot x h0
    dsimp only
    rw [hget x hx, if_neg hmem]
    exact hs.image x hx h0 hsource
  . intro x hx
    rw [paint_ne_zero_iff hv] at hx
    dsimp only
    by_cases hmem : x ∈ List.iterate φ i k
    . rw [hget x (hw.lt x hmem), if_pos hmem, paint_of_mem hmem]
    . have hold := hx.resolve_left hmem
      rw [hget x (hs.found.lt x hold), if_neg hmem, paint_of_not_mem hmem]
      exact hs.old x hold
  . intro x hx hsource
    rw [paint_ne_zero_iff hv]
    by_cases hxi : x = i
    . rw [hxi]
      exact .inl hw.first
    . exact .inr (hs.done x (by omega) hsource)

theorem IsRepsState.skip (hi : IsSource φ i → label i ≠ 0)
    : IsRepsState φ deg (i + 1) label reps s := by
  refine { hs with done := ?_ }
  intro x hx hsource
  by_cases hxi : x = i
  . rw [hxi] at hsource ⊢
    exact hi hsource
  . exact hs.done x (by omega) hsource

theorem IsRepsState.walk_images (hw : IsNewWalk φ deg label i k)
    : ∀ y ∈ List.iterate φ i k, y ≠ i → s.1[y]? = some 1 := by
  intro y hy hne
  apply hs.image y (hw.lt y hy) (hw.label_eq hy)
  obtain ⟨t, _, rfl⟩ := List.mem_iterate.mp hy
  cases t with
  | zero => exact absurd rfl hne
  | succ t =>
    rw [iterate_succ_apply']
    exact fun h => h _ rfl

theorem IsRepsState.new (hsource : IsSource φ i) (hw : IsNewWalk φ deg label i k)
    (hmem : φ^[k] i ∈ List.iterate φ i k) (hlen : deg ≤ seen.length)
    (hget : ∀ x, x < deg → seen[x]? = if x ∈ List.iterate φ i k then some (reps.length + 1 + 1) else s.1[x]?)
    : IsRepsState φ deg (i + 1) (paint label (List.iterate φ i k) (reps.length + 1))
        (reps ++ [[i]]) (seen, s.2 ++ [[i + 1]]) := by
  have hfound : IsFound φ deg (reps ++ [[i]]).length
      (paint label (List.iterate φ i k) (reps.length + 1)) := by
    rw [List.length_append]
    exact hs.found.new hw hmem
  have hsources : ∀ c ∈ reps ++ [[i]], ∀ r ∈ c, IsSource φ r := by
    intro c hc r hr
    cases List.mem_append.mp hc with
    | inl hc => exact hs.sources c hc r hr
    | inr hc =>
      rw [List.mem_singleton.mp hc] at hr
      rwa [List.mem_singleton.mp hr]
  have hstate := hs.step hw (succ_ne_zero _) hfound (hs.chosen.new hw) hsources hlen hget
  rw [List.map_append, ← hs.out] at hstate
  exact hstate

theorem IsRepsState.elm_set {j v : Nat} (hv : v = j + 1) (hj : j < reps.length)
    : elmPlist s.2 v = .ok (reps[j].map (· + 1))
      ∧ setElmPlist s.2 v (reps[j].map (· + 1) ++ [i + 1])
        = .ok ((reps.set j (reps[j] ++ [i])).map (·.map (· + 1))) := by
  rw [hv]
  constructor
  . unfold elmPlist
    dsimp only
    rw [hs.out, List.getElem?_map, List.getElem?_eq_getElem hj]
    rfl
  . unfold setElmPlist
    rw [hs.out, List.length_map, if_pos (by omega), List.map_set, List.map_append]
    rfl

end

theorem repsRound_spec (hg : IsGraph φ ptf deg) (hdeg : deg + 1 < 2 ^ 32) (hi : i < deg)
    (hs : IsRepsState φ deg i label reps s)
    : ∃ s', repsRound ptf deg i s = .ok s'
        ∧ ∃ label' reps', IsRepsState φ deg (i + 1) label' reps' s' := by
  have hlen := hs.length
  have houtlen : s.2.length = reps.length := by
    rw [hs.out, List.length_map]
  unfold repsRound
  by_cases h0 : label i = 0
  . by_cases hsource : IsSource φ i
    . rw [readEntry_of_eq_some (hs.source i hi h0 hsource), ok_bind, if_pos rfl, houtlen]
      obtain ⟨k, hw⟩ := exists_newWalk hg hi h0
      have hold : label (φ^[k] i) ≠ 0 → s.1[φ^[k] i]? ≠ some 1 := by
        intro hne
        rw [hs.old _ hne]
        exact fun h => hne (Nat.succ.inj (Option.some.inj h))
      have hless := hs.found.nr_lt hi h0
      have hrun := doLabelLoop_setLabel hg (show reps.length + 1 + 1 < 2 ^ 32 by omega)
        (show reps.length + 1 + 1 ≠ 1 by omega) (fun _ _ => ()) hi hlen hw.pos hw.nodup
        (hs.walk_images hw) (hw.stop.symm.imp_right hold) (Nat.le_succ_of_le hw.le) ()
      have hget : ∀ x, x < deg → (setAll (reps.length + 1 + 1) (List.iterate φ i k) s.1)[x]?
          = if x ∈ List.iterate φ i k then some (reps.length + 1 + 1) else s.1[x]? := by
        intro x hx
        apply getElem?_setAll
        omega
      have hlen' : deg ≤ (setAll (reps.length + 1 + 1) (List.iterate φ i k) s.1).length := by
        rwa [length_setAll]
      have hend := hget _ hw.end_lt
      dsimp only
      rw [hrun, ok_bind]
      dsimp only
      by_cases hmem : φ^[k] i ∈ List.iterate φ i k
      . rw [if_pos hmem] at hend
        rw [readEntry_of_eq_some hend, ok_bind, if_neg (not_not_intro rfl)]
        exact ⟨_, rfl, _, _, hs.new hsource hw hmem hlen' hget⟩
      . have hstop := hw.stop.resolve_right hmem
        rw [if_neg hmem, hs.old _ hstop] at hend
        have hle := hs.found.le (φ^[k] i)
        obtain ⟨j, hj⟩ := Nat.exists_eq_succ_of_ne_zero hstop
        have hc := List.getElem?_eq_getElem (show j < reps.length by omega)
        have hrun' := doLabelLoop_setLabel hg (show label (φ^[k] i) + 1 < 2 ^ 32 by omega)
          (show label (φ^[k] i) + 1 ≠ reps.length + 1 + 1 by omega) (fun _ _ => ()) hi hlen' hw.pos
          hw.nodup (fun y hy _ => by rw [hget y (hw.lt y hy), if_pos hy])
          (.inr (by
            rw [hend]
            intro h
            have := Option.some.inj h
            omega))
          (Nat.le_succ_of_le hw.le) ()
        have hend' : (setAll (label (φ^[k] i) + 1) (List.iterate φ i k)
            (setAll (reps.length + 1 + 1) (List.iterate φ i k) s.1))[φ^[k] i]?
            = some (label (φ^[k] i) + 1) := by
          rw [setAll_setAll (by have := hw.end_lt; omega), if_neg hmem, hs.old _ hstop]
        obtain ⟨helm, hset⟩ := hs.elm_set hj (by omega)
        rw [readEntry_of_eq_some hend, ok_bind, if_pos (by omega), hrun', ok_bind]
        dsimp only
        rw [readEntry_of_eq_some hend', ok_bind, Nat.add_sub_cancel, helm, ok_bind, hset]
        obtain ⟨hchosen, hsources⟩ := hs.chosen.old hs.sources hsource hw hstop hj hc
        refine ⟨_, rfl, _, _, hs.step hw hstop ?_ hchosen hsources ?_ ?_⟩
        . rw [List.length_set]
          exact hs.found.old hw hstop
        . rwa [length_setAll]
        . intro x hx
          exact setAll_setAll (by omega)
    . rw [readEntry_of_eq_some (hs.image i hi h0 hsource), ok_bind, if_neg Nat.one_ne_zero]
      exact ⟨s, rfl, label, reps, hs.skip fun h => absurd h hsource⟩
  . rw [readEntry_of_eq_some (hs.old i h0), ok_bind, if_neg (succ_ne_zero _)]
    exact ⟨s, rfl, label, reps, hs.skip fun _ => h0⟩

structure IsRestState (φ : Nat → Nat) (deg i : Nat) (label : Nat → Nat) (reps : List (List Nat))
    (s : List Nat × List (List Nat)) : Prop where
  found : IsFound φ deg reps.length label
  length : deg ≤ s.1.length
  seen : ∀ x, x < deg → (s.1[x]? = some 1 ↔ label x = 0)
  out : s.2 = reps.map (·.map (· + 1))
  chosen : IsChosen φ label reps
  periodic : ∀ x, x < deg → label x = 0 → x ∈ periodicPts φ
  done : ∀ x, x < i → label x ≠ 0

theorem IsRepsState.isRestState (hg : IsGraph φ ptf deg) (hs : IsRepsState φ deg deg label reps s)
    : IsRestState φ deg 0 label reps s where
  found := hs.found
  length := hs.length
  seen := by
    intro x hx
    by_cases h0 : label x = 0
    . rw [hs.image x hx h0 fun hsource => hs.done x hx hsource h0]
      exact iff_of_true rfl h0
    . rw [hs.old x h0]
      exact iff_of_false (fun h => h0 (Nat.succ.inj (Option.some.inj h))) h0
  out := hs.out
  chosen := hs.chosen
  periodic := by
    intro x hx h0
    apply mem_periodicPts_of_preimage (s := (Finset.range deg).filter (label · = 0))
    . intro x hx
      obtain ⟨hx, h0⟩ := mem_filter.mp hx
      have hx := mem_range.mp hx
      have hnot : ¬IsSource φ x := fun hsource => hs.done x hx hsource h0
      unfold IsSource at hnot
      push Not at hnot
      obtain ⟨y, hy⟩ := hnot
      refine ⟨y, mem_filter.mpr ⟨mem_range.mpr ?_, ?_⟩, hy⟩
      . apply Nat.lt_of_not_le
        intro hle
        rw [hg.fix y hle] at hy
        omega
      . by_contra hne
        have hnext := hs.found.next y hne
        rw [hy] at hnext
        omega
    . exact mem_filter.mpr ⟨mem_range.mpr hx, h0⟩
  done := fun x hx => absurd hx (Nat.not_lt_zero x)

theorem repsCycleRound_spec (hg : IsGraph φ ptf deg) (hi : i < deg)
    (hs : IsRestState φ deg i label reps s)
    : ∃ s', repsCycleRound ptf deg i s = .ok s'
        ∧ ∃ label' reps', IsRestState φ deg (i + 1) label' reps' s' := by
  have hlen := hs.length
  have hget := List.getElem?_eq_getElem (show i < s.1.length by omega)
  unfold repsCycleRound
  by_cases h0 : label i = 0
  . rw [readEntry_of_eq_some ((hs.seen i hi).mpr h0), ok_bind, if_pos rfl]
    obtain ⟨k, hw⟩ := exists_newWalk hg hi h0
    have hmem : φ^[k] i ∈ List.iterate φ i k := by
      apply hw.stop.resolve_left
      intro hstop
      exact hw.not_periodic hs.found.old_next hstop hw.pos (hs.periodic i hi h0)
    have hrun := labelLoop_setLabel hg (show 0 < 2 ^ 32 by decide) Nat.zero_ne_one (fun _ _ => ())
      hi hlen hw.nodup (fun y hy => (hs.seen y (hw.lt y hy)).mpr (hw.label_eq hy)) (.inl hmem)
      (Nat.lt_succ_of_le hw.le) ()
    have hnr := succ_ne_zero reps.length
    rw [hrun, ok_bind]
    refine ⟨_, rfl, paint label (List.iterate φ i k) (reps.length + 1), reps ++ [[i]], ?_, ?_, ?_,
      ?_, hs.chosen.new hw, ?_, found_succ hs.done hw hnr⟩
    . rw [List.length_append]
      exact hs.found.new hw hmem
    . rwa [length_setAll]
    . intro x hx
      dsimp only
      rw [getElem?_setAll _ _ (by omega)]
      by_cases hxmem : x ∈ List.iterate φ i k
      . rw [if_pos hxmem, paint_of_mem hxmem]
        exact iff_of_false (by decide) hnr
      . rw [if_neg hxmem, paint_of_not_mem hxmem]
        exact hs.seen x hx
    . dsimp only
      rw [hs.out, List.map_append]
      rfl
    . intro x hx hx0
      apply hs.periodic x hx
      by_contra hne
      exact (paint_ne_zero_iff hnr).mpr (.inr hne) hx0
  . have hne : s.1[i] ≠ 1 := by
      intro h1
      rw [h1] at hget
      exact h0 ((hs.seen i hi).mp hget)
    rw [readEntry_of_eq_some hget, ok_bind, if_neg hne]
    exact ⟨s, rfl, label, reps, { hs with done := found_skip hs.done h0 }⟩

theorem repsLoops_spec (hg : IsGraph φ ptf deg) (hdeg : deg + 1 < 2 ^ 32)
    (hs : IsRepsState φ deg 0 label reps s)
    : ∃ s', (do
        let s ← forLoop (repsRound ptf deg) deg 0 s
        forLoop (repsCycleRound ptf deg) deg 0 s) = .ok s'
        ∧ ∃ reps', s'.2 = reps'.map (·.map (· + 1)) ∧ IsReps φ (· < deg) reps' := by
  obtain ⟨s₁, hrun₁, label₁, reps₁, hs₁⟩ := forLoop_spec (n := deg) (i := 0)
    (fun i s => ∃ label reps, IsRepsState φ deg i label reps s)
    (fun i s _ hi ⟨label, reps, hs⟩ => repsRound_spec hg hdeg (by omega) hs) ⟨label, reps, hs⟩
  rw [Nat.zero_add] at hs₁
  obtain ⟨s₂, hrun₂, label₂, reps₂, hs₂⟩ := forLoop_spec (n := deg) (i := 0)
    (fun i s => ∃ label reps, IsRestState φ deg i label reps s)
    (fun i s _ hi ⟨label, reps, hs⟩ => repsCycleRound_spec hg (by omega) hs)
    ⟨label₁, reps₁, hs₁.isRestState hg⟩
  rw [Nat.zero_add] at hs₂
  refine ⟨s₂, ?_, reps₂, hs₂.out, hs₂.chosen.isReps ⟨hs₂.found, hs₂.done⟩⟩
  rw [hrun₁, ok_bind, hrun₂]

theorem markLoop_spec (l : List Nat) : ∀ seen : List Nat, (∀ x ∈ l, 0 < x ∧ x ≤ seen.length)
    → l.foldlM (fun seen x => writeEntry .perm4 seen (x - 1) 1) seen
      = .ok (setAll 1 (l.map (· - 1)) seen) := by
  induction l with
  | nil => exact fun _ _ => rfl
  | cons x l ih =>
    intro seen hl
    have hx := hl x List.mem_cons_self
    rw [List.foldlM_cons, writeEntry_perm4 (by omega) (by decide), ok_bind, ih]
    . rfl
    . intro y hy
      rw [List.length_set]
      exact hl y (List.mem_cons_of_mem _ hy)

theorem le_of_markLoop (l : List Nat) : ∀ seen seen' : List Nat,
    (l.foldlM (fun seen x => writeEntry .perm4 seen (x - 1) 1) seen : Result (List Nat)) = .ok seen'
      → ∀ x ∈ l, x - 1 < seen.length := by
  induction l with
  | nil => exact fun _ _ _ _ h => absurd h List.not_mem_nil
  | cons y l ih =>
    intro seen seen' hrun x hx
    rw [List.foldlM_cons] at hrun
    unfold writeEntry at hrun
    split at hrun
    . next hlt =>
      cases List.mem_cons.mp hx with
      | inl hx => rwa [hx]
      | inr hx =>
        have h := ih _ _ hrun x hx
        rwa [List.length_set] at h
    . contradiction

theorem markImages_eq (img seen : List Nat)
    : markImages img seen = img.foldlM (fun seen x => writeEntry .perm4 seen (x - 1) 1) seen :=
  PPermComponents.forLoop_elmPlist (fun x seen => writeEntry .perm4 seen (x - 1) 1) [] img seen

theorem length_resizeInitTmp (tmp : List Nat) (len : Nat)
    : (resizeInitTmp tmp len).length = max len tmp.length := by
  unfold resizeInitTmp
  rw [List.length_append, List.length_replicate, List.length_drop]
  omega

theorem getElem?_resizeInitTmp (tmp : List Nat) {len x : Nat} (hx : x < len)
    : (resizeInitTmp tmp len)[x]? = some 0 := by
  unfold resizeInitTmp
  rw [List.getElem?_append_left (by rwa [List.length_replicate])]
  exact List.getElem?_replicate_of_lt hx

theorem isRepsState_nil {n : Nat} {img : List Nat} (himg : IsImageSet φ n img)
    (hg : IsGraph φ ptf deg) (hle : deg ≤ n) (hlen : deg ≤ seen.length)
    (hseen : ∀ x, x < deg → seen[x]? = some 0)
    : IsRepsState φ deg 0 (fun _ => 0) [] (setAll 1 (img.map (· - 1)) seen, []) := by
  have hiff : ∀ x, x < deg → (x ∈ img.map (· - 1) ↔ ¬IsSource φ x) := by
    intro x hx
    unfold IsSource
    push Not
    rw [List.mem_map]
    constructor
    . intro ⟨y, hy, hyx⟩
      obtain ⟨i, _, rfl⟩ := (himg.mem y).mp hy
      exact ⟨i, hyx⟩
    . intro ⟨i, hi⟩
      refine ⟨φ i + 1, (himg.mem _).mpr ⟨i, ?_, rfl⟩, hi⟩
      apply Nat.lt_of_not_le
      intro hge
      rw [hg.fix i (by omega)] at hi
      omega
  refine ⟨isFound_zero φ deg, by rwa [length_setAll], ?_, ?_, fun _ h => absurd rfl h, rfl, ?_,
    fun _ h => absurd h List.not_mem_nil, fun _ h => absurd h (Nat.not_lt_zero _)⟩
  . intro x hx _ hsource
    rw [getElem?_setAll _ _ (by omega), if_neg fun h => (hiff x hx).mp h hsource]
    exact hseen x hx
  . intro x hx _ hsource
    rw [getElem?_setAll _ _ (by omega), if_pos ((hiff x hx).mpr hsource)]
  . exact ⟨fun _ h => absurd h List.not_mem_nil, fun _ h => absurd h List.not_mem_nil,
      (fun _ _ h => nomatch h), fun _ h => absurd h List.not_mem_nil, fun _ h => absurd rfl h⟩

end Reps

section Functions

variable {w : IntSize} {tmp : List Nat} {f : TransBag} {d : Nat} {list : List Int}

theorem noWrap_of_isKernelBag (hf : IsKernelBag f φ) : NoWrap φ := by
  intro _ i hi
  have hdeg := hf.deg_lt
  by_cases hlt : i < f.entries.length
  . have := hf.fits.lt i hlt
    omega
  . rw [← hi, hf.fits.fix i (by omega)]

theorem isGraph_of_isKernelBag (hf : IsKernelBag f φ) (hd : IsTransDegree φ d)
    : IsGraph φ f.entries d where
  read := by
    intro x hx
    have hle := hf.fits.degree_le hd
    exact hf.isEntries.readEntry_eq (by omega)
  lt := by
    intro x hx
    apply Nat.lt_of_not_le
    intro hle
    have := (hd.1 _ hle).2 x rfl
    omega
  fix := fun x hx => (hd.1 x hx).1

theorem funcDegree_spec (w : IntSize) (hf : IsKernelBag f φ) (hd : IsTransDegree φ d)
    : ∃ f', funcDegreeOfTransformation w f = .ok (f', d) ∧ f' = { f with ext := some d }
        ∧ IsKernelBag f' φ ∧ constAddrTrans f'.tnum.dataType f' = .ok f.entries := by
  obtain ⟨f', d', hrun, hset⟩ := funcDegreeOfTransformation_spec (w := w) hf.toIsTransBag
    (noWrap_of_isKernelBag hf)
  have hdd : d' = d := hset.isDegree.unique hd
  have heq := hset.eq
  rw [hdd] at hrun heq
  refine ⟨f', hrun, heq, ?_, ?_⟩
  . rw [heq]
    exact { hf with ext := (heq ▸ hset.isTransBag).ext }
  . rw [constAddrTrans_eq, heq]

section

variable (hf : IsKernelBag f φ) (hd : IsTransDegree φ d)

include hf hd

theorem funcIndexPeriod_spec (hlt : d + 1 < 2 ^ 32)
    : ∃ f' m r, funcIndexPeriodOfTransformation w f = .ok (f', m, r)
        ∧ HasIndexPeriod (fun i => φ^[i]) m r := by
  obtain ⟨f', hdeg, _, _, hptf⟩ := funcDegree_spec w hf hd
  have hg := isGraph_of_isKernelBag hf hd
  obtain ⟨s, hrun, hs⟩ := periodLoop_spec hg hlt
  unfold funcIndexPeriodOfTransformation
  rw [hdeg, ok_bind]
  dsimp only
  split
  . next h0 =>
    refine ⟨f', 1, 1, rfl, ?_⟩
    have hfix : ∀ x, φ x = x := fun x => hg.fix x (by omega)
    have hper : ∀ d x, IsPeriodicPt φ d x := fun d x => iterate_fixed (hfix x) d
    apply hasIndexPeriod_of_iff Nat.one_pos Nat.one_pos
    . intro i hi
      exact iff_of_true hi fun x => mk_mem_periodicPts Nat.one_pos (hper 1 _)
    . intro d
      exact iff_of_true (Nat.one_dvd d) fun x _ => hper d x
  . rw [hptf, ok_bind, hrun]
    exact ⟨f', _, _, rfl, hs⟩

theorem lt_of_funcIndexPeriod {res : TransBag × Nat × Nat}
    (hrun : funcIndexPeriodOfTransformation w f = .ok res)
    : d + 1 < 2 ^ 32 := by
  obtain ⟨f', hdeg, _, _, hptf⟩ := funcDegree_spec w hf hd
  have hle := hf.fits.degree_le hd
  have hlen := hf.deg_lt
  apply Nat.lt_of_not_le
  intro hge
  have heq : d + 1 = 2 ^ 32 := by omega
  unfold funcIndexPeriodOfTransformation at hrun
  rw [hdeg, ok_bind] at hrun
  dsimp only at hrun
  rw [if_neg (by omega), hptf, ok_bind,
    periodLoop_no_end (isGraph_of_isKernelBag hf hd) heq] at hrun
  contradiction

theorem funcSmallestIdemPow_spec (hlt : d + 1 < 2 ^ 32)
    : ∃ f' k, funcSmallestIdemPowTrans w f = .ok (f', k)
        ∧ IsLeast {k | 0 < k ∧ φ^[k] ∘ φ^[k] = φ^[k]} k := by
  obtain ⟨f', m, r, hperiod, hmr⟩ := funcIndexPeriod_spec (w := w) hf hd hlt
  obtain ⟨k, hrun, hpos, hdvd, hle, hltk⟩ := PPermComponents.idemLoop_spec hmr.period_pos
    hmr.period_pos (Nat.dvd_refl _) (Nat.lt_add_of_pos_left hmr.index_pos) (Nat.succ_pos m)
    (by omega)
  have hleast := hmr.isLeast_idem hpos hdvd hle hltk
  simp only [iterate_add] at hleast
  refine ⟨f', k, ?_, ?_⟩
  . unfold funcSmallestIdemPowTrans
    rw [hperiod, ok_bind]
    dsimp only
    rw [hrun]
    rfl
  . simp only [eq_comm] at hleast ⊢
    exact hleast

theorem funcComponents_spec (hlt : d + 1 < 2 ^ 32)
    : ∃ f₁ f₂ comps, IsPartition φ (· < d) comps
        ∧ funcComponentsTrans w f = .ok (f₁, comps.map (·.map (· + 1)))
        ∧ funcNrComponentsTrans w f = .ok (f₂, comps.length) := by
  obtain ⟨f', hdeg, _, _, hptf⟩ := funcDegree_spec w hf hd
  have hg := isGraph_of_isKernelBag hf hd
  obtain ⟨s, hrun, label, comps, hout, hpart, hfull⟩ := componentsLoop_spec hg hlt
  obtain ⟨s', hrun', label', hfull'⟩ := nrLoop_spec hg (Nat.lt_of_succ_lt hlt)
  refine ⟨f', f', comps, hpart, ?_, ?_⟩
  . unfold funcComponentsTrans
    rw [hdeg, ok_bind]
    dsimp only
    split
    . next h0 =>
      have hnil : comps = [] := by
        rw [List.eq_nil_iff_forall_not_mem]
        intro c hc
        obtain ⟨x, hx⟩ := List.exists_mem_of_ne_nil c (hpart.ne_nil c hc)
        have := (hpart.mem x).mp (List.mem_flatten.mpr ⟨c, hc, hx⟩)
        omega
      rw [hnil]
      rfl
    . rw [hptf, ok_bind, hrun, ← hout]
      rfl
  . unfold funcNrComponentsTrans
    rw [hdeg, ok_bind]
    dsimp only
    rw [hptf, ok_bind, hrun', hfull.number_eq hfull']
    rfl

theorem funcCycles_spec
    : ∃ f' cycles, funcCyclesTrans w f = .ok (f', cycles.map (·.map (· + 1)))
        ∧ IsCycles φ (· < d) cycles := by
  obtain ⟨f', hdeg, _, _, hptf⟩ := funcDegree_spec w hf hd
  obtain ⟨s, hrun, cycles, hout, hcycles⟩ := cyclesLoop_spec (isGraph_of_isKernelBag hf hd)
  unfold funcCyclesTrans
  rw [hdeg, ok_bind]
  dsimp only
  split
  . next h0 =>
    refine ⟨f', [], rfl, fun _ h => absurd h List.not_mem_nil, List.Pairwise.nil,
      fun _ h => absurd h List.not_mem_nil, ?_⟩
    intro x hx
    omega
  . rw [hptf, ok_bind, hrun]
    exact ⟨f', cycles, by rw [← hout]; rfl, hcycles⟩

end

theorem map_points_injective
    : Injective fun cycles : List (List Nat) => cycles.map (·.map (· + 1)) :=
  List.map_injective_iff.mpr (List.map_injective_iff.mpr fun _ _ => Nat.succ.inj)

theorem funcCyclesList_iff (hf : IsKernelBag f φ) (hd : IsTransDegree φ d)
    (hlist : ∀ x ∈ list, 0 < x ∧ x ≤ w.intIntobjMax)
    : (∃ f' cycles, funcCyclesTransList w f list = .ok (f', cycles.map (·.map (· + 1)))
        ∧ IsCycles φ (· ∈ listPoints list) cycles)
      ↔ ((listPoints list).filter (d ≤ ·)).Nodup := by
  obtain ⟨f', hdeg, _, _, hptf⟩ := funcDegree_spec w hf hd
  obtain ⟨s, hrun, cycles, hout, hiff⟩ := cyclesListLoop_spec (isGraph_of_isKernelBag hf hd) hlist
  unfold funcCyclesTransList
  rw [hdeg, ok_bind]
  dsimp only
  split
  . next h0 =>
    rw [List.length_eq_zero_iff.mp h0]
    refine iff_of_true ⟨f', [], rfl, fun _ h => absurd h List.not_mem_nil, List.Pairwise.nil,
      fun _ h => absurd h List.not_mem_nil, fun _ h => absurd h List.not_mem_nil⟩ List.nodup_nil
  . rw [hptf, ok_bind, hrun, ← hiff]
    constructor
    . intro ⟨f'', cycles', heq, hcycles⟩
      have heq := (Prod.mk.inj (Except.ok.inj heq)).2
      rw [hout] at heq
      rwa [map_points_injective heq]
    . intro hcycles
      exact ⟨f', cycles, by rw [← hout]; rfl, hcycles⟩

/--
If the image set is stored then the temporary bag was large enough for the internal degree, as this
is its largest element if it is not the degree.
-/
def HasRoom (tmp : List Nat) (f : TransBag) (d : Nat) : Prop :=
  d = 0 ∨ f.img = none ∨ f.entries.length ≤ max d tmp.length

theorem imageSetTmp_spec (tmp : List Nat) (hf : IsKernelBag f φ)
    : ∃ f' img tmp', imageSetTmp tmp f = .ok (f', img, tmp') ∧ f'.tnum = f.tnum
        ∧ f'.entries = f.entries ∧ IsImageSet φ f.entries.length img.entries
        ∧ (f.img = none → f.entries.length ≤ tmp'.length) ∧ (f.img ≠ none → tmp' = tmp) := by
  obtain ⟨f', img, hrun, hf', hentries, himg⟩ := funcUnsortedImageSetTrans_spec hf
  have hset := (hf'.img img himg).1
  rw [hentries] at hset
  have htnum : f'.tnum = f.tnum := by
    unfold funcUnsortedImageSetTrans at hrun
    cases hfimg : f.img with
    | some img' =>
      rw [hfimg] at hrun
      cases hrun
      rfl
    | none =>
      obtain ⟨f₁, r, hinit, _, heq⟩ := initTrans_spec hf
      rw [hfimg] at hrun
      dsimp only at hrun
      rw [hinit, ok_bind, heq] at hrun
      cases hrun
      rfl
  unfold imageSetTmp
  rw [hrun, ok_bind]
  dsimp only
  cases hfimg : f.img with
  | some img' =>
    refine ⟨f', img, tmp, rfl, htnum, hentries, hset, ?_, fun _ => rfl⟩
    intro h
    contradiction
  | none =>
    obtain ⟨s, hinit, hs⟩ := initLoop_spec hf.isEntries hf.deg_lt
    dsimp only
    rw [hinit, ok_bind]
    refine ⟨f', img, _, rfl, htnum, hentries, hset, ?_, fun h => absurd rfl h⟩
    intro _
    rw [List.length_append, hs.length_eq]
    exact Nat.le_add_right _ _

theorem length_mem_image {img : List Nat} (hf : IsKernelBag f φ) (hd : IsTransDegree φ d)
    (himg : IsImageSet φ f.entries.length img) (hlt : d < f.entries.length)
    : f.entries.length ∈ img := by
  have hfix := (isGraph_of_isKernelBag hf hd).fix (f.entries.length - 1) (by omega)
  exact (himg.mem _).mpr ⟨f.entries.length - 1, by omega, by omega⟩

theorem funcComponentReps_iff (hf : IsKernelBag f φ) (hd : IsTransDegree φ d) (hlt : d + 1 < 2 ^ 32)
    : (∃ f' reps, funcComponentRepsTrans w tmp f = .ok (f', reps.map (·.map (· + 1)))
        ∧ IsReps φ (· < d) reps) ↔ HasRoom tmp f d := by
  obtain ⟨f₁, hdeg, heq, hf₁, _⟩ := funcDegree_spec w hf hd
  have hentries : f₁.entries = f.entries := by
    rw [heq]
  have hfimg : f₁.img = f.img := by
    rw [heq]
  obtain ⟨f₂, img, tmp', himgrun, _, hentries₂, himg, hnone, hsome⟩ := imageSetTmp_spec tmp hf₁
  have hg := isGraph_of_isKernelBag hf hd
  have hle := hf.fits.degree_le hd
  have hptf : constAddrTrans f₂.tnum.dataType f₂ = .ok f.entries := by
    rw [constAddrTrans_eq, hentries₂, hentries]
  rw [hentries] at himg hnone
  rw [hfimg] at hnone hsome
  unfold funcComponentRepsTrans HasRoom
  rw [hdeg, ok_bind]
  dsimp only
  by_cases h0 : d = 0
  . rw [if_pos h0]
    refine iff_of_true ⟨f₁, [], rfl, ?_⟩ (.inl h0)
    refine ⟨fun _ h => absurd h List.not_mem_nil, fun _ h => absurd h List.not_mem_nil,
      List.Pairwise.nil, fun _ h => absurd h List.not_mem_nil, ?_, fun l _ => Nat.zero_le _⟩
    intro x hx
    omega
  . have himage : ∀ x ∈ img.entries, 0 < x ∧ x ≤ f.entries.length := by
      intro x hx
      obtain ⟨i, hi, rfl⟩ := (himg.mem x).mp hx
      exact ⟨Nat.succ_pos _, hf.fits.lt i hi⟩
    rw [if_neg h0, himgrun, ok_bind]
    dsimp only
    rw [markImages_eq]
    constructor
    . intro ⟨f', reps, hrun, _⟩
      right
      by_cases hn : f.img = none
      . exact .inl hn
      . right
        by_cases hdlt : d < f.entries.length
        . cases hmark : (img.entries.foldlM (fun seen x => writeEntry .perm4 seen (x - 1) 1)
              (resizeInitTmp tmp' d) : Result (List Nat)) with
          | error e =>
            rw [hmark] at hrun
            contradiction
          | ok seen =>
            have h := le_of_markLoop _ _ _ hmark _ (length_mem_image hf hd himg hdlt)
            rw [length_resizeInitTmp, hsome hn] at h
            omega
        . omega
    . intro hroom
      have hlen : f.entries.length ≤ (resizeInitTmp tmp' d).length := by
        rw [length_resizeInitTmp]
        by_cases hn : f.img = none
        . have := hnone hn
          omega
        . rw [hsome hn]
          exact (hroom.resolve_left h0).resolve_left hn
      have hmark := markLoop_spec img.entries (resizeInitTmp tmp' d) fun x hx =>
        ⟨(himage x hx).1, Nat.le_trans (himage x hx).2 hlen⟩
      obtain ⟨s, hrun, reps, hout, hreps⟩ := repsLoops_spec hg hlt (isRepsState_nil himg hg hle
        (Nat.le_trans hle hlen) fun x hx => getElem?_resizeInitTmp tmp' hx)
      refine ⟨f₂, reps, ?_, hreps⟩
      rw [hmark, ok_bind, hptf, ok_bind, ← hout]
      obtain ⟨s₁, hrun₁, hrun₂⟩ := of_bind_eq_ok hrun
      rw [hrun₁, ok_bind, hrun₂]
      rfl

end Functions

/--
The functions return the index and the period, the components, the cycles and the representatives of
the transformation, where `tmp` is the temporary bag before the representatives are asked for.
-/
structure RightDigraph (w : IntSize) (tmp : List Nat) (f : TransBag) (φ : Nat → Nat) (d : Nat)
    (list : List Int) : Prop where
  indexPeriod : ∃ f' m r, funcIndexPeriodOfTransformation w f = .ok (f', m, r)
    ∧ IsLeast {m | 0 < m ∧ ∃ r, 0 < r ∧ φ^[m] = φ^[m + r]} m
    ∧ IsLeast {r | 0 < r ∧ φ^[m] = φ^[m + r]} r
  idemPow : ∃ f' k, funcSmallestIdemPowTrans w f = .ok (f', k)
    ∧ IsLeast {k | 0 < k ∧ φ^[k] ∘ φ^[k] = φ^[k]} k
  components : ∃ f₁ f₂ comps, IsPartition φ (· < d) comps
    ∧ funcComponentsTrans w f = .ok (f₁, comps.map (·.map (· + 1)))
    ∧ funcNrComponentsTrans w f = .ok (f₂, comps.length)
  cycles : ∃ f' cycles, funcCyclesTrans w f = .ok (f', cycles.map (·.map (· + 1)))
    ∧ IsCycles φ (· < d) cycles
  reps : ∃ f' reps, funcComponentRepsTrans w tmp f = .ok (f', reps.map (·.map (· + 1)))
    ∧ IsReps φ (· < d) reps
  cyclesList : ∃ f' cycles, funcCyclesTransList w f list = .ok (f', cycles.map (·.map (· + 1)))
    ∧ IsCycles φ (· ∈ listPoints list) cycles

theorem rightDigraph_iff {w : IntSize} {tmp : List Nat} {f : TransBag} {d : Nat} {list : List Int}
    (hf : IsKernelBag f φ) (hd : IsTransDegree φ d)
    (hlist : ∀ x ∈ list, 0 < x ∧ x ≤ w.intIntobjMax)
    : RightDigraph w tmp f φ d list ↔ d + 1 < 2 ^ 32 ∧ HasRoom tmp f d
        ∧ ((listPoints list).filter (d ≤ ·)).Nodup := by
  constructor
  . intro h
    obtain ⟨f', m, r, hrun, _⟩ := h.indexPeriod
    have hlt := lt_of_funcIndexPeriod hf hd hrun
    exact ⟨hlt, (funcComponentReps_iff hf hd hlt).mp h.reps,
      (funcCyclesList_iff hf hd hlist).mp h.cyclesList⟩
  . intro ⟨hlt, hroom, hnodup⟩
    obtain ⟨f', m, r, hperiod, hmr⟩ := funcIndexPeriod_spec (w := w) hf hd hlt
    constructor
    . exact ⟨f', m, r, hperiod, hmr.isLeast_index, hmr.isLeast_period⟩
    . exact funcSmallestIdemPow_spec hf hd hlt
    . exact funcComponents_spec hf hd hlt
    . exact funcCycles_spec hf hd
    . exact (funcComponentReps_iff hf hd hlt).mpr hroom
    . exact (funcCyclesList_iff hf hd hlist).mpr hnodup

theorem isKernelBag_exampleSwap
    : IsKernelBag TransOps.exampleSwap (PermList.image [1, 0])
      ∧ IsTransDegree (PermList.image [1, 0]) 2 := by
  have hbag : IsKernelBag TransOps.exampleSwap (PermList.image [1, 0]) := by
    apply TransOps.isKernelBag_newTrans _ (by decide)
    apply TransOps.isTransBag_image rfl (by decide) (by decide)
  exact ⟨hbag, hbag.fits.isTransDegree (.inr (by decide))⟩

theorem rightDigraph_exampleSwap
    : RightDigraph .int8 [] TransOps.exampleSwap (PermList.image [1, 0]) 2 [1, 3] :=
  (rightDigraph_iff isKernelBag_exampleSwap.1 isKernelBag_exampleSwap.2 (by decide)).mpr
    ⟨by decide, .inr (.inl rfl), by decide⟩

/-- A point from the degree on that comes twice, it is listed twice. -/
theorem not_rightDigraph_exampleSwap
    : IsKernelBag TransOps.exampleSwap (PermList.image [1, 0])
      ∧ IsTransDegree (PermList.image [1, 0]) 2
      ∧ ¬RightDigraph .int8 [] TransOps.exampleSwap (PermList.image [1, 0]) 2 [3, 3] := by
  refine ⟨isKernelBag_exampleSwap.1, isKernelBag_exampleSwap.2, ?_⟩
  intro h
  obtain ⟨f', cycles, hrun, hcycles⟩ := h.cyclesList
  have hlist : funcCyclesTransList .int8 TransOps.exampleSwap [3, 3]
      = .ok ({ TransOps.exampleSwap with ext := some 2 }, [[2], [2]].map (·.map (· + 1))) := by
    decide
  rw [hlist] at hrun
  have heq := map_points_injective (Prod.mk.inj (Except.ok.inj hrun)).2
  have hapart := hcycles.apart
  rw [← heq] at hapart
  have h := List.rel_of_pairwise_cons hapart (List.mem_singleton_self [2])
  exact h 2 (by decide) 2 (by decide) (Connected.refl 2)

end TransComponents
