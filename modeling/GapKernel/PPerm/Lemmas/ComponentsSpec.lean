import GapKernel.PPerm.Lemmas.Components
import GapKernel.PPerm.Lemmas.RestrictSpec

open PartialBijection PartialComponents PPermImpl List
open Nat (le_succ_of_le)

namespace PPermComponents

section Walks

variable {φ : Nat ≃. Nat} {ptf seen : List Nat} {n : Nat} {p : PointPath Nat}

structure IsBounded (n : Nat) (p : PointPath Nat) : Prop where
  lt : ∀ x ∈ p.points, x < n
  length : p.points.length ≤ n

theorem isBounded_of_nodup (hlt : ∀ x ∈ p.points, x < n) (hnodup : p.points.Nodup)
    : IsBounded n p where
  lt := hlt
  length := by
    have h := @length_le_card _ _ (Finset.range n) hnodup fun x hx =>
      Finset.mem_range.mpr (hlt x hx)
    rwa [Finset.card_range] at h

theorem isBounded_of_isCollected (hbound : ∀ i v, φ i = some v → i < n ∧ v < n)
    {comps : List (PointPath Nat)} (h : IsCollected φ (comps ++ [p])) : IsBounded n p := by
  apply isBounded_of_nodup
  . intro x hx
    have hmoved : φ x ≠ none ∨ φ.symm x ≠ none := by
      cases h.component p (by simp) with
      | inl hp => exact hp.moved_or_image hx
      | inr hp => exact .inl (hp.moved hx)
    cases hmoved with
    | inl hne =>
      obtain ⟨v, hv⟩ := Option.ne_none_iff_exists'.mp hne
      exact (hbound x v hv).1
    | inr hne =>
      obtain ⟨i, hi⟩ := Option.ne_none_iff_exists'.mp hne
      exact (hbound i x (φ.eq_some_iff.mp hi)).2
  . exact (nodup_flatMap.mp h.nodup).1 p (by simp)

theorem foldl_count (v : Nat) (l seen : List Nat) (len : Nat)
    : l.foldl (fun (s : List Nat × Nat) x => (s.1.set x v, s.2 + 1)) (seen, len)
        = (setAll v l seen, len + l.length) := by
  induction l generalizing seen len with
  | nil => rfl
  | cons x l ih =>
    rw [foldl_cons, ih, length_cons]
    rw [Nat.add_assoc, Nat.add_comm 1]
    rfl

theorem foldl_list (v : Nat) (l seen out : List Nat)
    : l.foldl (fun (s : List Nat × List Nat) x => (s.1.set x v, s.2 ++ [x + 1])) (seen, out)
        = (setAll v l seen, out ++ l.map (· + 1)) := by
  induction l generalizing seen out with
  | nil =>
    rw [map_nil, append_nil]
    rfl
  | cons x l ih =>
    rw [foldl_cons, ih, map_cons, append_assoc, singleton_append]
    rfl

variable {l : List Nat} {v : Nat}

section

variable (hl : ∀ x ∈ l, x < n) (hv : v < 2 ^ 32)

include hl hv

theorem count_round
    : IsRound (fun s : List Nat × Nat => s.1.length = n) (fun k s => do
        let seen ← setSeen s.1 k v
        return (seen, s.2 + 1)) (fun s x => (s.1.set x v, s.2 + 1)) l := by
  intro x hx s hs
  dsimp only at hs ⊢
  rw [setSeen_spec (by rw [hs]; exact hl x hx) hv, length_set]
  exact ⟨rfl, hs⟩

theorem mark_round
    : IsRound (fun seen : List Nat => seen.length = n) (fun k seen => setSeen seen k v)
        (fun seen x => seen.set x v) l := by
  intro x hx seen hs
  dsimp only at hs ⊢
  rw [setSeen_spec (by rw [hs]; exact hl x hx) hv, length_set]
  exact ⟨rfl, hs⟩

theorem list_round
    : IsRound (fun s : List Nat × List Nat => s.1.length = n) (listBody v)
        (fun s x => (s.1.set x v, s.2 ++ [x + 1])) l := by
  intro x hx s hs
  dsimp only at hs ⊢
  unfold listBody
  rw [setSeen_spec (by rw [hs]; exact hl x hx) hv, length_set]
  exact ⟨rfl, hs⟩

end

theorem setAll_dropLast (v : Nat) (p : PointPath Nat) (seen : List Nat)
    : (setAll v p.points.dropLast seen).set p.last v = setAll v p.points seen := by
  have hsplit : p.points.dropLast ++ [p.last] = p.points :=
    dropLast_append_getLast (cons_ne_nil p.first p.rest)
  conv =>
    rhs
    rw [← hsplit]
  unfold setAll
  rw [foldl_append]
  rfl

section

variable (hpt : IsImageList φ ptf) (hp : IsMaxChain φ p) (hb : IsBounded n p)
  (hseen : seen.length = n)

include hpt hp hb hseen

theorem markChain_spec
    : markChain ptf (n + 1) p.first seen = .ok (setAll 2 p.points seen) := by
  have hloop := chainLoop_spec hpt hp.walk hp.last (mark_round hb.lt (show 2 < 2 ^ 32 by decide))
    (le_succ_of_le hb.length) hseen
  unfold markChain
  rw [hloop, ok_bind]
  have hlast : p.last < (setAll 2 p.points.dropLast seen).length := by
    rw [length_setAll, hseen]
    exact hb.lt _ (getLast_mem _)
  refine (setSeen_spec hlast (by decide)).trans ?_
  rw [setAll_dropLast]

theorem indexChain_spec (pow : Nat)
    : indexChain ptf (n + 1) p.first (seen, pow)
        = .ok (setAll 2 p.points seen, if p.rest.length > pow then p.rest.length else pow) := by
  obtain ⟨a, l⟩ := p
  cases l with
  | nil => exact absurd rfl hp.moved
  | cons b l =>
    have hab : φ a = some b := (isChain_cons_cons.mp hp.walk).1
    have ha : a < seen.length := by
      rw [hseen]
      exact hb.lt a mem_cons_self
    have hlt : ∀ x ∈ (⟨b, l⟩ : PointPath Nat).points, x < n := fun x hx =>
      hb.lt x (mem_cons_of_mem a hx)
    have hlen : (⟨b, l⟩ : PointPath Nat).points.length ≤ n + 1 :=
      le_succ_of_le (Nat.le_of_succ_le hb.length)
    have hset : (seen.set a 2).length = n := by
      rw [length_set, hseen]
    have hloop := chainLoop_spec (p := ⟨b, l⟩) hpt (isChain_cons_cons.mp hp.walk).2 hp.last
      (count_round hlt (show 2 < 2 ^ 32 by decide)) hlen (s := (seen.set a 2, 1)) hset
    have hlast : (⟨b, l⟩ : PointPath Nat).last
        < (setAll 2 (⟨b, l⟩ : PointPath Nat).points.dropLast (seen.set a 2)).length := by
      rw [length_setAll, hset]
      exact hlt _ (getLast_mem _)
    unfold indexChain
    rw [setSeen_spec ha (by decide), ok_bind, elmPtf_spec hpt (hpt.lt_length hab), ok_bind, hab]
    rw [entryOf_some, hloop, ok_bind, foldl_count]
    dsimp only
    rw [setSeen_spec hlast (by decide), ok_bind, setAll_dropLast]
    have hcount : 1 + (⟨b, l⟩ : PointPath Nat).points.dropLast.length = (b :: l).length := by
      unfold PointPath.points
      rw [length_dropLast, length_cons]
      omega
    rw [hcount]
    rfl

theorem listChain_spec {cap : Nat} {out : List (List Nat)} (hcap : out.length < cap)
    : listChain ptf (n + 1) p.first cap (seen, out)
        = .ok (setAll 2 p.points seen, out ++ [p.points.map (· + 1)]) := by
  obtain ⟨_, hfirst, hnext⟩ := IsMaxChain.leads hpt hp
  have hloop := doUntilLoop_spec hfirst hnext (list_round hb.lt (show 2 < 2 ^ 32 by decide))
    (le_succ_of_le hb.length) (s := (seen, [])) hseen
  unfold listChain pushElm
  rw [hloop, ok_bind, foldl_list]
  dsimp only
  rw [if_pos hcap]
  rfl

end

variable (hpt : IsImageList φ ptf) (hp : IsCycle φ p) (hb : IsBounded n p) (hseen : seen.length = n)

include hpt hp hb hseen

theorem markCycle_spec
    : markCycle ptf (n + 1) p.first seen = .ok (setAll 0 p.points seen) := by
  obtain ⟨hfirst, hnext⟩ := IsCycle.leads hpt hp
  have hlt : ∀ x ∈ p.rest, x < n := fun x hx => hb.lt x (mem_cons_of_mem _ hx)
  have hset : (seen.set p.first 0).length = n := by
    rw [length_set, hseen]
  have hloop := untilLoop_spec hnext (mark_round hlt (show 0 < 2 ^ 32 by decide))
    (show p.rest.length < n + 1 from Nat.lt_succ_of_lt hb.length) hset
  unfold markCycle
  rw [setSeen_spec (by rw [hseen]; exact hb.lt _ p.first_mem) (by decide), ok_bind, hfirst, ok_bind,
    hloop]
  rfl

theorem indexCycle_spec (ord : Nat)
    : indexCycle ptf (n + 1) p.first (seen, ord)
        = .ok (setAll 0 p.rest seen, ord.lcm p.points.length) := by
  obtain ⟨hfirst, hnext⟩ := IsCycle.leads hpt hp
  have hlt : ∀ x ∈ p.rest, x < n := fun x hx => hb.lt x (mem_cons_of_mem _ hx)
  have hloop := untilLoop_spec hnext (count_round hlt (show 0 < 2 ^ 32 by decide))
    (show p.rest.length < n + 1 from Nat.lt_succ_of_lt hb.length) (s := (seen, 1)) hseen
  unfold indexCycle
  rw [hfirst, ok_bind, hloop, ok_bind, foldl_count]
  rw [Nat.add_comm 1]
  rfl

theorem listCycle_spec {cap : Nat} {out : List (List Nat)} (hcap : out.length < cap)
    : listCycle ptf (n + 1) p.first cap (seen, out)
        = .ok (setAll 0 p.points seen, out ++ [p.points.map (· + 1)]) := by
  obtain ⟨hfirst, hnext⟩ := IsCycle.leads hpt hp
  have hloop := doUntilLoop_spec hfirst hnext (list_round hb.lt (show 0 < 2 ^ 32 by decide))
    (le_succ_of_le hb.length) (s := (seen, [])) hseen
  unfold listCycle pushElm
  rw [hloop, ok_bind, foldl_list]
  dsimp only
  rw [if_pos hcap]
  rfl

end Walks

section Count

variable {φ : Nat ≃. Nat} {n : Nat} {dom : List Nat} {comps : List (PointPath Nat)}

theorem sublist_first (comps : List (PointPath Nat))
    : (comps.map PointPath.first).Sublist (comps.flatMap PointPath.points) := by
  induction comps with
  | nil => exact List.Sublist.slnil
  | cons p comps ih =>
    rw [map_cons, flatMap_cons]
    exact (ih.trans (sublist_append_right p.rest _)).cons_cons p.first

theorem first_moved {p : PointPath Nat} (hp : IsMaxChain φ p ∨ IsCycle φ p) : φ p.first ≠ none := by
  cases hp with
  | inl hp =>
    have hlen : 0 < p.rest.length := length_pos_iff.mpr hp.moved
    have hnext := hp.walk.next (Nat.succ_lt_succ hlen)
    have hnext : φ p.first = _ := hnext
    rw [hnext]
    exact Option.some_ne_none _
  | inr hp => exact hp.moved p.first_mem

theorem mem_domPoints_iff (hdom : IsDomList φ dom) {j : Nat} : j ∈ domPoints dom ↔ φ j ≠ none := by
  unfold domPoints
  rw [mem_map, Option.ne_none_iff_exists']
  constructor
  . intro ⟨x, hx, hxj⟩
    obtain ⟨i, v, hv, rfl⟩ := (hdom.mem x).mp hx
    rw [← hxj, Nat.add_sub_cancel]
    exact ⟨v, hv⟩
  . intro ⟨v, hv⟩
    exact ⟨j + 1, (hdom.mem _).mpr ⟨j, v, hv, rfl⟩, Nat.add_sub_cancel j 1⟩

theorem nodup_domPoints (hdom : IsDomList φ dom) : (domPoints dom).Nodup := by
  apply List.Nodup.map_on _ hdom.nodup
  intro x hx y hy hxy
  obtain ⟨i, v, _, rfl⟩ := (hdom.mem x).mp hx
  obtain ⟨j, u, _, rfl⟩ := (hdom.mem y).mp hy
  exact congrArg (· + 1) hxy

theorem collected_length_le (h : IsCollected φ comps) (hdom : IsDomList φ dom)
    : comps.length ≤ dom.length := by
  have hnodup : (comps.map PointPath.first).Nodup := h.nodup.sublist (sublist_first comps)
  have hsub : comps.map PointPath.first ⊆ domPoints dom := by
    intro x hx
    obtain ⟨p, hp, rfl⟩ := mem_map.mp hx
    exact (mem_domPoints_iff hdom).mpr (first_moved (h.component p hp))
  have hle := (hnodup.subperm hsub).length_le
  unfold domPoints at hle
  rwa [length_map, length_map] at hle

theorem domList_length_le (hdom : IsDomList φ dom) (hbound : ∀ i v, φ i = some v → i < n)
    : dom.length ≤ n := by
  have h := @length_le_card _ _ (Finset.range n) (nodup_domPoints hdom) fun x hx => by
    obtain ⟨v, hv⟩ := Option.ne_none_iff_exists'.mp ((mem_domPoints_iff hdom).mp hx)
    exact Finset.mem_range.mpr (hbound x v hv)
  unfold domPoints at h
  rwa [length_map, Finset.card_range] at h

end Count

section Runs

variable {f : PPermBag} {φ : Nat ≃. Nat}

structure HasRuns (f f' : PPermBag) (φ : Nat ≃. Nat) (dom img seen : List Nat)
    (chains cycles : List (PointPath Nat)) : Prop where
  rank_eq : rankPPerm f = .ok (f', dom.length)
  bag : IsPPermBag f' φ
  slots_eq : slots f' = .ok (dom, img)
  seen_eq : findImg (maxDegree f) dom.length img = .ok seen
  entries_eq : constAddrPPerm f'.tnum.dataType f' = .ok f'.entries
  domList : IsDomList φ dom
  length_le : dom.length ≤ f.entries.length
  components : IsComponents φ chains cycles
  loops : ∀ {σ τ : Type} {walk : Nat → List Nat × σ → Result (List Nat × σ)}
    {walk' : Nat → List Nat × τ → Result (List Nat × τ)} {F : List (PointPath Nat) → σ}
    {G : List (PointPath Nat) → τ}, WalksChains φ (maxDegree f) walk F
    → WalksCycles φ (maxDegree f) chains walk' G
    → ∃ seen' seen'', startLoop dom dom.length 0 walk (seen, F []) = .ok (seen', F chains)
      ∧ startLoop dom dom.length 1 walk' (seen', G []) = .ok (seen'', G cycles)

theorem lt_maxDegree (hf : IsPPermBag f φ) {i v : Nat} (hv : φ i = some v)
    : i < maxDegree f ∧ v < maxDegree f := by
  have h := hf.image_lt hv
  unfold maxDegree
  rw [hf.codegPPerm_eq]
  omega

theorem exists_hasRuns (hf : IsPPermBag f φ) (hslots : IsSlots f φ)
    : ∃ f' dom img seen chains cycles, HasRuns f f' φ dom img seen chains cycles := by
  have hbound : ∀ i v, φ i = some v → i < maxDegree f ∧ v < maxDegree f := fun _ _ hv =>
    lt_maxDegree hf hv
  obtain ⟨f', dom, img, hrank, hf', hslots', hdom, himg, htnum, hentries, hcodeg⟩ :=
    rankPPerm_slots hf hslots
  have hdomList := hf'.dom dom hdom
  have hlen : img.length = dom.length := hf'.img dom img hdom himg
  obtain ⟨seen, hseen, hmark⟩ := findImg_spec (hslots'.img img himg) fun i v hv => (hbound i v hv).2
  rw [hlen] at hseen
  have hmoved : ∀ j ∈ domPoints dom, φ j ≠ none := fun _ => (mem_domPoints_iff hdomList).mp
  obtain ⟨chains, hcoll, hchains, hfirst, hrun⟩ := chains_spec hbound hmoved
    isCollected_nil (fun _ hp => absurd hp not_mem_nil)
  rw [nil_append] at hcoll hchains hfirst
  have hfirst' : ∀ x, φ x ≠ none → φ.symm x = none → x ∈ chains.flatMap PointPath.points :=
    fun x hx => hfirst x ((mem_domPoints_iff hdomList).mpr hx)
  rw [← append_nil chains] at hcoll
  obtain ⟨cycles, hcoll', hcycles, hall, hrun'⟩ := cycles_spec hbound hmoved
    (nodup_domPoints hdomList) hfirst' hcoll (fun _ hp => absurd hp not_mem_nil)
  rw [nil_append] at hcoll' hcycles hall
  refine ⟨f', dom, img, seen, chains, cycles, hrank, hf', ?_, hseen, constAddrPPerm_eq f', hdomList,
    domList_length_le hdomList fun i v hv => hf.degree.lt i v hv,
    hcoll'.isComponents hchains hcycles fun x hx =>
      hall x ((mem_domPoints_iff hdomList).mpr hx), ?_⟩
  . unfold slots
    rw [hdom, himg]
    rfl
  . intro σ τ walk walk' F G hwalk hwalk'
    have hpos : ∀ x ∈ dom, 0 < x := by
      intro x hx
      obtain ⟨i, v, _, rfl⟩ := (hdomList.mem x).mp hx
      exact Nat.succ_pos i
    obtain ⟨seen', hloop, hmark'⟩ := hrun hwalk seen hmark
    rw [nil_append] at hloop hmark'
    -- The points that are not on a chain are images.
    have hlabel : ∀ x ∈ domPoints dom,
        seen'[x]? = some 1 ↔ x ∉ (chains ++ []).flatMap PointPath.points := by
      intro x hx
      obtain ⟨v, hv⟩ := Option.ne_none_iff_exists'.mp (hmoved x hx)
      rw [hmark'.label x (hbound x v hv).1, append_nil]
      by_cases hmem : x ∈ chains.flatMap PointPath.points
      . rw [if_pos hmem]
        exact iff_of_false (by decide) (not_not_intro hmem)
      . rw [if_neg hmem, if_neg fun hsymm => hmem (hfirst x hx hsymm)]
        exact iff_of_true rfl hmem
    obtain ⟨seen'', hloop'⟩ := hrun' hwalk' seen' hmark'.length hlabel
    rw [nil_append] at hloop'
    refine ⟨seen', seen'', ?_, ?_⟩
    . rw [startLoop_eq hpos]
      exact hloop
    . rw [startLoop_eq hpos]
      exact hloop'

end Runs

section Functions

variable {f f' : PPermBag} {φ : Nat ≃. Nat} {dom img seen : List Nat}
  {chains cycles : List (PointPath Nat)}

section

variable {σ : Type} {n : Nat} {walk : Nat → List Nat × σ → Result (List Nat × σ)}
  {F : List (PointPath Nat) → σ} (hbound : ∀ i v, φ i = some v → i < n ∧ v < n)

include hbound

theorem walksChains_of
    (h : ∀ comps p seen, IsCollected φ (comps ++ [p]) → IsMaxChain φ p → IsBounded n p → seen.length = n → walk p.first (seen, F comps) = .ok (setAll 2 p.points seen, F (comps ++ [p])))
    : WalksChains φ n walk F :=
  fun comps p seen hcoll hp hseen =>
    h comps p seen hcoll hp (isBounded_of_isCollected hbound hcoll) hseen

theorem walksCycles_of
    (h : ∀ comps p seen, IsCollected φ (chains ++ comps ++ [p]) → IsCycle φ p → IsBounded n p → seen.length = n → walk p.first (seen, F comps) = .ok (setAll 0 p.points seen, F (comps ++ [p])))
    : WalksCycles φ n chains walk F := by
  intro comps p seen hcoll hp hseen
  rw [← append_assoc] at hcoll
  exact .inl (h comps p seen hcoll hp (isBounded_of_isCollected hbound hcoll) hseen)

end

theorem funcIndexPeriodPPerm_eq (hf : IsPPermBag f φ)
    (h : HasRuns f f' φ dom img seen chains cycles)
    : funcIndexPeriodPPerm f = .ok (f', longest chains + 1, commonLength cycles) := by
  have hbound : ∀ i v, φ i = some v → i < maxDegree f ∧ v < maxDegree f := fun _ _ hv =>
    lt_maxDegree hf hv
  have hpt := h.bag.images
  have hchains : WalksChains φ (maxDegree f) (indexChain f'.entries (maxDegree f + 1)) longest := by
    apply walksChains_of hbound
    intro comps p seen _ hp hb hseen
    rw [indexChain_spec hpt hp hb hseen]
    unfold longest
    rw [foldl_append]
    rfl
  have hcycles : WalksCycles φ (maxDegree f) chains (indexCycle f'.entries (maxDegree f + 1))
      commonLength := by
    intro comps p seen hcoll hp hseen
    rw [← append_assoc] at hcoll
    right
    rw [indexCycle_spec hpt hp (isBounded_of_isCollected hbound hcoll) hseen]
    unfold commonLength
    rw [foldl_append]
    rfl
  obtain ⟨seen', seen'', hloop, hloop'⟩ := h.loops hchains hcycles
  unfold funcIndexPeriodPPerm
  rw [h.rank_eq, ok_bind]
  dsimp only
  rw [h.slots_eq, ok_bind]
  rw [h.seen_eq, ok_bind, h.entries_eq, ok_bind]
  change startLoop dom dom.length 0 _ (seen, 0) = _ at hloop
  change startLoop dom dom.length 1 _ (seen', 1) = _ at hloop'
  rw [hloop, ok_bind]
  rw [hloop']
  rfl

theorem idemLoop_spec {ind per : Nat} (hper : 0 < per) {fuel pow : Nat} (hpow : 0 < pow)
    (hdvd : per ∣ pow) (hlt : pow < ind + per) (hfuel : 0 < fuel) (hind : ind < pow + fuel)
    : ∃ k, idemLoop ind per fuel pow = .ok k ∧ 0 < k ∧ per ∣ k ∧ ind ≤ k ∧ k < ind + per := by
  induction fuel generalizing pow with
  | zero => contradiction
  | succ fuel ih =>
    unfold idemLoop
    split
    . next hlow =>
      apply ih (by omega) (Nat.dvd_add hdvd (Nat.dvd_refl per))
      all_goals omega
    . next hlow => exact ⟨pow, rfl, hpow, hdvd, Nat.not_lt.mp hlow, hlt⟩

theorem funcSmallestIdemPowPPerm_spec (hf : IsPPermBag f φ)
    (h : HasRuns f f' φ dom img seen chains cycles)
    : ∃ k, funcSmallestIdemPowPPerm f = .ok (f', k)
        ∧ IsLeast {k | 0 < k ∧ (power φ k).trans (power φ k) = power φ k} k := by
  have hperiod := h.components.hasIndexPeriod
  obtain ⟨k, hrun, hpos, hdvd, hle, hlt⟩ := idemLoop_spec hperiod.period_pos
    hperiod.period_pos (Nat.dvd_refl _) (Nat.lt_add_of_pos_left hperiod.index_pos)
    (Nat.succ_pos (longest chains + 1)) (by omega)
  have hleast := hperiod.isLeast_idem hpos hdvd hle hlt
  simp only [power_add] at hleast
  refine ⟨k, ?_, ?_⟩
  . unfold funcSmallestIdemPowPPerm
    rw [funcIndexPeriodPPerm_eq hf h, ok_bind]
    dsimp only
    rw [hrun]
    rfl
  . simp only [eq_comm] at hleast ⊢
    exact hleast

theorem components_eq_nil (hf : IsPPermBag f φ) (h : IsComponents φ chains cycles)
    (hn : maxDegree f = 0) : chains ++ cycles = [] := by
  rw [eq_nil_iff_forall_not_mem]
  intro p hp
  have hmoved : φ p.first ≠ none := by
    apply first_moved
    cases mem_append.mp hp with
    | inl hp => exact .inl (h.chain p hp)
    | inr hp => exact .inr (h.cycle p hp)
  obtain ⟨v, hv⟩ := Option.ne_none_iff_exists'.mp hmoved
  have := lt_maxDegree hf hv
  omega

theorem map_snoc {α β : Type} (g : α → β) (l : List α) (x : α)
    : (l ++ [x]).map g = l.map g ++ [g x] := by
  rw [map_append, map_singleton]

theorem pushElm_spec {α : Type} {cap : Nat} {out : List α} (hcap : out.length < cap) (elm : α)
    : pushElm cap out elm = .ok (out ++ [elm]) := by
  unfold pushElm
  rw [if_pos hcap]
  rfl

variable (hf : IsPPermBag f φ) (h : HasRuns f f' φ dom img seen chains cycles)

include hf h

theorem funcComponentRepsPPerm_eq
    : ∃ f₀, funcComponentRepsPPerm f = .ok (f₀, (chains ++ cycles).map (·.first + 1))
        ∧ IsPPermBag f₀ φ := by
  have hbound : ∀ i v, φ i = some v → i < maxDegree f ∧ v < maxDegree f := fun _ _ hv =>
    lt_maxDegree hf hv
  have hpt := h.bag.images
  unfold funcComponentRepsPPerm
  dsimp only
  split
  . next hn =>
    rw [components_eq_nil hf h.components hn]
    exact ⟨f, rfl, hf⟩
  . refine ⟨f', ?_, h.bag⟩
    have hchains : WalksChains φ (maxDegree f) (fun j s => do
        let seen ← markChain f'.entries (maxDegree f + 1) j s.1
        return (seen, ← pushElm f.entries.length s.2 (j + 1)))
        (fun comps => comps.map (·.first + 1)) := by
      apply walksChains_of hbound
      intro comps p seen hcoll hp hb hseen
      have hcap := collected_length_le hcoll h.domList
      rw [length_append, length_singleton] at hcap
      rw [markChain_spec hpt hp hb hseen, ok_bind, pushElm_spec, map_snoc]
      . rfl
      . rw [length_map]
        exact Nat.lt_of_lt_of_le hcap h.length_le
    have hcycles : WalksCycles φ (maxDegree f) chains (fun j s => do
        let seen ← markCycle f'.entries (maxDegree f + 1) j s.1
        return (seen, ← pushElm f.entries.length s.2 (j + 1)))
        (fun comps => (chains ++ comps).map (·.first + 1)) := by
      apply walksCycles_of hbound
      intro comps p seen hcoll hp hb hseen
      have hcap := collected_length_le hcoll h.domList
      rw [length_append, length_singleton] at hcap
      rw [markCycle_spec hpt hp hb hseen, ok_bind, pushElm_spec, ← append_assoc,
        map_snoc]
      . rfl
      . rw [length_map]
        exact Nat.lt_of_lt_of_le hcap h.length_le
    obtain ⟨seen', seen'', hloop, hloop'⟩ := h.loops hchains hcycles
    rw [append_nil] at hloop'
    rw [h.rank_eq, ok_bind]
    rw [h.slots_eq, ok_bind]
    rw [h.seen_eq, ok_bind, h.entries_eq, ok_bind]
    change startLoop dom dom.length 0 _ (seen, []) = _ at hloop
    rw [hloop, ok_bind, hloop']
    rfl

theorem funcNrComponentsPPerm_eq
    : funcNrComponentsPPerm f = .ok (f', (chains ++ cycles).length) := by
  have hbound : ∀ i v, φ i = some v → i < maxDegree f ∧ v < maxDegree f := fun _ _ hv =>
    lt_maxDegree hf hv
  have hpt := h.bag.images
  have hchains : WalksChains φ (maxDegree f) (fun j s => do
      let seen ← markChain f'.entries (maxDegree f + 1) j s.1
      return (seen, s.2 + 1)) List.length := by
    apply walksChains_of hbound
    intro comps p seen _ hp hb hseen
    rw [markChain_spec hpt hp hb hseen, length_append]
    rfl
  have hcycles : WalksCycles φ (maxDegree f) chains (fun j s => do
      let seen ← markCycle f'.entries (maxDegree f + 1) j s.1
      return (seen, s.2 + 1)) (fun comps => (chains ++ comps).length) := by
    apply walksCycles_of hbound
    intro comps p seen _ hp hb hseen
    rw [markCycle_spec hpt hp hb hseen, ← append_assoc, @length_append _ _ [p]]
    rfl
  obtain ⟨seen', seen'', hloop, hloop'⟩ := h.loops hchains hcycles
  rw [append_nil] at hloop'
  unfold funcNrComponentsPPerm
  rw [h.rank_eq, ok_bind]
  dsimp only
  rw [h.slots_eq, ok_bind]
  rw [h.seen_eq, ok_bind, h.entries_eq, ok_bind]
  change startLoop dom dom.length 0 _ (seen, 0) = _ at hloop
  rw [hloop, ok_bind, hloop']
  rfl

theorem funcComponentsPPerm_eq
    : ∃ f₀, funcComponentsPPerm f = .ok (f₀, (chains ++ cycles).map (·.points.map (· + 1)))
        ∧ IsPPermBag f₀ φ := by
  have hbound : ∀ i v, φ i = some v → i < maxDegree f ∧ v < maxDegree f := fun _ _ hv =>
    lt_maxDegree hf hv
  have hpt := h.bag.images
  unfold funcComponentsPPerm
  dsimp only
  split
  . next hn =>
    rw [components_eq_nil hf h.components hn]
    exact ⟨f, rfl, hf⟩
  . refine ⟨f', ?_, h.bag⟩
    have hchains : WalksChains φ (maxDegree f)
        (fun j s => listChain f'.entries (maxDegree f + 1) j dom.length s)
        (fun comps => comps.map (·.points.map (· + 1))) := by
      apply walksChains_of hbound
      intro comps p seen hcoll hp hb hseen
      have hcap := collected_length_le hcoll h.domList
      rw [length_append, length_singleton] at hcap
      rw [listChain_spec hpt hp hb hseen, map_snoc]
      rw [length_map]
      exact hcap
    have hcycles : WalksCycles φ (maxDegree f) chains
        (fun j s => listCycle f'.entries (maxDegree f + 1) j dom.length s)
        (fun comps => (chains ++ comps).map (·.points.map (· + 1))) := by
      apply walksCycles_of hbound
      intro comps p seen hcoll hp hb hseen
      have hcap := collected_length_le hcoll h.domList
      rw [length_append, length_singleton] at hcap
      rw [listCycle_spec hpt hp hb hseen, ← append_assoc, map_snoc]
      rw [length_map]
      exact hcap
    obtain ⟨seen', seen'', hloop, hloop'⟩ := h.loops hchains hcycles
    rw [append_nil] at hloop'
    rw [h.rank_eq, ok_bind]
    rw [h.slots_eq, ok_bind]
    rw [h.seen_eq, ok_bind, h.entries_eq, ok_bind]
    change startLoop dom dom.length 0 _ (seen, []) = _ at hloop
    rw [hloop, ok_bind, hloop']
    rfl

end Functions

structure RightComponents (f : PPermBag) (φ : Nat ≃. Nat) : Prop where
  indexPeriod : ∃ f' m r, funcIndexPeriodPPerm f = .ok (f', m, r) ∧ IsPPermBag f' φ
    ∧ IsLeast {m | 0 < m ∧ ∃ d, 0 < d ∧ power φ m = power φ (m + d)} m
    ∧ IsLeast {d | 0 < d ∧ power φ m = power φ (m + d)} r
  idemPow : ∃ f' k, funcSmallestIdemPowPPerm f = .ok (f', k) ∧ IsPPermBag f' φ
    ∧ IsLeast {k | 0 < k ∧ (power φ k).trans (power φ k) = power φ k} k
  components : ∃ f₁ f₂ f₃ chains cycles, IsComponents φ chains cycles
    ∧ funcComponentsPPerm f = .ok (f₁, (chains ++ cycles).map (·.points.map (· + 1)))
    ∧ funcComponentRepsPPerm f = .ok (f₂, (chains ++ cycles).map (·.first + 1))
    ∧ funcNrComponentsPPerm f = .ok (f₃, (chains ++ cycles).length)
    ∧ IsPPermBag f₁ φ ∧ IsPPermBag f₂ φ ∧ IsPPermBag f₃ φ

end PPermComponents
