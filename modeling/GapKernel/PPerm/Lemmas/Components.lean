import GapKernel.PartialComponents
import GapKernel.PPerm.Impl.Components
import GapKernel.PPerm.Lemmas.Fill

open PartialBijection PartialComponents PPermImpl List

namespace PPermComponents

variable {σ : Type} {φ : Nat ≃. Nat} {ptf : List Nat} {n : Nat}

section Loops

theorem forLoop_elmPlist {α : Type} (g : α → σ → Result σ) (pre l : List α) (s : σ)
    : forLoop (fun i s => do
        let x ← elmPlist (pre ++ l) i
        g x s) l.length (pre.length + 1) s = l.foldlM (fun s x => g x s) s := by
  induction l generalizing pre s with
  | nil => rfl
  | cons x l ih =>
    rw [length_cons]
    unfold forLoop
    rw [elmPlist_append_cons, ok_bind, foldlM_cons]
    congr 1
    funext s'
    have h := ih (pre ++ [x]) s'
    rw [append_assoc, length_append] at h
    exact h

theorem foldlM_congr {α : Type} {f g : σ → α → Result σ} {l : List α}
    (h : ∀ x ∈ l, ∀ s, f s x = g s x) (s : σ) : l.foldlM f s = l.foldlM g s := by
  induction l generalizing s with
  | nil => rfl
  | cons x l ih =>
    rw [foldlM_cons, foldlM_cons, h x mem_cons_self]
    congr 1
    funext s'
    exact ih (fun y hy => h y (mem_cons_of_mem x hy)) s'

theorem startLoop_eq {dom : List Nat} (hdom : ∀ x ∈ dom, 0 < x) (label : Nat)
    (walk : Nat → List Nat × σ → Result (List Nat × σ)) (s : List Nat × σ)
    : startLoop dom dom.length label walk s = (domPoints dom).foldlM (fun s j => do
        let seen ← readEntry s.1 j
        if seen = label then walk j s else return s) s := by
  unfold startLoop domLoop domPoints
  rw [foldlM_map]
  have h := forLoop_elmPlist (fun x s => do
    let j ← index x
    let seen ← readEntry s.1 j
    if seen = label then walk j s else return s) [] dom s
  rw [nil_append, length_nil, Nat.zero_add] at h
  rw [h]
  apply foldlM_congr
  intro x hx s
  obtain ⟨j, rfl⟩ : ∃ j, x = j + 1 := ⟨x - 1, by
    have := hdom x hx
    omega⟩
  rfl

theorem setSeen_spec {seen : List Nat} {x v : Nat} (hx : x < seen.length) (hv : v < 2 ^ 32)
    : setSeen seen (x + 1) v = .ok (seen.set x v) :=
  writeEntry_images hx hv

theorem elmPtf_spec (hpt : IsImageList φ ptf) {x : Nat} (hx : x < ptf.length)
    : elmPtf ptf (x + 1) = .ok (entryOf (φ x)) :=
  readEntry_images hpt hx

def IsRound (P : σ → Prop) (body : Nat → σ → Result σ) (upd : σ → Nat → σ) (l : List Nat) : Prop :=
  ∀ x ∈ l, ∀ s, P s → body (x + 1) s = .ok (upd s x) ∧ P (upd s x)

variable {P : σ → Prop} {body : Nat → σ → Result σ} {upd : σ → Nat → σ} {p : PointPath Nat}
  {fuel : Nat} {s : σ}

theorem chainLoop_spec (hpt : IsImageList φ ptf) (hwalk : IsWalk φ p.points)
    (hlast : φ p.last = none) (hbody : IsRound P body upd p.points) (hfuel : p.points.length ≤ fuel)
    (hs : P s)
    : chainLoop ptf body fuel (p.first + 1) s
        = .ok (p.last + 1, p.points.dropLast.foldl upd s) := by
  obtain ⟨a, l⟩ := p
  induction l generalizing a fuel s with
  | nil =>
    have hlast : φ a = none := hlast
    obtain ⟨fuel, rfl⟩ : ∃ m, fuel = m + 1 := ⟨fuel - 1, by
      have : 1 ≤ fuel := hfuel
      omega⟩
    unfold chainLoop
    split
    . next hle =>
      rw [elmPtf_spec hpt (by omega), ok_bind, hlast, entryOf_none, if_neg (by decide)]
      rfl
    . rfl
  | cons b l ih =>
    have hab : φ a = some b := (isChain_cons_cons.mp hwalk).1
    have hlen : (a :: b :: l).length ≤ fuel := hfuel
    rw [length_cons] at hlen
    obtain ⟨fuel, rfl⟩ : ∃ m, fuel = m + 1 := ⟨fuel - 1, by omega⟩
    obtain ⟨hrun, hs'⟩ := hbody a mem_cons_self s hs
    have ha := hpt.lt_length hab
    have hle : a + 1 ≤ ptf.length := ha
    unfold chainLoop
    rw [if_pos hle, elmPtf_spec hpt ha, ok_bind, hab, entryOf_some, if_pos (Nat.succ_ne_zero b),
      hrun, ok_bind]
    have hnext := ih hs' b (isChain_cons_cons.mp hwalk).2 hlast
      (fun x hx => hbody x (mem_cons_of_mem a hx)) (Nat.le_of_succ_le_succ hlen)
    rw [hnext]
    rfl

def entryFrom (stop : Nat) (l : List Nat) : Nat :=
  match l with
  | [] => stop
  | x :: _ => x + 1

def Leads (next : Nat → Result Nat) (stop : Nat) : List Nat → Prop
  | [] => True
  | x :: l => x + 1 ≠ stop ∧ next (x + 1) = .ok (entryFrom stop l) ∧ Leads next stop l

variable {l : List Nat}

theorem untilLoop_spec {next : Nat → Result Nat} {stop : Nat} (hnext : Leads next stop l)
    (hbody : IsRound P body upd l) (hfuel : l.length < fuel) (hs : P s)
    : untilLoop next stop body fuel (entryFrom stop l) s = .ok (l.foldl upd s) := by
  induction l generalizing fuel s with
  | nil =>
    obtain ⟨fuel, rfl⟩ : ∃ m, fuel = m + 1 := ⟨fuel - 1, by omega⟩
    unfold untilLoop entryFrom
    rw [if_neg (not_not_intro rfl)]
    rfl
  | cons x l ih =>
    rw [length_cons] at hfuel
    obtain ⟨fuel, rfl⟩ : ∃ m, fuel = m + 1 := ⟨fuel - 1, by omega⟩
    obtain ⟨hrun, hs'⟩ := hbody x mem_cons_self s hs
    have hentry : entryFrom stop (x :: l) = x + 1 := rfl
    unfold untilLoop
    rw [hentry, if_pos hnext.1, hrun, ok_bind, hnext.2.1, ok_bind]
    exact ih hnext.2.2 (fun y hy => hbody y (mem_cons_of_mem x hy)) (by omega) hs'

theorem doUntilLoop_spec {next : Nat → Result Nat} {stop : Nat}
    (hfirst : next (p.first + 1) = .ok (entryFrom stop p.rest)) (hnext : Leads next stop p.rest)
    (hbody : IsRound P body upd p.points) (hfuel : p.points.length ≤ fuel) (hs : P s)
    : doUntilLoop next stop body fuel (p.first + 1) s = .ok (p.points.foldl upd s) := by
  obtain ⟨hrun, hs'⟩ := hbody p.first p.first_mem s hs
  unfold doUntilLoop
  rw [hrun, ok_bind, hfirst, ok_bind]
  exact untilLoop_spec hnext (fun x hx => hbody x (mem_cons_of_mem _ hx)) hfuel hs'

variable (hpt : IsImageList φ ptf)

include hpt

theorem chain_leads (hwalk : IsWalk φ l) (hlast : ∀ x ∈ l.getLast?, φ x = none)
    : Leads (fun k => imagePP k ptf ptf.length) 0 l := by
  induction l with
  | nil => trivial
  | cons a l ih =>
    have himg : imagePP (a + 1) ptf ptf.length = .ok (entryOf (φ a)) := by
      unfold imagePP
      split
      . next hle =>
        change readEntry ptf a = _
        exact readEntry_images hpt (by omega)
      . next hgt =>
        rw [hpt.eq_none (by omega)]
        rfl
    cases l with
    | nil =>
      refine ⟨Nat.succ_ne_zero a, ?_, trivial⟩
      dsimp only
      rw [himg, hlast a rfl]
      rfl
    | cons b l =>
      have hab : φ a = some b := (isChain_cons_cons.mp hwalk).1
      refine ⟨Nat.succ_ne_zero a, ?_, ih (isChain_cons_cons.mp hwalk).2 hlast⟩
      dsimp only
      rw [himg, hab]
      rfl

theorem cycle_leads {a : Nat} (hwalk : IsWalk φ l) (hlast : ∀ x ∈ l.getLast?, φ x = some a)
    (ha : a ∉ l)
    : Leads (elmPtf ptf) (a + 1) l := by
  induction l with
  | nil => trivial
  | cons x l ih =>
    rw [mem_cons, not_or] at ha
    have hne : x + 1 ≠ a + 1 := by omega
    cases l with
    | nil =>
      have hx : φ x = some a := hlast x rfl
      refine ⟨hne, ?_, trivial⟩
      rw [elmPtf_spec hpt (hpt.lt_length hx), hx]
      rfl
    | cons y l =>
      have hxy : φ x = some y := (isChain_cons_cons.mp hwalk).1
      refine ⟨hne, ?_, ih (isChain_cons_cons.mp hwalk).2 hlast ha.2⟩
      rw [elmPtf_spec hpt (hpt.lt_length hxy), hxy]
      rfl

theorem IsCycle.leads (h : IsCycle φ p)
    : elmPtf ptf (p.first + 1) = .ok (entryFrom (p.first + 1) p.rest)
      ∧ Leads (elmPtf ptf) (p.first + 1) p.rest := by
  obtain ⟨a, l⟩ := p
  have hnodup : (a :: l).Nodup := h.nodup
  have hlast : ∀ x ∈ l.getLast?, φ x = some a := by
    intro x hx
    cases l with
    | nil => contradiction
    | cons b l =>
      rw [getLast?_eq_getLast_of_ne_nil (cons_ne_nil b l)] at hx
      cases hx
      exact h.last
  cases l with
  | nil =>
    have ha : φ a = some a := h.last
    refine ⟨?_, trivial⟩
    rw [elmPtf_spec hpt (hpt.lt_length ha), ha]
    rfl
  | cons b l =>
    have hab : φ a = some b := (isChain_cons_cons.mp h.walk).1
    refine ⟨?_, cycle_leads hpt (isChain_cons_cons.mp h.walk).2 hlast
      (nodup_cons.mp hnodup).1⟩
    rw [elmPtf_spec hpt (hpt.lt_length hab), hab]
    rfl

theorem IsMaxChain.leads (h : IsMaxChain φ p)
    : Leads (fun k => imagePP k ptf ptf.length) 0 p.points := by
  apply chain_leads hpt h.walk
  intro x hx
  have hx : (p.first :: p.rest).getLast? = some x := hx
  rw [getLast?_eq_getLast_of_ne_nil (cons_ne_nil p.first p.rest)] at hx
  cases hx
  exact h.last

end Loops

section Labels

structure IsMarked (φ : Nat ≃. Nat) (n : Nat) (l seen : List Nat) : Prop where
  length : seen.length = n
  label : ∀ x, x < n
    → seen[x]? = some (if x ∈ l then 2 else if φ.symm x = none then 0 else 1)

def setAll (v : Nat) (l seen : List Nat) : List Nat :=
  l.foldl (fun seen x => seen.set x v) seen

theorem length_setAll (v : Nat) (l seen : List Nat) : (setAll v l seen).length = seen.length := by
  induction l generalizing seen with
  | nil => rfl
  | cons x l ih =>
    unfold setAll at ih ⊢
    rw [foldl_cons, ih, length_set]

theorem getElem?_setAll (v : Nat) (l : List Nat) {seen : List Nat} {y : Nat} (hy : y < seen.length)
    : (setAll v l seen)[y]? = if y ∈ l then some v else seen[y]? := by
  induction l generalizing seen with
  | nil => rfl
  | cons x l ih =>
    unfold setAll at ih ⊢
    rw [foldl_cons, ih (by rw [length_set]; exact hy)]
    by_cases hyl : y ∈ l
    . rw [if_pos hyl, if_pos (mem_cons_of_mem x hyl)]
    . rw [if_neg hyl]
      by_cases hyx : y = x
      . rw [hyx, if_pos mem_cons_self, ← hyx, getElem?_set_self hy]
      . rw [if_neg (by simp [hyx, hyl]), getElem?_set_ne (fun h => hyx h.symm)]

theorem IsMarked.setAll {l l' seen : List Nat} (h : IsMarked φ n l seen)
    : IsMarked φ n (l ++ l') (setAll 2 l' seen) where
  length := by
    rw [length_setAll]
    exact h.length
  label := by
    intro x hx
    rw [getElem?_setAll 2 l' (by rw [h.length]; exact hx), h.label x hx]
    by_cases hl' : x ∈ l'
    . rw [if_pos hl', if_pos (mem_append_right l hl')]
    . rw [if_neg hl']
      by_cases hl : x ∈ l
      . rw [if_pos hl, if_pos (mem_append_left l' hl)]
      . have hnot : x ∉ l ++ l' := fun hx => (mem_append.mp hx).elim hl hl'
        rw [if_neg hl, if_neg hnot]

theorem findImg_spec {img : List Nat} (himg : IsImgList φ img)
    (hbound : ∀ i v, φ i = some v → v < n)
    : ∃ seen, findImg n img.length img = .ok seen ∧ IsMarked φ n [] seen := by
  have hrun : ∀ l : List Nat, (∀ x ∈ l, 0 < x ∧ x ≤ n) → ∀ seen : List Nat, seen.length = n
      → l.foldlM (fun seen x => setSeen seen x 1) seen
        = .ok (PPermComponents.setAll 1 (l.map (· - 1)) seen) := by
    intro l
    induction l with
    | nil => exact fun _ _ _ => rfl
    | cons x l ih =>
      intro hl seen hseen
      have hx := hl x mem_cons_self
      obtain ⟨y, rfl⟩ : ∃ y, x = y + 1 := ⟨x - 1, by omega⟩
      rw [foldlM_cons, setSeen_spec (by omega) (by decide), ok_bind]
      rw [ih (fun z hz => hl z (mem_cons_of_mem _ hz)) _ (by rw [length_set, hseen])]
      rfl
  have hmem : ∀ x ∈ img, 0 < x ∧ x ≤ n := by
    intro x hx
    obtain ⟨i, v, hv, rfl⟩ := (himg.mem x).mp hx
    exact ⟨Nat.succ_pos v, hbound i v hv⟩
  have hloop := forLoop_elmPlist (fun x seen => setSeen seen x 1) [] img (List.replicate n 0)
  rw [nil_append, length_nil, Nat.zero_add] at hloop
  unfold findImg
  rw [hloop, hrun img hmem _ length_replicate]
  refine ⟨_, rfl, ?_, ?_⟩
  . rw [length_setAll, length_replicate]
  . intro x hx
    rw [getElem?_setAll _ _ (by rw [length_replicate]; exact hx), if_neg not_mem_nil]
    rw [getElem?_replicate_of_lt hx]
    have hiff : x ∈ img.map (· - 1) ↔ φ.symm x ≠ none := by
      rw [mem_map]
      constructor
      . intro ⟨y, hy, hyx⟩
        obtain ⟨i, v, hv, rfl⟩ := (himg.mem y).mp hy
        rw [← hyx, Nat.add_sub_cancel, φ.eq_some_iff.mpr hv]
        exact Option.some_ne_none i
      . intro hne
        obtain ⟨i, hi⟩ := Option.ne_none_iff_exists'.mp hne
        exact ⟨x + 1, (himg.mem _).mpr ⟨i, x, φ.eq_some_iff.mp hi, rfl⟩, rfl⟩
    by_cases hx : φ.symm x = none
    . rw [if_neg (fun h => hiff.mp h hx), if_pos hx]
    . rw [if_pos (hiff.mpr hx), if_neg hx]

end Labels

section Phases

def startBody (label : Nat) (walk : Nat → List Nat × σ → Result (List Nat × σ))
    (s : List Nat × σ) (j : Nat) : Result (List Nat × σ) := do
  let seen ← readEntry s.1 j
  if seen = label then walk j s else return s

def WalksChains (φ : Nat ≃. Nat) (n : Nat) (walk : Nat → List Nat × σ → Result (List Nat × σ))
    (F : List (PointPath Nat) → σ) : Prop :=
  ∀ comps p seen, IsCollected φ (comps ++ [p]) → IsMaxChain φ p → seen.length = n
    → walk p.first (seen, F comps) = .ok (setAll 2 p.points seen, F (comps ++ [p]))

def WalksCycles (φ : Nat ≃. Nat) (n : Nat) (chains : List (PointPath Nat))
    (walk : Nat → List Nat × σ → Result (List Nat × σ)) (F : List (PointPath Nat) → σ) : Prop :=
  ∀ comps p seen, IsCollected φ (chains ++ (comps ++ [p])) → IsCycle φ p → seen.length = n
    → walk p.first (seen, F comps) = .ok (setAll 0 p.points seen, F (comps ++ [p]))
      ∨ walk p.first (seen, F comps) = .ok (setAll 0 p.rest seen, F (comps ++ [p]))

theorem readEntry_of_eq_some {l : List Nat} {i v : Nat} (h : l[i]? = some v)
    : readEntry l i = .ok v := by
  unfold readEntry
  rw [h]
  rfl

variable (hbound : ∀ i v, φ i = some v → i < n ∧ v < n)

include hbound

theorem chains_spec {pts : List Nat} (hpts : ∀ j ∈ pts, φ j ≠ none) {comps : List (PointPath Nat)}
    (hcoll : IsCollected φ comps) (hchain : ∀ p ∈ comps, IsMaxChain φ p)
    : ∃ cs, IsCollected φ (comps ++ cs) ∧ (∀ p ∈ comps ++ cs, IsMaxChain φ p)
        ∧ (∀ j ∈ pts, φ.symm j = none → j ∈ (comps ++ cs).flatMap PointPath.points)
        ∧ ∀ {σ : Type} {walk : Nat → List Nat × σ → Result (List Nat × σ)}
          {F : List (PointPath Nat) → σ}, WalksChains φ n walk F
          → ∀ seen, IsMarked φ n (comps.flatMap PointPath.points) seen
          → ∃ seen', pts.foldlM (startBody 0 walk) (seen, F comps) = .ok (seen', F (comps ++ cs))
            ∧ IsMarked φ n ((comps ++ cs).flatMap PointPath.points) seen' := by
  induction pts generalizing comps with
  | nil =>
    refine ⟨[], ?_, ?_, ?_, ?_⟩
    . rw [append_nil]
      exact hcoll
    . rw [append_nil]
      exact hchain
    . exact fun j hj => absurd hj not_mem_nil
    . intro σ walk F _ seen hseen
      rw [append_nil]
      exact ⟨seen, rfl, hseen⟩
  | cons j pts ih =>
    have hpts' : ∀ j ∈ pts, φ j ≠ none := fun x hx => hpts x (mem_cons_of_mem j hx)
    have hj := hpts j mem_cons_self
    obtain ⟨v, hv⟩ := Option.ne_none_iff_exists'.mp hj
    have hjn := (hbound j v hv).1
    by_cases hstart : φ.symm j = none ∧ j ∉ comps.flatMap PointPath.points
    . have hs : ∀ a b, φ a = some b → b ∈ Finset.range n := fun a b hab =>
        Finset.mem_range.mpr (hbound a b hab).2
      obtain ⟨p, rfl, hp, hnodup⟩ := exists_maxChain hs (Finset.mem_range.mpr hjn) hstart.1 hj
      have hcoll' := hcoll.snoc (.inl hp) hnodup hstart.2
      have hchain' : ∀ q ∈ comps ++ [p], IsMaxChain φ q := by
        intro q hq
        cases mem_append.mp hq with
        | inl hq => exact hchain q hq
        | inr hq =>
          rw [mem_singleton.mp hq]
          exact hp
      obtain ⟨cs, hcoll'', hchain'', hfirst, hrun⟩ := ih hpts' hcoll' hchain'
      refine ⟨p :: cs, ?_, ?_, ?_, ?_⟩
      . rw [append_cons]
        exact hcoll''
      . rw [append_cons]
        exact hchain''
      . rw [append_cons]
        intro x hx hsymm
        cases mem_cons.mp hx with
        | inl hx =>
          rw [hx]
          exact mem_flatMap.mpr ⟨p, by simp, p.first_mem⟩
        | inr hx => exact hfirst x hx hsymm
      . intro σ walk F hwalk seen hseen
        have hlabel := hseen.label p.first hjn
        rw [if_neg hstart.2, if_pos hstart.1] at hlabel
        have hmark := @IsMarked.setAll _ _ _ p.points _ hseen
        rw [append_cons, foldlM_cons]
        unfold startBody
        rw [readEntry_of_eq_some hlabel, ok_bind, if_pos rfl]
        rw [hwalk comps p seen hcoll' hp hseen.length, ok_bind]
        apply hrun hwalk
        rw [flatMap_append, flatMap_singleton]
        exact hmark
    . obtain ⟨cs, hcoll', hchain', hfirst, hrun⟩ := ih hpts' hcoll hchain
      refine ⟨cs, hcoll', hchain', ?_, ?_⟩
      . intro x hx hsymm
        cases mem_cons.mp hx with
        | inl hx =>
          rw [hx] at hsymm ⊢
          have hmem : j ∈ comps.flatMap PointPath.points := by
            by_contra hnot
            exact hstart ⟨hsymm, hnot⟩
          rw [flatMap_append]
          exact mem_append_left _ hmem
        | inr hx => exact hfirst x hx hsymm
      . intro σ walk F hwalk seen hseen
        have hlabel := hseen.label j hjn
        have hne : (if j ∈ comps.flatMap PointPath.points then 2
            else if φ.symm j = none then 0 else 1) ≠ 0 := by
          intro h0
          apply hstart
          split at h0
          . contradiction
          . next hnot =>
            split at h0
            . next hsymm => exact ⟨hsymm, hnot⟩
            . contradiction
        rw [foldlM_cons]
        unfold startBody
        rw [readEntry_of_eq_some hlabel, ok_bind, if_neg hne]
        exact hrun hwalk seen hseen

theorem cycles_spec {chains : List (PointPath Nat)} {pts : List Nat} (hpts : ∀ j ∈ pts, φ j ≠ none)
    (hnodup : pts.Nodup)
    (hfirst : ∀ x, φ x ≠ none → φ.symm x = none → x ∈ chains.flatMap PointPath.points)
    {comps : List (PointPath Nat)} (hcoll : IsCollected φ (chains ++ comps))
    (hcycle : ∀ p ∈ comps, IsCycle φ p)
    : ∃ cs, IsCollected φ (chains ++ (comps ++ cs)) ∧ (∀ p ∈ comps ++ cs, IsCycle φ p)
        ∧ (∀ j ∈ pts, j ∈ (chains ++ (comps ++ cs)).flatMap PointPath.points)
        ∧ ∀ {σ : Type} {walk : Nat → List Nat × σ → Result (List Nat × σ)}
          {F : List (PointPath Nat) → σ}, WalksCycles φ n chains walk F
          → ∀ seen, seen.length = n
          → (∀ x ∈ pts, seen[x]? = some 1 ↔ x ∉ (chains ++ comps).flatMap PointPath.points)
          → ∃ seen', pts.foldlM (startBody 1 walk) (seen, F comps)
            = .ok (seen', F (comps ++ cs)) := by
  induction pts generalizing comps with
  | nil =>
    refine ⟨[], ?_, ?_, ?_, ?_⟩
    . rw [append_nil]
      exact hcoll
    . rw [append_nil]
      exact hcycle
    . exact fun j hj => absurd hj not_mem_nil
    . intro σ walk F _ seen _ _
      rw [append_nil]
      exact ⟨seen, rfl⟩
  | cons j pts ih =>
    have hpts' : ∀ j ∈ pts, φ j ≠ none := fun x hx => hpts x (mem_cons_of_mem j hx)
    have hj := hpts j mem_cons_self
    obtain ⟨hjpts, hnodup'⟩ := nodup_cons.mp hnodup
    obtain ⟨v, hv⟩ := Option.ne_none_iff_exists'.mp hj
    have hjn := (hbound j v hv).1
    by_cases hmem : j ∈ (chains ++ comps).flatMap PointPath.points
    . obtain ⟨cs, hcoll', hcycle', hall, hrun⟩ := ih hpts' hnodup' hcoll hcycle
      refine ⟨cs, hcoll', hcycle', ?_, ?_⟩
      . intro x hx
        cases mem_cons.mp hx with
        | inl hx =>
          rw [hx, ← append_assoc, flatMap_append]
          exact mem_append_left _ hmem
        | inr hx => exact hall x hx
      . intro σ walk F hwalk seen hseen hlabel
        have hget := getElem?_eq_getElem (show j < seen.length by omega)
        have hne : seen[j] ≠ 1 := by
          intro h1
          rw [h1] at hget
          exact (hlabel j mem_cons_self).mp hget hmem
        rw [foldlM_cons]
        unfold startBody
        rw [readEntry_of_eq_some hget, ok_bind, if_neg hne]
        exact hrun hwalk seen hseen fun x hx => hlabel x (mem_cons_of_mem j hx)
    . have hs : ∀ a b, φ a = some b → a ∈ Finset.range n := fun a b hab =>
        Finset.mem_range.mpr (hbound a b hab).1
      have hfirst' : ∀ x, φ x ≠ none → φ.symm x = none
          → x ∈ (chains ++ comps).flatMap PointPath.points := by
        intro x hx hsymm
        rw [flatMap_append]
        exact mem_append_left _ (hfirst x hx hsymm)
      obtain ⟨p, rfl, hp⟩ := exists_cycle hs (fun x y hxy => hcoll.next_mem hxy) hfirst' hj hmem
      have hcoll' := hcoll.snoc (.inr hp) hp.nodup hmem
      rw [append_assoc] at hcoll'
      have hcycle' : ∀ q ∈ comps ++ [p], IsCycle φ q := by
        intro q hq
        cases mem_append.mp hq with
        | inl hq => exact hcycle q hq
        | inr hq =>
          rw [mem_singleton.mp hq]
          exact hp
      obtain ⟨cs, hcoll'', hcycle'', hall, hrun⟩ := ih hpts' hnodup' hcoll' hcycle'
      refine ⟨p :: cs, ?_, ?_, ?_, ?_⟩
      . rw [append_cons]
        exact hcoll''
      . rw [append_cons]
        exact hcycle''
      . rw [append_cons]
        intro x hx
        cases mem_cons.mp hx with
        | inl hx =>
          rw [hx]
          exact mem_flatMap.mpr ⟨p, by simp, p.first_mem⟩
        | inr hx => exact hall x hx
      . intro σ walk F hwalk seen hseen hlabel
        have hget := (hlabel p.first mem_cons_self).mpr hmem
        -- The labels that are read later are those of the points behind the first one.
        have hnext : ∀ l : List Nat, (∀ x ∈ pts, x ∈ l ↔ x ∈ p.points) → ∀ x ∈ pts,
            (setAll 0 l seen)[x]? = some 1
              ↔ x ∉ (chains ++ (comps ++ [p])).flatMap PointPath.points := by
          intro l hl x hx
          obtain ⟨u, hu⟩ := Option.ne_none_iff_exists'.mp (hpts' x hx)
          have hxn := (hbound x u hu).1
          rw [getElem?_setAll 0 l (by rw [hseen]; exact hxn)]
          rw [← append_assoc, flatMap_append, flatMap_singleton, mem_append,
            not_or]
          by_cases hxl : x ∈ l
          . rw [if_pos hxl]
            exact iff_of_false (by simp) fun h => h.2 ((hl x hx).mp hxl)
          . rw [if_neg hxl, hlabel x (mem_cons_of_mem _ hx)]
            exact (and_iff_left fun h => hxl ((hl x hx).mpr h)).symm
        have hrest : ∀ x ∈ pts, x ∈ p.rest ↔ x ∈ p.points := by
          intro x hx
          constructor
          . exact mem_cons_of_mem _
          . intro hxp
            cases mem_cons.mp hxp with
            | inl heq =>
              rw [heq] at hx
              exact absurd hx hjpts
            | inr hxp => exact hxp
        rw [append_cons, foldlM_cons]
        unfold startBody
        rw [readEntry_of_eq_some hget, ok_bind, if_pos rfl]
        cases hwalk comps p seen hcoll' hp hseen with
        | inl hstep =>
          rw [hstep, ok_bind]
          apply hrun hwalk _ (by rw [length_setAll, hseen])
          exact hnext p.points fun _ _ => Iff.rfl
        | inr hstep =>
          rw [hstep, ok_bind]
          apply hrun hwalk _ (by rw [length_setAll, hseen])
          exact hnext p.rest hrest

end Phases

end PPermComponents
