import GapKernel.PPerm.Lemmas.Compare
import GapKernel.PPerm.Lemmas.Restrict

open List

namespace PartialBijection

structure IsBijective (P : Nat → Nat → Prop) : Prop where
  func : ∀ i u v, P i u → P i v → u = v
  inj : ∀ i j v, P i v → P j v → i = j

def addPair (P : Nat → Nat → Prop) (j v : Nat) (i u : Nat) : Prop :=
  P i u ∨ i = j ∧ u = v

def addPoints (P : Nat → Nat → Prop) (φ : Nat ≃. Nat) (L : List Nat) (i v : Nat) : Prop :=
  P i v ∨ i ∈ L ∧ φ i = some v

def addAll (P : Nat → Nat → Prop) (φ : Nat ≃. Nat) (i v : Nat) : Prop :=
  P i v ∨ φ i = some v

def noPairs (_ _ : Nat) : Prop :=
  False

section Relations

variable {P Q : Nat → Nat → Prop} {φ γ : Nat ≃. Nat} {L : List Nat}

theorem IsBijective.mono (h : IsBijective Q) (hsub : ∀ i v, P i v → Q i v) : IsBijective P where
  func i u v hu hv := h.func i u v (hsub i u hu) (hsub i v hv)
  inj i j v hi hj := h.inj i j v (hsub i v hi) (hsub j v hj)

theorem isBijective_noPairs : IsBijective noPairs where
  func _ _ _ hu := hu.elim
  inj _ _ _ hi := hi.elim

theorem isBijective_addAll_noPairs (φ : Nat ≃. Nat) : IsBijective (addAll noPairs φ) where
  func i u v hu hv := by
    have hu := hu.resolve_left id
    rw [hv.resolve_left id] at hu
    exact (Option.some.inj hu).symm
  inj i j v hi hj := PEquiv.inj φ (hi.resolve_left id) (hj.resolve_left id)

theorem addPoints_nil : addPoints P φ [] = P := by
  funext i v
  exact propext (or_iff_left fun h => absurd h.1 not_mem_nil)

variable {v : Nat}

theorem addPoints_snoc {j : Nat} (hv : φ j = some v)
    : addPoints P φ (L ++ [j]) = addPair (addPoints P φ L) j v := by
  funext i u
  unfold addPoints addPair
  apply propext
  rw [mem_append, mem_singleton, or_and_right, or_assoc]
  refine or_congr_right (or_congr_right (and_congr_right fun h => ?_))
  rw [h, hv, Option.some.injEq]
  exact eq_comm

theorem addPoints_skip {j : Nat} (hj : φ j = none)
    : addPoints P φ (L ++ [j]) = addPoints P φ L := by
  funext i u
  unfold addPoints
  apply propext
  rw [mem_append, mem_singleton, or_and_right]
  refine or_congr_right (or_iff_left fun ⟨h, hu⟩ => ?_)
  rw [h, hj] at hu
  contradiction

theorem addPoints_of_covers (h : ∀ j v, φ j = some v → j ∈ L) : addPoints P φ L = addAll P φ := by
  funext i v
  exact propext (or_congr_right (and_iff_right_of_imp (h i v)))

variable {i : Nat}

theorem addPoints_le (L : List Nat) (h : addPoints P φ L i v) : addAll P φ i v :=
  h.imp_right fun hv => hv.2

theorem addAll_comm : addAll (addAll P φ) γ = addAll (addAll P γ) φ := by
  funext i v
  exact propext (or_right_comm ..)

def join (φ γ : Nat ≃. Nat) (h : IsBijective (addAll (addAll noPairs φ) γ)) : Nat ≃. Nat where
  toFun i := (φ i).or (γ i)
  invFun v := (φ.symm v).or (γ.symm v)
  inv i v := by
    have hi : ∀ u, (φ i).or (γ i) = some u → addAll (addAll noPairs φ) γ i u := fun u hu =>
      (Option.or_eq_some_iff.mp hu).elim (fun h => .inl (.inr h)) fun h => .inr h.2
    have hv : ∀ j, (φ.symm v).or (γ.symm v) = some j → addAll (addAll noPairs φ) γ j v :=
      fun j hj => (Option.or_eq_some_iff.mp hj).elim
        (fun h => .inl (.inr (φ.eq_some_iff.mp h))) fun h => .inr (γ.eq_some_iff.mp h.2)
    constructor
    . intro hj
      -- Some value is found, which is the right one.
      have hpair := hv i hj
      cases hor : (φ i).or (γ i) with
      | none =>
        rw [Option.or_eq_none_iff] at hor
        rcases hpair with (h | h) | h
        . exact h.elim
        . rw [hor.1] at h
          contradiction
        . rw [hor.2] at h
          contradiction
      | some u => rw [h.func i u v (hi u hor) hpair]
    . intro hu
      have hpair := hi v hu
      cases hor : (φ.symm v).or (γ.symm v) with
      | none =>
        rw [Option.or_eq_none_iff] at hor
        rcases hpair with (h | h) | h
        . exact h.elim
        . rw [φ.eq_some_iff.mpr h] at hor
          exact nomatch hor.1
        . rw [γ.eq_some_iff.mpr h] at hor
          exact nomatch hor.2
      | some j => rw [h.inj j i v (hv j hor) hpair]

theorem join_eq_some_iff {h : IsBijective (addAll (addAll noPairs φ) γ)}
    : join φ γ h i = some v ↔ φ i = some v ∨ γ i = some v := by
  change (φ i).or (γ i) = some v ↔ _
  constructor
  . intro hor
    exact (Option.or_eq_some_iff.mp hor).imp_right fun h => h.2
  . intro hpair
    cases hor : (φ i).or (γ i) with
    | none =>
      rw [Option.or_eq_none_iff] at hor
      rw [hor.1, hor.2] at hpair
      simp at hpair
    | some u =>
      have hu : addAll (addAll noPairs φ) γ i u :=
        (Option.or_eq_some_iff.mp hor).elim (fun h => .inl (.inr h)) fun h => .inr h.2
      have hv : addAll (addAll noPairs φ) γ i v := hpair.imp_left .inr
      rw [h.func i u v hu hv]

theorem IsDegree.max {η : Nat ≃. Nat} {d e : Nat} (h : IsDegree φ d) (h' : IsDegree γ e)
    (hη : ∀ i v, η i = some v ↔ φ i = some v ∨ γ i = some v) : IsDegree η (max d e) := by
  constructor
  . intro i v hv
    rcases (hη i v).mp hv with hv | hv
    . have := h.lt i v hv
      omega
    . have := h'.lt i v hv
      omega
  . rcases Nat.le_total e d with hle | hle
    . rw [Nat.max_eq_left hle]
      exact h.last.imp_right fun ⟨v, hv⟩ => ⟨v, (hη _ v).mpr (.inl hv)⟩
    . rw [Nat.max_eq_right hle]
      exact h'.last.imp_right fun ⟨v, hv⟩ => ⟨v, (hη _ v).mpr (.inr hv)⟩

theorem inf_eq_some_iff : (φ ⊓ γ) i = some v ↔ φ i = some v ∧ γ i = some v := by
  change (if φ i = γ i then φ i else none) = some v ↔ _
  split
  . next h =>
    rw [← h]
    exact (and_self_iff).symm
  . next h =>
    refine iff_of_false (fun hv => nomatch hv) fun ⟨h1, h2⟩ => h (h1.trans h2.symm)

end Relations

end PartialBijection

open PartialBijection PPermImpl

section Join

variable {T : PermTnum} {P : Nat → Nat → Prop} {deg codeg : Nat} {s : JoinState}

structure IsJoined (P : Nat → Nat → Prop) (deg codeg : Nat) (s : JoinState) : Prop where
  length_entries : s.entries.length = deg
  length_seen : s.seen.length = codeg
  entry : ∀ k, k < deg → ∃ o, s.entries[k]? = some (entryOf o) ∧ ∀ v, P k v ↔ o = some v
  seen : ∀ v, v < codeg → ∃ b, s.seen[v]? = some b ∧ (b = 0 ↔ ∀ k, ¬P k v)

theorem isJoined_noPairs (deg codeg : Nat)
    : IsJoined noPairs deg codeg ⟨replicate deg 0, replicate codeg 0⟩ where
  length_entries := length_replicate
  length_seen := length_replicate
  entry _ hk := ⟨none, getElem?_replicate_of_lt hk, fun _ =>
    iff_of_false id fun h => nomatch h⟩
  seen _ hv := ⟨0, getElem?_replicate_of_lt hv, iff_of_true rfl fun _ h => h⟩

variable (h : IsJoined P deg codeg s) {j v : Nat} (hj : j < deg) (hv : v < codeg)
  (hlt : v + 1 < 2 ^ T.bits)

include h hj hv hlt

theorem IsJoined.set (hb : IsBijective (addPair P j v))
    : ∃ s', joinSet T j (v + 1) s = .ok s' ∧ IsJoined (addPair P j v) deg codeg s' := by
  have hlen := h.length_entries
  have hlen' := h.length_seen
  unfold joinSet
  rw [writeEntry_images (by omega) hlt, ok_bind, index_succ, ok_bind,
    writeEntry_images (by omega) (by decide), ok_bind]
  refine ⟨_, rfl, by rw [length_set]; exact hlen, by rw [length_set]; exact hlen',
    fun k hk => ?_, fun u hu => ?_⟩
  . by_cases hkj : k = j
    . refine ⟨some v, ?_, fun u => ?_⟩
      . rw [hkj, getElem?_set_self (by omega)]
        rfl
      . rw [Option.some.injEq]
        constructor
        . exact fun hu => hb.func k v u (.inr ⟨hkj, rfl⟩) hu
        . exact fun hu => .inr ⟨hkj, hu.symm⟩
    . obtain ⟨o, hget, ho⟩ := h.entry k hk
      refine ⟨o, ?_, fun u => ?_⟩
      . rw [getElem?_set_ne (fun heq => hkj heq.symm)]
        exact hget
      . rw [← ho]
        exact or_iff_left fun hu => hkj hu.1
  . by_cases huv : u = v
    . refine ⟨1, ?_, iff_of_false (by decide) fun hall => hall j (.inr ⟨rfl, huv⟩)⟩
      rw [huv, getElem?_set_self (by omega)]
    . obtain ⟨b, hget, hb'⟩ := h.seen u hu
      refine ⟨b, ?_, ?_⟩
      . rw [getElem?_set_ne (fun heq => huv heq.symm)]
        exact hget
      . rw [hb']
        refine forall_congr' fun k => not_congr ?_
        exact (or_iff_left fun hk => huv hk.2).symm

theorem IsJoined.round (hP : IsBijective P)
    : SucceedsIf (joinRound T j (v + 1) s) (IsBijective (addPair P j v))
        (IsJoined (addPair P j v) deg codeg) := by
  obtain ⟨o, hget, ho⟩ := h.entry j hj
  obtain ⟨b, hseen, hb⟩ := h.seen v hv
  have hread : readEntry s.entries j = .ok (entryOf o) := by
    unfold readEntry
    rw [hget]
    rfl
  have hread' : readEntry s.seen v = .ok b := by
    unfold readEntry
    rw [hseen]
    rfl
  have hpair : addPair P j v j v := .inr ⟨rfl, rfl⟩
  unfold joinRound
  rw [hread, ok_bind]
  cases o with
  | none =>
    rw [if_pos entryOf_none, index_succ, ok_bind, hread', ok_bind]
    have hnone : ∀ u, ¬P j u := fun u hu => nomatch (ho u).mp hu
    split
    . next h0 =>
      have hnew : IsBijective (addPair P j v) := by
        constructor
        . rintro i u u' (hu | hu) (hu' | hu')
          . exact hP.func i u u' hu hu'
          . exact absurd (hu'.1 ▸ hu) (hnone u)
          . exact absurd (hu.1 ▸ hu') (hnone u')
          . rw [hu.2, hu'.2]
        . rintro i i' u (hi | hi) (hi' | hi')
          . exact hP.inj i i' u hi hi'
          . exact absurd (hi'.2 ▸ hi) (hb.mp h0 i)
          . exact absurd (hi.2 ▸ hi') (hb.mp h0 i')
          . rw [hi.1, hi'.1]
      obtain ⟨s', hrun, hs'⟩ := h.set hj hv hlt hnew
      rw [hrun, ok_bind]
      exact ⟨fun _ => ⟨s', rfl, hs'⟩, fun hnot => absurd hnew hnot⟩
    . next h0 =>
      -- The image has been seen at another point.
      obtain ⟨k, hk⟩ : ∃ k, P k v := by
        by_contra hno
        exact h0 (hb.mpr fun k hk => hno ⟨k, hk⟩)
      refine ⟨fun hnew => ?_, fun _ => rfl⟩
      have := hnew.inj k j v (.inl hk) hpair
      exact absurd (this ▸ hk) (hnone v)
  | some u =>
    rw [entryOf_some, if_neg (Nat.succ_ne_zero u)]
    have hu : P j u := (ho u).mpr rfl
    split
    . next hne =>
      refine ⟨fun hnew => ?_, fun _ => rfl⟩
      have := hnew.func j u v (.inl hu) hpair
      omega
    . next heq =>
      obtain rfl : u = v := by omega
      have hsame : addPair P j u = P := by
        funext i v'
        refine propext (or_iff_left_of_imp fun ⟨hi, hv'⟩ => ?_)
        rw [hi, hv']
        exact hu
      rw [hsame]
      exact ⟨fun _ => ⟨s, rfl, h⟩, fun hnot => absurd hP hnot⟩

end Join

theorem SucceedsIf.cases {α : Type} {res : Result (Option α)} {p : Prop} {Q : α → Prop}
    (h : SucceedsIf res p Q) : (∃ a, res = .ok (some a) ∧ p ∧ Q a) ∨ res = .ok none ∧ ¬p := by
  by_cases hp : p
  . obtain ⟨a, hrun, ha⟩ := h.1 hp
    exact .inl ⟨a, hrun, hp, ha⟩
  . exact .inr ⟨h.2 hp, hp⟩

section Join

variable {T : PermTnum} {P : Nat → Nat → Prop} {deg codeg : Nat} {s : JoinState} {f g : PPermBag}
  {φ γ : Nat ≃. Nat}

theorem addPoints_mono {L L' : List Nat} (h : L ⊆ L') (hb : IsBijective (addPoints P φ L'))
    : IsBijective (addPoints P φ L) :=
  hb.mono fun _ _ hv => hv.imp_right fun hv => ⟨h hv.1, hv.2⟩

structure FitsJoin (f : PPermBag) (T : PermTnum) (deg codeg : Nat) : Prop where
  degree : f.entries.length ≤ deg
  codegree : f.codeg ≤ codeg
  bits : f.tnum.dataType.bits ≤ T.bits

theorem FitsJoin.image (h : FitsJoin f T deg codeg) (hf : IsPPermBag f φ) {j v : Nat} (hv : φ j = some v)
    : j < f.entries.length ∧ j < deg ∧ v < codeg ∧ v + 1 < 2 ^ T.bits := by
  obtain ⟨h1, h2, h3⟩ := hf.image_lt hv
  have h4 := Nat.pow_le_pow_right Nat.two_pos h.bits
  have h5 := h.degree
  have h6 := h.codegree
  refine ⟨h1, by omega, by omega, by omega⟩

variable {dom : List Nat}

theorem joinDom_of_some (hg : IsPPermBag g γ) (hfits : FitsJoin g T deg codeg)
    (hdom : g.dom = some dom) (hP : IsBijective P) (hs : IsJoined P deg codeg s)
    : SucceedsIf (joinDom T g g.entries s) (IsBijective (addAll P γ))
        (IsJoined (addAll P γ) deg codeg) := by
  have hdoms := hg.dom dom hdom
  have hloop := @failLoop_spec JoinState dom.length 1 s (fun i s => do
      let j ← index (← elmPlist dom i)
      joinRound T j (← readEntry g.entries j) s)
    (fun i => IsBijective (addPoints P γ (domPoints (dom.take (i - 1)))))
    (fun i => IsJoined (addPoints P γ (domPoints (dom.take (i - 1)))) deg codeg) ?_ ?_ ?_ ?_
  . rw [Nat.add_sub_cancel_left, take_length,
      addPoints_of_covers fun j v hv => hdoms.mem_domPoints hv] at hloop
    unfold joinDom
    rw [hdom]
    rw [hg.rankPPerm_eq hdom]
    exact hloop
  . intro j hb
    refine addPoints_mono (map_subset _ fun x hx => ?_) hb
    exact (take_sublist_take_left (Nat.sub_le_sub_right (Nat.le_succ j) 1)).subset hx
  . rw [show (1 : Nat) - 1 = 0 from rfl, take_zero]
    exact (addPoints_nil (P := P)).symm ▸ hP
  . rw [show (1 : Nat) - 1 = 0 from rfl, take_zero]
    exact (addPoints_nil (P := P)).symm ▸ hs
  . intro i s h1 hi hb hs
    obtain ⟨j, v, helm, hv, htake⟩ := hdoms.round h1 hi
    obtain ⟨hj, hjdeg, hvcodeg, hlt⟩ := hfits.image hg hv
    rw [helm, ok_bind, index_succ, ok_bind, readEntry_images hg.images hj, ok_bind, hv,
      Nat.add_sub_cancel, htake, addPoints_snoc hv]
    exact hs.round hjdeg hvcodeg hlt hb

theorem joinPoints_of_none (hg : IsPPermBag g γ) (hfits : FitsJoin g T deg codeg)
    (hdom : g.dom = none) (hP : IsBijective P) (hs : IsJoined P deg codeg s)
    : SucceedsIf (joinPoints T g g.entries s) (IsBijective (addAll P γ))
        (IsJoined (addAll P γ) deg codeg) := by
  have hloop := @failLoop_spec JoinState g.entries.length 0 s (fun i s => do
      let v ← readEntry g.entries i
      if v ≠ 0 then joinRound T i v s else return some s)
    (fun i => IsBijective (addPoints P γ (range i)))
    (fun i => IsJoined (addPoints P γ (range i)) deg codeg) ?_ ?_ ?_ ?_
  . rw [Nat.zero_add, addPoints_of_covers fun j v hv =>
      mem_range.mpr (hg.images.lt_length hv)] at hloop
    unfold joinPoints
    rw [hdom]
    exact hloop
  . exact fun j hb => addPoints_mono (range_subset.mpr (Nat.le_succ j)) hb
  . exact (addPoints_nil (P := P)).symm ▸ hP
  . exact (addPoints_nil (P := P)).symm ▸ hs
  . intro j s _ hj hb hs
    rw [readEntry_images hg.images (by omega), ok_bind, range_succ]
    cases hv : γ j with
    | none =>
      rw [entryOf_none, if_neg (by decide), addPoints_skip hv]
      exact ⟨fun _ => ⟨s, rfl, hs⟩, fun hnot => absurd hb hnot⟩
    | some v =>
      obtain ⟨_, hjdeg, hvcodeg, hlt⟩ := hfits.image hg hv
      rw [entryOf_some, if_pos (Nat.succ_ne_zero v), addPoints_snoc hv]
      exact hs.round hjdeg hvcodeg hlt hb

theorem joinLoops_spec {P₁ P₂ P₃ : Nat → Nat → Prop} (x : Result (Option JoinState))
    (y z : JoinState → Result (Option JoinState)) (h12 : IsBijective P₂ → IsBijective P₁)
    (h23 : IsBijective P₃ → IsBijective P₂)
    (hx : SucceedsIf x (IsBijective P₁) (IsJoined P₁ deg codeg))
    (hy : ∀ s, IsBijective P₁ → IsJoined P₁ deg codeg s
      → SucceedsIf (y s) (IsBijective P₂) (IsJoined P₂ deg codeg))
    (hz : ∀ s, IsBijective P₂ → IsJoined P₂ deg codeg s
      → SucceedsIf (z s) (IsBijective P₃) (IsJoined P₃ deg codeg))
    : SucceedsIf (do
        match ← x with
        | none => return none
        | some s =>
          match ← y s with
          | none => return none
          | some s =>
            match ← z s with
            | none => return none
            | some s => return some (newPPerm T s.entries codeg)) (IsBijective P₃)
        (fun h => ∃ s, h = newPPerm T s.entries codeg ∧ IsJoined P₃ deg codeg s) := by
  obtain ⟨s₁, hrun, hb₁, hs₁⟩ | ⟨hrun, hnot⟩ := hx.cases
  . rw [hrun, ok_bind]
    dsimp only
    obtain ⟨s₂, hrun, hb₂, hs₂⟩ | ⟨hrun, hnot⟩ := (hy s₁ hb₁ hs₁).cases
    . rw [hrun, ok_bind]
      dsimp only
      obtain ⟨s₃, hrun, hb₃, hs₃⟩ | ⟨hrun, hnot⟩ := (hz s₂ hb₂ hs₂).cases
      . rw [hrun, ok_bind]
        exact ⟨fun _ => ⟨_, rfl, s₃, rfl, hs₃⟩, fun hnot => absurd hb₃ hnot⟩
      . rw [hrun, ok_bind]
        exact ⟨fun hb => absurd hb hnot, fun _ => rfl⟩
    . rw [hrun, ok_bind]
      exact ⟨fun hb => absurd (h23 hb) hnot, fun _ => rfl⟩
  . rw [hrun, ok_bind]
    exact ⟨fun hb => absurd (h12 (h23 hb)) hnot, fun _ => rfl⟩

theorem joinDom_of_none (hdom : g.dom = none) (hP : IsBijective P) (hs : IsJoined P deg codeg s)
    : SucceedsIf (joinDom T g g.entries s) (IsBijective P) (IsJoined P deg codeg) := by
  unfold joinDom
  rw [hdom]
  exact ⟨fun _ => ⟨s, rfl, hs⟩, fun hnot => absurd hP hnot⟩

theorem joinPoints_of_some (hdom : g.dom = some dom) (hP : IsBijective P)
    (hs : IsJoined P deg codeg s)
    : SucceedsIf (joinPoints T g g.entries s) (IsBijective P) (IsJoined P deg codeg) := by
  unfold joinPoints
  rw [hdom]
  exact ⟨fun _ => ⟨s, rfl, hs⟩, fun hnot => absurd hP hnot⟩

theorem joinFirst_spec (hf : IsPPermBag f φ) (hfits : FitsJoin f T deg codeg)
    (hdom : f.dom = some dom) (hs : IsJoined noPairs deg codeg s)
    : ∃ s', domLoop dom dom.length (fun j s => do joinSet T j (← readEntry f.entries j) s) s = .ok s'
        ∧ IsJoined (addAll noPairs φ) deg codeg s' := by
  have hdoms := hf.dom dom hdom
  apply domLoop_spec hdoms (fun L => IsJoined (addPoints noPairs φ L) deg codeg)
  . rw [addPoints_nil]
    exact hs
  . intro L j v s hv hs
    obtain ⟨hj, hjdeg, hvcodeg, hlt⟩ := hfits.image hf hv
    rw [readEntry_images hf.images hj, ok_bind, hv, entryOf_some, addPoints_snoc hv]
    refine hs.set hjdeg hvcodeg hlt ?_
    rw [← addPoints_snoc hv]
    exact (isBijective_addAll_noPairs φ).mono fun _ _ => addPoints_le _
  . intro s' hs'
    rwa [addPoints_of_covers fun j v hv => hdoms.mem_domPoints hv] at hs'

end Join

def IsJoin (φ γ : Nat ≃. Nat) (res : Option PPermBag) : Prop :=
  match res with
  | none => ¬IsBijective (addAll (addAll noPairs φ) γ)
  | some h => ∃ hb, IsPPermBag h (join φ γ hb)

section Spec

variable {f g : PPermBag} {φ γ : Nat ≃. Nat}

theorem IsJoined.isPPermBag {T : PermTnum} {s : JoinState} (hf : IsPPermBag f φ)
    (hg : IsPPermBag g γ) (hb : IsBijective (addAll (addAll noPairs φ) γ))
    (hs : IsJoined (addAll (addAll noPairs φ) γ) (max f.entries.length g.entries.length)
      (max f.codeg g.codeg) s) (hlt : max f.codeg g.codeg < 2 ^ T.bits)
    : IsPPermBag (newPPerm T s.entries (max f.codeg g.codeg)) (join φ γ hb) := by
  have hdeg : IsDegree (join φ γ hb) (max f.entries.length g.entries.length) :=
    hf.degree.max hg.degree fun i v => join_eq_some_iff
  apply isPPermBag_newPPerm
  . intro k
    rw [getD_eq_getElem?_getD]
    by_cases hk : k < max f.entries.length g.entries.length
    . obtain ⟨o, hget, ho⟩ := hs.entry k hk
      rw [hget, Option.getD_some]
      congr 1
      ext v
      rw [← ho, join_eq_some_iff]
      exact or_congr_left (or_iff_right id)
    . have hlen := hs.length_entries
      rw [hdeg.eq_none (by omega), getElem?_eq_none (by omega)]
      rfl
  . rw [hs.length_entries]
    exact hdeg
  . apply hf.codegree.max hg.codegree
    intro v i
    rw [PEquiv.eq_some_iff, PEquiv.eq_some_iff, PEquiv.eq_some_iff, join_eq_some_iff]
  . exact hlt

section

variable (hf : IsPPermBag f φ) (hg : IsPPermBag g γ)

include hf hg

theorem joinPPerms_spec
    : ∃ res, joinPPerms f.tnum.dataType g.tnum.dataType f g = .ok res ∧ IsJoin φ γ res := by
  let T := PermTnum.resultType f.tnum.dataType g.tnum.dataType
  let deg := max f.entries.length g.entries.length
  let codeg := max f.codeg g.codeg
  have hfitf : FitsJoin f T deg codeg :=
    ⟨Nat.le_max_left _ _, Nat.le_max_left _ _, PermTnum.bits_left _ _⟩
  have hfitg : FitsJoin g T deg codeg :=
    ⟨Nat.le_max_right _ _, Nat.le_max_right _ _, PermTnum.bits_right _ _⟩
  have hlt : codeg < 2 ^ T.bits := by
    have h1 := Nat.pow_le_pow_right Nat.two_pos hfitf.bits
    have h2 := Nat.pow_le_pow_right Nat.two_pos hfitg.bits
    have h3 := hf.codeg_lt
    have h4 := hg.codeg_lt
    change max f.codeg g.codeg < _
    omega
  suffices h : SucceedsIf (joinPPerms f.tnum.dataType g.tnum.dataType f g)
      (IsBijective (addAll (addAll noPairs φ) γ)) (fun h => ∃ s, h = newPPerm T s.entries codeg
        ∧ IsJoined (addAll (addAll noPairs φ) γ) deg codeg s) by
    obtain ⟨bag, hrun, hb, s, rfl, hs⟩ | ⟨hrun, hnot⟩ := h.cases
    . exact ⟨some _, hrun, hb, hs.isPPermBag hf hg hb hlt⟩
    . exact ⟨none, hrun, hnot⟩
  have hstart : IsJoined noPairs deg codeg ⟨replicate deg 0, replicate codeg 0⟩ :=
    isJoined_noPairs deg codeg
  have hfirst : IsBijective (addAll (addAll noPairs φ) γ) → IsBijective (addAll noPairs φ) :=
    fun hb => hb.mono fun _ _ => .inl
  unfold joinPPerms
  rw [constAddrPPerm_eq, ok_bind, constAddrPPerm_eq, ok_bind, hf.codegPPerm_eq, hg.codegPPerm_eq]
  cases hdomf : f.dom with
  | none =>
    change SucceedsIf (Except.ok (⟨replicate deg 0, replicate codeg 0⟩ : JoinState)
      >>= fun s => _) _ _
    rw [ok_bind]
    cases hdomg : g.dom with
    | none =>
      exact joinLoops_spec (joinDom T g g.entries _) (joinPoints T f f.entries)
        (joinPoints T g g.entries) (fun _ => isBijective_noPairs) hfirst
        (joinDom_of_none hdomg isBijective_noPairs hstart)
        (fun s hb hs => joinPoints_of_none hf hfitf hdomf hb hs)
        (fun s hb hs => joinPoints_of_none hg hfitg hdomg hb hs)
    | some dom =>
      have hswap : addAll (addAll noPairs γ) φ = addAll (addAll noPairs φ) γ := addAll_comm
      exact joinLoops_spec (joinDom T g g.entries _) (joinPoints T f f.entries)
        (joinPoints T g g.entries) (fun _ => isBijective_addAll_noPairs γ) id
        (joinDom_of_some hg hfitg hdomg isBijective_noPairs hstart)
        (fun s hb hs => hswap ▸ joinPoints_of_none hf hfitf hdomf hb hs)
        (fun s hb hs => joinPoints_of_some hdomg hb hs)
  | some domf =>
    dsimp only
    rw [hf.rankPPerm_eq hdomf, ok_bind]
    obtain ⟨s, hrun, hs⟩ := joinFirst_spec hf hfitf hdomf hstart
    rw [hrun, ok_bind]
    have hb := isBijective_addAll_noPairs φ
    cases hdomg : g.dom with
    | none =>
      exact joinLoops_spec (joinDom T g g.entries s) (joinPoints T f f.entries)
        (joinPoints T g g.entries) id hfirst (joinDom_of_none hdomg hb hs)
        (fun s hb hs => joinPoints_of_some hdomf hb hs)
        (fun s hb hs => joinPoints_of_none hg hfitg hdomg hb hs)
    | some dom =>
      exact joinLoops_spec (joinDom T g g.entries s) (joinPoints T f f.entries)
        (joinPoints T g g.entries) id id (joinDom_of_some hg hfitg hdomg hb hs)
        (fun s hb hs => joinPoints_of_some hdomf hb hs)
        (fun s hb hs => joinPoints_of_some hdomg hb hs)

theorem funcJoinPPerms_spec
    : ∃ res, funcJoinPPerms f g = .ok res ∧ IsJoin φ γ res := by
  obtain ⟨b, hrun, hb⟩ := eqPPerm_spec hf hg
  unfold funcJoinPPerms PPermOps.eq
  rw [hrun, ok_bind]
  cases b with
  | true =>
    obtain rfl : φ = γ := hb.mp rfl
    have hsame : addAll (addAll noPairs φ) φ = addAll noPairs φ := by
      funext i v
      exact propext (or_iff_left_of_imp .inr)
    have hbij : IsBijective (addAll (addAll noPairs φ) φ) := by
      rw [hsame]
      exact isBijective_addAll_noPairs φ
    refine ⟨some f, rfl, hbij, ?_⟩
    have hjoin : join φ φ hbij = φ := by
      ext i v
      rw [join_eq_some_iff]
      exact or_self_iff
    rw [hjoin]
    exact hf
  | false => exact joinPPerms_spec hf hg

theorem meetDegree_spec {n : Nat} (hn : ∀ i v, (φ ⊓ γ) i = some v → i < n)
    : ∃ deg, meetDegree f.entries g.entries n = .ok deg ∧ IsDegree (φ ⊓ γ) deg := by
  induction n with
  | zero => exact ⟨0, rfl, hn, .inl rfl⟩
  | succ n ih =>
    unfold meetDegree
    rw [imagePP_eq hf.images, ok_bind, imagePP_eq hg.images]
    by_cases hboth : entryOf (φ n) ≠ 0 ∧ entryOf (φ n) = entryOf (γ n)
    . refine ⟨n + 1, ?_, hn, .inr ?_⟩
      . rw [ok_bind, if_pos hboth]
        rfl
      . have heq := entryOf_injective hboth.2
        cases hv : φ n with
        | none =>
          rw [hv] at hboth
          exact absurd rfl hboth.1
        | some v => exact ⟨v, inf_eq_some_iff.mpr ⟨hv, heq ▸ hv⟩⟩
    . rw [ok_bind, if_neg hboth]
      apply ih
      intro i v hv
      have hlt := hn i v hv
      rcases Nat.lt_succ_iff_lt_or_eq.mp hlt with hlt | rfl
      . exact hlt
      . rw [inf_eq_some_iff] at hv
        refine absurd ⟨?_, ?_⟩ hboth
        . rw [hv.1]
          exact Nat.succ_ne_zero v
        . rw [hv.1, hv.2]

end

theorem meetFill_spec (T : PermTnum) {deg : Nat} (hf : IsPPermBag f φ) (hg : IsPPermBag g γ)
    (hlt : ∀ j v, (φ ⊓ γ) j = some v → v + 1 < 2 ^ T.bits) (hdeg : IsDegree (φ ⊓ γ) deg)
    : ∃ h, (do
        let s ← forLoop (fun i s => do
          let j ← imagePP (i + 1) f.entries f.entries.length
          if (← imagePP (i + 1) g.entries g.entries.length) = j then storeImg T s i j else return s)
          deg 0 ⟨replicate deg 0, 0⟩
        return newPPerm T s.entries s.codeg : Result PPermBag) = .ok h
        ∧ IsPPermBag h (φ ⊓ γ) := by
  have hcovers : Covers (PEquiv.refl Nat) (φ ⊓ γ) (range (0 + deg)) := by
    intro j k v _ hv
    have := hdeg.lt j v hv
    exact mem_range.mpr (by omega)
  have hloop : ∃ s, forLoop (fun i s => do
      let j ← imagePP (i + 1) f.entries f.entries.length
      if (← imagePP (i + 1) g.entries g.entries.length) = j then storeImg T s i j else return s)
      deg 0 ⟨replicate deg 0, 0⟩ = .ok s
      ∧ IsFillState (PEquiv.refl Nat) (φ ⊓ γ) deg (range (0 + deg)) s := by
    apply pointLoop_spec (IsFillState (PEquiv.refl Nat) (φ ⊓ γ) deg)
      (isFillState_replicate _ _ _)
    . intro L j s _ hj hs
      rw [imagePP_eq hf.images, ok_bind, imagePP_eq hg.images, ok_bind]
      split
      . next heq =>
        have hinf : (φ ⊓ γ) j = φ j := if_pos (entryOf_injective heq).symm
        rw [← hinf]
        exact hs.storeImg rfl (by omega) (entryOf_lt hlt (Nat.two_pow_pos _) j)
      . next hne =>
        refine ⟨s, rfl, hs.skip (.inr (if_neg fun h => hne ?_))⟩
        rw [h]
    . exact fun s hs => hs
  obtain ⟨s, hrun, hs⟩ := hloop
  rw [hrun]
  have hbag := hs.isPPermBag (T := T) hcovers (by rw [refl_quotient]; exact hdeg) hlt
  rw [refl_quotient] at hbag
  exact ⟨_, rfl, hbag⟩

theorem funcMeetPPerms_spec (hf : IsPPermBag f φ) (hg : IsPPermBag g γ)
    : ∃ h, funcMeetPPerms f g = .ok h ∧ IsPPermBag h (φ ⊓ γ) := by
  obtain ⟨deg, hrun, hdeg⟩ := meetDegree_spec hf hg (n := min f.entries.length g.entries.length)
    fun i v hv => by
      rw [inf_eq_some_iff] at hv
      have h1 := hf.images.lt_length hv.1
      have h2 := hg.images.lt_length hv.2
      omega
  unfold funcMeetPPerms
  dsimp only
  rw [hrun, ok_bind]
  apply meetFill_spec _ hf hg _ hdeg
  intro j v hv
  rw [inf_eq_some_iff] at hv
  have h1 := (hf.image_lt hv.1).2.2
  have h2 := (hg.image_lt hv.2).2.2
  cases htf : f.tnum with
  | pperm2 =>
    rw [htf] at h1
    exact h1
  | pperm4 =>
    rw [htf] at h1
    cases htg : g.tnum with
    | pperm2 =>
      rw [htg] at h2
      exact h2
    | pperm4 => exact h1

end Spec
