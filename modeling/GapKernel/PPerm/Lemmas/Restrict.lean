import GapKernel.PPerm.Lemmas.Product

open List

namespace PartialBijection

variable {φ : Nat ≃. Nat} {set : List Nat}

def restrict (φ : Nat ≃. Nat) (set : List Nat) : Nat ≃. Nat :=
  (PEquiv.ofSet {i | i + 1 ∈ set}).trans φ

variable {i : Nat}

theorem restrict_of_mem (h : i + 1 ∈ set) : restrict φ set i = φ i :=
  trans_of_eq_some (PEquiv.ofSet_eq_some_self_iff.mpr h)

theorem restrict_of_notMem (h : i + 1 ∉ set) : restrict φ set i = none :=
  trans_of_eq_none (if_neg h)

theorem restrict_eq_some_iff {v : Nat}
    : restrict φ set i = some v ↔ i + 1 ∈ set ∧ φ i = some v := by
  by_cases h : i + 1 ∈ set
  . rw [restrict_of_mem h]
    exact (and_iff_right h).symm
  . rw [restrict_of_notMem h]
    exact ⟨(fun hv => nomatch hv), fun hv => absurd hv.1 h⟩

theorem restrict_congr {set' : List Nat} (h : ∀ i v, φ i = some v → (i + 1 ∈ set ↔ i + 1 ∈ set'))
    : restrict φ set = restrict φ set' := by
  ext i v
  rw [restrict_eq_some_iff, restrict_eq_some_iff]
  exact and_congr_left (h i v)

theorem restrict_perm_eq_some_iff {σ : Equiv.Perm Nat} {v : Nat}
    : restrict σ.toPEquiv set i = some v ↔ i + 1 ∈ set ∧ σ i = v := by
  rw [restrict_eq_some_iff, Equiv.toPEquiv_apply, Option.some.injEq]

end PartialBijection

open PartialBijection PPermImpl

structure IsPosSet (set : List Nat) : Prop where
  sorted : set.Pairwise (· < ·)
  pos : ∀ x ∈ set, 0 < x

section Sets

variable {set : List Nat}

theorem elmList_of_lt {i : Nat} (h : i < set.length) : elmList set (i + 1) = .ok set[i] := by
  unfold elmList
  rw [if_pos (Nat.succ_le_of_lt h)]
  exact elmPlist_of_getElem? (getElem?_eq_getElem h)

theorem elmList_concat (init : List Nat) (x : Nat)
    : elmList (init ++ [x]) (init ++ [x]).length = .ok x := by
  have hlen : (init ++ [x]).length = init.length + 1 := length_append
  unfold elmList
  rw [if_pos (Nat.le_refl _), hlen]
  exact elmPlist_append_cons init [] x

namespace IsPosSet

theorem exists_point (h : IsPosSet set) {i : Nat} (hi : i < set.length)
    : ∃ j, set[i] = j + 1 :=
  ⟨set[i] - 1, (Nat.sub_add_cancel (h.pos _ (getElem_mem hi))).symm⟩

variable {deg : Nat}

theorem le_last {init : List Nat} (h : IsPosSet (init ++ [deg])) {x : Nat} (hx : x ∈ init ++ [deg])
    : x ≤ deg := by
  rw [mem_append, mem_singleton] at hx
  rcases hx with hx | rfl
  . exact Nat.le_of_lt ((pairwise_append.mp h.sorted).2.2 x hx deg (mem_singleton_self _))
  . exact Nat.le_refl _

theorem length_le (h : IsPosSet set) (hle : ∀ x ∈ set, x ≤ deg)
    : set.length ≤ deg := by
  have hsub : set ⊆ range' 1 deg := by
    intro x hx
    rw [mem_range'_1]
    have := h.pos x hx
    have := hle x hx
    omega
  have hnodup : set.Nodup := h.sorted.imp (fun hlt => Nat.ne_of_lt hlt)
  simpa using (hnodup.subperm hsub).length_le

theorem mem_of_length_eq (h : IsPosSet set) (hle : ∀ x ∈ set, x ≤ deg) (hlen : set.length = deg)
    {x : Nat} (h1 : 0 < x) (h2 : x ≤ deg) : x ∈ set := by
  have hsub : set ⊆ range' 1 deg := by
    intro x hx
    rw [mem_range'_1]
    have := h.pos x hx
    have := hle x hx
    omega
  have hnodup : set.Nodup := h.sorted.imp (fun hlt => Nat.ne_of_lt hlt)
  have hperm := (hnodup.subperm hsub).perm_of_length_le (by simp [hlen])
  rw [hperm.mem_iff, mem_range'_1]
  omega

end IsPosSet

theorem setLoop_spec {σ : Type} (hset : IsPosSet set) {n : Nat} (hn : n ≤ set.length)
    {body : Nat → σ → Result σ} (I : List Nat → σ → Prop) {s : σ} {Q : σ → Prop} (hs : I [] s)
    (hstep : ∀ L j s, j + 1 ∈ set.take n → I L s → ∃ s', body j s = .ok s' ∧ I (L ++ [j]) s')
    (hQ : ∀ s', I (domPoints (set.take n)) s' → Q s')
    : ∃ s', setLoop set n body s = .ok s' ∧ Q s' := by
  unfold setLoop
  apply forLoop_of_inv (fun i s => I (domPoints (set.take (i - 1))) s)
  . exact hs
  . intro i s h1 hi hs
    obtain ⟨k, rfl⟩ : ∃ k, i = k + 1 := ⟨i - 1, by omega⟩
    have hk : k < set.length := by omega
    obtain ⟨j, hj⟩ := hset.exists_point hk
    rw [elmList_of_lt hk, ok_bind, hj, index_succ, ok_bind, Nat.add_sub_cancel]
    have htake : domPoints (set.take (k + 1)) = domPoints (set.take k) ++ [j] := by
      unfold domPoints
      rw [take_add_one, getElem?_eq_getElem hk, hj, map_append]
      rfl
    rw [htake]
    apply hstep _ _ _ _ hs
    rw [← hj]
    exact mem_take_iff_getElem.mpr ⟨k, by omega, rfl⟩
  . intro s' hs'
    rw [Nat.add_sub_cancel_left] at hs'
    exact hQ s' hs'

theorem mem_domPoints_of_mem {j : Nat} (h : j + 1 ∈ set) : j ∈ domPoints set :=
  mem_map.mpr ⟨j + 1, h, Nat.add_sub_cancel j 1⟩

theorem covers_restrict {φ : Nat ≃. Nat}
    : Covers (PEquiv.refl Nat) (restrict φ set) (domPoints set) := by
  intro j k v _ hv
  exact mem_domPoints_of_mem (restrict_eq_some_iff.mp hv).1

end Sets

section Restricted

variable {f : PPermBag} {φ : Nat ≃. Nat} {set : List Nat}

variable {n : Nat}

theorem lastPosition_spec (set : List Nat) (deg : Nat) (hn : n ≤ set.length)
    : ∃ m, lastPosition set deg n = .ok m ∧ m ≤ n ∧ (m ≠ 0 → ∃ h : m - 1 < set.length, set[m - 1] ≤ deg)
        ∧ ∀ i (hi : i < set.length), m ≤ i → i < n → deg < set[i] := by
  induction n with
  | zero => exact ⟨0, rfl, Nat.le_refl 0, (fun hm => absurd rfl hm), fun i _ _ hi => by omega⟩
  | succ n ih =>
    unfold lastPosition
    rw [elmList_of_lt (by omega), ok_bind]
    split
    . next hgt =>
      obtain ⟨m, hrun, hle, hlast, hrest⟩ := ih (by omega)
      refine ⟨m, hrun, by omega, hlast, fun i hi hmi hin => ?_⟩
      rcases Nat.lt_succ_iff_lt_or_eq.mp hin with hlt | rfl
      . exact hrest i hi hmi hlt
      . exact hgt
    . next hle =>
      exact ⟨n + 1, rfl, Nat.le_refl _, fun _ => ⟨hn, Nat.not_lt.mp hle⟩, fun i _ _ _ => by omega⟩

theorem lastDefined_spec (hf : IsImageList φ f.entries) (hset : IsPosSet set) (hn : n ≤ set.length)
    (hle : ∀ i (hi : i < set.length), i < n → set[i] ≤ f.entries.length)
    : ∃ m, lastDefined set f.entries n = .ok m ∧ m ≤ n
        ∧ (m ≠ 0 → ∃ h : m - 1 < set.length, ∃ v, φ (set[m - 1] - 1) = some v)
        ∧ ∀ i (hi : i < set.length), m ≤ i → i < n → φ (set[i] - 1) = none := by
  induction n with
  | zero => exact ⟨0, rfl, Nat.le_refl 0, (fun hm => absurd rfl hm), fun i _ _ hi => by omega⟩
  | succ n ih =>
    obtain ⟨j, hj⟩ := hset.exists_point (show n < set.length by omega)
    have hjle := hle n (by omega) (Nat.lt_succ_self n)
    unfold lastDefined
    rw [elmList_of_lt (by omega), ok_bind, hj, index_succ, ok_bind,
      readEntry_images hf (by omega), ok_bind]
    cases hv : φ j with
    | none =>
      obtain ⟨m, hrun, hmn, hlast, hrest⟩ := ih (by omega) fun i hi hin => hle i hi (by omega)
      refine ⟨m, hrun, by omega, hlast, fun i hi hmi hin => ?_⟩
      rcases Nat.lt_succ_iff_lt_or_eq.mp hin with hlt | rfl
      . exact hrest i hi hmi hlt
      . rw [hj]
        exact hv
    | some v =>
      refine ⟨n + 1, rfl, Nat.le_refl _, fun _ => ⟨hn, v, ?_⟩, fun i _ _ _ => by omega⟩
      rw [← hv]
      exact congrArg (fun x => φ (x - 1)) hj

theorem restrictedFill_spec (hf : IsPPermBag f φ) (hset : IsPosSet set) {deg : Nat}
    (hn : n ≤ set.length) (hle : ∀ x ∈ set.take n, x ≤ deg ∧ x ≤ f.entries.length)
    : ∃ s, setLoop set n (fun j s => do store f.tnum.dataType s j (← readEntry f.entries j))
        ⟨replicate deg 0, 0⟩ = .ok s
      ∧ IsFillState (PEquiv.refl Nat) (restrict φ (set.take n)) deg (domPoints (set.take n)) s := by
  apply setLoop_spec hset hn
    (IsFillState (PEquiv.refl Nat) (restrict φ (set.take n)) deg) (isFillState_replicate _ _ _)
  . intro L j s hj hs
    have hjle := hle _ hj
    have hlt : entryOf (φ j) < 2 ^ f.tnum.dataType.bits :=
      entryOf_lt (fun i v hv => (hf.image_lt hv).2.2) (Nat.two_pow_pos _) j
    rw [readEntry_images hf.images (by omega), ok_bind, ← restrict_of_mem hj]
    rw [← restrict_of_mem hj] at hlt
    exact hs.store rfl (by omega) hlt
  . exact fun s hs => hs

theorem funcRestrictedPPerm_spec (hf : IsPPermBag f φ) (hset : IsPosSet set)
    : ∃ h, funcRestrictedPPerm f set = .ok h ∧ IsPPermBag h (restrict φ set) := by
  obtain ⟨m, hrun1, hm, hlast1, hrest1⟩ := lastPosition_spec set f.entries.length (Nat.le_refl _)
  have hmono : ∀ i k (hik : i ≤ k) (hk : k < set.length), set[i] ≤ set[k] := by
    intro i k hik hk
    rcases Nat.lt_or_eq_of_le hik with hlt | rfl
    . exact Nat.le_of_lt (pairwise_iff_getElem.mp hset.sorted i k (by omega) hk hlt)
    . exact Nat.le_refl _
  have hle1 : ∀ i (hi : i < set.length), i < m → set[i] ≤ f.entries.length := by
    intro i hi him
    obtain ⟨hlt, hlast⟩ := hlast1 (by omega)
    exact Nat.le_trans (hmono i (m - 1) (by omega) hlt) hlast
  obtain ⟨n, hrun2, hn, hlast2, hrest2⟩ := lastDefined_spec hf.images hset hm hle1
  -- Only the first points of the set are in the domain.
  have htake : restrict φ set = restrict φ (set.take n) := by
    apply restrict_congr
    intro i v hv
    refine ⟨fun hi => ?_, fun hi => mem_of_mem_take hi⟩
    obtain ⟨k, hk, hki⟩ := mem_iff_getElem.mp hi
    by_contra hnot
    have hnk : n ≤ k := by
      by_contra hlt
      exact hnot (mem_take_iff_getElem.mpr ⟨k, by omega, hki⟩)
    have hi := hf.images.lt_length hv
    by_cases hkm : k < m
    . have := hrest2 k hk hnk hkm
      rw [hki, Nat.add_sub_cancel, hv] at this
      contradiction
    . have := hrest1 k hk (by omega) hk
      omega
  unfold funcRestrictedPPerm
  dsimp only
  rw [hrun1, ok_bind, hrun2, ok_bind, htake]
  split
  . next h0 =>
    refine ⟨_, rfl, ?_⟩
    rw [h0, take_zero]
    have hbot : restrict φ [] = ⊥ := by
      ext1 i
      exact restrict_of_notMem not_mem_nil
    rw [hbot]
    exact isPPermBag_emptyPartialPerm
  . next h0 =>
    obtain ⟨j, hj⟩ := hset.exists_point (show n - 1 < set.length by omega)
    obtain ⟨_, v, hv⟩ := hlast2 h0
    have helm : elmList set n = .ok (j + 1) := by
      rw [show n = n - 1 + 1 by omega, elmList_of_lt (by omega), hj]
    have hle : ∀ x ∈ set.take n, x ≤ j + 1 ∧ x ≤ f.entries.length := by
      intro x hx
      obtain ⟨k, hk, rfl⟩ := mem_take_iff_getElem.mp hx
      rw [← hj]
      exact ⟨hmono k (n - 1) (by omega) (by omega), hle1 k (by omega) (by omega)⟩
    obtain ⟨s, hrun, hs⟩ := restrictedFill_spec hf hset (show n ≤ set.length by omega) hle
    rw [helm, ok_bind, hrun, ok_bind]
    rw [hj, Nat.add_sub_cancel] at hv
    have hmem : j + 1 ∈ set.take n :=
      mem_take_iff_getElem.mpr ⟨n - 1, by omega, hj⟩
    have hdeg : IsDegree (restrict φ (set.take n)) (j + 1) := by
      constructor
      . intro i u hu
        have := (hle _ (restrict_eq_some_iff.mp hu).1).1
        omega
      . exact .inr ⟨v, restrict_eq_some_iff.mpr ⟨hmem, hv⟩⟩
    have hbag := hs.isPPermBag (T := f.tnum.dataType) covers_restrict
      (by rw [refl_quotient]; exact hdeg) (by
        intro i u hu
        exact (hf.image_lt (restrict_eq_some_iff.mp hu).2).2.2)
    rw [refl_quotient] at hbag
    exact ⟨_, rfl, hbag⟩

end Restricted

section Conversion

variable {p : PermBag} {σ : Equiv.Perm Nat} {w : IntSize} {init : List Nat} {T : PermTnum} {deg : Nat}

theorem readEntry_acts (hp : PermList.Acts p.entries σ) {j : Nat} (hj : j < p.entries.length)
    : readEntry p.entries j = .ok (σ j) := by
  unfold readEntry
  rw [hp.getElem?_eq hj]
  rfl

theorem IMAGE_acts (hp : PermList.Acts p.entries σ) (j : Nat)
    : IMAGE j p.entries p.entries.length = .ok (σ j) := by
  unfold IMAGE
  split
  . next hlt => exact readEntry_acts hp hlt
  . next hle =>
    rw [hp.fix (by omega)]
    rfl

theorem asLoop_spec {read : Nat → Result Nat} (hset : IsPosSet (init ++ [deg]))
    (hread : ∀ j, j + 1 ∈ init ++ [deg] → read j = .ok (σ j))
    (hlt : ∀ j, j + 1 ∈ init ++ [deg] → σ j + 1 < 2 ^ T.bits)
    : ∃ pt, setLoop (init ++ [deg]) (init ++ [deg]).length
          (fun j pt => do writeEntry T pt j ((← read j) + 1)) (replicate deg 0) = .ok pt
        ∧ HasEntries (PEquiv.refl Nat) (restrict σ.toPEquiv (init ++ [deg])) deg
          (domPoints (init ++ [deg])) pt := by
  apply setLoop_spec hset (Nat.le_refl _) (HasEntries (PEquiv.refl Nat)
    (restrict σ.toPEquiv (init ++ [deg])) deg) (hasEntries_replicate _ _ _)
  . intro L j pt hj hpt
    rw [take_length] at hj
    have hval : restrict σ.toPEquiv (init ++ [deg]) j = some (σ j) :=
      restrict_perm_eq_some_iff.mpr ⟨hj, rfl⟩
    have hle := hset.le_last hj
    obtain ⟨pt', hwrite, hpt', -⟩ := hpt.write (T := T) (k := j) rfl (by omega)
      (by rw [hval]; exact hlt j hj)
    rw [hval] at hwrite
    rw [hread j hj, ok_bind]
    exact ⟨pt', hwrite, hpt'⟩
  . intro pt hpt
    rw [take_length] at hpt
    exact hpt

section

variable (hp : PermList.Acts p.entries σ) (hset : IsPosSet (init ++ [deg]))

include hp hset

theorem asImages_spec (hlt : ∀ j, j + 1 ∈ init ++ [deg] → σ j + 1 < 2 ^ T.bits)
    : ∃ pt, asImages T p.entries (init ++ [deg]) deg = .ok pt
        ∧ HasEntries (PEquiv.refl Nat) (restrict σ.toPEquiv (init ++ [deg])) deg
          (domPoints (init ++ [deg])) pt :=
  asLoop_spec hset (fun j _ => IMAGE_acts hp j) hlt

theorem asEntries_spec (hdep : deg ≤ p.entries.length)
    (hlt : ∀ j, j + 1 ∈ init ++ [deg] → σ j + 1 < 2 ^ T.bits)
    : ∃ pt, asEntries T p.entries (init ++ [deg]) deg = .ok pt
        ∧ HasEntries (PEquiv.refl Nat) (restrict σ.toPEquiv (init ++ [deg])) deg
          (domPoints (init ++ [deg])) pt := by
  apply asLoop_spec hset _ hlt
  intro j hj
  exact readEntry_acts hp (Nat.le_trans (hset.le_last hj) hdep)

end

structure IsAsState (φ : Nat ≃. Nat) (n codeg : Nat) (L : List Nat) (s : FillState) : Prop where
  entries : HasEntries (PEquiv.refl Nat) φ n L s.entries
  codeg : codeg = 0 → IsBoundOn (PartialBijection.both (PEquiv.refl Nat) φ) L s.codeg

theorem asFill_spec (hp : PermList.Acts p.entries σ) (hset : IsPosSet (init ++ [deg]))
    (hdep : deg ≤ p.entries.length) (hlt : ∀ j, j + 1 ∈ init ++ [deg] → σ j + 1 < 2 ^ T.bits)
    (codeg : Nat)
    : ∃ s, asFill T p.entries (init ++ [deg]) deg codeg = .ok s
        ∧ IsAsState (restrict σ.toPEquiv (init ++ [deg])) deg codeg (domPoints (init ++ [deg]))
          s := by
  unfold asFill
  apply setLoop_spec hset (Nat.le_refl _)
    (IsAsState (restrict σ.toPEquiv (init ++ [deg])) deg codeg)
  . refine ⟨hasEntries_replicate _ _ _, fun h0 => ?_⟩
    rw [h0]
    exact isBoundOn_nil _
  . intro L j s hj hs
    rw [take_length] at hj
    have hle := hset.le_last hj
    have hread := readEntry_acts hp (show j < p.entries.length by omega)
    have hval : restrict σ.toPEquiv (init ++ [deg]) j = some (σ j) :=
      restrict_perm_eq_some_iff.mpr ⟨hj, rfl⟩
    obtain ⟨pt', hwrite, hpt', hget⟩ := hs.entries.write (T := T) (k := j) rfl (by omega)
      (by rw [hval]; exact hlt j hj)
    rw [hval] at hwrite hget
    rw [hread, ok_bind]
    unfold store
    rw [show σ j + 1 = entryOf (some (σ j)) from rfl, hwrite, ok_bind, hget, ok_bind]
    refine ⟨_, rfl, hpt', fun h0 => ?_⟩
    have hmax := (hs.codeg h0).snoc_max (j := j) (v := σ j) hval
    exact hmax
  . intro s hs
    rw [take_length] at hs
    exact hs

theorem findCodeg_spec {set : List Nat} (hp : PermList.Acts p.entries σ) (hset : IsPosSet set)
    (hdep : ∀ x ∈ set, x ≤ p.entries.length) {n : Nat} (hn : n ≤ set.length) (codeg : Nat)
    : ∃ c, findCodeg p.entries set n codeg = .ok c ∧ codeg ≤ c
        ∧ (c < 65536 → ∀ j, j + 1 ∈ set.take n → σ j < c)
        ∧ (c = codeg ∨ ∃ j, j + 1 ∈ set.take n ∧ c = σ j + 1) := by
  induction n generalizing codeg with
  | zero =>
    refine ⟨codeg, rfl, Nat.le_refl _, fun _ j hj => ?_, .inl rfl⟩
    rw [take_zero] at hj
    contradiction
  | succ n ih =>
    obtain ⟨j, hj⟩ := hset.exists_point (show n < set.length by omega)
    have hle := hdep _ (getElem_mem (show n < set.length by omega))
    have hread := readEntry_acts hp (show j < p.entries.length by omega)
    have hmem {i : Nat} : i + 1 ∈ set.take (n + 1) ↔ i + 1 ∈ set.take n ∨ i = j := by
      rw [take_add_one, getElem?_eq_getElem (show n < set.length by omega), hj,
        mem_append]
      simp
    unfold findCodeg
    split
    . next hlt =>
      rw [elmList_of_lt (show n < set.length by omega), ok_bind, hj, index_succ, ok_bind, hread,
        ok_bind]
      obtain ⟨c, hrun, hcle, hbound, heq⟩ :=
        ih (by omega) (if σ j + 1 > codeg then σ j + 1 else codeg)
      have hmax : codeg ≤ c ∧ σ j < c := by
        split at hcle <;> omega
      refine ⟨c, hrun, hmax.1, fun hc i hi => ?_, ?_⟩
      . rcases hmem.mp hi with hi | rfl
        . exact hbound hc i hi
        . exact hmax.2
      . rcases heq with heq | ⟨i, hi, heq⟩
        . split at heq
          . exact .inr ⟨j, hmem.mpr (.inr rfl), heq⟩
          . exact .inl heq
        . exact .inr ⟨i, hmem.mpr (.inl hi), heq⟩
    . next hge =>
      exact ⟨codeg, rfl, Nat.le_refl _, fun hc => absurd hc hge, .inl rfl⟩

end Conversion
