import Mathlib.Data.List.Iterate
import Mathlib.Dynamics.PeriodicPts.Lemmas

/-!
This module contains the index and the period of the powers of an element, and the graph of a
function with its components, its cycles, and the walks that find them.
-/

open List

structure HasIndexPeriod {X : Type*} (p : Nat → X) (m r : Nat) : Prop where
  index_pos : 0 < m
  period_pos : 0 < r
  eq_iff : ∀ i d, 0 < i → 0 < d → (p i = p (i + d) ↔ m ≤ i ∧ r ∣ d)

namespace HasIndexPeriod

variable {X : Type*} {p : Nat → X} {m r : Nat}

variable (h : HasIndexPeriod p m r)

include h

theorem isLeast_index
    : IsLeast {i | 0 < i ∧ ∃ d, 0 < d ∧ p i = p (i + d)} m := by
  constructor
  . refine ⟨h.index_pos, r, h.period_pos, ?_⟩
    exact (h.eq_iff m r h.index_pos h.period_pos).mpr ⟨Nat.le_refl m, Nat.dvd_refl r⟩
  . intro i ⟨hi, d, hd, heq⟩
    exact ((h.eq_iff i d hi hd).mp heq).1

theorem isLeast_period : IsLeast {d | 0 < d ∧ p m = p (m + d)} r := by
  constructor
  . refine ⟨h.period_pos, ?_⟩
    exact (h.eq_iff m r h.index_pos h.period_pos).mpr ⟨Nat.le_refl m, Nat.dvd_refl r⟩
  . intro d ⟨hd, heq⟩
    exact Nat.le_of_dvd hd ((h.eq_iff m d h.index_pos hd).mp heq).2

theorem isLeast_idem {k : Nat} (hk : 0 < k) (hdvd : r ∣ k) (hle : m ≤ k) (hlt : k < m + r)
    : IsLeast {k | 0 < k ∧ p k = p (k + k)} k := by
  constructor
  . exact ⟨hk, (h.eq_iff k k hk hk).mpr ⟨hle, hdvd⟩⟩
  . intro i ⟨hi, heq⟩
    have hidem := (h.eq_iff i i hi hi).mp heq
    apply Nat.le_of_not_lt
    intro hnot
    have hdiff : r ∣ k - i := Nat.dvd_sub hdvd hidem.2
    have := Nat.le_of_dvd (by omega) hdiff
    omega

end HasIndexPeriod

open Function

namespace FunctionalGraph

variable {α : Type*} {φ : α → α}

def Reaches (φ : α → α) (x y : α) : Prop :=
  ∃ k, φ^[k] x = y

def Connected (φ : α → α) (x y : α) : Prop :=
  ∃ i j, φ^[i] x = φ^[j] y

def IsCycle (φ : α → α) (c : List α) : Prop :=
  ∃ x n, 0 < n ∧ c = List.iterate φ x n ∧ φ^[n] x = x ∧ c.Nodup

structure IsPartition (φ : α → α) (p : α → Prop) (comps : List (List α)) : Prop where
  nodup : comps.flatten.Nodup
  mem : ∀ x, x ∈ comps.flatten ↔ p x
  ne_nil : ∀ c ∈ comps, c ≠ []
  connected : ∀ c ∈ comps, ∀ x ∈ c, ∀ y, p y → (y ∈ c ↔ Connected φ x y)

def Apart (φ : α → α) (c d : List α) : Prop :=
  ∀ x ∈ c, ∀ y ∈ d, ¬Connected φ x y

structure IsCycles (φ : α → α) (p : α → Prop) (cycles : List (List α)) : Prop where
  cycle : ∀ c ∈ cycles, IsCycle φ c
  apart : cycles.Pairwise (Apart φ)
  meets : ∀ c ∈ cycles, ∃ x, p x ∧ ∃ y ∈ c, Connected φ x y
  each : ∀ x, p x → ∃ c ∈ cycles, ∃ y ∈ c, Connected φ x y

def IsSource (φ : α → α) (x : α) : Prop :=
  ∀ y, φ y ≠ x

structure IsReps (φ : α → α) (p : α → Prop) (reps : List (List α)) : Prop where
  ne_nil : ∀ c ∈ reps, c ≠ []
  connected : ∀ c ∈ reps, ∀ x ∈ c, ∀ y ∈ c, Connected φ x y
  apart : reps.Pairwise (Apart φ)
  mem : ∀ c ∈ reps, ∀ x ∈ c, p x
  reach : ∀ x, p x → ∃ r ∈ reps.flatten, Reaches φ r x
  least : ∀ l : List α, (∀ x, p x → ∃ r ∈ l, Reaches φ r x) → reps.flatten.length ≤ l.length

section Connected

variable {x y z : α}

theorem Reaches.connected (h : Reaches φ x y) : Connected φ x y := by
  obtain ⟨k, hk⟩ := h
  exact ⟨k, 0, hk⟩

theorem Connected.refl (x : α) : Connected φ x x :=
  ⟨0, 0, rfl⟩

theorem Connected.symm (h : Connected φ x y) : Connected φ y x := by
  obtain ⟨i, j, hij⟩ := h
  exact ⟨j, i, hij.symm⟩

theorem Connected.trans (h : Connected φ x y) (h' : Connected φ y z) : Connected φ x z := by
  obtain ⟨i, j, hij⟩ := h
  obtain ⟨k, l, hkl⟩ := h'
  refine ⟨k + i, j + l, ?_⟩
  rw [iterate_add_apply, hij, ← iterate_add_apply, Nat.add_comm, iterate_add_apply, hkl,
    ← iterate_add_apply]

theorem connected_iterate (x : α) (k : Nat) : Connected φ x (φ^[k] x) :=
  ⟨k, 0, rfl⟩

theorem connected_of_mem_iterate {k : Nat} (hy : y ∈ List.iterate φ x k) : Connected φ x y := by
  obtain ⟨t, _, rfl⟩ := List.mem_iterate.mp hy
  exact connected_iterate x t

theorem iterate_mem {p : α → Prop} (hp : ∀ x, p x → p (φ x)) (hx : p x) (k : Nat)
    : p (φ^[k] x) := by
  induction k with
  | zero => exact hx
  | succ k ih =>
    rw [iterate_succ_apply']
    exact hp _ ih

theorem IsSource.eq_of_reaches (h : IsSource φ y) (hxy : Reaches φ x y) : x = y := by
  obtain ⟨k, hk⟩ := hxy
  cases k with
  | zero => exact hk
  | succ k =>
    rw [iterate_succ_apply'] at hk
    exact absurd hk (h _)

theorem length_le_of_reaches [Nonempty α] {l l' : List α} (hnodup : l.Nodup)
    (hsource : ∀ r ∈ l, ∀ r' ∈ l, Connected φ r r' → r ≠ r' → IsSource φ r ∧ IsSource φ r')
    (hreach : ∀ r ∈ l, ∃ a ∈ l', Reaches φ a r) : l.length ≤ l'.length := by
  choose! g hg using hreach
  have hinj : ∀ r ∈ l, ∀ r' ∈ l, g r = g r' → r = r' := by
    intro r hr r' hr' heq
    by_contra hne
    have hr₁ := (hg r hr).2
    have hr₂ := (hg r' hr').2
    rw [← heq] at hr₂
    obtain ⟨hs, hs'⟩ := hsource r hr r' hr' (hr₁.connected.symm.trans hr₂.connected) hne
    exact hne ((hs.eq_of_reaches hr₁).symm.trans (hs'.eq_of_reaches hr₂))
  have hsub : l.map g ⊆ l' := by
    intro a ha
    obtain ⟨r, hr, rfl⟩ := List.mem_map.mp ha
    exact (hg r hr).1
  have hle := ((List.Nodup.map_on hinj hnodup).subperm hsub).length_le
  rwa [length_map] at hle

theorem mem_periodicPts_of_preimage {s : Finset α} (h : ∀ x ∈ s, ∃ y ∈ s, φ y = x) {x : α}
    (hx : x ∈ s) : x ∈ periodicPts φ := by
  have hback : ∀ x : s, ∃ y : s, φ y = x := by
    intro x
    obtain ⟨y, hy, hyx⟩ := h x x.2
    exact ⟨⟨y, hy⟩, hyx⟩
  choose g hg using hback
  have hinj : Injective g := by
    intro x y hxy
    apply Subtype.ext
    rw [← hg x, hxy, hg y]
  obtain ⟨n, hn, hper⟩ := mem_periodicPts.mp (hinj.mem_periodicPts ⟨x, hx⟩)
  apply mk_mem_periodicPts hn
  have hiter : ∀ (k : Nat) (y : s), φ^[k] (g^[k] y : s) = y := by
    intro k
    induction k with
    | zero => exact fun _ => rfl
    | succ k ih =>
      intro y
      rw [iterate_succ_apply' g, iterate_succ_apply φ, hg]
      exact ih y
  have hxn := hiter n ⟨x, hx⟩
  rw [hper] at hxn
  exact hxn

end Connected

section Walk

structure IsFirstWalk (φ : α → α) (old : α → Prop) (x : α) (k : Nat) : Prop where
  pos : 0 < k
  nodup : (List.iterate φ x k).Nodup
  new : ∀ y ∈ List.iterate φ x k, ¬old y
  stop : old (φ^[k] x) ∨ φ^[k] x ∈ List.iterate φ x k

theorem iterate_succ_eq_append (φ : α → α) (x : α) (k : Nat)
    : List.iterate φ x (k + 1) = List.iterate φ x k ++ [φ^[k] x] :=
  List.iterate_add φ x k 1

variable {s : Finset α}

theorem nodup_length_le_card {l : List α} (hnodup : l.Nodup) (hmem : ∀ x ∈ l, x ∈ s)
    : l.length ≤ s.card :=
  @Finset.card_le_card _ ⟨(l : Multiset α), hnodup⟩ s hmem

theorem exists_firstWalk {old : α → Prop} (hs : ∀ y ∈ s, φ y ∈ s) {x : α} (hx : x ∈ s)
    (hold : ¬old x) : ∃ k, IsFirstWalk φ old x k := by
  suffices h : ∀ n k, s.card < k + n → 0 < k → (List.iterate φ x k).Nodup
      → (∀ y ∈ List.iterate φ x k, ¬old y) → ∃ k, IsFirstWalk φ old x k by
    apply h s.card 1 (by omega) Nat.one_pos (nodup_singleton x)
    intro y hy
    rw [List.mem_singleton.mp hy]
    exact hold
  have hmem : ∀ k, ∀ y ∈ List.iterate φ x k, y ∈ s := by
    intro k y hy
    obtain ⟨t, _, rfl⟩ := List.mem_iterate.mp hy
    exact iterate_mem hs hx t
  intro n
  induction n with
  | zero =>
    intro k hcard _ hnodup _
    have hle := nodup_length_le_card hnodup (hmem k)
    rw [length_iterate] at hle
    omega
  | succ n ih =>
    intro k hcard hk hnodup hnew
    by_cases hstop : old (φ^[k] x) ∨ φ^[k] x ∈ List.iterate φ x k
    . exact ⟨k, hk, hnodup, hnew, hstop⟩
    . rw [not_or] at hstop
      apply ih (k + 1) (by omega) (Nat.succ_pos k)
      . rw [iterate_succ_eq_append, ← concat_eq_append]
        exact hnodup.concat hstop.2
      . intro y hy
        rw [iterate_succ_eq_append] at hy
        cases List.mem_append.mp hy with
        | inl hy => exact hnew y hy
        | inr hy =>
          rw [List.mem_singleton.mp hy]
          exact hstop.1

variable {old : α → Prop} {x : α} {k : Nat}

theorem IsFirstWalk.length_le (h : IsFirstWalk φ old x k) (hs : ∀ y ∈ s, φ y ∈ s) (hx : x ∈ s)
    : k ≤ s.card := by
  have hle := nodup_length_le_card h.nodup fun y hy => by
    obtain ⟨t, _, rfl⟩ := List.mem_iterate.mp hy
    exact iterate_mem hs hx t
  rwa [length_iterate] at hle

theorem iterate_closed (hstop : φ^[k] x ∈ List.iterate φ x k) {y : α}
    (hy : y ∈ List.iterate φ x k) : φ y ∈ List.iterate φ x k := by
  obtain ⟨t, ht, rfl⟩ := List.mem_iterate.mp hy
  rw [← iterate_succ_apply' φ t x]
  by_cases hlt : t + 1 < k
  . exact List.mem_iterate.mpr ⟨t + 1, hlt, rfl⟩
  . rw [show t.succ = k by omega]
    exact hstop

theorem iterate_injOn (hnodup : (List.iterate φ x k).Nodup) {s t : Nat} (hs : s < k) (ht : t < k)
    (heq : φ^[s] x = φ^[t] x) : s = t := by
  have hs' : s < (List.iterate φ x k).length := by rwa [length_iterate]
  have ht' : t < (List.iterate φ x k).length := by rwa [length_iterate]
  rw [← getElem_iterate φ x k s hs', ← getElem_iterate φ x k t ht'] at heq
  exact (hnodup.getElem_inj_iff).mp heq

end Walk

section Depth

variable {old : α → Prop} {x y : α} {d k : Nat}

def IsDepth (φ : α → α) (x : α) (d : Nat) : Prop :=
  IsLeast {k | φ^[k] x ∈ periodicPts φ} d

theorem iterate_mem_periodicPts (hx : x ∈ periodicPts φ) (k : Nat) : φ^[k] x ∈ periodicPts φ := by
  obtain ⟨n, hn, hper⟩ := mem_periodicPts.mp hx
  exact mk_mem_periodicPts hn (hper.apply_iterate k)

theorem IsDepth.le_iff (h : IsDepth φ x d) (i : Nat) : d ≤ i ↔ φ^[i] x ∈ periodicPts φ := by
  constructor
  . intro hle
    rw [show i = (i - d) + d by omega, iterate_add_apply]
    exact iterate_mem_periodicPts h.1 _
  . exact fun hi => h.2 hi

theorem isDepth_zero (hx : x ∈ periodicPts φ) : IsDepth φ x 0 :=
  ⟨hx, fun _ _ => Nat.zero_le _⟩

theorem IsDepth.nodup (h : IsDepth φ x d) : (List.iterate φ x (d + 1)).Nodup := by
  have hlt : ∀ s t, s < t → t < d + 1 → φ^[s] x ≠ φ^[t] x := by
    intro s t hst ht heq
    have hper : φ^[s] x ∈ periodicPts φ := by
      apply mk_mem_periodicPts (show 0 < t - s by omega)
      change φ^[t - s] (φ^[s] x) = φ^[s] x
      rw [← iterate_add_apply, Nat.sub_add_cancel (Nat.le_of_lt hst), heq]
    have := h.2 hper
    omega
  rw [List.Nodup, pairwise_iff_getElem]
  intro s t hs ht hst
  rw [length_iterate] at ht
  rw [getElem_iterate, getElem_iterate]
  exact hlt s t hst ht

theorem IsDepth.succ (h : IsDepth φ (φ x) d) (hx : x ∉ periodicPts φ) : IsDepth φ x (d + 1) := by
  constructor
  . exact h.1
  . intro k hk
    cases k with
    | zero => exact absurd hk hx
    | succ k => exact Nat.succ_le_succ (h.2 hk)

variable {t : Nat}

theorem IsDepth.before (h : IsDepth φ (φ^[k] x) d) (hx : ∀ t, t < k → φ^[t] x ∉ periodicPts φ)
    (ht : t ≤ k) : IsDepth φ (φ^[t] x) (d + (k - t)) := by
  obtain ⟨s, rfl⟩ := Nat.exists_eq_add_of_le ht
  rw [Nat.add_sub_cancel_left]
  induction s generalizing d with
  | zero => exact h
  | succ s ih =>
    have hprev : IsDepth φ (φ^[t + s] x) (d + 1) := by
      apply IsDepth.succ
      . rwa [← iterate_succ_apply' φ (t + s) x]
      . exact hx _ (by omega)
    have hd : d + (s + 1) = (d + 1) + s := by omega
    rw [hd]
    exact ih hprev (fun t' ht' => hx t' (by omega)) (by omega)

theorem not_periodic_of_old (hold : ∀ y, old y → old (φ y)) (hnew : ∀ t, t < k → ¬old (φ^[t] x))
    (hstop : old (φ^[k] x)) (ht : t < k) : φ^[t] x ∉ periodicPts φ := by
  intro hper
  obtain ⟨n, hn, hper⟩ := mem_periodicPts.mp hper
  -- After enough periods the walk is behind its end.
  have hback : φ^[n * k] (φ^[t] x) = φ^[t] x := hper.mul_const k
  apply hnew t ht
  rw [← hback, ← iterate_add_apply]
  have hle : k ≤ n * k + t := by
    have := Nat.le_mul_of_pos_left k hn
    omega
  obtain ⟨s, hs⟩ := Nat.exists_eq_add_of_le hle
  rw [hs, Nat.add_comm, iterate_add_apply]
  exact iterate_mem hold hstop s

theorem IsFirstWalk.not_periodic (h : IsFirstWalk φ old x k) (hold : ∀ y, old y → old (φ y))
    (hstop : old (φ^[k] x)) (ht : t < k) : φ^[t] x ∉ periodicPts φ :=
  not_periodic_of_old hold (fun t ht => h.new _ (List.mem_iterate.mpr ⟨t, ht, rfl⟩)) hstop ht

structure IsRho (φ : α → α) (x : α) (k j : Nat) : Prop where
  lt : j < k
  back : φ^[k] x = φ^[j] x
  nodup : (List.iterate φ x k).Nodup

section Rho

variable {j : Nat} (h : IsRho φ x k j)

theorem IsFirstWalk.exists_rho (h : IsFirstWalk φ old x k) (hmem : φ^[k] x ∈ List.iterate φ x k)
    : ∃ j, IsRho φ x k j := by
  obtain ⟨j, hj, hback⟩ := List.mem_iterate.mp hmem
  exact ⟨j, hj, hback, h.nodup⟩

include h

theorem IsRho.split
    : List.iterate φ x k = List.iterate φ x j ++ List.iterate φ (φ^[j] x) (k - j) := by
  rw [← List.iterate_add, Nat.add_sub_cancel' (Nat.le_of_lt h.lt)]

theorem IsRho.mem_iff {y : α} : y ∈ List.iterate φ x k
    ↔ y ∈ List.iterate φ x j ∨ y ∈ List.iterate φ (φ^[j] x) (k - j) := by
  rw [h.split, mem_append]

theorem IsRho.tail_nodup : (List.iterate φ x j).Nodup := by
  have hnodup := h.nodup
  rw [h.split] at hnodup
  exact (List.nodup_append.mp hnodup).1

theorem IsRho.cycle_nodup : (List.iterate φ (φ^[j] x) (k - j)).Nodup := by
  have hnodup := h.nodup
  rw [h.split] at hnodup
  exact (List.nodup_append.mp hnodup).2.1

theorem IsRho.not_mem_cycle {y : α} (hy : y ∈ List.iterate φ x j)
    : y ∉ List.iterate φ (φ^[j] x) (k - j) := by
  have hnodup := h.nodup
  rw [h.split] at hnodup
  exact fun hy' => (List.nodup_append.mp hnodup).2.2 y hy y hy' rfl

theorem IsRho.mem_cycle : φ^[j] x ∈ List.iterate φ (φ^[j] x) (k - j) :=
  List.mem_iterate.mpr ⟨0, Nat.sub_pos_of_lt h.lt, rfl⟩

theorem IsRho.isPeriodicPt : IsPeriodicPt φ (k - j) (φ^[j] x) := by
  change φ^[k - j] (φ^[j] x) = φ^[j] x
  rw [← iterate_add_apply, Nat.sub_add_cancel (Nat.le_of_lt h.lt), h.back]

theorem IsRho.isCycle : IsCycle φ (List.iterate φ (φ^[j] x) (k - j)) :=
  ⟨φ^[j] x, k - j, Nat.sub_pos_of_lt h.lt, rfl, h.isPeriodicPt, h.cycle_nodup⟩

theorem IsRho.not_periodic {t : Nat} (ht : t < j) : φ^[t] x ∉ periodicPts φ := by
  intro hper
  obtain ⟨n, hn, hper⟩ := mem_periodicPts.mp hper
  have hback : φ^[n * j] (φ^[t] x) = φ^[t] x := hper.mul_const j
  rw [← iterate_add_apply] at hback
  have hle : j ≤ n * j + t := by
    have := Nat.le_mul_of_pos_left j hn
    omega
  obtain ⟨s, hs⟩ := Nat.exists_eq_add_of_le hle
  rw [hs, Nat.add_comm, iterate_add_apply, ← h.isPeriodicPt.iterate_mod_apply,
    ← iterate_add_apply] at hback
  have hlt := h.lt
  have hmod := Nat.mod_lt s (show 0 < k - j by omega)
  have := iterate_injOn h.nodup (by omega) (by omega) hback
  omega

theorem IsRho.minimalPeriod_eq : minimalPeriod φ (φ^[j] x) = k - j := by
  have hpos := Nat.sub_pos_of_lt h.lt
  apply Nat.le_antisymm (h.isPeriodicPt.minimalPeriod_le hpos)
  apply Nat.le_of_not_lt
  intro hlt
  have hmin : φ^[minimalPeriod φ (φ^[j] x)] (φ^[j] x) = φ^[j] x := iterate_minimalPeriod
  rw [← iterate_add_apply] at hmin
  have hmpos := h.isPeriodicPt.minimalPeriod_pos hpos
  have := iterate_injOn h.nodup (by omega) h.lt hmin
  omega

end Rho

end Depth

section Power

theorem hasIndexPeriod_of_iff {m r : Nat} (hm : 0 < m) (hr : 0 < r)
    (hindex : ∀ i, 0 < i → (m ≤ i ↔ ∀ x, φ^[i] x ∈ periodicPts φ))
    (hperiod : ∀ d, r ∣ d ↔ ∀ x, x ∈ periodicPts φ → IsPeriodicPt φ d x)
    : HasIndexPeriod (fun i => φ^[i]) m r where
  index_pos := hm
  period_pos := hr
  eq_iff := by
    intro i d hi hd
    rw [hindex i hi, hperiod d]
    constructor
    . intro heq
      have hper : ∀ x, IsPeriodicPt φ d (φ^[i] x) := by
        intro x
        change φ^[d] (φ^[i] x) = φ^[i] x
        rw [← iterate_add_apply, Nat.add_comm, ← heq]
      refine ⟨fun x => mk_mem_periodicPts hd (hper x), ?_⟩
      intro x hx
      -- A periodic point is an image under the power.
      obtain ⟨n, hn, hx⟩ := mem_periodicPts.mp hx
      have hback : φ^[n * i] x = x := hx.mul_const i
      have hle := Nat.le_mul_of_pos_left i hn
      rw [show n * i = i + (n * i - i) by omega, iterate_add_apply] at hback
      rw [← hback]
      exact hper _
    . intro ⟨hmem, hper⟩
      funext x
      rw [Nat.add_comm, iterate_add_apply]
      exact (hper _ (hmem x)).symm

end Power

section Labelling

structure IsLabelling (φ : α → α) (nr : Nat) (label : α → Nat) : Prop where
  next : ∀ x, label x ≠ 0 → label (φ x) = label x
  connected : ∀ x y, label x ≠ 0 → label y ≠ 0 → (label x = label y ↔ Connected φ x y)
  le : ∀ x, label x ≤ nr
  surj : ∀ j, 0 < j → j ≤ nr → ∃ x, label x = j

theorem isLabelling_zero (φ : α → α) : IsLabelling φ 0 (fun _ => 0) where
  next := fun _ hx => absurd rfl hx
  connected := fun _ _ hx => absurd rfl hx
  le := fun _ => Nat.le_refl 0
  surj := fun _ hpos hle => absurd hpos (Nat.not_lt.mpr hle)

variable {nr nr' : Nat} {label label' : α → Nat} {x y : α} {k : Nat}

section

variable (h : IsLabelling φ nr label)

include h

theorem IsLabelling.iterate (hx : label x ≠ 0) (k : Nat)
    : label (φ^[k] x) = label x := by
  induction k with
  | zero => rfl
  | succ k ih =>
    rw [iterate_succ_apply', h.next _ (by rwa [ih]), ih]

theorem IsLabelling.old_next (x : α) (hx : label x ≠ 0)
    : label (φ x) ≠ 0 := by
  rwa [h.next x hx]

theorem IsLabelling.not_connected (hw : IsFirstWalk φ (label · ≠ 0) x k)
    (hstop : φ^[k] x ∈ List.iterate φ x k) {z : α} (hy : y ∈ List.iterate φ x k) (hz : label z ≠ 0)
    : ¬Connected φ y z := by
  intro ⟨i, j, hij⟩
  have hmem : φ^[i] y ∈ List.iterate φ x k :=
    iterate_mem (p := (· ∈ List.iterate φ x k)) (fun _ => iterate_closed hstop) hy i
  apply hw.new _ hmem
  rw [hij, h.iterate hz]
  exact hz

theorem IsLabelling.number_le (h' : IsLabelling φ nr' label')
    (hsame : ∀ x, label x ≠ 0 → label' x ≠ 0) : nr ≤ nr' := by
  have hpick : ∀ j : Fin nr, ∃ x, label x = j + 1 := fun j =>
    h.surj (j + 1) (Nat.succ_pos j) j.isLt
  choose pick hpick using hpick
  have hne : ∀ j, label (pick j) ≠ 0 := by
    intro j
    rw [hpick]
    exact Nat.succ_ne_zero j
  have hlt : ∀ j, label' (pick j) - 1 < nr' := by
    intro j
    have h0 := hsame _ (hne j)
    have hle := h'.le (pick j)
    omega
  have hinj : Injective fun j => (⟨label' (pick j) - 1, hlt j⟩ : Fin nr') := by
    intro i j hij
    have hij : label' (pick i) - 1 = label' (pick j) - 1 := Fin.mk.inj hij
    have hi := hsame _ (hne i)
    have hj := hsame _ (hne j)
    have hc := (h'.connected _ _ hi hj).mp (by omega)
    have heq := (h.connected _ _ (hne i) (hne j)).mpr hc
    rw [hpick, hpick] at heq
    exact Fin.ext (Nat.succ.inj heq)
  have hcard := Fintype.card_le_of_injective _ hinj
  rwa [Fintype.card_fin, Fintype.card_fin] at hcard

end

variable [DecidableEq α]

def paint (label : α → Nat) (l : List α) (v : Nat) (x : α) : Nat :=
  if x ∈ l then v else label x

variable {l : List α}

theorem paint_of_mem (hx : x ∈ l) (v : Nat) : paint label l v x = v :=
  if_pos hx

theorem paint_of_not_mem (hx : x ∉ l) (v : Nat) : paint label l v x = label x :=
  if_neg hx

theorem paint_ne_zero_iff {v : Nat} (hv : v ≠ 0)
    : paint label l v x ≠ 0 ↔ x ∈ l ∨ label x ≠ 0 := by
  unfold paint
  split
  . next hx => exact iff_of_true hv (.inl hx)
  . next hx => exact (or_iff_right hx).symm

variable (h : IsLabelling φ nr label) (hw : IsFirstWalk φ (label · ≠ 0) x k)

include h hw

theorem IsLabelling.paint_old (hstop : label (φ^[k] x) ≠ 0)
    : IsLabelling φ nr (paint label (List.iterate φ x k) (label (φ^[k] x))) where
  next := by
    intro y hy
    rw [paint_ne_zero_iff hstop] at hy
    by_cases hmem : y ∈ List.iterate φ x k
    . rw [paint_of_mem hmem]
      by_cases hnext : φ y ∈ List.iterate φ x k
      . rw [paint_of_mem hnext]
      . rw [paint_of_not_mem hnext]
        obtain ⟨t, ht, rfl⟩ := List.mem_iterate.mp hmem
        rw [← iterate_succ_apply' φ t x] at hnext ⊢
        have hend : t.succ = k := by
          apply Nat.le_antisymm ht
          apply Nat.le_of_not_lt
          exact fun hlt => hnext (List.mem_iterate.mpr ⟨t.succ, hlt, rfl⟩)
        rw [hend]
    . have hold := hy.resolve_left hmem
      have hnext : φ y ∉ List.iterate φ x k := fun hmem =>
        hw.new _ hmem (h.old_next y hold)
      rw [paint_of_not_mem hmem, paint_of_not_mem hnext, h.next y hold]
  connected := by
    have hend : ∀ y ∈ List.iterate φ x k, Connected φ y (φ^[k] x) := fun y hy =>
      (connected_of_mem_iterate hy).symm.trans (connected_iterate x k)
    intro y z hy hz
    rw [paint_ne_zero_iff hstop] at hy hz
    by_cases hmem : y ∈ List.iterate φ x k
    . rw [paint_of_mem hmem]
      by_cases hmem' : z ∈ List.iterate φ x k
      . rw [paint_of_mem hmem']
        exact iff_of_true rfl ((hend y hmem).trans (hend z hmem').symm)
      . rw [paint_of_not_mem hmem', h.connected _ z hstop (hz.resolve_left hmem')]
        exact ⟨(hend y hmem).trans, (hend y hmem).symm.trans⟩
    . rw [paint_of_not_mem hmem]
      by_cases hmem' : z ∈ List.iterate φ x k
      . rw [paint_of_mem hmem', h.connected y _ (hy.resolve_left hmem) hstop]
        exact ⟨fun hc => hc.trans (hend z hmem').symm, fun hc => hc.trans (hend z hmem')⟩
      . rw [paint_of_not_mem hmem']
        exact h.connected y z (hy.resolve_left hmem) (hz.resolve_left hmem')
  le := by
    intro y
    unfold paint
    split
    . exact h.le _
    . exact h.le y
  surj := by
    intro j hpos hle
    obtain ⟨y, hy⟩ := h.surj j hpos hle
    refine ⟨y, ?_⟩
    rw [paint_of_not_mem, hy]
    exact fun hmem => hw.new y hmem (by omega)

theorem IsLabelling.paint_new (hstop : φ^[k] x ∈ List.iterate φ x k)
    : IsLabelling φ (nr + 1) (paint label (List.iterate φ x k) (nr + 1)) where
  next := by
    intro y hy
    rw [paint_ne_zero_iff (Nat.succ_ne_zero nr)] at hy
    by_cases hmem : y ∈ List.iterate φ x k
    . rw [paint_of_mem hmem, paint_of_mem (iterate_closed hstop hmem)]
    . have hold := hy.resolve_left hmem
      have hnext : φ y ∉ List.iterate φ x k := fun hmem =>
        hw.new _ hmem (h.old_next y hold)
      rw [paint_of_not_mem hmem, paint_of_not_mem hnext, h.next y hold]
  connected := by
    intro y z hy hz
    rw [paint_ne_zero_iff (Nat.succ_ne_zero nr)] at hy hz
    have hley := h.le y
    have hlez := h.le z
    by_cases hmem : y ∈ List.iterate φ x k
    . rw [paint_of_mem hmem]
      by_cases hmem' : z ∈ List.iterate φ x k
      . rw [paint_of_mem hmem']
        exact iff_of_true rfl
          ((connected_of_mem_iterate hmem).symm.trans (connected_of_mem_iterate hmem'))
      . rw [paint_of_not_mem hmem']
        exact iff_of_false (by omega) (h.not_connected hw hstop hmem (hz.resolve_left hmem'))
    . rw [paint_of_not_mem hmem]
      by_cases hmem' : z ∈ List.iterate φ x k
      . rw [paint_of_mem hmem']
        refine iff_of_false (by omega) fun hc => ?_
        exact h.not_connected hw hstop hmem' (hy.resolve_left hmem) hc.symm
      . rw [paint_of_not_mem hmem']
        exact h.connected y z (hy.resolve_left hmem) (hz.resolve_left hmem')
  le := by
    intro y
    have hle := h.le y
    unfold paint
    split
    . exact Nat.le_refl _
    . omega
  surj := by
    intro j hpos hle
    by_cases hj : j = nr + 1
    . have hx : x ∈ List.iterate φ x k := List.mem_iterate.mpr ⟨0, hw.pos, rfl⟩
      refine ⟨x, ?_⟩
      rw [paint_of_mem hx, hj]
    . obtain ⟨y, hy⟩ := h.surj j hpos (by omega)
      refine ⟨y, ?_⟩
      rw [paint_of_not_mem, hy]
      exact fun hmem => hw.new y hmem (by omega)

end Labelling

end FunctionalGraph
