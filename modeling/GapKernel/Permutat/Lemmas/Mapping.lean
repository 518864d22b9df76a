import GapKernel.Permutat.Lemmas.Agest
import Mathlib.Data.Nat.Count

open PermList PermImpl List Nat

section Tables

variable {src dst : List Int} {size j : Nat} {tab : List Nat}

def Determines (src dst : List Int) (j : Nat) : Prop :=
  ∀ a b, 0 < a → a < j → 0 < b → b < j → entryPlist src a = entryPlist src b
    → entryPlist dst a = entryPlist dst b

theorem determines_succ_iff (hj : 0 < j)
    : Determines src dst (j + 1) ↔ Determines src dst j
        ∧ ∀ a, 0 < a → a < j → entryPlist src a = entryPlist src j
          → entryPlist dst a = entryPlist dst j := by
  constructor
  . intro h
    constructor
    . intro a b ha haj hb hbj
      exact h a b ha (by omega) hb (by omega)
    . intro a ha haj
      exact h a j ha (by omega) hj (by omega)
  . intro h a b ha haj hb hbj heq
    by_cases hajj : a = j
    . by_cases hbjj : b = j
      . rw [hajj, hbjj]
      . rw [hajj] at heq ⊢
        exact (h.2 b hb (by omega) heq.symm).symm
    . by_cases hbjj : b = j
      . rw [hbjj] at heq ⊢
        exact h.2 a ha (by omega) heq
      . exact h.1 a b ha (by omega) hb (by omega) heq

structure IsTable (src : List Int) (size j : Nat) (tab : List Nat) : Prop where
  length_eq : tab.length = size
  eq_zero_iff : ∀ v, 0 < v → v ≤ size
    → (entryPlist tab v = 0 ↔ ∀ i, 0 < i → i < j → entryPlist src i ≠ v)
  occurs : ∀ v, 0 < v → v ≤ size → entryPlist tab v ≠ 0
    → entryPlist tab v < j ∧ entryPlist src (entryPlist tab v) = v

theorem isTable_replicate (src : List Int) (size : Nat)
    : IsTable src size 1 (replicate size 0) := by
  have hzero : ∀ v, entryPlist (replicate size 0) v = 0 := by
    intro v
    have hnil : entryPlist (([] : List Nat) ++ replicate size 0) v = entryPlist [] v :=
      entryPlist_append_replicate
    rw [nil_append] at hnil
    rw [hnil]
    cases v with
    | zero => rfl
    | succ v => rfl
  constructor
  . rw [length_replicate]
  . intro v _ _
    simp only [hzero, true_iff]
    omega
  . intro v _ _ hne
    exact absurd (hzero v) hne

variable {pos : Nat}

theorem IsTable.set (h : IsTable src size j tab) (hj : 0 < j) (hpos : 0 < pos) (hle : pos ≤ size)
    (hval : entryPlist src j = pos)
    : IsTable src size (j + 1) (tab.set (pos - 1) j) := by
  have hlen := h.length_eq
  have hset : ∀ v, entryPlist (tab.set (pos - 1) j) v = if v = pos then j else entryPlist tab v :=
    fun v => entryPlist_set hpos (by omega)
  constructor
  . rw [length_set, hlen]
  . intro v hv hvs
    rw [hset]
    split
    . next heq =>
      constructor
      . omega
      . intro hall
        exact absurd (by rw [hval, heq]) (hall j hj (by omega))
    . next hne =>
      rw [h.eq_zero_iff v hv hvs]
      constructor
      . intro hall i hi hij
        by_cases hijj : i = j
        . rw [hijj, hval]
          omega
        . exact hall i hi (by omega)
      . intro hall i hi hij
        exact hall i hi (by omega)
  . intro v hv hvs hne
    rw [hset] at hne ⊢
    split
    . next heq => exact ⟨by omega, by rw [hval, heq]⟩
    . next hvp =>
      rw [if_neg hvp] at hne
      have := h.occurs v hv hvs hne
      exact ⟨by omega, this.2⟩

theorem IsTable.keep (h : IsTable src size j tab) (hpos : 0 < pos) (hle : pos ≤ size)
    (hval : entryPlist src j = pos) (hne : entryPlist tab pos ≠ 0)
    : IsTable src size (j + 1) tab := by
  constructor
  . exact h.length_eq
  . intro v hv hvs
    rw [h.eq_zero_iff v hv hvs]
    constructor
    . intro hall i hi hij
      by_cases hijj : i = j
      . rw [hijj, hval]
        intro heq
        have hvp : v = pos := by omega
        rw [hvp] at hall
        exact hne ((h.eq_zero_iff pos hpos hle).mpr hall)
      . exact hall i hi (by omega)
    . intro hall i hi hij
      exact hall i hi (by omega)
  . intro v hv hvs hne'
    have := h.occurs v hv hvs hne'
    exact ⟨by omega, this.2⟩

theorem elmPlist_eq {α : Type} [Zero α] {list : List α} (h1 : 0 < pos) (h2 : pos < list.length + 1)
    : elmPlist list pos = .ok (entryPlist list pos) :=
  elmPlist_eq_entryPlist h1 (by omega)

section

variable {last : Bool} {conv : Int → Int} (hlen : src.length = dst.length)
  (hsrc : ∀ x ∈ src, 0 < x ∧ x ≤ size ∧ conv x = x)

include hlen hsrc

theorem fillTable_round_spec {i : Nat} (hi : 0 < i) (hlt : i < 1 + src.length)
    (hdet : Determines src dst i) (h : IsTable src size i tab)
    : SucceedsIf (fillTable.round last conv src dst i tab) (Determines src dst (i + 1))
        (IsTable src size (i + 1)) := by
  have hlentab := h.length_eq
  have hmem : entryPlist src i ∈ src := by
    rw [← Nat.sub_add_cancel hi, entryPlist_eq_getElem (by omega)]
    apply getElem_mem
  have hx := hsrc _ hmem
  generalize hpos : (entryPlist src i).toNat = pos
  have hval : entryPlist src i = pos := by omega
  rw [determines_succ_iff hi]
  unfold fillTable.round
  rw [elmPlist_eq hi (by omega), ok_bind]
  dsimp only
  rw [hx.2.2, hpos, elmPlist_eq (by omega) (by omega), ok_bind,
    setElmPlist_eq (by omega) (by omega)]
  split
  . next hold =>
    have hocc := h.occurs pos (by omega) (by omega) hold
    have hocc0 : 0 < entryPlist tab pos := by omega
    rw [elmPlist_eq hocc0 (by omega), ok_bind, elmPlist_eq hi (by omega), ok_bind]
    split
    . next hne =>
      constructor
      . intro hc
        exact absurd (hc.2 _ hocc0 hocc.1 (by rw [hocc.2, hval])) hne
      . intro _
        rfl
    . next heq =>
      have hall : ∀ a, 0 < a → a < i → entryPlist src a = entryPlist src i
          → entryPlist dst a = entryPlist dst i := by
        intro a ha hai hav
        rw [not_not] at heq
        rw [← heq]
        apply hdet a _ ha hai hocc0 hocc.1
        rw [hav, hocc.2, hval]
      refine ⟨fun _ => ?_, fun hc => absurd ⟨hdet, hall⟩ hc⟩
      split
      . exact ⟨_, rfl, h.set hi (by omega) (by omega) hval⟩
      . exact ⟨_, rfl, h.keep (by omega) (by omega) hval hold⟩
  . next hnew =>
    rw [not_not, h.eq_zero_iff pos (by omega) (by omega)] at hnew
    have hall : ∀ a, 0 < a → a < i → entryPlist src a = entryPlist src i
        → entryPlist dst a = entryPlist dst i := by
      intro a ha hai hav
      exact absurd (hav.trans hval) (hnew a ha hai)
    refine ⟨fun _ => ?_, fun hc => absurd ⟨hdet, hall⟩ hc⟩
    exact ⟨_, rfl, h.set hi (by omega) (by omega) hval⟩

theorem fillTable_spec
    : SucceedsIf (fillTable last conv src dst size) (Determines src dst (1 + src.length))
        (IsTable src size (1 + src.length)) := by
  unfold fillTable
  apply failLoop_spec (Determines src dst) (IsTable src size)
  . intro j hdet a b ha haj hb hbj
    exact hdet a b ha (by omega) hb (by omega)
  . intro a b ha haj
    omega
  . apply isTable_replicate
  . intro i tab hi hlt hdet h
    exact fillTable_round_spec hlen hsrc hi (by omega) hdet h

end

theorem IsTable.ne_zero_iff (h : IsTable src size (1 + src.length) tab) {v : Nat} (hv : 0 < v)
    (hle : v ≤ size)
    : entryPlist tab v ≠ 0 ↔ (v : Int) ∈ src := by
  rw [Ne, h.eq_zero_iff v hv hle]
  constructor
  . intro hex
    by_contra hmem
    apply hex
    intro i hi hlt heq
    rw [← Nat.sub_add_cancel hi, entryPlist_eq_getElem (by omega)] at heq
    rw [← heq] at hmem
    exact hmem (getElem_mem _)
  . intro hmem hall
    rcases mem_iff_getElem.mp hmem with ⟨i, hlt, heq⟩
    apply hall (i + 1) (by omega) (by omega)
    rw [entryPlist_eq_getElem hlt, heq]

end Tables

section Counting

variable {a b src dst : List Int} {d v : Nat}

def OnlyIn (a b : List Int) (v : Nat) : Prop :=
  (v : Int) ∈ a ∧ (v : Int) ∉ b

instance (a b : List Int) : DecidablePred (OnlyIn a b) :=
  fun _ => inferInstanceAs (Decidable (_ ∧ _))

structure Matches (src dst : List Int) : Prop where
  length_eq : src.length = dst.length
  forward : Determines src dst (1 + src.length)
  backward : Determines dst src (1 + dst.length)

theorem Matches.symm (h : Matches src dst) : Matches dst src :=
  ⟨h.length_eq.symm, h.backward, h.forward⟩

theorem exists_entryPlist {x : Int} (hx : x ∈ src)
    : ∃ i, 0 < i ∧ i < 1 + src.length ∧ entryPlist src i = x := by
  rcases mem_iff_getElem.mp hx with ⟨i, hi⟩
  cases hi with
  | intro hlt heq => exact ⟨i + 1, by omega, by omega, by rw [entryPlist_eq_getElem hlt, heq]⟩

theorem entryPlist_mem {l : List Int} {i : Nat} (hi : 0 < i) (hlt : i < 1 + l.length)
    : entryPlist l i ∈ l := by
  rw [← Nat.sub_add_cancel hi, entryPlist_eq_getElem (by omega)]
  apply getElem_mem

def support (a : List Int) (d : Nat) : Finset Nat :=
  (Finset.range (d + 1)).filter (fun v => (v : Int) ∈ a)

theorem mem_support {a : List Int} {v : Nat} : v ∈ support a d ↔ v < d + 1 ∧ (v : Int) ∈ a := by
  unfold support
  rw [Finset.mem_filter, Finset.mem_range]

theorem card_support_le (h : Matches src dst) (hdst : ∀ x ∈ dst, 0 < x ∧ x ≤ d)
    : (support src d).card ≤ (support dst d).card := by
  have hex : ∀ v ∈ support src d, ∃ i, 0 < i ∧ i < 1 + src.length ∧ entryPlist src i = v := by
    intro v hv
    exact exists_entryPlist (mem_support.mp hv).2
  choose! pos hpos using hex
  have hlen := h.length_eq
  apply Finset.card_le_card_of_injOn (fun v => (entryPlist dst (pos v)).toNat)
  . intro v hv
    have hv' := hpos v hv
    have hmem := entryPlist_mem (l := dst) hv'.1 (by omega)
    have hrange := hdst _ hmem
    rw [Finset.mem_coe, mem_support]
    dsimp only
    refine ⟨by omega, ?_⟩
    rw [Int.toNat_of_nonneg (by omega)]
    exact hmem
  . intro v hv v' hv' heq
    have h₁ := hpos v hv
    have h₂ := hpos v' hv'
    have hr₁ := hdst _ (entryPlist_mem (l := dst) h₁.1 (by omega))
    have hr₂ := hdst _ (entryPlist_mem (l := dst) h₂.1 (by omega))
    dsimp only at heq
    have := h.backward _ _ h₁.1 (by omega) h₂.1 (by omega)
      (show entryPlist dst (pos v) = entryPlist dst (pos v') by omega)
    rw [h₁.2.2, h₂.2.2] at this
    omega

theorem count_onlyIn_eq (h : Matches src dst) (hsrc : ∀ x ∈ src, 0 < x ∧ x ≤ d)
    (hdst : ∀ x ∈ dst, 0 < x ∧ x ≤ d)
    : Nat.count (OnlyIn dst src) (d + 1) = Nat.count (OnlyIn src dst) (d + 1) := by
  have hcard : (support src d).card = (support dst d).card :=
    Nat.le_antisymm (card_support_le h hdst) (card_support_le h.symm hsrc)
  have hfilter : ∀ a b : List Int,
      (Finset.range (d + 1)).filter (OnlyIn a b) = support a d \ support b d := by
    intro a b
    ext v
    rw [Finset.mem_filter, Finset.mem_sdiff, Finset.mem_range, mem_support, mem_support]
    unfold OnlyIn
    tauto
  rw [count_eq_card_filter_range, count_eq_card_filter_range, hfilter, hfilter]
  apply Finset.card_sdiff_comm hcard.symm

end Counting

section Points

variable {src dst : List Int} {tabs tabd : List Nat} {size d : Nat}

structure IsMapped (src dst : List Int) (d i : Nat) (out : List Int) : Prop where
  length_eq : out.length = d
  src_eq : ∀ j, 0 < j → j < 1 + src.length → entryPlist src j < i
    → entryPlist out (entryPlist src j).toNat = entryPlist dst j
  dst_eq : ∀ v, v < i → OnlyIn dst src v → ∃ b, OnlyIn src dst b
    ∧ Nat.count (OnlyIn src dst) b = Nat.count (OnlyIn dst src) v ∧ entryPlist out v = b
  other_eq : ∀ v, 0 < v → v < i → (v : Int) ∉ src → (v : Int) ∉ dst → entryPlist out v = v

structure AreTables (src dst : List Int) (size : Nat) (tabs tabd : List Nat) : Prop where
  tabs_isTable : IsTable src size (1 + src.length) tabs
  tabd_isTable : IsTable dst size (1 + dst.length) tabd

theorem skipNext_spec (h : AreTables src dst size tabs tabd) {fuel next b : Nat} (hnext : 0 < next)
    (hle : next ≤ b) (hb : OnlyIn src dst b) (hsize : b ≤ size) (hfuel : b < next + fuel)
    : ∃ next', skipNext tabs tabd fuel next = .ok next' ∧ next ≤ next' ∧ next' ≤ b
        ∧ OnlyIn src dst next'
        ∧ Nat.count (OnlyIn src dst) next' = Nat.count (OnlyIn src dst) next := by
  have hlens := h.tabs_isTable.length_eq
  have hlend := h.tabd_isTable.length_eq
  induction fuel generalizing next with
  | zero => omega
  | succ fuel ih =>
    have hs := h.tabs_isTable.ne_zero_iff hnext (show next ≤ size by omega)
    have hd := h.tabd_isTable.ne_zero_iff hnext (show next ≤ size by omega)
    unfold skipNext
    rw [elmPlist_eq hnext (by omega), ok_bind, elmPlist_eq hnext (by omega), ok_bind]
    by_cases honly : OnlyIn src dst next
    . have hin := honly
      unfold OnlyIn at hin
      rw [← hs, ← hd] at hin
      rw [if_neg (by tauto)]
      exact ⟨next, rfl, Nat.le_refl _, hle, honly, rfl⟩
    . have hin := honly
      unfold OnlyIn at hin
      rw [← hs, ← hd] at hin
      rw [if_pos (by tauto)]
      have hne : next ≠ b := by
        intro heq
        rw [heq] at honly
        exact honly hb
      rcases ih (show 0 < next + 1 by omega) (by omega) (by omega) with ⟨next', hnext'⟩
      refine ⟨next', hnext'.1, by omega, hnext'.2.2.1, hnext'.2.2.2.1, ?_⟩
      rw [hnext'.2.2.2.2, count_succ, if_neg honly]
      rfl

variable {i : Nat}

theorem IsMapped.set {out : List Int} (h : IsMapped src dst d i out) (hi : 0 < i) (hid : i ≤ d)
    (hpos : ∀ x ∈ src, 0 < x) {y : Int}
    (hsrc : ∀ j, 0 < j → j < 1 + src.length → entryPlist src j = i → y = entryPlist dst j)
    (hdst : OnlyIn dst src i → ∃ b, OnlyIn src dst b
      ∧ Nat.count (OnlyIn src dst) b = Nat.count (OnlyIn dst src) i ∧ y = b)
    (hother : (i : Int) ∉ src → (i : Int) ∉ dst → y = i)
    : IsMapped src dst d (i + 1) (out.set (i - 1) y) := by
  have hlen := h.length_eq
  have hset : ∀ v, entryPlist (out.set (i - 1) y) v = if v = i then y else entryPlist out v :=
    fun v => entryPlist_set hi (by omega)
  constructor
  . rw [length_set, hlen]
  . intro j hj hlt hle
    have hjpos := hpos _ (entryPlist_mem hj hlt)
    rw [hset]
    split
    . next heq =>
      apply hsrc j hj hlt
      omega
    . next hne =>
      apply h.src_eq j hj hlt
      omega
  . intro v hv honly
    rw [hset]
    split
    . next heq =>
      rw [heq] at honly ⊢
      exact hdst honly
    . next hne =>
      apply h.dst_eq v _ honly
      omega
  . intro v hv hlt hns hnd
    rw [hset]
    split
    . next heq =>
      rw [heq] at hns hnd ⊢
      exact hother hns hnd
    . next hne =>
      apply h.other_eq v hv _ hns hnd
      omega

structure IsMapping (src dst : List Int) (d i : Nat) (s : List Int × Nat) : Prop where
  isMapped : IsMapped src dst d i s.1
  next_pos : 0 < s.2
  count_eq : Nat.count (OnlyIn src dst) s.2 = Nat.count (OnlyIn dst src) i

variable (hmatch : Matches src dst) (hsrc : ∀ x ∈ src, 0 < x ∧ x ≤ d)
  (hdst : ∀ x ∈ dst, 0 < x ∧ x ≤ d)

include hmatch hsrc hdst

theorem exists_next {next : Nat} (hid : i ≤ d) (honly : OnlyIn dst src i)
    (hcount : Nat.count (OnlyIn src dst) next = Nat.count (OnlyIn dst src) i)
    : ∃ b, next ≤ b ∧ b ≤ d ∧ OnlyIn src dst b := by
  have hall := count_onlyIn_eq hmatch hsrc hdst
  have hsucc : Nat.count (OnlyIn dst src) (i + 1) = Nat.count (OnlyIn dst src) i + 1 := by
    rw [count_succ, if_pos honly]
  have hmono := count_monotone (OnlyIn dst src) (show i + 1 ≤ d + 1 by omega)
  have hlt : Nat.count (OnlyIn src dst) next < Nat.count (OnlyIn src dst) (d + 1) := by omega
  cases exists_of_count_lt_count hlt with
  | intro b hb => exact ⟨b, hb.1.1, by have := hb.1.2; omega, hb.2⟩

variable (htables : AreTables src dst size tabs tabd) (hsize : d ≤ size)

include htables hsize

theorem mapPoint_spec (hi : 0 < i) (hid : i ≤ d) {s : List Int × Nat} (h : IsMapping src dst d i s)
    : ∃ s', mapPoint dst tabs tabd i s = .ok s' ∧ IsMapping src dst d (i + 1) s' := by
  have hlens := htables.tabs_isTable.length_eq
  have hlend := htables.tabd_isTable.length_eq
  have hlenout := h.isMapped.length_eq
  have hlen := hmatch.length_eq
  have hins := htables.tabs_isTable.ne_zero_iff hi (show i ≤ size by omega)
  have hind := htables.tabd_isTable.ne_zero_iff hi (show i ≤ size by omega)
  have hpos : ∀ x ∈ src, 0 < x := fun x hx => (hsrc x hx).1
  have hnot : (i : Int) ∉ src → ∀ j, 0 < j → j < 1 + src.length → entryPlist src j ≠ i := by
    intro hmem j hj hlt heq
    rw [← heq] at hmem
    exact hmem (entryPlist_mem hj hlt)
  unfold mapPoint
  rw [elmPlist_eq hi (by omega), ok_bind]
  split
  . next hsrci =>
    have hocc := htables.tabs_isTable.occurs i hi (by omega) hsrci
    rw [hins] at hsrci
    have htpos : 0 < entryPlist tabs i := by
      have := hins.mpr hsrci
      omega
    rw [elmPlist_eq htpos (by omega), ok_bind, setElmPlist_eq hi (by omega), ok_bind]
    refine ⟨_, rfl, ?_, h.next_pos, ?_⟩
    . apply h.isMapped.set hi hid hpos
      . intro j hj hlt heq
        apply hmatch.forward _ _ htpos hocc.1 hj hlt
        rw [hocc.2, heq]
      . intro honly
        exact absurd hsrci honly.2
      . intro hns
        exact absurd hsrci hns
    . dsimp only
      rw [h.count_eq, count_succ, if_neg (fun honly => honly.2 hsrci)]
      rfl
  . next hnotsrc =>
    rw [hins] at hnotsrc
    rw [elmPlist_eq hi (by omega), ok_bind]
    split
    . next hdsti =>
      rw [hind] at hdsti
      have honly : OnlyIn dst src i := ⟨hdsti, hnotsrc⟩
      rcases exists_next hmatch hsrc hdst hid honly h.count_eq with ⟨b, hb⟩
      rcases skipNext_spec htables h.next_pos hb.1 hb.2.2 (by omega)
        (show b < s.2 + (tabs.length + 1) by omega) with ⟨next, hnext⟩
      have hcount := hnext.2.2.2.2.trans h.count_eq
      rw [hnext.1, ok_bind, setElmPlist_eq hi (by omega), ok_bind]
      refine ⟨_, rfl, ?_, succ_pos next, ?_⟩
      . apply h.isMapped.set hi hid hpos
        . intro j hj hlt heq
          exact absurd heq (hnot hnotsrc j hj hlt)
        . intro _
          exact ⟨next, hnext.2.2.2.1, hcount, rfl⟩
        . intro _ hnd
          exact absurd hdsti hnd
      . dsimp only
        rw [count_succ, if_pos hnext.2.2.2.1, count_succ, if_pos honly, hcount]
    . next hnotdst =>
      rw [hind] at hnotdst
      rw [setElmPlist_eq hi (by omega), ok_bind]
      refine ⟨_, rfl, ?_, h.next_pos, ?_⟩
      . apply h.isMapped.set hi hid hpos
        . intro j hj hlt heq
          exact absurd heq (hnot hnotsrc j hj hlt)
        . intro honly
          exact absurd honly.1 hnotdst
        . intro _ _
          rfl
      . dsimp only
        rw [h.count_eq, count_succ, if_neg (fun honly => hnotdst honly.1)]
        rfl

theorem mapPoints_spec
    : ∃ out, mapPoints dst tabs tabd d = .ok out ∧ IsMapped src dst d (1 + d) out := by
  have hzero : ∀ v, v < 1 → ∀ {a b : List Int}, (∀ x ∈ a, 0 < x) → ¬OnlyIn a b v := by
    intro v hv a b ha honly
    have := ha _ honly.1
    omega
  have hstart : IsMapping src dst d 1 (replicate d 0, 1) := by
    constructor
    . constructor
      . rw [length_replicate]
      . intro j hj hlt hlt'
        have := hsrc _ (entryPlist_mem hj hlt)
        omega
      . intro v hv honly
        exact absurd honly (hzero v hv (fun x hx => (hdst x hx).1))
      . omega
    . exact Nat.one_pos
    . have h₁ := hzero 0 Nat.one_pos (b := src) (fun x hx => (hdst x hx).1)
      have h₂ := hzero 0 Nat.one_pos (b := dst) (fun x hx => (hsrc x hx).1)
      rw [count_succ, count_succ, if_neg h₁, if_neg h₂]
      rfl
  unfold mapPoints
  apply exists_bind_of (P := fun s : List Int × Nat => IsMapped src dst d (1 + d) s.1)
  . apply forLoop_of_inv (IsMapping src dst d) hstart
    . intro i s hi hlt h
      exact mapPoint_spec hmatch hsrc hdst htables hsize hi (by omega) h
    . intro s h
      exact h.isMapped
  . intro s h
    exact ⟨s.1, rfl, h⟩

end Points

open Int

variable {w : IntSize} {src dst out : List Int} {d : Nat}

section Branches

theorem mapByTables_spec {last : Bool} {conv : Int → Int} {size : Nat}
    (hlen : src.length = dst.length) (hsrc : ∀ x ∈ src, 0 < x ∧ x ≤ d)
    (hdst : ∀ x ∈ dst, 0 < x ∧ x ≤ d) (hconv : ∀ x ∈ dst, conv x = x) (hsize : d ≤ size)
    : SucceedsIf (mapByTables last conv size src dst d) (Matches src dst)
        (IsMapped src dst d (1 + d)) := by
  have htabs : SucceedsIf (fillTable last id src dst size) (Determines src dst (1 + src.length))
      (IsTable src size (1 + src.length)) := by
    apply fillTable_spec hlen
    intro x hx
    have := hsrc x hx
    exact ⟨this.1, by omega, rfl⟩
  have htabd : SucceedsIf (fillTable last conv dst src size) (Determines dst src (1 + dst.length))
      (IsTable dst size (1 + dst.length)) := by
    apply fillTable_spec hlen.symm
    intro x hx
    have := hdst x hx
    exact ⟨this.1, by omega, hconv x hx⟩
  unfold mapByTables
  by_cases hforward : Determines src dst (1 + src.length)
  . rcases htabs.1 hforward with ⟨tabs, ht⟩
    rw [ht.1, ok_bind]
    dsimp only
    by_cases hbackward : Determines dst src (1 + dst.length)
    . rcases htabd.1 hbackward with ⟨tabd, hd⟩
      rw [hd.1, ok_bind]
      dsimp only
      have hmatch : Matches src dst := ⟨hlen, hforward, hbackward⟩
      constructor
      . intro _
        rcases mapPoints_spec hmatch hsrc hdst ⟨ht.2, hd.2⟩ hsize with ⟨out, hout⟩
        rw [hout.1, ok_bind]
        exact ⟨out, rfl, hout.2⟩
      . intro hc
        exact absurd hmatch hc
    . rw [htabd.2 hbackward, ok_bind]
      exact ⟨fun hc => absurd hc.backward hbackward, fun _ => rfl⟩
  . rw [htabs.2 hforward, ok_bind]
    exact ⟨fun hc => absurd hc.forward hforward, fun _ => rfl⟩

theorem IsMapped.cases (h : IsMapped src dst d (1 + d) out) {v : Nat} (hv : 0 < v) (hle : v ≤ d)
    : (∃ j, 0 < j ∧ j < 1 + src.length ∧ entryPlist src j = v
          ∧ entryPlist out v = entryPlist dst j)
        ∨ (OnlyIn dst src v ∧ ∃ b, OnlyIn src dst b
          ∧ Nat.count (OnlyIn src dst) b = Nat.count (OnlyIn dst src) v ∧ entryPlist out v = b)
        ∨ ((v : Int) ∉ src ∧ (v : Int) ∉ dst ∧ entryPlist out v = v) := by
  by_cases hs : (v : Int) ∈ src
  . left
    rcases exists_entryPlist hs with ⟨j, hj⟩
    refine ⟨j, hj.1, hj.2.1, hj.2.2, ?_⟩
    have := h.src_eq j hj.1 hj.2.1 (by omega)
    rw [hj.2.2, toNat_natCast] at this
    exact this
  . right
    by_cases hd : (v : Int) ∈ dst
    . left
      exact ⟨⟨hd, hs⟩, h.dst_eq v (by omega) ⟨hd, hs⟩⟩
    . right
      exact ⟨hs, hd, h.other_eq v hv (by omega) hs hd⟩

theorem IsMapped.unique {out' : List Int} (h : IsMapped src dst d (1 + d) out)
    (h' : IsMapped src dst d (1 + d) out')
    : out = out' := by
  have hentry : ∀ v, 0 < v → v ≤ d → entryPlist out v = entryPlist out' v := by
    intro v hv hle
    cases h.cases hv hle with
    | inl hsrc =>
      obtain ⟨j, hj, hlt, heq, hout⟩ := hsrc
      have := h'.src_eq j hj hlt (by omega)
      rw [heq, toNat_natCast] at this
      rw [hout, this]
    | inr hrest =>
      cases hrest with
      | inl hdst =>
        obtain ⟨honly, b, hb, hcount, hout⟩ := hdst
        obtain ⟨b', hb', hcount', hout'⟩ := h'.dst_eq v (by omega) honly
        rw [hout, hout', count_injective hb hb' (hcount.trans hcount'.symm)]
      | inr hother => rw [hother.2.2, h'.other_eq v hv (by omega) hother.1 hother.2.1]
  apply ext_getElem
  . rw [h.length_eq, h'.length_eq]
  . intro i hi hi'
    have hlen := h.length_eq
    have := hentry (i + 1) (succ_pos i) (by omega)
    rw [entryPlist_eq_getElem hi, entryPlist_eq_getElem hi'] at this
    exact this

end Branches

section Permutation

def MapsList (σ : Equiv.Perm Nat) (src dst : List Int) : Prop :=
  ∀ (i : Nat) (x y : Int), src[i]? = some x → dst[i]? = some y → pointImage σ x = y

theorem IsMapped.range (h : IsMapped src dst d (1 + d) out) (hlen : src.length = dst.length)
    (hsrc : ∀ x ∈ src, 0 < x ∧ x ≤ d) (hdst : ∀ x ∈ dst, 0 < x ∧ x ≤ d) {v : Nat} (hv : 0 < v)
    (hle : v ≤ d)
    : 0 < entryPlist out v ∧ entryPlist out v ≤ d := by
  cases h.cases hv hle with
  | inl hs =>
    obtain ⟨j, hj, hlt, _, hout⟩ := hs
    rw [hout]
    apply hdst
    apply entryPlist_mem hj
    omega
  | inr hrest =>
    cases hrest with
    | inl hd =>
      obtain ⟨_, b, hb, _, hout⟩ := hd
      rw [hout]
      exact hsrc _ hb.1
    | inr hother =>
      rw [hother.2.2]
      omega

theorem IsMapped.injective (h : IsMapped src dst d (1 + d) out) (hmatch : Matches src dst)
    {v v' : Nat} (hv : 0 < v) (hle : v ≤ d) (hv' : 0 < v') (hle' : v' ≤ d)
    (heq : entryPlist out v = entryPlist out v')
    : v = v' := by
  have hlen := hmatch.length_eq
  have hmem : ∀ j, 0 < j → j < 1 + src.length → entryPlist dst j ∈ dst := by
    intro j hj hlt
    apply entryPlist_mem hj
    omega
  rcases h.cases hv hle with ⟨j, hj, hlt, hval, hout⟩ | ⟨honly, b, hb, hcount, hout⟩
    | ⟨hns, hnd, hout⟩
  . rcases h.cases hv' hle' with ⟨j', hj', hlt', hval', hout'⟩ | ⟨_, b', hb', _, hout'⟩
      | ⟨_, hnd', hout'⟩
    . have := hmatch.backward j j' hj (by omega) hj' (by omega)
        (by rw [← hout, ← hout', heq])
      rw [hval, hval'] at this
      omega
    . have := hmem j hj hlt
      rw [← hout, heq, hout'] at this
      exact absurd this hb'.2
    . have := hmem j hj hlt
      rw [← hout, heq, hout'] at this
      exact absurd this hnd'
  . rcases h.cases hv' hle' with ⟨j', hj', hlt', _, hout'⟩ | ⟨honly', b', hb', hcount', hout'⟩
      | ⟨hns', _, hout'⟩
    . have := hmem j' hj' hlt'
      rw [← hout', ← heq, hout] at this
      exact absurd this hb.2
    . have hbb : b = b' := by
        rw [hout, hout'] at heq
        omega
      rw [hbb, hcount'] at hcount
      exact (count_injective honly' honly hcount).symm
    . have := hb.1
      rw [← hout, heq, hout'] at this
      exact absurd this hns'
  . rcases h.cases hv' hle' with ⟨j', hj', hlt', _, hout'⟩ | ⟨_, b', hb', _, hout'⟩
      | ⟨_, _, hout'⟩
    . have := hmem j' hj' hlt'
      rw [← hout', ← heq, hout] at this
      exact absurd this hnd
    . have := hb'.1
      rw [← hout', ← heq, hout] at this
      exact absurd this hns
    . rw [hout, hout'] at heq
      omega

def toEntries (list : List Int) : List Nat :=
  list.map (fun y => y.toNat - 1)

theorem image_toEntries {i : Nat} (hi : i < out.length)
    : image (toEntries out) i = (entryPlist out (i + 1)).toNat - 1 := by
  unfold toEntries
  rw [image_of_lt (by rw [length_map]; exact hi), getElem_map, entryPlist_eq_getElem hi]

theorem IsMapped.exists_perm (h : IsMapped src dst d (1 + d) out) (hmatch : Matches src dst)
    (hsrc : ∀ x ∈ src, 0 < x ∧ x ≤ d) (hdst : ∀ x ∈ dst, 0 < x ∧ x ≤ d)
    : ∃ σ, Acts (toEntries out) σ ∧ MapsList σ src dst
        ∧ ∀ x, 0 < x → x ∉ src → x ∉ dst → pointImage σ x = x := by
  have hlen := h.length_eq
  have hlength : (toEntries out).length = out.length := length_map _
  have hrange : ∀ i, i < d → 0 < entryPlist out (i + 1) ∧ entryPlist out (i + 1) ≤ d :=
    fun i hi => h.range hmatch.length_eq hsrc hdst (succ_pos i) (by omega)
  have hperm : ∃ σ, Acts (toEntries out) σ := by
    apply exists_acts
    . intro i hi
      rw [image_toEntries (by omega)]
      have := hrange i (by omega)
      omega
    . intro i j hi hj heq
      rw [image_toEntries (by omega), image_toEntries (by omega)] at heq
      have hri := hrange i (by omega)
      have hrj := hrange j (by omega)
      have heq' : entryPlist out (i + 1) = entryPlist out (j + 1) := by omega
      have := h.injective hmatch (succ_pos i) (by omega) (succ_pos j) (by omega) heq'
      omega
  rcases hperm with ⟨σ, hσ⟩
  have hpoint : ∀ v : Nat, 0 < v → v ≤ d → pointImage σ v = entryPlist out v := by
    intro v hv hle
    unfold pointImage
    rw [← hσ, toNat_natCast, image_toEntries (by omega), Nat.sub_add_cancel hv]
    have := hrange (v - 1) (by omega)
    rw [Nat.sub_add_cancel hv] at this
    omega
  refine ⟨σ, hσ, ?_, ?_⟩
  . intro i x y hx hy
    have hxmem := hsrc x (mem_of_getElem? hx)
    have hlt := (List.getElem?_eq_some_iff.mp hx).1
    have hxi : entryPlist src (i + 1) = x := by
      rw [entryPlist_eq_getElem hlt]
      rw [getElem?_eq_getElem hlt] at hx
      exact Option.some.inj hx
    have hyi : entryPlist dst (i + 1) = y := by
      have hlt' : i < dst.length := (List.getElem?_eq_some_iff.mp hy).1
      rw [entryPlist_eq_getElem hlt']
      rw [getElem?_eq_getElem hlt'] at hy
      exact Option.some.inj hy
    have hout := h.src_eq (i + 1) (succ_pos i) (by omega) (by omega)
    have hxpoint := hpoint x.toNat (by omega) (by omega)
    rw [toNat_of_nonneg (by omega)] at hxpoint
    rw [hxi, hyi] at hout
    rw [hxpoint, hout]
  . intro x hx hns hnd
    have hxnat : ((x.toNat : Nat) : Int) = x := toNat_of_nonneg (by omega)
    by_cases hle : x ≤ d
    . have := hpoint x.toNat (by omega) (by omega)
      rw [h.other_eq x.toNat (by omega) (by omega) (by rw [hxnat]; exact hns)
        (by rw [hxnat]; exact hnd), hxnat] at this
      exact this
    . unfold pointImage
      rw [hσ.fix (by omega)]
      omega

variable {σ : Equiv.Perm Nat}

theorem determines_of_mapsList (hlen : src.length = dst.length) (hmaps : MapsList σ src dst)
    : Determines src dst (1 + src.length) := by
  intro a b ha haj hb hbj heq
  have hpoint : ∀ i, 0 < i → i < 1 + src.length
      → pointImage σ (entryPlist src i) = entryPlist dst i := by
    intro i hi hlt
    rw [← Nat.sub_add_cancel hi, entryPlist_eq_getElem (by omega), entryPlist_eq_getElem (by omega)]
    apply hmaps (i - 1)
    . rw [getElem?_eq_getElem]
    . rw [getElem?_eq_getElem]
  rw [← hpoint a ha haj, ← hpoint b hb hbj, heq]

theorem MapsList.symm (hpos : ∀ x ∈ src, 0 < x) (h : MapsList σ src dst)
    : MapsList σ.symm dst src := by
  intro i y x hy hx
  rw [← h i x y hx hy]
  have := pointImage_symm σ.symm (hpos x (mem_of_getElem? hx))
  rw [Equiv.symm_symm] at this
  exact this

theorem matches_of_mapsList (hlen : src.length = dst.length) (hpos : ∀ x ∈ src, 0 < x)
    (hmaps : MapsList σ src dst)
    : Matches src dst :=
  ⟨hlen, determines_of_mapsList hlen hmaps, determines_of_mapsList hlen.symm (hmaps.symm hpos)⟩

end Permutation

section Conversion

variable {h : PermHeap} {ρ : Nat → Equiv.Perm Nat} {T : PermTnum} {σ : Equiv.Perm Nat}

structure IsConverted (n : Nat) (σ : Equiv.Perm Nat) (i : Nat) (s : List Nat × List Nat)
    : Prop where
  isFilled : IsFilled n 1 σ (i - 1) s.2
  length_eq : s.1.length = n
  known : ∀ x, x < n → s.1[x]? = some 0 ∨ ∃ p, p < i - 1 ∧ σ p = x

def IsImages (list : List Int) (σ : Equiv.Perm Nat) : Prop :=
  Acts (toEntries list) σ ∧ ∀ i, 0 < i → i ≤ list.length → 0 < entryPlist list i

theorem permListEntry_spec (himages : IsImages out σ) (hdeg : out.length ≤ T.maxDeg w) {i : Nat}
    (hi : 0 < i) (hle : i ≤ out.length) {s : List Nat × List Nat}
    (h : IsConverted out.length σ i s)
    : ∃ s', permListEntry w T out i s = .ok (some s') ∧ IsConverted out.length σ (i + 1) s' := by
  have hlength : (toEntries out).length = out.length := length_map _
  have hlt : i - 1 < out.length := by omega
  have hpos := himages.2 i hi hle
  have himage := himages.1 (i - 1)
  rw [image_toEntries hlt, Nat.sub_add_cancel hi] at himage
  have hrange := himages.1.lt (show i - 1 < (toEntries out).length by omega)
  rw [hlength] at hrange
  have hsmall : w.IsSmall (entryPlist out i) := by
    apply isSmall_of_le_maxDegPerm4 hpos
    have := PermTnum.maxDeg_le_maxDegPerm4 w T
    omega
  have hbits := PermTnum.maxDeg_le w T
  have hlen := h.length_eq
  -- The image has not been met before.
  have hnew : readEntry s.1 (σ (i - 1)) = .ok 0 := by
    unfold readEntry
    cases h.known (σ (i - 1)) hrange with
    | inl hzero =>
      rw [hzero]
      rfl
    | inr hmet =>
      rcases hmet with ⟨p, hp⟩
      have := σ.injective hp.2
      omega
  unfold permListEntry
  rw [elmPlist_eq hi (by omega), ok_bind]
  rw [if_neg (by rw [not_or, not_or, not_not]; exact ⟨hsmall, by omega, by omega⟩)]
  rw [himage, hnew, ok_bind, if_neg (fun hc => hc rfl)]
  have hwrite : writeEntry T s.1 (σ (i - 1)) 1 = .ok (s.1.set (σ (i - 1)) 1) := by
    unfold writeEntry PermTnum.cast
    rw [if_pos (by omega), mod_eq_of_lt (by cases T <;> decide)]
    rfl
  rw [hwrite, ok_bind]
  rcases h.isFilled.succ (T := T) (k := i - 1) hlt (by omega) with ⟨ptPerm, hptPerm⟩
  have hwrite' : writeEntry T s.2 (i - 1) (σ (i - 1)) = .ok ptPerm := hptPerm.1
  rw [hwrite', ok_bind]
  refine ⟨_, rfl, ?_, ?_, ?_⟩
  . rw [show i + 1 - 1 = i - 1 + 1 by omega]
    exact hptPerm.2
  . dsimp only
    rw [length_set, hlen]
  . intro x hx
    dsimp only
    by_cases hxi : x = σ (i - 1)
    . right
      exact ⟨i - 1, by omega, hxi.symm⟩
    . rw [getElem?_set_ne (fun heq => hxi heq.symm)]
      cases h.known x hx with
      | inl hzero =>
        left
        exact hzero
      | inr hmet =>
        rcases hmet with ⟨p, hp⟩
        right
        exact ⟨p, by omega, hp.2⟩

theorem permList_spec (hheap : IsPermHeap w h ρ) (himages : IsImages out σ)
    (hdeg : out.length ≤ T.maxDeg w)
    : ∃ s, permList w T h out = .ok (some s) ∧ Computes w h ρ (.ok s) σ := by
  have hlength : (toEntries out).length = out.length := length_map _
  have hloop : SucceedsIf (failLoop (permListEntry w T out) out.length 1
      (replicate out.length 0, replicate out.length 0)) True
      (IsConverted out.length σ (1 + out.length)) := by
    apply failLoop_spec (fun _ => True) (IsConverted out.length σ) (fun _ _ => trivial) trivial
    . constructor
      . apply isFilled_replicate
      . rw [length_replicate]
      . intro x hx
        left
        rw [getElem?_replicate, if_pos hx]
    . intro i s hi hlt _ hs
      refine ⟨fun _ => ?_, fun hc => absurd trivial hc⟩
      exact permListEntry_spec himages hdeg hi (by omega) hs
  rcases hloop.1 trivial with ⟨s, hs⟩
  have hfilled := hs.2.isFilled
  rw [Nat.add_sub_cancel_left] at hfilled
  have hacts : Acts s.2 σ := by
    apply acts_of_getElem? hfilled.length_eq hfilled.getElem?_eq (fun _ _ => rfl)
    intro i hi
    apply himages.1.fix
    omega
  refine ⟨h.newPerm T s.2, ?_, ?_⟩
  . unfold permList
    dsimp only
    rw [hs.1]
    rfl
  . apply Computes.newPerm hheap T hacts
    rw [hfilled.length_eq]
    exact hdeg

def permListFault (len : Nat) : Fault :=
  .quit "PermList: list length %d exceeds maximum permutation degree" len 0

theorem funcPermList_spec (hheap : IsPermHeap w h ρ) (himages : IsImages out σ)
    : if out.length ≤ PermTnum.maxDegPerm4 w then
        ∃ s, funcPermList w h out = .ok (some s) ∧ Computes w h ρ (.ok s) σ
      else
        funcPermList w h out = .error (permListFault out.length) := by
  have hmax : 65536 ≤ PermTnum.maxDegPerm4 w := by cases w <;> decide
  unfold funcPermList
  dsimp only
  by_cases hzero : out.length = 0
  . rw [if_pos (by omega), if_pos hzero]
    have hone := himages.1.eq_one (by unfold toEntries; rw [length_map, hzero])
    rw [hone]
    exact ⟨_, rfl, Computes.identityPerm hheap⟩
  . rw [if_neg hzero]
    by_cases hshort : out.length ≤ 65536
    . rw [if_pos (by omega), if_pos hshort]
      exact permList_spec hheap himages hshort
    . rw [if_neg hshort]
      by_cases hle : out.length ≤ PermTnum.maxDegPerm4 w
      . rw [if_pos hle, if_pos hle]
        exact permList_spec hheap himages hle
      . rw [if_neg hle, if_neg hle]
        rfl

end Conversion

section Largest

theorem largestEntry_spec (msg : String) (list : List Int) (d : Int)
    (hlist : ∀ x ∈ list, IsPoint w x)
    : ∃ m, largestEntry w msg list d = .ok m ∧ ∀ n, m ≤ n ↔ d ≤ n ∧ ∀ x ∈ list, x ≤ n := by
  induction list generalizing d with
  | nil =>
    refine ⟨d, rfl, ?_⟩
    intro n
    simp
  | cons x list ih =>
    rw [forall_mem_cons] at hlist
    rcases ih (if x > d then x else d) hlist.2 with ⟨m, hm⟩
    refine ⟨m, ?_, ?_⟩
    . unfold largestEntry at hm ⊢
      have hx : 0 < x ∧ w.IsSmall x := hlist.1
      rw [foldlM_cons, if_pos hx]
      exact hm.1
    . intro n
      have hlarger : (if x > d then x else d) ≤ n ↔ d ≤ n ∧ x ≤ n := by
        split
        . omega
        . omega
      rw [hm.2, forall_mem_cons, ← and_assoc, hlarger]

theorem toInt_eq {x : Int} (hpos : 0 < x) (hlt : x < 2 ^ 31) : toInt x = x := by
  unfold toInt
  rw [bmod_eq_iff (by decide)]
  omega

end Largest

namespace PermOps

variable {h : PermHeap} {ρ : Nat → Equiv.Perm Nat}

def ReturnsMapping (w : IntSize) (h : PermHeap) (ρ : Nat → Equiv.Perm Nat) (src dst : List Int)
    (res : Result (Option (PermHeap × Nat))) : Prop :=
  ∃ h' r ρ' bag σ, res = .ok (some (h', r)) ∧ IsPermHeap w h' ρ' ∧ Extends h ρ h' ρ'
    ∧ h'.bags[r]? = some bag ∧ IsPermBag w bag σ ∧ MapsList σ src dst
    ∧ ∀ x, 0 < x → x ∉ src → x ∉ dst → pointImage σ x = x

/--
`fail` if there is no permutation. A permutation of a degree that is too large is an error.
-/
structure MapsOrFails (w : IntSize) (h : PermHeap) (ρ : Nat → Equiv.Perm Nat) (src dst : List Int)
    (res : Result (Option (PermHeap × Nat))) : Prop where
  fail_iff : res = .ok none ↔ ¬∃ σ, MapsList σ src dst
  returns : (∃ σ, MapsList σ src dst) → (∀ x ∈ src ++ dst, x ≤ PermTnum.maxDegPerm4 w)
    → ReturnsMapping w h ρ src dst res
  error : (∃ σ, MapsList σ src dst) → (∃ x ∈ src ++ dst, PermTnum.maxDegPerm4 w < x)
    → ∃ len, res = .error (permListFault len)

theorem isImages_of_isMapped {src dst out : List Int} {d : Nat} {σ : Equiv.Perm Nat}
    (hmapped : IsMapped src dst d (1 + d) out) (hlen : src.length = dst.length)
    (hsrc : ∀ x ∈ src, 0 < x ∧ x ≤ d) (hdst : ∀ x ∈ dst, 0 < x ∧ x ≤ d)
    (hacts : Acts (toEntries out) σ)
    : IsImages out σ := by
  refine ⟨hacts, ?_⟩
  intro i hi hle
  rw [hmapped.length_eq] at hle
  exact (hmapped.range hlen hsrc hdst hi hle).1

theorem mapsOrFails (hheap : IsPermHeap w h ρ) {src dst : List Int}
    (hlen : src.length = dst.length) (hsrc : ∀ x ∈ src, IsPoint w x)
    (hdst : ∀ x ∈ dst, IsPoint w x) (hint : ∀ x ∈ dst, x < 2 ^ 31)
    : MapsOrFails w h ρ src dst (mappingPermListList w h src dst) := by
  unfold mappingPermListList
  rw [if_neg (not_not.mpr hlen)]
  rcases largestEntry_spec "<src> must be a dense list of positive small integers" src 0 hsrc with
      ⟨d₁, hd₁⟩
  cases largestEntry_spec "<dst> must be a dense list of positive small integers" dst d₁ hdst with
  | intro d hd =>
    rw [hd₁.1, ok_bind, hd.1, ok_bind]
    have hiff : ∀ n, d ≤ n ↔ 0 ≤ n ∧ ∀ x ∈ src ++ dst, x ≤ n := by
      intro n
      rw [hd.2, hd₁.2, forall_mem_append, and_assoc]
    have hnonneg := ((hiff d).mp (Int.le_refl d)).1
    have hle := ((hiff d).mp (Int.le_refl d)).2
    rw [forall_mem_append] at hle
    have hsrc' : ∀ x ∈ src, 0 < x ∧ x ≤ d.toNat := by
      intro x hx
      have := hle.1 x hx
      exact ⟨(hsrc x hx).1, by omega⟩
    have hdst' : ∀ x ∈ dst, 0 < x ∧ x ≤ d.toNat := by
      intro x hx
      have := hle.2 x hx
      exact ⟨(hdst x hx).1, by omega⟩
    have hbranch : SucceedsIf
        (if d ≤ 512 then mapOnStack src dst d.toNat else mapOnHeap src dst d.toNat)
        (Matches src dst) (IsMapped src dst d.toNat (1 + d.toNat)) := by
      split
      . apply mapByTables_spec hlen hsrc' hdst' (fun _ _ => rfl)
        omega
      . apply mapByTables_spec hlen hsrc' hdst'
        . intro x hx
          exact toInt_eq (hdst x hx).1 (hint x hx)
        . exact Nat.le_refl _
    have hmatch : ∀ σ, MapsList σ src dst → Matches src dst :=
      fun σ hσ => matches_of_mapsList hlen (fun x hx => (hsrc x hx).1) hσ
    by_cases hmatches : Matches src dst
    . rcases hbranch.1 hmatches with ⟨out, hout⟩
      rw [hout.1, ok_bind]
      dsimp only
      obtain ⟨σ, hacts, hmaps, hother⟩ := hout.2.exists_perm hmatches hsrc' hdst'
      have hperm := funcPermList_spec hheap
        (isImages_of_isMapped hout.2 hlen hsrc' hdst' hacts)
      rw [hout.2.length_eq] at hperm
      by_cases hmax : d ≤ PermTnum.maxDegPerm4 w
      . rw [if_pos (by omega)] at hperm
        obtain ⟨s, heq, h', r, ρ', bag, hs, hheap', hext, hbag, hpermbag⟩ := hperm
        cases hs
        rw [heq]
        constructor
        . simp only [reduceCtorEq, Except.ok.injEq, false_iff, not_not]
          exact ⟨σ, hmaps⟩
        . intro _ _
          exact ⟨h', r, ρ', bag, σ, rfl, hheap', hext, hbag, hpermbag, hmaps, hother⟩
        . intro _ hlarge
          rcases hlarge with ⟨x, hx⟩
          have := ((hiff d).mp (Int.le_refl d)).2 x hx.1
          omega
      . rw [if_neg (by omega)] at hperm
        rw [hperm]
        constructor
        . simp only [reduceCtorEq, false_iff, not_not]
          exact ⟨σ, hmaps⟩
        . intro _ hsmall
          exact absurd ((hiff _).mpr ⟨by omega, hsmall⟩) hmax
        . intro _ _
          exact ⟨_, rfl⟩
    . rw [hbranch.2 hmatches, ok_bind]
      dsimp only
      have hnone : ¬∃ σ, MapsList σ src dst := by
        intro hex
        cases hex with
        | intro σ hσ => exact hmatches (hmatch σ hσ)
      constructor
      . simp only [hnone, not_false_eq_true, iff_true]
        rfl
      . intro hex
        exact absurd hex hnone
      . intro hex
        exact absurd hex hnone

/--
The permutation that maps one list to another one, if the entries of the second list fit into an
`int`, and the same images from both kinds of tables.
-/
theorem mappingPermListList_spec (hheap : IsPermHeap w h ρ) (src dst : List Int)
    (hlen : src.length = dst.length) (hsrc : ∀ x ∈ src, IsPoint w x)
    (hdst : ∀ x ∈ dst, IsPoint w x) (hint : ∀ x ∈ dst, x < 2 ^ 31)
    : MapsOrFails w h ρ src dst (mappingPermListList w h src dst)
        ∧ ∀ d : Nat, d ≤ 512 → (∀ x ∈ src ++ dst, x ≤ (d : Int))
          → mapOnStack src dst d = mapOnHeap src dst d := by
  refine ⟨mapsOrFails hheap hlen hsrc hdst hint, ?_⟩
  intro d hd hle
  rw [List.forall_mem_append] at hle
  have hsrc' : ∀ x ∈ src, 0 < x ∧ x ≤ d := fun x hx => ⟨(hsrc x hx).1, hle.1 x hx⟩
  have hdst' : ∀ x ∈ dst, 0 < x ∧ x ≤ d := fun x hx => ⟨(hdst x hx).1, hle.2 x hx⟩
  have hstack : SucceedsIf (mapOnStack src dst d) (Matches src dst)
      (IsMapped src dst d (1 + d)) :=
    mapByTables_spec hlen hsrc' hdst' (fun _ _ => rfl) hd
  have hheap' : SucceedsIf (mapOnHeap src dst d) (Matches src dst)
      (IsMapped src dst d (1 + d)) :=
    mapByTables_spec hlen hsrc' hdst' (fun x hx => toInt_eq (hdst x hx).1 (hint x hx))
      (Nat.le_refl d)
  by_cases hmatches : Matches src dst
  . rcases hstack.1 hmatches with ⟨out, hout⟩
    cases hheap'.1 hmatches with
    | intro out' hout' => rw [hout.1, hout'.1, hout.2.unique hout'.2]
  . rw [hstack.2 hmatches, hheap'.2 hmatches]

instance (w : IntSize) (x : Int) : Decidable (IsPoint w x) :=
  inferInstanceAs (Decidable (0 < x ∧ w.IsSmall x))

theorem mappingPermListList_spec_exampleHeap
    : MapsOrFails .int8 exampleHeap exampleAction [1, 2, 2] [3, 1, 1]
          (mappingPermListList .int8 exampleHeap [1, 2, 2] [3, 1, 1])
        ∧ ∀ d : Nat, d ≤ 512 → (∀ x ∈ [1, 2, 2] ++ [3, 1, 1], x ≤ (d : Int))
          → mapOnStack [1, 2, 2] [3, 1, 1] d = mapOnHeap [1, 2, 2] [3, 1, 1] d :=
  mappingPermListList_spec isPermHeap_exampleHeap [1, 2, 2] [3, 1, 1] rfl (by decide) (by decide)
    (by decide)

theorem mapsList_swap : MapsList (Equiv.swap (2 ^ 33 - 1) 0) [2 ^ 33] [1] := by
  intro i x y hx hy
  cases i with
  | zero =>
    cases hx
    cases hy
    unfold pointImage
    rw [show (2 ^ 33 : Int).toNat = 2 ^ 33 by decide, Equiv.swap_apply_left]
    rfl
  | succ i => cases hx

/-- A permutation of degree `2 ^ 33` would map the lists, but there are no such permutations. -/
theorem not_mapsOrFails_degreeTooLarge
    : ¬((mappingPermListList .int8 exampleHeap [2 ^ 33] [1] = .ok none
            ↔ ¬∃ σ, MapsList σ [2 ^ 33] [1])
          ∧ ((∃ σ, MapsList σ [2 ^ 33] [1])
            → ReturnsMapping .int8 exampleHeap exampleAction [2 ^ 33] [1]
                (mappingPermListList .int8 exampleHeap [2 ^ 33] [1]))) := by
  have hexists : ∃ σ, MapsList σ [2 ^ 33] [1] := ⟨_, mapsList_swap⟩
  have hres : MapsOrFails .int8 exampleHeap exampleAction [2 ^ 33] [1]
      (mappingPermListList .int8 exampleHeap [2 ^ 33] [1]) :=
    mapsOrFails isPermHeap_exampleHeap rfl (by decide) (by decide) (by decide)
  intro hclaim
  obtain ⟨len, herror⟩ := hres.error hexists ⟨2 ^ 33, by decide, by decide⟩
  obtain ⟨h', r, ρ', bag, σ, hok, _⟩ := hclaim.2 hexists
  rw [herror] at hok
  cases hok

end PermOps
