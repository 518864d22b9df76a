import GapKernel.ListFunc.Impl
import Mathlib.Tactic.Ring

open List Nat Function Int

variable {α : Type} {w : IntSize}

namespace SlotBag

def entry (list : SlotBag α) (pos : Int) : Option α :=
  if 0 < pos ∧ pos ≤ list.slots.length then list.slots.getD (pos - 1).toNat none else none

def HasSlot (list : SlotBag α) (pos : Int) : Prop :=
  0 < pos ∧ pos ≤ list.slots.length

structure IsLength (list : SlotBag α) : Prop where
  unused : ∀ pos : Int, list.len < pos → list.entry pos = none
  last : list.len = 0 ∨ list.entry list.len ≠ none

structure IsPlist (w : IntSize) (list : SlotBag α) : Prop extends IsLength list where
  len_le : list.len ≤ list.slots.length
  capacity_le : list.slots.length ≤ w.intIntobjMax

structure SameList (list list' : SlotBag α) : Prop where
  len_eq : list'.len = list.len
  isMutable_eq : list'.isMutable = list.isMutable
  entry_eq : ∀ pos, list'.entry pos = list.entry pos

structure SameBag (list list' : SlotBag α) : Prop where
  len_eq : list'.len = list.len
  isMutable_eq : list'.isMutable = list.isMutable
  capacity_eq : list'.slots.length = list.slots.length

theorem SameBag.refl (list : SlotBag α) : SameBag list list :=
  ⟨rfl, rfl, rfl⟩

variable {l1 l2 : SlotBag α}

theorem SameBag.trans {l3 : SlotBag α} (h : SameBag l1 l2) (h' : SameBag l2 l3)
    : SameBag l1 l3 :=
  ⟨h'.len_eq.trans h.len_eq, h'.isMutable_eq.trans h.isMutable_eq,
    h'.capacity_eq.trans h.capacity_eq⟩

theorem SameBag.hasSlot_iff (h : SameBag l1 l2) {pos : Int}
    : l2.HasSlot pos ↔ l1.HasSlot pos := by
  unfold HasSlot
  rw [h.capacity_eq]

theorem SameList.refl (list : SlotBag α) : SameList list list :=
  ⟨rfl, rfl, fun _ => rfl⟩

theorem SameList.trans {l3 : SlotBag α} (h : SameList l1 l2) (h' : SameList l2 l3)
    : SameList l1 l3 :=
  ⟨h'.len_eq.trans h.len_eq, h'.isMutable_eq.trans h.isMutable_eq,
    fun pos => (h'.entry_eq pos).trans (h.entry_eq pos)⟩

variable {list : SlotBag α} {pos : Int}

theorem readSlot_eq (h : list.HasSlot pos) : list.readSlot pos = .ok (list.entry pos) := by
  unfold HasSlot at h
  unfold readSlot entry
  rw [if_pos h, if_pos h]
  rfl

theorem readSlot_access (h : ¬list.HasSlot pos) : list.readSlot pos = .error .access :=
  if_neg h

theorem writeSlot_access (h : ¬list.HasSlot pos) (elm : Option α)
    : list.writeSlot pos elm = .error .access :=
  if_neg h

theorem writeSlot_spec (h : list.HasSlot pos) (elm : Option α)
    : ∃ list', list.writeSlot pos elm = .ok list' ∧ SameBag list list'
      ∧ list'.entry pos = elm ∧ ∀ pos', pos' ≠ pos → list'.entry pos' = list.entry pos' := by
  unfold HasSlot at h
  unfold writeSlot
  rw [if_pos h]
  refine ⟨_, rfl, ⟨rfl, rfl, length_set⟩, ?_, ?_⟩
  . unfold entry
    rw [length_set, if_pos h, getD_eq_getElem?_getD, getElem?_set_self (by omega)]
    rfl
  . intro pos' hne
    unfold entry
    rw [length_set]
    split
    next h' =>
      rw [getD_eq_getElem?_getD, getD_eq_getElem?_getD, getElem?_set_ne (by omega)]
    next => rfl

theorem entry_append_none (list : SlotBag α) (k : Nat) (pos : Int)
    : { list with slots := list.slots ++ replicate k none }.entry pos = list.entry pos := by
  unfold entry
  rw [length_append, length_replicate, getD_eq_getElem?_getD,
    getD_eq_getElem?_getD]
  by_cases h : 0 < pos ∧ pos ≤ list.slots.length
  . rw [if_pos h, if_pos (by omega), getElem?_append_left (by omega)]
  . rw [if_neg h]
    split
    next h' =>
      rw [getElem?_append_right (by omega), getElem?_replicate]
      split
      next => rfl
      next => rfl
    next => rfl

theorem grow_spec (hcap : list.slots.length ≤ w.intIntobjMax) (plen : Int)
    : (w.intIntobjMax < plen → ∃ msg, list.grow w plen = .error (.quit msg 0 0))
      ∧ (plen ≤ w.intIntobjMax → ∃ list', list.grow w plen = .ok list' ∧ SameList list list'
        ∧ list'.slots.length ≤ w.intIntobjMax ∧ list.slots.length ≤ list'.slots.length
        ∧ plen ≤ list'.slots.length) := by
  unfold grow growPlist
  constructor
  . intro hlarge
    rw [if_pos (by omega), if_pos (by omega)]
    exact ⟨_, rfl⟩
  . intro hsmall
    by_cases hlt : list.slots.length < plen
    . rw [if_pos hlt, if_neg (by omega)]
      refine ⟨_, rfl, ⟨rfl, rfl, entry_append_none list _⟩, ?_⟩
      rw [length_append, length_replicate]
      split
      next h1 => omega
      next h1 => omega
    . rw [if_neg hlt]
      exact ⟨list, rfl, .refl list, hcap, Nat.le_refl _, by omega⟩

end SlotBag

namespace ListFunc

open SlotBag

structure IsCopied (h h' : SlotHeap α) (src dst : Nat) (s d : Nat → Int) (n : Nat) : Prop where
  copied : ∀ i, i < n → (h' dst).entry (d i) = (h src).entry (s i)
  kept : ∀ pos, (∀ i, i < n → d i ≠ pos) → (h' dst).entry pos = (h dst).entry pos
  same : SameBag (h dst) (h' dst)
  other : ∀ x, x ≠ dst → h' x = h x

section Loops

variable {h : SlotHeap α} {src dst : Nat}

variable {n : Nat}

theorem IsCopied.sameBag {h' : SlotHeap α} {s d : Nat → Int} (hc : IsCopied h h' src dst s d n)
    (x : Nat) : SameBag (h x) (h' x) := by
  by_cases hx : x = dst
  . rw [hx]
    exact hc.same
  . rw [hc.other x hx]
    exact .refl _

variable {s d : Int}

theorem copySlot_spec (hs : (h src).HasSlot s) (hd : (h dst).HasSlot d)
    : ∃ h', copySlot h src dst s d = .ok h'
      ∧ IsCopied h h' src dst (fun _ => s) (fun _ => d) 1 := by
  obtain ⟨list, hrun, hsame, hself, hother⟩ := writeSlot_spec hd ((h src).entry s)
  unfold copySlot
  rw [readSlot_eq hs, ok_bind, hrun, ok_bind]
  refine ⟨_, rfl, ?_, ?_, ?_, ?_⟩
  . intro i hi
    rw [update_self]
    exact hself
  . intro pos hpos
    rw [update_self]
    exact hother pos (hpos 0 Nat.one_pos).symm
  . rw [update_self]
    exact hsame
  . intro x hx
    rw [update_of_ne hx]

theorem copySlot_access (hno : ¬((h src).HasSlot s ∧ (h dst).HasSlot d))
    : copySlot h src dst s d = .error .access := by
  unfold copySlot
  by_cases hs : (h src).HasSlot s
  . rw [readSlot_eq hs, ok_bind, writeSlot_access (fun hd => hno ⟨hs, hd⟩)]
    rfl
  . rw [readSlot_access hs]
    rfl

def step (start inc : Int) (i : Nat) : Int :=
  start + i * inc

theorem step_zero (start inc : Int) : step start inc 0 = start := by
  unfold step
  simp

theorem step_succ (start inc : Int) (i : Nat)
    : step start inc (i + 1) = step (start + inc) inc i := by
  unfold step
  push_cast
  ring

variable {i : Nat}

theorem step_injective {start inc : Int} (hinc : inc ≠ 0) {j : Nat} (hij : i ≠ j)
    : step start inc i ≠ step start inc j := by
  unfold step
  intro heq
  have hmul : (i : Int) * inc = j * inc := by
    omega
  have := Int.eq_of_mul_eq_mul_right hinc hmul
  omega

variable {srcinc dstinc : Int}

theorem copyUp_spec (n : Nat) (hs : ∀ i, i < n → (h src).HasSlot (step s srcinc i))
    (hd : ∀ i, i < n → (h dst).HasSlot (step d dstinc i)) (hinc : dstinc ≠ 0)
    (hsafe : ∀ i j, i < j → j < n → src = dst → step d dstinc i ≠ step s srcinc j)
    : ∃ h', copyUp src dst srcinc dstinc n s d h = .ok h'
      ∧ IsCopied h h' src dst (step s srcinc) (step d dstinc) n := by
  induction n generalizing s d h with
  | zero =>
    exact ⟨h, rfl, fun i hi => absurd hi (Nat.not_lt_zero i), fun _ _ => rfl, .refl _,
      fun _ _ => rfl⟩
  | succ n ih =>
    have hs0 := hs 0 (succ_pos n)
    have hd0 := hd 0 (succ_pos n)
    rw [step_zero] at hs0 hd0
    obtain ⟨h1, hrun1, hc1⟩ := copySlot_spec hs0 hd0
    have hs' : ∀ i, i < n → (h1 src).HasSlot (step (s + srcinc) srcinc i) := by
      intro i hi
      rw [(hc1.sameBag src).hasSlot_iff, ← step_succ]
      exact hs (i + 1) (by omega)
    have hd' : ∀ i, i < n → (h1 dst).HasSlot (step (d + dstinc) dstinc i) := by
      intro i hi
      rw [(hc1.sameBag dst).hasSlot_iff, ← step_succ]
      exact hd (i + 1) (by omega)
    obtain ⟨h', hrun, hc⟩ := ih hs' hd' (by
      intro i j hij hj heq
      rw [← step_succ, ← step_succ]
      exact hsafe (i + 1) (j + 1) (by omega) (by omega) heq)
    have hsrc : ∀ i, i < n → (h1 src).entry (step s srcinc (i + 1))
        = (h src).entry (step s srcinc (i + 1)) := by
      intro i hi
      by_cases heq : src = dst
      . rw [heq]
        apply hc1.kept
        intro _ _
        have := hsafe 0 (i + 1) (by omega) (by omega) heq
        rwa [step_zero] at this
      . rw [hc1.other src heq]
    unfold copyUp
    rw [hrun1, ok_bind]
    refine ⟨h', hrun, ?_, ?_, hc1.same.trans hc.same, ?_⟩
    . intro i hi
      cases i with
      | zero =>
        rw [hc.kept]
        . rw [step_zero, step_zero]
          exact hc1.copied 0 Nat.one_pos
        . intro j hj
          rw [← step_succ]
          exact step_injective hinc (by omega)
      | succ i =>
        rw [← hsrc i (by omega), step_succ, step_succ]
        exact hc.copied i (by omega)
    . intro pos hpos
      rw [hc.kept, hc1.kept]
      . intro _ _
        have := hpos 0 (succ_pos n)
        rwa [step_zero] at this
      . intro i hi
        rw [← step_succ]
        exact hpos (i + 1) (by omega)
    . intro x hx
      rw [hc.other x hx, hc1.other x hx]

theorem copyUp_access (n : Nat) (hi : i < n)
    (hno : ¬((h src).HasSlot (step s srcinc i) ∧ (h dst).HasSlot (step d dstinc i)))
    : copyUp src dst srcinc dstinc n s d h = .error .access := by
  induction n generalizing s d h i with
  | zero => omega
  | succ n ih =>
    unfold copyUp
    by_cases h0 : (h src).HasSlot s ∧ (h dst).HasSlot d
    . obtain ⟨h1, hrun1, hc1⟩ := copySlot_spec h0.1 h0.2
      rw [hrun1, ok_bind]
      cases i with
      | zero =>
        rw [step_zero, step_zero] at hno
        exact absurd h0 hno
      | succ i =>
        apply ih (i := i) (by omega)
        rw [(hc1.sameBag src).hasSlot_iff, (hc1.sameBag dst).hasSlot_iff, ← step_succ, ← step_succ]
        exact hno
    . rw [copySlot_access h0]
      rfl

theorem copyDown_eq (n : Nat) (s d : Int)
    : copyDown src dst srcinc dstinc n s d h
        = copyUp src dst (-srcinc) (-dstinc) n (s - srcinc) (d - dstinc) h := by
  induction n generalizing s d h with
  | zero => rfl
  | succ n ih =>
    unfold copyDown copyUp
    apply congrArg
    funext h1
    exact ih _ _

theorem step_reverse {start inc : Int} (hi : i < n)
    : step (start + n * inc - inc) (-inc) i = step start inc (n - 1 - i) := by
  unfold step
  rw [show ((n - 1 - i : Nat) : Int) = n - 1 - i by omega]
  ring

theorem IsCopied.reverse {h' : SlotHeap α} {s d s' d' : Nat → Int}
    (hc : IsCopied h h' src dst s' d' n) (hs : ∀ i, i < n → s' i = s (n - 1 - i))
    (hd : ∀ i, i < n → d' i = d (n - 1 - i)) : IsCopied h h' src dst s d n where
  copied := by
    intro i hi
    have := hc.copied (n - 1 - i) (by omega)
    rw [hs _ (by omega), hd _ (by omega), show n - 1 - (n - 1 - i) = i by omega] at this
    exact this
  kept := by
    intro pos hpos
    apply hc.kept
    intro i hi
    rw [hd i hi]
    exact hpos _ (by omega)
  same := hc.same
  other := hc.other

end Loops

section Tmp

variable {list : SlotBag α} {inc : Int}

variable {ptr : Int}

theorem readSlots_spec (n : Nat) (hslot : ∀ i, i < n → list.HasSlot (step ptr inc i))
    : readSlots list inc n ptr
        = .ok ((List.range n).map fun i => list.entry (step ptr inc i)) := by
  induction n generalizing ptr with
  | zero => rfl
  | succ n ih =>
    have h0 := hslot 0 (succ_pos n)
    rw [step_zero] at h0
    unfold readSlots
    rw [readSlot_eq h0, ok_bind, ih (by
      intro i hi
      rw [← step_succ]
      exact hslot (i + 1) (by omega)), ok_bind]
    rw [range_succ_eq_map, map_cons, map_map, step_zero]
    simp only [← step_succ]
    rfl

theorem readSlots_access (n : Nat) {i : Nat} (hi : i < n) (hno : ¬list.HasSlot (step ptr inc i))
    : readSlots list inc n ptr = .error .access := by
  induction n generalizing ptr i with
  | zero => omega
  | succ n ih =>
    unfold readSlots
    by_cases h0 : list.HasSlot ptr
    . rw [readSlot_eq h0, ok_bind]
      cases i with
      | zero =>
        rw [step_zero] at hno
        exact absurd h0 hno
      | succ i =>
        rw [step_succ] at hno
        rw [ih (by omega) hno]
        rfl
    . rw [readSlot_access h0]
      rfl

theorem writeSlots_spec {elms : List (Option α)} (hinc : inc ≠ 0)
    (hslot : ∀ i, i < elms.length → list.HasSlot (step ptr inc i))
    : ∃ list', writeSlots inc elms ptr list = .ok list' ∧ SameBag list list'
      ∧ (∀ i elm, elms[i]? = some elm → list'.entry (step ptr inc i) = elm)
      ∧ ∀ pos, (∀ i, i < elms.length → step ptr inc i ≠ pos)
        → list'.entry pos = list.entry pos := by
  induction elms generalizing ptr list with
  | nil => exact ⟨list, rfl, .refl list, (fun i elm h => nomatch h), fun _ _ => rfl⟩
  | cons elm elms ih =>
    have h0 := hslot 0 (succ_pos _)
    rw [step_zero] at h0
    obtain ⟨list1, hrun1, hsame1, hself1, hother1⟩ := writeSlot_spec h0 elm
    have hslot1 : ∀ i, i < elms.length → list1.HasSlot (step (ptr + inc) inc i) := by
      intro i hi
      rw [hsame1.hasSlot_iff, ← step_succ]
      exact hslot (i + 1) (succ_lt_succ hi)
    obtain ⟨list', hrun, hsame, hself, hother⟩ := ih hslot1
    unfold writeSlots
    rw [hrun1, ok_bind]
    refine ⟨list', hrun, hsame1.trans hsame, ?_, ?_⟩
    . intro i elm' hget
      cases i with
      | zero =>
        cases hget
        rw [step_zero, hother ptr, hself1]
        intro j hj
        rw [← step_succ]
        have hne : step ptr inc (j + 1) ≠ step ptr inc 0 :=
          step_injective hinc (succ_ne_zero j)
        rwa [step_zero] at hne
      | succ i =>
        rw [step_succ]
        exact hself i elm' hget
    . intro pos hpos
      rw [hother pos, hother1 pos]
      . have := hpos 0 (succ_pos _)
        rw [step_zero] at this
        exact this.symm
      . intro i hi
        rw [← step_succ]
        exact hpos (i + 1) (succ_lt_succ hi)

theorem writeSlots_access {elms : List (Option α)} {i : Nat} (hi : i < elms.length)
    (hno : ¬list.HasSlot (step ptr inc i)) : writeSlots inc elms ptr list = .error .access := by
  induction elms generalizing ptr list i with
  | nil => exact absurd hi (Nat.not_lt_zero i)
  | cons elm elms ih =>
    unfold writeSlots
    by_cases h0 : list.HasSlot ptr
    . obtain ⟨list1, hrun1, hsame1, _⟩ := writeSlot_spec h0 elm
      rw [hrun1, ok_bind]
      cases i with
      | zero =>
        rw [step_zero] at hno
        exact absurd h0 hno
      | succ i =>
        apply ih (i := i) (lt_of_succ_lt_succ hi)
        rw [hsame1.hasSlot_iff, ← step_succ]
        exact hno
    . rw [writeSlot_access h0]
      rfl

end Tmp

section Copy

variable {h : SlotHeap α} {src dst : Nat} {s si d di : Int} {n : Nat}

theorem copyTmp_spec (hs : ∀ i, i < n → (h src).HasSlot (step s si i))
    (hd : ∀ i, i < n → (h dst).HasSlot (step d di i)) (hinc : di ≠ 0)
    : ∃ h', copyTmp src dst si di n s d h = .ok h'
      ∧ IsCopied h h' src dst (step s si) (step d di) n := by
  have hlen : ((List.range n).map fun i => (h src).entry (step s si i)).length = n := by
    rw [length_map, length_range]
  have hslot : ∀ i, i < ((List.range n).map fun i => (h src).entry (step s si i)).length
      → (h dst).HasSlot (step d di i) := by
    rw [hlen]
    exact hd
  obtain ⟨list, hrun, hsame, hself, hother⟩ := writeSlots_spec hinc hslot
  unfold copyTmp
  rw [readSlots_spec n hs, ok_bind, hrun, ok_bind]
  refine ⟨_, rfl, ?_, ?_, ?_, ?_⟩
  . intro i hi
    rw [update_self]
    apply hself
    rw [getElem?_map, getElem?_range hi]
    rfl
  . intro pos hpos
    rw [update_self]
    apply hother
    rw [hlen]
    exact hpos
  . rw [update_self]
    exact hsame
  . intro x hx
    rw [update_of_ne hx]

theorem copyTmp_access {i : Nat} (hi : i < n)
    (hno : ¬((h src).HasSlot (step s si i) ∧ (h dst).HasSlot (step d di i)))
    : copyTmp src dst si di n s d h = .error .access := by
  unfold copyTmp
  by_cases hs : ∀ i, i < n → (h src).HasSlot (step s si i)
  . rw [readSlots_spec n hs, ok_bind, writeSlots_access (i := i)]
    . rfl
    . rw [length_map, length_range]
      exact hi
    . exact fun hd => hno ⟨hs i hi, hd⟩
  . push Not at hs
    obtain ⟨j, hj, hsj⟩ := hs
    rw [readSlots_access n hj hsj]
    rfl

theorem copyEntries_spec (hs : ∀ i, i < n → (h src).HasSlot (step s si i))
    (hd : ∀ i, i < n → (h dst).HasSlot (step d di i)) (hinc : di ≠ 0)
    (hself : ¬(¬(si = 1 ∧ di = 1) ∧ src = dst ∧ si = di ∧ s = d))
    : ∃ h', copyEntries src dst s si d di n h = .ok h'
      ∧ IsCopied h h' src dst (step s si) (step d di) n := by
  unfold copyEntries
  split
  next hone =>
    obtain ⟨rfl, rfl⟩ := hone
    exact copyTmp_spec hs hd hinc
  next hone =>
    split
    next hne => exact copyUp_spec n hs hd hinc fun i j _ _ heq => absurd heq hne
    next heq =>
      rw [not_not] at heq
      subst heq
      split
      next hsame =>
        subst hsame
        have hstart : s ≠ d := fun h => hself ⟨hone, rfl, rfl, h⟩
        split
        next hdir =>
          apply copyUp_spec n hs hd hinc
          intro i j hij _ _ heq
          unfold step at heq
          have hmul : s - d = (i - j : Int) * si := by
            rw [Int.sub_mul]
            omega
          by_cases hpos : 0 < si
          . have := Int.mul_neg_of_neg_of_pos (show (i - j : Int) < 0 by omega) hpos
            have := hdir.mpr hpos
            omega
          . have := Int.mul_pos_of_neg_of_neg (show (i - j : Int) < 0 by omega)
              (show si < 0 by omega)
            have := mt hdir.mp hpos
            omega
        next hdir =>
          rw [copyDown_eq]
          have hrev : ∀ start i, i < n
              → step (start + n * si - si) (-si) i = step start si (n - 1 - i) :=
            fun start i hi => step_reverse hi
          have hs' : ∀ i, i < n → (h src).HasSlot (step (s + n * si - si) (-si) i) := by
            intro i hi
            rw [hrev s i hi]
            exact hs _ (by omega)
          have hd' : ∀ i, i < n → (h src).HasSlot (step (d + n * si - si) (-si) i) := by
            intro i hi
            rw [hrev d i hi]
            exact hd _ (by omega)
          obtain ⟨h', hrun, hc⟩ := copyUp_spec n hs' hd' (by omega) (by
            intro i j hij hj _ heq
            rw [hrev d i (by omega), hrev s j hj] at heq
            unfold step at heq
            have hmul : s - d = ((n - 1 - i : Nat) - (n - 1 - j : Nat) : Int) * si := by
              rw [Int.sub_mul]
              omega
            have hlater : 0 < ((n - 1 - i : Nat) - (n - 1 - j : Nat) : Int) := by
              omega
            by_cases hpos : 0 < si
            . have := Int.mul_pos hlater hpos
              exact hdir (iff_of_true (by omega) hpos)
            . have := Int.mul_neg_of_pos_of_neg hlater (show si < 0 by omega)
              exact hdir (iff_of_false (by omega) hpos))
          exact ⟨h', hrun, hc.reverse (fun i hi => hrev s i hi) fun i hi => hrev d i hi⟩
      next => exact copyTmp_spec hs hd hinc

theorem copyEntries_access {i : Nat} (hi : i < n)
    (hno : ¬((h src).HasSlot (step s si i) ∧ (h dst).HasSlot (step d di i)))
    : copyEntries src dst s si d di n h = .error .access := by
  unfold copyEntries
  split
  next hone =>
    obtain ⟨rfl, rfl⟩ := hone
    exact copyTmp_access hi hno
  next =>
    split
    next => exact copyUp_access n hi hno
    next heq =>
      rw [not_not] at heq
      subst heq
      split
      next hsame =>
        subst hsame
        split
        next => exact copyUp_access n hi hno
        next =>
          rw [copyDown_eq]
          apply copyUp_access n (i := n - 1 - i) (by omega)
          rw [step_reverse (by omega), step_reverse (by omega),
            show n - 1 - (n - 1 - i) = i by omega]
          exact hno
      next => exact copyTmp_access hi hno

end Copy

section Length

variable {list : SlotBag α}

theorem lastBound_spec {n : Nat} (hn : n ≤ list.slots.length)
    : (∃ ct : Nat, lastBound list n = .ok ct ∧ ct ≤ n ∧ (ct = 0 ∨ list.entry ct ≠ none)
        ∧ (ct = 0 → list.len ≠ 0) ∧ ∀ pos : Int, ct < pos → pos ≤ n → list.entry pos = none)
      ∨ lastBound list n = .error .access ∧ list.len = 0
        ∧ ∀ pos : Int, 0 < pos → pos ≤ n → list.entry pos = none := by
  induction n with
  | zero =>
    unfold lastBound
    by_cases hlen : list.len ≠ 0
    . rw [if_pos hlen]
      exact Or.inl ⟨0, rfl, Nat.le_refl 0, Or.inl rfl, fun _ => hlen, fun pos h1 h2 => by omega⟩
    . rw [if_neg hlen]
      exact Or.inr ⟨rfl, not_not.mp hlen, fun pos h1 h2 => by omega⟩
  | succ n ih =>
    have hslot : list.HasSlot (n + 1 : Nat) := ⟨by omega, by omega⟩
    unfold lastBound
    rw [readSlot_eq hslot, ok_bind]
    cases hentry : list.entry (n + 1 : Nat) with
    | some elm =>
      refine Or.inl ⟨n + 1, rfl, Nat.le_refl _, Or.inr ?_, (fun h => nomatch h), ?_⟩
      . rw [hentry]
        exact Option.some_ne_none elm
      . intro pos h1 h2
        omega
    | none =>
      have hlast : ∀ pos : Int, pos ≤ (n + 1 : Nat) → ¬pos ≤ n → list.entry pos = none := by
        intro pos h1 h2
        rw [show pos = (n + 1 : Nat) by omega]
        exact hentry
      rcases ih (by omega) with ⟨ct, hrun, hle, hbound, hzero, hnone⟩ | ⟨hrun, hlen, hnone⟩
      . refine Or.inl ⟨ct, hrun, by omega, hbound, hzero, fun pos h1 h2 => ?_⟩
        by_cases h3 : pos ≤ n
        . exact hnone pos h1 h3
        . exact hlast pos h2 h3
      . refine Or.inr ⟨hrun, hlen, fun pos h1 h2 => ?_⟩
        by_cases h3 : pos ≤ n
        . exact hnone pos h1 h3
        . exact hlast pos h2 h3

end Length

section Spec

variable {h : SlotHeap α} {src dst : Nat} {s si d di : Int} {n : Nat}

theorem growLists_spec (hsrc : (h src).slots.length ≤ w.intIntobjMax)
    (hdst : (h dst).slots.length ≤ w.intIntobjMax) (srcmax dstmax : Int)
    : (w.intIntobjMax < w.wrap srcmax ∨ w.intIntobjMax < w.wrap dstmax
        → ∃ h' msg, growLists w h src dst srcmax dstmax = (h', .error (.quit msg 0 0))
          ∧ ∀ x, SameList (h x) (h' x))
      ∧ (w.wrap srcmax ≤ w.intIntobjMax → w.wrap dstmax ≤ w.intIntobjMax
        → ∃ h', growLists w h src dst srcmax dstmax = (h', .ok ()) ∧ (∀ x, SameList (h x) (h' x))
          ∧ (h' src).slots.length ≤ w.intIntobjMax ∧ (h' dst).slots.length ≤ w.intIntobjMax
          ∧ w.wrap srcmax ≤ (h' src).slots.length ∧ w.wrap dstmax ≤ (h' dst).slots.length) := by
  unfold growLists
  by_cases hd : w.wrap dstmax ≤ w.intIntobjMax
  . obtain ⟨l1, hrun1, hsame1, hcap1, hle1, hfits1⟩ := (grow_spec hdst (w.wrap dstmax)).2 hd
    rw [hrun1]
    dsimp only
    have hheap1 : ∀ x, SameList (h x) (update h dst l1 x) := by
      intro x
      by_cases hx : x = dst
      . rw [hx, update_self]
        exact hsame1
      . rw [update_of_ne hx]
        exact .refl _
    have hsrc1 : (update h dst l1 src).slots.length ≤ w.intIntobjMax := by
      by_cases hx : src = dst
      . rw [hx, update_self]
        exact hcap1
      . rw [update_of_ne hx]
        exact hsrc
    generalize hh1 : update h dst l1 = h1 at hheap1 hsrc1
    have hdst1 : h1 dst = l1 := by
      rw [← hh1, update_self]
    by_cases hs : w.wrap srcmax ≤ w.intIntobjMax
    . obtain ⟨l2, hrun2, hsame2, hcap2, hle2, hfits2⟩ := (grow_spec hsrc1 (w.wrap srcmax)).2 hs
      rw [hrun2]
      have hother : dst ≠ src → update h1 src l2 dst = l1 := by
        intro hne
        rw [update_of_ne hne, hdst1]
      refine ⟨fun hor => by omega, fun _ _ => ⟨_, rfl, ?_, ?_, ?_, ?_, ?_⟩⟩
      . intro x
        apply (hheap1 x).trans
        by_cases hx : x = src
        . rw [hx, update_self]
          exact hsame2
        . rw [update_of_ne hx]
          exact .refl _
      . rw [update_self]
        exact hcap2
      . by_cases hx : dst = src
        . rw [hx, update_self]
          exact hcap2
        . rw [hother hx]
          exact hcap1
      . rw [update_self]
        exact hfits2
      . by_cases hx : dst = src
        . rw [hx, update_self]
          rw [← hx, hdst1] at hle2
          omega
        . rw [hother hx]
          exact hfits1
    . obtain ⟨msg, hrun2⟩ := (grow_spec hsrc1 (w.wrap srcmax)).1 (by omega)
      rw [hrun2]
      exact ⟨fun _ => ⟨h1, msg, rfl, hheap1⟩, fun hle _ => absurd hle hs⟩
  . obtain ⟨msg, hrun1⟩ := (grow_spec hdst (w.wrap dstmax)).1 (by omega)
    rw [hrun1]
    exact ⟨fun _ => ⟨h, msg, rfl, fun x => .refl _⟩, fun _ hle => absurd hle hd⟩

theorem setLength_spec {dstmax : Nat} (hcap : dstmax ≤ (h dst).slots.length)
    (hunused : ∀ pos : Int, dstmax < pos → (h dst).len < pos → (h dst).entry pos = none)
    (hlast : dstmax < (h dst).len → (h dst).entry (h dst).len ≠ none)
    : (∃ h', setLength h dst dstmax = .ok h' ∧ IsLength (h' dst)
        ∧ (∀ pos, (h' dst).entry pos = (h dst).entry pos) ∧ (∀ x, x ≠ dst → h' x = h x)
        ∧ ¬((h dst).len = 0 ∧ ∀ pos : Int, 0 < pos → pos ≤ dstmax → (h dst).entry pos = none))
      ∨ setLength h dst dstmax = .error .access ∧ (h dst).len = 0
        ∧ ∀ pos : Int, 0 < pos → pos ≤ dstmax → (h dst).entry pos = none := by
  have hentry : ∀ (len : Nat) (tnum : PlistKTNum) pos,
      { h dst with len := len, tnum := tnum }.entry pos = (h dst).entry pos := fun _ _ _ => rfl
  unfold setLength
  dsimp only
  by_cases hle : (h dst).len ≤ dstmax
  . rw [if_pos hle]
    rcases lastBound_spec hcap with ⟨ct, hrun, hct, hbound, hzero, hnone⟩ | ⟨hrun, hlen, hnone⟩
    . rw [hrun, ok_bind]
      refine Or.inl ⟨_, rfl, ?_, ?_, ?_, ?_⟩
      . rw [update_self]
        refine ⟨?_, hbound⟩
        intro pos hpos
        rw [hentry]
        by_cases hmax : pos ≤ dstmax
        . exact hnone pos hpos hmax
        . exact hunused pos (by omega) (by omega)
      . intro pos
        rw [update_self, hentry]
      . intro x hx
        rw [update_of_ne hx]
      . rintro ⟨hlen, hall⟩
        rcases hbound with hct0 | hne
        . exact hzero hct0 hlen
        . by_cases hct0 : ct = 0
          . exact hzero hct0 hlen
          . exact hne (hall ct (by omega) (by omega))
    . rw [hrun]
      exact Or.inr ⟨rfl, hlen, hnone⟩
  . rw [if_neg hle, pure_bind]
    refine Or.inl ⟨_, rfl, ?_, ?_, ?_, ?_⟩
    . rw [update_self]
      refine ⟨?_, Or.inr (hlast (by omega))⟩
      intro pos hpos
      have hlen : (h dst).len < pos := hpos
      rw [hentry]
      exact hunused pos (by omega) hlen
    . intro pos
      rw [update_self, hentry]
    . intro x hx
      rw [update_of_ne hx]
    . rintro ⟨hlen, _⟩
      omega

end Spec

section Spec

variable {h : SlotHeap α} {src dst : Nat} {ss si ds di : Int} {n : Nat}

def HasBadIndex (ss si ds di : Int) (n : Nat) : Prop :=
  ∃ i, i < n ∧ (step ss si i ≤ 0 ∨ step ds di i ≤ 0)

structure IsListCopy (h h' : SlotHeap α) (src dst : Nat) (ss si ds di : Int) (n : Nat)
    : Prop where
  copied : ∀ i, i < n → (h' dst).entry (step ds di i) = (h src).entry (step ss si i)
  kept : ∀ pos, (∀ i, i < n → step ds di i ≠ pos) → (h' dst).entry pos = (h dst).entry pos
  length : IsLength (h' dst)
  other : ∀ x, x ≠ dst → SameList (h x) (h' x)

def CopiesRight (w : IntSize) (h : SlotHeap α) (src dst : Nat) (ss si ds di : Int) (n : Nat)
    : Prop :=
  (HasBadIndex ss si ds di n
    → ∃ h' msg, funcCopyListEntries w h src ss si dst ds di n = (h', .error (.quit msg 0 0))
      ∧ ∀ x, SameList (h x) (h' x))
  ∧ (¬HasBadIndex ss si ds di n
    → ∃ h', funcCopyListEntries w h src ss si dst ds di n = (h', .ok ())
      ∧ IsListCopy h h' src dst ss si ds di n)

def TooLarge (w : IntSize) (start inc : Int) (n : Nat) : Prop :=
  0 < inc ∧ w.intIntobjMax < w.wrap (lastIndex w start inc n)

def IsSignalled (w : IntSize) (ss si ds di : Int) (n : Nat) : Prop :=
  ss ≤ 0 ∨ ds ≤ 0 ∨ lastIndex w ss si n = 0 ∨ lastIndex w ds di n = 0
    ∨ TooLarge w ss si n ∨ TooLarge w ds di n

def IsSelfCopy (src dst : Nat) (ss si ds di : Int) : Prop :=
  ¬(si = 1 ∧ di = 1) ∧ src = dst ∧ si = di ∧ ss = ds

instance (src dst : Nat) (ss si ds di : Int) : Decidable (IsSelfCopy src dst ss si ds di) :=
  inferInstanceAs (Decidable (_ ∧ _))

/-- No error, the last indices are small integers, and not only holes are copied to a list without
entries. -/
structure IsCopyable (w : IntSize) (h : SlotHeap α) (src dst : Nat) (ss si ds di : Int) (n : Nat)
    : Prop where
  src_le : step ss si (n - 1) ≤ w.intIntobjMax
  dst_le : step ds di (n - 1) ≤ w.intIntobjMax
  bound : (h dst).len ≠ 0 ∨ ∃ i, i < n ∧ (h src).entry (step ss si i) ≠ none

def HoldsWhen (w : IntSize) (h : SlotHeap α) (src dst : Nat) (ss si ds di : Int) (n : Nat)
    : Prop :=
  n = 0 ∨ (HasBadIndex ss si ds di n ↔ IsSignalled w ss si ds di n)
    ∧ (¬HasBadIndex ss si ds di n
      → IsSelfCopy src dst ss si ds di ∨ IsCopyable w h src dst ss si ds di n)

theorem step_le (start inc : Int) {i : Nat} (hi : i < n)
    : step start inc i ≤ max start (step start inc (n - 1))
      ∧ min start (step start inc (n - 1)) ≤ step start inc i := by
  unfold step
  have hle : (i : Int) ≤ (n - 1 : Nat) := by
    omega
  by_cases hinc : 0 ≤ inc
  . have h1 := Int.mul_le_mul_of_nonneg_right hle hinc
    have h2 := Int.mul_nonneg (natCast_nonneg i) hinc
    omega
  . have h1 := Int.mul_le_mul_of_nonpos_right hle (show inc ≤ 0 by omega)
    have h2 := Int.mul_nonpos_of_nonneg_of_nonpos (natCast_nonneg i) (show inc ≤ 0 by omega)
    omega

theorem hasBadIndex_iff (hn : 0 < n)
    : HasBadIndex ss si ds di n
        ↔ ss ≤ 0 ∨ ds ≤ 0 ∨ step ss si (n - 1) ≤ 0 ∨ step ds di (n - 1) ≤ 0 := by
  constructor
  . rintro ⟨i, hi, hbad⟩
    have h1 := (step_le ss si hi).2
    have h2 := (step_le ds di hi).2
    omega
  . rintro (hbad | hbad | hbad | hbad)
    . exact ⟨0, hn, Or.inl (by rw [step_zero]; exact hbad)⟩
    . exact ⟨0, hn, Or.inr (by rw [step_zero]; exact hbad)⟩
    . exact ⟨n - 1, by omega, Or.inl hbad⟩
    . exact ⟨n - 1, by omega, Or.inr hbad⟩

variable {start inc : Int}

theorem lastIndex_eq (hn : 0 < n)
    : lastIndex w start inc n = step start inc (n - 1) % 2 ^ w.bits := by
  unfold lastIndex step
  rw [show ((n - 1 : Nat) : Int) = n - 1 by omega]

theorem lastIndex_nonneg (start inc : Int) : 0 ≤ lastIndex w start inc n :=
  emod_nonneg _ (by positivity)

theorem intIntobjMax_lt (w : IntSize) : w.intIntobjMax < 2 ^ (w.bits - 1) := by
  cases w with
  | int4 => decide
  | int8 => decide

theorem pow_bits_le (w : IntSize) : (2 : Int) ^ (w.bits - 1) ≤ 2 ^ w.bits := by
  cases w with
  | int4 => decide
  | int8 => decide

theorem lastIndex_of_le (hn : 0 < n) (hpos : 0 < step start inc (n - 1))
    (hle : step start inc (n - 1) ≤ w.intIntobjMax)
    : lastIndex w start inc n = step start inc (n - 1) := by
  have hlt := intIntobjMax_lt w
  have hbits := pow_bits_le w
  rw [lastIndex_eq hn]
  exact emod_eq_of_lt (by omega) (by omega)

theorem wrap_of_le {x : Int} (hpos : 0 < x) (hle : x ≤ w.intIntobjMax) : w.wrap x = x := by
  apply w.wrap_of_isInt
  have hlt := intIntobjMax_lt w
  exact ⟨by omega, by omega⟩

def maxIndex (w : IntSize) (start inc : Int) (n : Nat) : Int :=
  if inc > 0 then lastIndex w start inc n else start

theorem tooLarge_iff (hpos : 0 < start) (hle : start ≤ w.intIntobjMax)
    : TooLarge w start inc n ↔ w.intIntobjMax < w.wrap (maxIndex w start inc n) := by
  unfold TooLarge maxIndex
  by_cases hinc : 0 < inc
  . rw [if_pos hinc]
    exact ⟨fun h => h.2, fun h => ⟨hinc, h⟩⟩
  . rw [if_neg hinc, wrap_of_le hpos hle]
    exact ⟨fun h => absurd h.1 hinc, fun h => by omega⟩

section

variable (hmut : (h dst).isMutable = true) (hn : 0 < n) (hsrc : IsPlist w (h src))
  (hdst : IsPlist w (h dst)) (hss : ss ≤ w.intIntobjMax) (hds : ds ≤ w.intIntobjMax)

include hmut hn hsrc hdst hss hds

theorem funcCopyListEntries_signalled (hsig : IsSignalled w ss si ds di n)
    : ∃ h' msg, funcCopyListEntries w h src ss si dst ds di n = (h', .error (.quit msg 0 0))
      ∧ ∀ x, SameList (h x) (h' x) := by
  unfold funcCopyListEntries
  rw [if_neg (not_not.mpr hmut), if_neg (by omega)]
  dsimp only
  split
  next => exact ⟨h, _, rfl, fun x => .refl _⟩
  next hno =>
    push Not at hno
    obtain ⟨hss0, hds0, hl10, hl20⟩ := hno
    have hlarge : w.intIntobjMax < w.wrap (maxIndex w ss si n)
        ∨ w.intIntobjMax < w.wrap (maxIndex w ds di n) := by
      rw [← tooLarge_iff hss0 hss, ← tooLarge_iff hds0 hds]
      rcases hsig with h | h | h | h | h | h
      . omega
      . omega
      . omega
      . omega
      . exact Or.inl h
      . exact Or.inr h
    obtain ⟨h', msg, hrun, hsame⟩ :=
      (growLists_spec hsrc.capacity_le hdst.capacity_le _ _).1 hlarge
    unfold maxIndex at hrun
    rw [hrun]
    exact ⟨h', msg, rfl, hsame⟩

theorem funcCopyListEntries_grown (hsig : ¬IsSignalled w ss si ds di n)
    : ∃ h', (∀ x, SameList (h x) (h' x)) ∧ (h' src).slots.length ≤ w.intIntobjMax
      ∧ (h' dst).slots.length ≤ w.intIntobjMax
      ∧ w.wrap (maxIndex w ss si n) ≤ (h' src).slots.length
      ∧ w.wrap (maxIndex w ds di n) ≤ (h' dst).slots.length
      ∧ (IsSelfCopy src dst ss si ds di
        → funcCopyListEntries w h src ss si dst ds di n = (h', .ok ()))
      ∧ (¬IsSelfCopy src dst ss si ds di
        → funcCopyListEntries w h src ss si dst ds di n
          = match copyAndSetLength src dst ss si ds di n (maxIndex w ds di n).toNat h' with
            | .error e => (h', .error e)
            | .ok h'' => (h'', .ok ())) := by
  have hl1 := lastIndex_nonneg (w := w) (n := n) ss si
  have hl2 := lastIndex_nonneg (w := w) (n := n) ds di
  unfold IsSignalled at hsig
  push Not at hsig
  obtain ⟨hss0, hds0, hl10, hl20, hlarge1, hlarge2⟩ := hsig
  rw [tooLarge_iff hss0 hss] at hlarge1
  rw [tooLarge_iff hds0 hds] at hlarge2
  obtain ⟨h', hrun, hsame, hcap1, hcap2, hfits1, hfits2⟩ :=
    (growLists_spec hsrc.capacity_le hdst.capacity_le (maxIndex w ss si n)
      (maxIndex w ds di n)).2 (by omega) (by omega)
  have hcall : funcCopyListEntries w h src ss si dst ds di n
      = if IsSelfCopy src dst ss si ds di then (h', .ok ())
        else match copyAndSetLength src dst ss si ds di n (maxIndex w ds di n).toNat h' with
            | .error e => (h', .error e)
            | .ok h'' => (h'', .ok ()) := by
    unfold funcCopyListEntries
    rw [if_neg (not_not.mpr hmut), if_neg (by omega)]
    dsimp only
    rw [if_neg (by omega)]
    unfold maxIndex at hrun ⊢
    rw [hrun]
    rfl
  refine ⟨h', hsame, hcap1, hcap2, hfits1, hfits2, fun hself => ?_, fun hself => ?_⟩
  . rw [hcall, if_pos hself]
  . rw [hcall, if_neg hself]

end

theorem hasSlot_of_le {list : SlotBag α} (hpos : 0 < start) (hlast : 0 < step start inc (n - 1))
    (hstart : start ≤ w.intIntobjMax) (hle : step start inc (n - 1) ≤ w.intIntobjMax)
    (hcap : w.wrap (maxIndex w start inc n) ≤ list.slots.length) {i : Nat} (hi : i < n)
    : list.HasSlot (step start inc i)
      ∧ step start inc i ≤ (maxIndex w start inc n).toNat
      ∧ (maxIndex w start inc n).toNat ≤ list.slots.length := by
  have hn : 0 < n := by
    omega
  obtain ⟨hmax, hmin⟩ := step_le start inc hi
  unfold maxIndex at hcap ⊢
  unfold HasSlot
  rw [lastIndex_of_le hn hlast hle] at hcap ⊢
  by_cases hinc : inc > 0
  . rw [if_pos hinc, wrap_of_le hlast hle] at hcap
    rw [if_pos hinc]
    have hmul := Int.mul_nonneg (natCast_nonneg (n - 1)) (show 0 ≤ inc by omega)
    unfold step at *
    omega
  . rw [if_neg hinc, wrap_of_le hpos hstart] at hcap
    rw [if_neg hinc]
    have hmul := Int.mul_nonpos_of_nonneg_of_nonpos (natCast_nonneg (n - 1))
      (show inc ≤ 0 by omega)
    unfold step at *
    omega

variable {h' : SlotHeap α}

theorem copyAndSetLength_spec {dstmax : Nat} (hdst : IsPlist w (h dst))
    (hsame : ∀ x, SameList (h x) (h' x)) (hinc : di ≠ 0)
    (hs : ∀ i, i < n → (h' src).HasSlot (step ss si i))
    (hd : ∀ i, i < n → (h' dst).HasSlot (step ds di i) ∧ step ds di i ≤ dstmax)
    (hmax : dstmax ≤ (h' dst).slots.length) (hself : ¬IsSelfCopy src dst ss si ds di)
    : (∃ h'', copyAndSetLength src dst ss si ds di n dstmax h' = .ok h''
        ∧ IsListCopy h h'' src dst ss si ds di n
        ∧ ((h dst).len ≠ 0 ∨ ∃ i, i < n ∧ (h src).entry (step ss si i) ≠ none))
      ∨ copyAndSetLength src dst ss si ds di n dstmax h' = .error .access
        ∧ (h dst).len = 0 ∧ ∀ i, i < n → (h src).entry (step ss si i) = none := by
  obtain ⟨h1, hrun1, hc⟩ := copyEntries_spec hs (fun i hi => (hd i hi).1) hinc hself
  have hlen : (h1 dst).len = (h dst).len := hc.same.len_eq.trans (hsame dst).len_eq
  have hfar : ∀ pos : Int, dstmax < pos → (h1 dst).entry pos = (h dst).entry pos := by
    intro pos hpos
    rw [hc.kept, (hsame dst).entry_eq]
    intro i hi heq
    have := (hd i hi).2
    omega
  have hunused : ∀ pos : Int, dstmax < pos → (h1 dst).len < pos → (h1 dst).entry pos = none := by
    intro pos h1' h2'
    rw [hfar pos h1']
    exact hdst.unused pos (by omega)
  have hlast : dstmax < (h1 dst).len → (h1 dst).entry (h1 dst).len ≠ none := by
    intro hlt
    rw [hfar _ (by omega), hlen]
    exact hdst.last.resolve_left (by omega)
  have hcopied : ∀ i, i < n → (h1 dst).entry (step ds di i) = (h src).entry (step ss si i) := by
    intro i hi
    rw [hc.copied i hi, (hsame src).entry_eq]
  unfold copyAndSetLength
  rw [hrun1, ok_bind]
  have hcap : dstmax ≤ (h1 dst).slots.length := by
    rw [hc.same.capacity_eq]
    exact hmax
  rcases setLength_spec hcap hunused hlast with
    ⟨h'', hrun, hlength, hentry, hother, hnot⟩ | ⟨hrun, hzero, hnone⟩
  . refine Or.inl ⟨h'', hrun, ⟨?_, ?_, hlength, ?_⟩, ?_⟩
    . intro i hi
      rw [hentry, hcopied i hi]
    . intro pos hpos
      rw [hentry, hc.kept pos hpos, (hsame dst).entry_eq]
    . intro x hx
      rw [hother x hx, hc.other x hx]
      exact hsame x
    . by_contra hno
      push Not at hno
      apply hnot
      refine ⟨hlen.trans hno.1, ?_⟩
      intro pos hpos hle
      by_cases hex : ∃ i, i < n ∧ step ds di i = pos
      . obtain ⟨i, hi, rfl⟩ := hex
        rw [hcopied i hi]
        exact hno.2 i hi
      . rw [hc.kept pos (fun i hi heq => hex ⟨i, hi, heq⟩), (hsame dst).entry_eq]
        apply hdst.unused
        omega
  . refine Or.inr ⟨hrun, hlen.symm.trans hzero, fun i hi => ?_⟩
    rw [← hcopied i hi]
    exact hnone _ (hd i hi).1.1 (hd i hi).2

theorem copyAndSetLength_access {dstmax : Nat} (hn : 0 < n)
    (hno : ¬((h' src).HasSlot (step ss si (n - 1)) ∧ (h' dst).HasSlot (step ds di (n - 1))))
    : copyAndSetLength src dst ss si ds di n dstmax h' = .error .access := by
  unfold copyAndSetLength
  rw [copyEntries_access (by omega) hno]
  rfl

theorem isListCopy_self (hself : IsSelfCopy src dst ss si ds di)
    (hsame : ∀ x, SameList (h x) (h' x)) (hlength : IsLength (h dst))
    : IsListCopy h h' src dst ss si ds di n := by
  obtain ⟨_, rfl, rfl, rfl⟩ := hself
  have hlist := hsame src
  refine ⟨fun i _ => hlist.entry_eq _, fun pos _ => hlist.entry_eq pos, ⟨?_, ?_⟩,
    fun x _ => hsame x⟩
  . intro pos hpos
    rw [hlist.len_eq] at hpos
    rw [hlist.entry_eq]
    exact hlength.unused pos hpos
  . rw [hlist.len_eq, hlist.entry_eq]
    exact hlength.last

end Spec

section Example

def exampleBag : SlotBag Nat where
  tnum := .ndense
  isMutable := true
  len := 5
  slots := [some 10, none, some 30, none, some 50, none]

theorem isPlist_exampleBag : IsPlist .int8 exampleBag where
  unused := by
    intro pos hpos
    unfold SlotBag.entry
    split
    next h =>
      have hlen : pos ≤ 6 := h.2
      have hgt : 5 < pos := hpos
      rw [show pos = 6 by omega]
      rfl
    next => rfl
  last := Or.inr (by decide)
  len_le := by decide
  capacity_le := by decide

-- The entries 5, 3 and 1 are copied to the positions 2, 4 and 6 of the same list.
example : ((funcCopyListEntries .int8 (fun _ => exampleBag) 0 5 (-2) 0 2 2 3).1 0).slots.take 6
    = [some 10, some 50, some 30, some 30, some 50, some 10] := by
  decide

def exampleEmpty : SlotBag Nat where
  tnum := .empty
  isMutable := true
  len := 0
  slots := []

theorem isPlist_exampleEmpty : IsPlist .int8 exampleEmpty where
  unused := by
    intro pos _
    unfold SlotBag.entry
    split
    next h =>
      have hlen : pos ≤ 0 := h.2
      omega
    next => rfl
  last := Or.inl rfl
  len_le := Nat.le_refl 0
  capacity_le := by decide

end Example

end ListFunc
