import GapKernel.Blister.Lemmas.Bulk
import GapKernel.Blister.Lemmas.UniteList

open BitBlocks PlainSetImpl List

namespace Blist

variable {w : Nat}

def toList (b : Blist w) : List Bool :=
  (List.range b.len).map (fun i => bitAt b.blocks i)

end Blist

namespace BlistImpl

open Blist ListArg

inductive BlistOp (w : Nat) (E : Type) where
  | ass (pos : Nat) (val : Bool)
  | unb (pos : Nat)
  | unite (blist2 : Option (Blist w))
  | uniteList (list sub : ListArg E)
  | inter (blist2 : Option (Blist w))
  | subtr (blist2 : Option (Blist w))
  | flip
  | setAll
  | clearAll
  | isSSort

variable {w : Nat} {E : Type}

def secondList (l : List Bool) (blist2 : Option (Blist w)) : List Bool :=
  match blist2 with
  | some b2 => b2.toList
  | none => l

section

variable [DecidableEq E] (f : ObjFuncs E)

def step (b : Blist w) (op : BlistOp w E) : Result (BoolList w × Option Bool) := do
  match op with
  | .ass pos val =>
    let list ← assBlist b pos val
    return (list, none)
  | .unb pos =>
    let list ← unbBlist b pos
    return (list, none)
  | .unite blist2 =>
    let b ← uniteBlist b blist2
    return (.blist b, none)
  | .uniteList list sub =>
    let b ← uniteBlistList f list b sub
    return (.blist b, none)
  | .inter blist2 =>
    let b ← interBlist b blist2
    return (.blist b, none)
  | .subtr blist2 =>
    let b ← subtrBlist b blist2
    return (.blist b, none)
  | .flip =>
    let b ← flipBlist b
    return (.blist b, none)
  | .setAll =>
    let b ← setAllBlist b
    return (.blist b, none)
  | .clearAll =>
    let b ← clearAllBlist b
    return (.blist b, none)
  | .isSSort =>
    let (b, isSort) ← isSSortList b
    return (.blist b, some isSort)

end

section

variable (f : ObjFuncs E)

def onList (l : List Bool) (op : BlistOp w E) : List Bool :=
  match op with
  | .ass pos val => assList l pos val
  | .unb pos => unbList l pos
  | .unite blist2 => List.zipWith (fun x y => x || y) l (secondList l blist2)
  | .uniteList list sub =>
    uniteList f l (list.contents f l).reduceOption (sub.contents f l).reduceOption
  | .inter blist2 => List.zipWith (fun x y => x && y) l (secondList l blist2)
  | .subtr blist2 => List.zipWith (fun x y => x && !y) l (secondList l blist2)
  | .flip => l.map (fun x => !x)
  | .setAll => l.map (fun _ => true)
  | .clearAll => l.map (fun _ => false)
  | .isSSort => l

/--
A change is inside the list or at its end, a second operand is a blist of the same length, and the
list for the positions has no holes and the same length.
-/
def InScope (l : List Bool) (op : BlistOp w E) : Prop :=
  match op with
  | .ass pos _ => 0 < pos ∧ pos ≤ l.length + 1
  | .unb pos => 0 < pos ∧ l.length ≤ pos
  | .unite blist2 => SecondRefines blist2 l (secondList l blist2)
  | .uniteList list _ =>
    ∃ elems : List E, list.contents f l = elems.map some ∧ elems.length = l.length
  | .inter blist2 => SecondRefines blist2 l (secondList l blist2)
  | .subtr blist2 => SecondRefines blist2 l (secondList l blist2)
  | .flip => True
  | .setAll => True
  | .clearAll => True
  | .isSSort => True

def InScopeAlong : List Bool → List (BlistOp w E) → Prop
  | _, [] => True
  | l, op :: ops => InScope f l op ∧ InScopeAlong (onList f l op) ops

def TurnsUnite (l s : List Bool) : Prop :=
  l = [true, false] ∧ s[1]? = some true ∨ l = [false, false] ∧ s = [true, false]

/--
An operation that combines whole blocks turns a list `[true, false]`, the only sorted list with more
than one entry, into another one, or the other way round.
-/
def Turns (l : List Bool) (op : BlistOp w E) : Prop :=
  match op with
  | .ass _ _ => False
  | .unb _ => False
  | .unite blist2 => TurnsUnite l (secondList l blist2)
  | .uniteList list sub =>
    TurnsUnite l ((list.contents f l).reduceOption.map
      (fun x => memSet f.eq x (sub.contents f l).reduceOption))
  | .inter blist2 =>
    l = [true, false] ∧ (secondList l blist2)[0]? = some false
      ∨ l = [true, true] ∧ secondList l blist2 = [true, false]
  | .subtr blist2 =>
    l = [true, false] ∧ (secondList l blist2)[0]? = some true
      ∨ l = [true, true] ∧ secondList l blist2 = [false, true]
  | .flip => l = [true, false] ∨ l = [false, true]
  | .setAll => l = [true, false]
  | .clearAll => l = [true, false]
  | .isSSort => False

def Recorded (b : Blist w) (l : List Bool) (op : BlistOp w E) : Prop :=
  b.tnum ≠ .blist ∨
    match op with
    | .uniteList list sub => list = .blist ∧ l ≠ [] ∧ sub.contents f l ≠ []
    | _ => False

end

section

variable [DecidableEq E] (f : ObjFuncs E)

def HoldsAlong : Blist w → List Bool → List (BlistOp w E) → Prop
  | b, l, [] => Refines b l ∧ Truthful b l
  | b, l, op :: ops => Refines b l ∧ Truthful b l
    ∧ ∃ b' answer, step f b op = .ok (.blist b', answer)
      ∧ (∀ isSort, answer = some isSort → (isSort = true ↔ StrictlySorted ltBool l))
      ∧ HoldsAlong b' (onList f l op) ops

def KeepsAlong : Blist w → List Bool → List (BlistOp w E) → Prop
  | _, _, [] => True
  | b, l, op :: ops => ¬(Recorded f b l op ∧ Turns f l op)
    ∧ ∀ b' answer, step f b op = .ok (.blist b', answer) → KeepsAlong b' (onList f l op) ops

end

variable {l : List Bool}

theorem sorted_iff_not_turns {l' : List Bool} {T : Prop} (hlen : l'.length = l.length)
    (hT : T → l.length = 2)
    (htwo : ∀ a b, l = [a, b] → ((l = [true, false] ↔ l' = [true, false]) ↔ ¬T))
    : (StrictlySorted ltBool l ↔ StrictlySorted ltBool l') ↔ ¬T := by
  rw [strictlySorted_ltBool_iff, strictlySorted_ltBool_iff, hlen]
  by_cases h2 : l.length = 2
  . obtain ⟨a, b, hab⟩ := length_eq_two.mp h2
    have hone : ¬l.length ≤ 1 := by
      omega
    simp only [hone, false_or]
    exact htwo a b hab
  . have hne : l ≠ [true, false] := by
      intro h
      rw [h] at h2
      exact h2 rfl
    have hne' : l' ≠ [true, false] := by
      intro h
      rw [h] at hlen
      exact h2 hlen.symm
    have hnot : ¬T := fun h => h2 (hT h)
    tauto

variable {s : List Bool}

theorem length_eq_two_of_turnsUnite (h : TurnsUnite l s) : l.length = 2 := by
  rcases h with ⟨h, _⟩ | ⟨h, _⟩
  . rw [h]
    rfl
  . rw [h]
    rfl

theorem sorted_zipWith_iff (g : Bool → Bool → Bool) {T : Prop} (hlen : s.length = l.length)
    (hT : T → l.length = 2) (htwo : ∀ a b x y, l = [a, b] → s = [x, y] →
      ((l = [true, false] ↔ [g a x, g b y] = [true, false]) ↔ ¬T))
    : (StrictlySorted ltBool l ↔ StrictlySorted ltBool (zipWith g l s)) ↔ ¬T := by
  apply sorted_iff_not_turns _ hT
  . intro a b hl
    rw [hl] at hlen
    obtain ⟨x, y, hs⟩ := length_eq_two.mp hlen
    rw [← htwo a b x y hl hs, hl, hs]
    rfl
  . rw [length_zipWith, hlen, Nat.min_self]

theorem sorted_unite_iff (hlen : s.length = l.length)
    : (StrictlySorted ltBool l ↔ StrictlySorted ltBool (zipWith (fun x y => x || y) l s))
      ↔ ¬TurnsUnite l s := by
  apply sorted_zipWith_iff _ hlen length_eq_two_of_turnsUnite
  intro a b x y hl hs
  unfold TurnsUnite
  rw [hl, hs]
  revert a b x y
  simp

theorem SecondRefines.length_eq {blist2 : Option (Blist w)} {l2 : List Bool}
    (h : SecondRefines blist2 l l2) : l2.length = l.length := by
  cases blist2 with
  | some b2 => exact h.2
  | none => rw [show l2 = l from h]

section

variable (f : ObjFuncs E) {b b' : Blist w} {l : List Bool}

variable {op : BlistOp w E}

theorem length_eq_two_of_turns (h : Turns f l op) : l.length = 2 := by
  cases op with
  | ass _ _ => cases h
  | unb _ => cases h
  | unite _ => exact length_eq_two_of_turnsUnite h
  | uniteList _ _ => exact length_eq_two_of_turnsUnite h
  | inter _ =>
    rcases h with ⟨h, _⟩ | ⟨h, _⟩
    . rw [h]
      rfl
    . rw [h]
      rfl
  | subtr _ =>
    rcases h with ⟨h, _⟩ | ⟨h, _⟩
    . rw [h]
      rfl
    . rw [h]
      rfl
  | flip =>
    rcases h with h | h
    . rw [h]
      rfl
    . rw [h]
      rfl
  | setAll =>
    rw [show l = [true, false] from h]
    rfl
  | clearAll =>
    rw [show l = [true, false] from h]
    rfl
  | isSSort => cases h

def IsBulk (op : BlistOp w E) : Prop :=
  match op with
  | .ass _ _ => False
  | .unb _ => False
  | .isSSort => False
  | _ => True

theorem sorted_onList_iff (hscope : InScope f l op) (hbulk : IsBulk op)
    : (StrictlySorted ltBool l ↔ StrictlySorted ltBool (onList f l op)) ↔ ¬Turns f l op := by
  cases op with
  | ass _ _ => cases hbulk
  | unb _ => cases hbulk
  | isSSort => cases hbulk
  | unite blist2 => exact sorted_unite_iff (SecondRefines.length_eq hscope)
  | uniteList list sub =>
    obtain ⟨elems, helems, hlen⟩ := hscope
    have hreduce : (list.contents f l).reduceOption = elems := by
      rw [helems]
      simp [reduceOption]
    unfold onList uniteList Turns
    dsimp only
    rw [hreduce]
    rw [← zipWith_map_right (f := fun x => memSet f.eq x (sub.contents f l).reduceOption)
      (g := fun x y => x || y)]
    apply sorted_unite_iff
    rw [length_map]
    exact hlen
  | inter blist2 =>
    apply sorted_zipWith_iff _ (SecondRefines.length_eq hscope) (length_eq_two_of_turns f)
    intro a b x y hl hs
    unfold Turns
    dsimp only
    rw [hs, hl]
    revert a b x y
    simp
  | subtr blist2 =>
    apply sorted_zipWith_iff _ (SecondRefines.length_eq hscope) (length_eq_two_of_turns f)
    intro a b x y hl hs
    unfold Turns
    dsimp only
    rw [hs, hl]
    revert a b x y
    simp
  | flip =>
    apply sorted_iff_not_turns (by simp [onList]) (length_eq_two_of_turns f)
    intro a b hl
    rw [hl]
    unfold onList Turns
    revert a b
    simp
  | setAll =>
    apply sorted_iff_not_turns (by simp [onList]) (length_eq_two_of_turns f)
    intro a b hl
    rw [hl]
    unfold onList Turns
    revert a b
    simp
  | clearAll =>
    apply sorted_iff_not_turns (by simp [onList]) (length_eq_two_of_turns f)
    intro a b hl
    rw [hl]
    unfold onList Turns
    revert a b
    simp

theorem Truthful.iff_of_list {l' : List Bool} (ht : Truthful b l)
    : Truthful b l'
      ↔ (b.tnum ≠ .blist → (StrictlySorted ltBool l ↔ StrictlySorted ltBool l')) := by
  cases htnum : b.tnum with
  | blist =>
    constructor
    . intro _ h
      exact absurd rfl h
    . intro _
      exact ⟨by simp [htnum], by simp [htnum]⟩
  | blistNsort =>
    have hl := ht.nsort htnum
    constructor
    . intro h _
      simp [hl, h.nsort htnum]
    . intro h
      have := h (by simp)
      exact ⟨by simp [htnum], by tauto⟩
  | blistSsort =>
    have hl := ht.ssort htnum
    constructor
    . intro h _
      simp [hl, h.ssort htnum]
    . intro h
      have := h (by simp)
      exact ⟨by tauto, by simp [htnum]⟩

theorem Truthful.of_blist (h : b.tnum = .blist) : Truthful b l :=
  ⟨by simp [h], by simp [h]⟩

theorem truthful_bulk_iff (ht : Truthful b' l) (hscope : InScope f l op) (hbulk : IsBulk op)
    (hrec : Recorded f b l op ↔ b'.tnum ≠ .blist)
    : Truthful b' (onList f l op) ↔ ¬(Recorded f b l op ∧ Turns f l op) := by
  rw [Truthful.iff_of_list ht, sorted_onList_iff f hscope hbulk, hrec]
  tauto

section

variable [DecidableEq E] (hb : Refines b l) (ht : Truthful b l)

def StepHolds (b : Blist w) (l : List Bool) (op : BlistOp w E) : Prop :=
  ∃ b' answer, step f b op = .ok (.blist b', answer)
    ∧ (∀ isSort, answer = some isSort → (isSort = true ↔ StrictlySorted ltBool l))
    ∧ Refines b' (onList f l op)
    ∧ (Truthful b' (onList f l op) ↔ ¬(Recorded f b l op ∧ Turns f l op))

include hb ht

theorem stepHolds_of_blocks (op : BlistOp w E) {blocks : List (BitVec w)}
    (hrun : step f b op = .ok (.blist { b with blocks := blocks }, none))
    (hrep : Represents blocks (onList f l op)) (hlen : (onList f l op).length = l.length)
    (hscope : InScope f l op) (hbulk : IsBulk op) (hrec : Recorded f b l op ↔ b.tnum ≠ .blist)
    : StepHolds f b l op := by
  refine ⟨_, none, hrun, by simp, ⟨?_, hrep⟩, ?_⟩
  . rw [hlen]
    exact hb.len_eq
  . exact truthful_bulk_iff f ⟨ht.ssort, ht.nsort⟩ hscope hbulk hrec

theorem stepHolds_second {op : BlistOp w E} {blist2 : Option (Blist w)} {g : Bool → Bool → Bool}
    {blocks : List (BitVec w)}
    (hrun : step f b op = .ok (.blist { b with blocks := blocks }, none))
    (hop : onList f l op = zipWith g l (secondList l blist2))
    (hrep : Represents blocks (zipWith g l (secondList l blist2)))
    (hsecond : SecondRefines blist2 l (secondList l blist2))
    (hscope : InScope f l op) (hbulk : IsBulk op) (hrec : Recorded f b l op ↔ b.tnum ≠ .blist)
    : StepHolds f b l op := by
  apply stepHolds_of_blocks f hb ht op hrun _ _ hscope hbulk hrec
  . rw [hop]
    exact hrep
  . rw [hop, length_zipWith, SecondRefines.length_eq hsecond, Nat.min_self]

variable (hf : IsObjFuncs f) (hw : 0 < w)

include hf hw

theorem step_spec {op : BlistOp w E} (hscope : InScope f l op) : StepHolds f b l op := by
  cases op with
  | ass pos val =>
    obtain ⟨b', hrun, hb', htnum⟩ := assBlist_spec hw hb hscope.1 hscope.2 val
    refine ⟨b', none, ?_, by simp, hb', ?_⟩
    . unfold step
      dsimp only
      rw [hrun]
      rfl
    . simp [Truthful.of_blist htnum, Turns]
  | unb pos =>
    obtain ⟨b', hrun, hb', hend, hpast⟩ := unbBlist_spec hw hb hscope.1 hscope.2
    refine ⟨b', none, ?_, by simp, hb', ?_⟩
    . unfold step
      dsimp only
      rw [hrun]
      rfl
    . simp only [Turns, and_false, not_false_iff, iff_true]
      by_cases hlen : l.length = pos
      . exact Truthful.of_blist (hend hlen)
      . unfold onList unbList
        dsimp only
        rw [hpast hlen, if_neg hlen]
        exact ht
  | unite blist2 =>
    obtain ⟨blocks, hrun, hrep⟩ := uniteBlist_spec hw hb hscope
    apply stepHolds_second f hb ht _ rfl hrep hscope hscope trivial (by simp [Recorded])
    unfold step
    dsimp only
    rw [hrun]
    rfl
  | uniteList list sub =>
    have hlist := hscope
    obtain ⟨elems, helems, hlen⟩ := hlist
    obtain ⟨b', hrun, hb', ht', hrec⟩ := uniteBlistList_spec hw hb hf ht list sub helems hlen
    refine ⟨b', none, ?_, by simp, ?_, ?_⟩
    . unfold step
      dsimp only
      rw [hrun]
      rfl
    . have hreduce : (list.contents f l).reduceOption = elems := by
        rw [helems]
        simp [reduceOption]
      unfold onList
      dsimp only
      rw [hreduce]
      exact hb'
    . apply truthful_bulk_iff f ht' hscope trivial
      rw [hrec]
      unfold Recorded
      rw [← length_pos_iff (l := elems), hlen, length_pos_iff]
  | inter blist2 =>
    obtain ⟨blocks, hrun, hrep⟩ := interBlist_spec hw hb hscope
    apply stepHolds_second f hb ht _ rfl hrep hscope hscope trivial (by simp [Recorded])
    unfold step
    dsimp only
    rw [hrun]
    rfl
  | subtr blist2 =>
    obtain ⟨blocks, hrun, hrep⟩ := subtrBlist_spec hw hb hscope
    apply stepHolds_second f hb ht _ rfl hrep hscope hscope trivial (by simp [Recorded])
    unfold step
    dsimp only
    rw [hrun]
    rfl
  | flip =>
    obtain ⟨blocks, hrun, hrep⟩ := flipBlist_spec hw hb
    apply stepHolds_of_blocks f hb ht .flip _ hrep (length_map _) trivial trivial
      (by simp [Recorded])
    unfold step
    rw [hrun]
    rfl
  | setAll =>
    obtain ⟨blocks, hrun, hrep⟩ := setAllBlist_spec hw hb
    apply stepHolds_of_blocks f hb ht .setAll _ hrep (length_map _) trivial trivial
      (by simp [Recorded])
    unfold step
    rw [hrun]
    rfl
  | clearAll =>
    obtain ⟨blocks, hrun, hrep⟩ := clearAllBlist_spec hw hb
    apply stepHolds_of_blocks f hb ht .clearAll _ hrep (length_map _) trivial trivial
      (by simp [Recorded])
    unfold step
    rw [hrun]
    rfl
  | isSSort =>
    obtain ⟨b', isSort, hrun, hb', ht', hsort, _⟩ := isSSortList_spec hw hb ht
    refine ⟨b', some isSort, ?_, ?_, hb', ?_⟩
    . unfold step
      rw [hrun]
      rfl
    . intro isSort' heq
      rw [Option.some.injEq] at heq
      rw [← heq]
      exact hsort
    . simp [Turns, onList, ht']

end

end

/--
Every run refines the plain list, and the type is true in all of its states, if and only if no
operation for whole blocks turns a list whose type says whether it is sorted.
-/
theorem holdsAlong_iff (f : ObjFuncs E) [DecidableEq E] (hf : IsObjFuncs f) (hw : 0 < w)
    (ops : List (BlistOp w E)) {b : Blist w} {l : List Bool} (hb : Refines b l)
    (ht : Truthful b l) (hscope : InScopeAlong f l ops)
    : HoldsAlong f b l ops ↔ KeepsAlong f b l ops := by
  induction ops generalizing b l with
  | nil =>
    unfold HoldsAlong KeepsAlong
    simp [hb, ht]
  | cons op ops ih =>
    obtain ⟨b', answer, hrun, hanswer, hb', hiff⟩ := step_spec f hb ht hf hw hscope.1
    unfold HoldsAlong KeepsAlong
    constructor
    . rintro ⟨_, _, b'', answer', hrun', _, hholds⟩
      rw [hrun, Except.ok.injEq, Prod.mk.injEq, BoolList.blist.injEq] at hrun'
      rw [← hrun'.1] at hholds
      have ht' : Truthful b' (onList f l op) := by
        cases ops with
        | nil => exact hholds.2
        | cons op' ops => exact hholds.2.1
      refine ⟨hiff.mp ht', ?_⟩
      intro b1 answer1 hrun1
      rw [hrun, Except.ok.injEq, Prod.mk.injEq, BoolList.blist.injEq] at hrun1
      rw [← hrun1.1]
      exact (ih hb' ht' hscope.2).mp hholds
    . rintro ⟨hkeep, hnext⟩
      refine ⟨hb, ht, b', answer, hrun, hanswer, ?_⟩
      exact (ih hb' (hiff.mpr hkeep) hscope.2).mpr (hnext b' answer hrun)

/-- `FLIP_BLIST` after a query: the list is `[false, true]`, but its type says it is sorted. -/
theorem not_holdsAlong_flip
    : Refines (⟨.blist, 2, [1#64]⟩ : Blist 64) [true, false]
      ∧ Truthful (⟨.blist, 2, [1#64]⟩ : Blist 64) [true, false]
      ∧ InScopeAlong intBoolFuncs [true, false] [(.isSSort : BlistOp 64 (Int ⊕ Bool)), .flip]
      ∧ ¬HoldsAlong intBoolFuncs (⟨.blist, 2, [1#64]⟩ : Blist 64) [true, false]
        [.isSSort, .flip] := by
  refine ⟨?_, ?_, ?_, ?_⟩
  . exact refines_true_false
  . exact Truthful.of_blist rfl
  . exact ⟨trivial, trivial, trivial⟩
  . rintro ⟨_, _, b1, _, hrun1, _, _, _, b2, _, hrun2, _, _, ht⟩
    have h1 : step intBoolFuncs (⟨.blist, 2, [1#64]⟩ : Blist 64) .isSSort
        = .ok (.blist ⟨.blistSsort, 2, [1#64]⟩, some true) := by
      decide
    have h2 : step intBoolFuncs (⟨.blistSsort, 2, [1#64]⟩ : Blist 64) .flip
        = .ok (.blist ⟨.blistSsort, 2, [2#64]⟩, none) := by
      decide
    rw [h1, Except.ok.injEq, Prod.mk.injEq, BoolList.blist.injEq] at hrun1
    rw [← hrun1.1, h2, Except.ok.injEq, Prod.mk.injEq, BoolList.blist.injEq] at hrun2
    rw [← hrun2.1] at ht
    have := ht.ssort rfl
    rw [strictlySorted_ltBool_iff] at this
    revert this
    decide

theorem holdsAlong_iff_true_false
    : HoldsAlong intBoolFuncs (⟨.blist, 2, [1#64]⟩ : Blist 64) [true, false]
        [.isSSort, .ass 1 false, .isSSort, .clearAll, .unb 2]
      ↔ KeepsAlong intBoolFuncs (⟨.blist, 2, [1#64]⟩ : Blist 64) [true, false]
        [.isSSort, .ass 1 false, .isSSort, .clearAll, .unb 2] := by
  apply holdsAlong_iff intBoolFuncs isObjFuncs_intBoolFuncs (by decide) _ refines_true_false
    (Truthful.of_blist rfl)
  refine ⟨trivial, ⟨by decide, by decide⟩, trivial, trivial, ⟨by decide, by decide⟩, trivial⟩

end BlistImpl
