import Mathlib.Data.Set.Function
import Mathlib.Data.List.Induction

/-!
This module contains partial actions of an alphabet with inverse letters, the scans of words along
them, and the entries that relators force.
-/

open List

namespace PartialAction

variable {A C : Type}

def trace (δ : A → C → Option C) : List A → C → Option C
  | [], p => some p
  | a :: w, p => (δ a p).bind (trace δ w)

def invWord (inv : A → A) (w : List A) : List A :=
  (w.map inv).reverse

def Inverse (inv : A → A) (δ : A → C → Option C) : Prop :=
  ∀ a p q, δ a p = some q → δ (inv a) q = some p

variable {inv : A → A} {δ δ' : A → C → Option C} {rels : Set (List A)}

theorem trace_append (u v : List A) (p : C)
    : trace δ (u ++ v) p = (trace δ u p).bind (trace δ v) := by
  induction u generalizing p with
  | nil => rfl
  | cons a u ih =>
    rw [cons_append]
    rw [trace]
    rw [trace]
    rw [Option.bind_assoc]
    congr 1
    funext q
    apply ih

variable {p q : C}

theorem trace_append_of_some {u : List A} (v : List A) (h : trace δ u p = some q)
    : trace δ (u ++ v) p = trace δ v q := by
  rw [trace_append]
  rw [h]
  rfl

variable {a : A}

theorem trace_cons_of_some (w : List A) (h : δ a p = some q)
    : trace δ (a :: w) p = trace δ w q := by
  rw [trace]
  rw [h]
  rfl

theorem trace_singleton (a : A) (p : C) : trace δ [a] p = δ a p := by
  unfold trace
  cases δ a p with
  | none => rfl
  | some q => rfl

variable {w : List A}

theorem mem_of_trace {dom : Set C} (hdom : ∀ a p q, δ a p = some q → q ∈ dom) (hp : p ∈ dom)
    (h : trace δ w p = some q) : q ∈ dom := by
  induction w generalizing p with
  | nil =>
    cases h
    exact hp
  | cons a w ih =>
    rw [trace, Option.bind_eq_some_iff] at h
    cases h with
    | intro r h => exact ih (hdom a p r h.1) h.2

theorem trace_cons_eq_some_iff (a : A) (w : List A) (p r : C)
    : trace δ (a :: w) p = some r ↔ ∃ q, δ a p = some q ∧ trace δ w q = some r := by
  apply Option.bind_eq_some_iff

theorem invWord_append (u v : List A)
    : invWord inv (u ++ v) = invWord inv v ++ invWord inv u := by
  unfold invWord
  simp

theorem invWord_cons (a : A) (w : List A) : invWord inv (a :: w) = invWord inv w ++ [inv a] := by
  unfold invWord
  simp

theorem invWord_invWord (hinv : Function.Involutive inv) (w : List A)
    : invWord inv (invWord inv w) = w := by
  unfold invWord
  rw [map_reverse, reverse_reverse, map_map]
  rw [hinv.comp_self]
  apply map_id

theorem trace_invWord (hδ : Inverse inv δ) (h : trace δ w p = some q)
    : trace δ (invWord inv w) q = some p := by
  induction w generalizing p with
  | nil =>
    cases h
    rfl
  | cons a w ih =>
    rw [trace_cons_eq_some_iff] at h
    rcases h with ⟨r, h⟩
    rw [invWord_cons]
    rw [trace_append_of_some _ (ih h.2)]
    rw [trace_singleton]
    exact hδ a p r h.1

theorem trace_of_invWord (hinv : Function.Involutive inv) (hδ : Inverse inv δ)
    (h : trace δ (invWord inv w) p = some q)
    : trace δ w q = some p := by
  have := trace_invWord hδ h
  rw [invWord_invWord hinv] at this
  exact this

def Extends (δ δ' : A → C → Option C) : Prop :=
  ∀ a p q, δ a p = some q → δ' a p = some q

theorem Extends.trace (h : Extends δ δ') (hw : trace δ w p = some q)
    : trace δ' w p = some q := by
  induction w generalizing p with
  | nil => exact hw
  | cons a w ih =>
    rw [trace_cons_eq_some_iff] at hw
    rcases hw with ⟨r, hw⟩
    rw [trace_cons_of_some w (h a p r hw.1)]
    exact ih hw.2

/--
The scan of a word at a point is complete and returns, or two of its letters are undefined: the
first one that is met from the left and the first one that is met from the right.
-/
inductive Closed (inv : A → A) (δ : A → C → Option C) (w : List A) (p : C) : Prop
  | complete (h : trace δ w p = some p)
  | gaps (u v x : List A) (a b : A) (q r : C) (hw : w = u ++ a :: (v ++ b :: x))
      (hu : trace δ u p = some q) (ha : δ a q = none)
      (hx : trace δ (invWord inv x) p = some r) (hb : δ (inv b) r = none)

inductive Conflict (inv : A → A) (δ : A → C → Option C) (w : List A) (p : C) : Prop
  | complete (q : C) (h : trace δ w p = some q) (hne : q ≠ p)
  | meet (u v : List A) (q r : C) (hw : w = u ++ v) (hu : trace δ u p = some q)
      (hv : trace δ (invWord inv v) p = some r) (hne : q ≠ r)

inductive Rotates (δ : A → C → Option C) : C × List A → C × List A → Prop
  | letter (a : A) (w : List A) (p q : C) (h : δ a p = some q) : Rotates δ (p, a :: w) (q, w ++ [a])

def Linked (δ : A → C → Option C) : C × List A → C × List A → Prop :=
  Relation.EqvGen (Rotates δ)

theorem Closed.rotate (hδ : Inverse inv δ) (h : δ a p = some q) (hc : Closed inv δ (a :: w) p)
    : Closed inv δ (w ++ [a]) q := by
  cases hc with
  | complete hc =>
    rw [trace_cons_of_some w h] at hc
    apply Closed.complete
    rw [trace_append_of_some _ hc]
    rw [trace_singleton]
    exact h
  | gaps u v x b b' r s hw hu hb hx hb' =>
    cases u with
    | nil =>
      cases hw
      cases hu
      rw [h] at hb
      cases hb
    | cons a' u =>
      rw [cons_append, List.cons.injEq] at hw
      rcases hw with ⟨ha, hw⟩
      subst ha hw
      rw [trace_cons_of_some u h] at hu
      apply Closed.gaps u v (x ++ [a]) b b' r s
      . simp
      . exact hu
      . exact hb
      . rw [invWord_append]
        rw [trace_append_of_some (q := p) _ (by rw [← hδ a p q h]; apply trace_singleton)]
        exact hx
      . exact hb'

section

variable (hinv : Function.Involutive inv) (hδ : Inverse inv δ)

include hinv hδ

theorem Closed.reverse (hc : Closed inv δ w p)
    : Closed inv δ (invWord inv w) p := by
  cases hc with
  | complete hc => exact Closed.complete (trace_invWord hδ hc)
  | gaps u v x a b q r hw hu ha hx hb =>
    subst hw
    apply Closed.gaps (invWord inv x) (invWord inv v)
      (invWord inv u) (inv b) (inv a) r q
    . simp [invWord_append, invWord_cons]
    . exact hx
    . exact hb
    . rw [invWord_invWord hinv]
      exact hu
    . rw [hinv a]
      exact ha

theorem Closed.unrotate (h : δ a p = some q) (hc : Closed inv δ (w ++ [a]) q)
    : Closed inv δ (a :: w) p := by
  have hc' := hc.reverse hinv hδ
  rw [invWord_append] at hc'
  have hr : Closed inv δ (invWord inv w ++ [inv a]) p :=
    Closed.rotate hδ (hδ a p q h) hc'
  have hi := hr.reverse hinv hδ
  rw [invWord_append] at hi
  rw [invWord_invWord hinv] at hi
  have ha : invWord inv [inv a] = [a] := by
    unfold invWord
    simp [hinv a]
  rw [ha] at hi
  exact hi

theorem Linked.closed_iff {s s' : C × List A} (h : Linked δ s s')
    : Closed inv δ s.2 s.1 ↔ Closed inv δ s'.2 s'.1 := by
  induction h with
  | rel s s' h =>
    cases h with
    | letter a w p q h => exact ⟨Closed.rotate hδ h, Closed.unrotate hinv hδ h⟩
  | refl s => rfl
  | symm s s' _ ih => exact ih.symm
  | trans s s' s'' _ _ ih ih' => exact ih.trans ih'

end

theorem Linked.mono (hext : Extends δ δ') {s s' : C × List A} (h : Linked δ s s')
    : Linked δ' s s' := by
  induction h with
  | rel s s' h =>
    apply Relation.EqvGen.rel
    cases h with
    | letter a w p q h => exact Rotates.letter a w p q (hext a p q h)
  | refl s => exact Relation.EqvGen.refl s
  | symm s s' _ ih => exact Relation.EqvGen.symm _ _ ih
  | trans s s' s'' _ _ ih ih' => exact Relation.EqvGen.trans _ _ _ ih ih'

theorem linked_of_trace {u : List A} (v : List A) (h : trace δ u p = some q)
    : Linked δ (p, u ++ v) (q, v ++ u) := by
  induction u generalizing v p with
  | nil =>
    cases h
    rw [append_nil]
    exact Relation.EqvGen.refl _
  | cons a u ih =>
    rw [trace_cons_eq_some_iff] at h
    rcases h with ⟨r, h⟩
    apply Relation.EqvGen.trans _ (r, (u ++ v) ++ [a])
    . exact Relation.EqvGen.rel _ _ (Rotates.letter a (u ++ v) p r h.1)
    . have := ih (v ++ [a]) h.2
      rw [← append_assoc] at this
      rw [append_assoc v] at this
      exact this

inductive Meets (inv : A → A) (δ : A → C → Option C) (a : A) (q : C) (w : List A) (p : C) : Prop
  | left (u v : List A) (hw : w = u ++ a :: v) (hu : trace δ u p = some q)
  | right (u v : List A) (hw : w = u ++ inv a :: v) (hv : trace δ (invWord inv v) p = some q)

theorem Meets.linked (hinv : Function.Involutive inv) (hδ : Inverse inv δ) {r : C}
    (har : δ a q = some r) (h : Meets inv δ a q w p)
    : ∃ u v, w = u ++ v ∧ ((∃ x, v = a :: x ∧ Linked δ (p, w) (q, v ++ u))
        ∨ (∃ x, v = inv a :: x ∧ Linked δ (p, w) (r, v ++ u))) := by
  cases h with
  | left u v hw hu =>
    subst hw
    apply Exists.intro u
    apply Exists.intro (a :: v)
    exact ⟨rfl, Or.inl ⟨v, rfl, linked_of_trace (a :: v) hu⟩⟩
  | right u v hw hv =>
    subst hw
    apply Exists.intro u
    apply Exists.intro (inv a :: v)
    have hr : trace δ (inv a :: v) r = some p := by
      rw [trace_cons_of_some v (hδ a q r har)]
      exact trace_of_invWord hinv hδ hv
    exact ⟨rfl, Or.inr ⟨v, rfl, (linked_of_trace u hr).symm⟩⟩

structure Defines (inv : A → A) (δ δ' : A → C → Option C) (a : A) (q r : C) : Prop where
  undef : δ a q = none
  undef_inv : δ (inv a) r = none
  entry : δ' a q = some r
  entry_inv : δ' (inv a) r = some q
  other : ∀ b p, δ' b p = δ b p ∨ (b = a ∧ p = q) ∨ (b = inv a ∧ p = r)

theorem Defines.symm (hinv : Function.Involutive inv) (h : Defines inv δ δ' a q r)
    : Defines inv δ δ' (inv a) r q := by
  constructor
  . exact h.undef_inv
  . rw [hinv a]
    exact h.undef
  . exact h.entry_inv
  . rw [hinv a]
    exact h.entry
  . intro b p
    rw [hinv a]
    have := h.other b p
    tauto

theorem Defines.extends (h : Defines inv δ δ' a q r) : Extends δ δ' := by
  intro b p s hs
  cases h.other b p with
  | inl heq => rw [heq, hs]
  | inr heq =>
    cases heq with
    | inl heq =>
      rw [heq.1, heq.2, h.undef] at hs
      cases hs
    | inr heq =>
      rw [heq.1, heq.2, h.undef_inv] at hs
      cases hs

theorem Defines.inverse (hinv : Function.Involutive inv) (hδ : Inverse inv δ)
    (h : Defines inv δ δ' a q r) : Inverse inv δ' := by
  intro b p s hs
  cases h.other b p with
  | inl heq =>
    rw [heq] at hs
    exact h.extends _ _ _ (hδ b p s hs)
  | inr heq =>
    cases heq with
    | inl heq =>
      rw [heq.1, heq.2, h.entry] at hs
      cases hs
      rw [heq.1, heq.2]
      exact h.entry_inv
    | inr heq =>
      rw [heq.1, heq.2, h.entry_inv] at hs
      cases hs
      rw [heq.1, heq.2, hinv a]
      exact h.entry

theorem Defines.closed_or_meets (hinv : Function.Involutive inv) (h : Defines inv δ δ' a q r)
    (hc : Closed inv δ w p)
    : Closed inv δ' w p ∨ Meets inv δ' a q w p ∨ Meets inv δ' (inv a) r w p := by
  cases hc with
  | complete hc => exact Or.inl (Closed.complete (h.extends.trace hc))
  | gaps u v x b b' s t hw hu hb hx hb' =>
    cases h.other b s with
    | inr heq =>
      right
      cases heq with
      | inl heq =>
        left
        apply Meets.left u (v ++ b' :: x)
        . rw [hw, heq.1]
        . rw [h.extends.trace hu, heq.2]
      | inr heq =>
        right
        apply Meets.left u (v ++ b' :: x)
        . rw [hw, heq.1]
        . rw [h.extends.trace hu, heq.2]
    | inl heq =>
      cases h.other (inv b') t with
      | inl heq' =>
        left
        apply Closed.gaps u v x b b' s t hw (h.extends.trace hu)
        . rw [heq, hb]
        . exact h.extends.trace hx
        . rw [heq', hb']
      | inr heq' =>
        right
        have hw' : w = (u ++ b :: v) ++ b' :: x := by
          rw [hw]
          simp
        cases heq' with
        | inl heq' =>
          left
          apply Meets.right (u ++ b :: v) x
          . rw [hw', ← heq'.1, hinv b']
          . rw [h.extends.trace hx, heq'.2]
        | inr heq' =>
          right
          apply Meets.right (u ++ b :: v) x
          . rw [hw', ← heq'.1, hinv b']
          . rw [h.extends.trace hx, heq'.2]

/--
The entries that follow from `δ` when the relators return at the points of `dom`: `δ'` stands for
entries that are already known to follow.
-/
inductive Forced (inv : A → A) (δ : A → C → Option C) (rels : Set (List A)) (dom : Set C)
    : A → C → C → Prop
  | entry (a : A) (p q : C) (h : δ a p = some q) : Forced inv δ rels dom a p q
  | inverse (a : A) (p q : C) (h : Forced inv δ rels dom a p q) : Forced inv δ rels dom (inv a) q p
  | relator (δ' : A → C → Option C) (u v : List A) (a : A) (p q r : C)
      (hδ' : ∀ b s t, δ' b s = some t → Forced inv δ rels dom b s t) (hp : p ∈ dom)
      (hw : u ++ a :: v ∈ rels) (hu : trace δ' u p = some q) (hv : trace δ' v r = some p)
      : Forced inv δ rels dom a q r

structure Completion {Ω : Type} (inv : A → A) (δ : A → C → Option C) (rels : Set (List A))
    (dom : Set C) (act : A → Ω → Ω) (point : C → Ω) : Prop where
  inverse : ∀ a x, act (inv a) (act a x) = x
  relator : ∀ w ∈ rels, ∀ x, w.foldl (fun y a => act a y) x = x
  inj : Set.InjOn point dom
  entry : ∀ a p q, δ a p = some q → act a (point p) = point q

section

variable {Ω : Type} {dom : Set C} {act : A → Ω → Ω} {point : C → Ω}

variable {w : List A} {p : C}

theorem foldl_of_trace (h : ∀ a p q, δ a p = some q → act a (point p) = point q) {q : C}
    (hw : trace δ w p = some q)
    : w.foldl (fun y a => act a y) (point p) = point q := by
  induction w generalizing p with
  | nil =>
    cases hw
    rfl
  | cons a w ih =>
    rw [trace_cons_eq_some_iff] at hw
    rcases hw with ⟨r, hw⟩
    rw [foldl_cons]
    rw [h a p r hw.1]
    exact ih hw.2

section

variable (hc : Completion inv δ rels dom act point)

include hc

theorem Completion.act_inj {a : A} {x y : Ω} (h : act a x = act a y) : x = y := by
  rw [← hc.inverse a x, h]
  apply hc.inverse

theorem Completion.foldl_inj {x y : Ω}
    (h : w.foldl (fun y a => act a y) x = w.foldl (fun y a => act a y) y) : x = y := by
  induction w generalizing x y with
  | nil => exact h
  | cons a w ih => exact hc.act_inj (ih h)

theorem Completion.forced {a : A} {q : C} (h : Forced inv δ rels dom a p q)
    : act a (point p) = point q := by
  induction h with
  | entry a p q h => exact hc.entry a p q h
  | inverse a p q _ ih =>
    rw [← ih]
    apply hc.inverse
  | relator δ' u v a p q r _ _ hw hu hv ih =>
    have hrel := hc.relator _ hw (point p)
    rw [foldl_append, foldl_cons] at hrel
    rw [foldl_of_trace ih hu] at hrel
    apply hc.foldl_inj (w := v)
    rw [hrel]
    rw [foldl_of_trace ih hv]

end

theorem Completion.not_conflict (hinv : Function.Involutive inv)
    (hc : Completion inv δ rels dom act point)
    (hforced : ∀ a p q, δ' a p = some q → Forced inv δ rels dom a p q) (hδ' : Inverse inv δ')
    (hdom : ∀ a p q, δ' a p = some q → q ∈ dom) (hw : w ∈ rels) (hp : p ∈ dom)
    : ¬ Conflict inv δ' w p := by
  have hentry : ∀ a p q, δ' a p = some q → act a (point p) = point q := by
    intro a p q h
    exact hc.forced (hforced a p q h)
  intro h
  cases h with
  | complete q h hne =>
    apply hne
    apply hc.inj (mem_of_trace hdom hp h) hp
    rw [← foldl_of_trace hentry h]
    exact hc.relator w hw (point p)
  | meet u v q r hw' hu hv hne =>
    apply hne
    apply hc.inj (mem_of_trace hdom hp hu) (mem_of_trace hdom hp hv)
    subst hw'
    have hrel := hc.relator _ hw (point p)
    rw [foldl_append] at hrel
    rw [foldl_of_trace hentry hu] at hrel
    apply hc.foldl_inj (w := v)
    rw [hrel]
    rw [foldl_of_trace hentry (trace_of_invWord hinv hδ' hv)]

end

section

variable {dom : Set C} {pending pending' : Set (C × List A)}

def Settled (inv : A → A) (δ : A → C → Option C) (rels : Set (List A)) (dom : Set C)
    (pending : Set (C × List A)) : Prop :=
  ∀ w ∈ rels, ∀ p ∈ dom, Closed inv δ w p ∨ ∃ s ∈ pending, Linked δ (p, w) s

def entryScans (inv : A → A) (rels : Set (List A)) (a : A) (q r : C) : Set (C × List A) :=
  { s | s.2 ∈ rels ∧ ((s.1 = q ∧ ∃ x, s.2 = a :: x) ∨ (s.1 = r ∧ ∃ x, s.2 = inv a :: x)) }

theorem Settled.mono (h : Settled inv δ rels dom pending) (hsub : pending ⊆ pending')
    : Settled inv δ rels dom pending' := by
  intro w hw p hp
  cases h w hw p hp with
  | inl hc => exact Or.inl hc
  | inr hs =>
    cases hs with
    | intro s hs => exact Or.inr ⟨s, hsub hs.1, hs.2⟩

variable {w : List A} {p : C}

theorem Settled.closed (h : Settled inv δ rels dom ∅) (hw : w ∈ rels) (hp : p ∈ dom)
    : Closed inv δ w p := by
  cases h w hw p hp with
  | inl hc => exact hc
  | inr hs =>
    cases hs with
    | intro s hs => cases hs.1

theorem Settled.scanned (hinv : Function.Involutive inv) (hδ : Inverse inv δ)
    (h : Settled inv δ rels dom (insert (p, w) pending)) (hc : Closed inv δ w p)
    : Settled inv δ rels dom pending := by
  intro w' hw' p' hp'
  cases h w' hw' p' hp' with
  | inl hc => exact Or.inl hc
  | inr hs =>
    rcases hs with ⟨s, hs, hl⟩
    cases hs with
    | inl heq =>
      rw [heq] at hl
      left
      exact (hl.closed_iff hinv hδ).mpr hc
    | inr hs => exact Or.inr ⟨s, hs, hl⟩

variable {u : List A}

theorem mem_of_rotation (hrot : ∀ a w, a :: w ∈ rels → w ++ [a] ∈ rels) {v : List A}
    (h : u ++ v ∈ rels) : v ++ u ∈ rels := by
  induction u generalizing v with
  | nil =>
    rw [append_nil]
    exact h
  | cons a u ih =>
    have := hrot a (u ++ v) h
    rw [append_assoc] at this
    have := ih this
    rw [append_assoc] at this
    exact this

variable {a : A} {q r : C}

section

variable (hinv : Function.Involutive inv)

include hinv

theorem exists_entryScan (hδ : Inverse inv δ) (hrot : ∀ a w, a :: w ∈ rels → w ++ [a] ∈ rels)
    (har : δ a q = some r) (hw : w ∈ rels) (h : Meets inv δ a q w p)
    : ∃ s ∈ entryScans inv rels a q r, Linked δ (p, w) s := by
  obtain ⟨u, v, huv, hv⟩ := h.linked hinv hδ har
  rw [huv] at hw
  have hmem := mem_of_rotation hrot hw
  cases hv with
  | inl hv =>
    cases hv with
    | intro x hv => exact ⟨_, ⟨hmem, Or.inl ⟨rfl, x ++ u, by rw [hv.1, cons_append]⟩⟩, hv.2⟩
  | inr hv =>
    cases hv with
    | intro x hv => exact ⟨_, ⟨hmem, Or.inr ⟨rfl, x ++ u, by rw [hv.1, cons_append]⟩⟩, hv.2⟩

theorem entryScans_inv (a : A) (q r : C)
    : entryScans inv rels (inv a) r q = entryScans inv rels a q r := by
  ext s
  unfold entryScans
  rw [Set.mem_ofPred_eq, Set.mem_ofPred_eq]
  rw [hinv a]
  rw [or_comm]

theorem Settled.define (hδ : Inverse inv δ) (hrot : ∀ a w, a :: w ∈ rels → w ++ [a] ∈ rels)
    (hdef : Defines inv δ δ' a q r) (h : Settled inv δ rels dom pending)
    : Settled inv δ' rels dom (pending ∪ entryScans inv rels a q r) := by
  have hδ' := hdef.inverse hinv hδ
  intro w hw p hp
  cases h w hw p hp with
  | inr hs =>
    right
    cases hs with
    | intro s hs => exact ⟨s, Or.inl hs.1, hs.2.mono hdef.extends⟩
  | inl hc =>
    cases hdef.closed_or_meets hinv hc with
    | inl hc => exact Or.inl hc
    | inr hm =>
      right
      cases hm with
      | inl hm =>
        obtain ⟨s, hs, hl⟩ := exists_entryScan hinv hδ' hrot hdef.entry hw hm
        exact ⟨s, Or.inr hs, hl⟩
      | inr hm =>
        obtain ⟨s, hs, hl⟩ := exists_entryScan hinv hδ' hrot hdef.entry_inv hw hm
        rw [entryScans_inv hinv] at hs
        exact ⟨s, Or.inr hs, hl⟩

end

theorem length_le_of_gap {u' x y : List A} {q' : C} (hu : trace δ u p = some q)
    (hu' : trace δ u' p = some q') (ha : δ a q' = none) (heq : u ++ x = u' ++ a :: y)
    : u.length ≤ u'.length := by
  rw [append_eq_append_iff] at heq
  cases heq with
  | inl heq =>
    obtain ⟨t, rfl, _⟩ := heq
    simp
  | inr heq =>
    obtain ⟨t, rfl, ht⟩ := heq
    cases t with
    | nil => simp
    | cons b t =>
      rw [cons_append, List.cons.injEq] at ht
      rw [trace_append_of_some _ hu'] at hu
      rw [trace_cons_eq_some_iff] at hu
      rcases hu with ⟨s, hu⟩
      rw [← ht.1, ha] at hu
      cases hu.1

theorem Closed.deduce (hδ : Inverse inv δ) {v : List A} (hu : trace δ u p = some q)
    (hv : trace δ v r = some p) (hc : Closed inv δ (u ++ a :: v) p)
    : δ a q = some r := by
  have hv' := trace_invWord hδ hv
  cases hc with
  | complete hc =>
    rw [trace_append_of_some _ hu] at hc
    rw [trace_cons_eq_some_iff] at hc
    rcases hc with ⟨s, hc⟩
    have hs := trace_invWord hδ hc.2
    rw [hv'] at hs
    cases hs
    exact hc.1
  | gaps u' v' x' b b' s t hw hu' hb hx hb' =>
    have hl := length_le_of_gap hu hu' hb hw
    have hw' : invWord inv v ++ inv a :: invWord inv u
        = invWord inv x' ++ inv b' :: (invWord inv v' ++ inv b :: invWord inv u') := by
      have := congrArg (invWord inv) hw
      simp [invWord_append, invWord_cons] at this
      exact this
    have hr := length_le_of_gap hv' hx hb' hw'
    have hlen := congrArg List.length hw
    unfold invWord at hr
    simp at hr hlen
    omega

theorem Forced.of_closed (hδ' : Inverse inv δ') (hext : Extends δ δ')
    (hc : ∀ w ∈ rels, ∀ p ∈ dom, Closed inv δ' w p) (h : Forced inv δ rels dom a p q)
    : δ' a p = some q := by
  induction h with
  | entry a p q h => exact hext a p q h
  | inverse a p q _ ih => exact hδ' a p q ih
  | relator δ'' u v a p q r _ hp hw hu hv ih =>
    apply (hc _ hw p hp).deduce hδ'
    . exact Extends.trace ih hu
    . exact Extends.trace ih hv

end

end PartialAction
