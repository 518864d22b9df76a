import Mathlib.Data.List.Forall2

/-!
This module contains the theory of sets that are strictly sorted lists, and of the lexicographic
order of lists, for a comparison that decides a total order up to an equality.
-/

open List Bool

variable {E : Type}

/-- The tests `eq` and `lt` are those of one total order on the classes of equal elements. -/
structure IsSetOrder (eq lt : E → E → Bool) : Prop where
  order : IsStrictWeakOrder E (fun a b => lt a b = true)
  eq_iff : ∀ a b, eq a b = true ↔ lt a b = false ∧ lt b a = false

def memSet (eq : E → E → Bool) (x : E) (l : List E) : Bool :=
  l.any (eq x)

def StrictlySorted (lt : E → E → Bool) (l : List E) : Prop :=
  l.Pairwise (fun a b => lt a b = true)

def inter (eq : E → E → Bool) (l r : List E) : List E :=
  l.filter (fun x => memSet eq x r)

def diff (eq : E → E → Bool) (l r : List E) : List E :=
  l.filter (fun x => !memSet eq x r)

namespace IsSetOrder

variable {eq lt : E → E → Bool} (ho : IsSetOrder eq lt)

include ho

theorem lt_self (a : E) : lt a a = false := by
  have := ho.order
  rw [← not_eq_true]
  exact irrefl_of (fun a b => lt a b = true) a

variable {a b x : E}

theorem lt_trans (hab : lt a b = true) (hbx : lt b x = true) : lt a x = true := by
  have := ho.order
  exact trans_of (fun a b => lt a b = true) hab hbx

theorem lt_asymm (hab : lt a b = true) : lt b a = false := by
  rw [← not_eq_true]
  intro hba
  have := ho.lt_trans hab hba
  rw [ho.lt_self] at this
  cases this

theorem eq_self (a : E) : eq a a = true := by
  rw [ho.eq_iff]
  exact ⟨ho.lt_self a, ho.lt_self a⟩

theorem eq_comm (a b : E) : eq a b = eq b a := by
  rw [Bool.eq_iff_iff, ho.eq_iff, ho.eq_iff, And.comm]

theorem eq_trans (hab : eq a b = true) (hbx : eq b x = true) : eq a x = true := by
  have := ho.order
  rw [ho.eq_iff] at *
  simp only [← not_eq_true] at *
  exact this.incomp_trans a b x hab hbx

theorem eq_of_lt (hab : lt a b = true) : eq a b = false := by
  rw [← not_eq_true, ho.eq_iff]
  intro h
  rw [hab] at h
  cases h.1

theorem eq_of_gt (hab : lt a b = true) : eq b a = false := by
  rw [ho.eq_comm]
  exact ho.eq_of_lt hab

theorem lt_of_not_eq (heq : eq a b = false) (hlt : lt a b = false) : lt b a = true := by
  by_contra hba
  rw [not_eq_true] at hba
  rw [(ho.eq_iff a b).mpr ⟨hlt, hba⟩] at heq
  cases heq

theorem lt_of_eq_of_lt (hab : eq a b = true) (hbx : lt b x = true)
    : lt a x = true := by
  by_contra hax
  rw [not_eq_true] at hax
  by_cases hxa : lt x a = true
  . have := ho.lt_trans hbx hxa
    rw [((ho.eq_iff a b).mp hab).2] at this
    cases this
  . have heq : eq a x = true := by
      rw [ho.eq_iff]
      exact ⟨hax, by simpa using hxa⟩
    rw [ho.eq_comm] at hab
    have := ho.eq_trans hab heq
    rw [ho.eq_of_lt hbx] at this
    cases this

theorem lt_of_lt_of_eq (hab : lt a b = true) (hbx : eq b x = true)
    : lt a x = true := by
  by_contra hax
  rw [not_eq_true] at hax
  by_cases hxa : lt x a = true
  . have := ho.lt_trans hxa hab
    rw [((ho.eq_iff b x).mp hbx).2] at this
    cases this
  . have heq : eq x a = true := by
      rw [ho.eq_iff]
      exact ⟨by simpa using hxa, hax⟩
    have := ho.eq_trans hbx heq
    rw [ho.eq_of_gt hab] at this
    cases this

theorem lt_of_not_lt_of_lt (hab : lt b a = false) (hbx : lt b x = true)
    : lt a x = true := by
  by_cases hlt : lt a b = true
  . exact ho.lt_trans hlt hbx
  . apply ho.lt_of_eq_of_lt ?_ hbx
    rw [ho.eq_iff]
    exact ⟨by simpa using hlt, hab⟩

theorem memSet_congr {y : E} (hxy : eq x y = true) (l : List E)
    : memSet eq x l = memSet eq y l := by
  unfold memSet
  rw [Bool.eq_iff_iff, any_eq_true, any_eq_true]
  constructor
  . rintro ⟨a, hmem, hxa⟩
    rw [ho.eq_comm] at hxy
    exact ⟨a, hmem, ho.eq_trans hxy hxa⟩
  . rintro ⟨a, hmem, hya⟩
    exact ⟨a, hmem, ho.eq_trans hxy hya⟩

theorem memSet_of_mem {l : List E} (h : x ∈ l) : memSet eq x l = true := by
  unfold memSet
  rw [any_eq_true]
  exact ⟨x, h, ho.eq_self x⟩

end IsSetOrder

section

variable {eq lt : E → E → Bool}

@[simp]
theorem memSet_cons (x y : E) (l : List E) : memSet eq x (y :: l) = (eq x y || memSet eq x l) :=
  rfl

@[simp]
theorem memSet_append (x : E) (l r : List E)
    : memSet eq x (l ++ r) = (memSet eq x l || memSet eq x r) := by
  unfold memSet
  rw [any_append]

variable {l : List E}

theorem memSet_eq_false {x : E} (h : ∀ y ∈ l, eq x y = false)
    : memSet eq x l = false := by
  unfold memSet
  rw [any_eq_false]
  intro y hy
  rw [h y hy]
  simp

theorem memSet_filter (p : E → Bool) (hp : ∀ a b, eq a b = true → p a = p b) (x : E) (l : List E)
    : memSet eq x (l.filter p) = (memSet eq x l && p x) := by
  induction l with
  | nil => rfl
  | cons y l ih =>
    rw [filter_cons]
    by_cases hxy : eq x y = true
    . have := hp x y hxy
      split
      . next hpy => simp [hxy, this, hpy]
      . next hpy => simp [ih, this, hpy]
    . split
      . simp [ih, hxy]
      . simp [ih, hxy]

theorem inter_cons (a : E) (l r : List E)
    : inter eq (a :: l) r = if memSet eq a r then a :: inter eq l r else inter eq l r := by
  unfold inter
  rw [filter_cons]

variable {r : List E}

theorem inter_congr {s : List E} (h : ∀ x ∈ l, memSet eq x r = memSet eq x s)
    : inter eq l r = inter eq l s :=
  filter_congr h

theorem inter_nil_right (l : List E) : inter eq l [] = [] := by
  simp [inter, memSet]

theorem diff_cons (a : E) (l r : List E)
    : diff eq (a :: l) r = if memSet eq a r then diff eq l r else a :: diff eq l r := by
  unfold diff
  rw [filter_cons]
  cases memSet eq a r with
  | true => rfl
  | false => rfl

theorem diff_congr {s : List E} (h : ∀ x ∈ l, memSet eq x r = memSet eq x s)
    : diff eq l r = diff eq l s := by
  apply filter_congr
  intro x hx
  rw [h x hx]

theorem diff_nil_right (l : List E) : diff eq l [] = l := by
  simp [diff, memSet]

theorem StrictlySorted.append_iff
    : StrictlySorted lt (l ++ r) ↔
        StrictlySorted lt l ∧ StrictlySorted lt r ∧ ∀ a ∈ l, ∀ b ∈ r, lt a b = true := by
  unfold StrictlySorted
  rw [pairwise_append]

theorem StrictlySorted.cons_iff {x : E}
    : StrictlySorted lt (x :: l) ↔ (∀ a ∈ l, lt x a = true) ∧ StrictlySorted lt l := by
  unfold StrictlySorted
  rw [pairwise_cons]

theorem StrictlySorted.filter (hl : StrictlySorted lt l) (p : E → Bool)
    : StrictlySorted lt (l.filter p) :=
  List.Pairwise.filter p hl

end

namespace IsSetOrder

variable {eq lt : E → E → Bool} (ho : IsSetOrder eq lt)

include ho

variable {x : E} {l : List E}

theorem memSet_of_gt (h : ∀ y ∈ l, lt x y = true)
    : memSet eq x l = false :=
  memSet_eq_false (fun y hy => ho.eq_of_lt (h y hy))

theorem memSet_of_lt (h : ∀ y ∈ l, lt y x = true)
    : memSet eq x l = false :=
  memSet_eq_false (fun y hy => ho.eq_of_gt (h y hy))

theorem memSet_inter (x : E) (l r : List E)
    : memSet eq x (inter eq l r) = (memSet eq x l && memSet eq x r) := by
  apply memSet_filter (fun y => memSet eq y r)
  intro a b hab
  rw [ho.memSet_congr hab r]

theorem memSet_diff (x : E) (l r : List E)
    : memSet eq x (diff eq l r) = (memSet eq x l && !memSet eq x r) := by
  apply memSet_filter (fun y => !memSet eq y r)
  intro a b hab
  rw [ho.memSet_congr hab r]

theorem inter_self (l : List E) : inter eq l l = l := by
  unfold inter
  rw [filter_eq_self]
  intro x hx
  exact ho.memSet_of_mem hx

theorem diff_self (l : List E) : diff eq l l = [] := by
  unfold diff
  rw [filter_eq_nil_iff]
  intro x hx
  simp [ho.memSet_of_mem hx]

theorem memSet_tail {a b : E} (hl : StrictlySorted lt (a :: l)) (hba : lt a b = false) (hx : x ∈ l)
    (r : List E)
    : memSet eq x (b :: r) = memSet eq x r := by
  rw [memSet_cons, ho.eq_of_gt, Bool.false_or]
  exact ho.lt_of_not_lt_of_lt hba ((StrictlySorted.cons_iff.mp hl).1 x hx)

theorem lt_of_memSet {a : E} (hsorted : StrictlySorted lt (a :: l)) (hmem : memSet eq x l = true)
    : lt a x = true := by
  unfold memSet at hmem
  rw [any_eq_true] at hmem
  obtain ⟨y, hy, hxy⟩ := hmem
  rw [ho.eq_comm] at hxy
  exact ho.lt_of_lt_of_eq ((StrictlySorted.cons_iff.mp hsorted).1 y hy) hxy

variable {r : List E} (hl : StrictlySorted lt l) (hr : StrictlySorted lt r)

include hl hr

theorem length_le_of_subset (hsub : ∀ x ∈ l, memSet eq x r = true) : l.length ≤ r.length := by
  induction r generalizing l with
  | nil =>
    cases l with
    | nil => simp
    | cons x l =>
      have := hsub x mem_cons_self
      cases this
  | cons b r ih =>
    have hr' := (StrictlySorted.cons_iff.mp hr).2
    -- Of the elements of `l` only the first one can be `b`.
    have hrest : ∀ l' : List E, StrictlySorted lt l' → (∀ x ∈ l', memSet eq x (b :: r) = true)
        → (∀ x ∈ l', lt b x = true) → l'.length ≤ r.length := by
      intro l' hl' hsub' hlt
      apply ih hl' hr'
      intro x hx
      have := hsub' x hx
      rw [memSet_cons, ho.eq_of_gt (hlt x hx), Bool.false_or] at this
      exact this
    cases l with
    | nil => simp
    | cons a l =>
      have hl' := StrictlySorted.cons_iff.mp hl
      have ha := hsub a mem_cons_self
      rw [memSet_cons, or_eq_true] at ha
      rcases ha with ha | ha
      . have := hrest l hl'.2 (fun x hx => hsub x (mem_cons_of_mem _ hx)) (by
          intro x hx
          rw [ho.eq_comm] at ha
          exact ho.lt_of_eq_of_lt ha (hl'.1 x hx))
        simp only [length_cons]
        omega
      . have hba := ho.lt_of_memSet hr ha
        have := hrest (a :: l) hl hsub (by
          intro x hx
          rcases mem_cons.mp hx with rfl | hx
          . exact hba
          . exact ho.lt_trans hba (hl'.1 x hx))
        simp only [length_cons] at *
        omega

theorem forall₂_of_memSet (hmem : ∀ x, memSet eq x l = memSet eq x r)
    : Forall₂ (fun a b => eq a b = true) l r := by
  induction l generalizing r with
  | nil =>
    cases r with
    | nil => exact List.Forall₂.nil
    | cons b r =>
      have := hmem b
      simp [ho.eq_self, memSet] at this
  | cons a l ih =>
    cases r with
    | nil =>
      have := hmem a
      simp [ho.eq_self, memSet] at this
    | cons b r =>
      have hab : eq a b = true := by
        have ha := hmem a
        have hb := hmem b
        rw [memSet_cons, memSet_cons, ho.eq_self, Bool.true_or] at ha
        rw [memSet_cons, memSet_cons, ho.eq_self, Bool.true_or] at hb
        by_contra hne
        rw [not_eq_true] at hne
        rw [hne, Bool.false_or] at ha
        rw [ho.eq_comm, hne, Bool.false_or] at hb
        have hlt := ho.lt_of_memSet hl hb
        rw [ho.lt_asymm (ho.lt_of_memSet hr ha.symm)] at hlt
        cases hlt
      rw [forall₂_cons]
      apply And.intro hab
      apply ih (StrictlySorted.cons_iff.mp hl).2 (StrictlySorted.cons_iff.mp hr).2
      intro x
      have hx := hmem x
      rw [memSet_cons, memSet_cons] at hx
      by_cases hxa : eq x a = true
      . have hl' : memSet eq x l = false := by
          rw [ho.memSet_congr hxa]
          exact ho.memSet_of_gt (StrictlySorted.cons_iff.mp hl).1
        have hr' : memSet eq x r = false := by
          rw [ho.memSet_congr (ho.eq_trans hxa hab)]
          exact ho.memSet_of_gt (StrictlySorted.cons_iff.mp hr).1
        rw [hl', hr']
      . have hxb : eq x b = false := by
          rw [← not_eq_true]
          intro hxb
          rw [ho.eq_comm] at hab
          exact hxa (ho.eq_trans hxb hab)
        rw [not_eq_true] at hxa
        rw [hxa, hxb, Bool.false_or, Bool.false_or] at hx
        exact hx

end IsSetOrder

section

def eqLists (eq : E → E → Bool) : List E → List E → Bool
  | [], [] => true
  | a :: l, b :: r => eq a b && eqLists eq l r
  | _, _ => false

def ltLists (eq lt : E → E → Bool) : List E → List E → Bool
  | [], [] => false
  | [], _ :: _ => true
  | _ :: _, [] => false
  | a :: l, b :: r => if eq a b then ltLists eq lt l r else lt a b

variable {eq lt : E → E → Bool}

variable {l r : List E}

theorem eqLists_iff
    : eqLists eq l r = true ↔ Forall₂ (fun a b => eq a b = true) l r := by
  induction l generalizing r with
  | nil =>
    cases r with
    | nil => simp [eqLists]
    | cons b r => simp [eqLists]
  | cons a l ih =>
    cases r with
    | nil => simp [eqLists]
    | cons b r =>
      rw [forall₂_cons, ← ih]
      simp [eqLists]

theorem ltLists_of_eq {a b : E} (h : eq a b = true)
    : ltLists eq lt (a :: l) (b :: r) = ltLists eq lt l r := by
  rw [ltLists]
  rw [if_pos h]

theorem ltLists_of_ne {a b : E} (h : eq a b = false)
    : ltLists eq lt (a :: l) (b :: r) = lt a b := by
  rw [ltLists]
  rw [h]
  rfl

namespace IsSetOrder

variable (ho : IsSetOrder eq lt)

include ho

variable {l r : List E}

theorem eqLists_iff_not_ltLists
    : eqLists eq l r = true ↔ ltLists eq lt l r = false ∧ ltLists eq lt r l = false := by
  induction l generalizing r with
  | nil =>
    cases r with
    | nil => simp [eqLists, ltLists]
    | cons b r => simp [eqLists, ltLists]
  | cons a l ih =>
    cases r with
    | nil => simp [eqLists, ltLists]
    | cons b r =>
      rw [eqLists]
      cases hab : eq a b with
      | true =>
        have hba : eq b a = true := by
          rw [ho.eq_comm]
          exact hab
        rw [ltLists_of_eq hab, ltLists_of_eq hba]
        rw [Bool.true_and]
        exact ih
      | false =>
        have hba : eq b a = false := by
          rw [ho.eq_comm]
          exact hab
        rw [ltLists_of_ne hab, ltLists_of_ne hba]
        rw [Bool.false_and]
        have := ho.eq_iff a b
        rw [hab] at this
        simpa using this

theorem ltLists_trans {s : List E} (hlr : ltLists eq lt l r = true) (hrs : ltLists eq lt r s = true)
    : ltLists eq lt l s = true := by
  induction l generalizing r s with
  | nil =>
    cases r with
    | nil => cases hlr
    | cons b r =>
      cases s with
      | nil => cases hrs
      | cons x s => rfl
  | cons a l ih =>
    cases r with
    | nil => cases hlr
    | cons b r =>
      cases s with
      | nil => cases hrs
      | cons x s =>
        cases hab : eq a b with
        | true =>
          rw [ltLists_of_eq hab] at hlr
          cases hbx : eq b x with
          | true =>
            rw [ltLists_of_eq hbx] at hrs
            rw [ltLists_of_eq (ho.eq_trans hab hbx)]
            exact ih hlr hrs
          | false =>
            rw [ltLists_of_ne hbx] at hrs
            have hax := ho.lt_of_eq_of_lt hab hrs
            rw [ltLists_of_ne (ho.eq_of_lt hax)]
            exact hax
        | false =>
          rw [ltLists_of_ne hab] at hlr
          cases hbx : eq b x with
          | true =>
            have hax := ho.lt_of_lt_of_eq hlr hbx
            rw [ltLists_of_ne (ho.eq_of_lt hax)]
            exact hax
          | false =>
            rw [ltLists_of_ne hbx] at hrs
            have hax := ho.lt_trans hlr hrs
            rw [ltLists_of_ne (ho.eq_of_lt hax)]
            exact hax

theorem eqLists_trans {s : List E} (hlr : eqLists eq l r = true) (hrs : eqLists eq r s = true)
    : eqLists eq l s = true := by
  rw [eqLists_iff] at *
  induction hlr generalizing s with
  | nil => exact hrs
  | cons hab _ ih =>
    cases hrs with
    | cons hbx hrs => exact List.Forall₂.cons (ho.eq_trans hab hbx) (ih hrs)

theorem lists : IsSetOrder (eqLists eq) (ltLists eq lt) where
  order :=
    { irrefl := by
        intro l h
        have hl : eqLists eq l l = true := by
          rw [eqLists_iff]
          exact forall₂_same.mpr (fun a _ => ho.eq_self a)
        rw [ho.eqLists_iff_not_ltLists] at hl
        rw [hl.1] at h
        cases h
      trans := fun l r s => ho.ltLists_trans
      incomp_trans := by
        intro l r s hlr hrs
        simp only [not_eq_true] at *
        rw [← ho.eqLists_iff_not_ltLists] at *
        exact ho.eqLists_trans hlr hrs }
  eq_iff := fun l r => ho.eqLists_iff_not_ltLists

end IsSetOrder

end
