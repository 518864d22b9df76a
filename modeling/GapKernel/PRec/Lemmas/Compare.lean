import GapKernel.PRec.Lemmas.Change
import GapKernel.SetOrder

open List Bool

variable {V : Type}

def eqBinding (EQ : V → V → Bool) (a b : Nat × V) : Bool :=
  a.1 == b.1 && EQ a.2 b.2

def ltBinding (LT : V → V → Bool) (ltName : Nat → Nat → Bool) (a b : Nat × V) : Bool :=
  if a.1 = b.1 then
    LT a.2 b.2
  else
    !ltName a.1 b.1

def IsNameOrder (ltName : Nat → Nat → Bool) : Prop :=
  IsStrictTotalOrder Nat (fun a b => ltName a b = true)

section

variable {EQ LT : V → V → Bool} {ltName : Nat → Nat → Bool}

theorem IsNameOrder.ltName_iff (hn : IsNameOrder ltName) {a b : Nat} (hne : a ≠ b)
    : ltName a b = false ↔ ltName b a = true := by
  unfold IsNameOrder at hn
  constructor
  . intro h
    cases trichotomous_of (fun a b => ltName a b = true) a b with
    | inl hab =>
      rw [h] at hab
      cases hab
    | inr hab =>
      cases hab with
      | inl hab => exact absurd hab hne
      | inr hab => exact hab
  . intro h
    rw [← not_eq_true]
    intro hab
    exact asymm_of (fun a b => ltName a b = true) h hab

variable {a b : Nat × V}

theorem ltBinding_of_ne (hn : IsNameOrder ltName) (hne : a.1 ≠ b.1)
    : ltBinding LT ltName a b = ltName b.1 a.1 := by
  unfold ltBinding
  rw [if_neg hne]
  cases h : ltName a.1 b.1 with
  | false =>
    rw [(hn.ltName_iff hne).mp h]
    rfl
  | true =>
    rw [(hn.ltName_iff hne.symm).mpr h]
    rfl

theorem ltBinding_of_eq (heq : a.1 = b.1)
    : ltBinding LT ltName a b = LT a.2 b.2 := by
  unfold ltBinding
  rw [if_pos heq]

theorem ltBinding_trans (ho : IsSetOrder EQ LT) (hn : IsNameOrder ltName) {x : Nat × V}
    (hab : ltBinding LT ltName a b = true) (hbx : ltBinding LT ltName b x = true)
    : ltBinding LT ltName a x = true := by
  have hname : IsStrictTotalOrder Nat (fun a b => ltName a b = true) := hn
  by_cases h1 : a.1 = b.1
  . rw [ltBinding_of_eq h1] at hab
    by_cases h2 : b.1 = x.1
    . rw [ltBinding_of_eq h2] at hbx
      rw [ltBinding_of_eq (h1.trans h2)]
      exact ho.lt_trans hab hbx
    . rw [ltBinding_of_ne hn h2] at hbx
      rw [ltBinding_of_ne hn (by rw [h1]; exact h2), h1]
      exact hbx
  . rw [ltBinding_of_ne hn h1] at hab
    by_cases h2 : b.1 = x.1
    . rw [ltBinding_of_ne hn (by rw [← h2]; exact h1), ← h2]
      exact hab
    . rw [ltBinding_of_ne hn h2] at hbx
      have hxa := trans_of (fun a b => ltName a b = true) hbx hab
      have hne : a.1 ≠ x.1 := by
        intro heq
        rw [heq] at hxa
        exact irrefl_of (fun a b => ltName a b = true) x.1 hxa
      rw [ltBinding_of_ne hn hne]
      exact hxa

theorem isSetOrder_binding (ho : IsSetOrder EQ LT) (hn : IsNameOrder ltName)
    : IsSetOrder (eqBinding EQ) (ltBinding LT ltName) := by
  have heq : ∀ a b : Nat × V, eqBinding EQ a b = true
      ↔ ltBinding LT ltName a b = false ∧ ltBinding LT ltName b a = false := by
    intro a b
    unfold eqBinding
    by_cases hab : a.1 = b.1
    . rw [ltBinding_of_eq hab, ltBinding_of_eq hab.symm]
      simp [hab, ho.eq_iff]
    . rw [ltBinding_of_ne hn hab, ltBinding_of_ne hn (Ne.symm hab)]
      have := hn.ltName_iff hab
      simp [hab]
      grind
  constructor
  . exact
      { irrefl := by
          intro a h
          rw [ltBinding_of_eq rfl, ho.lt_self] at h
          cases h
        trans := by
          intro a b x hab hbx
          exact ltBinding_trans ho hn hab hbx
        incomp_trans := by
          intro a b x hab hbx
          simp only [not_eq_true] at *
          rw [← heq] at *
          unfold eqBinding at *
          rw [and_eq_true, beq_iff_eq] at *
          exact ⟨hab.1.trans hbx.1, ho.eq_trans hab.2 hbx.2⟩ }
  . exact heq

end

namespace PRec

variable {w : IntSize} {left right : PRec V}

theorem eqComponents_spec (EQ : V → V → Bool) {l : List (Int × V)}
    : ∀ (r pl pr : List (Int × V)), left.entries = pl ++ l → right.entries = pr ++ r
      → pl.length = pr.length → l.length = r.length
      → (∀ entry ∈ l, entry.1 < 0) → (∀ entry ∈ r, entry.1 < 0)
      → left.eqComponents EQ right r.length (pl.length + 1)
        = .ok (eqLists (eqBinding EQ) (l.map (fun entry => (entry.1.natAbs, entry.2)))
            (r.map (fun entry => (entry.1.natAbs, entry.2)))) := by
  induction l with
  | nil =>
    intro r pl pr _ _ _ hlen _ _
    cases r with
    | nil => rfl
    | cons b r => cases hlen
  | cons a l ih =>
    intro r pl pr hl hr hp hlen hnegl hnegr
    cases r with
    | nil => cases hlen
    | cons b r =>
      have ha := hnegl a (by simp)
      have hb := hnegr b (by simp)
      rw [length_cons]
      unfold eqComponents
      rw [getRNam_append_cons pl l hl, ok_bind]
      rw [hp, getRNam_append_cons pr r hr, ok_bind]
      rw [map_cons, map_cons, eqLists]
      split
      . next hne =>
        have : eqBinding EQ (a.1.natAbs, a.2) (b.1.natAbs, b.2) = false := by
          unfold eqBinding
          rw [and_eq_false_iff]
          left
          rw [beq_eq_false_iff_ne]
          omega
        rw [this]
        rfl
      . next heq =>
        rw [← hp, getElm_append_cons pl l hl, ok_bind]
        rw [hp, getElm_append_cons pr r hr, ok_bind]
        have hnames : a.1 = b.1 := by
          omega
        have hbind : eqBinding EQ (a.1.natAbs, a.2) (b.1.natAbs, b.2) = EQ a.2 b.2 := by
          unfold eqBinding
          rw [hnames]
          simp
        rw [hbind]
        cases EQ a.2 b.2 with
        | false => rfl
        | true =>
          have := ih r (pl ++ [a]) (pr ++ [b]) (by rw [hl]; simp) (by rw [hr]; simp)
            (by simp [hp]) (by simpa using hlen) (fun e he => hnegl e (by simp [he]))
            (fun e he => hnegr e (by simp [he]))
          rw [length_append, length_singleton, hp] at this
          rw [Bool.true_and]
          exact this

theorem ltComponents_spec (EQ LT : V → V → Bool) (ltName : Nat → Nat → Bool)
    {r : List (Int × V)}
    : ∀ (l pl pr : List (Int × V)), left.entries = pl ++ l → right.entries = pr ++ r
      → pl.length = pr.length
      → (∀ entry ∈ l, entry.1 < 0 ∧ entry.1.natAbs < 2 ^ (w.bits - 1))
      → (∀ entry ∈ r, entry.1 < 0 ∧ entry.1.natAbs < 2 ^ (w.bits - 1))
      → left.ltComponents w EQ LT ltName right r.length (pl.length + 1)
        = .ok (ltLists (eqBinding EQ) (ltBinding LT ltName)
            (l.map (fun entry => (entry.1.natAbs, entry.2)))
            (r.map (fun entry => (entry.1.natAbs, entry.2)))) := by
  induction r with
  | nil =>
    intro l pl pr _ _ _ _ _
    cases l with
    | nil => rfl
    | cons a l => rfl
  | cons b r ih =>
    intro l pl pr hl hr hp hnegl hnegr
    have hb := hnegr b (by simp)
    rw [length_cons]
    unfold ltComponents
    cases l with
    | nil =>
      have hlen : left.len < pl.length + 1 := by
        unfold len
        rw [hl]
        simp
      rw [if_pos hlen]
      rfl
    | cons a l =>
      have ha := hnegl a (by simp)
      have hlen : ¬ left.len < pl.length + 1 := by
        unfold len
        rw [hl]
        simp
      rw [if_neg hlen]
      rw [getRNam_append_cons pl l hl, ok_bind]
      rw [hp, getRNam_append_cons pr r hr, ok_bind]
      rw [map_cons, map_cons, ltLists]
      have hua : w.asUInt (-a.1) = a.1.natAbs := by
        rw [IntSize.asUInt_of_nonneg (by omega) (by rw [Int.natAbs_neg]; exact ha.2)]
        rw [Int.natAbs_neg]
      have hub : w.asUInt (-b.1) = b.1.natAbs := by
        rw [IntSize.asUInt_of_nonneg (by omega) (by rw [Int.natAbs_neg]; exact hb.2)]
        rw [Int.natAbs_neg]
      split
      . next hne =>
        have hnames : a.1.natAbs ≠ b.1.natAbs := by
          omega
        have : eqBinding EQ (a.1.natAbs, a.2) (b.1.natAbs, b.2) = false := by
          unfold eqBinding
          simp [hnames]
        rw [this]
        unfold ltBinding
        rw [hua, hub]
        simp [hnames]
        rfl
      . next heq =>
        rw [← hp, getElm_append_cons pl l hl, ok_bind]
        rw [hp, getElm_append_cons pr r hr, ok_bind]
        have hnames : a.1 = b.1 := by
          omega
        have hbind : eqBinding EQ (a.1.natAbs, a.2) (b.1.natAbs, b.2) = EQ a.2 b.2 := by
          unfold eqBinding
          rw [hnames]
          simp
        rw [hbind]
        cases EQ a.2 b.2 with
        | false =>
          unfold ltBinding
          simp [hnames]
          rfl
        | true =>
          have := ih l (pl ++ [a]) (pr ++ [b]) (by rw [hl]; simp) (by rw [hr]; simp)
            (by simp [hp]) (fun e he => hnegl e (by simp [he]))
            (fun e he => hnegr e (by simp [he]))
          rw [length_append, length_singleton, hp] at this
          simpa using this

end PRec
