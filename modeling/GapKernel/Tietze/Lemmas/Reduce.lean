import GapKernel.StringRewriting
import GapKernel.Tietze.Impl.Words

open List

namespace LetterRep

open StringRewriting

section Search

variable {w rul : List Int}

theorem suffix_concat_iff {u v : List Int} {x y : Int}
    : u ++ [x] <:+ v ++ [y] ↔ x = y ∧ u <:+ v := by
  rw [← reverse_prefix, reverse_append, reverse_append, reverse_singleton,
    reverse_singleton, singleton_append, singleton_append,
    cons_prefix_cons, reverse_prefix]

theorem compareLoop_spec {j p : Nat} (hj : j ≤ rul.length) (hp : p ≤ w.length) (hjp : j ≤ p)
    : ∃ b q, compareLoop w rul j p = .ok (b, q) ∧ (b = true ↔ rul.take j <:+ w.take p)
      ∧ (b = true → q + j = p) := by
  induction j generalizing p with
  | zero =>
    refine ⟨true, p, rfl, iff_of_true rfl ?_, fun _ => rfl⟩
    exact nil_suffix
  | succ j ih =>
    obtain ⟨q, rfl⟩ : ∃ q, p = q + 1 := ⟨p - 1, by omega⟩
    have hw := elmPlist_of_getElem? (getElem?_eq_getElem (show q < w.length by omega))
    have hrul := elmPlist_of_getElem? (getElem?_eq_getElem (show j < rul.length by omega))
    have hiff : rul.take (j + 1) <:+ w.take (q + 1) ↔ rul[j] = w[q] ∧ rul.take j <:+ w.take q := by
      rw [← take_append_getElem (show j < rul.length by omega),
        ← take_append_getElem (show q < w.length by omega), suffix_concat_iff]
    unfold compareLoop
    rw [hw, ok_bind, hrul, ok_bind]
    split
    next heq =>
      obtain ⟨b, p', hrun, hb, hp'⟩ := ih (p := q) (by omega) (by omega) (by omega)
      refine ⟨b, p', hrun, ?_, fun h => by have := hp' h; omega⟩
      rw [hiff, hb]
      exact ⟨fun h => ⟨heq.symm, h⟩, fun h => h.2⟩
    next hne =>
      refine ⟨false, q, rfl, ?_, fun h => nomatch h⟩
      rw [hiff]
      exact iff_of_false Bool.false_ne_true fun h => hne h.1.symm

theorem findRule_spec {i : Nat} (hi : i ≤ w.length) (tzrules : List TzRule)
    : (findRule w i tzrules = .ok none ∧ ∀ rule ∈ tzrules, ¬rule.1 <:+ w.take i)
      ∨ ∃ rule p, findRule w i tzrules = .ok (some (rule, p)) ∧ rule ∈ tzrules
        ∧ rule.1 <:+ w.take i ∧ p + rule.1.length = i := by
  induction tzrules with
  | nil => exact Or.inl ⟨rfl, fun rule hrule => nomatch hrule⟩
  | cons rule tzrules ih =>
    have hskip : ¬rule.1 <:+ w.take i
        → (findRule w i tzrules = .ok none
            ∧ ∀ rule' ∈ rule :: tzrules, ¬rule'.1 <:+ w.take i)
          ∨ ∃ rule' p, findRule w i tzrules = .ok (some (rule', p)) ∧ rule' ∈ rule :: tzrules
            ∧ rule'.1 <:+ w.take i ∧ p + rule'.1.length = i := by
      intro hno
      rcases ih with ⟨hrun, hnone⟩ | ⟨rule', p, hrun, hmem, hsuffix, hp⟩
      . refine Or.inl ⟨hrun, fun rule' hrule' => ?_⟩
        cases mem_cons.mp hrule' with
        | inl heq =>
          rw [heq]
          exact hno
        | inr hmem => exact hnone rule' hmem
      . exact Or.inr ⟨rule', p, hrun, mem_cons_of_mem rule hmem, hsuffix, hp⟩
    unfold findRule
    dsimp only
    by_cases hle : rule.1.length ≤ i
    . rw [if_pos hle]
      obtain ⟨b, p, hrun, hb, hp⟩ := compareLoop_spec (Nat.le_refl rule.1.length) hi hle
      rw [take_length] at hb
      rw [hrun, ok_bind]
      dsimp only
      split
      next htrue =>
        exact Or.inr ⟨rule, p, rfl, mem_cons_self, hb.mp htrue, hp htrue⟩
      next hfalse => exact hskip fun h => hfalse (hb.mpr h)
    . rw [if_neg hle]
      apply hskip
      intro hsuffix
      have hlen := hsuffix.length_le
      rw [length_take] at hlen
      omega

end Search

section Reduce

variable {tzrules : List TzRule}

theorem replace_entries (w : LetterRep) (rul : List Int) (p i : Nat)
    : (w.replace rul p i).entries = w.entries.take p ++ rul ++ w.entries.drop i := by
  unfold replace
  dsimp only
  split
  next h => exact (length_eq_zero_iff.mp h).symm
  next => rfl

def HasTnum (tnum : PlistKTNum) (w : LetterRep) : Prop :=
  w = ⟨.empty, []⟩ ∨ w.tnum = tnum

theorem hasTnum_replace {tnum : PlistKTNum} {w : LetterRep} (h : HasTnum tnum w) (rul : List Int)
    {p i : Nat} (hi : 0 < i) (hle : i ≤ w.entries.length) : HasTnum tnum (w.replace rul p i) := by
  cases h with
  | inl h =>
    rw [h] at hle
    exact absurd hle (Nat.not_le_of_lt hi)
  | inr h =>
    unfold replace
    dsimp only
    split
    next => exact Or.inl rfl
    next => exact Or.inr h

structure IsReduct (tzrules : List TzRule) (w v : LetterRep) : Prop where
  reaches : Relation.ReflTransGen (Rewrites tzrules) w.entries v.entries
  irreducible : IsIrreducible tzrules v.entries
  hasTnum : ∀ tnum, HasTnum tnum w → HasTnum tnum v
  same : IsIrreducible tzrules w.entries → v = w

theorem replace_rewrites {w : LetterRep} {rule : TzRule} {p i : Nat} (hrule : rule ∈ tzrules)
    (hsuffix : rule.1 <:+ w.entries.take i) (hp : p + rule.1.length = i)
    (hi : i ≤ w.entries.length)
    : Rewrites tzrules w.entries (w.replace rule.2 p i).entries := by
  rw [replace_entries]
  obtain ⟨u, hu⟩ := hsuffix
  have hlen := congrArg length hu
  rw [length_append, length_take] at hlen
  have htake : w.entries.take p = u := by
    have h1 := congrArg (take p) hu
    rw [take_append_of_le_length (by omega), take_of_length_le (by omega),
      take_take, show min p i = p by omega] at h1
    exact h1.symm
  have hw : w.entries = u ++ rule.1 ++ w.entries.drop i := by
    rw [hu, take_append_drop]
  have hstep := Rewrites.step (r := rule.2) u (w.entries.drop i) hrule
  rw [← hw] at hstep
  rw [htake]
  exact hstep

theorem reduceLoop_spec (hwf : IsTerminating tzrules) (hne : ∀ rule ∈ tzrules, rule.1 ≠ [])
    (entries : List Int) (i : Nat) (w : LetterRep) (hw : w.entries = entries) (hi : 0 < i)
    (hstart : IsIrreducible tzrules (entries.take (i - 1)))
    : ∃ fuel v, (∀ fuel', fuel ≤ fuel' → reduceLoop tzrules fuel' i w = .ok v)
      ∧ IsReduct tzrules w v := by
  revert w
  have hloop := hwf.scan_induction (P := fun entries i => 0 < i
    → IsIrreducible tzrules (entries.take (i - 1)) → ∀ w : LetterRep, w.entries = entries
    → ∃ fuel v, (∀ fuel', fuel ≤ fuel' → reduceLoop tzrules fuel' i w = .ok v)
      ∧ IsReduct tzrules w v) ?_ ?_ entries i hi hstart
  . exact hloop
  . intro entries i hlt _ hstart w hw
    rw [take_of_length_le (by omega), ← hw] at hstart
    refine ⟨1, w, ?_, .refl, hstart, fun _ h => h, fun _ => rfl⟩
    intro fuel hfuel
    obtain ⟨fuel, rfl⟩ : ∃ f, fuel = f + 1 := ⟨fuel - 1, by omega⟩
    unfold reduceLoop
    rw [hw, if_neg (by omega)]
    rfl
  . intro entries i hle hnext hsteps hi hstart w hw
    subst hw
    rcases findRule_spec hle tzrules with ⟨hrun, hnone⟩ | ⟨rule, p, hrun, hmem, hsuffix, hp⟩
    . have hirr : IsIrreducible tzrules (w.entries.take (i + 1 - 1)) := by
        have htake := take_append_getElem (show i - 1 < w.entries.length by omega)
        rw [show i - 1 + 1 = i by omega] at htake
        rw [Nat.add_sub_cancel, ← htake]
        apply isIrreducible_concat hstart
        rw [htake]
        exact hnone
      obtain ⟨fuel, v, hv, hreduct⟩ := hnext (Nat.succ_pos i) hirr w rfl
      refine ⟨fuel + 1, v, ?_, hreduct⟩
      intro fuel' hfuel
      obtain ⟨fuel', rfl⟩ : ∃ f, fuel' = f + 1 := ⟨fuel' - 1, by omega⟩
      unfold reduceLoop
      rw [if_pos hle, hrun, ok_bind]
      exact hv fuel' (by omega)
    . have hrule : 0 < rule.1.length := length_pos_iff.mpr (hne rule hmem)
      have hstep := replace_rewrites hmem hsuffix hp hle
      have hirr : IsIrreducible tzrules
          ((w.replace rule.2 p i).entries.take (i - rule.1.length + 1 - 1)) := by
        rw [replace_entries, show i - rule.1.length + 1 - 1 = p by omega, append_assoc,
          take_append_of_le_length (by rw [length_take]; omega), take_take,
          Nat.min_self]
        apply hstart.of_prefix
        apply take_prefix_take_left
        omega
      obtain ⟨fuel, v, hv, hreduct⟩ := hsteps _ _ hstep (Nat.succ_pos _) hirr _ rfl
      refine ⟨fuel + 1, v, ?_, ?_, hreduct.irreducible, ?_, ?_⟩
      . intro fuel' hfuel
        obtain ⟨fuel', rfl⟩ : ∃ f, fuel' = f + 1 := ⟨fuel' - 1, by omega⟩
        unfold reduceLoop
        rw [if_pos hle, hrun, ok_bind]
        exact hv fuel' (by omega)
      . exact Relation.ReflTransGen.head hstep hreduct.reaches
      . intro tnum htnum
        exact hreduct.hasTnum tnum (hasTnum_replace htnum rule.2 hi hle)
      . intro hirreducible
        exact absurd hstep (not_rewrites_of_isIrreducible hirreducible _)

def ReducesRight (tzrules : List TzRule) (w : LetterRep) : Prop :=
  ∃ fuel v, (∀ fuel', fuel ≤ fuel' → funcReduceLetrepWordsRewSys fuel' tzrules w = .ok v)
    ∧ Relation.ReflTransGen (Rewrites tzrules) w.entries v.entries
    ∧ IsIrreducible tzrules v.entries
    ∧ (IsConfluent tzrules → ∀ u, Relation.ReflTransGen (Rewrites tzrules) w.entries u
      → IsIrreducible tzrules u → u = v.entries)
    ∧ IsTruthful v.tnum v.entries

theorem funcReduceLetrepWordsRewSys_spec (hwf : IsTerminating tzrules)
    (hne : ∀ rule ∈ tzrules, rule.1 ≠ []) (w : LetterRep)
    : ∃ fuel v, (∀ fuel', fuel ≤ fuel' → funcReduceLetrepWordsRewSys fuel' tzrules w = .ok v)
      ∧ IsReduct tzrules w v := by
  apply reduceLoop_spec hwf hne w.entries 1 w rfl Nat.one_pos
  exact isIrreducible_nil hne

theorem isTruthful_nil : IsTruthful PlistKTNum.empty ([] : List Int) :=
  isTruthful_ssort rfl List.Pairwise.nil

end Reduce

section Example

def exampleRules : List TzRule :=
  [([1, 2], []), ([2, 1], [])]

theorem isTerminating_exampleRules : IsTerminating exampleRules :=
  isTerminating_of_length (by decide)

example : funcReduceLetrepWordsRewSys 20 exampleRules ⟨.cyc, [1, 1, 2, 2, 2]⟩
    = .ok ⟨.cyc, [2]⟩ := by
  decide

end Example

end LetterRep
