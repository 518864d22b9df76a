import GapKernel.CosetTable.Impl
import GapKernel.CyclicWord
import GapKernel.PermList
import Mathlib.Data.List.GetD

open CyclicWord LastRotation List Nat

namespace CosetTable

structure Holds (ptRel : List Int) (u : List Int) : Prop where
  length_le : u.length ≤ ptRel.length
  getD_eq : ∀ t (ht : t < u.length), ptRel.getD t 0 = u[t]

section Compare

variable {ptRel u : List Int} {leng : Nat}

def cycleWord (f : Int → Int) (ptRel : List Int) (leng step : Nat) : (n p : Nat) → List Int
  | 0, _ => []
  | n + 1, p => f (ptRel.getD p 0) :: cycleWord f ptRel leng step n ((p + step) % leng)

theorem compareWords_spec {cmp : Int → Int → Ordering} {f g : Int → Int}
    (hcmp : ∀ x y, (cmp x y).Compares (f x) (g y)) (hlen : leng ≤ ptRel.length) (hpos : 0 < leng)
    {stepI stepK n ii kk : Nat} (hii : ii < leng) (hkk : kk < leng)
    : ∃ o, compareWords cmp ptRel leng stepI stepK n ii kk = .ok o
        ∧ o.Compares (cycleWord f ptRel leng stepK n kk) (cycleWord g ptRel leng stepI n ii) := by
  induction n generalizing ii kk with
  | zero => exact ⟨.eq, rfl, rfl⟩
  | succ n ih =>
    have hhead := hcmp (ptRel.getD kk 0) (ptRel.getD ii 0)
    unfold compareWords cycleWord
    rw [readAt_of_lt (by omega) 0, ok_bind, readAt_of_lt (by omega) 0, ok_bind]
    cases h : cmp (ptRel.getD kk 0) (ptRel.getD ii 0) with
    | lt =>
      rw [h] at hhead
      exact ⟨.lt, rfl, compares_head hhead (by decide) _ _⟩
    | gt =>
      rw [h] at hhead
      exact ⟨.gt, rfl, compares_head hhead (by decide) _ _⟩
    | eq =>
      rw [h] at hhead
      obtain ⟨o, hrun, ho⟩ := ih (mod_lt (ii + stepI) hpos) (mod_lt (kk + stepK) hpos)
      refine ⟨o, hrun, ?_⟩
      rw [show f (ptRel.getD kk 0) = g (ptRel.getD ii 0) from hhead]
      exact compares_cons _ ho

theorem length_cycleWord (f : Int → Int) (step n p : Nat)
    : (cycleWord f ptRel leng step n p).length = n := by
  induction n generalizing p with
  | zero => rfl
  | succ n ih => exact congrArg (· + 1) (ih _)

theorem getElem_cycleWord {f : Int → Int} {step n p l : Nat} (hp : p < leng)
    (hl : l < (cycleWord f ptRel leng step n p).length)
    : (cycleWord f ptRel leng step n p)[l] = f (ptRel.getD ((p + l * step) % leng) 0) := by
  induction n generalizing p l with
  | zero => exact absurd hl (Nat.not_lt_zero l)
  | succ n ih =>
    cases l with
    | zero =>
      show f (ptRel.getD p 0) = _
      rw [Nat.zero_mul, Nat.add_zero, mod_eq_of_lt hp]
    | succ l =>
      have hl' : l < (cycleWord f ptRel leng step n ((p + step) % leng)).length :=
        lt_of_succ_lt_succ hl
      have hrest := ih (mod_lt (p + step) (by omega)) hl'
      rw [mod_add_mod, show p + step + l * step = p + (l + 1) * step by ring] at hrest
      exact hrest

theorem cycleWord_forward (h : Holds ptRel u) {i : Nat} (hi : i < u.length)
    : cycleWord id ptRel u.length 1 u.length i = u.rotate i := by
  apply ext_getElem
  . rw [length_cycleWord, length_rotate]
  . intro l h1 h2
    have hlt := mod_lt (l + i) (show 0 < u.length by omega)
    rw [getElem_cycleWord hi, getElem_rotate, Nat.mul_one, Nat.add_comm i l]
    exact h.getD_eq _ hlt

theorem mod_add_mod_eq {n a b m : Nat} (hn : 0 < n) (h : a + b = m * n + (n - 1))
    : a % n + b % n = n - 1 := by
  have ha := mod_lt a hn
  have hb := mod_lt b hn
  have hmod : (a % n + b % n) % n = n - 1 := by
    rw [← add_mod, h, Nat.add_comm, add_mul_mod_self_right]
    exact mod_eq_of_lt (by omega)
  by_cases hlt : a % n + b % n < n
  . rw [mod_eq_of_lt hlt] at hmod
    exact hmod
  . rw [mod_eq_sub_mod (Nat.le_of_not_lt hlt), mod_eq_of_lt (by omega)] at hmod
    omega

theorem getElem_invWord {n : Nat} (hn : n < (invWord Neg.neg u).length)
    (hu : u.length - 1 - n < u.length) : (invWord Neg.neg u)[n] = -u[u.length - 1 - n] := by
  simp [invWord]

theorem cycleWord_backward (h : Holds ptRel u) {j : Nat} (hj : j < u.length)
    : cycleWord Neg.neg ptRel u.length (u.length - 1) u.length j
        = (invWord Neg.neg u).rotate (u.length - 1 - j) := by
  apply ext_getElem
  . rw [length_cycleWord, length_rotate, length_invWord]
  . intro l h1 h2
    have hpos : 0 < u.length := by
      omega
    have hlt := mod_lt (j + l * (u.length - 1)) hpos
    have hsum : (j + l * (u.length - 1)) + (l + (u.length - 1 - j))
        = l * u.length + (u.length - 1) := by
      have hmul : l * u.length = l * (u.length - 1) + l := by
        rw [← mul_succ, succ_eq_add_one, Nat.sub_add_cancel hpos]
      omega
    have hmod := mod_add_mod_eq hpos hsum
    rw [getElem_cycleWord hj, getElem_rotate]
    simp only [length_invWord]
    rw [getElem_invWord (by rw [length_invWord]; exact mod_lt _ hpos) (by omega),
      h.getD_eq _ hlt]
    congr 2
    omega

end Compare

section Search

variable {ptRel u v : List Int} {pos : Nat → Nat} {cmpAt : Nat → Nat → Result Ordering}
  {c len : Nat}

def ComparesAt (cmpAt : Nat → Nat → Result Ordering) (pos : Nat → Nat) (v : List Int) (c len : Nat)
    : Prop :=
  ∀ s t, s ≤ len → t ≤ len → ∃ o, cmpAt (pos s) (pos t) = .ok o
    ∧ o.Compares (v.rotate (c + t)) (v.rotate (c + s))

theorem searchLast_from (hcmp : ComparesAt cmpAt pos v c len) {n k r : Nat} (hn : k + n = len + 1)
    (hr : r < k) (hbest : ∀ t, t < k → v.rotate (c + t) ≤ v.rotate (c + r))
    : ∃ r', r' ≤ len ∧ searchLast cmpAt ((range' k n).map pos) (pos r) = .ok (pos r')
        ∧ ∀ t, t ≤ len → v.rotate (c + t) ≤ v.rotate (c + r') := by
  induction n generalizing k r with
  | zero => exact ⟨r, by omega, rfl, fun t ht => hbest t (by omega)⟩
  | succ n ih =>
    obtain ⟨o, hrun, ho⟩ := hcmp r k (by omega) (by omega)
    rw [range'_succ, map_cons]
    unfold searchLast
    rw [hrun, ok_bind]
    have hbest' {r' : Nat} (hr' : v.rotate (c + r) ≤ v.rotate (c + r'))
        (hk : v.rotate (c + k) ≤ v.rotate (c + r')) (t : Nat) (ht : t < k + 1)
        : v.rotate (c + t) ≤ v.rotate (c + r') := by
      rcases Nat.lt_succ_iff_lt_or_eq.mp ht with hlt | rfl
      . exact le_trans (hbest t hlt) hr'
      . exact hk
    cases o with
    | lt => exact ih (by omega) (by omega) (hbest' (le_refl _) (le_of_lt ho))
    | gt => exact ih (by omega) (by omega) (hbest' (le_of_lt ho) (le_refl _))
    | eq => exact ⟨r, by omega, rfl, fun t _ => le_of_period hr hbest ho t⟩

theorem searchLast_spec (hcmp : ComparesAt cmpAt pos v c len)
    : ∃ r, r ≤ len ∧ searchLast cmpAt ((range' 1 len).map pos) (pos 0) = .ok (pos r)
        ∧ ∀ t, t ≤ len → v.rotate (c + t) ≤ v.rotate (c + r) := by
  apply searchLast_from hcmp (Nat.add_comm 1 len) (lt_succ_self 0)
  intro t ht
  rw [Nat.lt_one_iff.mp ht]

theorem compares_ints (x y : Int) : (compare x y).Compares x y := by
  cases h : compare x y with
  | lt => exact Int.compare_eq_lt.mp h
  | eq => exact Int.compare_eq_eq.mp h
  | gt => exact Int.compare_eq_gt.mp h

theorem compares_neg (x y : Int) : (compare y x).Compares (-x) (-y) := by
  cases h : compare y x with
  | lt => exact Int.neg_lt_neg (Int.compare_eq_lt.mp h)
  | eq => exact congrArg Neg.neg (Int.compare_eq_eq.mp h).symm
  | gt => exact Int.neg_lt_neg (Int.compare_eq_gt.mp h)

structure IsExtrema (ptRel : List Int) (k : Nat) (s : Extrema) : Prop where
  i_lt : s.i < k
  j_lt : s.j < k
  max_eq : ptRel.getD s.i 0 = s.max
  min_eq : ptRel.getD s.j 0 = s.min
  le_max : ∀ t, t < k → ptRel.getD t 0 ≤ s.max
  min_le : ∀ t, t < k → s.min ≤ ptRel.getD t 0
  lt_max : ∀ t, t < s.i → ptRel.getD t 0 < s.max
  min_lt : ∀ t, s.j < t → t < k → s.min < ptRel.getD t 0

theorem findExtrema_spec {leng : Nat} (hpos : 0 < leng) (hlen : leng ≤ ptRel.length)
    : ∃ s, findExtrema ptRel leng = .ok s ∧ IsExtrema ptRel leng s := by
  unfold findExtrema
  rw [readAt_of_lt (by omega) 0, ok_bind]
  apply forLoop_of_inv (fun k s => IsExtrema ptRel k s)
  . refine ⟨Nat.zero_lt_one, Nat.zero_lt_one, rfl, rfl, ?_, ?_, ?_, ?_⟩
    . intro t ht
      rw [Nat.lt_one_iff.mp ht]
    . intro t ht
      rw [Nat.lt_one_iff.mp ht]
    . exact fun t ht => absurd ht (Nat.not_lt_zero t)
    . exact fun t h0 h1 => absurd h1 (Nat.not_lt.mpr h0)
  . intro k s hk1 hk hs
    have hmm := Int.le_trans (hs.min_le 0 hk1) (hs.le_max 0 hk1)
    have hi := hs.i_lt
    have hj := hs.j_lt
    rw [readAt_of_lt (by omega) 0, ok_bind]
    split
    . next hgt =>
      refine ⟨_, rfl, lt_succ_self k, lt_succ_of_lt hj, rfl, hs.min_eq,
        Nat.forall_lt_succ_right.mpr ⟨?_, Int.le_refl _⟩,
        Nat.forall_lt_succ_right.mpr ⟨hs.min_le, Int.le_trans hmm (Int.le_of_lt hgt)⟩, ?_, ?_⟩
      . exact fun t ht => Int.le_trans (hs.le_max t ht) (Int.le_of_lt hgt)
      . exact fun t ht => Int.lt_of_le_of_lt (hs.le_max t ht) hgt
      . intro t hjt ht
        rcases Nat.lt_succ_iff_lt_or_eq.mp ht with hlt | rfl
        . exact hs.min_lt t hjt hlt
        . exact Int.lt_of_le_of_lt hmm hgt
    . next hle =>
      split
      . next hmin =>
        refine ⟨_, rfl, lt_succ_of_lt hi, lt_succ_self k, hs.max_eq, rfl,
          Nat.forall_lt_succ_right.mpr ⟨hs.le_max, Int.not_lt.mp hle⟩,
          Nat.forall_lt_succ_right.mpr ⟨?_, Int.le_refl _⟩, hs.lt_max, ?_⟩
        . exact fun t ht => Int.le_trans hmin (hs.min_le t ht)
        . exact fun t hkt ht => absurd hkt (by dsimp only; omega)
      . next hmin =>
        have hlt := Int.not_le.mp hmin
        refine ⟨s, rfl, lt_succ_of_lt hi, lt_succ_of_lt hj, hs.max_eq, hs.min_eq,
          Nat.forall_lt_succ_right.mpr ⟨hs.le_max, Int.not_lt.mp hle⟩,
          Nat.forall_lt_succ_right.mpr ⟨hs.min_le, Int.le_of_lt hlt⟩, hs.lt_max, ?_⟩
        intro t hjt ht
        rcases Nat.lt_succ_iff_lt_or_eq.mp ht with hlt' | rfl
        . exact hs.min_lt t hjt hlt'
        . exact hlt
  . intro s hs
    rw [Nat.add_sub_cancel' hpos] at hs
    exact hs

variable {s : Extrema}

theorem lastRotation_spec (h : Holds ptRel u) (hs : IsExtrema ptRel u.length s)
    (hle : ¬s.max < -s.min) : ∃ i, lastRotation ptRel u.length s = .ok i ∧ IsLast u i := by
  have hi := hs.i_lt
  have hcmp : ComparesAt (fun i k => compareWords (fun x y => compare x y) ptRel u.length 1 1
      u.length i k) (s.i + ·) u s.i (u.length - 1 - s.i) := by
    intro a b ha hb
    obtain ⟨o, hrun, ho⟩ := @compareWords_spec ptRel u.length (fun x y => compare x y) id id
      compares_ints h.length_le (by omega) 1 1 u.length (s.i + a) (s.i + b) (by omega) (by omega)
    rw [cycleWord_forward h (by omega), cycleWord_forward h (by omega)] at ho
    exact ⟨o, hrun, ho⟩
  obtain ⟨r, hr, hrun, hbest⟩ := searchLast_spec hcmp
  rw [map_add_range', show u.length - 1 - s.i = u.length - (s.i + 1) by omega] at hrun
  refine ⟨s.i + r, (if_neg hle).trans hrun, ?_⟩
  apply isLast_of_first (show s.i + (u.length - 1 - s.i) + 1 = u.length by omega) hr _ hbest
  intro m hm
  rw [← h.getD_eq m (by omega), ← h.getD_eq s.i hi, hs.max_eq]
  exact hs.lt_max m hm

theorem lastInverse_spec (h : Holds ptRel u) (hs : IsExtrema ptRel u.length s)
    (hle : ¬-s.max < s.min)
    : ∃ j, lastInverse ptRel u.length s = .ok j ∧ j < u.length
        ∧ IsLast (invWord Neg.neg u) (u.length - 1 - j) := by
  have hj := hs.j_lt
  have hcmp : ComparesAt (fun j k => compareWords (fun x y => compare y x) ptRel u.length
      (u.length - 1) (u.length - 1) u.length j k) (s.j - ·) (invWord Neg.neg u)
      (u.length - 1 - s.j) s.j := by
    intro a b ha hb
    obtain ⟨o, hrun, ho⟩ := @compareWords_spec ptRel u.length (fun x y => compare y x) Neg.neg
      Neg.neg compares_neg h.length_le (by omega) (u.length - 1) (u.length - 1) u.length (s.j - a)
      (s.j - b) (by omega) (by omega)
    rw [cycleWord_backward h (by omega), cycleWord_backward h (by omega)] at ho
    rw [show u.length - 1 - s.j + b = u.length - 1 - (s.j - b) by omega,
      show u.length - 1 - s.j + a = u.length - 1 - (s.j - a) by omega]
    exact ⟨o, hrun, ho⟩
  obtain ⟨r, hr, hrun, hbest⟩ := searchLast_spec hcmp
  have hks : (range' 1 s.j).map (s.j - ·) = (range s.j).reverse := by
    apply ext_getElem
    . simp
    . intro l h1 h2
      simp
      omega
  rw [hks] at hrun
  refine ⟨s.j - r, (if_neg hle).trans hrun, by omega, ?_⟩
  rw [show u.length - 1 - (s.j - r) = u.length - 1 - s.j + r by omega]
  apply isLast_of_first (by rw [length_invWord]; omega) hr _ hbest
  intro m hm
  rw [getElem_invWord _ (by omega), getElem_invWord _ (by omega)]
  apply Int.neg_lt_neg
  rw [← h.getD_eq _ (by omega), ← h.getD_eq _ (by omega),
    show u.length - 1 - (u.length - 1 - s.j) = s.j by omega, hs.min_eq]
  exact hs.min_lt _ (by omega) (by omega)

def IsChoice (u : List Int) (i j : Nat) : Prop :=
  (i = u.length ∧ j < u.length ∧ IsGreatest {x | x ~r u ∨ x ~r invWord Neg.neg u}
      ((invWord Neg.neg u).rotate (u.length - 1 - j)))
    ∨ (i < u.length ∧ IsGreatest {x | x ~r u ∨ x ~r invWord Neg.neg u} (u.rotate i))

theorem isChoice_inverse {i j : Nat} (hj : j < u.length)
    (hlast : IsLast (invWord Neg.neg u) (u.length - 1 - j))
    (hother : ∀ x, x ~r u → x ≤ (invWord Neg.neg u).rotate (u.length - 1 - j))
    (hi : i = u.length) : IsChoice u i j := by
  refine Or.inl ⟨hi, hj, ?_⟩
  have hset : {x | x ~r u ∨ x ~r invWord Neg.neg u} = {x | x ~r invWord Neg.neg u ∨ x ~r u} :=
    Set.ext (fun x => or_comm)
  rw [hset]
  exact isGreatest_of_isLast hlast hother

theorem chooseWord_spec (h : Holds ptRel u) (hs : IsExtrema ptRel u.length s)
    : ∃ i j, chooseWord ptRel u.length s = .ok (i, j) ∧ IsChoice u i j := by
  have hi := hs.i_lt
  have hj := hs.j_lt
  have hune : u ≠ [] := length_pos_iff.mp (by omega)
  have hmax : u[s.i] = s.max := by
    rw [← h.getD_eq s.i hi, hs.max_eq]
  have hmin {m : Nat} (hm : m < (invWord Neg.neg u).length) (heq : m = u.length - 1 - s.j)
      : (invWord Neg.neg u)[m] = -s.min := by
    subst heq
    rw [getElem_invWord _ (by omega), ← h.getD_eq _ (by omega),
      show u.length - 1 - (u.length - 1 - s.j) = s.j by omega, hs.min_eq]
  unfold chooseWord
  by_cases hlt : s.max < -s.min
  . obtain ⟨j, hrun, hjlt, hlast⟩ := lastInverse_spec h hs (by omega)
    have hskip : lastRotation ptRel u.length s = .ok u.length := if_pos hlt
    rw [hskip, ok_bind, hrun, ok_bind, if_neg (by omega)]
    refine ⟨u.length, j, rfl, isChoice_inverse hjlt hlast ?_ rfl⟩
    intro x hx
    have hn : u.length - 1 - s.j < (invWord Neg.neg u).length := by
      rw [length_invWord]
      omega
    refine hlast.le_of_letter hn (fun m hm => ?_) hune hx
    rw [hmin hn rfl, ← h.getD_eq m hm]
    exact Int.lt_of_le_of_lt (hs.le_max m hm) hlt
  . obtain ⟨i, hruni, hlasti⟩ := lastRotation_spec h hs hlt
    rw [hruni, ok_bind]
    by_cases hgt : -s.max < s.min
    . have hskip : lastInverse ptRel u.length s = .ok u.length := if_pos hgt
      rw [hskip, ok_bind, if_neg (by omega)]
      refine ⟨i, u.length, rfl, Or.inr ⟨hlasti.1, isGreatest_of_isLast hlasti ?_⟩⟩
      intro x hx
      refine hlasti.le_of_letter hi (fun m hm => ?_) (mt invWord_eq_nil_iff.mp hune) hx
      rw [length_invWord] at hm
      rw [hmax, getElem_invWord _ (by omega), ← h.getD_eq _ (by omega)]
      have := hs.min_le (u.length - 1 - m) (by omega)
      omega
    . obtain ⟨j, hrunj, hjlt, hlastj⟩ := lastInverse_spec h hs hgt
      rw [hrunj, ok_bind, if_pos (by omega)]
      have hcmp : ∀ x y : Int, (compare (-x) y).Compares (-x) (id y) :=
        fun x y => compares_ints (-x) y
      obtain ⟨o, hrun, ho⟩ := @compareWords_spec ptRel u.length (fun x y => compare (-x) y) Neg.neg
        id hcmp h.length_le (by omega) 1 (u.length - 1) u.length i j hlasti.1 hjlt
      rw [cycleWord_forward h hlasti.1, cycleWord_backward h hjlt] at ho
      rw [hrun, ok_bind]
      have hkeep (hle : (invWord Neg.neg u).rotate (u.length - 1 - j) ≤ u.rotate i)
          : IsChoice u i j :=
        Or.inr ⟨hlasti.1, isGreatest_of_isLast hlasti (fun x hx => le_trans (hlastj.le hx) hle)⟩
      cases o with
      | lt => exact ⟨i, j, rfl, hkeep (le_of_lt ho)⟩
      | eq => exact ⟨i, j, rfl, hkeep (le_of_eq ho)⟩
      | gt =>
        refine ⟨u.length, j, rfl, isChoice_inverse hjlt hlastj ?_ rfl⟩
        exact fun x hx => le_trans (hlasti.le hx) (le_of_lt ho)

end Search

section Reduce

variable {rel : List Int}

structure Cancels (rel : List Int) (i leng1 : Nat) : Prop where
  sum_eq : i + leng1 = rel.length - 1
  le : i ≤ leng1
  cancel : ∀ t, t < i → rel.getD (rel.length - 1 - t) 0 = -rel.getD t 0

theorem ne_neg_next (hred : IsReduced Neg.neg rel) {i : Nat} (hi : i + 1 < rel.length)
    : rel.getD (i + 1) 0 ≠ -rel.getD i 0 := by
  have h := isChain_iff_getElem.mp hred i hi
  rw [getD_eq_getElem _ _ hi, getD_eq_getElem _ _ (by omega)]
  exact h

theorem cancelEnds_spec (hred : IsReduced Neg.neg rel) {leng1 i : Nat} (h : Cancels rel i leng1)
    (hlen : 0 < rel.length)
    : ∃ i' leng1', cancelEnds rel leng1 i = .ok (i', leng1') ∧ Cancels rel i' leng1'
        ∧ (i' < leng1' → rel.getD i' 0 ≠ -rel.getD leng1' 0) := by
  induction leng1 generalizing i with
  | zero => exact ⟨i, 0, rfl, h, fun hlt => absurd hlt (Nat.not_lt_zero i)⟩
  | succ leng1 ih =>
    have hsum := h.sum_eq
    unfold cancelEnds
    by_cases hlt : i < leng1 + 1
    . rw [if_pos hlt, readAt_of_lt (by omega) 0, ok_bind, readAt_of_lt (by omega) 0, ok_bind]
      by_cases heq : rel.getD i 0 = -rel.getD (leng1 + 1) 0
      . rw [if_pos heq]
        -- Neighbours do not cancel, so there is something between the two positions.
        have hne : i ≠ leng1 := by
          rintro rfl
          apply ne_neg_next hred (show i + 1 < rel.length by omega)
          rw [heq, Int.neg_neg]
        apply ih
        refine ⟨by omega, by omega, fun t ht => ?_⟩
        rcases Nat.lt_succ_iff_lt_or_eq.mp ht with hlt' | rfl
        . exact h.cancel t hlt'
        . rw [heq, Int.neg_neg, show rel.length - 1 - t = leng1 + 1 by omega]
      . rw [if_neg heq]
        exact ⟨i, leng1 + 1, rfl, h, fun _ => heq⟩
    . rw [if_neg hlt]
      exact ⟨i, leng1 + 1, rfl, h, fun hlt' => absurd hlt' hlt⟩

structure IsCyclicReduction (rel p u : List Int) : Prop where
  eq : rel = p ++ u ++ invWord Neg.neg p
  reduced : IsCyclicallyReduced Neg.neg u
  ne_nil : u ≠ []

theorem Cancels.isCyclicReduction (hred : IsReduced Neg.neg rel) {i leng1 : Nat}
    (h : Cancels rel i leng1) (hlen : 0 < rel.length)
    (hends : i < leng1 → rel.getD i 0 ≠ -rel.getD leng1 0)
    : IsCyclicReduction rel (rel.take i) ((rel.drop i).take (leng1 + 1 - i)) := by
  have hsum := h.sum_eq
  have hle := h.le
  have heq : rel = rel.take i ++ (rel.drop i).take (leng1 + 1 - i)
      ++ invWord Neg.neg (rel.take i) := by
    apply ext_getElem
    . simp
      omega
    . intro t h1 h2
      by_cases ht : t < leng1 + 1
      . rw [getElem_append_left (by simp; omega)]
        by_cases hti : t < i
        . rw [getElem_append_left (by simp; omega), getElem_take]
        . rw [getElem_append_right (by simp; omega), getElem_take, getElem_drop]
          congr 1
          simp
          omega
      . have hcancel := h.cancel (rel.length - 1 - t) (by omega)
        rw [show rel.length - 1 - (rel.length - 1 - t) = t by omega, getD_eq_getElem _ _ h1,
          getD_eq_getElem _ _ (by omega)] at hcancel
        rw [getElem_append_right (by simp; omega), hcancel, getElem_invWord _ (by simp; omega),
          getElem_take]
        congr 2
        simp
        omega
  have hlenu : ((rel.drop i).take (leng1 + 1 - i)).length = leng1 + 1 - i := by
    simp
    omega
  refine ⟨heq, ⟨?_, fun hu a ha b hb hab => ?_⟩, ?_⟩
  . rw [heq, isReduced_append, isReduced_append] at hred
    exact hred.1.2.1
  . rw [hlenu] at hu
    rw [getLast?_eq_getElem?, hlenu, getElem?_take_of_lt (by omega), getElem?_drop,
      show i + (leng1 + 1 - i - 1) = leng1 by omega] at ha
    rw [head?_take, if_neg (by omega), head?_drop] at hb
    apply hends (by omega)
    rw [getD_eq_getElem?_getD, getD_eq_getElem?_getD, ha, hb]
    exact hab
  . rw [← length_pos_iff, hlenu]
    omega

theorem cyclicallyReduce_spec (hred : IsReduced Neg.neg rel) (hlen : 0 < rel.length)
    : ∃ ptRel p u, cyclicallyReduce rel = .ok (ptRel, u.length) ∧ Holds ptRel u
        ∧ IsCyclicReduction rel p u := by
  have hinit : Cancels rel 0 (rel.length - 1) :=
    ⟨Nat.zero_add _, Nat.zero_le _, fun t ht => absurd ht (Nat.not_lt_zero t)⟩
  obtain ⟨i, leng1, hrun, hcancel, hends⟩ := cancelEnds_spec hred hinit hlen
  have hreduction := hcancel.isCyclicReduction hred hlen hends
  have hsum := hcancel.sum_eq
  have hle := hcancel.le
  have hlenu : ((rel.drop i).take (leng1 + 1 - i)).length = leng1 + 1 - i := by
    simp
    omega
  unfold cyclicallyReduce
  rw [hrun, ok_bind]
  dsimp only
  split
  . next hpos =>
    have hcopy : ∃ ptRel, forLoop (fun j ptRel => do
          let x ← readAt ptRel j
          writeAt ptRel (j - i) x) (leng1 + 1 - i) i rel = .ok ptRel
        ∧ ptRel.length = rel.length
        ∧ ∀ t, t < leng1 + 1 - i → ptRel.getD t 0 = rel.getD (t + i) 0 := by
      apply forLoop_of_inv (fun j ptRel => ptRel.length = rel.length
        ∧ ∀ t, ptRel.getD t 0 = if t < j - i then rel.getD (t + i) 0 else rel.getD t 0)
      . refine ⟨rfl, fun t => ?_⟩
        rw [if_neg (by omega)]
      . intro j ptRel hj hjlt hinv
        rw [readAt_of_lt (by omega) 0, ok_bind, writeAt_of_lt (by omega)]
        refine ⟨_, rfl, by rw [length_set, hinv.1], fun t => ?_⟩
        rw [getD_eq_getElem?_getD, getElem?_set]
        split
        . next heq =>
          rw [if_pos (by omega), if_pos (by omega), hinv.2, if_neg (by omega),
            show t + i = j by omega]
          rfl
        . next hne =>
          rw [← getD_eq_getElem?_getD, hinv.2]
          by_cases ht : t < j - i
          . rw [if_pos ht, if_pos (by omega)]
          . rw [if_neg ht, if_neg (by omega)]
      . rintro ptRel ⟨hl, hinv⟩
        refine ⟨hl, fun t ht => ?_⟩
        rw [hinv, if_pos (by omega)]
    obtain ⟨ptRel, hrun', hl, hentries⟩ := hcopy
    rw [hrun', ok_bind, ← hlenu]
    refine ⟨ptRel, _, _, rfl, ⟨by omega, fun t ht => ?_⟩, hreduction⟩
    rw [hentries t (by omega), getElem_take, getElem_drop,
      getD_eq_getElem _ _ (by omega)]
    congr 1
    omega
  . next hzero =>
    obtain rfl : i = 0 := by
      omega
    rw [drop_zero, take_of_length_le (show rel.length ≤ leng1 + 1 - 0 by omega)]
      at hreduction
    exact ⟨rel, _, rel, rfl, ⟨Nat.le_refl _, fun t ht => getD_eq_getElem _ _ ht⟩, hreduction⟩

end Reduce

section Change

variable {ptRel u : List Int} {w : IntSize}

theorem getD_set {ptRel : List Int} {k : Nat} (hk : k < ptRel.length) (x : Int) (t : Nat)
    : (ptRel.set k x).getD t 0 = if t = k then x else ptRel.getD t 0 := by
  rw [getD_eq_getElem?_getD, getElem?_set]
  split
  . next heq =>
    rw [if_pos heq.symm]
    rfl
  . next hne =>
    rw [if_neg (Ne.symm hne), getD_eq_getElem?_getD]

def Negatable (w : IntSize) (u : List Int) : Prop :=
  ∀ x ∈ u, w.intobj (-x) = -x

structure IsInverted (ptRel u : List Int) (k : Nat) (ptRel' : List Int) : Prop where
  length_eq : ptRel'.length = ptRel.length
  getD_eq : ∀ t, t < u.length → ptRel'.getD t 0
    = if t < k ∨ u.length ≤ t + k then -ptRel.getD (u.length - 1 - t) 0 else ptRel.getD t 0

theorem invertRelator_spec (h : Holds ptRel u) (hw : Negatable w u) (hpos : 0 < u.length)
    : ∃ ptRel', invertRelator w ptRel u.length = .ok ptRel'
        ∧ Holds ptRel' (invWord Neg.neg u) := by
  have hle := h.length_le
  have hneg {t : Nat} (ht : t < u.length) : w.intobj (-ptRel.getD t 0) = -ptRel.getD t 0 := by
    rw [h.getD_eq t ht]
    exact hw _ (getElem_mem ht)
  have hloop : ∃ ptRel', forLoop (fun k ptRel => do
        let next ← readAt ptRel k
        let x ← readAt ptRel (u.length - 1 - k)
        let ptRel ← writeAt ptRel k (w.intobj (-x))
        writeAt ptRel (u.length - 1 - k) (w.intobj (-next))) (u.length / 2) 0 ptRel = .ok ptRel'
      ∧ IsInverted ptRel u (u.length / 2) ptRel' := by
    apply forLoop_of_inv (fun k ptRel' => IsInverted ptRel u k ptRel')
    . refine ⟨rfl, fun t ht => ?_⟩
      rw [if_neg (by omega)]
    . intro k s _ hk hs
      have hlen := hs.length_eq
      rw [readAt_of_lt (by omega) 0, ok_bind, readAt_of_lt (by omega) 0, ok_bind,
        writeAt_of_lt (by omega), ok_bind, writeAt_of_lt (by rw [length_set]; omega)]
      refine ⟨_, rfl, by rw [length_set, length_set, hlen], fun t ht => ?_⟩
      have hkeep {t : Nat} (ht : t < u.length) (hin : ¬(t < k ∨ u.length ≤ t + k))
          : s.getD t 0 = ptRel.getD t 0 := by
        rw [hs.getD_eq t ht, if_neg hin]
      rw [getD_set (by rw [length_set]; omega), getD_set (by omega),
        hkeep (show k < u.length by omega) (by omega),
        hkeep (show u.length - 1 - k < u.length by omega) (by omega), hneg (by omega),
        hneg (by omega)]
      by_cases htop : t = u.length - 1 - k
      . rw [if_pos htop, if_pos (by omega)]
        congr 2
        omega
      . rw [if_neg htop]
        by_cases hbot : t = k
        . rw [if_pos hbot, if_pos (by omega), hbot]
        . rw [if_neg hbot, hs.getD_eq t ht]
          by_cases hin : t < k ∨ u.length ≤ t + k
          . rw [if_pos hin, if_pos (by omega)]
          . rw [if_neg hin, if_neg (by omega)]
    . intro s hs
      rw [Nat.zero_add] at hs
      exact hs
  obtain ⟨ptRel1, hrun, hinv⟩ := hloop
  have hlen := hinv.length_eq
  have hholds {ptRel' : List Int} (hl : ptRel'.length = ptRel.length)
      (hget : ∀ t, t < u.length → ptRel'.getD t 0 = -ptRel.getD (u.length - 1 - t) 0)
      : Holds ptRel' (invWord Neg.neg u) := by
    refine ⟨by rw [length_invWord]; omega, fun t ht => ?_⟩
    rw [length_invWord] at ht
    rw [getElem_invWord _ (by omega), hget t ht, h.getD_eq _ (by omega)]
  unfold invertRelator
  rw [hrun, ok_bind]
  by_cases hodd : u.length % 2 = 1
  . rw [if_pos hodd, readAt_of_lt (by omega) 0, ok_bind, writeAt_of_lt (by omega)]
    refine ⟨_, rfl, hholds (by rw [length_set, hlen]) (fun t ht => ?_)⟩
    rw [getD_set (by omega)]
    split
    . next hmid =>
      have hkeep : ptRel1.getD ((u.length - 1) / 2) 0 = ptRel.getD ((u.length - 1) / 2) 0 := by
        rw [hinv.getD_eq _ (by omega), if_neg (by omega)]
      rw [hkeep, hneg (by omega)]
      congr 2
      omega
    . next hmid => rw [hinv.getD_eq t ht, if_pos (by omega)]
  . rw [if_neg hodd]
    refine ⟨ptRel1, rfl, hholds hlen (fun t ht => ?_)⟩
    rw [hinv.getD_eq t ht, if_pos (by omega)]

section Rotate

variable {n i j : Nat} {bag bag' : List Int}

structure IsMovedAt (n i : Nat) (bag : List Int) (p : Nat → Prop) (bag' : List Int) : Prop where
  length_eq : bag'.length = bag.length
  moved : ∀ x, x < n → p x → bag'.getD x 0 = bag.getD ((x + i) % n) 0
  kept : ∀ x, x < n → ¬p x → bag'.getD x 0 = bag.getD x 0

theorem rotateCycle_spec (hi : i ≤ n) (hn : 0 < n) (hlen : n ≤ bag.length) (hj : j < i.gcd n)
    : ∃ bag', rotateCycle bag n i (n / i.gcd n) j = .ok bag'
        ∧ IsMovedAt n i bag (fun x => x % i.gcd n = j) bag' := by
  have hstart : cyclePos n i j 0 = (j + i) % n := by
    unfold cyclePos
    rw [Nat.zero_mul, Nat.add_zero]
  have hloop : ∃ s, forLoop (fun _ (s : RotateState) => do
        let jj := (s.jj + (n - i)) % n
        let obj2 ← readAt s.ptRel jj
        let ptRel ← writeAt s.ptRel jj s.obj1
        return { ptRel := ptRel, jj := jj, obj1 := obj2 }) (n / i.gcd n) 0
        { ptRel := bag, jj := (j + i) % n, obj1 := bag.getD ((j + i) % n) 0 } = .ok s
      ∧ IsMovedAt n i bag (fun x => ∃ r, 1 ≤ r ∧ r ≤ n / i.gcd n ∧ cyclePos n i j r = x)
        s.ptRel := by
    apply forLoop_of_inv (fun r' s => s.jj = cyclePos n i j r'
      ∧ s.obj1 = bag.getD (cyclePos n i j r') 0
      ∧ IsMovedAt n i bag (fun x => ∃ r, 1 ≤ r ∧ r ≤ r' ∧ cyclePos n i j r = x) s.ptRel)
    . rw [hstart]
      refine ⟨rfl, rfl, rfl, fun x _ => ?_, fun _ _ _ => rfl⟩
      rintro ⟨r, h1, h0, -⟩
      omega
    . rintro r' ⟨ptRel, jj, obj1⟩ - hr' ⟨hjj, hobj, hmoved⟩
      dsimp only at hjj hobj hmoved ⊢
      have hl := hmoved.length_eq
      have hlt := cyclePos_lt (i := i) hn j (r' + 1)
      have hsucc : (jj + (n - i)) % n = cyclePos n i j (r' + 1) := by
        rw [hjj, cyclePos_succ]
      -- The next position has not been written yet.
      have hnew : ¬∃ r, 1 ≤ r ∧ r ≤ r' ∧ cyclePos n i j r = cyclePos n i j (r' + 1) := by
        rintro ⟨r, h1, hle, heq⟩
        have hsame := cyclePos_injOn hi hn (by rw [Finset.mem_coe, Finset.mem_Icc]; omega)
          (by rw [Finset.mem_coe, Finset.mem_Icc]; omega) heq
        omega
      rw [hsucc, readAt_of_lt (by omega) 0, ok_bind, writeAt_of_lt (by omega)]
      refine ⟨_, rfl, rfl, hmoved.kept _ hlt hnew, ?_, ?_, ?_⟩
      . rw [length_set, hl]
      . rintro x hx ⟨r, h1, hle, heq⟩
        rw [getD_set (by omega)]
        split
        . next hxeq => rw [hxeq, cyclePos_succ_add hi hn, hobj]
        . next hxne =>
          apply hmoved.moved x hx
          refine ⟨r, h1, ?_, heq⟩
          rcases Nat.le_succ_iff.mp hle with hle' | rfl
          . exact hle'
          . exact absurd heq.symm hxne
      . intro x hx hnot
        rw [getD_set (by omega), if_neg]
        . apply hmoved.kept x hx
          rintro ⟨r, h1, hle, heq⟩
          exact hnot ⟨r, h1, le_succ_of_le hle, heq⟩
        . rintro rfl
          exact hnot ⟨r' + 1, Nat.le_add_left 1 r', Nat.le_refl _, rfl⟩
    . rintro s ⟨-, -, hs⟩
      rw [Nat.zero_add] at hs
      exact hs
  obtain ⟨s, hrun, hs⟩ := hloop
  unfold rotateCycle
  dsimp only
  rw [readAt_of_lt (Nat.lt_of_lt_of_le (mod_lt _ hn) hlen) 0, ok_bind, hrun]
  refine ⟨s.ptRel, rfl, hs.length_eq, fun x hx hmod => ?_, fun x hx hmod => ?_⟩
  . exact hs.moved x hx ((mem_cycle_iff hi hn hj hx).mpr hmod)
  . exact hs.kept x hx (fun hmem => hmod ((mem_cycle_iff hi hn hj hx).mp hmem))

theorem rotateRelator_spec (h : Holds ptRel u) (hi : i < u.length)
    : ∃ ptRel', rotateRelator ptRel u.length i = .ok ptRel' ∧ Holds ptRel' (u.rotate i) := by
  have hn : 0 < u.length := by
    omega
  have hlen := h.length_le
  unfold rotateRelator
  split
  . next hpos =>
    have hgn : i.gcd u.length ∣ u.length := Nat.gcd_dvd_right i u.length
    have hg : 0 < i.gcd u.length := Nat.gcd_pos_of_pos_left u.length hpos
    apply forLoop_of_inv
      (fun j bag => IsMovedAt u.length i ptRel (fun x => x % i.gcd u.length < j) bag)
    . exact ⟨rfl, fun x _ hx => absurd hx (Nat.not_lt_zero _), fun _ _ _ => rfl⟩
    . intro j bag _ hj hbag
      have hl := hbag.length_eq
      have hgcd : j < i.gcd u.length := by
        omega
      obtain ⟨bag', hrun, hmoved⟩ :=
        rotateCycle_spec (Nat.le_of_lt hi) hn (show u.length ≤ bag.length by omega) hgcd
      refine ⟨bag', hrun, hmoved.length_eq.trans hl, ?_, ?_⟩
      . intro x hx hle
        rcases Nat.lt_succ_iff_lt_or_eq.mp hle with hlt | heq
        . rw [hmoved.kept x hx (Nat.ne_of_lt hlt), hbag.moved x hx hlt]
        . rw [hmoved.moved x hx heq]
          apply hbag.kept _ (mod_lt _ hn)
          rw [mod_mod_of_dvd _ hgn, add_mod,
            Nat.mod_eq_zero_of_dvd (Nat.gcd_dvd_left i u.length), Nat.add_zero, Nat.mod_mod, heq]
          exact Nat.lt_irrefl j
      . intro x hx hnot
        rw [hmoved.kept x hx (by omega), hbag.kept x hx (by omega)]
    . intro bag hbag
      have hl := hbag.length_eq
      refine ⟨by rw [length_rotate]; omega, fun t ht => ?_⟩
      rw [length_rotate] at ht
      rw [getElem_rotate, hbag.moved t ht (by rw [Nat.zero_add]; exact mod_lt t hg)]
      exact h.getD_eq _ (mod_lt _ hn)
  . next hzero =>
    rw [Nat.eq_zero_of_not_pos hzero, rotate_zero]
    exact ⟨ptRel, rfl, h⟩

end Rotate

end Change

end CosetTable
