import GapKernel.FreeWord.Shortlex
import GapKernel.ObjFgElm.Impl

open FreeWord Bool

namespace ObjFgElm

theorem nBitsEqual_go (l r : List Nat) (h : l.length = r.length)
    : nBitsEqual.go l r = true ↔ l = r := by
  induction l generalizing r with
  | nil =>
    cases r with
    | nil => simp [nBitsEqual.go]
    | cons pr r => simp at h
  | cons pl l ih =>
    cases r with
    | nil => simp at h
    | cons pr r =>
      unfold nBitsEqual.go
      split
      . next hne => simp [hne]
      . next heq =>
        rw [ih]
        . simp only [ne_eq, Decidable.not_not] at heq
          simp [heq]
        . simpa using h

theorem nBitsEqual_iff (l r : List Nat) : nBitsEqual l r = true ↔ l = r := by
  unfold nBitsEqual
  split
  . next h =>
    simp only [false_eq_true, false_iff]
    intro heq
    exact h (by rw [heq])
  . next h =>
    apply nBitsEqual_go
    simpa using h

def lexico (l r : List (Nat × Int)) : Prop :=
  match l, r with
  | (g, a) :: l, (h, b) :: r =>
    if (g, a) = (h, b) then
      lexico l r
    else if g ≠ h then
      g < h
    else if a.natAbs = b.natAbs then
      a < 0
    else if b.natAbs < a.natAbs then
      ∃ s ∈ r.head?, g < s.1
    else
      ∃ s ∈ l.head?, s.1 < g
  | _, _ => False

/--
The words agree up to a syllable of one generator with exponents of opposite sign and different
size, and the generator that follows the smaller exponent orders the words in the other way than
the signs do.
-/
def Clash (l r : List (Nat × Int)) : Prop :=
  match l, r with
  | (g, a) :: l, (h, b) :: r =>
    if (g, a) = (h, b) then
      Clash l r
    else
      g = h ∧ ¬(0 < a ↔ 0 < b) ∧ length ((g, a) :: l) = length ((h, b) :: r)
        ∧ ((b.natAbs < a.natAbs ∧ ∃ s ∈ r.head?, ¬(g < s.1 ↔ a < 0))
          ∨ (a.natAbs < b.natAbs ∧ ∃ s ∈ l.head?, ¬(s.1 < g ↔ a < 0)))
  | _, _ => False

theorem lexico_self (s : Nat × Int) (l r : List (Nat × Int))
    : lexico (s :: l) (s :: r) ↔ lexico l r := by
  simp [lexico]

variable {s t : Nat × Int}

theorem lexico_of_gen_ne (l r : List (Nat × Int)) (hst : s.1 ≠ t.1)
    : lexico (s :: l) (t :: r) ↔ s.1 < t.1 := by
  have : s ≠ t := fun h => hst (by rw [h])
  simp [lexico, this, hst]

theorem lexico_of_natAbs_eq (l r : List (Nat × Int)) (hst : s ≠ t) (hg : s.1 = t.1)
    (habs : s.2.natAbs = t.2.natAbs)
    : lexico (s :: l) (t :: r) ↔ s.2 < 0 := by
  unfold lexico
  rw [if_neg hst, if_neg (not_not_intro hg), if_pos habs]

theorem lexico_of_natAbs_gt (l r : List (Nat × Int)) (hg : s.1 = t.1)
    (habs : t.2.natAbs < s.2.natAbs)
    : lexico (s :: l) (t :: r) ↔ ∃ u ∈ r.head?, s.1 < u.1 := by
  have hst : s ≠ t := fun h => habs.ne' (by rw [h])
  unfold lexico
  rw [if_neg hst, if_neg (not_not_intro hg), if_neg habs.ne', if_pos habs]

theorem lexico_of_natAbs_lt (l r : List (Nat × Int)) (hg : s.1 = t.1)
    (habs : s.2.natAbs < t.2.natAbs)
    : lexico (s :: l) (t :: r) ↔ ∃ u ∈ l.head?, u.1 < t.1 := by
  have hst : s ≠ t := fun h => habs.ne (by rw [h])
  unfold lexico
  rw [if_neg hst, if_neg (not_not_intro hg), if_neg habs.ne, if_neg habs.not_gt, hg]

theorem sum_unsignedExp (t : WordType) (l : List Nat)
    : (l.map t.unsignedExp).sum = length (t.nBitsExtRepOfObj l) := by
  induction l with
  | nil => rfl
  | cons p l ih =>
    simp only [List.map_cons, List.sum_cons, ih, t.unsignedExp_eq]
    rfl

theorem rest_iff (t : WordType) (lexico : Bool) (l r : List Nat)
    : nBitsLess.rest t lexico l r = true
        ↔
      if length (t.nBitsExtRepOfObj l) = length (t.nBitsExtRepOfObj r) then
        lexico = true
      else
        length (t.nBitsExtRepOfObj l) < length (t.nBitsExtRepOfObj r) := by
  unfold nBitsLess.rest
  simp only [sum_unsignedExp]
  split
  . simp [*]
  . simp [*]

theorem extRep_ne (t : WordType) {p q : Nat} (h : p ≠ q) : t.extRep p ≠ t.extRep q := by
  intro heq
  exact h (t.extRep_injective heq)

theorem natAbs_lt_of_not_gt (t : WordType) {p q : Nat} (hp : p ≠ q)
    (hg : (t.extRep p).1 = (t.extRep q).1)
    (hs : ¬(t.unsignedExp p = t.unsignedExp q ∧ p &&& t.exps ≠ q &&& t.exps))
    (hgt : ¬t.unsignedExp p > t.unsignedExp q)
    : (t.extRep p).2.natAbs < (t.extRep q).2.natAbs := by
  simp only [t.unsignedExp_eq, ne_eq, t.and_exps_inj] at hs hgt
  have hne := extRep_ne t hp
  have hexp : (t.extRep p).2 ≠ (t.extRep q).2 := by
    intro h
    exact hne (Prod.ext hg h)
  omega

theorem go_iff (t : WordType) (l r : List Nat) (hl : ∀ p ∈ l, p < 2 ^ t.bits)
    (hr : ∀ p ∈ r, p < 2 ^ t.bits)
    : nBitsLess.go t l r = true
        ↔
      if length (t.nBitsExtRepOfObj l) = length (t.nBitsExtRepOfObj r) then
        lexico (t.nBitsExtRepOfObj l) (t.nBitsExtRepOfObj r)
      else
        length (t.nBitsExtRepOfObj l) < length (t.nBitsExtRepOfObj r) := by
  simp only [WordType.nBitsExtRepOfObj]
  fun_induction nBitsLess.go t l r with
  | case1 pl l pr r hp hg =>
    rw [ne_eq, t.and_genm_inj (hl pl (by simp)) (hr pr (by simp))] at hg
    rw [rest_iff]
    simp only [t.and_genm_lt (hl pl (by simp)) (hr pr (by simp)), decide_eq_true_eq]
    rw [← lexico_of_gen_ne _ _ hg]
    rfl
  | case2 pl l pr r hp hg exl exr hs =>
    rw [ne_eq, Decidable.not_not, t.and_genm_inj (hl pl (by simp)) (hr pr (by simp))] at hg
    rw [rest_iff]
    simp only [t.and_exps_ne_zero_iff, decide_eq_true_eq]
    rw [← lexico_of_natAbs_eq _ _ (extRep_ne t hp) hg]
    . rfl
    . rw [← t.unsignedExp_eq, ← t.unsignedExp_eq]
      exact hs.1
  | case3 pl l pr hp hg exl exr hs hgt pr' r =>
    rw [ne_eq, Decidable.not_not, t.and_genm_inj (hl pl (by simp)) (hr pr (by simp))] at hg
    simp only [exl, exr, t.unsignedExp_eq] at hgt
    rw [rest_iff]
    simp only [t.and_genm_lt (hl pl (by simp)) (hr pr' (by simp)), decide_eq_true_eq]
    have := lexico_of_natAbs_gt (l.map t.extRep) ((pr' :: r).map t.extRep) hg hgt
    simp only [List.map_cons, List.head?_cons, Option.mem_def, Option.some.injEq,
      exists_eq_left'] at this
    rw [← this]
    rfl
  | case4 pl l pr hp hg exl exr hs hgt =>
    simp only [exl, exr, t.unsignedExp_eq] at hgt
    simp only [List.map_cons, List.map_nil, length, false_eq_true, false_iff]
    split
    . omega
    . omega
  | case5 pl pr r hp hg exl exr hs hgt pl' l =>
    rw [ne_eq, Decidable.not_not, t.and_genm_inj (hl pl (by simp)) (hr pr (by simp))] at hg
    have hlt := natAbs_lt_of_not_gt t hp hg hs hgt
    rw [rest_iff]
    simp only [t.and_genm_lt (hl pl' (by simp)) (hr pr (by simp)), decide_eq_true_eq]
    have := lexico_of_natAbs_lt ((pl' :: l).map t.extRep) (r.map t.extRep) hg hlt
    simp only [List.map_cons, List.head?_cons, Option.mem_def, Option.some.injEq,
      exists_eq_left'] at this
    rw [← this]
    rfl
  | case6 pl pr r hp hg exl exr hs hgt =>
    rw [ne_eq, Decidable.not_not, t.and_genm_inj (hl pl (by simp)) (hr pr (by simp))] at hg
    have hlt := natAbs_lt_of_not_gt t hp hg hs hgt
    simp only [List.map_cons, List.map_nil, length, true_iff]
    split
    . omega
    . omega
  | case7 pl l pr r heq ih =>
    rw [ne_eq, Decidable.not_not] at heq
    subst heq
    rw [ih]
    . simp only [List.map_cons, length, lexico_self, Nat.add_left_cancel_iff,
        Nat.add_lt_add_iff_left]
      split
      . simp [*]
      . simp [*]
    . intro p hp
      exact hl p (by simp [hp])
    . intro p hp
      exact hr p (by simp [hp])
  | case8 l r hnil =>
    have : ¬lexico (l.map t.extRep) (r.map t.extRep) := by
      cases l with
      | nil => simp [lexico]
      | cons pl l =>
        cases r with
        | nil => simp [lexico]
        | cons pr r => exact absurd rfl (hnil pl l pr r rfl)
    rw [rest_iff]
    simp [this, WordType.nBitsExtRepOfObj]

variable {l r : List (Nat × Int)}

theorem length_eq_of_clash (h : Clash l r) : length l = length r := by
  fun_induction Clash l r with
  | case1 g a l g' b r heq ih =>
    injection heq with _ hab
    simp only [length, ih h, hab]
  | case2 g a l g' b r hne => exact h.2.2.1
  | case3 l r hnil => exact absurd h id

theorem not_clash_of_sign_eq {g : Nat} {a b : Int} (hne : a ≠ b) (hab : 0 < a ↔ 0 < b)
    : ¬Clash ((g, a) :: l) ((g, b) :: r) := by
  simp [Clash, hne, hab]

theorem lexico_iff_of_exp_ne {g : Nat} {a b : Int} (hl : IsReduced ((g, a) :: l))
    (hr : IsReduced ((g, b) :: r)) (hne : a ≠ b) (h : length ((g, a) :: l) = length ((g, b) :: r))
    : (lexico ((g, a) :: l) ((g, b) :: r) ↔ WordLt ((g, a) :: l) ((g, b) :: r))
        ↔
      ¬Clash ((g, a) :: l) ((g, b) :: r) := by
  have hst : (g, a) ≠ (g, b) := fun h => hne (by injection h)
  have hlen := h
  by_cases hab : 0 < a ↔ 0 < b
  . simp only [not_clash_of_sign_eq hne hab, not_false_eq_true, iff_true]
    rcases Nat.lt_trichotomy a.natAbs b.natAbs with hlt | heq | hgt
    . rw [lexico_of_natAbs_lt (s := (g, a)) (t := (g, b)) l r rfl hlt]
      cases l with
      | nil =>
        simp only [length] at hlen
        omega
      | cons u l =>
        rw [wordLt_of_natAbs_lt hl hab hlt, if_pos h]
        simp
    . omega
    . rw [lexico_of_natAbs_gt (s := (g, a)) (t := (g, b)) l r rfl hgt]
      cases r with
      | nil =>
        simp only [length] at hlen
        omega
      | cons u r =>
        rw [wordLt_of_natAbs_gt hr hab hgt, if_pos h]
        simp
  . rw [wordLt_of_sign_ne hl hr hab, if_pos h]
    rcases Nat.lt_trichotomy a.natAbs b.natAbs with hlt | heq | hgt
    . rw [lexico_of_natAbs_lt (s := (g, a)) (t := (g, b)) l r rfl hlt]
      cases l with
      | nil =>
        simp only [length] at hlen
        omega
      | cons u l => simp [Clash, hne, hab, h, hlt, hlt.not_gt]
    . rw [lexico_of_natAbs_eq l r hst rfl heq]
      simp [Clash, hst, heq]
    . rw [lexico_of_natAbs_gt (s := (g, a)) (t := (g, b)) l r rfl hgt]
      cases r with
      | nil =>
        simp only [length] at hlen
        omega
      | cons u r => simp [Clash, hne, hab, h, hgt, hgt.not_gt]

theorem lexico_iff (hl : IsReduced l) (hr : IsReduced r) (h : length l = length r)
    : (lexico l r ↔ WordLt l r) ↔ ¬Clash l r := by
  induction l generalizing r with
  | nil =>
    cases r with
    | nil => simp [lexico, Clash, WordLt, List.shortlex_def]
    | cons t r =>
      have := hr.head_ne
      simp only [length] at h
      omega
  | cons s l ih =>
    cases r with
    | nil =>
      have := hl.head_ne
      simp only [length] at h
      omega
    | cons t r =>
      obtain ⟨g, a⟩ := s
      obtain ⟨g', b⟩ := t
      by_cases hg : g = g'
      . subst hg
        by_cases hab : a = b
        . subst hab
          rw [lexico_self, wordLt_cons]
          rw [ih hl.tail hr.tail]
          . simp [Clash]
          . simpa [length] using h
        . exact lexico_iff_of_exp_ne hl hr hab h
      . rw [lexico_of_gen_ne l r hg, wordLt_of_gen_ne hl hr hg, if_pos h]
        simp [Clash, hg]

theorem length_pos (hl : IsReduced l) (hne : l ≠ []) : 0 < length l := by
  cases l with
  | nil => exact absurd rfl hne
  | cons s l =>
    have := hl.head_ne
    simp only [length]
    omega

theorem nBitsLess_eq_go {t : WordType} (l r : ReducedWord t)
    : nBitsLess t l.data r.data = nBitsLess.go t l.data r.data := by
  unfold nBitsLess
  split
  . next h =>
    apply Bool.eq_iff_iff.mpr
    rw [go_iff t l.data r.data l.lt_two_pow r.lt_two_pow]
    by_cases hr : r.data = []
    . simp [hr, WordType.nBitsExtRepOfObj, length, lexico]
    . have hl : l.data = [] := by simpa [hr] using h
      have hpos := length_pos r.isReduced (by simpa [WordType.nBitsExtRepOfObj] using hr)
      simp only [hl, WordType.nBitsExtRepOfObj, List.map_nil, length] at *
      rw [if_neg (by omega)]
      simp [hr, hpos]
  . rfl

theorem nBitsLess_iff {t : WordType} (l r : ReducedWord t)
    : (nBitsLess t l.data r.data = true ↔ shortlexLt l.eval r.eval)
        ↔
      ¬Clash l.syllables r.syllables := by
  have hgo := go_iff t l.data r.data l.lt_two_pow r.lt_two_pow
  rw [nBitsLess_eq_go, hgo]
  unfold ReducedWord.eval
  rw [shortlexLt_eval l.isReduced_syllables r.isReduced_syllables]
  split
  . next h => exact lexico_iff l.isReduced r.isReduced h
  . next h =>
    have : ¬Clash l.syllables r.syllables := fun hc => h (length_eq_of_clash hc)
    simp only [this, not_false_eq_true, iff_true]
    constructor
    . intro hlt
      exact wordLt_of_length_lt hlt
    . intro hlt
      rcases Nat.lt_or_gt_of_ne h with h1 | h1
      . exact h1
      . exact absurd hlt (not_wordLt_of_length_lt h1)

theorem nBitsEqual_iff_eval {t : WordType} (l r : ReducedWord t)
    : nBitsEqual l.data r.data = true ↔ l.eval = r.eval := by
  rw [nBitsEqual_iff]
  constructor
  . intro h
    unfold ReducedWord.eval ReducedWord.syllables
    rw [h]
  . intro h
    have := eval_injective l.isReduced r.isReduced h
    exact List.map_injective_iff.mpr (fun p q => t.extRep_injective) this

/--
`NBits_Less` is a strict total order on a set of words and agrees with the length-plus-lexicographic
order of the free group there.
-/
structure IsShortlexOrder (t : WordType) (W : Set (ReducedWord t)) : Prop where
  irrefl : ∀ l ∈ W, nBitsLess t l.data l.data = false
  trans : ∀ l ∈ W, ∀ r ∈ W, ∀ s ∈ W,
    nBitsLess t l.data r.data = true → nBitsLess t r.data s.data = true →
      nBitsLess t l.data s.data = true
  trichotomy : ∀ l ∈ W, ∀ r ∈ W,
    (nBitsLess t l.data r.data, nBitsEqual l.data r.data, nBitsLess t r.data l.data)
      ∈ [(true, false, false), (false, true, false), (false, false, true)]
  shortlex : ∀ l ∈ W, ∀ r ∈ W,
    nBitsLess t l.data r.data = true ↔ shortlexLt l.eval r.eval

theorem isShortlexOrder_of_shortlex {t : WordType} {W : Set (ReducedWord t)}
    (h : ∀ l ∈ W, ∀ r ∈ W, nBitsLess t l.data r.data = true ↔ shortlexLt l.eval r.eval)
    : IsShortlexOrder t W where
  irrefl := by
    intro l hl
    rw [eq_false_iff, ne_eq, h l hl l hl]
    exact shortlexLt_irrefl l.eval
  trans := by
    intro l hl r hr s hs hlr hrs
    rw [h l hl r hr] at hlr
    rw [h r hr s hs] at hrs
    rw [h l hl s hs]
    exact shortlexLt_trans hlr hrs
  trichotomy := by
    intro l hl r hr
    have hlr := h l hl r hr
    have hrl := h r hr l hl
    have heq := nBitsEqual_iff_eval l r
    simp only [List.mem_cons, Prod.mk.injEq, List.not_mem_nil, eq_false_iff, ne_eq, hlr, hrl,
      heq]
    by_cases h1 : shortlexLt l.eval r.eval
    . have h2 := shortlexLt_asymm h1
      have h3 : l.eval ≠ r.eval := by
        intro h3
        rw [h3] at h1
        exact shortlexLt_irrefl r.eval h1
      simp [h1, h2, h3]
    . by_cases h2 : shortlexLt r.eval l.eval
      . have h3 : l.eval ≠ r.eval := by
          intro h3
          rw [h3] at h2
          exact shortlexLt_irrefl r.eval h2
        simp [h1, h2, h3]
      . have h3 := shortlexLt_trichotomous h1 h2
        simp [h3, shortlexLt_irrefl]
  shortlex := h

theorem isShortlexOrder_iff (t : WordType) (W : Set (ReducedWord t))
    : IsShortlexOrder t W ↔ ∀ l ∈ W, ∀ r ∈ W, ¬Clash l.syllables r.syllables := by
  constructor
  . intro h l hl r hr
    rw [← nBitsLess_iff]
    exact h.shortlex l hl r hr
  . intro h
    apply isShortlexOrder_of_shortlex
    intro l hl r hr
    rw [nBitsLess_iff]
    exact h l hl r hr

def eightBits : WordType where
  bits := 8
  ebits := 4
  bits_eq := by decide
  ebits_pos := by decide
  ebits_lt := by decide

def squareTimesA : ReducedWord eightBits where
  data := [0x12, 0x01]
  lt_two_pow := by decide
  isReduced := by decide
  natAbs_le := by decide

def inverseCube : ReducedWord eightBits where
  data := [0x1D]
  lt_two_pow := by decide
  isReduced := by decide
  natAbs_le := by decide

theorem not_isShortlexOrder_squareTimesA
    : ¬IsShortlexOrder eightBits {squareTimesA, inverseCube} := by
  intro h
  have hless := h.shortlex squareTimesA (by simp) inverseCube (by simp)
  have hlt := hless.mp (by decide)
  have hgt : shortlexLt inverseCube.eval squareTimesA.eval := by
    unfold ReducedWord.eval
    rw [shortlexLt_eval inverseCube.isReduced_syllables squareTimesA.isReduced_syllables]
    have := wordLt_of_sign_ne (g := 2) (a := -3) (b := 2) (l := []) (r := [(1, 1)])
      (by decide) (by decide) (by decide)
    exact this.mpr (by decide)
  exact shortlexLt_asymm hlt hgt

end ObjFgElm
