import GapKernel.CyclicWord
import GapKernel.Tietze.Impl.Search
import Mathlib.GroupTheory.PresentedGroup

/-!
This module contains what a Tietze stack stands for: the letters of its relators, the group that
they are words of, and the stacks whose entries fit together.
-/

open List

section Presentation

open CyclicWord

namespace TietzeStack

def inverse (tietze : TietzeStack) (gen : Int) : Int :=
  entryPlist tietze.inverses (tietze.numgens + 1 + gen).toNat

def IsLetter (tietze : TietzeStack) (gen : Int) : Prop :=
  gen ≠ 0 ∧ -tietze.numgens ≤ gen ∧ gen ≤ tietze.numgens
    ∧ (tietze.inverse gen = -gen ∧ tietze.inverse (-gen) = gen
      ∨ 0 < gen ∧ tietze.inverse gen = gen)

def letters (tietze : TietzeStack) : Set Int :=
  {gen | tietze.IsLetter gen}

def squares (tietze : TietzeStack) : Set (FreeGroup (Fin tietze.numgens)) :=
  {r | ∃ gen : Fin tietze.numgens, tietze.inverse (gen + 1) = gen + 1
    ∧ r = FreeGroup.of gen * FreeGroup.of gen}

abbrev FreeProduct (tietze : TietzeStack) : Type :=
  PresentedGroup tietze.squares

def generator (tietze : TietzeStack) (gen : Nat) : tietze.FreeProduct :=
  if h : gen - 1 < tietze.numgens then PresentedGroup.of ⟨gen - 1, h⟩ else 1

def letterValue (tietze : TietzeStack) (gen : Int) : tietze.FreeProduct :=
  if 0 < gen then tietze.generator gen.toNat else (tietze.generator (-gen).toNat)⁻¹

def value (tietze : TietzeStack) (rel : List Int) : tietze.FreeProduct :=
  (rel.map tietze.letterValue).prod

def normalClosure (tietze : TietzeStack) (relators : List (List Int))
    : Subgroup tietze.FreeProduct :=
  Subgroup.normalClosure {g | ∃ rel ∈ relators, tietze.value rel = g}

/-- The relators are reduced, and the numbers that the stack holds about them are right. -/
structure IsTietze (tietze : TietzeStack) : Prop where
  numrels : tietze.relators.length = tietze.numrels
  inverses : tietze.inverses.length = 2 * tietze.numgens + 1
  flags : tietze.flags.length = tietze.numrels
  lengths : tietze.lengths = tietze.relators.map List.length
  total : tietze.total = tietze.lengths.sum
  letters : ∀ rel ∈ tietze.relators, ∀ gen ∈ rel, tietze.IsLetter gen
  reduced : ∀ rel ∈ tietze.relators, IsCyclicallyReduced tietze.inverse rel

section Letters

variable {tietze : TietzeStack}

variable {gen : Int}

theorem invGen_eq (h : tietze.inverses.length = 2 * tietze.numgens + 1) (hgen : tietze.IsLetter gen)
    : tietze.invGen gen = .ok (tietze.inverse gen) := by
  have hge := hgen.2.1
  have hle := hgen.2.2.1
  unfold invGen inverse
  apply elmPlist_eq_entryPlist
  . omega
  . omega

theorem IsLetter.inverse (h : tietze.IsLetter gen)
    : tietze.IsLetter (tietze.inverse gen) := by
  cases h.2.2.2 with
  | inl hneg =>
    rw [hneg.1]
    have hge := h.2.1
    have hle := h.2.2.1
    have hne := h.1
    refine ⟨by omega, by omega, by omega, Or.inl ⟨?_, ?_⟩⟩
    . rw [hneg.2]
      omega
    . rw [Int.neg_neg]
      exact hneg.1
  | inr hpos =>
    rw [hpos.2]
    exact h

theorem inverse_inverse (h : tietze.IsLetter gen)
    : tietze.inverse (tietze.inverse gen) = gen := by
  cases h.2.2.2 with
  | inl hneg =>
    rw [hneg.1]
    exact hneg.2
  | inr hpos =>
    rw [hpos.2]
    exact hpos.2

theorem mapsTo_inverse : Set.MapsTo tietze.inverse tietze.letters tietze.letters := by
  intro gen hgen
  apply IsLetter.inverse hgen

theorem leftInvOn_inverse : Set.LeftInvOn tietze.inverse tietze.inverse tietze.letters := by
  intro gen hgen
  apply inverse_inverse hgen

theorem generator_sq {gen : Nat} (hpos : 0 < gen) (hle : gen ≤ tietze.numgens)
    (hinv : tietze.inverse gen = gen) : tietze.generator gen * tietze.generator gen = 1 := by
  have hlt : gen - 1 < tietze.numgens := by
    omega
  unfold generator
  rw [dif_pos hlt]
  unfold PresentedGroup.of
  rw [← map_mul]
  apply PresentedGroup.one_of_mem
  refine ⟨⟨gen - 1, hlt⟩, ?_, rfl⟩
  rw [show ((gen - 1 : Nat) : Int) + 1 = gen by omega]
  exact hinv

theorem letterValue_inverse (h : tietze.IsLetter gen)
    : tietze.letterValue (tietze.inverse gen) = (tietze.letterValue gen)⁻¹ := by
  have hne := h.1
  cases h.2.2.2 with
  | inl hneg =>
    rw [hneg.1]
    unfold letterValue
    by_cases hpos : 0 < gen
    . rw [if_neg (by omega)]
      rw [if_pos hpos]
      rw [Int.neg_neg]
    . rw [if_pos (by omega)]
      rw [if_neg hpos]
      rw [inv_inv]
  | inr hpos =>
    rw [hpos.2]
    unfold letterValue
    rw [if_pos hpos.1]
    rw [eq_inv_iff_mul_eq_one]
    have hle := h.2.2.1
    apply generator_sq
    . omega
    . omega
    . rw [Int.toNat_of_nonneg (by omega)]
      exact hpos.2

theorem value_invWord {w : List Int} (hw : ∀ gen ∈ w, tietze.IsLetter gen)
    : tietze.value (invWord tietze.inverse w) = (tietze.value w)⁻¹ := by
  apply prod_invWord (L := tietze.letters)
  . intro gen hgen
    apply letterValue_inverse hgen
  . exact hw

theorem value_append (u v : List Int)
    : tietze.value (u ++ v) = tietze.value u * tietze.value v := by
  unfold value
  rw [map_append]
  rw [prod_append]

end Letters

/--
The relator `y` becomes `z` by means of `x`: in the group, `z` is a conjugate of the product of `y`
and a conjugate of `x` or of its inverse.
-/
structure Exchanges (tietze : TietzeStack) (x y z : List Int) : Prop where
  value : IsExchange (tietze.value x) (tietze.value y) (tietze.value z)
    ∨ IsExchange (tietze.value x)⁻¹ (tietze.value y) (tietze.value z)
  letters : ∀ gen ∈ z, tietze.IsLetter gen
  reduced : IsCyclicallyReduced tietze.inverse z
  length_le : z.length ≤ y.length

section Exchange

variable {tietze : TietzeStack} {x w y z p v r : List Int}

theorem isLetter_of_isRotated (hrot : z ~r w) (hw : ∀ gen ∈ w, tietze.IsLetter gen)
    : ∀ gen ∈ z, tietze.IsLetter gen := by
  intro gen hgen
  apply hw
  rw [← hrot.mem_iff]
  exact hgen

structure IsGiven (tietze : TietzeStack) (x w : List Int) : Prop where
  word : w = x ∨ w = invWord tietze.inverse x
  letters : ∀ gen ∈ x, tietze.IsLetter gen
  reduced : IsCyclicallyReduced tietze.inverse x

variable (h : tietze.IsGiven x w)

include h

theorem IsGiven.letters_word : ∀ gen ∈ w, tietze.IsLetter gen := by
  cases h.word with
  | inl heq =>
    rw [heq]
    exact h.letters
  | inr heq =>
    rw [heq]
    apply invWord_mem mapsTo_inverse h.letters

theorem IsGiven.reduced_word : IsCyclicallyReduced tietze.inverse w := by
  cases h.word with
  | inl heq =>
    rw [heq]
    exact h.reduced
  | inr heq =>
    rw [heq]
    apply IsCyclicallyReduced.invWord leftInvOn_inverse h.letters h.reduced

theorem IsGiven.exchange (hw : w ~r p ++ v) (hy : y ~r p ++ r)
    (hz : IsConj ((tietze.value v)⁻¹ * tietze.value r) (tietze.value z))
    : IsExchange (tietze.value x) (tietze.value y) (tietze.value z)
      ∨ IsExchange (tietze.value x)⁻¹ (tietze.value y) (tietze.value z) := by
  have hw' := isConj_of_isRotated (f := tietze.letterValue) hw
  have hy' := isConj_of_isRotated (f := tietze.letterValue) hy
  rw [map_append, prod_append] at hw' hy'
  have hex := isExchange_of_isConj hw' hy' hz
  cases h.word with
  | inl heq =>
    rw [heq] at hex
    exact Or.inr hex
  | inr heq =>
    have hval := value_invWord h.letters
    rw [← heq] at hval
    unfold value at hval
    rw [hval] at hex
    rw [inv_inv] at hex
    exact Or.inl hex

theorem IsGiven.exchanges (hw : w ~r p ++ v) (hy : y ~r p ++ r)
    (hz : z ~r invWord tietze.inverse v ++ r) (hletters : ∀ gen ∈ y, tietze.IsLetter gen)
    (hred : IsCyclicallyReduced tietze.inverse y) (hv : v ≠ []) (hr : r ≠ [])
    (hhead : v.head? ≠ r.head?) (hlast : v.getLast? ≠ r.getLast?) (hlen : v.length ≤ p.length)
    : tietze.Exchanges x y z := by
  have hwletters := isLetter_of_isRotated hw.symm h.letters_word
  have hyletters := isLetter_of_isRotated hy.symm hletters
  have hvletters : ∀ gen ∈ v, tietze.IsLetter gen := by
    intro gen hgen
    apply hwletters
    apply mem_append_right p hgen
  have hrletters : ∀ gen ∈ r, tietze.IsLetter gen := by
    intro gen hgen
    apply hyletters
    apply mem_append_right p hgen
  constructor
  . apply h.exchange hw hy
    have hconj := isConj_of_isRotated (f := tietze.letterValue) hz.symm
    rw [map_append, prod_append] at hconj
    rw [← value_invWord hvletters]
    exact hconj
  . apply isLetter_of_isRotated hz
    intro gen hgen
    rw [mem_append] at hgen
    cases hgen with
    | inl hgen => apply invWord_mem mapsTo_inverse hvletters gen hgen
    | inr hgen => apply hrletters gen hgen
  . apply IsCyclicallyReduced.of_isRotated _ hz.symm
    apply IsCyclicallyReduced.exchange leftInvOn_inverse hvletters hrletters
      (h.reduced_word.of_isRotated hw) (hred.of_isRotated hy) hv hr hhead hlast
  . have hzlen := hz.perm.length_eq
    have hylen := hy.perm.length_eq
    rw [length_append] at hzlen hylen
    rw [length_invWord] at hzlen
    omega

theorem IsGiven.exchanges_cancel (hw : w ~r p) (hy : y ~r p ++ r) {s r' : List Int}
    (hr : r = s ++ r' ++ invWord tietze.inverse s) (hz : z ~r r')
    (hends : 2 ≤ r'.length → ∀ a ∈ r'.getLast?, ∀ b ∈ r'.head?, a ≠ tietze.inverse b)
    (hletters : ∀ gen ∈ y, tietze.IsLetter gen) (hred : IsCyclicallyReduced tietze.inverse y)
    : tietze.Exchanges x y z := by
  have hrletters : ∀ gen ∈ r, tietze.IsLetter gen := by
    intro gen hgen
    apply isLetter_of_isRotated hy.symm hletters
    apply mem_append_right p hgen
  have hrletters' : ∀ gen ∈ r', tietze.IsLetter gen := by
    intro gen hgen
    apply hrletters
    rw [hr]
    simp [hgen]
  have hrred := (isReduced_append.mp (hred.of_isRotated hy).reduced).2.1
  rw [hr] at hrred
  have hrred' := (isReduced_append.mp (isReduced_append.mp hrred).1).2.1
  constructor
  . rw [← append_nil p] at hw
    apply h.exchange hw hy
    apply IsConj.trans _ (isConj_of_isRotated (f := tietze.letterValue) hz.symm)
    rw [isConj_iff]
    have hsletters : ∀ gen ∈ s, tietze.IsLetter gen := by
      intro gen hgen
      apply hrletters
      rw [hr]
      simp [hgen]
    refine ⟨(tietze.value s)⁻¹, ?_⟩
    rw [hr]
    rw [value_append, value_append, value_invWord hsletters]
    unfold value
    rw [map_nil, prod_nil]
    group
  . apply isLetter_of_isRotated hz hrletters'
  . apply IsCyclicallyReduced.of_isRotated _ hz.symm
    refine ⟨hrred', ?_⟩
    intro hlen a ha b hb heq
    apply hends hlen a ha b hb
    rw [heq]
    rw [inverse_inverse (hrletters' a (mem_of_getLast? ha))]
  . have hzlen := hz.perm.length_eq
    have hylen := hy.perm.length_eq
    rw [hr] at hylen
    simp only [length_append] at hylen
    omega

end Exchange

end TietzeStack

end Presentation

section Replaces

open CyclicWord

namespace TietzeStack

def replace (tietze : TietzeStack) (newflag : Int) (y : Nat) (v z : List Int) : TietzeStack :=
  { tietze with
    relators := tietze.relators.set y z
    lengths := tietze.lengths.set y z.length
    flags := tietze.flags.set y newflag
    total := tietze.total - v.length + z.length }

def Replaces (tietze : TietzeStack) (newflag : Int) (old new : TietzeStack) : Prop :=
  ∃ x y u v z, x ≠ y ∧ old.relators[x]? = some u ∧ old.relators[y]? = some v
    ∧ tietze.Exchanges u v z ∧ new = old.replace newflag y v z

structure IsSearched (newflag : Int) (tietze new : TietzeStack) : Prop where
  steps : Relation.ReflTransGen (tietze.Replaces newflag) tietze new
  numgens : new.numgens = tietze.numgens
  numrels : new.numrels = tietze.numrels
  inverses : new.inverses = tietze.inverses
  -- The relators are reduced, and the lengths and their total are those of the relators.
  isTietze : new.IsTietze
  normalClosure : tietze.normalClosure new.relators = tietze.normalClosure tietze.relators
  length_le : ∀ (y : Nat) (v z : List Int), tietze.relators[y]? = some v → new.relators[y]? = some z
    → z.length ≤ v.length
  -- The flag of a relator that is not the old one any more is the new flag.
  flags : ∀ y : Nat, new.flags[y]? = some newflag
    ∨ new.flags[y]? = tietze.flags[y]? ∧ new.relators[y]? = tietze.relators[y]?

variable {tietze old new : TietzeStack} {newflag : Int}

section

variable (hgens : old.numgens = tietze.numgens) (hinvs : old.inverses = tietze.inverses)

include hgens hinvs

theorem inverse_congr
    : old.inverse = tietze.inverse := by
  funext gen
  unfold inverse
  rw [hgens, hinvs]

theorem isLetter_congr (gen : Int)
    : old.IsLetter gen ↔ tietze.IsLetter gen := by
  unfold IsLetter
  rw [inverse_congr hgens hinvs, hgens]

end

variable {y : Nat}

theorem mem_set_cases {α : Type} {l : List α} {a b : α} (h : b ∈ l.set y a)
    : b ∈ l ∨ b = a :=
  mem_or_eq_of_mem_set h

theorem sum_set_cast {l : List Nat} {a : Nat} (h : l[y]? = some a) (b : Nat)
    : ((l.set y b).sum : Int) = l.sum - a + b := by
  have hy := (List.getElem?_eq_some_iff.mp h).1
  have hsum : (l.set y b).sum + a = l.sum + b := by
    induction l generalizing y with
    | nil => cases h
    | cons c l ih =>
      cases y with
      | zero =>
        rw [getElem?_cons_zero] at h
        rw [← Option.some.inj h]
        simp
        omega
      | succ y =>
        have hrec := ih (by simpa using h) (by simpa using hy)
        simp
        omega
  omega

variable {v : List Int}

theorem replace_isTietze (hgens : old.numgens = tietze.numgens)
    (hinvs : old.inverses = tietze.inverses) (hold : old.IsTietze) {u z : List Int}
    (hv : old.relators[y]? = some v) (hex : tietze.Exchanges u v z)
    : (old.replace newflag y v z).IsTietze := by
  have hlengths : (old.replace newflag y v z).lengths
      = (old.replace newflag y v z).relators.map List.length := by
    unfold replace
    dsimp only
    rw [map_set]
    rw [hold.lengths]
  constructor
  . unfold replace
    dsimp only
    rw [length_set]
    exact hold.numrels
  . exact hold.inverses
  . unfold replace
    dsimp only
    rw [length_set]
    exact hold.flags
  . exact hlengths
  . unfold replace
    dsimp only
    have hlen : old.lengths[y]? = some v.length := by
      rw [hold.lengths, getElem?_map, hv]
      rfl
    rw [sum_set_cast hlen]
    rw [hold.total]
  . intro rel hrel gen hgen
    cases mem_set_cases hrel with
    | inl hmem => apply hold.letters rel hmem gen hgen
    | inr heq =>
      rw [heq] at hgen
      have hletter := hex.letters gen hgen
      rw [← isLetter_congr hgens hinvs] at hletter
      exact hletter
  . intro rel hrel
    cases mem_set_cases hrel with
    | inl hmem => apply hold.reduced rel hmem
    | inr heq =>
      rw [heq]
      have hred := hex.reduced
      rw [← inverse_congr hgens hinvs] at hred
      exact hred

theorem setOf_value_set {l : List (List Int)} (hv : l[y]? = some v) (z : List Int)
    : {g | ∃ rel ∈ l.set y z, tietze.value rel = g}
      = insert (tietze.value z) {g | ∃ x rel, x ≠ y ∧ l[x]? = some rel ∧ tietze.value rel = g} := by
  have hy := (List.getElem?_eq_some_iff.mp hv).1
  ext g
  rw [Set.mem_insert_iff]
  constructor
  . intro h
    rcases h with ⟨rel, h⟩
    have hmem := mem_iff_getElem?.mp h.1
    rcases hmem with ⟨x, hx⟩
    rw [getElem?_set] at hx
    by_cases hxy : y = x
    . rw [if_pos hxy, if_pos (by omega)] at hx
      rw [Option.some.inj hx]
      exact Or.inl h.2.symm
    . rw [if_neg hxy] at hx
      exact Or.inr ⟨x, rel, Ne.symm hxy, hx, h.2⟩
  . intro h
    cases h with
    | inl h =>
      rw [h]
      exact ⟨z, mem_set hy z, rfl⟩
    | inr h =>
      rcases h with ⟨x, rel, h⟩
      refine ⟨rel, ?_, h.2.2⟩
      rw [mem_iff_getElem?]
      refine ⟨x, ?_⟩
      rw [getElem?_set_ne (Ne.symm h.1)]
      exact h.2.1

theorem normalClosure_set {l : List (List Int)} {x : Nat} {u z : List Int} (hxy : x ≠ y)
    (hu : l[x]? = some u) (hv : l[y]? = some v) (hex : tietze.Exchanges u v z)
    : tietze.normalClosure (l.set y z) = tietze.normalClosure l := by
  have hself : l = l.set y v := by
    have hy := List.getElem?_eq_some_iff.mp hv
    rcases hy with ⟨hlt, heq⟩
    rw [← heq]
    rw [set_getElem_self]
  have hmem : tietze.value u ∈ Subgroup.normalClosure
      {g | ∃ x rel, x ≠ y ∧ l[x]? = some rel ∧ tietze.value rel = g} := by
    apply Subgroup.subset_normalClosure
    exact ⟨x, u, hxy, hu, rfl⟩
  unfold normalClosure
  conv =>
    rhs
    rw [hself]
  rw [setOf_value_set hv, setOf_value_set hv]
  cases hex.value with
  | inl h => apply normalClosure_exchange h hmem
  | inr h =>
    apply normalClosure_exchange h
    apply Subgroup.inv_mem _ hmem

theorem isSearched_refl (h : tietze.IsTietze) : IsSearched newflag tietze tietze := by
  refine ⟨Relation.ReflTransGen.refl, rfl, rfl, rfl, h, rfl, ?_, ?_⟩
  . intro y v z hv hz
    rw [hv] at hz
    rw [Option.some.inj hz]
  . intro y
    exact Or.inr ⟨rfl, rfl⟩

theorem IsSearched.tail (h : IsSearched newflag tietze old) (hstep : tietze.Replaces newflag old new)
    : IsSearched newflag tietze new := by
  have hsteps := Relation.ReflTransGen.tail h.steps hstep
  rcases hstep with ⟨x, y, u, v, z, hstep⟩
  have hxy := hstep.1
  have hu := hstep.2.1
  have hv := hstep.2.2.1
  have hex := hstep.2.2.2.1
  have hnew := hstep.2.2.2.2
  have hy := (List.getElem?_eq_some_iff.mp hv).1
  refine ⟨hsteps, ?_, ?_, ?_, ?_, ?_, ?_, ?_⟩
  . rw [hnew]
    exact h.numgens
  . rw [hnew]
    exact h.numrels
  . rw [hnew]
    exact h.inverses
  . rw [hnew]
    apply replace_isTietze h.numgens h.inverses h.isTietze hv hex
  . rw [hnew, ← h.normalClosure]
    apply normalClosure_set hxy hu hv hex
  . intro k v' z' hv' hz'
    rw [hnew] at hz'
    unfold replace at hz'
    dsimp only at hz'
    rw [getElem?_set] at hz'
    by_cases hk : y = k
    . rw [if_pos hk, if_pos (by omega)] at hz'
      rw [← Option.some.inj hz']
      rw [hk] at hv
      exact Nat.le_trans hex.length_le (h.length_le k v' v hv' hv)
    . rw [if_neg hk] at hz'
      apply h.length_le k v' z' hv' hz'
  . intro k
    rw [hnew]
    unfold replace
    dsimp only
    rw [getElem?_set, getElem?_set]
    have hlen : old.flags.length = old.relators.length := by
      rw [h.isTietze.flags, h.isTietze.numrels]
    by_cases hk : y = k
    . rw [if_pos hk, if_pos (by omega)]
      exact Or.inl rfl
    . rw [if_neg hk, if_neg hk]
      apply h.flags k

end TietzeStack

end Replaces
