import GapKernel.CosetTable.Lemmas.Canonical

open CyclicWord LastRotation List

namespace CosetTable

theorem Holds.take_eq {ptRel u : List Int} (h : Holds ptRel u) : ptRel.take u.length = u := by
  have hle := h.length_le
  apply ext_getElem
  . rw [length_take]
    omega
  . intro t h1 h2
    rw [getElem_take, ← h.getD_eq t h2, getD_eq_getElem]

def rotations (u : List Int) : Set (List Int) :=
  {x | x ~r u ∨ x ~r invWord Neg.neg u}

section Words

variable {u v : List Int}

theorem invWord_neg (u : List Int) : invWord Neg.neg (invWord Neg.neg u) = u :=
  invWord_invWord (L := Set.univ) (fun x _ => Int.neg_neg x) (fun _ _ => Set.mem_univ _)

theorem rotations_of_isRotated (h : u ~r v) : rotations u = rotations v := by
  ext x
  exact or_congr ⟨fun hx => hx.trans h, fun hx => hx.trans h.symm⟩
    ⟨fun hx => hx.trans (isRotated_invWord h), fun hx => hx.trans (isRotated_invWord h).symm⟩

theorem rotations_invWord (u : List Int) : rotations (invWord Neg.neg u) = rotations u := by
  unfold rotations
  rw [invWord_neg]
  exact Set.ext fun x => or_comm

def IsBounded (w : IntSize) (u : List Int) : Prop :=
  ∀ x ∈ u, -2 ^ w.nrSmallIntBits ≤ x ∧ x ≤ 2 ^ w.nrSmallIntBits

theorem IsBounded.negatable {w : IntSize} (h : IsBounded w u) : Negatable w u := by
  intro x hx
  have hpos : (0 : Int) < 2 ^ w.nrSmallIntBits := by
    positivity
  have hbounds := h x hx
  apply IntSize.intobj_of_bounds
  . omega
  . omega

end Words

section Run

variable {w : IntSize} {rel : List Int}

theorem makeCanonical_isGreatest (hne : rel ≠ []) (hred : IsReduced Neg.neg rel)
    (hw : Negatable w rel)
    : ∃ rel' p u, makeCanonical w rel = .ok rel' ∧ IsCyclicReduction rel p u
        ∧ IsGreatest (rotations u) rel' := by
  have hlen : 0 < rel.length := length_pos_iff.mpr hne
  obtain ⟨ptRel, p, u, hrun, hholds, hreduction⟩ := cyclicallyReduce_spec hred hlen
  have hpos : 0 < u.length := length_pos_iff.mpr hreduction.ne_nil
  have hwu : Negatable w u := by
    intro x hx
    apply hw
    rw [hreduction.eq]
    simp [hx]
  obtain ⟨s, hruns, hs⟩ := findExtrema_spec hpos hholds.length_le
  obtain ⟨i, j, hrunc, hchoice⟩ := chooseWord_spec hholds hs
  unfold makeCanonical
  rw [if_neg (Nat.ne_of_gt hlen), hrun, ok_bind]
  dsimp only
  rw [hruns, ok_bind, hrunc, ok_bind]
  unfold invertChosen
  rcases hchoice with ⟨hi, hj, hgreatest⟩ | ⟨hi, hgreatest⟩
  . obtain ⟨ptRel1, hruni, hholds1⟩ := invertRelator_spec hholds hwu hpos
    have hlenv : (invWord Neg.neg u).length = u.length := length_invWord u
    obtain ⟨ptRel2, hrunr, hholds2⟩ := @rotateRelator_spec ptRel1 _ (u.length - 1 - j) hholds1
      (by omega)
    rw [hlenv] at hrunr
    rw [if_pos hi, hruni, ok_bind]
    have htake := hholds2.take_eq
    rw [length_rotate, hlenv] at htake
    refine ⟨_, p, u, ?_, hreduction, hgreatest⟩
    show (rotateRelator ptRel1 u.length (u.length - 1 - j) >>= _) = _
    rw [hrunr, ok_bind, htake]
    rfl
  . obtain ⟨ptRel2, hrunr, hholds2⟩ := rotateRelator_spec hholds hi
    rw [if_neg (Nat.ne_of_lt hi)]
    have htake := hholds2.take_eq
    rw [length_rotate] at htake
    refine ⟨_, p, u, ?_, hreduction, hgreatest⟩
    show (rotateRelator ptRel u.length i >>= _) = _
    rw [hrunr, ok_bind, htake]
    rfl

end Run

section Group

variable {u v rel : List Int}

def letter (x : Int) : Nat × Bool :=
  (x.natAbs, decide (0 < x))

def element (rel : List Int) : FreeGroup Nat :=
  .mk (rel.map letter)

theorem element_eq_prod (rel : List Int)
    : element rel = (rel.map fun x => FreeGroup.mk [letter x]).prod := by
  unfold element
  induction rel with
  | nil => rfl
  | cons x rel ih =>
    rw [map_cons, map_cons, prod_cons, ← ih, FreeGroup.mul_mk, singleton_append]

theorem isConj_element (h : u ~r v) : IsConj (element u) (element v) := by
  rw [element_eq_prod, element_eq_prod]
  exact isConj_of_isRotated h

theorem isConj_inv {G : Type*} [Group G] {a b : G} (h : IsConj a b) : IsConj a⁻¹ b⁻¹ := by
  obtain ⟨g, rfl⟩ := isConj_iff.mp h
  exact isConj_iff.mpr ⟨g, by group⟩

theorem letter_injective : Function.Injective letter := by
  intro x y h
  obtain ⟨habs, hpos⟩ := Prod.ext_iff.mp h
  have hiff := decide_eq_decide.mp hpos
  dsimp only [letter] at habs
  omega

theorem letter_neg {x : Int} (hx : x ≠ 0) : letter (-x) = ((letter x).1, !(letter x).2) := by
  unfold letter
  refine Prod.ext (Int.natAbs_neg x) ?_
  rw [← decide_not, decide_eq_decide]
  omega

theorem map_letter_invWord (hu : ∀ x ∈ u, x ≠ 0)
    : (invWord Neg.neg u).map letter = FreeGroup.invRev (u.map letter) := by
  unfold invWord FreeGroup.invRev
  rw [map_reverse, map_map, map_map]
  congr 1
  apply map_congr_left
  intro x hx
  exact letter_neg (hu x hx)

theorem element_invWord (hu : ∀ x ∈ u, x ≠ 0) : element (invWord Neg.neg u) = (element u)⁻¹ := by
  unfold element
  rw [map_letter_invWord hu, FreeGroup.inv_mk]

theorem letters_agree {a b : Int} (h : b ≠ -a) (habs : (letter a).1 = (letter b).1)
    : (letter a).2 = (letter b).2 := by
  unfold letter at *
  rw [decide_eq_decide]
  omega

theorem isCyclicallyReduced_letters (h : IsCyclicallyReduced Neg.neg u)
    : FreeGroup.IsCyclicallyReduced (u.map letter) := by
  constructor
  . unfold FreeGroup.IsReduced
    rw [isChain_map]
    exact List.IsChain.imp (fun a b hab => letters_agree hab) h.reduced
  . intro a ha b hb
    rw [getLast?_map, Option.mem_def, Option.map_eq_some_iff] at ha
    rw [head?_map, Option.mem_def, Option.map_eq_some_iff] at hb
    obtain ⟨x, hx, rfl⟩ := ha
    obtain ⟨y, hy, rfl⟩ := hb
    by_cases hlen : 2 ≤ u.length
    . exact letters_agree (h.ends hlen x hx y hy)
    . have hsame : x = y := by
        cases u with
        | nil => cases hx
        | cons z t =>
          have ht : t = [] := length_eq_zero_iff.mp (by rw [length_cons] at hlen; omega)
          subst ht
          cases hx
          cases hy
          rfl
      rw [hsame]
      exact fun _ => rfl

theorem isRotated_of_element (hu : IsCyclicallyReduced Neg.neg u)
    (hv : IsCyclicallyReduced Neg.neg v) (h : IsConj (element u) (element v)) : u ~r v := by
  have hrot := FreeGroup.isRotated_of_isConj (isCyclicallyReduced_letters hu)
    (isCyclicallyReduced_letters hv) h
  obtain ⟨n, hn⟩ := hrot
  refine ⟨n, ?_⟩
  rw [← map_rotate] at hn
  exact map_injective_iff.mpr letter_injective hn

theorem IsCyclicReduction.isConj {p : List Int} (h : IsCyclicReduction rel p u)
    (hrel : ∀ x ∈ rel, x ≠ 0) : IsConj (element u) (element rel) := by
  have hp : ∀ x ∈ p, x ≠ 0 := fun x hx => hrel x (by rw [h.eq]; simp [hx])
  rw [isConj_iff]
  refine ⟨element p, ?_⟩
  rw [h.eq]
  unfold element
  rw [map_append, map_append, map_letter_invWord hp, FreeGroup.mk_conj]

end Group

section Main

variable {w : IntSize} {rel rel2 : List Int}

def IsConjOrInv (rel rel2 : List Int) : Prop :=
  IsConj (element rel) (element rel2) ∨ IsConj (element rel)⁻¹ (element rel2)

structure IsWord (w : IntSize) (rel : List Int) : Prop where
  ne_nil : rel ≠ []
  reduced : IsReduced Neg.neg rel
  ne_zero : ∀ x ∈ rel, x ≠ 0
  bounded : IsBounded w rel

theorem isReduced_inverse {u : List Int} (h : IsCyclicallyReduced Neg.neg u)
    : IsCyclicallyReduced Neg.neg (invWord Neg.neg u) :=
  IsCyclicallyReduced.invWord (L := Set.univ) (fun x _ => Int.neg_neg x) (fun _ _ => Set.mem_univ _)
    h

theorem rotations_eq {p p2 u u2 : List Int} (h : IsCyclicReduction rel p u)
    (h2 : IsCyclicReduction rel2 p2 u2) (hrel : ∀ x ∈ rel, x ≠ 0) (hrel2 : ∀ x ∈ rel2, x ≠ 0)
    (hconj : IsConjOrInv rel rel2) : rotations u = rotations u2 := by
  have hu := h.isConj hrel
  have hu2 := (h2.isConj hrel2).symm
  rcases hconj with hconj | hconj
  . exact rotations_of_isRotated
      (isRotated_of_element h.reduced h2.reduced ((hu.trans hconj).trans hu2))
  . have huz : ∀ x ∈ u, x ≠ 0 := fun x hx => hrel x (by rw [h.eq]; simp [hx])
    have hinv : IsConj (element (invWord Neg.neg u)) (element u2) := by
      rw [element_invWord huz]
      exact ((isConj_inv hu).trans hconj).trans hu2
    rw [← rotations_invWord u]
    exact rotations_of_isRotated
      (isRotated_of_element (isReduced_inverse h.reduced) h2.reduced hinv)

theorem makeCanonical_of_isConj (h : IsWord w rel) (h2 : IsWord w rel2)
    (hconj : IsConjOrInv rel rel2) : makeCanonical w rel2 = makeCanonical w rel := by
  obtain ⟨rel', p, u, hrun, hreduction, hgreatest⟩ :=
    makeCanonical_isGreatest h.ne_nil h.reduced h.bounded.negatable
  obtain ⟨rel2', p2, u2, hrun2, hreduction2, hgreatest2⟩ :=
    makeCanonical_isGreatest h2.ne_nil h2.reduced h2.bounded.negatable
  rw [rotations_eq hreduction hreduction2 h.ne_zero h2.ne_zero hconj] at hgreatest
  rw [hrun, hrun2, hgreatest.unique hgreatest2]

theorem isWord_of_isRotated {u x : List Int} (h : IsCyclicallyReduced Neg.neg u) (hne : u ≠ [])
    (hu : ∀ y ∈ u, y ≠ 0) (hb : IsBounded w u) (hx : x ~r u) : IsWord w x := by
  refine ⟨?_, (h.of_isRotated hx.symm).reduced, ?_, ?_⟩
  . rintro rfl
    exact hne (isRotated_nil_iff'.mp hx).symm
  . exact fun y hy => hu y (hx.mem_iff.mp hy)
  . exact fun y hy => hb y (hx.mem_iff.mp hy)

theorem IsCyclicReduction.isWord_of_mem {p u x : List Int} (hred : IsCyclicReduction rel p u)
    (h : IsWord w rel) (hx : x ∈ rotations u) : IsWord w x ∧ IsConjOrInv rel x := by
  have hconj := (hred.isConj h.ne_zero).symm
  have hmem : ∀ y ∈ u, y ∈ rel := fun y hy => by
    rw [hred.eq]
    simp [hy]
  have hu : ∀ y ∈ u, y ≠ 0 := fun y hy => h.ne_zero y (hmem y hy)
  have hb : IsBounded w u := fun y hy => h.bounded y (hmem y hy)
  rcases hx with hx | hx
  . refine ⟨isWord_of_isRotated hred.reduced hred.ne_nil hu hb hx, Or.inl ?_⟩
    exact hconj.trans (isConj_element hx.symm)
  . have hmemv {y : Int} (hy : y ∈ invWord Neg.neg u) : -y ∈ u := by
      simpa [invWord, neg_eq_iff_eq_neg] using hy
    refine ⟨isWord_of_isRotated (isReduced_inverse hred.reduced)
      (mt invWord_eq_nil_iff.mp hred.ne_nil) ?_ ?_ hx, Or.inr ?_⟩
    . exact fun y hy h0 => hu (-y) (hmemv hy) (by rw [h0, Int.neg_zero])
    . intro y hy
      have hbounds := hb (-y) (hmemv hy)
      omega
    . apply IsConj.trans _ (isConj_element hx.symm)
      rw [element_invWord hu]
      exact isConj_inv hconj

structure IsRelator (w : IntSize) (rel : List Int) : Prop where
  ne_nil : rel ≠ []
  reduced : IsReduced Neg.neg rel
  small : ∀ x ∈ rel, x ≠ 0 ∧ w.IsSmall x

theorem IsRelator.isWord (h : IsRelator w rel) : IsWord w rel := by
  refine ⟨h.ne_nil, h.reduced, fun x hx => (h.small x hx).1, fun x hx => ?_⟩
  have hsmall := IntSize.isSmall_iff.mp (h.small x hx).2
  omega

/--
The result is the last word, other words that are conjugate to the relator or its inverse have the
same result, and it is its own canonical form.
-/
theorem makeCanonical_spec (h : IsRelator w rel)
    : ∃ rel', makeCanonical w rel = .ok rel'
        ∧ (∃ p u, IsCyclicReduction rel p u ∧ IsGreatest (rotations u) rel')
        ∧ (∀ rel2, IsRelator w rel2 → IsConjOrInv rel rel2 → makeCanonical w rel2 = .ok rel')
        ∧ makeCanonical w rel' = .ok rel' := by
  have hword := h.isWord
  obtain ⟨rel', p, u, hrun, hreduction, hgreatest⟩ :=
    makeCanonical_isGreatest h.ne_nil h.reduced hword.bounded.negatable
  obtain ⟨hword', hconj'⟩ := hreduction.isWord_of_mem hword hgreatest.1
  refine ⟨rel', hrun, ⟨p, u, hreduction, hgreatest⟩, fun rel2 h2 hconj => ?_, ?_⟩
  . rw [makeCanonical_of_isConj hword h2.isWord hconj, hrun]
  . rw [makeCanonical_of_isConj hword hword' hconj', hrun]

theorem makeCanonical_spec_conjugate
    : ∃ rel', makeCanonical .int8 [1, 2, -3, -2, -1] = .ok rel'
        ∧ (∃ p u, IsCyclicReduction [1, 2, -3, -2, -1] p u ∧ IsGreatest (rotations u) rel')
        ∧ (∀ rel2, IsRelator .int8 rel2 → IsConjOrInv [1, 2, -3, -2, -1] rel2
          → makeCanonical .int8 rel2 = .ok rel')
        ∧ makeCanonical .int8 rel' = .ok rel' :=
  makeCanonical_spec ⟨by decide, by unfold CyclicWord.IsReduced; decide, by decide⟩

end Main

end CosetTable
