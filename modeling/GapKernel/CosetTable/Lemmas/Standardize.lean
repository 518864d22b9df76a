import GapKernel.CosetTable.Impl
import GapKernel.StandardOrder
import Mathlib.Algebra.Group.End

open StandardOrder List

namespace CosetTable

section Entries

variable {β : Type} {n L M : Nat}

theorem swap_range (hL : 0 < L ∧ L ≤ n) (hM : 0 < M ∧ M ≤ n) (c : Nat)
    : 0 < c ∧ c ≤ n ↔ 0 < Equiv.swap L M c ∧ Equiv.swap L M c ≤ n := by
  rw [Equiv.swap_apply_def]
  split
  . next h => rw [h]; exact iff_of_true hL hM
  . split
    . next h => rw [h]; exact iff_of_true hM hL
    . exact Iff.rfl

variable {c : Nat}

theorem elmPlist_getElem? {h : List β} (h0 : 0 < c) (hc : c ≤ h.length)
    : ∃ x, elmPlist h c = .ok x ∧ h[c - 1]? = some x := by
  obtain ⟨i, rfl⟩ : ∃ i, c = i + 1 := ⟨c - 1, by omega⟩
  have hi : i < h.length := hc
  exact ⟨h[i], elmPlist_of_getElem? (getElem?_eq_getElem hi), getElem?_eq_getElem hi⟩

theorem swapEntries_spec {h : List β} (hlen : h.length = n) (hL : 0 < L ∧ L ≤ n)
    (hM : 0 < M ∧ M ≤ n)
    : ∃ h', swapEntries h L M = .ok h' ∧ h'.length = n
        ∧ ∀ c, 0 < c → c ≤ n → h'[c - 1]? = h[Equiv.swap L M c - 1]? := by
  obtain ⟨x, hx, hgetx⟩ := elmPlist_getElem? hL.1 (by omega : L ≤ h.length)
  obtain ⟨y, hy, hgety⟩ := elmPlist_getElem? hM.1 (by omega : M ≤ h.length)
  unfold swapEntries
  rw [hx, ok_bind, hy, ok_bind, setElmPlist_eq hL.1 (by omega), ok_bind,
    setElmPlist_eq hM.1 (by rw [length_set]; omega)]
  refine ⟨_, rfl, by rw [length_set, length_set, hlen], fun c h0 hc => ?_⟩
  rw [getElem?_set, getElem?_set, length_set, Equiv.swap_apply_def]
  by_cases hcM : c = M
  . subst hcM
    rw [if_pos rfl, if_pos (by omega)]
    by_cases hcL : c = L
    . rw [if_pos hcL, ← hgetx, hcL]
    . rw [if_neg hcL, if_pos rfl, ← hgetx]
  . rw [if_neg (by omega)]
    by_cases hcL : c = L
    . subst hcL
      rw [if_pos rfl, if_pos (by omega), if_pos rfl, ← hgety]
    . rw [if_neg (by omega), if_neg hcL, if_neg hcM]

variable {h : List Nat}

theorem entryPlist_pos (h0 : 0 < c)
    : entryPlist h c = h[c - 1]?.getD 0 := by
  obtain ⟨i, rfl⟩ : ∃ i, c = i + 1 := ⟨c - 1, by omega⟩
  exact getD_eq_getElem?_getD

structure IsInverse (n : Nat) (h i : List Nat) : Prop where
  length_left : h.length = n
  length_right : i.length = n
  range_left : ∀ c, 0 < c → c ≤ n → 0 < entryPlist h c ∧ entryPlist h c ≤ n
  range_right : ∀ c, 0 < c → c ≤ n → 0 < entryPlist i c ∧ entryPlist i c ≤ n
  right_left : ∀ c, 0 < c → c ≤ n → entryPlist i (entryPlist h c) = c
  left_right : ∀ c, 0 < c → c ≤ n → entryPlist h (entryPlist i c) = c

variable {i : List Nat}

theorem IsInverse.symm (hi : IsInverse n h i) : IsInverse n i h :=
  ⟨hi.length_right, hi.length_left, hi.range_right, hi.range_left, hi.left_right, hi.right_left⟩

theorem rename_spec (hi : IsInverse n h i) (hL : 0 < L ∧ L ≤ n) (hM : 0 < M ∧ M ≤ n)
    : ∃ i1 i2, renameEntry i (entryPlist h L) M = .ok i1
        ∧ renameEntry i1 (entryPlist h M) L = .ok i2
        ∧ i2.length = n
        ∧ ∀ c, 0 < c → c ≤ n → entryPlist i2 c = Equiv.swap L M (entryPlist i c) := by
  have hlen := hi.length_right
  have hrL := hi.range_left L hL.1 hL.2
  have hrM := hi.range_left M hM.1 hM.2
  have hrun1 : renameEntry i (entryPlist h L) M = .ok (i.set (entryPlist h L - 1) M) := by
    unfold renameEntry
    rw [if_pos (by omega), setElmPlist_eq hrL.1 (by omega)]
  have hrun2 : renameEntry (i.set (entryPlist h L - 1) M) (entryPlist h M) L
      = .ok ((i.set (entryPlist h L - 1) M).set (entryPlist h M - 1) L) := by
    unfold renameEntry
    rw [if_pos (by omega), setElmPlist_eq hrM.1 (by rw [length_set]; omega)]
  refine ⟨_, _, hrun1, hrun2, by rw [length_set, length_set, hlen], fun c h0 hc => ?_⟩
  rw [entryPlist_set hrM.1 (by rw [length_set]; omega), entryPlist_set hrL.1 (by omega),
    Equiv.swap_apply_def]
  by_cases hcM : c = entryPlist h M
  . rw [if_pos hcM, hcM, hi.right_left M hM.1 hM.2]
    split
    . next heq => exact heq.symm
    . rw [if_pos rfl]
  . rw [if_neg hcM]
    have hneM : entryPlist i c ≠ M := by
      intro heq
      apply hcM
      rw [← heq, hi.left_right c h0 hc]
    by_cases hcL : c = entryPlist h L
    . rw [if_pos hcL, hcL, hi.right_left L hL.1 hL.2, if_pos rfl]
    . have hneL : entryPlist i c ≠ L := by
        intro heq
        apply hcL
        rw [← heq, hi.left_right c h0 hc]
      rw [if_neg hcL, if_neg hneL, if_neg hneM]

def IsRenumbered (n : Nat) (σ : Equiv.Perm Nat) (h h' : List Nat) : Prop :=
  ∀ c, 0 < c → c ≤ n → entryPlist h' (σ c) = σ (entryPlist h c)

variable {h' : List Nat}

theorem isRenumbered_swap (hL : 0 < L ∧ L ≤ n) (hM : 0 < M ∧ M ≤ n) (heq : ∀ c, 0 < c → c ≤ n
      → entryPlist h' c = Equiv.swap L M (entryPlist h (Equiv.swap L M c)))
    : IsRenumbered n (Equiv.swap L M) h h' := by
  intro c h0 hc
  have hrange := (swap_range hL hM c).mp ⟨h0, hc⟩
  rw [heq _ hrange.1 hrange.2, Equiv.swap_apply_self]

theorem entryPlist_swapped (hL : 0 < L ∧ L ≤ n) (hM : 0 < M ∧ M ≤ n)
    (heq : ∀ c, 0 < c → c ≤ n → h'[c - 1]? = h[Equiv.swap L M c - 1]?) (h0 : 0 < c) (hc : c ≤ n)
    : entryPlist h' c = entryPlist h (Equiv.swap L M c) := by
  rw [entryPlist_pos h0, heq c h0 hc, entryPlist_pos ((swap_range hL hM c).mp ⟨h0, hc⟩).1]

theorem IsInverse.of_isRenumbered {σ : Equiv.Perm Nat} (hσ : ∀ c, 0 < c ∧ c ≤ n ↔ 0 < σ c ∧ σ c ≤ n)
    {i' : List Nat} (hi : IsInverse n h i) (hh : IsRenumbered n σ h h')
    (hii : IsRenumbered n σ i i') (hlen : h'.length = n) (hlen' : i'.length = n)
    : IsInverse n h' i' := by
  have hback (c : Nat) (h0 : 0 < c) (hc : c ≤ n) : ∃ b, 0 < b ∧ b ≤ n ∧ σ b = c := by
    have hb := (hσ (σ.symm c)).mpr (by rw [Equiv.apply_symm_apply]; exact ⟨h0, hc⟩)
    exact ⟨σ.symm c, hb.1, hb.2, Equiv.apply_symm_apply σ c⟩
  refine ⟨hlen, hlen', ?_, ?_, ?_, ?_⟩
  . intro c h0 hc
    obtain ⟨b, hb0, hb, rfl⟩ := hback c h0 hc
    rw [hh b hb0 hb]
    exact (hσ _).mp (hi.range_left b hb0 hb)
  . intro c h0 hc
    obtain ⟨b, hb0, hb, rfl⟩ := hback c h0 hc
    rw [hii b hb0 hb]
    exact (hσ _).mp (hi.range_right b hb0 hb)
  . intro c h0 hc
    obtain ⟨b, hb0, hb, rfl⟩ := hback c h0 hc
    have hr := hi.range_left b hb0 hb
    rw [hh b hb0 hb, hii _ hr.1 hr.2, hi.right_left b hb0 hb]
  . intro c h0 hc
    obtain ⟨b, hb0, hb, rfl⟩ := hback c h0 hc
    have hr := hi.range_right b hb0 hb
    rw [hii b hb0 hb, hh _ hr.1 hr.2, hi.left_right b hb0 hb]

end Entries

section Pairs

variable {α : Type} {n L M : Nat} {σ : Equiv.Perm Nat}

structure IsPairRenumbered (n : Nat) (σ : Equiv.Perm Nat) (p p' : ColPair Nat) : Prop where
  fst : IsRenumbered n σ p.fst p'.fst
  snd : IsRenumbered n σ p.snd p'.snd

def IsPair (n : Nat) (p : ColPair Nat) : Prop :=
  IsInverse n p.fst p.snd

theorem elmPlist_column {h : List Nat} (hlen : h.length = n) {c : Nat} (h0 : 0 < c) (hc : c ≤ n)
    : elmPlist h c = .ok (entryPlist h c) :=
  elmPlist_eq_entryPlist h0 (by omega)

theorem swapPair_spec {p : ColPair Nat} (hp : IsPair n p) (hL : 0 < L ∧ L ≤ n) (hM : 0 < M ∧ M ≤ n)
    : ∃ p', swapPair L M p = .ok p' ∧ IsPair n p' ∧ p'.isTwo = p.isTwo
        ∧ IsPairRenumbered n (Equiv.swap L M) p p' := by
  have hτ := swap_range hL hM
  have hττ (x : Nat) : Equiv.swap L M (Equiv.swap L M x) = x := Equiv.swap_apply_self L M x
  cases p with
  | two h i =>
    have hp : IsInverse n h i := hp
    obtain ⟨i1, i2, hrun1, hrun2, hlen2, hent2⟩ := rename_spec hp hL hM
    obtain ⟨h1, hswap, hlen1, hget1⟩ := swapEntries_spec hp.length_left hL hM
    have hent1 {c : Nat} (h0 : 0 < c) (hc : c ≤ n) := entryPlist_swapped hL hM hget1 h0 hc
    -- Halfway the columns are inverse to each other again.
    have hmid : IsInverse n h1 i2 := by
      refine ⟨hlen1, hlen2, ?_, ?_, ?_, ?_⟩
      . intro c h0 hc
        have hr := (hτ c).mp ⟨h0, hc⟩
        rw [hent1 h0 hc]
        exact hp.range_left _ hr.1 hr.2
      . intro c h0 hc
        rw [hent2 c h0 hc]
        exact (hτ _).mp (hp.range_right c h0 hc)
      . intro c h0 hc
        have hr := (hτ c).mp ⟨h0, hc⟩
        have hr' := hp.range_left _ hr.1 hr.2
        rw [hent1 h0 hc, hent2 _ hr'.1 hr'.2, hp.right_left _ hr.1 hr.2, hττ]
      . intro c h0 hc
        have hr := hp.range_right c h0 hc
        have hr' := (hτ _).mp hr
        rw [hent2 c h0 hc, hent1 hr'.1 hr'.2, hττ, hp.left_right c h0 hc]
    obtain ⟨h2, h3, hrun3, hrun4, hlen3, hent3⟩ := rename_spec hmid.symm hL hM
    obtain ⟨i3, hswap3, hlen4, hget3⟩ := swapEntries_spec hlen2 hL hM
    have hh : IsRenumbered n (Equiv.swap L M) h h3 := by
      apply isRenumbered_swap hL hM
      intro c h0 hc
      rw [hent3 c h0 hc, hent1 h0 hc]
    have hi : IsRenumbered n (Equiv.swap L M) i i3 := by
      apply isRenumbered_swap hL hM
      intro c h0 hc
      have hr := (hτ c).mp ⟨h0, hc⟩
      rw [entryPlist_swapped hL hM hget3 h0 hc, hent2 _ hr.1 hr.2]
    refine ⟨.two h3 i3, ?_, hp.of_isRenumbered hτ hh hi hlen3 hlen4, rfl, hh, hi⟩
    unfold swapPair
    dsimp only
    rw [elmPlist_column hp.length_left hL.1 hL.2, ok_bind,
      elmPlist_column hp.length_left hM.1 hM.2, ok_bind, hrun1, ok_bind, hrun2, ok_bind, hswap,
      ok_bind, elmPlist_column hlen2 hL.1 hL.2, ok_bind, elmPlist_column hlen2 hM.1 hM.2, ok_bind,
      hrun3, ok_bind, hrun4, ok_bind, hswap3]
    rfl
  | one h =>
    have hp : IsInverse n h h := hp
    obtain ⟨h1, h2, hrun1, hrun2, hlen2, hent2⟩ := rename_spec hp hL hM
    obtain ⟨h3, hswap, hlen3, hget3⟩ := swapEntries_spec hlen2 hL hM
    have hh : IsRenumbered n (Equiv.swap L M) h h3 := by
      apply isRenumbered_swap hL hM
      intro c h0 hc
      have hr := (hτ c).mp ⟨h0, hc⟩
      rw [entryPlist_swapped hL hM hget3 h0 hc, hent2 _ hr.1 hr.2]
    refine ⟨.one h3, ?_, hp.of_isRenumbered hτ hh hh hlen3 hlen3, rfl, hh, hh⟩
    unfold swapPair
    dsimp only
    rw [elmPlist_column hp.length_left hL.1 hL.2, ok_bind,
      elmPlist_column hp.length_left hM.1 hM.2, ok_bind, hrun1, ok_bind, hrun2, ok_bind, hswap]
    rfl

def IsColumnMoved (n : Nat) (σ : Equiv.Perm Nat) (h h' : List α) : Prop :=
  h'.length = n ∧ ∀ c, 0 < c → c ≤ n → h'[σ c - 1]? = h[c - 1]?

structure IsPairMoved (n : Nat) (σ : Equiv.Perm Nat) (p p' : ColPair α) : Prop where
  fst : IsColumnMoved n σ p.fst p'.fst
  snd : IsColumnMoved n σ p.snd p'.snd
  isTwo_eq : p'.isTwo = p.isTwo

theorem swapEntries_moved {h : List α} (hlen : h.length = n) (hL : 0 < L ∧ L ≤ n)
    (hM : 0 < M ∧ M ≤ n)
    : ∃ h', swapEntries h L M = .ok h' ∧ IsColumnMoved n (Equiv.swap L M) h h' := by
  obtain ⟨h', hrun, hlen', hget⟩ := swapEntries_spec hlen hL hM
  refine ⟨h', hrun, hlen', fun c h0 hc => ?_⟩
  have hr := (swap_range hL hM c).mp ⟨h0, hc⟩
  rw [hget _ hr.1 hr.2, Equiv.swap_apply_self]

theorem swapPair2_spec {p : ColPair α} (hfst : p.fst.length = n) (hsnd : p.snd.length = n)
    (hL : 0 < L ∧ L ≤ n) (hM : 0 < M ∧ M ≤ n)
    : ∃ p', swapPair2 L M p.isTwo p = .ok p' ∧ IsPairMoved n (Equiv.swap L M) p p' := by
  cases p with
  | two h i =>
    obtain ⟨h', hrun, hh⟩ := @swapEntries_moved α n L M h hfst hL hM
    obtain ⟨i', hrun', hi⟩ := @swapEntries_moved α n L M i hsnd hL hM
    refine ⟨.two h' i', ?_, hh, hi, rfl⟩
    show swapPair2 L M true (.two h i) = _
    unfold swapPair2
    dsimp only
    rw [hrun, ok_bind, if_pos rfl, hrun']
    rfl
  | one h =>
    obtain ⟨h', hrun, hh⟩ := @swapEntries_moved α n L M h hfst hL hM
    refine ⟨.one h', ?_, hh, hh, rfl⟩
    show swapPair2 L M false (.one h) = _
    unfold swapPair2
    dsimp only
    rw [hrun, ok_bind, if_neg Bool.false_ne_true]
    rfl

variable {τ : Equiv.Perm Nat}

theorem IsPairRenumbered.trans {p p' p'' : ColPair Nat}
    (hσ : ∀ c, 0 < c ∧ c ≤ n ↔ 0 < σ c ∧ σ c ≤ n) (h : IsPairRenumbered n σ p p')
    (h' : IsPairRenumbered n τ p' p'') : IsPairRenumbered n (τ * σ) p p'' := by
  constructor
  . intro c h0 hc
    have hr := (hσ c).mp ⟨h0, hc⟩
    rw [Equiv.Perm.mul_apply, Equiv.Perm.mul_apply, h'.fst _ hr.1 hr.2, h.fst c h0 hc]
  . intro c h0 hc
    have hr := (hσ c).mp ⟨h0, hc⟩
    rw [Equiv.Perm.mul_apply, Equiv.Perm.mul_apply, h'.snd _ hr.1 hr.2, h.snd c h0 hc]

theorem IsColumnMoved.trans {h h' h'' : List α} (hσ : ∀ c, 0 < c ∧ c ≤ n ↔ 0 < σ c ∧ σ c ≤ n)
    (hm : IsColumnMoved n σ h h') (hm' : IsColumnMoved n τ h' h'')
    : IsColumnMoved n (τ * σ) h h'' := by
  refine ⟨hm'.1, fun c h0 hc => ?_⟩
  have hr := (hσ c).mp ⟨h0, hc⟩
  rw [Equiv.Perm.mul_apply, hm'.2 _ hr.1 hr.2, hm.2 c h0 hc]

theorem IsPairMoved.trans {p p' p'' : ColPair α} (hσ : ∀ c, 0 < c ∧ c ≤ n ↔ 0 < σ c ∧ σ c ≤ n)
    (h : IsPairMoved n σ p p') (h' : IsPairMoved n τ p' p'') : IsPairMoved n (τ * σ) p p'' :=
  ⟨h.fst.trans hσ h'.fst, h.snd.trans hσ h'.snd, h'.isTwo_eq.trans h.isTwo_eq⟩

end Pairs

section Tables

variable {α : Type} {n L M : Nat} {σ τ : Equiv.Perm Nat} {table table' table'' : List (ColPair Nat)}
  {table2 table2' table2'' : List (ColPair α)}

def IsTable (n : Nat) (table : List (ColPair Nat)) : Prop :=
  ∀ p ∈ table, IsPair n p

structure IsRenumbering (n : Nat) (σ : Equiv.Perm Nat) (table table' : List (ColPair Nat))
    : Prop where
  one : σ 1 = 1
  range : ∀ c, 0 < c ∧ c ≤ n ↔ 0 < σ c ∧ σ c ≤ n
  pairs : List.Forall₂ (IsPairRenumbered n σ) table table'

def IsMoved (n : Nat) (σ : Equiv.Perm Nat) (table2 table2' : List (ColPair α)) : Prop :=
  List.Forall₂ (IsPairMoved n σ) table2 table2'

def IsFactorTable (n : Nat) (table : List (ColPair Nat)) (table2 : List (ColPair α)) : Prop :=
  List.Forall₂ (fun p p2 => p2.isTwo = p.isTwo ∧ p2.fst.length = n ∧ p2.snd.length = n) table table2

theorem forall₂_trans {β γ δ : Type} {R : β → γ → Prop} {S : γ → δ → Prop} {T : β → δ → Prop}
    (hRS : ∀ a b c, R a b → S b c → T a c) {l : List β} {l' : List γ} {l'' : List δ}
    (h : Forall₂ R l l') (h' : Forall₂ S l' l'') : Forall₂ T l l'' := by
  induction h generalizing l'' with
  | nil =>
    cases h'
    exact List.Forall₂.nil
  | cons hd _ ih =>
    cases h' with
    | cons hd' tl' => exact List.Forall₂.cons (hRS _ _ _ hd hd') (ih tl')

theorem IsRenumbering.trans (h : IsRenumbering n σ table table')
    (h' : IsRenumbering n τ table' table'') : IsRenumbering n (τ * σ) table table'' := by
  refine ⟨?_, fun c => (h.range c).trans (h'.range (σ c)), ?_⟩
  . rw [Equiv.Perm.mul_apply, h.one, h'.one]
  . exact forall₂_trans (fun _ _ _ hp hp' => hp.trans h.range hp') h.pairs h'.pairs

theorem IsMoved.trans (hσ : ∀ c, 0 < c ∧ c ≤ n ↔ 0 < σ c ∧ σ c ≤ n) (h : IsMoved n σ table2 table2')
    (h' : IsMoved n τ table2' table2'') : IsMoved n (τ * σ) table2 table2'' :=
  forall₂_trans (fun _ _ _ hp hp' => hp.trans hσ hp') h h'

theorem isRenumbering_refl (n : Nat) (table : List (ColPair Nat))
    : IsRenumbering n 1 table table :=
  ⟨rfl, fun _ => Iff.rfl, forall₂_same.mpr fun _ _ => ⟨fun _ _ _ => rfl, fun _ _ _ => rfl⟩⟩

theorem isMoved_refl (h : IsFactorTable n table table2) : IsMoved n 1 table2 table2 := by
  induction h with
  | nil => exact List.Forall₂.nil
  | cons hd _ ih =>
    refine List.Forall₂.cons ⟨⟨hd.2.1, fun _ _ _ => rfl⟩, ⟨hd.2.2, fun _ _ _ => rfl⟩, rfl⟩ ih

theorem IsFactorTable.of_isMoved (h : IsFactorTable n table table2)
    (hshape : table'.map ColPair.isTwo = table.map ColPair.isTwo) (hm : IsMoved n σ table2 table2')
    : IsFactorTable n table' table2' := by
  induction h generalizing table' table2' with
  | nil =>
    cases hm
    rw [map_nil, map_eq_nil_iff] at hshape
    rw [hshape]
    exact List.Forall₂.nil
  | cons hd _ ih =>
    cases hm with
    | cons hm hms =>
      cases table' with
      | nil => cases hshape
      | cons p' table' =>
        rw [map_cons, map_cons, List.cons.injEq] at hshape
        refine List.Forall₂.cons ⟨?_, hm.fst.1, hm.snd.1⟩ (ih hshape.2 hms)
        rw [hm.isTwo_eq, hd.1, hshape.1]

theorem mapM_swapPair_spec (h : IsTable n table) (hL : 0 < L ∧ L ≤ n) (hM : 0 < M ∧ M ≤ n)
    : ∃ table', table.mapM (swapPair L M) = .ok table' ∧ IsTable n table'
        ∧ table'.map ColPair.isTwo = table.map ColPair.isTwo
        ∧ Forall₂ (IsPairRenumbered n (Equiv.swap L M)) table table' := by
  induction table with
  | nil => exact ⟨[], rfl, h, rfl, List.Forall₂.nil⟩
  | cons p table ih =>
    obtain ⟨hp, hrest⟩ := forall_mem_cons.mp h
    obtain ⟨p', hrun, hp', htwo, hren⟩ := swapPair_spec hp hL hM
    obtain ⟨table', hruns, htable', hshape, hrens⟩ := ih hrest
    refine ⟨p' :: table', ?_, forall_mem_cons.mpr ⟨hp', htable'⟩, ?_, .cons hren hrens⟩
    . rw [mapM_cons, hrun, ok_bind, hruns]
      rfl
    . rw [map_cons, map_cons, htwo, hshape]

theorem swapRows2_spec (h : IsFactorTable n table table2) (hL : 0 < L ∧ L ≤ n) (hM : 0 < M ∧ M ≤ n)
    : ∃ table2', swapRows2 L M table table2 = .ok table2'
        ∧ IsMoved n (Equiv.swap L M) table2 table2' := by
  induction h with
  | nil => exact ⟨[], rfl, List.Forall₂.nil⟩
  | @cons p p2 table table2 hd _ ih =>
    obtain ⟨p2', hrun, hp2'⟩ := swapPair2_spec hd.2.1 hd.2.2 hL hM
    obtain ⟨table2', hruns, hmoved⟩ := ih
    refine ⟨p2' :: table2', ?_, .cons hp2' hmoved⟩
    unfold swapRows2
    rw [← hd.1, hrun, ok_bind, hruns]
    rfl

structure Reaches (n : Nat) (table : List (ColPair Nat)) (table2 : Option (List (ColPair α)))
    (σ : Equiv.Perm Nat) (s : StanState α) : Prop where
  isTable : IsTable n s.table
  renumbering : IsRenumbering n σ table s.table
  shape : s.table.map ColPair.isTwo = table.map ColPair.isTwo
  moved : Option.Rel (IsMoved n σ) table2 s.table2
  factor : ∀ t, s.table2 = some t → IsFactorTable n s.table t

theorem swapRows_spec {o : Option (List (ColPair α))} {s : StanState α}
    (h : Reaches n table o σ s) (hL : 1 < L ∧ L ≤ n) (hM : 1 < M ∧ M ≤ n)
    : ∃ s', swapRows s L M = .ok s' ∧ s'.lcos = L ∧ Reaches n table o (Equiv.swap L M * σ) s'
        ∧ IsRenumbering n (Equiv.swap L M) s.table s'.table := by
  have hL' : 0 < L ∧ L ≤ n := ⟨by omega, hL.2⟩
  have hM' : 0 < M ∧ M ≤ n := ⟨by omega, hM.2⟩
  obtain ⟨table', hrun, htable', hshape, hpairs⟩ := mapM_swapPair_spec h.isTable hL' hM'
  have hren : IsRenumbering n (Equiv.swap L M) s.table table' := by
    refine ⟨?_, swap_range hL' hM', hpairs⟩
    exact Equiv.swap_apply_of_ne_of_ne (by omega) (by omega)
  obtain ⟨tab, tab2, lcos⟩ := s
  have hmoved := h.moved
  have hfactor := h.factor
  unfold swapRows
  rw [hrun, ok_bind]
  cases hmoved with
  | none =>
    exact ⟨_, rfl, rfl, ⟨htable', h.renumbering.trans hren, hshape.trans h.shape, .none,
      fun t ht => nomatch ht⟩, hren⟩
  | @some t2 t2' hm =>
    have hf := hfactor _ rfl
    obtain ⟨table2', hrun2, hmoved2⟩ := swapRows2_spec hf hL' hM'
    dsimp only
    rw [hrun2, ok_bind]
    refine ⟨_, rfl, rfl, ⟨htable', h.renumbering.trans hren, hshape.trans h.shape,
      .some (hm.trans h.renumbering.range hmoved2), fun t ht => ?_⟩, hren⟩
    cases ht
    exact hf.of_isMoved hshape hmoved2

end Tables

end CosetTable
