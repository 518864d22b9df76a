import GapKernel.Sort.Lemmas.Merge

open List Function Option

section Instances

section

variable {α : Type}

theorem getElem?_of_elmPlist {list : List α} {pos : Nat} {x : α}
    (h : elmPlist list (pos + 1) = .ok x) : list[pos]? = some x := by
  unfold elmPlist at h
  dsimp only at h
  cases hx : list[pos]? with
  | none =>
    rw [hx] at h
    cases h
  | some y =>
    rw [hx] at h
    cases h
    rfl

def HoldsEntries (len : Int) (list : List α) (f : Int → α) : Prop :=
  ∀ i, 1 ≤ i → i ≤ len → elmPlist list i.toNat = .ok (f i)

theorem setElmPlist_spec (list : List α) {i : Int} (hi : 1 ≤ i) (hlen : i ≤ list.length) (x : α)
    : ∃ list', setElmPlist list i.toNat x = .ok list' ∧ list'.length = list.length ∧
        (∀ j, 1 ≤ j → elmPlist list' j.toNat = if j = i then .ok x else elmPlist list j.toNat) ∧
        ∀ n : Nat, i ≤ n → list'.drop n = list.drop n := by
  refine ⟨_, setElmPlist_eq (by omega) (by omega), length_set, ?_, ?_⟩
  . intro j hj
    obtain ⟨k, rfl⟩ : ∃ k : Nat, j = k + 1 := ⟨(j - 1).toNat, by omega⟩
    have hjk : ((k : Int) + 1).toNat = k + 1 := by
      omega
    rw [hjk]
    split
    . next heq =>
      apply elmPlist_of_getElem?
      rw [← heq, hjk, Nat.add_sub_cancel, getElem?_set_self (by omega)]
    . unfold elmPlist
      dsimp only
      rw [getElem?_set_ne (by omega)]
  . intro n hn
    exact drop_set_of_lt (by omega)

theorem HoldsEntries.set {len : Int} {list list' : List α} {f : Int → α}
    (h : HoldsEntries len list f) {i : Int} {x : α}
    (hset : ∀ j, 1 ≤ j → elmPlist list' j.toNat = if j = i then .ok x else elmPlist list j.toNat)
    : HoldsEntries len list' (update f i x) := by
  intro j hj hj'
  rw [hset j hj]
  split
  . next heq => rw [heq, update_self]
  . next hne => rw [update_of_ne hne, h j hj hj']

end

variable {Obj F : Type}

def answers (call : F → Obj → Obj → Bool × F) (a b : Obj) (r : Bool) : Prop :=
  a = b ∧ r = false ∨ ∃ func, (call func a b).1 = r

theorem answers_decidesOrder {call : F → Obj → Obj → Bool × F} (lt : Obj → Obj → Prop)
    [IsStrictWeakOrder Obj lt] (hcall : ∀ func a b, (call func a b).1 = true ↔ lt a b) (func : F)
    {L : Type} (key : L → Obj)
    : DecidesOrder (fun a b r => answers call (key a) (key b) r) := by
  have : IsStrictWeakOrder L (fun a b => lt (key a) (key b)) :=
    inferInstanceAs (IsStrictWeakOrder L (Order.Preimage key lt))
  apply DecidesOrder.of_strictWeakOrder (fun a b => lt (key a) (key b))
  . intro a b
    constructor
    . rintro (⟨-, hfalse⟩ | ⟨func, htrue⟩)
      . cases hfalse
      . exact (hcall func _ _).mp htrue
    . intro hlt
      exact Or.inr ⟨func, (hcall func _ _).mpr hlt⟩
  . rintro a b (⟨heq, -⟩ | ⟨func, hfalse⟩) hlt
    . rw [heq] at hlt
      exact irrefl_of lt _ hlt
    . rw [(hcall func _ _).mpr hlt] at hfalse
      cases hfalse

theorem elmBuffer_set {buffer buffer' : List (Option Obj)} {i : Int} {x : Obj}
    (hset : ∀ j, 1 ≤ j →
      elmPlist buffer' j.toNat = if j = i then .ok (some x) else elmPlist buffer j.toNat)
    {j : Int} (hj : 1 ≤ j)
    : elmBuffer buffer' j = if j = i then .ok x else elmBuffer buffer j := by
  unfold elmBuffer
  rw [hset j hj]
  split
  . rfl
  . rfl

variable [DecidableEq Obj]

theorem densePlistMacros_lawful (call : F → Obj → Obj → Bool × F) (len : Nat)
    : (densePlistMacros call).Lawful len
        (fun s f => s.list.length = len ∧ HoldsEntries len s.list f)
        (fun buffer n g => buffer.length = len + 1000 ∧
          ∀ i, 1 ≤ i → i ≤ n → elmBuffer buffer i = .ok (g i))
        (answers call) where
  lenList := by
    rintro s f ⟨hlen, -⟩
    unfold densePlistMacros
    rw [← hlen]
  assListToLocal := by
    rintro s f i ⟨-, hs⟩ hi hi'
    exact hs i hi hi'
  assLocalToList := by
    rintro s f i t ⟨hlen, hs⟩ hi hi'
    obtain ⟨list, hset, hlength, hlist, -⟩ :=
      setElmPlist_spec s.list hi (by omega) t
    refine ⟨{ s with list := list }, ?_, hlength.trans hlen, hs.set hlist⟩
    unfold densePlistMacros
    dsimp only
    rw [hset]
    rfl
  compCheckEq := by
    intro s f a b hs
    unfold SortMacros.compCheckEq densePlistMacros
    dsimp only
    split
    . next heq => exact ⟨hs, Or.inl ⟨by simpa using heq, rfl⟩⟩
    . exact ⟨hs, Or.inr ⟨s.func, rfl⟩⟩
  createTempBuffer := by
    intro g
    refine ⟨?_, ?_⟩
    . unfold densePlistMacros
      rw [length_replicate]
      omega
    . intro i hi hi'
      omega
  assLocalToBuf := by
    rintro buffer n g t ⟨hcapacity, hbuffer⟩ hn hn'
    obtain ⟨buffer', hset, hlength, hbuffer', -⟩ :=
      setElmPlist_spec buffer (i := n + 1) (by omega) (by omega) (some t)
    refine ⟨buffer', hset, hlength.trans hcapacity, ?_⟩
    intro i hi hi'
    rw [elmBuffer_set hbuffer' hi]
    split
    . next heq => rw [heq, update_self]
    . next hne =>
      rw [update_of_ne hne]
      exact hbuffer i hi (by omega)
  assBufToLocal := by
    rintro buffer n g i ⟨-, hbuffer⟩ hi hi'
    exact hbuffer i hi hi'
  reuse := by
    rintro buffer n g ⟨hcapacity, -⟩
    refine ⟨hcapacity, ?_⟩
    intro i hi hi'
    omega

theorem paraDensePlistMacros_lawful (call : F → Obj → Obj → Bool × F) (len : Nat)
    (rest : List Obj)
    : (paraDensePlistMacros call).Lawful len
        (fun s f => s.list.length = len ∧ len ≤ s.shadow.length ∧ s.shadow.drop len = rest ∧
          HoldsEntries len s.list (fun i => (f i).1) ∧ HoldsEntries len s.shadow (fun i => (f i).2))
        (fun buffer n g => buffer.length = len * 2 + 1000 ∧ ∀ i, 1 ≤ i → i ≤ n →
          elmBuffer buffer (2 * i) = .ok (g i).1 ∧ elmBuffer buffer (2 * i - 1) = .ok (g i).2)
        (fun a b r => answers call a.1 b.1 r) where
  lenList := by
    rintro s f ⟨hlen, -⟩
    unfold paraDensePlistMacros
    rw [← hlen]
  assListToLocal := by
    rintro s f i ⟨-, -, -, hlist, hshadow⟩ hi hi'
    unfold paraDensePlistMacros
    dsimp only
    rw [hlist i hi hi', ok_bind]
    rw [hshadow i hi hi']
    rfl
  assLocalToList := by
    rintro s f i t ⟨hlen, hle, hrest, hlist, hshadow⟩ hi hi'
    obtain ⟨list, hset, hlength, hlist', -⟩ :=
      setElmPlist_spec s.list hi (by omega) t.1
    obtain ⟨shadow, hset', hlength', hshadow', hdrop⟩ :=
      setElmPlist_spec s.shadow hi (by omega) t.2
    refine ⟨{ s with list := list, shadow := shadow }, ?_, hlength.trans hlen,
      hle.trans hlength'.ge, ?_, ?_, ?_⟩
    . unfold paraDensePlistMacros
      dsimp only
      rw [hset, ok_bind]
      rw [hset']
      rfl
    . dsimp only
      rw [hdrop len hi', hrest]
    . have heq : (fun j => (update f i t j).1)
          = update (fun j => (f j).1) i t.1 := by
        funext j
        exact apply_update (fun _ => Prod.fst) f i t j
      rw [heq]
      exact hlist.set hlist'
    . have heq : (fun j => (update f i t j).2)
          = update (fun j => (f j).2) i t.2 := by
        funext j
        exact apply_update (fun _ => Prod.snd) f i t j
      rw [heq]
      exact hshadow.set hshadow'
  compCheckEq := by
    intro s f a b hs
    unfold SortMacros.compCheckEq paraDensePlistMacros
    dsimp only
    split
    . next heq => exact ⟨hs, Or.inl ⟨by simpa using heq, rfl⟩⟩
    . exact ⟨hs, Or.inr ⟨s.func, rfl⟩⟩
  createTempBuffer := by
    intro g
    refine ⟨?_, ?_⟩
    . unfold paraDensePlistMacros
      rw [length_replicate]
      omega
    . intro i hi hi'
      omega
  assLocalToBuf := by
    rintro buffer n g t ⟨hcapacity, hbuffer⟩ hn hn'
    obtain ⟨buffer₁, hset₁, hlength₁, hbuffer₁, -⟩ :=
      setElmPlist_spec buffer (i := 2 * (n + 1)) (by omega) (by omega) (some t.1)
    obtain ⟨buffer₂, hset₂, hlength₂, hbuffer₂, -⟩ :=
      setElmPlist_spec buffer₁ (i := 2 * (n + 1) - 1) (by omega) (by omega) (some t.2)
    refine ⟨buffer₂, ?_, by omega, ?_⟩
    . unfold paraDensePlistMacros
      dsimp only
      rw [hset₁, ok_bind]
      exact hset₂
    . intro i hi hi'
      rw [elmBuffer_set hbuffer₂ (by omega), elmBuffer_set hbuffer₂ (by omega)]
      rw [elmBuffer_set hbuffer₁ (by omega), elmBuffer_set hbuffer₁ (by omega)]
      rw [if_neg (by omega), if_neg (by omega : ¬2 * i - 1 = 2 * (n + 1))]
      by_cases heq : i = n + 1
      . subst heq
        rw [if_pos rfl, if_pos rfl, update_self]
        exact ⟨rfl, rfl⟩
      . rw [if_neg (by omega), if_neg (by omega), update_of_ne heq]
        exact hbuffer i hi (by omega)
  assBufToLocal := by
    rintro buffer n g i ⟨-, hbuffer⟩ hi hi'
    obtain ⟨ht, hts⟩ := hbuffer i hi hi'
    unfold paraDensePlistMacros
    dsimp only
    rw [ht, ok_bind]
    rw [hts]
    rfl
  reuse := by
    rintro buffer n g ⟨hcapacity, -⟩
    refine ⟨hcapacity, ?_⟩
    intro i hi hi'
    omega

end Instances

section Spec

variable {α Obj F : Type}

def Permuted (σ : Equiv.Perm Nat) (l l' : List α) : Prop :=
  ∀ i : Nat, l'[i]? = l[σ i]?

structure Decides (call : F → Obj → Obj → Bool × F) (lt : Obj → Obj → Prop) : Prop where
  order : IsStrictWeakOrder Obj lt
  answer : ∀ func a b, (call func a b).1 = true ↔ lt a b

structure IsSorting (call : F → Obj → Obj → Bool × F) (σ : Equiv.Perm Nat) (l l' : List Obj)
    : Prop where
  fixes : ∀ i, l.length ≤ i → σ i = i
  permuted : Permuted σ l l'
  sorted : ∀ lt, Decides call lt → l'.Pairwise (fun a b => ¬lt b a)

def IsStable (call : F → Obj → Obj → Bool × F) (σ : Equiv.Perm Nat) (l' : List Obj) : Prop :=
  ∀ lt, Decides call lt →
    ∀ (i j : Nat) (a b : Obj), i < j → l'[i]? = some a → l'[j]? = some b → ¬lt a b → σ i < σ j

def permFromOne (σ : Equiv.Perm Int) (len : Int) (hσ : FixesOutside 1 len σ) : Equiv.Perm Nat where
  toFun i := (σ (i + 1) - 1).toNat
  invFun i := (σ.symm (i + 1) - 1).toNat
  left_inv := by
    intro i
    have hpos : 1 ≤ σ (i + 1) := by
      by_cases hi : (i : Int) + 1 ≤ len
      . exact (hσ.mem (by omega)).1
      . rw [hσ _ (by omega)]
        omega
    have hcast : ((σ (i + 1) - 1).toNat : Int) + 1 = σ (i + 1) := by
      omega
    dsimp only
    rw [hcast, Equiv.symm_apply_apply]
    omega
  right_inv := by
    intro i
    have hpos : 1 ≤ σ.symm (i + 1) := by
      by_contra hnot
      have hfix := hσ (σ.symm (i + 1)) (by omega)
      rw [Equiv.apply_symm_apply] at hfix
      omega
    have hcast : ((σ.symm (i + 1) - 1).toNat : Int) + 1 = σ.symm (i + 1) := by
      omega
    dsimp only
    rw [hcast, Equiv.apply_symm_apply]
    omega

theorem permFromOne_apply {σ : Equiv.Perm Int} {len : Int} (hσ : FixesOutside 1 len σ) (i : Nat)
    : ((permFromOne σ len hσ i : Nat) : Int) + 1 = σ (i + 1) := by
  have hpos : 1 ≤ σ (i + 1) := by
    by_cases hi : (i : Int) + 1 ≤ len
    . exact (hσ.mem (by omega)).1
    . rw [hσ _ (by omega)]
      omega
  change ((σ (i + 1) - 1).toNat : Int) + 1 = σ (i + 1)
  omega

section

variable {len : Nat} {list list' : List α} {f f' : Int → α} {σ : Equiv.Perm Int}

theorem HoldsEntries.getElem? (h : HoldsEntries len list f) {i : Nat} (hi : i < len)
    : list[i]? = some (f (i + 1)) := by
  apply getElem?_of_elmPlist
  exact h (i + 1) (by omega) (by omega)

theorem HoldsEntries.permuted (h : HoldsEntries len list f) (h' : HoldsEntries len list' f')
    (hrest : list'.drop len = list.drop len) (hσ : FixesOutside 1 len σ) (hf : ∀ i, f' i = f (σ i))
    : Permuted (permFromOne σ len hσ) list list' := by
  intro i
  have happly := permFromOne_apply hσ i
  by_cases hi : i < len
  . have hmem := hσ.mem (by omega : (1 : Int) ≤ i + 1 ∧ (i : Int) + 1 ≤ len)
    rw [h'.getElem? hi, h.getElem? (by omega), happly, hf]
  . rw [hσ _ (by omega)] at happly
    have hfix : permFromOne σ len hσ i = i := by
      omega
    rw [hfix]
    obtain ⟨k, rfl⟩ : ∃ k, i = len + k := ⟨i - len, by omega⟩
    rw [← getElem?_drop, ← getElem?_drop, hrest]

theorem permFromOne_fixes (hσ : FixesOutside 1 len σ) (i : Nat) (hi : len ≤ i)
    : permFromOne σ len hσ i = i := by
  have happly := permFromOne_apply hσ i
  rw [hσ _ (by omega)] at happly
  omega

theorem HoldsEntries.pairwise (h : HoldsEntries len list f) (hlen : list.length = len)
    {lt : α → α → Prop} (hsorted : SortedOn lt 1 len f) : list.Pairwise (fun a b => ¬lt b a) := by
  rw [pairwise_iff_getElem]
  intro i j hi hj hij
  have hfi := h.getElem? (by omega : i < len)
  have hfj := h.getElem? (by omega : j < len)
  rw [getElem?_eq_getElem hi, some_inj] at hfi
  rw [getElem?_eq_getElem hj, some_inj] at hfj
  rw [hfi, hfj]
  exact hsorted _ _ (by omega) (by omega) (by omega)

end

theorem exists_holdsEntries (list : List α) (hne : list ≠ [])
    : ∃ f, HoldsEntries list.length list f := by
  refine ⟨fun i => list.getD (i - 1).toNat (list.head hne), ?_⟩
  intro i hi hi'
  obtain ⟨k, rfl⟩ : ∃ k : Nat, i = k + 1 := ⟨(i - 1).toNat, by omega⟩
  rw [show ((k : Int) + 1).toNat = k + 1 by omega]
  apply elmPlist_of_getElem?
  dsimp only
  rw [show ((k : Int) + 1 - 1).toNat = k by omega, getD_eq_getElem?_getD]
  rw [getElem?_eq_getElem (by omega)]
  rfl

namespace SortMacros

variable {S L B : Type} {m : SortMacros S L B} {s : S}

theorem sort_of_len_eq_zero (h : m.lenList s = 0) : m.sort s = .ok s := by
  unfold sort
  rw [h]
  unfold quickSort
  rw [if_pos (by omega)]
  rfl

theorem merge_of_len_eq_zero (h : m.lenList s = 0) : m.merge s = .ok s := by
  unfold merge
  rw [h]
  rfl

end SortMacros

section

variable {call : F → Obj → Obj → Bool × F} {len : Nat} {list list' : List Obj} {σ : Equiv.Perm Int}

theorem IsSorting.of_holds {L : Type} (key : L → Obj) {f f' : Int → L}
    (hlist : HoldsEntries len list (fun i => key (f i)))
    (hlist' : HoldsEntries len list' (fun i => key (f' i))) (hlen : list.length = len)
    (hlen' : list'.length = len) (hσ : FixesOutside 1 len σ) (hf : ∀ i, f' i = f (σ i))
    (hsorted : DecidesOrder (fun a b r => answers call (key a) (key b) r) →
      SortedOn (Less (fun a b r => answers call (key a) (key b) r)) 1 len f') (func : F)
    : IsSorting call (permFromOne σ len hσ) list list' where
  fixes := by
    intro i hi
    exact permFromOne_fixes hσ i (by omega)
  permuted := by
    apply hlist.permuted hlist' _ hσ
    . intro i
      rw [hf]
    . rw [drop_eq_nil_of_le (by omega), drop_eq_nil_of_le (by omega)]
  sorted := by
    intro lt hlt
    have := hlt.order
    apply hlist'.pairwise hlen'
    intro i j hi hij hj hji
    apply hsorted (answers_decidesOrder lt hlt.answer func key) i j hi hij hj
    exact Or.inr ⟨func, (hlt.answer func _ _).mpr hji⟩

theorem IsStable.of_holds {L : Type} (key : L → Obj) {f' : Int → L}
    (hlist' : HoldsEntries len list' (fun i => key (f' i))) (hlen' : list'.length = len)
    (hσ : FixesOutside 1 len σ)
    (hstable : DecidesOrder (fun a b r => answers call (key a) (key b) r) →
      ∀ i j, i < j → σ j < σ i →
        Less (fun a b r => answers call (key a) (key b) r) (f' i) (f' j)) (func : F)
    : IsStable call (permFromOne σ len hσ) list' := by
  intro lt hlt i j a b hij ha hb hnot
  have := hlt.order
  have hj : j < len := by
    rw [← hlen']
    exact (List.getElem?_eq_some_iff.mp hb).1
  rw [hlist'.getElem? (by omega), some_inj] at ha
  rw [hlist'.getElem? hj, some_inj] at hb
  have hne : σ (i + 1) ≠ σ (j + 1) := by
    intro heq
    have := σ.injective heq
    omega
  have hi' := permFromOne_apply hσ i
  have hj' := permFromOne_apply hσ j
  by_contra hge
  have hless := hstable (answers_decidesOrder lt hlt.answer func key) (i + 1) (j + 1) (by omega)
    (by omega)
  rw [← ha, ← hb] at hnot
  rcases hless with ⟨-, hfalse⟩ | ⟨func', htrue⟩
  . cases hfalse
  . exact hnot ((hlt.answer func' _ _).mp htrue)

end

variable [DecidableEq Obj] (call : F → Obj → Obj → Bool × F) (list shadow : List Obj) (func : F)

theorem sort_isSorting
    : ∃ s' σ, (densePlistMacros call).sort ⟨list, func⟩ = .ok s' ∧
        IsSorting call σ list s'.list := by
  by_cases hne : list = []
  . subst hne
    refine ⟨_, 1, SortMacros.sort_of_len_eq_zero rfl, ?_, ?_, ?_⟩
    . intro i _
      rfl
    . intro i
      rfl
    . intro lt _
      exact List.Pairwise.nil
  . obtain ⟨f, hf⟩ := exists_holdsEntries list hne
    obtain ⟨s', f', hsort, ⟨hlen', hf'⟩, ⟨σ, hσ, hff'⟩, hsorted⟩ :=
      SortMacros.sort_spec (densePlistMacros_lawful call list.length) (s := ⟨list, func⟩) ⟨rfl, hf⟩
    exact ⟨s', _, hsort, IsSorting.of_holds id hf hf' rfl hlen' hσ hff' hsorted func⟩

theorem exists_perm_of_merge {L : Type} {ans : L → L → Bool → Prop} {len : Int} {f f' : Int → L}
    (hrearranged : Rearranged 1 len f f')
    (hstable : DecidesOrder ans →
      StablyRearranged (Less ans) 1 len f f' ∧ SortedOn (Less ans) 1 len f')
    : ∃ σ, FixesOutside 1 len σ ∧ (∀ i, f' i = f (σ i)) ∧
        (DecidesOrder ans → SortedOn (Less ans) 1 len f') ∧
        (DecidesOrder ans → ∀ i j, i < j → σ j < σ i → Less ans (f' i) (f' j)) := by
  by_cases hans : DecidesOrder ans
  . obtain ⟨⟨σ, hσ, hff', hless⟩, hsorted⟩ := hstable hans
    exact ⟨σ, hσ, hff', fun _ => hsorted, fun _ => hless⟩
  . obtain ⟨σ, hσ, hff'⟩ := hrearranged
    exact ⟨σ, hσ, hff', fun h => absurd h hans, fun h => absurd h hans⟩

theorem merge_isSorting
    : ∃ s' σ, (densePlistMacros call).merge ⟨list, func⟩ = .ok s' ∧
        IsSorting call σ list s'.list ∧ IsStable call σ s'.list := by
  by_cases hne : list = []
  . subst hne
    refine ⟨_, 1, SortMacros.merge_of_len_eq_zero rfl, ⟨?_, ?_, ?_⟩, ?_⟩
    . intro i _
      rfl
    . intro i
      rfl
    . intro lt _
      exact List.Pairwise.nil
    . intro lt _ i j a b _ ha
      cases ha
  . obtain ⟨f, hf⟩ := exists_holdsEntries list hne
    obtain ⟨s', f', hmerge, ⟨hlen', hf'⟩, hrearranged, hstable⟩ :=
      SortMacros.merge_spec (densePlistMacros_lawful call list.length) (s := ⟨list, func⟩) ⟨rfl, hf⟩
        (by omega)
    obtain ⟨σ, hσ, hff', hsorted, hless⟩ := exists_perm_of_merge hrearranged hstable
    exact ⟨s', _, hmerge, IsSorting.of_holds id hf hf' rfl hlen' hσ hff' hsorted func,
      IsStable.of_holds id hf' hlen' hσ hless func⟩

section

variable (hle : list.length ≤ shadow.length)

include hle

omit [DecidableEq Obj] in
theorem exists_holdsEntries_para (hne : list ≠ [])
    : ∃ f : Int → Obj × Obj, HoldsEntries list.length list (fun i => (f i).1) ∧
        HoldsEntries list.length shadow (fun i => (f i).2) := by
  have hne' : shadow ≠ [] := by
    rintro rfl
    rw [length_nil, Nat.le_zero, length_eq_zero_iff] at hle
    exact hne hle
  obtain ⟨f, hf⟩ := exists_holdsEntries list hne
  obtain ⟨g, hg⟩ := exists_holdsEntries shadow hne'
  refine ⟨fun i => (f i, g i), hf, ?_⟩
  intro i hi hi'
  exact hg i hi (by omega)

theorem sortPara_isSorting
    : ∃ s' σ, (paraDensePlistMacros call).sort ⟨list, shadow, func⟩ = .ok s' ∧
        IsSorting call σ list s'.list ∧ Permuted σ shadow s'.shadow := by
  by_cases hne : list = []
  . subst hne
    refine ⟨_, 1, SortMacros.sort_of_len_eq_zero rfl, ⟨?_, ?_, ?_⟩, ?_⟩
    . intro i _
      rfl
    . intro i
      rfl
    . intro lt _
      exact List.Pairwise.nil
    . intro i
      rfl
  . obtain ⟨f, hf, hg⟩ := exists_holdsEntries_para list shadow hle hne
    obtain ⟨s', f', hsort, ⟨hlen', -, hrest, hf', hg'⟩, ⟨σ, hσ, hff'⟩, hsorted⟩ :=
      SortMacros.sort_spec (paraDensePlistMacros_lawful call list.length (shadow.drop list.length))
        (s := ⟨list, shadow, func⟩) ⟨rfl, hle, rfl, hf, hg⟩
    refine ⟨s', _, hsort,
      IsSorting.of_holds Prod.fst hf hf' rfl hlen' hσ hff' hsorted func,
      hg.permuted hg' hrest hσ ?_⟩
    intro i
    rw [hff']

theorem mergePara_isSorting
    : ∃ s' σ, (paraDensePlistMacros call).merge ⟨list, shadow, func⟩ = .ok s' ∧
        IsSorting call σ list s'.list ∧ IsStable call σ s'.list ∧
        Permuted σ shadow s'.shadow := by
  by_cases hne : list = []
  . subst hne
    refine ⟨_, 1, SortMacros.merge_of_len_eq_zero rfl, ⟨?_, ?_, ?_⟩, ?_, ?_⟩
    . intro i _
      rfl
    . intro i
      rfl
    . intro lt _
      exact List.Pairwise.nil
    . intro lt _ i j a b _ ha
      cases ha
    . intro i
      rfl
  . obtain ⟨f, hf, hg⟩ := exists_holdsEntries_para list shadow hle hne
    obtain ⟨s', f', hmerge, ⟨hlen', -, hrest, hf', hg'⟩, hrearranged, hstable⟩ :=
      SortMacros.merge_spec (paraDensePlistMacros_lawful call list.length (shadow.drop list.length))
        (s := ⟨list, shadow, func⟩) ⟨rfl, hle, rfl, hf, hg⟩ (by omega)
    obtain ⟨σ, hσ, hff', hsorted, hless⟩ := exists_perm_of_merge hrearranged hstable
    refine ⟨s', _, hmerge,
      IsSorting.of_holds Prod.fst hf hf' rfl hlen' hσ hff' hsorted func,
      IsStable.of_holds Prod.fst hf' hlen' hσ hless func, hg.permuted hg' hrest hσ ?_⟩
    intro i
    rw [hff']

end

end Spec
