import GapKernel.PartialBijection
import GapKernel.PPerm.Impl.Product
import GapKernel.Trans.Lemmas.Bag

open PartialBijection PPermImpl List

structure IsDomList (φ : Nat ≃. Nat) (dom : List Nat) : Prop where
  nodup : dom.Nodup
  mem : ∀ x, x ∈ dom ↔ ∃ i v, φ i = some v ∧ x = i + 1

/--
The bag is a valid partial permutation that acts as `φ`. The point `i` stands for the integer `i +
1`.
-/
structure IsPPermBag (f : PPermBag) (φ : Nat ≃. Nat) : Prop where
  images : IsImageList φ f.entries
  degree : IsDegree φ f.entries.length
  codegree : IsDegree φ.symm f.codeg
  codeg_lt : f.codeg < 2 ^ f.tnum.dataType.bits
  both : f.img = none ↔ f.dom = none
  dom : ∀ dom, f.dom = some dom → IsDomList φ dom
  img : ∀ dom img, f.dom = some dom → f.img = some img → img.length = dom.length

theorem PermTnum.dataType_ppermTnum (T : PermTnum) : T.ppermTnum.dataType = T := by
  cases T with
  | perm2 => rfl
  | perm4 => rfl

theorem PPermTnum.ppermTnum_dataType (tnum : PPermTnum) : tnum.dataType.ppermTnum = tnum := by
  cases tnum with
  | pperm2 => rfl
  | pperm4 => rfl

variable {φ : Nat ≃. Nat} {pt : List Nat}

theorem isPPermBag_newPPerm {T : PermTnum} {codeg : Nat} (himages : IsImageList φ pt)
    (hdeg : IsDegree φ pt.length) (hcodeg : IsDegree φ.symm codeg) (hlt : codeg < 2 ^ T.bits)
    : IsPPermBag (newPPerm T pt codeg) φ where
  images := himages
  degree := hdeg
  codegree := by
    have hcast : T.cast codeg = codeg := Nat.mod_eq_of_lt hlt
    unfold newPPerm
    rw [hcast]
    exact hcodeg
  codeg_lt := by
    have hcast : T.cast codeg = codeg := Nat.mod_eq_of_lt hlt
    unfold newPPerm
    rw [hcast]
    rw [T.dataType_ppermTnum]
    exact hlt
  both := Iff.rfl
  dom := by
    intro dom h
    contradiction
  img := by
    intro dom img h
    contradiction

theorem isPPermBag_emptyPartialPerm : IsPPermBag emptyPartialPerm ⊥ := by
  apply isPPermBag_newPPerm
  . intro i
    rfl
  . exact isDegree_bot
  . rw [PEquiv.symm_bot]
    exact isDegree_bot
  . decide

theorem readEntry_images (h : IsImageList φ pt) {i : Nat} (hi : i < pt.length)
    : readEntry pt i = .ok (entryOf (φ i)) := by
  unfold readEntry
  rw [h.getElem?_eq hi]
  rfl

theorem index_succ (v : Nat) : index (v + 1) = .ok v :=
  rfl

theorem imagePP_eq (h : IsImageList φ pt) (v : Nat)
    : imagePP (v + 1) pt pt.length = .ok (entryOf (φ v)) := by
  unfold imagePP
  split
  . next hle =>
    rw [index_succ]
    rw [ok_bind]
    rw [readEntry_images h (by omega)]
  . next hle =>
    rw [h.eq_none (by omega)]
    rfl

section Bag

variable {f : PPermBag} {φ : Nat ≃. Nat}

theorem constAddrPPerm_eq (f : PPermBag) : constAddrPPerm f.tnum.dataType f = .ok f.entries := by
  unfold constAddrPPerm
  rw [f.tnum.ppermTnum_dataType]
  rw [if_pos rfl]
  rfl

theorem IsPPermBag.codegPPerm_eq (hf : IsPPermBag f φ) : codegPPerm f = f.codeg := by
  unfold codegPPerm
  split
  . rfl
  . next h0 =>
    rw [not_not] at h0
    have hcodeg := hf.codegree
    rw [h0] at hcodeg
    -- A partial permutation with codegree 0 is empty.
    have hempty := hcodeg.codegree_zero
    rw [PEquiv.symm_symm] at hempty
    have hlen := hf.degree.unique hempty
    rw [length_eq_zero_iff] at hlen
    rw [hlen]
    rw [h0]
    rfl

theorem IsPPermBag.image_lt (hf : IsPPermBag f φ) {i v : Nat} (hv : φ i = some v)
    : i < f.entries.length ∧ v + 1 ≤ f.codeg ∧ v + 1 < 2 ^ f.tnum.dataType.bits := by
  have h1 := hf.degree.lt i v hv
  have h2 := hf.codegree.image_lt hv
  have h3 := hf.codeg_lt
  omega

theorem IsPPermBag.rankPPerm_eq (hf : IsPPermBag f φ) {dom : List Nat} (hdom : f.dom = some dom)
    : rankPPerm f = .ok (f, dom.length) := by
  unfold rankPPerm
  cases himg : f.img with
  | none =>
    rw [hf.both.mp himg] at hdom
    contradiction
  | some img =>
    rw [← hf.img dom img hdom himg]
    rfl

structure IsInit (φ : Nat ≃. Nat) (i : Nat) (s : List Nat × List Nat) : Prop where
  sorted : s.1.Pairwise (· < ·)
  mem : ∀ x, x ∈ s.1 ↔ ∃ j v, j < i ∧ φ j = some v ∧ x = j + 1
  length_eq : s.2.length = s.1.length

theorem initLoop_isInit {pt : List Nat} (h : IsImageList φ pt)
    : ∃ s, initLoop pt pt.length 0 ([], []) = .ok s ∧ IsInit φ pt.length s := by
  unfold initLoop
  apply forLoop_of_inv (fun i s => IsInit φ i s)
  . refine ⟨List.Pairwise.nil, ?_, rfl⟩
    intro x
    simp
  . intro i s _ hi hs
    rw [readEntry_images h (by omega)]
    rw [ok_bind]
    have hlt : ∀ a ∈ s.1, a < i + 1 := by
      intro a ha
      rw [hs.mem] at ha
      obtain ⟨j, v, hj, _, hx⟩ := ha
      omega
    cases hv : φ i with
    | none =>
      refine ⟨s, rfl, hs.sorted, ?_, hs.length_eq⟩
      intro x
      rw [hs.mem]
      constructor
      . intro ⟨j, v, hj, hex⟩
        exact ⟨j, v, by omega, hex⟩
      . intro ⟨j, v, hj, hjv, hx⟩
        refine ⟨j, v, ?_, hjv, hx⟩
        by_contra hge
        rw [show j = i by omega] at hjv
        rw [hv] at hjv
        contradiction
    | some v =>
      refine ⟨_, rfl, ?_, ?_, ?_⟩
      . rw [pairwise_append]
        refine ⟨hs.sorted, pairwise_singleton _ _, ?_⟩
        intro a ha b hb
        rw [mem_singleton] at hb
        rw [hb]
        exact hlt a ha
      . intro x
        rw [mem_append, mem_singleton, hs.mem]
        constructor
        . intro hx
          cases hx with
          | inl hx =>
            obtain ⟨j, v', hj, hex⟩ := hx
            exact ⟨j, v', by omega, hex⟩
          | inr hx => exact ⟨i, v, by omega, hv, hx⟩
        . intro ⟨j, v', hj, hex⟩
          by_cases hji : j = i
          . right
            rw [hex.2]
            rw [hji]
          . exact Or.inl ⟨j, v', by omega, hex⟩
      . rw [length_append, length_append]
        rw [hs.length_eq]
        rfl
  . intro s hs
    rw [Nat.zero_add] at hs
    exact hs

theorem rankPPerm_spec (hf : IsPPermBag f φ)
    : ∃ f' dom, rankPPerm f = .ok (f', dom.length) ∧ IsPPermBag f' φ ∧ f'.dom = some dom
        ∧ f'.tnum = f.tnum ∧ f'.entries = f.entries ∧ f'.codeg = f.codeg := by
  cases hdom : f.dom with
  | some dom => exact ⟨f, dom, hf.rankPPerm_eq hdom, hf, hdom, rfl, rfl, rfl⟩
  | none =>
    unfold rankPPerm
    rw [hf.both.mpr hdom]
    -- A bag with the slots that the loop gives.
    have hbag : ∀ s, IsInit φ f.entries.length s
        → IsPPermBag { f with dom := some s.1, img := some s.2 } φ := by
      intro s hs
      constructor
      . exact hf.images
      . exact hf.degree
      . exact hf.codegree
      . exact hf.codeg_lt
      . simp
      . intro dom hdom
        cases hdom
        refine ⟨hs.sorted.imp (fun h => Nat.ne_of_lt h), ?_⟩
        intro x
        rw [hs.mem]
        constructor
        . intro ⟨j, v, _, hex⟩
          exact ⟨j, v, hex⟩
        . intro ⟨j, v, hv, hx⟩
          exact ⟨j, v, hf.images.lt_length hv, hv, hx⟩
      . intro dom img hdom himg
        cases hdom
        cases himg
        exact hs.length_eq
    unfold initPPerm
    dsimp only
    split
    . next h0 =>
      refine ⟨_, [], ?_, hbag ([], []) ?_, rfl, rfl, rfl, rfl⟩
      . rw [h0]
        rfl
      . refine ⟨List.Pairwise.nil, ?_, rfl⟩
        intro x
        rw [h0]
        simp
    . obtain ⟨s, hrun, hs⟩ := initLoop_isInit hf.images
      rw [hrun]
      rw [ok_bind]
      exact ⟨_, s.1, rfl, hbag s hs, rfl, rfl, rfl, rfl⟩

end Bag
