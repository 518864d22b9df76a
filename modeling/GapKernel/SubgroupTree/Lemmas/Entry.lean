import GapKernel.SubgroupTree.Impl

namespace TreeBag

structure Extends (tree tree' : TreeBag) : Prop where
  numgens_le : tree.numgens ≤ tree'.numgens
  table : tree.table.Extends tree'.table tree.numgens

theorem Extends.refl (tree : TreeBag) : tree.Extends tree :=
  ⟨le_refl _, fun _ _ => rfl⟩

theorem Extends.trans {tree1 tree2 tree3 : TreeBag} (h1 : tree1.Extends tree2)
    (h2 : tree2.Extends tree3)
    : tree1.Extends tree3 := by
  have hle := h1.numgens_le
  constructor
  . exact le_trans hle h2.numgens_le
  . intro k hk
    rw [h2.table k (by omega)]
    apply h1.table k hk

variable {u : Int}

theorem Extends.isLetter {tree tree' : TreeBag} (h : tree.Extends tree') (hu : tree.IsLetter u)
    : tree'.IsLetter u := by
  have := h.numgens_le
  unfold IsLetter at *
  omega

structure IsEntry (tree : TreeBag) (x : FreeGroup Nat) (gen : Int) (tree' : TreeBag) : Prop where
  isTree : tree'.IsTree
  extends_tree : tree.Extends tree'
  isLetter : tree'.IsLetter gen
  letter_eq : tree'.table.letter gen = x

variable {tree : TreeBag}

theorem IsEntry.of_isLetter (htree : tree.IsTree) {gen : Int} {x : FreeGroup Nat}
    (hgen : tree.IsLetter gen) (hx : tree.table.letter gen = x)
    : tree.IsEntry x gen tree :=
  ⟨htree, Extends.refl tree, hgen, hx⟩

variable {k : Nat}

theorem elmPlist_tree1 (htree : tree.IsTree) (hk : 0 < k) (hle : k ≤ tree.numgens)
    : elmPlist tree.tree1 k = .ok (entryPlist tree.tree1 k) := by
  have := htree.numgens_le
  apply elmPlist_eq_entryPlist hk
  omega

theorem elmPlist_tree2 (htree : tree.IsTree) (hk : 0 < k) (hle : k ≤ tree.numgens)
    : elmPlist tree.tree2 k = .ok (entryPlist tree.tree2 k) := by
  have := htree.numgens_le
  have := htree.length_eq
  apply elmPlist_eq_entryPlist hk
  omega

structure IsSplit (tree : TreeBag) (u : Int) (uu : Int × Int) : Prop where
  lt : uu.1.natAbs < u.natAbs ∧ uu.2.natAbs < u.natAbs
  letter_eq : tree.table.letter u = tree.table.letter uu.1 * tree.table.letter uu.2

theorem components_spec (htree : tree.IsTree) (hu : tree.IsLetter u) (hne : u ≠ 0)
    : ∃ uu, tree.components u = .ok uu ∧ ∀ x ∈ uu, tree.IsSplit u x := by
  have hpos : 0 < u.natAbs := by omega
  have h1 := elmPlist_tree1 htree hpos hu
  have h2 := elmPlist_tree2 htree hpos hu
  unfold components
  rw [h1, ok_bind]
  by_cases ht : entryPlist tree.tree1 u.natAbs = 0
  . refine ⟨none, ?_, by simp⟩
    rw [if_neg (by simp [ht])]
    rfl
  . have hentry := entry_of_ne_zero htree hpos hu ht
    have hlt := tree.table.smaller hentry
    have hletter := ProductTable.letter_of_some hentry hne
    rw [if_pos ht, h2, ok_bind]
    by_cases hsign : u > 0
    . rw [if_pos hsign] at hletter
      refine ⟨some (_, _), if_pos hsign, ?_⟩
      rintro x ⟨⟩
      exact ⟨hlt, hletter⟩
    . rw [if_neg hsign] at hletter
      refine ⟨some (_, _), if_neg hsign, ?_⟩
      rintro x ⟨⟩
      refine ⟨?_, hletter⟩
      simp only [Int.natAbs_neg]
      exact ⟨hlt.2, hlt.1⟩

def IsFound (tree : TreeBag) (t1 t2 : Int) (r : Nat) : Prop :=
  (r ≤ tree.numgens ∧ entryPlist tree.tree1 r = t1 ∧ entryPlist tree.tree2 r = t2)
    ∨ r = tree.numgens + 1

theorem search_spec (htree : tree.IsTree) (t1 t2 : Int) {k : Nat} (hk : 0 < k)
    : ∃ r, tree.search t1 t2 k = .ok r ∧ 0 < r ∧ tree.IsFound t1 t2 r := by
  unfold search
  split
  . next hle =>
    rw [elmPlist_tree1 htree hk hle, ok_bind]
    rw [elmPlist_tree2 htree hk hle, ok_bind]
    split
    . next h => exact ⟨k, rfl, hk, .inl ⟨hle, h⟩⟩
    . apply search_spec htree
      omega
  . next hlt => exact ⟨_, rfl, by omega, .inr rfl⟩
termination_by tree.numgens + 1 - k

theorem ensure_length (htree : tree.IsTree) (hpos : 0 < tree.numgens)
    : tree.numgens + 1 ≤ (tree.ensure (tree.numgens + 1)).tree1.length
        ∧ tree.numgens + 1 ≤ (tree.ensure (tree.numgens + 1)).tree2.length
        ∧ (tree.ensure (tree.numgens + 1)).tree2.length
          = (tree.ensure (tree.numgens + 1)).tree1.length := by
  have hle := htree.numgens_le
  have hlen := htree.length_eq
  unfold ensure
  split
  . simp only [grow, List.length_append, List.length_replicate]
    omega
  . omega

theorem ensure_entryPlist (numgens k : Nat)
    : entryPlist (tree.ensure numgens).tree1 k = entryPlist tree.tree1 k
        ∧ entryPlist (tree.ensure numgens).tree2 k = entryPlist tree.tree2 k := by
  unfold ensure
  split
  . constructor
    . apply entryPlist_append_replicate
    . apply entryPlist_append_replicate
  . exact ⟨rfl, rfl⟩

theorem extend_eq (htree : tree.IsTree) (hpos : 0 < tree.numgens) (t1 t2 : Int)
    : ∃ tree', tree.extend t1 t2 = .ok tree' ∧ tree'.numgens = tree.numgens + 1
        ∧ tree'.numgens ≤ tree'.tree1.length ∧ tree'.tree2.length = tree'.tree1.length
        ∧ (∀ k, entryPlist tree'.tree1 k
          = if k = tree.numgens + 1 then t1 else entryPlist tree.tree1 k)
        ∧ ∀ k, entryPlist tree'.tree2 k
          = if k = tree.numgens + 1 then t2 else entryPlist tree.tree2 k := by
  have hlen := ensure_length htree hpos
  have hnum : 0 < tree.numgens + 1 := by omega
  unfold extend
  dsimp only
  rw [setElmPlist_eq hnum hlen.1, ok_bind]
  rw [setElmPlist_eq hnum hlen.2.1, ok_bind]
  refine ⟨_, rfl, rfl, ?_, ?_, ?_, ?_⟩
  . simpa using hlen.1
  . simpa using hlen.2.2
  . intro k
    rw [entryPlist_set hnum hlen.1]
    rw [(ensure_entryPlist _ k).1]
  . intro k
    rw [entryPlist_set hnum hlen.2.1]
    rw [(ensure_entryPlist _ k).2]

theorem extend_spec (htree : tree.IsTree) {t1 t2 : Int} (h1 : tree.IsLetter t1)
    (h2 : tree.IsLetter t2) (hne : t1 ≠ 0)
    : ∃ tree', tree.extend t1 t2 = .ok tree' ∧ tree'.IsTree ∧ tree.Extends tree'
        ∧ tree'.numgens = tree.numgens + 1
        ∧ tree'.table.gen (tree.numgens + 1) = tree'.table.letter t1 * tree'.table.letter t2 := by
  unfold IsLetter at h1 h2
  obtain ⟨tree', heq, hnum, hle, hlen, he1, he2⟩ := extend_eq htree (by omega) t1 t2
  have htree' : tree'.IsTree := by
    constructor
    . apply hle
    . apply hlen
    . intro k hk hkle hkne
      rw [he1] at hkne ⊢
      rw [he2]
      split at hkne
      . next heq =>
        rw [if_pos heq, if_pos heq]
        omega
      . next hneq =>
        rw [if_neg hneq, if_neg hneq]
        exact htree.smaller k hk (by omega) hkne
  refine ⟨tree', heq, htree', ⟨by omega, ?_⟩, hnum, ?_⟩
  . intro k hk
    simp only [table]
    rw [he1, he2, hnum]
    simp only [show k ≠ tree.numgens + 1 by omega, if_false]
    simp only [hk, show k ≤ tree.numgens + 1 by omega]
  . apply ProductTable.gen_of_some
    rw [entry_of_ne_zero htree' (by omega) (by omega) (by rwa [he1, if_pos rfl])]
    rw [he1, he2, if_pos rfl, if_pos rfl]

variable {v : Int}

theorem enter_spec (htree : tree.IsTree) (hu : tree.IsLetter u) (hv : tree.IsLetter v)
    (hune : u ≠ 0) (hvne : v ≠ 0) (huv : u + v ≠ 0)
    : ∃ gen tree', tree.enter u v = .ok (gen, tree')
        ∧ tree.IsEntry (tree.table.letter u * tree.table.letter v) gen tree' := by
  unfold enter
  -- The components are `u` and `v`, or the components of the inverse.
  generalize ht : (if u < -v then (u, v) else (-v, -u)) = t
  have hletters : tree.IsLetter t.1 ∧ tree.IsLetter t.2 ∧ t.1 ≠ 0 := by
    unfold IsLetter at *
    rw [← ht]
    split
    . exact ⟨hu, hv, hune⟩
    . simp only [Int.natAbs_neg]
      exact ⟨hv, hu, by omega⟩
  have hletter : ∀ (tree' : TreeBag) (k : Nat), 0 < k →
      tree'.table.gen k = tree'.table.letter t.1 * tree'.table.letter t.2 →
      tree'.table.letter (if u > -v then -(k : Int) else k)
        = tree'.table.letter u * tree'.table.letter v := by
    intro tree' k hk hgen
    rw [← ht] at hgen
    split
    . next hgt =>
      rw [ProductTable.letter_neg, ProductTable.letter_natCast hk]
      rw [if_neg (by omega)] at hgen
      simp [hgen]
    . next hgt =>
      rw [ProductTable.letter_natCast hk]
      rw [if_pos (by omega)] at hgen
      exact hgen
  have hisLetter : ∀ (tree' : TreeBag) (k : Nat), k ≤ tree'.numgens →
      tree'.IsLetter (if u > -v then -(k : Int) else k) := by
    intro tree' k hk
    unfold IsLetter
    split
    . omega
    . omega
  obtain ⟨k, hsearch, hk, hfound⟩ := search_spec htree t.1 t.2 (k := max u.natAbs v.natAbs + 1)
    (by omega)
  simp only [hsearch, ok_bind]
  rcases hfound with ⟨hle, h1, h2⟩ | heq
  . rw [if_neg (by omega)]
    have hgen := ProductTable.gen_of_some
      (entry_of_ne_zero htree hk hle (by rw [h1]; exact hletters.2.2))
    rw [h1, h2] at hgen
    refine ⟨_, _, rfl, ?_⟩
    apply IsEntry.of_isLetter htree
    . apply hisLetter _ _ hle
    . apply hletter _ _ hk hgen
  . obtain ⟨tree', hextend, htree', hext, hnum, hgen⟩ :=
      extend_spec htree hletters.1 hletters.2.1 hletters.2.2
    rw [if_pos (by omega)]
    rw [hextend, ok_bind]
    refine ⟨_, _, rfl, htree', hext, hisLetter _ _ (by omega), ?_⟩
    rw [← heq] at hgen
    rw [hletter _ _ hk hgen]
    rw [hext.table.letter_eq hu]
    rw [hext.table.letter_eq hv]

theorem IsSplit.isLetter {uu : Int × Int} (h : tree.IsSplit u uu) (hu : tree.IsLetter u)
    : tree.IsLetter uu.1 ∧ tree.IsLetter uu.2 := by
  have := h.lt
  unfold IsLetter at *
  omega

variable (htree : tree.IsTree)

include htree

theorem IsSplit.isEntry_left {uu : Int × Int} (h : tree.IsSplit u uu) (hu : tree.IsLetter u)
    (heq : uu.2 = -v)
    : tree.IsEntry (tree.table.letter u * tree.table.letter v) uu.1 tree := by
  apply IsEntry.of_isLetter htree
  . exact (h.isLetter hu).1
  . rw [h.letter_eq, heq]
    simp

theorem IsSplit.isEntry_right {vv : Int × Int} (h : tree.IsSplit v vv) (hv : tree.IsLetter v)
    (heq : vv.1 = -u)
    : tree.IsEntry (tree.table.letter u * tree.table.letter v) vv.2 tree := by
  apply IsEntry.of_isLetter htree
  . exact (h.isLetter hv).2
  . rw [h.letter_eq, heq]
    simp

section

variable (hu : tree.IsLetter u) (hv : tree.IsLetter v)

include hu hv

theorem isEntry_trivial (h : u = 0 ∨ v = 0 ∨ u + v = 0)
    : tree.IsEntry (tree.table.letter u * tree.table.letter v) (u + v) tree := by
  apply IsEntry.of_isLetter htree
  . unfold IsLetter at *
    omega
  . rcases h with h | h | h
    . simp [h]
    . simp [h]
    . rw [h, show v = -u by omega]
      simp

theorem multiply.go_spec {fuel : Nat} (hfuel : u.natAbs < fuel)
    : ∃ gen tree', multiply.go tree fuel u v = .ok (gen, tree')
        ∧ tree.IsEntry (tree.table.letter u * tree.table.letter v) gen tree' := by
  induction fuel generalizing u v with
  | zero => omega
  | succ fuel ih =>
    unfold multiply.go
    split
    . next h => exact ⟨_, _, rfl, isEntry_trivial htree hu hv h⟩
    . next h =>
      have henter := enter_spec htree hu hv (by omega) (by omega) (by omega)
      obtain ⟨uu, hcompu, huu⟩ := components_spec htree hu (by omega)
      obtain ⟨vv, hcompv, hvv⟩ := components_spec htree hv (by omega)
      rw [hcompu, ok_bind]
      rw [hcompv, ok_bind]
      cases uu with
      | none =>
        cases vv with
        | none => apply henter
        | some vv =>
          have hsplit := hvv vv rfl
          dsimp only
          split
          . next heq => exact ⟨_, _, rfl, hsplit.isEntry_right htree hv heq⟩
          . apply henter
      | some uu =>
        have hsplitu := huu uu rfl
        cases vv with
        | none =>
          dsimp only
          split
          . next heq => exact ⟨_, _, rfl, hsplitu.isEntry_left htree hu heq⟩
          . apply henter
        | some vv =>
          have hsplitv := hvv vv rfl
          dsimp only
          split
          . next heq => exact ⟨_, _, rfl, hsplitu.isEntry_left htree hu heq⟩
          . split
            . next heq => exact ⟨_, _, rfl, hsplitv.isEntry_right htree hv heq⟩
            . split
              . next heq =>
                -- The inner factors cancel.
                have hlt := hsplitu.lt
                have hrec := ih (hsplitu.isLetter hu).1 (hsplitv.isLetter hv).2 (by omega)
                rw [hsplitu.letter_eq, hsplitv.letter_eq, heq.2]
                simpa [mul_assoc] using hrec
              . apply henter

theorem multiply_spec
    : ∃ gen tree', tree.multiply u v = .ok (gen, tree')
        ∧ tree.IsEntry (tree.table.letter u * tree.table.letter v) gen tree' := by
  apply multiply.go_spec htree hu hv
  omega

end

theorem foldlM_multiply_spec {gen : Int} (hgen : tree.IsLetter gen) {word : List Int}
    (hword : ∀ v ∈ word, tree.IsLetter v)
    : ∃ gen' tree', word.foldlM (fun (gen, tree) v => multiply tree gen v) (gen, tree)
          = .ok (gen', tree')
        ∧ tree.IsEntry (tree.table.letter gen * tree.table.word word) gen' tree' := by
  induction word generalizing gen tree with
  | nil => exact ⟨gen, tree, rfl, IsEntry.of_isLetter htree hgen (by simp)⟩
  | cons v word ih =>
    rw [List.forall_mem_cons] at hword
    obtain ⟨gen1, tree1, heq1, h1⟩ := multiply_spec htree hgen hword.1
    have hword1 : ∀ v ∈ word, tree1.IsLetter v := by
      intro v hv
      apply h1.extends_tree.isLetter
      apply hword.2 v hv
    obtain ⟨gen2, tree2, heq2, h2⟩ := ih h1.isTree h1.isLetter hword1
    rw [List.foldlM_cons]
    dsimp only
    rw [heq1, ok_bind]
    refine ⟨gen2, tree2, heq2, h2.isTree, h1.extends_tree.trans h2.extends_tree, h2.isLetter, ?_⟩
    rw [h2.letter_eq, h1.letter_eq, ProductTable.word_cons, mul_assoc]
    rw [h1.extends_tree.table.word_eq hword.2]

theorem treeEntryC_spec {word : List Int} (hword : ∀ v ∈ word, tree.IsLetter v)
    : ∃ gen tree', tree.treeEntryC word = .ok (gen, tree')
        ∧ tree.IsEntry (tree.table.word word) gen tree' := by
  cases word with
  | nil => exact ⟨0, tree, rfl, IsEntry.of_isLetter htree (by simp [IsLetter]) (by simp)⟩
  | cons gen word =>
    rw [List.forall_mem_cons] at hword
    rw [ProductTable.word_cons]
    apply foldlM_multiply_spec htree hword.1 hword.2

end TreeBag

namespace TreeBag

def pair (tree : TreeBag) (k : Nat) : Int × Int :=
  (entryPlist tree.tree1 k, entryPlist tree.tree2 k)

def IsNormal (t : Int × Int) : Prop :=
  t.1 < -t.2

structure IsNewPair (tree : TreeBag) (k : Nat) : Prop where
  normal : IsNormal (tree.pair k)
  ne_zero : (tree.pair k).1 ≠ 0
  smaller : (tree.pair k).1.natAbs < k ∧ (tree.pair k).2.natAbs < k
  unique : ∀ j, 0 < j → j ≤ tree.numgens → j ≠ k → tree.pair j ≠ tree.pair k

structure Appends (tree tree' : TreeBag) : Prop where
  numgens_le : tree.numgens ≤ tree'.numgens
  kept : ∀ k, 0 < k → k ≤ tree.numgens → tree'.pair k = tree.pair k
  isNew : ∀ k, tree.numgens < k → k ≤ tree'.numgens → tree'.IsNewPair k

theorem IsNewPair.ne_inverse {tree : TreeBag} {k j : Nat} (h : tree.IsNewPair k)
    (hj : IsNormal (tree.pair j)) : tree.pair j ≠ (-(tree.pair k).2, -(tree.pair k).1) := by
  intro heq
  have hk := h.normal
  unfold IsNormal at hj hk
  rw [heq] at hj
  dsimp only at hj
  omega

theorem Appends.refl (tree : TreeBag) : tree.Appends tree :=
  ⟨Nat.le_refl _, fun _ _ _ => rfl, fun _ hlt hle => absurd hlt (Nat.not_lt.mpr hle)⟩

theorem Appends.trans {tree1 tree2 tree3 : TreeBag} (h : tree1.Appends tree2)
    (h' : tree2.Appends tree3) : tree1.Appends tree3 := by
  have hle := h.numgens_le
  refine ⟨Nat.le_trans hle h'.numgens_le, ?_, ?_⟩
  . intro k hk hle
    rw [h'.kept k hk (by omega), h.kept k hk hle]
  . intro k hlt hlek
    by_cases hold : k ≤ tree2.numgens
    . have hk := h'.kept k (by omega) hold
      have hnew := h.isNew k hlt hold
      refine ⟨by rw [hk]; exact hnew.normal, by rw [hk]; exact hnew.ne_zero,
        by rw [hk]; exact hnew.smaller, ?_⟩
      intro j hj hjle hjk
      by_cases hjold : j ≤ tree2.numgens
      . rw [hk, h'.kept j hj hjold]
        exact hnew.unique j hj hjold hjk
      . exact ((h'.isNew j (by omega) hjle).unique k (by omega) hlek (Ne.symm hjk)).symm
    . exact h'.isNew k (by omega) hlek

variable {tree tree' : TreeBag}

theorem search_not_found (htree : tree.IsTree) {t : Int × Int} {k r : Nat} (hk : 0 < k)
    (h : tree.search t.1 t.2 k = .ok r) (hr : tree.numgens < r)
    : r = tree.numgens + 1 ∧ ∀ j, k ≤ j → j ≤ tree.numgens → tree.pair j ≠ t := by
  unfold search at h
  split at h
  . next hle =>
    rw [elmPlist_tree1 htree hk hle, ok_bind, elmPlist_tree2 htree hk hle, ok_bind] at h
    split at h
    . cases h
      omega
    . next hne =>
      obtain ⟨hr, hrest⟩ := search_not_found htree (Nat.succ_pos k) h hr
      refine ⟨hr, fun j hkj hj => ?_⟩
      rcases Nat.eq_or_lt_of_le hkj with rfl | hlt
      . intro heq
        apply hne
        rw [← heq]
        exact ⟨rfl, rfl⟩
      . exact hrest j hlt hj
  . next hlt =>
    cases h
    exact ⟨rfl, fun j hkj hj => absurd hj (by omega)⟩
termination_by tree.numgens + 1 - k

theorem extend_appends (htree : tree.IsTree) {t : Int × Int} (h1 : tree.IsLetter t.1)
    (h2 : tree.IsLetter t.2) (hne : t.1 ≠ 0) (hnormal : IsNormal t)
    (hfresh : ∀ j, 0 < j → j ≤ tree.numgens → tree.pair j ≠ t)
    (hextend : tree.extend t.1 t.2 = .ok tree') : tree.Appends tree' := by
  unfold IsLetter at h1 h2
  obtain ⟨tree2, heq, hnum, -, -, he1, he2⟩ := extend_eq htree (by omega) t.1 t.2
  rw [heq] at hextend
  cases hextend
  have hpair (k : Nat) : tree'.pair k = if k = tree.numgens + 1 then t else tree.pair k := by
    unfold pair
    rw [he1, he2]
    split
    . rfl
    . rfl
  refine ⟨by omega, ?_, ?_⟩
  . intro k _ hle
    rw [hpair, if_neg (by omega)]
  . intro k hlt hle
    obtain rfl : k = tree.numgens + 1 := by
      omega
    have hlast : tree'.pair (tree.numgens + 1) = t := by
      rw [hpair, if_pos rfl]
    refine ⟨by rwa [hlast], by rwa [hlast], by rw [hlast]; omega, ?_⟩
    intro j hj hjle hjne
    rw [hlast, hpair, if_neg hjne]
    exact hfresh j hj (by omega)

variable {u v gen : Int}

section

variable (htree : tree.IsTree) (hu : tree.IsLetter u) (hv : tree.IsLetter v)

include htree hu hv

theorem enter_appends (hune : u ≠ 0) (hvne : v ≠ 0) (huv : u + v ≠ 0)
    (h : tree.enter u v = .ok (gen, tree'))
    : tree.Appends tree' := by
  unfold enter at h
  generalize ht : (if u < -v then (u, v) else (-v, -u)) = t at h
  have hletters : tree.IsLetter t.1 ∧ tree.IsLetter t.2 ∧ t.1 ≠ 0 ∧ IsNormal t
      ∧ max u.natAbs v.natAbs = max t.1.natAbs t.2.natAbs := by
    unfold IsLetter IsNormal at *
    rw [← ht]
    split
    . next hlt => exact ⟨hu, hv, hune, hlt, rfl⟩
    . simp only [Int.natAbs_neg]
      exact ⟨hv, hu, by omega, by omega, by omega⟩
  obtain ⟨h1, h2, hne, hnormal, hmax⟩ := hletters
  obtain ⟨k, hsearch, h⟩ := of_bind_eq_ok h
  dsimp only at h hsearch
  split at h
  . next hlt =>
    obtain ⟨hk, hfresh⟩ := search_not_found htree (Nat.succ_pos _) hsearch hlt
    obtain ⟨tree2, hextend, h⟩ := of_bind_eq_ok h
    cases h
    apply extend_appends htree h1 h2 hne hnormal _ hextend
    intro j hj hjle
    -- An entry with smaller components stands behind them.
    by_cases hsmall : max u.natAbs v.natAbs + 1 ≤ j
    . exact hfresh j hsmall hjle
    . intro heq
      have hentry1 : entryPlist tree.tree1 j = t.1 := congrArg Prod.fst heq
      have hentry2 : entryPlist tree.tree2 j = t.2 := congrArg Prod.snd heq
      have hlt := htree.smaller j hj hjle (by rw [hentry1]; exact hne)
      rw [hentry1, hentry2] at hlt
      omega
  . cases h
    exact Appends.refl tree

theorem multiply.go_appends {fuel : Nat} (h : multiply.go tree fuel u v = .ok (gen, tree'))
    : tree.Appends tree' := by
  induction fuel generalizing u v with
  | zero => cases h
  | succ fuel ih =>
    unfold multiply.go at h
    split at h
    . cases h
      exact Appends.refl tree
    . next hne =>
      have henter (h : tree.enter u v = .ok (gen, tree')) : tree.Appends tree' :=
        enter_appends htree hu hv (by omega) (by omega) (by omega) h
      obtain ⟨uu, hcompu, huu⟩ := components_spec htree hu (by omega)
      obtain ⟨vv, hcompv, hvv⟩ := components_spec htree hv (by omega)
      rw [hcompu, ok_bind, hcompv, ok_bind] at h
      cases uu with
      | none =>
        cases vv with
        | none => exact henter h
        | some vv =>
          dsimp only at h
          split at h
          . cases h
            exact Appends.refl tree
          . exact henter h
      | some uu =>
        cases vv with
        | none =>
          dsimp only at h
          split at h
          . cases h
            exact Appends.refl tree
          . exact henter h
        | some vv =>
          dsimp only at h
          split at h
          . cases h
            exact Appends.refl tree
          . split at h
            . cases h
              exact Appends.refl tree
            . split at h
              . exact ih ((huu uu rfl).isLetter hu).1 ((hvv vv rfl).isLetter hv).2 h
              . exact henter h

end

structure IsTreeEntry (tree : TreeBag) (x : FreeGroup Nat) (gen : Int) (tree' : TreeBag)
    : Prop where
  isEntry : tree.IsEntry x gen tree'
  appends : tree.Appends tree'
  ne_inverse : ∀ k j, tree.numgens < k → k ≤ tree'.numgens → IsNormal (tree'.pair j) →
    tree'.pair j ≠ (-(tree'.pair k).2, -(tree'.pair k).1)

theorem IsEntry.isTreeEntry {x : FreeGroup Nat} (h : tree.IsEntry x gen tree')
    (happends : tree.Appends tree') : tree.IsTreeEntry x gen tree' :=
  ⟨h, happends, fun k _ hlt hle hj => (happends.isNew k hlt hle).ne_inverse hj⟩

theorem multiply_isTreeEntry (htree : tree.IsTree) (hu : tree.IsLetter u) (hv : tree.IsLetter v)
    : ∃ gen tree', tree.multiply u v = .ok (gen, tree')
        ∧ tree.IsTreeEntry (tree.table.letter u * tree.table.letter v) gen tree' := by
  obtain ⟨gen, tree', hrun, hentry⟩ := multiply_spec htree hu hv
  exact ⟨gen, tree', hrun, hentry.isTreeEntry (multiply.go_appends htree hu hv hrun)⟩

theorem foldlM_multiply_appends (htree : tree.IsTree) {gen' : Int} (hgen : tree.IsLetter gen)
    {word : List Int} (hword : ∀ v ∈ word, tree.IsLetter v)
    (h : word.foldlM (fun (gen, tree) v => multiply tree gen v) (gen, tree) = .ok (gen', tree'))
    : tree.Appends tree' := by
  induction word generalizing gen tree with
  | nil =>
    cases h
    exact Appends.refl _
  | cons v word ih =>
    rw [List.forall_mem_cons] at hword
    obtain ⟨gen1, tree1, hrun, hentry⟩ := multiply_isTreeEntry htree hgen hword.1
    rw [List.foldlM_cons] at h
    dsimp only at h
    rw [hrun, ok_bind] at h
    have hrest : ∀ v ∈ word, tree1.IsLetter v :=
      fun v hv => hentry.isEntry.extends_tree.isLetter (hword.2 v hv)
    exact hentry.appends.trans (ih hentry.isEntry.isTree hentry.isEntry.isLetter hrest h)

theorem treeEntryC_isTreeEntry (htree : tree.IsTree) {word : List Int}
    (hword : ∀ v ∈ word, tree.IsLetter v)
    : ∃ gen tree', tree.treeEntryC word = .ok (gen, tree')
        ∧ tree.IsTreeEntry (tree.table.word word) gen tree' := by
  obtain ⟨gen, tree', hrun, hentry⟩ := treeEntryC_spec htree hword
  refine ⟨gen, tree', hrun, hentry.isTreeEntry ?_⟩
  cases word with
  | nil =>
    cases hrun
    exact Appends.refl tree
  | cons u word =>
    rw [List.forall_mem_cons] at hword
    exact foldlM_multiply_appends htree hword.1 hword.2 hrun

end TreeBag
