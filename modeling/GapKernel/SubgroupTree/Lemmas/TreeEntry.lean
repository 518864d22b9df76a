import GapKernel.CosetTable.Lemmas.Relator
import GapKernel.SubgroupTree.Lemmas.Entry
import Mathlib.Tactic.IntervalCases

open SignedWord List

namespace TreeBag

section Word

variable {word ptWord : List Int} {numgens i j : Nat} {gen : Int}

structure IsReducing (word : List Int) (i : Nat) (s : List Int × Nat) : Prop where
  length_eq : s.1.length = word.length
  le : s.2 ≤ i
  take_eq : s.1.take s.2 = reduce (word.take i)
  drop_eq : s.1.drop i = word.drop i

theorem getLast?_take_succ {l : List Int} (hj : j < l.length)
    : (l.take (j + 1)).getLast? = some l[j] := by
  rw [take_add_one, getElem?_eq_getElem hj]
  exact getLast?_concat

theorem cancelsLast_eq (hj : j ≤ ptWord.length) (gen : Int)
    : cancelsLast ptWord j gen = .ok (decide ((ptWord.take j).getLast? = some (-gen))) := by
  unfold cancelsLast
  cases j with
  | zero =>
    rw [if_neg (Nat.lt_irrefl 0), take_zero]
    rfl
  | succ j =>
    rw [if_pos (Nat.succ_pos j), elmPlist_of_getElem? (getElem?_eq_getElem hj), ok_bind,
      getLast?_take_succ hj]
    congr 2
    rw [Option.some.injEq, eq_iff_iff]
    omega

theorem reduceRound_spec (h : IsReducing word i (ptWord, j)) (hi : i < word.length)
    (hword : word[i].natAbs ≤ numgens)
    : ∃ s', reduceRound numgens (i + 1) (ptWord, j) = .ok s' ∧ IsReducing word (i + 1) s' := by
  obtain ⟨hlen, hle, htake, hdrop⟩ := h
  dsimp only at hlen hle htake hdrop
  have hget : ptWord[i]? = some word[i] := by
    have hhead := congrArg head? hdrop
    rw [head?_drop, head?_drop, getElem?_eq_getElem hi] at hhead
    exact hhead
  have hreduce : reduce (word.take (i + 1)) = mulLetter (ptWord.take j) word[i] := by
    rw [htake, ← reduce_concat, take_add_one, getElem?_eq_getElem hi]
    rfl
  have hdrop' : ptWord.drop (i + 1) = word.drop (i + 1) := by
    have htail := congrArg (List.drop 1) hdrop
    rwa [drop_drop, drop_drop] at htail
  unfold reduceRound
  rw [elmPlist_of_getElem? hget, ok_bind]
  unfold mulLetter at hreduce
  by_cases hzero : word[i] = 0
  . rw [if_pos hzero] at hreduce ⊢
    exact ⟨_, rfl, hlen, Nat.le_succ_of_le hle, hreduce.symm, hdrop'⟩
  . rw [if_neg hzero] at hreduce ⊢
    rw [if_neg (by omega)]
    unfold appendLetter
    dsimp only
    rw [cancelsLast_eq (by omega), ok_bind]
    by_cases hlast : (ptWord.take j).getLast? = some (-word[i])
    . rw [if_pos hlast] at hreduce
      rw [if_pos (decide_eq_true hlast)]
      refine ⟨_, rfl, hlen, by dsimp only; omega, ?_, hdrop'⟩
      rw [hreduce, dropLast_eq_take, take_take, length_take]
      congr 1
      omega
    . rw [if_neg hlast] at hreduce
      rw [if_neg (by rw [decide_eq_true_iff]; exact hlast), setElmPlist_eq (by omega) (by omega),
        ok_bind, Nat.add_sub_cancel]
      refine ⟨_, rfl, ?_, Nat.succ_le_succ hle, ?_, ?_⟩
      . rw [length_set, hlen]
      . dsimp only
        rw [hreduce, take_add_one, getElem?_set_self (by omega),
          take_set_of_le (Nat.le_refl j)]
        rfl
      . dsimp only
        rw [drop_set_of_lt (by omega), hdrop']

theorem fillZero_spec {l : List Int} {m : Nat} (hj : j + m = l.length)
    : forLoop (fun i l => setElmPlist l i 0) m (j + 1) l
        = .ok (l.take j ++ replicate m 0) := by
  induction m generalizing j l with
  | zero =>
    rw [take_of_length_le (by omega), replicate_zero, append_nil]
    rfl
  | succ m ih =>
    unfold forLoop
    rw [setElmPlist_eq (by omega) (by omega), ok_bind, ih (by rw [length_set]; omega),
      Nat.add_sub_cancel, take_add_one, getElem?_set_self (by omega),
      take_set_of_le (Nat.le_refl j), replicate_succ, append_assoc]
    rfl

theorem reduceWord_spec (hword : ∀ u ∈ word, u.natAbs ≤ numgens)
    : reduceWord numgens word
        = .ok (reduce word ++ replicate (word.length - (reduce word).length) 0,
          (reduce word).length) := by
  have hstart : IsReducing word 0 (word, 0) := ⟨rfl, Nat.le_refl 0, rfl, rfl⟩
  obtain ⟨⟨ptWord, j⟩, hrun, hs⟩ := @forLoop_spec _ (reduceRound numgens)
    word.length 1 (word, 0) (fun i s => IsReducing word (i - 1) s)
    (by
      rintro i ⟨ptWord, j⟩ h1 hi h
      obtain ⟨i, rfl⟩ : ∃ k, i = k + 1 := ⟨i - 1, by omega⟩
      exact reduceRound_spec h (by omega) (hword _ (getElem_mem (by omega))))
    hstart
  obtain ⟨hlen, hle, htake, -⟩ := hs
  dsimp only at hlen hle htake
  rw [Nat.add_sub_cancel_left, take_length] at htake
  have hj : j = (reduce word).length := by
    rw [← htake, length_take]
    omega
  unfold reduceWord
  rw [hrun, ok_bind]
  dsimp only
  rw [fillZero_spec (by omega), htake, ok_bind, hj]
  rfl

end Word

section Entry

variable {tree tree' : TreeBag} {word : List Int} {gen : Int}

def HasPrimary (tree : TreeBag) : Prop :=
  ∀ k, 0 < k → k ≤ tree.numgens → entryPlist tree.tree1 k = 0 → entryPlist tree.tree2 k = 0

theorem checkComponents_spec (htree : tree.IsTree) (hprimary : tree.HasPrimary) {i : Nat}
    (hi : 0 < i) (hle : i ≤ tree.numgens) : tree.checkComponents i = .ok () := by
  have hsmall : (entryPlist tree.tree1 i).natAbs < i ∧ (entryPlist tree.tree2 i).natAbs < i := by
    by_cases hzero : entryPlist tree.tree1 i = 0
    . rw [hzero, hprimary i hi hle hzero]
      exact ⟨hi, hi⟩
    . exact htree.smaller i hi hle hzero
  unfold checkComponents
  rw [elmPlist_tree1 htree hi hle, ok_bind, elmPlist_tree2 htree hi hle, ok_bind, if_neg (by omega)]
  rfl

theorem forLoop_letters {ptWord : List Int} {n i : Nat} (h : i + n ≤ ptWord.length)
    (s : Int × TreeBag)
    : forLoop (fun i (gen, tree) => do
          let v ← elmPlist ptWord i
          multiply tree gen v) n (i + 1) s
        = ((ptWord.drop i).take n).foldlM (fun (gen, tree) v => multiply tree gen v) s := by
  induction n generalizing i s with
  | zero =>
    rw [take_zero]
    rfl
  | succ n ih =>
    obtain ⟨gen, tree⟩ := s
    have hi : i < ptWord.length := by
      omega
    rw [drop_eq_getElem_cons hi, take_succ_cons, foldlM_cons]
    unfold forLoop
    dsimp only
    rw [elmPlist_of_getElem? (getElem?_eq_getElem hi), ok_bind]
    congr 1
    funext s
    exact ih (by omega) s

theorem funcTreeEntry_eq (htree : tree.IsTree) (hprimary : tree.HasPrimary)
    (hword : ∀ v ∈ word, tree.IsLetter v)
    (hrun : tree.treeEntryC (reduce word) = .ok (gen, tree'))
    : tree.funcTreeEntry word
        = .ok (gen, reduce word ++ replicate (word.length - (reduce word).length) 0, tree')
        := by
  have hcheck : forLoop (fun i _ => tree.checkComponents i) tree.numgens 1 () = .ok () := by
    obtain ⟨⟨⟩, hcheck, -⟩ := @forLoop_spec _ (fun i _ => tree.checkComponents i)
      tree.numgens 1 () (fun _ _ => True)
      (fun i _ h1 hi _ => ⟨(), checkComponents_spec htree hprimary h1 (by omega), trivial⟩) trivial
    exact hcheck
  unfold funcTreeEntry
  rw [if_neg (not_not.mpr htree.length_eq.symm), hcheck, ok_bind, reduceWord_spec hword, ok_bind]
  dsimp only
  generalize word.length - (reduce word).length = m
  generalize reduce word = w at hrun ⊢
  cases w with
  | nil =>
    cases hrun
    rfl
  | cons u w =>
    have hfirst : firstLetter (u :: w ++ replicate m 0) (u :: w).length = .ok u := rfl
    have hle : 1 + ((u :: w).length - 1) ≤ (u :: w ++ replicate m 0).length := by
      rw [length_append, length_cons]
      omega
    rw [hfirst, ok_bind, forLoop_letters hle, length_cons, Nat.add_sub_cancel,
      cons_append, drop_one, tail_cons, take_left']
    . unfold treeEntryC at hrun
      dsimp only at hrun
      rw [hrun]
      rfl
    . rfl

end Entry

section Primary

variable {tree : TreeBag} {word : List Int}

def IsPrimaryWord (tree : TreeBag) (word : List Int) : Prop :=
  ∀ v ∈ word, entryPlist tree.tree1 v.natAbs = 0

theorem letter_eq_mk {u : Int} (hu : u ≠ 0) (h : entryPlist tree.tree1 u.natAbs = 0)
    : tree.table.letter u = FreeGroup.mk [CosetTable.letter u] := by
  have hgen := ProductTable.gen_of_none (entry_of_eq_zero h)
  unfold CosetTable.letter
  rcases Int.lt_or_gt_of_ne hu with hneg | hpos
  . rw [ProductTable.letter_of_neg hneg, hgen, decide_eq_false (by omega)]
    rfl
  . rw [ProductTable.letter_of_pos hpos, hgen, decide_eq_true hpos]
    rfl

theorem word_eq_element (hne : ∀ u ∈ word, u ≠ 0) (h : tree.IsPrimaryWord word)
    : tree.table.word word = CosetTable.element word := by
  rw [CosetTable.element_eq_prod]
  unfold ProductTable.word
  congr 1
  apply map_congr_left
  exact fun u hu => letter_eq_mk (hne u hu) (h u hu)

theorem eq_nil_of_word_eq_one (hword : IsReduced word) (h : tree.IsPrimaryWord word)
    (hone : tree.table.word word = 1) : word = [] := by
  rw [word_eq_element hword.ne_zero h] at hone
  have hreduced : FreeGroup.IsReduced (word.map CosetTable.letter) := by
    unfold FreeGroup.IsReduced
    rw [isChain_map]
    exact List.IsChain.imp (fun a b hab => CosetTable.letters_agree hab) hword.reduced
  have hnil := FreeGroup.eq_of_isReduced hreduced FreeGroup.IsReduced.nil hone
  exact map_eq_nil_iff.mp hnil

end Primary

section Spec

theorem treeEntry_spec {tree : TreeBag} {word : List Int} (htree : tree.IsTree)
    (hprimary : tree.HasPrimary) (hword : ∀ v ∈ word, tree.IsLetter v)
    : (∃ gen tree', tree.treeEntryC word = .ok (gen, tree')
          ∧ tree.IsTreeEntry (tree.table.word word) gen tree'
          ∧ (gen = 0 → tree.table.word word = 1))
        ∧ ∃ gen tree', tree.funcTreeEntry word = .ok (gen,
            reduce word ++ List.replicate (word.length - (reduce word).length) 0, tree')
          ∧ tree.IsTreeEntry (tree.table.word word) gen tree'
          ∧ (gen = 0 → tree.table.word word = 1)
          ∧ tree.treeEntryC (reduce word) = .ok (gen, tree')
          ∧ (IsReduced word → tree.treeEntryC word = .ok (gen, tree'))
          ∧ (tree.IsPrimaryWord word → (gen = 0 ↔ tree.table.word word = 1)) := by
  have hzero {gen : Int} {tree' : TreeBag}
      (h : tree.IsTreeEntry (tree.table.word word) gen tree') (hgen : gen = 0)
      : tree.table.word word = 1 := by
    rw [← h.isEntry.letter_eq, hgen, ProductTable.letter_zero]
  constructor
  . obtain ⟨gen, tree', hrun, h⟩ := treeEntryC_isTreeEntry htree hword
    exact ⟨gen, tree', hrun, h, hzero h⟩
  . obtain ⟨gen, tree', hrun, h⟩ := treeEntryC_isTreeEntry htree
      (fun v hv => hword v (mem_of_mem_reduce hv) : ∀ v ∈ reduce word, tree.IsLetter v)
    rw [word_reduce] at h
    refine ⟨gen, tree', funcTreeEntry_eq htree hprimary hword hrun, h, hzero h, hrun, ?_, ?_⟩
    . intro hreduced
      rwa [reduce_of_isReduced hreduced] at hrun
    . refine fun hprim => ⟨hzero h, fun hone => ?_⟩
      rw [← word_reduce] at hone
      have hnil := eq_nil_of_word_eq_one (isReduced_reduce word)
        (fun v hv => hprim v (mem_of_mem_reduce hv)) hone
      rw [hnil] at hrun
      cases hrun
      rfl

theorem treeEntry_spec_two
    : ∃ gen tree', (⟨[0, 0], [0, 0], 2⟩ : TreeBag).funcTreeEntry [1, 2, -2]
          = .ok (gen, [1, 0, 0], tree')
        ∧ (⟨[0, 0], [0, 0], 2⟩ : TreeBag).Appends tree' := by
  have htree : (⟨[0, 0], [0, 0], 2⟩ : TreeBag).IsTree := by
    refine ⟨by decide, rfl, fun k hk hle => ?_⟩
    dsimp only at hle
    interval_cases k <;> decide
  have hprimary : (⟨[0, 0], [0, 0], 2⟩ : TreeBag).HasPrimary := by
    intro k hk hle
    dsimp only at hle
    interval_cases k <;> decide
  obtain ⟨-, gen, tree', hrun, h, -⟩ := @treeEntry_spec _ [1, 2, -2] htree hprimary (by decide)
  exact ⟨gen, tree', hrun, h.appends⟩

theorem word_two_ways
    : (⟨[0, 0, -2, -3, -1, 1], [0, 0, -1, 1, -2, -5], 6⟩ : TreeBag).table.word [4, -6] = 1 := by
  generalize htable : (⟨[0, 0, -2, -3, -1, 1], [0, 0, -1, 1, -2, -5], 6⟩ : TreeBag).table = t
  have h4 : t.letter 4 = t.letter (-3) * t.letter 1 :=
    @ProductTable.letter_of_some t 4 (-3) 1 (by rw [← htable]; rfl) (by decide)
  have h3 : t.letter (-3) = t.letter 1 * t.letter 2 := by
    rw [@ProductTable.letter_of_some t (-3) (-2) (-1) (by rw [← htable]; rfl) (by decide),
      if_neg (by decide)]
    rfl
  have h6 : t.letter (-6) = t.letter 5 * t.letter (-1) := by
    rw [@ProductTable.letter_of_some t (-6) 1 (-5) (by rw [← htable]; rfl) (by decide),
      if_neg (by decide)]
    rfl
  have h5 : t.letter 5 = t.letter (-1) * t.letter (-2) :=
    @ProductTable.letter_of_some t 5 (-1) (-2) (by rw [← htable]; rfl) (by decide)
  rw [ProductTable.word_cons, ProductTable.word_cons, h4, h3, h6, h5]
  simp [mul_assoc]

/--
A trivial word can get an index that is not zero, a word that is not freely reduced can extend the
tree in `TreeEntryC` only, and the inverse of a pair that is not normal can be entered.
-/
theorem not_treeEntry_spec
    : (¬∀ (tree : TreeBag) (word : List Int), tree.IsTree → tree.HasPrimary
          → (∀ v ∈ word, tree.IsLetter v) → tree.table.word word = 1
          → ∃ tree', tree.treeEntryC word = .ok (0, tree'))
        ∧ (¬∀ (tree : TreeBag) (word : List Int), tree.IsTree → tree.HasPrimary
          → (∀ v ∈ word, tree.IsLetter v)
          → ∃ gen ptWord tree', tree.treeEntryC word = .ok (gen, tree')
            ∧ tree.funcTreeEntry word = .ok (gen, ptWord, tree'))
        ∧ ¬∀ (tree : TreeBag) (word : List Int) gen tree', tree.IsTree → tree.HasPrimary
          → (∀ v ∈ word, tree.IsLetter v) → tree.treeEntryC word = .ok (gen, tree')
          → ∀ k, tree.numgens < k → k ≤ tree'.numgens
          → ∀ j, 0 < j → j < k → tree'.pair j ≠ (-(tree'.pair k).2, -(tree'.pair k).1) := by
  refine ⟨fun hall => ?_, fun hall => ?_, fun hall => ?_⟩
  . obtain ⟨tree', hrun⟩ := hall ⟨[0, 0, -2, -3, -1, 1], [0, 0, -1, 1, -2, -5], 6⟩ [4, -6]
      ⟨by decide, rfl, fun k hk hle => by dsimp only at hle; interval_cases k <;> decide⟩
      (fun k hk hle => by dsimp only at hle; interval_cases k <;> decide) (by decide) word_two_ways
    have heval : (⟨[0, 0, -2, -3, -1, 1], [0, 0, -1, 1, -2, -5], 6⟩ : TreeBag).treeEntryC [4, -6]
        = .ok (7, ⟨[0, 0, -2, -3, -1, 1, 4, 0, 0, 0, 0, 0],
          [0, 0, -1, 1, -2, -5, -6, 0, 0, 0, 0, 0], 7⟩) := by
      decide +kernel
    rw [heval] at hrun
    cases hrun
  . obtain ⟨gen, ptWord, tree', hrun, hrun'⟩ := hall ⟨[0, 0], [0, 0], 2⟩ [1, 2, -2]
      ⟨by decide, rfl, fun k hk hle => by dsimp only at hle; interval_cases k <;> decide⟩
      (fun k hk hle => by dsimp only at hle; interval_cases k <;> decide) (by decide)
    have heval : (⟨[0, 0], [0, 0], 2⟩ : TreeBag).treeEntryC [1, 2, -2]
        = .ok (1, ⟨[0, 0, -2, 0], [0, 0, -1, 0], 3⟩) := by
      decide +kernel
    have heval' : (⟨[0, 0], [0, 0], 2⟩ : TreeBag).funcTreeEntry [1, 2, -2]
        = .ok (1, [1, 0, 0], ⟨[0, 0], [0, 0], 2⟩) := by
      decide
    rw [heval] at hrun
    rw [heval'] at hrun'
    cases hrun
    cases hrun'
  . have heval : (⟨[0, 0, 1], [0, 0, 2], 3⟩ : TreeBag).treeEntryC [1, 2]
        = .ok (-4, ⟨[0, 0, 1, -2, 0, 0], [0, 0, 2, -1, 0, 0], 4⟩) := by
      decide +kernel
    exact hall _ _ _ _
      ⟨by decide, rfl, fun k hk hle => by dsimp only at hle; interval_cases k <;> decide⟩
      (fun k hk hle => by dsimp only at hle; interval_cases k <;> decide) (by decide) heval 4
      (by decide) (by decide) 3 (by decide) (by decide) rfl

end Spec

end TreeBag
