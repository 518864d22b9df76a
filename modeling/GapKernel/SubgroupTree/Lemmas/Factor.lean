import GapKernel.SubgroupTree.Lemmas.Entry

open List

namespace FactorState

structure IsState (s : FactorState) : Prop where
  isTree : s.tree.IsTree
  isWord : s.wordList.IsWord
  isLetter : ∀ u ∈ s.wordList.letters, s.tree.IsLetter u

def value (s : FactorState) : FreeGroup Nat :=
  s.tree.table.word s.wordList.letters

def IsFull (s : FactorState) (factor : Int) : Prop :=
  s.wordList.leng = wordSize ∧ entryPlist s.wordList.buffer wordSize ≠ -factor

structure IsStep (s s' : FactorState) : Prop where
  isState : s'.IsState
  extends_tree : s.tree.Extends s'.tree

variable {s : FactorState} {factor : Int}

theorem letters_push (factor : Int) {w : WordList} (hw : w.IsWord) (hlt : w.leng < wordSize)
    : ({ leng := w.leng + 1, buffer := w.buffer.set w.leng factor } : WordList).letters
        = w.letters ++ [factor] := by
  have := hw.length_eq
  unfold WordList.letters
  rw [take_succ_eq_append_getElem (by simp; omega)]
  rw [take_set_of_le (le_refl _)]
  simp

theorem letters_pop {w : WordList} (hw : w.IsWord) (hpos : w.leng ≠ 0)
    : w.letters
        = ({ w with leng := w.leng - 1 } : WordList).letters ++ [entryPlist w.buffer w.leng] := by
  have hlen := hw.length_eq
  have hle := hw.leng_le
  unfold WordList.letters
  obtain ⟨k, hk⟩ := Nat.exists_eq_succ_of_ne_zero hpos
  rw [hk, take_succ_eq_append_getElem (by omega)]
  have : k < w.buffer.length := by omega
  simp [entryPlist, this]

theorem push_spec (hs : s.IsState) (hlt : s.wordList.leng < wordSize)
    (hfactor : s.tree.IsLetter factor)
    : ∃ s', s.push factor = .ok s' ∧ s.IsStep s'
        ∧ s'.value = s.value * s'.tree.table.letter factor := by
  have hletters := letters_push factor hs.isWord hlt
  have hlen := hs.isWord.length_eq
  unfold push
  rw [setElmPlist_eq (by omega) (by omega), ok_bind]
  rw [Nat.add_sub_cancel]
  refine ⟨_, rfl, ⟨⟨hs.isTree, ⟨?_, hlt⟩, ?_⟩, TreeBag.Extends.refl _⟩, ?_⟩
  . simpa using hlen
  . intro u hu
    rw [hletters, mem_append, mem_singleton] at hu
    cases hu with
    | inl hu => apply hs.isLetter u hu
    | inr hu => rwa [hu]
  . unfold value
    rw [hletters]
    simp

theorem pop_spec (hs : s.IsState) (hpos : s.wordList.leng ≠ 0)
    (heq : entryPlist s.wordList.buffer s.wordList.leng = -factor)
    : let s' := { s with wordList := { s.wordList with leng := s.wordList.leng - 1 } }
      s.IsStep s' ∧ s'.value = s.value * s'.tree.table.letter factor := by
  have hletters := letters_pop hs.isWord hpos
  have hle := hs.isWord.leng_le
  constructor
  . constructor
    . constructor
      . apply hs.isTree
      . constructor
        . apply hs.isWord.length_eq
        . dsimp only
          omega
      . intro u hu
        apply hs.isLetter
        rw [hletters]
        exact mem_append_left _ hu
    . apply TreeBag.Extends.refl
  . unfold value
    rw [hletters, heq]
    simp

section

variable (hs : s.IsState) (hfactor : s.tree.IsLetter factor)

include hs hfactor

theorem add_spec_of_not_isFull (hfull : ¬s.IsFull factor)
    : ∃ s', s.addCosetFactor2 factor = .ok s' ∧ s.IsStep s'
        ∧ s'.value = s.value * s'.tree.table.letter factor := by
  have hlen := hs.isWord.length_eq
  have hle := hs.isWord.leng_le
  unfold addCosetFactor2
  split
  . next hzero =>
    apply push_spec hs _ hfactor
    unfold wordSize
    omega
  . next hpos =>
    rw [elmPlist_eq_entryPlist (by omega) (by omega), ok_bind]
    split
    . next heq => exact ⟨_, rfl, pop_spec hs hpos heq⟩
    . next hne =>
      have hlt : s.wordList.leng < wordSize := by
        by_contra hge
        have hleng : s.wordList.leng = wordSize := by omega
        apply hfull
        rw [hleng] at hne
        exact ⟨hleng, hne⟩
      rw [if_pos hlt]
      apply push_spec hs hlt hfactor

theorem add_spec_of_isFull (hfull : s.IsFull factor)
    : ∃ s', s.addCosetFactor2 factor = .ok s' ∧ s.IsStep s'
        ∧ s'.value = s'.tree.table.letter factor := by
  have hlen := hs.isWord.length_eq
  have hpos : 0 < wordSize := by
    unfold wordSize
    omega
  obtain ⟨gen, tree, htree, hentry⟩ := TreeBag.treeEntryC_spec hs.isTree hs.isLetter
  unfold addCosetFactor2
  rw [if_neg (by rw [hfull.1]; omega)]
  rw [elmPlist_eq_entryPlist (by rw [hfull.1]; omega) (by rw [hfull.1, hlen]), ok_bind]
  rw [if_neg (by rw [hfull.1]; exact hfull.2)]
  rw [if_neg (by rw [hfull.1]; omega)]
  rw [htree, ok_bind]
  dsimp only
  rw [setElmPlist_eq (by omega) (by omega), ok_bind]
  generalize heq : FactorState.mk tree _ = s1
  have hvalue : s1.IsState ∧ s1.wordList.leng < wordSize ∧ s1.tree = tree ∧ s1.value = 1 := by
    have hlt : 1 < wordSize := by
      unfold wordSize
      omega
    have hzero : tree.IsLetter 0 := by
      simp [TreeBag.IsLetter]
    obtain ⟨x, buffer, hbuffer⟩ : ∃ x buffer, s.wordList.buffer = x :: buffer := by
      apply exists_cons_of_length_pos
      omega
    have hleng := hs.isWord.length_eq
    rw [← heq]
    rw [hbuffer] at hleng ⊢
    by_cases hgen : gen = 0
    . simp only [hgen, if_true]
      refine ⟨⟨hentry.isTree, ⟨hleng, by simp⟩, ?_⟩, by simpa using hpos, trivial, rfl⟩
      simp [WordList.letters]
    . simp only [hgen, if_false]
      refine ⟨⟨hentry.isTree, ⟨hleng, by simp; omega⟩, ?_⟩, by simpa using hlt, trivial, ?_⟩
      . simpa [WordList.letters] using hzero
      . simp [value, WordList.letters]
  obtain ⟨hs1, hlt, rfl, hone⟩ := hvalue
  have hnotFull : ¬s1.IsFull factor := by
    intro h
    rw [h.1] at hlt
    omega
  obtain ⟨s2, hadd, hstep, hs2⟩ := add_spec_of_not_isFull hs1
    (hentry.extends_tree.isLetter hfactor) hnotFull
  refine ⟨s2, hadd, ⟨hstep.isState, hentry.extends_tree.trans hstep.extends_tree⟩, ?_⟩
  rw [hs2, hone, one_mul]

theorem addCosetFactor2_spec
    : ∃ s', s.addCosetFactor2 factor = .ok s' ∧ s.IsStep s'
        ∧ (¬s.IsFull factor → s'.value = s.value * s'.tree.table.letter factor)
        ∧ (s.IsFull factor → s'.value = s'.tree.table.letter factor) := by
  by_cases hfull : s.IsFull factor
  . obtain ⟨s', hadd, hstep, hvalue⟩ := add_spec_of_isFull hs hfactor hfull
    exact ⟨s', hadd, hstep, fun h => absurd hfull h, fun _ => hvalue⟩
  . obtain ⟨s', hadd, hstep, hvalue⟩ := add_spec_of_not_isFull hs hfactor hfull
    exact ⟨s', hadd, hstep, fun _ => hvalue, fun h => absurd h hfull⟩

end

structure IsStart (s : FactorState) : Prop where
  isTree : s.tree.IsTree
  length_eq : s.wordList.buffer.length = wordSize

inductive Run (s : FactorState) : List Int → FactorState → Prop where
  | init : Run s [] s.initializeCosetFactorWord
  | add {factors s1 s2 factor} (run : Run s factors s1) (isLetter : s1.tree.IsLetter factor)
      (eq : s1.addCosetFactor2 factor = .ok s2) : Run s (factors ++ [factor]) s2

def IsProduct (s : FactorState) (factors : List Int) : Prop :=
  s.value = s.tree.table.word factors

/--
Adding `factor` does not lose the word in `wordList`: it is not replaced, or it stands for 1.
-/
def KeepsWord (s : FactorState) (factor : Int) : Prop :=
  s.IsFull factor → s.value = 1

structure IsReached (s : FactorState) (factors : List Int) : Prop where
  isState : s.IsState
  isLetter : ∀ u ∈ factors, s.tree.IsLetter u

theorem isReached_initialize (hs : s.IsStart) : s.initializeCosetFactorWord.IsReached [] := by
  constructor
  . refine ⟨hs.isTree, ⟨hs.length_eq, Nat.zero_le _⟩, ?_⟩
    intro u hu
    simp [initializeCosetFactorWord, WordList.letters] at hu
  . simp

variable {factors : List Int}

theorem IsReached.add {s' : FactorState} (h : s.IsReached factors)
    (hfactor : s.tree.IsLetter factor) (heq : s.addCosetFactor2 factor = .ok s')
    : s'.IsReached (factors ++ [factor])
        ∧ (s.IsProduct factors → (s'.IsProduct (factors ++ [factor]) ↔ s.KeepsWord factor)) := by
  obtain ⟨s1, hadd, hstep, hnotFull, hfull⟩ := addCosetFactor2_spec h.isState hfactor
  rw [heq] at hadd
  cases hadd
  have hext := hstep.extends_tree
  constructor
  . refine ⟨hstep.isState, ?_⟩
    intro u hu
    rw [mem_append, mem_singleton] at hu
    apply hext.isLetter
    cases hu with
    | inl hu => apply h.isLetter u hu
    | inr hu => rwa [hu]
  . intro hproduct
    unfold IsProduct at *
    rw [ProductTable.word_append, hext.table.word_eq h.isLetter, ← hproduct]
    rw [ProductTable.word_cons, ProductTable.word_nil, mul_one]
    unfold KeepsWord
    by_cases hcase : s.IsFull factor
    . rw [hfull hcase]
      simp [hcase]
    . rw [hnotFull hcase]
      simp [hcase]

theorem isReached_of_run (hs : s.IsStart) {s' : FactorState} (hrun : s.Run factors s')
    : s'.IsReached factors := by
  induction hrun with
  | init => apply isReached_initialize hs
  | add run isLetter eq ih => exact (ih.add isLetter eq).1

variable {s1 : FactorState}

theorem exists_run_add (hs : s.IsStart) (hrun : s.Run factors s1)
    (hfactor : s1.tree.IsLetter factor)
    : ∃ s2, s1.addCosetFactor2 factor = .ok s2 ∧ s.Run (factors ++ [factor]) s2 := by
  have hs1 := (isReached_of_run hs hrun).isState
  obtain ⟨s2, hadd, _⟩ := addCosetFactor2_spec hs1 hfactor
  exact ⟨s2, hadd, hrun.add hfactor hadd⟩

theorem isProduct_of_keepsWord (hs : s.IsStart)
    (hkeeps : ∀ pre factor s1, pre ++ [factor] <+: factors → s.Run pre s1 →
      s1.tree.IsLetter factor → s1.KeepsWord factor) {pre : List Int} (hpre : pre <+: factors)
    (hrun : s.Run pre s1)
    : s1.IsProduct pre := by
  induction hrun with
  | init =>
    unfold IsProduct value
    simp [initializeCosetFactorWord, WordList.letters]
  | add run isLetter eq ih =>
    have hproduct := ih ((prefix_append _ _).trans hpre)
    have hreached := isReached_of_run hs run
    rw [(hreached.add isLetter eq).2 hproduct]
    apply hkeeps _ _ _ hpre run isLetter

theorem keepsWord_of_isProduct (hs : s.IsStart) {pre : List Int} (hrun : s.Run pre s1)
    (hfactor : s1.tree.IsLetter factor)
    (hproduct : ∀ pre' s', pre' <+: pre ++ [factor] → s.Run pre' s' → s'.IsProduct pre')
    : s1.KeepsWord factor := by
  have hreached := isReached_of_run hs hrun
  obtain ⟨s2, hadd, hrun2⟩ := exists_run_add hs hrun hfactor
  rw [← (hreached.add hfactor hadd).2 (hproduct _ _ (prefix_append _ _) hrun)]
  exact hproduct _ _ (prefix_refl _) hrun2

/--
The word stands for the product of the factors in all states of a run exactly if no step of the run
loses the word.
-/
theorem isProduct_iff_keepsWord (s : FactorState) (hs : s.IsStart) (factors : List Int)
    : (∀ pre s1, pre <+: factors → s.Run pre s1 → s1.IsProduct pre)
        ↔
      ∀ pre factor s1, pre ++ [factor] <+: factors → s.Run pre s1 → s1.tree.IsLetter factor →
        s1.KeepsWord factor := by
  constructor
  . intro hproduct pre factor s1 hpre hrun hfactor
    apply keepsWord_of_isProduct hs hrun hfactor
    intro pre' s' hpre' hrun'
    exact hproduct pre' s' (hpre'.trans hpre) hrun'
  . intro hkeeps pre s1 hpre hrun
    exact isProduct_of_keepsWord hs hkeeps hpre hrun

def oneGenerator : FactorState where
  tree := { tree1 := [0], tree2 := [0], numgens := 1 }
  wordList := { leng := 0, buffer := List.replicate wordSize 0 }

theorem isStart_oneGenerator : oneGenerator.IsStart := by
  constructor
  . constructor
    . decide
    . decide
    . intro k hk hle hne
      have hle : k ≤ 1 := hle
      have : k = 1 := by omega
      subst this
      contradiction
  . apply length_replicate

theorem isProduct_iff_keepsWord_oneGenerator
    : (∀ pre s1, pre <+: [1, 1, -1] → oneGenerator.Run pre s1 → s1.IsProduct pre)
        ↔
      ∀ pre factor s1, pre ++ [factor] <+: [1, 1, -1] → oneGenerator.Run pre s1 →
        s1.tree.IsLetter factor → s1.KeepsWord factor :=
  isProduct_iff_keepsWord oneGenerator isStart_oneGenerator [1, 1, -1]

theorem exists_run_replicate (hs : s.IsStart) {k : Nat} (hk : 0 < k) (hle : k ≤ s.tree.numgens)
    {n : Nat} (hn : n ≤ wordSize)
    : ∃ s1, s.Run (replicate n (k : Int)) s1 ∧ s1.tree = s.tree ∧ s1.wordList.leng = n
        ∧ s1.wordList.letters = replicate n (k : Int) := by
  induction n with
  | zero => exact ⟨_, .init, rfl, rfl, rfl⟩
  | succ n ih =>
    obtain ⟨s1, hrun, htree, hleng, hletters⟩ := ih (by omega)
    have hword := (isReached_of_run hs hrun).isState.isWord
    have hlen := hword.length_eq
    have hfactor : s1.tree.IsLetter k := by
      unfold TreeBag.IsLetter
      rw [htree]
      omega
    have hpush : s1.addCosetFactor2 k = s1.push k := by
      unfold addCosetFactor2
      split
      . rfl
      . next hpos =>
        have hlast : entryPlist s1.wordList.buffer s1.wordList.leng = k := by
          have hmem : entryPlist s1.wordList.buffer s1.wordList.leng ∈ s1.wordList.letters := by
            rw [letters_pop hword hpos]
            simp
          rw [hletters] at hmem
          exact eq_of_mem_replicate hmem
        rw [elmPlist_eq_entryPlist (by omega) (by omega), ok_bind]
        rw [if_neg (by omega)]
        rw [if_pos (by omega)]
    obtain ⟨s2, hadd, hrun2⟩ := exists_run_add hs hrun hfactor
    refine ⟨s2, ?_⟩
    rw [replicate_succ']
    rw [hpush] at hadd
    unfold push at hadd
    rw [setElmPlist_eq (by omega) (by omega), ok_bind] at hadd
    cases hadd
    refine ⟨hrun2, htree, by simp [hleng], ?_⟩
    rw [Nat.add_sub_cancel]
    rw [letters_push k hword (by omega)]
    rw [hletters]

/--
The generator 1024 times: the last factor replaces the full word of the other 1023.
-/
theorem not_isProduct_oneGenerator
    : ¬∀ pre s1, pre <+: List.replicate 1024 (1 : Int) → oneGenerator.Run pre s1 →
        s1.IsProduct pre := by
  intro hproduct
  obtain ⟨s1, hrun, htree, hleng, hletters⟩ :=
    exists_run_replicate isStart_oneGenerator (k := 1) (by omega) (by decide)
      (le_refl wordSize)
  have hword := (isReached_of_run isStart_oneGenerator hrun).isState.isWord
  have hkeeps : s1.KeepsWord 1 := by
    apply keepsWord_of_isProduct isStart_oneGenerator hrun
    . unfold TreeBag.IsLetter
      rw [htree]
      decide
    . intro pre' s' hpre'
      have hfactors : List.replicate 1024 (1 : Int)
          = List.replicate wordSize ((1 : Nat) : Int) ++ [1] :=
        List.replicate_succ'
      apply hproduct
      rwa [hfactors]
  have hlast : entryPlist s1.wordList.buffer wordSize = 1 := by
    have hmem : entryPlist s1.wordList.buffer wordSize ∈ s1.wordList.letters := by
      rw [letters_pop hword (by rw [hleng]; decide), hleng]
      simp
    rw [hletters] at hmem
    exact List.eq_of_mem_replicate hmem
  have hone := hkeeps ⟨hleng, by omega⟩
  unfold value at hone
  rw [hletters, htree] at hone
  have hprimary : oneGenerator.tree.table.entry 1 = none := by
    apply TreeBag.entry_of_eq_zero
    rfl
  apply ProductTable.word_replicate_ne_one (by omega) hprimary _ hone
  decide

end FactorState
