import GapKernel.Trans.Lemmas.Kernel

open PermList TransImpl FirstOccurrence List

variable {φ : Nat → Nat} {deg : Nat} {T : PermTnum} {pt : List Nat}

variable {n : Nat} {l : List Nat}

theorem ne_nil_of_mem_classes (h : l ∈ classes φ n) : l ≠ [] := by
  unfold classes at h
  rw [mem_map] at h
  obtain ⟨x, hx, hl⟩ := h
  rw [mem_values] at hx
  obtain ⟨i, hi, heq⟩ := hx
  rw [← hl]
  apply ne_nil_of_mem (a := i + 1)
  apply mem_map_of_mem
  simp [hi, heq]

theorem length_le_of_mem_classes (h : l ∈ classes φ n)
    : l.length ≤ n := by
  unfold classes at h
  rw [mem_map] at h
  obtain ⟨x, _, hl⟩ := h
  rw [← hl]
  rw [length_map]
  apply Nat.le_trans (length_filter_le _ _)
  rw [length_range]

def classPlist (l : List Nat) : IntPlist :=
  ⟨.cycSsort, l⟩

structure IsClassList (φ : Nat → Nat) (cap i : Nat) (s : KernelState) : Prop where
  length_ker : s.ker.length = cap
  ker : ∀ k, k < cap → s.ker[k]? = some ((classes φ i)[k]?.map classPlist)
  nr : s.nr = (values φ i).length

structure IsKernelState (φ : Nat → Nat) (cap i : Nat) (s : KernelState) : Prop
    extends IsClassList φ cap i s where
  length_pttmp : s.pttmp.length = cap
  sizes : ∀ k, k < cap → s.pttmp[k]? = some (((classes φ i)[k]?.map List.length).getD 0)

variable {i : Nat}

theorem getElem?_classes_succ (h : φ i ∉ values φ i) (k : Nat)
    : (classes φ (i + 1))[k]?
        = if (values φ i).length = k then some [i + 1] else (classes φ i)[k]? := by
  rw [classes_succ_of_notMem φ h]
  rw [← length_classes]
  rw [getElem?_append]
  split
  . next hlt => rw [if_neg (by omega)]
  . next hge =>
    split
    . next heq =>
      rw [← heq]
      rw [Nat.sub_self]
      rfl
    . next hne =>
      rw [getElem?_eq_none (by rw [length_singleton]; omega)]
      rw [getElem?_eq_none (by omega)]

theorem getElem?_classes_succ_of_mem (h : φ i ∈ values φ i)
    (hl : (classes φ i)[(values φ i).idxOf (φ i)]? = some l) (k : Nat)
    : (classes φ (i + 1))[k]?
        = if (values φ i).idxOf (φ i) = k then some (l ++ [i + 1]) else (classes φ i)[k]? := by
  have hlt := (List.getElem?_eq_some_iff.mp hl).1
  rw [classes_succ_of_mem φ h hl]
  rw [getElem?_set]
  rw [if_pos hlt]

variable {cap : Nat} {s : KernelState}

theorem IsClassList.push (hs : IsClassList φ cap i s) (h : φ i ∉ values φ i) (pttmp : List Nat)
    : IsClassList φ cap (i + 1)
        ⟨s.ker.set (values φ i).length (some (classPlist [i + 1])), pttmp, s.nr + 1⟩ where
  length_ker := by
    dsimp only
    rw [length_set]
    exact hs.length_ker
  ker := by
    intro k hk
    dsimp only
    rw [getElem?_classes_succ h]
    rw [getElem?_set]
    split
    . next heq =>
      rw [if_pos (by rw [hs.length_ker]; omega)]
      rfl
    . exact hs.ker k hk
  nr := by
    dsimp only
    rw [hs.nr]
    rw [values_succ]
    rw [if_neg h]
    rw [length_append]
    rfl

theorem IsClassList.extend (hs : IsClassList φ cap i s) (h : φ i ∈ values φ i)
    (hl : (classes φ i)[(values φ i).idxOf (φ i)]? = some l) (pttmp : List Nat)
    : IsClassList φ cap (i + 1)
        ⟨s.ker.set ((values φ i).idxOf (φ i)) (some (classPlist (l ++ [i + 1]))), pttmp, s.nr⟩ where
  length_ker := by
    dsimp only
    rw [length_set]
    exact hs.length_ker
  ker := by
    intro k hk
    dsimp only
    rw [getElem?_classes_succ_of_mem h hl]
    rw [getElem?_set]
    split
    . next heq =>
      rw [if_pos (by rw [hs.length_ker]; omega)]
      rfl
    . exact hs.ker k hk
  nr := by
    dsimp only
    rw [hs.nr]
    rw [values_succ]
    rw [if_pos h]

theorem readEntry_of_getElem? {v : Nat} (h : l[i]? = some v)
    : readEntry l i = .ok v := by
  unfold readEntry
  rw [h]
  rfl

variable {ker : List (Option IntPlist)} {k : Nat}

theorem setClass_eq {l : IntPlist} (h : k < ker.length)
    : setClass ker (k + 1) l = .ok (ker.set k (some l)) := by
  unfold setClass
  rw [setElmPlist_eq (by omega) (by omega)]
  rfl

theorem elmClass_eq {l : IntPlist} (h : ker[k]? = some (some l))
    : elmClass ker (k + 1) = .ok l := by
  unfold elmClass
  rw [elmPlist_of_getElem? h]
  rfl

theorem assPlist_append (l : List Nat) (x : Nat)
    : assPlist l (l.length + 1) x = .ok (l ++ [x]) := by
  unfold assPlist
  rw [if_neg (by omega)]
  rw [if_pos rfl]
  rfl

theorem extendClass_spec {pttmp : List Nat} (hker : ker[k]? = some (some (classPlist l)))
    (hsize : pttmp[k]? = some l.length) (hlt : l.length + 1 < 2 ^ 32) (nr : Nat)
    : (do
        let size := (← readEntry pttmp k) + 1
        let pttmp ← writeEntry .perm4 pttmp k size
        let list ← elmClass ker (k + 1)
        let entries ← assPlist list.entries (← readEntry pttmp k) (i + 1)
        let ker ← setClass ker (k + 1) { list with entries := entries }
        return (⟨ker, pttmp, nr⟩ : KernelState) : Result KernelState)
      = .ok ⟨ker.set k (some (classPlist (l ++ [i + 1]))), pttmp.set k (l.length + 1), nr⟩ := by
  have hk := (List.getElem?_eq_some_iff.mp hker).1
  have hk' := (List.getElem?_eq_some_iff.mp hsize).1
  rw [readEntry_of_getElem? hsize]
  rw [ok_bind]
  dsimp only
  rw [writeEntry_perm4 hk' hlt]
  rw [ok_bind]
  rw [elmClass_eq hker]
  rw [ok_bind]
  rw [readEntry_of_getElem? (getElem?_set_self hk')]
  rw [ok_bind]
  rw [show (classPlist l).entries = l from rfl]
  rw [assPlist_append]
  rw [ok_bind]
  rw [setClass_eq hk]
  rfl

variable {m : Nat}

theorem kernelLoop_spec (hn : n < 2 ^ 32) (hm : m ≤ n) (hcap : (values φ m).length ≤ cap)
    : ∃ s, kernelLoop (flatKernel φ n) m 0
          ⟨replicate cap none, resizeInitTmpTrans cap, 0⟩ = .ok s
        ∧ IsKernelState φ cap m s := by
  unfold kernelLoop
  apply forLoop_of_inv (fun i s => IsKernelState φ cap i s)
  . constructor
    . constructor
      . apply length_replicate
      . intro k hk
        dsimp only
        rw [getElem?_replicate]
        rw [if_pos hk]
        rfl
      . rfl
    . apply length_replicate
    . intro k hk
      dsimp only
      unfold resizeInitTmpTrans
      rw [getElem?_replicate]
      rw [if_pos hk]
      rfl
  . intro i s _ hi hs
    have hvals := values_succ φ i
    have hmem' : φ i ∈ values φ (i + 1) := by
      rw [mem_values]
      exact ⟨i, by omega, rfl⟩
    have hle : (values φ (i + 1)).length ≤ cap := by
      apply Nat.le_trans (values_mono φ (show i + 1 ≤ m by omega)).length_le hcap
    -- The class is the one at the position `k`.
    have hflat : (flatKernel φ n)[i]? = some ((values φ (i + 1)).idxOf (φ i) + 1) := by
      rw [getElem?_flatKernel φ (by omega)]
      rw [idxOf_values φ (show i + 1 ≤ n by omega) hmem']
    have hklt := idxOf_lt_length_of_mem hmem'
    rw [elmPlist_of_getElem? hflat]
    rw [ok_bind]
    rw [Nat.add_sub_cancel]
    by_cases hmem : φ i ∈ values φ i
    . rw [if_pos hmem] at hvals
      rw [hvals] at hklt hle ⊢
      have hkl : (values φ i).idxOf (φ i) < (classes φ i).length := by
        rw [length_classes]
        exact hklt
      have hget := getElem?_eq_getElem hkl
      generalize (classes φ i)[(values φ i).idxOf (φ i)] = l at hget
      have hl : l ∈ classes φ i := mem_of_getElem? hget
      have hsize := hs.sizes _ (Nat.lt_of_lt_of_le hklt hle)
      have hker := hs.ker _ (Nat.lt_of_lt_of_le hklt hle)
      rw [hget] at hsize hker
      rw [readEntry_of_getElem? hsize]
      rw [ok_bind]
      have hne : ((some l).map length).getD 0 ≠ 0 := by
        simpa using ne_nil_of_mem_classes hl
      rw [if_neg hne]
      rw [pure_bind]
      have hlen := length_le_of_mem_classes hl
      rw [extendClass_spec hker hsize (by omega)]
      refine ⟨_, rfl, ?_⟩
      constructor
      . apply hs.extend hmem hget
      . dsimp only
        rw [length_set]
        exact hs.length_pttmp
      . intro k hk
        dsimp only
        rw [getElem?_classes_succ_of_mem hmem hget]
        rw [getElem?_set]
        split
        . next heq =>
          rw [if_pos (by rw [hs.length_pttmp]; omega)]
          simp
        . exact hs.sizes k hk
    . rw [if_neg hmem] at hvals
      have hidx : (values φ (i + 1)).idxOf (φ i) = (values φ i).length := by
        rw [hvals]
        rw [idxOf_append_of_notMem hmem]
        simp
      rw [hidx] at hklt ⊢
      have hkcap : (values φ i).length < cap := Nat.lt_of_lt_of_le hklt hle
      have hnone : (classes φ i)[(values φ i).length]? = none := by
        rw [getElem?_eq_none]
        rw [length_classes]
      have hsize := hs.sizes _ hkcap
      have hker := hs.ker _ hkcap
      rw [hnone] at hsize hker
      have hzero : ((none : Option (List Nat)).map length).getD 0 = 0 := rfl
      rw [readEntry_of_getElem? hsize]
      rw [ok_bind]
      rw [if_pos hzero]
      have hlk : (values φ i).length < s.ker.length := by
        rw [hs.length_ker]
        exact hkcap
      rw [setClass_eq hlk]
      rw [ok_bind]
      rw [pure_bind]
      have hker' : (s.ker.set (values φ i).length (some (classPlist [])))[(values φ i).length]?
          = some (some (classPlist [])) := getElem?_set_self hlk
      refine ⟨_, extendClass_spec hker' hsize (by decide) (s.nr + 1), ?_⟩
      constructor
      . rw [set_set]
        apply hs.push hmem
      . dsimp only
        rw [length_set]
        exact hs.length_pttmp
      . intro k hk
        dsimp only
        rw [getElem?_classes_succ hmem]
        rw [getElem?_set]
        split
        . next heq =>
          rw [if_pos (by rw [hs.length_pttmp]; exact hkcap)]
          rfl
        . exact hs.sizes k hk
  . intro s hs
    rw [Nat.zero_add] at hs
    exact hs

theorem singletonLoop_spec (hm : deg ≤ m) (hfix : ∀ i, deg ≤ i → φ i = i)
    (hlt : ∀ i, i < deg → φ i < deg) (hcap : (values φ m).length ≤ cap)
    (hs : IsClassList φ cap deg s)
    : ∃ s', singletonLoop (m - deg) deg s = .ok s' ∧ IsClassList φ cap m s' := by
  unfold singletonLoop
  apply forLoop_of_inv (fun i s => IsClassList φ cap i s) hs
  . intro i s hle hi hs
    have hnot := notMem_values_of_fix hfix hlt hle
    have hlen : (values φ i).length < cap := by
      have h1 := length_values_of_fix hfix hlt hle
      have h2 := length_values_of_fix hfix hlt hm
      omega
    have hker : s.nr < s.ker.length := by
      rw [hs.nr]
      rw [hs.length_ker]
      exact hlen
    rw [setClass_eq hker]
    rw [hs.nr]
    refine ⟨_, rfl, ?_⟩
    rw [← hs.nr]
    have hpush := hs.push hnot s.pttmp
    rw [← hs.nr] at hpush
    exact hpush
  . intro s hs
    rw [show deg + (m - deg) = m by omega] at hs
    exact hs

theorem IsClassList.entries_eq (hs : IsClassList φ cap m s) (hcap : (values φ m).length ≤ cap)
    : (s.ker.take s.nr).mapM boundClass = .ok ((classes φ m).map classPlist) := by
  have htake : s.ker.take s.nr = ((classes φ m).map classPlist).map some := by
    apply ext_getElem?
    intro k
    rw [hs.nr]
    rw [getElem?_take]
    split
    . next hk =>
      rw [hs.ker k (by omega)]
      rw [getElem?_map]
      rw [getElem?_map]
      have hlt : k < (classes φ m).length := by
        rw [length_classes]
        exact hk
      rw [getElem?_eq_getElem hlt]
      rfl
    . next hk =>
      rw [getElem?_eq_none]
      rw [length_map]
      rw [length_map]
      rw [length_classes]
      omega
  rw [htake]
  induction (classes φ m).map classPlist with
  | nil => rfl
  | cons l ls ih =>
    rw [map_cons]
    rw [mapM_cons]
    rw [ih]
    rfl

theorem preimagesLoop_spec (hpt : IsEntries T pt φ) (p : Nat)
    : preimagesLoop pt p pt.length 0 []
        = .ok (((range pt.length).filter (fun j => φ j = p)).map (· + 1)) := by
  have hrun : ∃ out, preimagesLoop pt p pt.length 0 [] = .ok out
      ∧ out = ((range pt.length).filter (fun j => φ j = p)).map (· + 1) := by
    unfold preimagesLoop
    apply forLoop_of_inv
      (fun i out => out = ((range i).filter (fun j => φ j = p)).map (· + 1))
    . rfl
    . intro i out _ hi hout
      rw [hpt.readEntry_eq (by omega)]
      rw [ok_bind]
      rw [filter_range_succ]
      split
      . next heq =>
        refine ⟨_, assPlist_append _ _, ?_⟩
        rw [hout]
      . refine ⟨_, rfl, ?_⟩
        rw [append_nil]
        exact hout
    . intro out hout
      rw [Nat.zero_add] at hout
      exact hout
  rcases hrun with ⟨out, hout⟩
  rw [hout.1]
  rw [hout.2]
