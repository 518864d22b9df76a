import GapKernel.Partition.Impl

open List Bool

namespace PartitionRec

theorem exists_first (p : Nat → Bool) (l : List Nat)
    : (∀ x ∈ l, p x = false) ∨ ∃ w x z, l = w ++ x :: z ∧ (∀ y ∈ w, p y = false) ∧ p x = true := by
  induction l with
  | nil => simp
  | cons x l ih =>
    by_cases hx : p x = true
    . right
      exact ⟨[], x, l, rfl, by simp, hx⟩
    . rw [not_eq_true] at hx
      rcases ih with hall | ⟨w, y, z, rfl, hw, hy⟩
      . left
        simpa [hx] using hall
      . right
        refine ⟨x :: w, y, z, rfl, ?_, hy⟩
        simpa [hx] using hw

theorem exists_last (p : Nat → Bool) (l : List Nat)
    : (∀ x ∈ l, p x = false) ∨ ∃ w x z, l = w ++ x :: z ∧ (∀ y ∈ z, p y = false) ∧ p x = true := by
  rcases exists_first p l.reverse with hall | ⟨w, x, z, heq, hw, hx⟩
  . left
    simpa using hall
  . right
    refine ⟨z.reverse, x, w.reverse, ?_, by simpa using hw, hx⟩
    rw [← reverse_reverse l, heq]
    simp

variable {test : Nat → Result Bool} {B : Int}

theorem scanDown_of_moved (u v rest : List Nat) (hv : ∀ x ∈ v, test x = .ok true)
    (hB : B ≤ u.length + 1)
    : scanDown test (u ++ v ++ rest) B (u.length + v.length + 1)
        = scanDown test (u ++ v ++ rest) B (u.length + 1) := by
  induction v using reverseRecOn generalizing rest with
  | nil => simp
  | append_singleton v x ih =>
    have hpoints : u ++ (v ++ [x]) ++ rest = u ++ v ++ x :: rest := by
      simp
    have hlen : u.length + (v ++ [x]).length + 1 = (u ++ v).length + 1 + 1 := by
      simp
      omega
    simp only [forall_mem_append, forall_mem_singleton] at hv
    rw [hpoints, hlen, scanDown]
    rw [if_neg (by simp; omega)]
    rw [elmPlist_append_cons, ok_bind]
    rw [hv.2, ok_bind]
    rw [if_pos rfl]
    rw [length_append]
    apply ih _ hv.1

theorem scanDown_eq_none (u v rest : List Nat) (hv : ∀ x ∈ v, test x = .ok true)
    (hlt : u.length < B) (hle : B ≤ u.length + v.length + 1)
    : scanDown test (u ++ v ++ rest) B (u.length + v.length + 1) = .ok none := by
  induction v using reverseRecOn generalizing rest with
  | nil =>
    rw [scanDown]
    rw [if_pos (by simpa using hlt)]
    rfl
  | append_singleton v x ih =>
    have hpoints : u ++ (v ++ [x]) ++ rest = u ++ v ++ x :: rest := by
      simp
    have hlen : u.length + (v ++ [x]).length + 1 = (u ++ v).length + 1 + 1 := by
      simp
      omega
    simp only [forall_mem_append, forall_mem_singleton] at hv
    rw [hpoints, hlen, scanDown]
    split
    . rfl
    . next hge =>
      rw [elmPlist_append_cons, ok_bind]
      rw [hv.2, ok_bind]
      rw [if_pos rfl]
      rw [length_append] at hge ⊢
      apply ih _ hv.1
      omega

theorem scanDown_eq (u v rest : List Nat) {y : Nat} (hy : test y = .ok false)
    (hv : ∀ x ∈ v, test x = .ok true) (hB : B ≤ u.length + 1 + v.length + 1)
    : scanDown test (u ++ y :: v ++ rest) B (u.length + 1 + v.length + 1)
        = .ok (if B ≤ u.length + 1 then some (u.length + 1) else none) := by
  have hpoints : u ++ y :: v ++ rest = (u ++ [y]) ++ v ++ rest := by
    simp
  have hlen : u.length + 1 = (u ++ [y]).length := by
    simp
  split
  . next hle =>
    rw [hpoints, hlen, scanDown_of_moved _ _ _ hv (by simp; omega)]
    rw [← hpoints, ← hlen, scanDown]
    rw [if_neg (by simp; omega)]
    rw [append_assoc, cons_append, elmPlist_append_cons, ok_bind]
    rw [hy]
    rfl
  . next hgt =>
    rw [hpoints, hlen]
    apply scanDown_eq_none _ _ _ hv
    . simp
      omega
    . simp
      omega

theorem scanUp_of_staying (u w rest : List Nat) (lim : Nat) (hw : ∀ x ∈ w, test x = .ok false)
    (hlim : u.length + w.length < lim)
    : scanUp test (u ++ w ++ rest) lim u.length
        = scanUp test (u ++ w ++ rest) lim (u.length + w.length) := by
  induction w generalizing u with
  | nil => rfl
  | cons x w ih =>
    simp only [forall_mem_cons] at hw
    simp only [length_cons] at hlim ⊢
    have hpoints : u ++ x :: w ++ rest = (u ++ [x]) ++ w ++ rest := by
      simp
    have hrec := ih (u ++ [x]) hw.2 (by simp; omega)
    rw [scanUp]
    rw [if_neg (by omega)]
    rw [append_assoc, cons_append, elmPlist_append_cons, ok_bind]
    rw [hw.1, ok_bind]
    rw [if_neg (by simp)]
    rw [← cons_append, ← append_assoc, hpoints]
    rw [length_append, length_singleton] at hrec
    rw [hrec]
    congr 1
    omega

variable {points : List Nat} {a : Nat}

theorem scanUp_of_le {lim : Nat} (h : lim ≤ a + 1)
    : scanUp test points lim a = .ok (a + 1) := by
  rw [scanUp]
  rw [if_pos h]
  rfl

theorem scanUp_eq (u w rest : List Nat) {x : Nat} (lim : Nat) (hw : ∀ x ∈ w, test x = .ok false)
    (hx : test x = .ok true) (hlim : u.length + w.length < lim)
    : scanUp test (u ++ w ++ x :: rest) lim u.length = .ok (u.length + w.length + 1) := by
  rw [scanUp_of_staying u w _ lim hw hlim]
  rw [scanUp]
  split
  . rfl
  . rw [← length_append, elmPlist_append_cons, ok_bind]
    rw [hx]
    rfl

theorem scanUp_passed (u w rest : List Nat) {y : Nat} (hw : ∀ x ∈ w ++ [y], test x = .ok false)
    (kernel : Bool)
    : ∃ a, u.length + w.length + 1 ≤ a
        ∧ scanUp test (u ++ (w ++ y :: rest))
          (if kernel then u.length + w.length + 1 else u.length + w.length + 1 + 1) u.length = .ok a
        ∧ (kernel = false → a = u.length + w.length + 1 + 1) := by
  cases kernel with
  | true =>
    have hstaying := scanUp_of_staying u w (y :: rest) (u.length + w.length + 1)
      (fun x hx => hw x (by simp [hx])) (by omega)
    refine ⟨_, le_refl _, ?_, by simp⟩
    rw [if_pos rfl]
    rw [← append_assoc, hstaying]
    apply scanUp_of_le
    omega
  | false =>
    have hstaying := scanUp_of_staying u (w ++ [y]) rest (u.length + w.length + 1 + 1)
      hw (by simp; omega)
    have hpoints : u ++ (w ++ y :: rest) = u ++ (w ++ [y]) ++ rest := by
      simp
    refine ⟨_, by omega, ?_, fun _ => rfl⟩
    rw [if_neg (by simp)]
    rw [hpoints, hstaying]
    rw [length_append, length_singleton, ← Nat.add_assoc]
    apply scanUp_of_le
    omega

theorem swap_eq (u v w : List Nat) (x y : Nat)
    : swap (u ++ x :: v ++ y :: w) (u.length + 1) (u.length + 1 + v.length + 1)
        = .ok (u ++ y :: v ++ x :: w) := by
  have hx : u ++ x :: v ++ y :: w = u ++ x :: (v ++ y :: w) := by
    simp
  have hy : ∀ z, u ++ z :: (v ++ y :: w) = (u ++ z :: v) ++ y :: w := by
    simp
  have hlen : ∀ z, u.length + 1 + v.length + 1 = (u ++ z :: v).length + 1 := by
    intro z
    simp
    omega
  unfold swap
  rw [hx, elmPlist_append_cons, ok_bind]
  rw [hy, hlen x, elmPlist_append_cons, ok_bind]
  rw [← hy, setElmPlist_append_cons, ok_bind]
  rw [hy, ← hlen x, hlen y, setElmPlist_append_cons]

inductive LoopOutcome (f : Nat → Bool) (B : Int) (pre cell post : List Nat)
    (run : Bool → Result (List Nat × Option (Nat × Nat))) : Prop where
  | tooMany (cell' : List Nat) (perm : cell'.Perm cell)
      (count : (pre.length + cell.length - cell.countP f : Int) < B)
      (eq : ∀ kernel, run kernel = .ok (pre ++ cell' ++ post, none))
  | done (S M : List Nat) (perm : (S ++ M).Perm cell) (stay : ∀ x ∈ S, f x = false)
      (move : ∀ x ∈ M, f x = true) (ne : S ≠ []) (bound : B ≤ pre.length + S.length)
      (eq : ∀ kernel, ∃ a, run kernel
          = .ok (pre ++ (S ++ M) ++ post, some (a, pre.length + S.length))
        ∧ (kernel = false → a = pre.length + S.length + 1))

variable {f : Nat → Bool}

theorem LoopOutcome.of_step {pre cell cell1 post : List Nat}
    {run run1 : Bool → Result (List Nat × Option (Nat × Nat))}
    (h : LoopOutcome f B pre cell1 post run1) (hperm : cell1.Perm cell)
    (hrun : ∀ kernel, run kernel = run1 kernel)
    : LoopOutcome f B pre cell post run := by
  cases h with
  | tooMany cell' perm count eq =>
    rw [hperm.length_eq, hperm.countP_eq] at count
    apply LoopOutcome.tooMany cell' (perm.trans hperm) count
    intro kernel
    rw [hrun, eq]
  | done S M perm stay move ne bound eq =>
    apply LoopOutcome.done S M (perm.trans hperm) stay move ne bound
    intro kernel
    rw [hrun]
    apply eq

variable {kernel : Bool} {fuel b : Nat}

theorem splitLoop_of_le (h : b ≤ a)
    : splitLoop kernel test B fuel points a b = .ok (points, some (a, b)) := by
  unfold splitLoop
  rw [if_neg (by omega)]
  rfl

theorem splitLoop_of_passed {a' b' : Nat} (hlt : a < b)
    (hdown : scanDown test points B b = .ok (some b'))
    (hup : scanUp test points (if kernel then b' else b' + 1) a = .ok a') (hle : b' ≤ a')
    : splitLoop kernel test B (fuel + 1) points a b = .ok (points, some (a', b')) := by
  unfold splitLoop
  rw [if_pos hlt]
  dsimp only
  rw [hdown, ok_bind]
  dsimp only
  rw [hup, ok_bind]
  rw [if_neg (by omega)]
  apply splitLoop_of_le hle

theorem splitLoop_of_swap {a' b' : Nat} {points' : List Nat} (hlt : a < b)
    (hdown : scanDown test points B b = .ok (some b'))
    (hup : scanUp test points (if kernel then b' else b' + 1) a = .ok a') (hlt' : a' < b')
    (hswap : swap points a' b' = .ok points')
    : splitLoop kernel test B (fuel + 1) points a b
        = splitLoop kernel test B fuel points' a' b' := by
  rw [splitLoop]
  rw [if_pos hlt]
  rw [hdown, ok_bind]
  dsimp only
  rw [hup, ok_bind]
  rw [if_pos hlt']
  rw [hswap, ok_bind]

theorem splitLoop_of_tooMany (hlt : a < b) (hdown : scanDown test points B b = .ok none)
    : splitLoop kernel test B (fuel + 1) points a b = .ok (points, none) := by
  rw [splitLoop]
  rw [if_pos hlt]
  rw [hdown, ok_bind]
  rfl

theorem LoopOutcome.of_passed {pre cell post : List Nat} (S' M' : List Nat)
    (hcell : cell = S' ++ M') (hS' : ∀ x ∈ S', f x = false) (hM' : ∀ x ∈ M', f x = true)
    (hne : S' ≠ []) (hbound : B ≤ pre.length + S'.length) (hlt : a < b)
    (hdown : scanDown test (pre ++ cell ++ post) B b = .ok (some (pre.length + S'.length)))
    (hup : ∀ kernel : Bool, ∃ a', pre.length + S'.length ≤ a'
      ∧ scanUp test (pre ++ cell ++ post)
        (if kernel then pre.length + S'.length else pre.length + S'.length + 1) a = .ok a'
      ∧ (kernel = false → a' = pre.length + S'.length + 1))
    : LoopOutcome f B pre cell post fun kernel =>
        splitLoop kernel test B (fuel + 1) (pre ++ cell ++ post) a b := by
  apply LoopOutcome.done S' M' (by rw [hcell]) hS' hM' hne hbound
  intro kernel
  obtain ⟨a', hle, hup, ha'⟩ := hup kernel
  refine ⟨a', ?_, ha'⟩
  rw [splitLoop_of_passed hlt hdown hup hle]
  rw [hcell]

theorem splitLoop_spec (fuel : Nat) (pre S mid M post : List Nat)
    (htest : ∀ x ∈ S ++ mid ++ M, test x = .ok (f x)) (hS : ∀ x ∈ S, f x = false)
    (hM : ∀ x ∈ M, f x = true) (hB : B ≤ pre.length + S.length + mid.length + 1)
    (hstay : S ≠ [] ∨ (∃ x ∈ mid, f x = false) ∨ pre.length < B)
    (hfuel : pre.length + S.length + mid.length + 1 ≤ fuel)
    : LoopOutcome f B pre (S ++ mid ++ M) post fun kernel =>
        splitLoop kernel test B fuel (pre ++ (S ++ mid ++ M) ++ post) (pre.length + S.length)
          (pre.length + S.length + mid.length + 1) := by
  induction fuel generalizing S mid M with
  | zero => omega
  | succ fuel ih =>
    have hlt : pre.length + S.length < pre.length + S.length + mid.length + 1 := by omega
    have htrue : ∀ x ∈ S ++ mid ++ M, f x = true → test x = .ok true := by
      intro x hx hfx
      rw [htest x hx, hfx]
    have hfalse : ∀ x ∈ S ++ mid ++ M, f x = false → test x = .ok false := by
      intro x hx hfx
      rw [htest x hx, hfx]
    rcases exists_last (fun x => !f x) (S ++ mid) with hall | ⟨w, y, v, heq, hv, hy⟩
    . -- All points of the cell move out, the bound stops the scan in the cell.
      simp only [not_eq_false'] at hall
      have hnil : S = [] := by
        cases S with
        | nil => rfl
        | cons x S =>
          have := hS x (by simp)
          rw [hall x (by simp)] at this
          contradiction
      subst hnil
      have hpre : pre.length < B := by
        rcases hstay with h | ⟨x, hx, hfx⟩ | h
        . contradiction
        . rw [hall x (by simpa using hx)] at hfx
          contradiction
        . apply h
      simp only [nil_append, length_nil, Nat.add_zero] at *
      have hdown := scanDown_eq_none pre mid (M ++ post)
        (fun x hx => htrue x (by simp [hx]) (hall x hx)) hpre (by omega)
      apply LoopOutcome.tooMany _ (List.Perm.refl _)
      . have hcount : (mid ++ M).countP f = (mid ++ M).length := by
          rw [countP_eq_length]
          intro x hx
          rw [mem_append] at hx
          cases hx with
          | inl hx => apply hall x hx
          | inr hx => apply hM x hx
        rw [hcount]
        omega
      . intro kernel
        apply splitLoop_of_tooMany hlt
        rw [← hdown]
        simp
    . simp only [not_eq_false', not_eq_true'] at hv hy
      have hlen := congrArg length heq
      simp only [length_append, length_cons] at hlen
      have hpoints : pre ++ (S ++ mid ++ M) ++ post = (pre ++ w) ++ y :: v ++ (M ++ post) := by
        rw [heq]
        simp
      have hmem : ∀ x ∈ w ++ y :: v, x ∈ S ++ mid ++ M := by
        rw [← heq]
        intro x hx
        exact mem_append_left _ hx
      have hdown := scanDown_eq (B := B) (pre ++ w) v (M ++ post)
        (hfalse y (hmem y (by simp)) hy) (fun x hx => htrue x (hmem x (by simp [hx])) (hv x hx))
        (by simp; omega)
      rw [← hpoints] at hdown
      rw [show (pre ++ w).length + 1 + v.length + 1 = pre.length + S.length + mid.length + 1 by
        simp; omega] at hdown
      rw [length_append] at hdown
      by_cases hbound : B ≤ pre.length + w.length + 1
      . rw [if_pos (by exact_mod_cast hbound)] at hdown
        by_cases hle : S.length ≤ w.length
        . obtain ⟨w', rfl⟩ := prefix_of_prefix_length_le (prefix_append S mid)
            (heq ▸ prefix_append w (y :: v)) hle
          rw [append_assoc, append_cancel_left_eq] at heq
          subst heq
          -- The scan down has stopped behind `S`.
          rcases exists_first f w' with hw' | ⟨s, x, z, rfl, hs, hx⟩
          . have hstaying : ∀ x ∈ w' ++ [y], test x = .ok false := by
              intro x hx
              rw [mem_append, mem_singleton] at hx
              rcases hx with hx | rfl
              . exact hfalse x (by simp [hx]) (hw' x hx)
              . exact hfalse x (by simp) hy
            have hlenS : pre.length + (S ++ w' ++ [y]).length
                = pre.length + (S.length + w'.length) + 1 := by
              simp
              omega
            apply LoopOutcome.of_passed (S ++ w' ++ [y]) (v ++ M)
            . simp
            . simp only [forall_mem_append, forall_mem_singleton]
              exact ⟨⟨hS, hw'⟩, hy⟩
            . simp only [forall_mem_append]
              exact ⟨hv, hM⟩
            . simp
            . simp at hbound ⊢
              omega
            . exact hlt
            . rw [hlenS]
              simpa only [length_append] using hdown
            . intro kernel
              have hup := scanUp_passed (pre ++ S) w' (v ++ M ++ post) hstaying kernel
              have hpoints' : pre ++ S ++ (w' ++ y :: (v ++ M ++ post))
                  = pre ++ (S ++ (w' ++ y :: v) ++ M) ++ post := by
                simp
              rw [hpoints', length_append, Nat.add_assoc pre.length] at hup
              rw [hlenS]
              exact hup
          . -- `x` and `y` are swapped.
            simp only [forall_mem_append, forall_mem_cons] at htest
            obtain ⟨⟨htestS, ⟨htests, htestx, htestz⟩, htesty, htestv⟩, htestM⟩ := htest
            have hlenS : pre.length + (S ++ s ++ [y]).length
                = pre.length + S.length + s.length + 1 := by
              simp
              omega
            have hlenz : pre.length + (S ++ (s ++ x :: z)).length + 1
                = pre.length + S.length + s.length + 1 + z.length + 1 := by
              simp
              omega
            have hrec := ih (S ++ s ++ [y]) z (x :: v ++ M)
              (by
                simp only [forall_mem_append, forall_mem_cons]
                tauto)
              (by
                simp only [forall_mem_append, forall_mem_singleton]
                exact ⟨⟨hS, hs⟩, hy⟩)
              (by
                simp only [forall_mem_append, forall_mem_cons]
                exact ⟨⟨hx, hv⟩, hM⟩)
              (by simp at hbound ⊢; omega)
              (by simp)
              (by simp at hfuel ⊢; omega)
            apply hrec.of_step
            . simp only [perm_iff_count, count_append, count_cons, count_nil]
              intro t
              omega
            . intro kernel
              have hup := scanUp_eq (pre ++ S) s (z ++ y :: v ++ M ++ post)
                (if kernel then pre.length + (S ++ (s ++ x :: z)).length + 1
                  else pre.length + (S ++ (s ++ x :: z)).length + 1 + 1)
                (fun t ht => (htests t ht).trans (congrArg _ (hs t ht)))
                (htestx.trans (congrArg _ hx))
                (by simp; split <;> omega)
              have hswap := swap_eq (pre ++ S ++ s) z (v ++ M ++ post) x y
              have hbefore : pre ++ S ++ s ++ x :: (z ++ y :: v ++ M ++ post)
                  = pre ++ (S ++ (s ++ x :: z ++ y :: v) ++ M) ++ post := by
                simp
              have hbefore' : pre ++ S ++ s ++ x :: z ++ y :: (v ++ M ++ post)
                  = pre ++ (S ++ (s ++ x :: z ++ y :: v) ++ M) ++ post := by
                simp
              have hafter : pre ++ S ++ s ++ y :: z ++ x :: (v ++ M ++ post)
                  = pre ++ (S ++ s ++ [y] ++ z ++ (x :: v ++ M)) ++ post := by
                simp
              have hlenu : (pre ++ S).length = pre.length + S.length := length_append
              rw [hbefore, hlenu] at hup
              rw [hbefore', hafter, length_append, length_append, ← hlenz] at hswap
              rw [splitLoop_of_swap hlt hdown hup (by omega) hswap]
              rw [hlenS, hlenz]
        . -- The scan down has stopped at the last point of `S`.
          obtain ⟨t, rfl⟩ := prefix_of_prefix_length_le
            (heq ▸ prefix_append w (y :: v)) (prefix_append S mid) (by omega)
          rw [append_assoc, append_cancel_left_eq] at heq
          cases t with
          | nil => simp at hle
          | cons y' t =>
            rw [cons_append, cons_eq_cons] at heq
            obtain ⟨rfl, rfl⟩ := heq
            have hnil : t = [] := by
              cases t with
              | nil => rfl
              | cons x t =>
                have := hv x (by simp)
                rw [hS x (by simp)] at this
                contradiction
            subst hnil
            have hlenw : pre.length + (w ++ [y']).length = pre.length + w.length + 1 := by
              simp
              omega
            apply LoopOutcome.of_passed (w ++ [y']) (mid ++ M)
            . simp
            . exact hS
            . simp only [forall_mem_append]
              exact ⟨hv, hM⟩
            . simp
            . simp at hbound ⊢
              omega
            . exact hlt
            . rw [hlenw] at hdown ⊢
              exact hdown
            . intro kernel
              refine ⟨_, by omega, scanUp_of_le ?_, fun _ => rfl⟩
              split <;> omega
      . rw [if_neg (by exact_mod_cast hbound)] at hdown
        apply LoopOutcome.tooMany _ (List.Perm.refl _)
        . have hcount : v.length + M.length ≤ (S ++ mid ++ M).countP f := by
            have hcountv := countP_eq_length.mpr hv
            have hcountM := countP_eq_length.mpr hM
            rw [heq]
            simp only [countP_append, countP_cons]
            omega
          simp only [length_append] at hcount ⊢
          omega
        . intro kernel
          apply splitLoop_of_tooMany hlt hdown

theorem split_spec (pre cell post : List Nat) {max : Int} (htest : ∀ x ∈ cell, test x = .ok (f x))
    (hmax : 0 ≤ max) (hstay : (∃ x ∈ cell, f x = false) ∨ max < cell.length)
    : ∃ points res,
        splitPartition test (pre ++ cell ++ post) (pre.length + 1) (pre.length + cell.length) max
          = .ok (points, res)
        ∧ splitLibrary test (pre ++ cell ++ post) (pre.length + 1) (pre.length + cell.length) max
          = .ok (points, res)
        ∧ ((∃ cell', cell'.Perm cell ∧ points = pre ++ cell' ++ post ∧ res = none
            ∧ max < cell.countP f)
          ∨ ∃ S M, (S ++ M).Perm cell ∧ points = pre ++ (S ++ M) ++ post
            ∧ res = some (pre.length + S.length + 1) ∧ (∀ x ∈ S, f x = false)
            ∧ (∀ x ∈ M, f x = true) ∧ S ≠ [] ∧ M.length ≤ max) := by
  have hloop := splitLoop_spec (B := (pre.length + cell.length : Nat) - max)
    (pre.length + cell.length + 1) pre [] cell [] post (by simpa using htest) (by simp)
    (by simp) (by simp; omega)
    (by
      right
      rcases hstay with hstay | hlt
      . left
        exact hstay
      . right
        omega)
    (by simp)
  simp only [nil_append, append_nil, length_nil, Nat.add_zero] at hloop
  have hblim : ((pre.length + cell.length : Nat) : Int) + 1 - max - 1
      = (pre.length + cell.length : Nat) - max := by
    omega
  unfold splitPartition splitLibrary
  dsimp only
  rw [hblim, Nat.add_sub_cancel]
  cases hloop with
  | tooMany cell' perm count eq =>
    rw [eq, eq]
    refine ⟨_, _, rfl, rfl, .inl ⟨cell', perm, rfl, rfl, ?_⟩⟩
    omega
  | done S M perm stay move ne bound eq =>
    have hlen := perm.length_eq
    rw [length_append] at hlen
    obtain ⟨a, hkernel, _⟩ := eq true
    obtain ⟨a', hlibrary, ha'⟩ := eq false
    rw [hkernel, hlibrary, ha' rfl]
    refine ⟨_, _, rfl, rfl, .inr ⟨S, M, perm, rfl, rfl, stay, move, ne, ?_⟩⟩
    omega

end PartitionRec
