import GapKernel.VecGF2.Impl.Matrix

open List

namespace MatObj

variable {E : Type}

def toList (mat : MatObj E) : List (Option E) :=
  match mat with
  | .gf2mat len bag => bag.take len
  | .plist entries => entries

@[simp]
theorem toList_gf2mat (len : Nat) (bag : List (Option E))
    : (gf2mat len bag).toList = bag.take len :=
  rfl

def HasRows (vecLen : E → Option Nat) (n : Nat) (l : List (Option E)) : Prop :=
  ∀ elm ∈ l, ∃ row, elm = some row ∧ vecLen row = some n

def Wf (vecLen : E → Option Nat) (mat : MatObj E) : Prop :=
  match mat with
  | .gf2mat len bag => len ≤ bag.length ∧ ∃ n, HasRows vecLen n (bag.take len)
  | .plist _ => True

end MatObj

namespace GF2MatImpl

open MatObj

inductive MatOp (E : Type) where
  | ass (pos : Nat) (elm : E)
  | unb (pos : Nat)
  | swapRows (row1 row2 : Nat)

variable {E : Type}

def MatOp.Positive (op : MatOp E) : Prop :=
  match op with
  | .ass pos _ => 0 < pos
  | .unb pos => 0 < pos
  | .swapRows row1 row2 => 0 < row1 ∧ 0 < row2

def rowAt (l : List (Option E)) (pos : Nat) : Option E :=
  l.getD (pos - 1) none

def IsListStep (l : List (Option E)) (op : MatOp E) (l' : List (Option E)) : Prop :=
  match op with
  | .ass pos elm => l'.length = max l.length pos ∧ rowAt l' pos = some elm
    ∧ ∀ i, 0 < i → i ≠ pos → rowAt l' i = rowAt l i
  | .unb pos => (pos = l.length → l'.length < l.length ∧ (l' ≠ [] → rowAt l' l'.length ≠ none))
    ∧ (pos ≠ l.length → l'.length = l.length) ∧ rowAt l' pos = none
    ∧ ∀ i, 0 < i → i ≠ pos → rowAt l' i = rowAt l i
  | .swapRows row1 row2 => l'.length = l.length ∧ rowAt l' row1 = rowAt l row2
    ∧ rowAt l' row2 = rowAt l row1
    ∧ ∀ i, 0 < i → i ≠ row1 → i ≠ row2 → rowAt l' i = rowAt l i

section

variable (vecLen : E → Option Nat)

def step (mat : MatObj E) (op : MatOp E) : Result (MatObj E) :=
  match mat, op with
  | .gf2mat len bag, .ass pos elm => funcAssGF2Mat vecLen len bag pos elm
  | .gf2mat len bag, .unb pos => .ok (funcUnbGF2Mat len bag pos)
  | .gf2mat len bag, .swapRows row1 row2 => funcSwapRowsGF2Mat len bag row1 row2
  | .plist entries, .ass pos elm => .ok (.plist (assPlist entries pos elm))
  | .plist entries, .unb pos => .ok (.plist (unbPlist entries pos))
  | .plist _, .swapRows _ _ => .error .access

def next (mat : MatObj E) (op : MatOp E) : MatObj E :=
  match step vecLen mat op with
  | .ok mat => mat
  | .error _ => mat

def Rejected (mat : MatObj E) (op : MatOp E) (e : Fault) : Prop :=
  match mat, op with
  | .gf2mat len _, .swapRows row1 row2 => (len < row1 ∨ len < row2)
    ∧ e = .quit "row index %d exceeds %d, the number of rows" (if len < row1 then row1 else row2)
      len
  | .plist _, .swapRows _ _ => e = .access
  | _, _ => False

def StepHolds (mat : MatObj E) (op : MatOp E) : Prop :=
  match step vecLen mat op with
  | .ok mat' => IsListStep mat.toList op mat'.toList
  | .error e => Rejected mat op e

def HoldsAlong : MatObj E → List (MatOp E) → Prop
  | mat, [] => mat.Wf vecLen
  | mat, op :: ops => mat.Wf vecLen ∧ StepHolds vecLen mat op ∧ HoldsAlong (next vecLen mat op) ops

def FillsEmpty (mat : MatObj E) (op : MatOp E) : Prop :=
  match mat, op with
  | .gf2mat len _, .ass pos elm => len = 0 ∧ pos = 1 ∧ vecLen elm ≠ none
  | _, _ => False

def AvoidsAlong : MatObj E → List (MatOp E) → Prop
  | _, [] => True
  | mat, op :: ops => ¬FillsEmpty vecLen mat op ∧ AvoidsAlong (next vecLen mat op) ops

end

section

variable {l : List (Option E)} {pos i : Nat}

theorem rowAt_of_lt (h : l.length < pos) : rowAt l pos = none := by
  unfold rowAt
  rw [getD_eq_getElem?_getD, getElem?_eq_none (by omega)]
  rfl

theorem rowAt_set {x : Option E} (hpos : 0 < pos) (hle : pos ≤ l.length) (hi : 0 < i)
    : rowAt (l.set (pos - 1) x) i = if i = pos then x else rowAt l i := by
  unfold rowAt
  rw [getD_eq_getElem?_getD, getElem?_set, getD_eq_getElem?_getD]
  by_cases h : i = pos
  . rw [if_pos h, if_pos (by omega), if_pos (by omega)]
    rfl
  . rw [if_neg h, if_neg (by omega)]

theorem rowAt_append_replicate {n : Nat} : rowAt (l ++ replicate n none) i = rowAt l i := by
  unfold rowAt
  simp only [getD_eq_getElem?_getD, getElem?_append, getElem?_replicate]
  split
  . rfl
  . next h =>
    rw [getElem?_eq_none (by omega)]
    split
    . rfl
    . rfl

theorem rowAt_take {n : Nat} (hpos : 0 < pos) (hle : pos ≤ n)
    : rowAt (l.take n) pos = rowAt l pos := by
  unfold rowAt
  rw [getD_eq_getElem?_getD, getElem?_take, if_pos (by omega),
    getD_eq_getElem?_getD]

theorem rowAt_mem (hpos : 0 < pos) (hle : pos ≤ l.length) : rowAt l pos ∈ l := by
  unfold rowAt
  rw [getD_eq_getElem?_getD, getElem?_eq_getElem (by omega)]
  exact getElem_mem _

theorem rowAt_dropHoles : rowAt (dropHoles l) i = rowAt l i := by
  unfold dropHoles
  induction l using reverseRecOn with
  | nil => rfl
  | append_singleton l x ih =>
    rw [rdropWhile_concat]
    split
    . next hx =>
      rw [Option.isNone_iff_eq_none] at hx
      rw [ih, hx]
      exact (rowAt_append_replicate (n := 1)).symm
    . rfl

theorem rowAt_length_dropHoles (h : dropHoles l ≠ [])
    : rowAt (dropHoles l) (dropHoles l).length ≠ none := by
  unfold dropHoles at h ⊢
  have hlast := rdropWhile_last_not Option.isNone l h
  rw [Option.isNone_iff_eq_none, getLast_eq_getElem] at hlast
  unfold rowAt
  rw [getD_eq_getElem?_getD, getElem?_eq_getElem (by
    have := length_pos_iff.mpr h
    omega)]
  exact hlast

theorem assPlist_spec {elm : E} (hpos : 0 < pos)
    : IsListStep l (.ass pos elm) (assPlist l pos elm) := by
  have hlen : (l ++ replicate (pos - l.length) none).length = max l.length pos := by
    rw [length_append, length_replicate]
    omega
  unfold assPlist
  refine ⟨by rw [length_set, hlen], ?_, ?_⟩
  . rw [rowAt_set hpos (by omega) hpos, if_pos rfl]
  . intro i hi hne
    rw [rowAt_set hpos (by omega) hi, if_neg hne, rowAt_append_replicate]

theorem length_dropHoles_lt {pos : Nat} (hpos : 0 < pos) (hlen : pos = l.length)
    : (dropHoles (l.set (pos - 1) none)).length < l.length := by
  by_contra hle
  have hpre := rdropWhile_prefix Option.isNone (l := l.set (pos - 1) none)
  have hne : dropHoles (l.set (pos - 1) none) ≠ [] := by
    apply ne_nil_of_length_pos
    omega
  have hlast := rowAt_length_dropHoles hne
  have hlen' : (dropHoles (l.set (pos - 1) none)).length = pos := by
    have := hpre.length_le
    rw [length_set] at this
    unfold dropHoles at hle ⊢
    omega
  rw [hlen', rowAt_dropHoles, rowAt_set hpos (by omega) hpos, if_pos rfl] at hlast
  exact hlast rfl

theorem unb_past (h : l.length < pos) : IsListStep l (.unb pos) l :=
  ⟨fun heq => absurd heq (by omega), fun _ => rfl, rowAt_of_lt h, fun _ _ _ => rfl⟩

theorem unbPlist_spec (hpos : 0 < pos) : IsListStep l (.unb pos) (unbPlist l pos) := by
  unfold unbPlist
  split
  . next hlt =>
    refine ⟨fun heq => absurd heq (by omega), fun _ => length_set, ?_, ?_⟩
    . rw [rowAt_set hpos (by omega) hpos, if_pos rfl]
    . intro i hi hne
      rw [rowAt_set hpos (by omega) hi, if_neg hne]
  . split
    . next hlen =>
      refine ⟨fun _ => ⟨length_dropHoles_lt hpos hlen, rowAt_length_dropHoles⟩,
        fun hne => absurd hlen hne, ?_, ?_⟩
      . rw [rowAt_dropHoles, rowAt_set hpos (by omega) hpos, if_pos rfl]
      . intro i hi hne
        rw [rowAt_dropHoles, rowAt_set hpos (by omega) hi, if_neg hne]
    . exact unb_past (by omega)

theorem swap_spec {row1 row2 : Nat} (h1 : 0 < row1) (h2 : 0 < row2) (hle1 : row1 ≤ l.length)
    (hle2 : row2 ≤ l.length)
    : IsListStep l (.swapRows row1 row2)
        ((l.set (row1 - 1) (rowAt l row2)).set (row2 - 1) (rowAt l row1)) := by
  have hle2' : row2 ≤ (l.set (row1 - 1) (rowAt l row2)).length := by
    rw [length_set]
    exact hle2
  refine ⟨by rw [length_set, length_set], ?_, ?_, ?_⟩
  . rw [rowAt_set h2 hle2' h1, rowAt_set h1 hle1 h1, if_pos rfl]
    split
    . next heq => rw [heq]
    . rfl
  . rw [rowAt_set h2 hle2' h2, if_pos rfl]
  . intro i hi hne1 hne2
    rw [rowAt_set h2 hle2' hi, if_neg hne2, rowAt_set h1 hle1 hi, if_neg hne1]

end

section

variable {vecLen : E → Option Nat} {n : Nat} {l : List (Option E)}

section

variable {elm : E} (h : HasRows vecLen n l) (helm : vecLen elm = some n)

include h helm

theorem hasRows_set (i : Nat)
    : HasRows vecLen n (l.set i (some elm)) := by
  intro x hx
  cases mem_or_eq_of_mem_set hx with
  | inl hmem => exact h x hmem
  | inr heq => exact ⟨elm, heq, helm⟩

theorem hasRows_concat
    : HasRows vecLen n (l ++ [some elm]) := by
  intro x hx
  rw [mem_append, mem_singleton] at hx
  cases hx with
  | inl hmem => exact h x hmem
  | inr heq => exact ⟨elm, heq, helm⟩

end

theorem exists_row {pos : Nat} (h : HasRows vecLen n l) (hpos : 0 < pos) (hle : pos ≤ l.length)
    : ∃ row, rowAt l pos = some row ∧ vecLen row = some n :=
  h _ (rowAt_mem hpos hle)

end

section

variable {vecLen : E → Option Nat} {len n : Nat} {bag : List (Option E)}

theorem elmGF2Mat_eq {pos : Nat} {row : E} (h : rowAt bag pos = some row)
    : elmGF2Mat bag pos = .ok row := by
  unfold rowAt at h
  unfold elmGF2Mat
  rw [h]
  rfl

variable {elm : E}

theorem setElmGF2Mat_eq {pos : Nat} (hpos : 0 < pos) (hle : pos ≤ bag.length)
    : setElmGF2Mat bag pos elm = .ok (bag.set (pos - 1) (some elm)) := by
  unfold setElmGF2Mat
  rw [if_pos (by omega)]
  rfl

theorem length_resizeBag {size : Nat} : (resizeBag bag size).length = size := by
  unfold resizeBag
  rw [length_append, length_take, length_replicate]
  omega

theorem take_resizeBag {size k : Nat} (hk : k ≤ size) (hle : k ≤ bag.length)
    : (resizeBag bag size).take k = bag.take k := by
  unfold resizeBag
  rw [take_append_of_le_length (by rw [length_take]; omega), take_take,
    Nat.min_eq_left hk]

section

variable (hle : len ≤ bag.length)

include hle

theorem length_take_bag : (bag.take len).length = len := by
  rw [length_take]
  omega

variable {elm : E}

theorem assPlist_take {p : Nat} (hp : p ≤ len)
    : assPlist (bag.take len) p elm = (bag.take len).set (p - 1) (some elm) := by
  unfold assPlist
  rw [length_take_bag hle, Nat.sub_eq_zero_of_le hp, replicate_zero, append_nil]

theorem assPlist_take_succ
    : assPlist (bag.take len) (len + 1) elm = bag.take len ++ [some elm] := by
  unfold assPlist
  rw [length_take_bag hle, Nat.add_sub_cancel_left, Nat.add_sub_cancel,
    set_append_right _ _ (by rw [length_take_bag hle]), length_take_bag hle, Nat.sub_self]
  rfl

theorem take_resizeBag_set
    : ((resizeBag bag (len + 1)).set len (some elm)).take (len + 1)
        = assPlist (bag.take len) (len + 1) elm := by
  rw [assPlist_take_succ hle, take_of_length_le (by rw [length_set, length_resizeBag]),
    set_eq_take_append_cons_drop, if_pos (by rw [length_resizeBag]; omega),
    take_resizeBag (by omega) hle, drop_of_length_le (by rw [length_resizeBag])]

end

theorem funcAssGF2Mat_first {lenElm : Nat} (helm : vecLen elm = some lenElm) (hlen : len ≤ 1)
    : funcAssGF2Mat vecLen len bag 1 elm
        = .ok (.gf2mat len ((resizeBag bag 1).set 0 (some elm))) := by
  unfold funcAssGF2Mat
  rw [helm]
  dsimp only
  rw [if_pos ⟨rfl, hlen⟩, setElmGF2Mat_eq (by omega) (by rw [length_resizeBag])]
  rfl

theorem funcAssGF2Mat_row {lenElm p : Nat} (hle : len ≤ bag.length)
    (hrows : HasRows vecLen n (bag.take len)) (helm : vecLen elm = some lenElm) (hpos : 0 < p)
    (hp : p ≤ len + 1) (hfirst : ¬(p = 1 ∧ 1 ≥ len))
    : ∃ mat', funcAssGF2Mat vecLen len bag p elm = .ok mat' ∧ mat'.Wf vecLen
        ∧ mat'.toList = assPlist (bag.take len) p elm := by
  have hlen := length_take_bag hle
  obtain ⟨row, hrow, hvec⟩ := exists_row hrows (show 0 < 1 by omega) (by omega)
  rw [rowAt_take (by omega) (by omega)] at hrow
  unfold funcAssGF2Mat
  rw [helm]
  dsimp only
  rw [if_neg hfirst, if_neg (by omega), elmGF2Mat_eq hrow, ok_bind, hvec]
  dsimp only
  by_cases heq : lenElm = n
  . rw [heq] at helm
    rw [if_pos heq]
    by_cases hlast : len + 1 = p
    . rw [if_pos hlast, setElmGF2Mat_eq hpos (by rw [length_resizeBag])]
      subst hlast
      refine ⟨_, rfl, ⟨by rw [length_set, length_resizeBag], n, ?_⟩, take_resizeBag_set hle⟩
      rw [Nat.add_sub_cancel, take_resizeBag_set hle, assPlist_take_succ hle]
      exact hasRows_concat hrows helm
    . rw [if_neg hlast, setElmGF2Mat_eq hpos (by omega)]
      have htake : (bag.set (p - 1) (some elm)).take len = assPlist (bag.take len) p elm := by
        rw [assPlist_take hle (by omega), take_set]
      refine ⟨_, rfl, ⟨by rw [length_set]; exact hle, n, ?_⟩, htake⟩
      rw [take_set]
      exact hasRows_set hrows helm _
  . rw [if_neg heq]
    exact ⟨_, rfl, trivial, rfl⟩

theorem funcAssGF2Mat_spec {p : Nat} (h : Wf vecLen (.gf2mat len bag)) (hpos : 0 < p)
    : ∃ mat', funcAssGF2Mat vecLen len bag p elm = .ok mat' ∧ mat'.Wf vecLen
        ∧ (IsListStep (bag.take len) (.ass p elm) mat'.toList
          ↔ ¬(len = 0 ∧ p = 1 ∧ vecLen elm ≠ none)) := by
  obtain ⟨hle, n, hrows⟩ := h
  have hspec : IsListStep _ (.ass p elm) (assPlist (bag.take len) p elm) := assPlist_spec hpos
  cases helm : vecLen elm with
  | none =>
    refine ⟨.plist (assPlist (bag.take len) p elm), ?_, trivial, iff_of_true hspec ?_⟩
    . unfold funcAssGF2Mat plainGF2Mat
      rw [helm]
      rfl
    . rintro ⟨-, -, hne⟩
      exact hne rfl
  | some lenElm =>
    by_cases hfirst : p = 1 ∧ 1 ≥ len
    . obtain ⟨rfl, hlen⟩ := hfirst
      refine ⟨_, funcAssGF2Mat_first helm hlen, ?_⟩
      by_cases hzero : len = 0
      . subst hzero
        refine ⟨⟨Nat.zero_le _, n, ?_⟩, iff_of_false ?_ ?_⟩
        . intro elm hmem
          cases hmem
        . rintro ⟨hmax, -⟩
          exact absurd hmax (by simp [toList])
        . exact fun hnot => hnot ⟨rfl, rfl, Option.some_ne_none _⟩
      . have hone : len = 1 := by omega
        subst hone
        have htake : ((resizeBag bag 1).set 0 (some elm)).take 1 = [some elm] := by
          obtain ⟨x, hx⟩ := length_eq_one_iff.mp (@length_resizeBag E bag 1)
          rw [hx]
          rfl
        have hset : [some elm] = assPlist (bag.take 1) 1 elm := by
          obtain ⟨x, hx⟩ := length_eq_one_iff.mp (length_take_bag hle)
          rw [assPlist_take hle (by omega), hx]
          rfl
        refine ⟨⟨by rw [length_set, length_resizeBag], lenElm, ?_⟩, iff_of_true ?_ (by omega)⟩
        . intro x hmem
          rw [htake, mem_singleton] at hmem
          exact ⟨elm, hmem, helm⟩
        . rw [toList_gf2mat, htake, hset]
          exact hspec
    . by_cases hgap : p > len + 1
      . refine ⟨.plist (assPlist (bag.take len) p elm), ?_, trivial, iff_of_true hspec (by omega)⟩
        unfold funcAssGF2Mat plainGF2Mat
        rw [helm]
        dsimp only
        rw [if_neg hfirst, if_pos hgap]
        rfl
      . obtain ⟨mat', hrun, hwf, hlist⟩ :=
          funcAssGF2Mat_row hle hrows helm hpos (by omega) hfirst
        refine ⟨mat', hrun, hwf, iff_of_true ?_ (by omega)⟩
        rw [hlist]
        exact hspec

end

section

variable {vecLen : E → Option Nat} {len : Nat} {bag : List (Option E)}

theorem funcUnbGF2Mat_spec {p : Nat} (h : Wf vecLen (.gf2mat len bag)) (hpos : 0 < p)
    : (funcUnbGF2Mat len bag p).Wf vecLen
        ∧ IsListStep (bag.take len) (.unb p) (funcUnbGF2Mat len bag p).toList := by
  obtain ⟨hle, n, hrows⟩ := h
  have hlen := length_take_bag hle
  unfold funcUnbGF2Mat
  by_cases hpast : p > 1 ∧ len < p
  . rw [if_pos hpast]
    exact ⟨⟨hle, n, hrows⟩, unb_past (by omega)⟩
  . rw [if_neg hpast]
    by_cases hlast : len = p
    . rw [if_pos hlast]
      subst hlast
      have htake : (resizeBag bag (len - 1)).take (len - 1) = bag.take (len - 1) :=
        take_resizeBag (Nat.le_refl _) (by omega)
      have hlen' : (bag.take (len - 1)).length = len - 1 := length_take_bag (by omega)
      refine ⟨⟨by rw [length_resizeBag], n, ?_⟩, ?_⟩
      . rw [htake]
        intro elm hmem
        exact hrows elm (take_subset_take_left bag (by omega) hmem)
      . rw [toList_gf2mat, htake]
        refine ⟨fun _ => ⟨by omega, ?_⟩, fun hne => absurd hlen.symm hne, rowAt_of_lt (by omega),
          ?_⟩
        . intro hne
          have hpos' := length_pos_iff.mpr hne
          obtain ⟨row, hrow, -⟩ := exists_row hrows (show 0 < len - 1 by omega) (by omega)
          rw [rowAt_take (by omega) (by omega)] at hrow
          rw [hlen', rowAt_take (by omega) (by omega), hrow]
          exact Option.some_ne_none _
        . intro i hi hne
          by_cases hlt : i < len
          . rw [rowAt_take hi (by omega), rowAt_take hi (by omega)]
          . rw [rowAt_of_lt (by omega), rowAt_of_lt (by omega)]
    . rw [if_neg hlast]
      exact ⟨trivial, unbPlist_spec hpos⟩

theorem funcSwapRowsGF2Mat_error {row1 row2 : Nat} (h : len < row1 ∨ len < row2)
    : ∃ e, funcSwapRowsGF2Mat len bag row1 row2 = .error e
        ∧ Rejected (.gf2mat len bag) (.swapRows row1 row2) e := by
  unfold funcSwapRowsGF2Mat
  by_cases h1 : len < row1
  . rw [if_pos h1]
    exact ⟨_, rfl, h, by rw [if_pos h1]⟩
  . rw [if_neg h1, if_pos (h.resolve_left h1)]
    exact ⟨_, rfl, h, by rw [if_neg h1]⟩

theorem funcSwapRowsGF2Mat_spec {row1 row2 : Nat} (h : Wf vecLen (.gf2mat len bag))
    (h1 : 0 < row1) (h2 : 0 < row2) (hle1 : row1 ≤ len) (hle2 : row2 ≤ len)
    : ∃ mat', funcSwapRowsGF2Mat len bag row1 row2 = .ok mat' ∧ mat'.Wf vecLen
        ∧ IsListStep (bag.take len) (.swapRows row1 row2) mat'.toList := by
  obtain ⟨hle, n, hrows⟩ := h
  have hlen := length_take_bag hle
  obtain ⟨a, ha, hvec1⟩ := exists_row hrows h1 (by omega)
  obtain ⟨b, hb, hvec2⟩ := exists_row hrows h2 (by omega)
  have hspec := swap_spec (l := bag.take len) h1 h2 (by omega) (by omega)
  have htake : ((bag.set (row1 - 1) (some b)).set (row2 - 1) (some a)).take len
      = ((bag.take len).set (row1 - 1) (some b)).set (row2 - 1) (some a) := by
    rw [take_set, take_set]
  rw [ha, hb, ← htake] at hspec
  rw [rowAt_take h1 hle1] at ha
  rw [rowAt_take h2 hle2] at hb
  unfold funcSwapRowsGF2Mat
  rw [if_neg (by omega), if_neg (by omega), elmGF2Mat_eq ha, elmGF2Mat_eq hb]
  refine ⟨.gf2mat len ((bag.set (row1 - 1) (some b)).set (row2 - 1) (some a)), ?_, ⟨?_, n, ?_⟩,
    hspec⟩
  . simp only [ok_bind]
    rw [setElmGF2Mat_eq h1 (by omega), ok_bind, setElmGF2Mat_eq h2 (by rw [length_set]; omega)]
    rfl
  . rw [length_set, length_set]
    exact hle
  . rw [htake]
    exact hasRows_set (hasRows_set hrows hvec2 _) hvec1 _

end

section

variable {vecLen : E → Option Nat}

theorem step_spec {mat : MatObj E} {op : MatOp E} (h : mat.Wf vecLen) (hop : op.Positive)
    : (next vecLen mat op).Wf vecLen ∧ (StepHolds vecLen mat op ↔ ¬FillsEmpty vecLen mat op) := by
  unfold next StepHolds
  cases mat with
  | plist entries =>
    cases op with
    | ass pos elm => exact ⟨trivial, iff_of_true (assPlist_spec hop) id⟩
    | unb pos => exact ⟨trivial, iff_of_true (unbPlist_spec hop) id⟩
    | swapRows row1 row2 => exact ⟨trivial, iff_of_true rfl id⟩
  | gf2mat len bag =>
    unfold step
    cases op with
    | ass pos elm =>
      obtain ⟨mat', hrun, hwf, hiff⟩ := @funcAssGF2Mat_spec E vecLen len bag elm pos h hop
      dsimp only
      rw [hrun]
      exact ⟨hwf, hiff⟩
    | unb pos =>
      obtain ⟨hwf, hstep⟩ := funcUnbGF2Mat_spec h hop
      exact ⟨hwf, iff_of_true hstep id⟩
    | swapRows row1 row2 =>
      dsimp only
      by_cases herr : len < row1 ∨ len < row2
      . obtain ⟨e, hrun, hrej⟩ := @funcSwapRowsGF2Mat_error E len bag _ _ herr
        rw [hrun]
        exact ⟨h, iff_of_true hrej id⟩
      . obtain ⟨mat', hrun, hwf, hstep⟩ :=
          funcSwapRowsGF2Mat_spec h hop.1 hop.2 (by omega) (by omega)
        rw [hrun]
        exact ⟨hwf, iff_of_true hstep id⟩

theorem refinesList_iff {mat : MatObj E} {ops : List (MatOp E)} (h : mat.Wf vecLen)
    (hops : ∀ op ∈ ops, op.Positive)
    : HoldsAlong vecLen mat ops ↔ AvoidsAlong vecLen mat ops := by
  induction ops generalizing mat with
  | nil => exact iff_of_true h trivial
  | cons op ops ih =>
    obtain ⟨hwf, hiff⟩ := step_spec h (hops op List.mem_cons_self)
    have hrest := ih hwf (fun op hmem => hops op (List.mem_cons_of_mem _ hmem))
    unfold HoldsAlong AvoidsAlong
    rw [hiff, hrest]
    exact ⟨fun hall => hall.2, fun hall => ⟨h, hall⟩⟩

theorem refinesList_iff_two
    : HoldsAlong some (.gf2mat 1 [some 3]) [.ass 2 3, .swapRows 1 2, .unb 2]
        ↔ AvoidsAlong some (.gf2mat 1 [some 3]) [.ass 2 3, .swapRows 1 2, .unb 2] := by
  apply refinesList_iff
  . refine ⟨by decide, 3, ?_⟩
    intro elm hmem
    exact ⟨3, List.mem_singleton.mp hmem, rfl⟩
  . intro op hmem
    simp only [List.mem_cons, List.not_mem_nil, or_false] at hmem
    rcases hmem with rfl | rfl | rfl
    . exact Nat.zero_lt_succ _
    . exact ⟨Nat.zero_lt_succ _, Nat.zero_lt_succ _⟩
    . exact Nat.zero_lt_succ _

/-- The length stays zero when the only row is removed and assigned again. -/
theorem not_refinesList_refilled
    : Wf some (.gf2mat 1 [some 3])
        ∧ ¬HoldsAlong some (.gf2mat 1 [some 3]) [.unb 1, .ass 1 3] := by
  constructor
  . refine ⟨by decide, 3, ?_⟩
    intro elm hmem
    exact ⟨3, List.mem_singleton.mp hmem, rfl⟩
  . rintro ⟨-, -, -, ⟨hlen, -⟩, -⟩
    exact absurd hlen (by decide)

end

end GF2MatImpl
