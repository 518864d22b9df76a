import GapKernel.Fault
import Mathlib.Algebra.Group.Defs
import Mathlib.Data.List.Nodup

/-!
This module contains the access to the entries of plain lists. Positions start at 1.
-/

open List

def elmPlist {α : Type} (list : List α) (pos : Nat) : Result α :=
  match pos with
  | 0 => throw .access
  | pos + 1 =>
    match list[pos]? with
    | some elm => return elm
    | none => throw .access

def setElmPlist {α : Type} (list : List α) (pos : Nat) (elm : α) : Result (List α) :=
  if 0 < pos ∧ pos ≤ list.length then
    return list.set (pos - 1) elm
  else
    throw .access

def entryPlist {α : Type} [Zero α] (list : List α) (pos : Nat) : α :=
  match pos with
  | 0 => 0
  | pos + 1 => list.getD pos 0

variable {pos : Nat}

section

variable {α : Type}

variable {list : List α}

theorem elmPlist_eq_entryPlist [Zero α] (h1 : 0 < pos) (h2 : pos ≤ list.length)
    : elmPlist list pos = .ok (entryPlist list pos) := by
  cases pos with
  | zero => omega
  | succ pos =>
    unfold elmPlist entryPlist
    have : pos < list.length := by omega
    simp [this]
    rfl

variable {x : α}

theorem elmPlist_of_getElem? (h : list[pos]? = some x)
    : elmPlist list (pos + 1) = .ok x := by
  unfold elmPlist
  dsimp only
  rw [h]
  rfl

theorem setElmPlist_eq {elm : α} (h1 : 0 < pos) (h2 : pos ≤ list.length)
    : setElmPlist list pos elm = .ok (list.set (pos - 1) elm) := by
  unfold setElmPlist
  rw [if_pos ⟨h1, h2⟩]
  rfl

theorem elmPlist_eq_ok_iff
    : elmPlist list pos = .ok x ↔ 0 < pos ∧ list[pos - 1]? = some x := by
  unfold elmPlist
  cases pos with
  | zero => exact ⟨(fun h => nomatch h), fun h => absurd h.1 (Nat.lt_irrefl 0)⟩
  | succ pos =>
    dsimp only
    rw [Nat.add_sub_cancel]
    cases hget : list[pos]? with
    | none => exact ⟨(fun h => nomatch h), fun h => nomatch h.2⟩
    | some y =>
      constructor
      . intro h
        cases h
        exact ⟨Nat.succ_pos pos, rfl⟩
      . rintro ⟨_, h⟩
        cases h
        rfl

theorem elmPlist_append {list' : List α} (h : elmPlist list pos = .ok x)
    : elmPlist (list ++ list') pos = .ok x := by
  rw [elmPlist_eq_ok_iff] at h ⊢
  exact ⟨h.1, by rw [getElem?_append_left (List.getElem?_eq_some_iff.mp h.2).1, h.2]⟩

theorem elmPlist_concat_cases {y : α} (h : elmPlist (list ++ [y]) pos = .ok x)
    : elmPlist list pos = .ok x ∨ pos = list.length + 1 ∧ x = y := by
  rw [elmPlist_eq_ok_iff] at h
  by_cases hlt : pos - 1 < list.length
  . rw [getElem?_append_left hlt] at h
    exact Or.inl (elmPlist_eq_ok_iff.mpr h)
  . have hpos := h.1
    have hlen := (List.getElem?_eq_some_iff.mp h.2).1
    rw [length_append, length_singleton] at hlen
    rw [show pos - 1 = list.length by omega, getElem?_concat_length] at h
    exact Or.inr ⟨by omega, (Option.some.inj h.2).symm⟩

theorem le_of_elmPlist (h : elmPlist list pos = .ok x)
    : 0 < pos ∧ pos ≤ list.length := by
  rw [elmPlist_eq_ok_iff] at h
  have hlt := (List.getElem?_eq_some_iff.mp h.2).1
  omega

theorem setElmPlist_of_elmPlist (h : elmPlist list pos = .ok x) (elm : α)
    : ∃ list', setElmPlist list pos elm = .ok list' ∧ list'.length = list.length
      ∧ elmPlist list' pos = .ok elm ∧ ∀ k, k ≠ pos → elmPlist list' k = elmPlist list k := by
  obtain ⟨hpos, hle⟩ := le_of_elmPlist h
  refine ⟨_, setElmPlist_eq hpos hle, length_set, ?_, ?_⟩
  . rw [elmPlist_eq_ok_iff]
    exact ⟨hpos, getElem?_set_self (by omega)⟩
  . intro k hk
    unfold elmPlist
    cases k with
    | zero => rfl
    | succ k =>
      dsimp only
      rw [getElem?_set_ne (by omega)]

theorem entryPlist_set [Zero α] {pos' : Nat} {elm : α} (h1 : 0 < pos) (h2 : pos ≤ list.length)
    : entryPlist (list.set (pos - 1) elm) pos'
        = if pos' = pos then elm else entryPlist list pos' := by
  cases pos' with
  | zero =>
    rw [if_neg (by omega)]
    rfl
  | succ k =>
    unfold entryPlist
    simp only [getD_eq_getElem?_getD, getElem?_set]
    split
    . next h =>
      rw [if_pos (by omega)]
      rw [if_pos (by omega)]
      rfl
    . next h => rw [if_neg (by omega)]

theorem entryPlist_append_replicate [Zero α] {n : Nat}
    : entryPlist (list ++ List.replicate n 0) pos = entryPlist list pos := by
  cases pos with
  | zero => rfl
  | succ k =>
    unfold entryPlist
    simp only [getD_eq_getElem?_getD, getElem?_append, getElem?_replicate]
    split
    . rfl
    . next h =>
      rw [getElem?_eq_none (by omega)]
      split
      . rfl
      . rfl

theorem elmPlist_append_cons (u v : List α) (x : α)
    : elmPlist (u ++ x :: v) (u.length + 1) = .ok x := by
  unfold elmPlist
  simp
  rfl

theorem setElmPlist_append_cons (u v : List α) (x y : α)
    : setElmPlist (u ++ x :: v) (u.length + 1) y = .ok (u ++ y :: v) := by
  rw [setElmPlist_eq (by omega) (by simp)]
  simp

theorem entryPlist_eq_getElem [Zero α] (h : pos < list.length)
    : entryPlist list (pos + 1) = list[pos] := by
  unfold entryPlist
  simp [h]

theorem entryPlist_of_lt [Zero α] (h : list.length < pos)
    : entryPlist list pos = 0 := by
  cases pos with
  | zero => rfl
  | succ pos =>
    unfold entryPlist
    simp only [getD_eq_getElem?_getD]
    rw [getElem?_eq_none (by omega)]
    rfl

end

section

variable {α : Type} [Zero α]

theorem mem_segment_iff (u v w : List α) (x : α)
    : x ∈ v ↔ ∃ pos, u.length < pos ∧ pos ≤ u.length + v.length
        ∧ entryPlist (u ++ v ++ w) pos = x := by
  rw [mem_iff_getElem]
  constructor
  . rintro ⟨i, hi, rfl⟩
    refine ⟨u.length + i + 1, by omega, by omega, ?_⟩
    rw [entryPlist_eq_getElem (by simp; omega)]
    rw [getElem_append_left (by simp; omega)]
    rw [getElem_append_right (by omega)]
    simp
  . rintro ⟨pos, hlt, hle, rfl⟩
    obtain ⟨i, rfl⟩ : ∃ i, pos = u.length + i + 1 := ⟨pos - u.length - 1, by omega⟩
    refine ⟨i, by omega, ?_⟩
    rw [entryPlist_eq_getElem (by simp; omega)]
    rw [getElem_append_left (by simp; omega)]
    rw [getElem_append_right (by omega)]
    simp

theorem entryPlist_outside {u v v' w : List α} (hlen : v'.length = v.length)
    (h : pos ≤ u.length ∨ u.length + v.length < pos)
    : entryPlist (u ++ v' ++ w) pos = entryPlist (u ++ v ++ w) pos := by
  cases pos with
  | zero => rfl
  | succ i =>
    unfold entryPlist
    simp only [getD_eq_getElem?_getD, append_assoc]
    cases h with
    | inl h => rw [getElem?_append_left (by omega), getElem?_append_left (by omega)]
    | inr h =>
      rw [getElem?_append_right (by omega), getElem?_append_right (by omega)]
      rw [getElem?_append_right (by omega), getElem?_append_right (by omega)]
      rw [hlen]

theorem mem_iff_entryPlist (list : List α) (x : α)
    : x ∈ list ↔ ∃ pos, 0 < pos ∧ pos ≤ list.length ∧ entryPlist list pos = x := by
  simpa using mem_segment_iff [] list [] x

theorem entryPlist_concat (list : List α) (x : α) (pos : Nat)
    : entryPlist (list ++ [x]) pos
        = if pos = list.length + 1 then x else entryPlist list pos := by
  cases pos with
  | zero =>
    rw [if_neg (by omega)]
    rfl
  | succ i =>
    unfold entryPlist
    simp only [getD_eq_getElem?_getD]
    split
    . next h =>
      have : i = list.length := by omega
      simp [this]
    . next h =>
      by_cases hi : i < list.length
      . rw [getElem?_append_left hi]
      . rw [getElem?_eq_none (by simp; omega), getElem?_eq_none (by omega)]

theorem ext_entryPlist {l l' : List α} (hlen : l.length = l'.length)
    (h : ∀ pos, 0 < pos → pos ≤ l.length → entryPlist l pos = entryPlist l' pos)
    : l = l' := by
  apply ext_getElem hlen
  intro i hi hi'
  rw [← entryPlist_eq_getElem hi, ← entryPlist_eq_getElem hi']
  apply h
  . omega
  . omega

theorem entryPlist_inj {list : List α} (h : list.Nodup) {pos' : Nat}
    (hpos : 0 < pos ∧ pos ≤ list.length) (hpos' : 0 < pos' ∧ pos' ≤ list.length)
    (heq : entryPlist list pos = entryPlist list pos')
    : pos = pos' := by
  obtain ⟨i, rfl⟩ : ∃ i, pos = i + 1 := ⟨pos - 1, by omega⟩
  obtain ⟨j, rfl⟩ : ∃ j, pos' = j + 1 := ⟨pos' - 1, by omega⟩
  rw [entryPlist_eq_getElem (by omega), entryPlist_eq_getElem (by omega)] at heq
  rw [h.getElem_inj_iff] at heq
  omega

theorem entryPlist_dropLast (list : List α) (pos : Nat)
    : entryPlist list.dropLast pos = if pos < list.length then entryPlist list pos else 0 := by
  cases pos with
  | zero => simp [entryPlist]
  | succ i =>
    unfold entryPlist
    simp only [getD_eq_getElem?_getD, getElem?_dropLast]
    split
    . rw [if_pos (by omega)]
    . rw [if_neg (by omega)]
      rfl

end

def readAt {α : Type} (bag : List α) (i : Nat) : Result α :=
  match bag[i]? with
  | some x => return x
  | none => throw .access

def writeAt {α : Type} (bag : List α) (i : Nat) (x : α) : Result (List α) :=
  if i < bag.length then
    return bag.set i x
  else
    throw .access

variable {i : Nat}

theorem readAt_of_lt {α : Type} {bag : List α} (h : i < bag.length) (d : α)
    : readAt bag i = .ok (bag.getD i d) := by
  unfold readAt
  rw [getD_eq_getElem?_getD, getElem?_eq_getElem h]
  rfl

theorem writeAt_of_lt {α : Type} {bag : List α} (h : i < bag.length) (x : α)
    : writeAt bag i x = .ok (bag.set i x) := by
  unfold writeAt
  rw [if_pos h]
  rfl

theorem writeAt_ok {α : Type} {bag bag' : List α} {x : α} (h : writeAt bag i x = .ok bag')
    : i < bag.length ∧ bag' = bag.set i x := by
  unfold writeAt at h
  split at h
  next hlt =>
    cases h
    exact ⟨hlt, rfl⟩
  next => cases h

theorem getD_set {α : Type} {bag : List α} {j : Nat} {x d : α} (h : i < bag.length)
    : (bag.set i x).getD j d = if j = i then x else bag.getD j d := by
  simp only [getD_eq_getElem?_getD, getElem?_set]
  by_cases hij : i = j
  . rw [if_pos hij, if_pos h, if_pos hij.symm]
    rfl
  . rw [if_neg hij, if_neg (fun heq => hij heq.symm)]
