import GapKernel.Compare
import Mathlib.Data.Nat.Digits.Lemmas

/-!
This module contains the lexicographic comparison of lists, and the numbers that are lists of binary
digits or of limbs.
-/

open List Nat

def cmpLists {E : Type} (compare : E → E → Int) : List E → List E → Int
  | [], [] => 0
  | [], _ :: _ => -1
  | _ :: _, [] => 1
  | a :: l, b :: r => if compare a b = 0 then cmpLists compare l r else compare a b

section

variable {E : Type} {compare : E → E → Int}

theorem cmpLists_cons (a b : E) (l r : List E)
    : cmpLists compare (a :: l) (b :: r)
        = if compare a b = 0 then cmpLists compare l r else compare a b :=
  rfl

theorem cmpLists_self (hself : ∀ a, compare a a = 0) (l : List E) : cmpLists compare l l = 0 := by
  induction l with
  | nil => rfl
  | cons a l ih =>
    rw [cmpLists_cons, if_pos (hself a)]
    exact ih

theorem cmpLists_append (hself : ∀ a, compare a a = 0) (p l r : List E)
    : cmpLists compare (p ++ l) (p ++ r) = cmpLists compare l r := by
  induction p with
  | nil => rfl
  | cons a p ih =>
    rw [cons_append, cons_append, cmpLists_cons, if_pos (hself a)]
    exact ih

theorem cmpLists_append_of_ne {l r : List E} (hlen : l.length = r.length)
    (hne : cmpLists compare l r ≠ 0) (l' r' : List E)
    : cmpLists compare (l ++ l') (r ++ r') = cmpLists compare l r := by
  induction l generalizing r with
  | nil =>
    cases r with
    | nil => exact absurd rfl hne
    | cons b r => cases hlen
  | cons a l ih =>
    cases r with
    | nil => cases hlen
    | cons b r =>
      rw [cons_append, cons_append, cmpLists_cons, cmpLists_cons]
      rw [cmpLists_cons] at hne
      split
      . next hab =>
        rw [if_pos hab] at hne
        exact ih (succ.inj hlen) hne
      . rfl

theorem cmpLists_nil_left (r : List E) : cmpLists compare [] r = if r = [] then 0 else -1 := by
  cases r with
  | nil => rfl
  | cons b r => rfl

theorem cmpLists_nil_right (l : List E) : cmpLists compare l [] = if l = [] then 0 else 1 := by
  cases l with
  | nil => rfl
  | cons a l => rfl

theorem cmpLists_eq_zero_iff (hzero : ∀ a b, compare a b = 0 ↔ a = b) (l r : List E)
    : cmpLists compare l r = 0 ↔ l = r := by
  induction l generalizing r with
  | nil =>
    rw [cmpLists_nil_left]
    cases r with
    | nil => simp
    | cons b r => simp
  | cons a l ih =>
    cases r with
    | nil => simp [cmpLists]
    | cons b r =>
      rw [cmpLists_cons, List.cons.injEq, ← hzero a b, ← ih r]
      split
      . next hab => simp [hab]
      . next hab => simp [hab]

theorem cmpLists_trans (h : IsCompare compare) {l r s : List E} (hlr : cmpLists compare l r ≤ 0)
    (hrs : cmpLists compare r s ≤ 0) : cmpLists compare l s ≤ 0 := by
  induction l generalizing r s with
  | nil =>
    rw [cmpLists_nil_left]
    split
    . exact Int.le_refl 0
    . decide
  | cons a l ih =>
    cases r with
    | nil => cases hlr
    | cons b r =>
      cases s with
      | nil => cases hrs
      | cons x s =>
        rw [cmpLists_cons] at hlr hrs ⊢
        by_cases hab : compare a b = 0
        . rw [if_pos hab] at hlr
          by_cases hbx : compare b x = 0
          . have hba := (h.eq_zero_comm a b).mp hab
            have hxb := (h.eq_zero_comm b x).mp hbx
            have hax := h.trans a b x (Int.le_of_eq hab) (Int.le_of_eq hbx)
            have hxa := h.trans x b a (Int.le_of_eq hxb) (Int.le_of_eq hba)
            have hswap := h.swap x a
            rw [if_pos hbx] at hrs
            rw [if_pos (by omega)]
            exact ih hlr hrs
          . rw [if_neg hbx] at hrs
            have hax := h.lt_of_le_of_lt (Int.le_of_eq hab) (lt_of_le_of_ne hrs hbx)
            rw [if_neg (Int.ne_of_lt hax)]
            exact Int.le_of_lt hax
        . rw [if_neg hab] at hlr
          have hbx : compare b x ≤ 0 := by
            by_cases hzero : compare b x = 0
            . exact Int.le_of_eq hzero
            . rw [if_neg hzero] at hrs
              exact hrs
          have hax := h.lt_of_lt_of_le (lt_of_le_of_ne hlr hab) hbx
          rw [if_neg (Int.ne_of_lt hax)]
          exact Int.le_of_lt hax

theorem isCompare_cmpLists (h : IsCompare compare) : IsCompare (cmpLists compare) := by
  refine ⟨?_, fun _ _ _ => cmpLists_trans h⟩
  intro l
  induction l with
  | nil =>
    intro r
    rw [cmpLists_nil_left, cmpLists_nil_right]
    split
    . simp
    . simp
  | cons a l ih =>
    intro r
    cases r with
    | nil => simp [cmpLists]
    | cons b r =>
      have hzero := h.eq_zero_comm a b
      rw [cmpLists_cons, cmpLists_cons]
      by_cases hab : compare a b = 0
      . rw [if_pos hab, if_pos (hzero.mp hab)]
        exact ih r
      . rw [if_neg hab, if_neg (fun hc => hab (hzero.mpr hc))]
        exact h.swap a b

end

namespace BitNumber

def bit (b : Bool) : Nat :=
  if b then 1 else 0

def number (l : List Bool) : Nat :=
  l.foldl (fun n b => 2 * n + bit b) 0

def cmpBit (a b : Bool) : Int :=
  if a = b then 0 else if b then -1 else 1

theorem cmpBit_eq_zero_iff (a b : Bool) : cmpBit a b = 0 ↔ a = b := by
  revert a b
  decide

theorem isCompare_cmpBit : IsCompare cmpBit := by
  constructor
  . decide
  . decide

theorem foldl_number (l : List Bool) (n : Nat)
    : l.foldl (fun n b => 2 * n + bit b) n = n * 2 ^ l.length + number l := by
  induction l generalizing n with
  | nil => simp [number]
  | cons b l ih =>
    unfold number
    rw [foldl_cons, foldl_cons, ih, ih (2 * 0 + bit b)]
    rw [length_cons, Nat.pow_succ]
    ring

theorem number_append (l r : List Bool)
    : number (l ++ r) = number l * 2 ^ r.length + number r := by
  rw [← foldl_number]
  unfold number
  rw [foldl_append]

theorem number_cons (b : Bool) (l : List Bool)
    : number (b :: l) = bit b * 2 ^ l.length + number l := by
  rw [← singleton_append, number_append]
  simp [number]

theorem bit_lt_two (b : Bool) : bit b < 2 := by
  revert b
  decide

theorem number_lt (l : List Bool) : number l < 2 ^ l.length := by
  induction l with
  | nil => exact Nat.one_pos
  | cons b l ih =>
    have := bit_lt_two b
    rw [number_cons, length_cons, Nat.pow_succ]
    nlinarith

theorem number_eq_sum (l : List Bool)
    : number l = ∑ i ∈ Finset.range l.length, bit (l.getD i false) * 2 ^ (l.length - (i + 1)) := by
  induction l with
  | nil => rfl
  | cons b l ih =>
    rw [number_cons, length_cons, Finset.sum_range_succ', ih, Nat.add_comm]
    congr 1
    apply Finset.sum_congr rfl
    intro i _
    rw [getD_cons_succ, Nat.add_sub_add_right]

theorem cmpLists_eq_of_length {l r : List Bool} (hlen : l.length = r.length)
    : cmpLists cmpBit l r
        = if number l < number r then -1 else if number r < number l then 1 else 0 := by
  induction l generalizing r with
  | nil =>
    cases r with
    | nil => rfl
    | cons b r => cases hlen
  | cons a l ih =>
    cases r with
    | nil => cases hlen
    | cons b r =>
      rw [length_cons, length_cons, Nat.add_right_cancel_iff] at hlen
      have hl := number_lt l
      have hr := number_lt r
      rw [cmpLists_cons, number_cons, number_cons, ih hlen, hlen]
      rw [hlen] at hl
      by_cases hab : a = b
      . rw [hab, if_pos ((cmpBit_eq_zero_iff b b).mpr rfl)]
        simp
      . rw [if_neg (fun hc => hab ((cmpBit_eq_zero_iff a b).mp hc))]
        cases a with
        | false =>
          cases b with
          | false => exact absurd rfl hab
          | true =>
            rw [if_pos (by simp only [bit]; simp; omega)]
            rfl
        | true =>
          cases b with
          | false =>
            rw [if_neg (by simp only [bit]; simp; omega), if_pos (by simp only [bit]; simp; omega)]
            rfl
          | true => exact absurd rfl hab

end BitNumber

namespace Limbs

variable {B : Nat} {l l' : List Nat}

def AreLimbs (B : Nat) (l : List Nat) : Prop :=
  ∀ x ∈ l, x < B

structure IsNormal (B : Nat) (l : List Nat) : Prop where
  areLimbs : AreLimbs B l
  getLast_ne : ∀ h : l ≠ [], l.getLast h ≠ 0

namespace IsNormal

section

variable (hB : 1 < B) (h : IsNormal B l)

include hB h

theorem digits_eq : B.digits (ofDigits B l) = l :=
  digits_ofDigits B hB l h.areLimbs h.getLast_ne

theorem eq_of_ofDigits_eq (h' : IsNormal B l') (heq : ofDigits B l = ofDigits B l')
    : l = l' := by
  rw [← h.digits_eq hB, heq, h'.digits_eq hB]

theorem lt_pow : ofDigits B l < B ^ l.length :=
  ofDigits_lt_base_pow_length hB h.areLimbs

theorem pow_le (hl : 0 < l.length)
    : B ^ (l.length - 1) ≤ ofDigits B l := by
  rw [← lt_digits_length_iff hB, h.digits_eq hB]
  omega

theorem lt_of_length_lt (h' : IsNormal B l') (hlt : l.length < l'.length)
    : ofDigits B l < ofDigits B l' := by
  have hdigits := h'.digits_eq hB
  have hlen : l.length < (B.digits (ofDigits B l')).length := by
    rwa [hdigits]
  rw [lt_digits_length_iff hB] at hlen
  have := h.lt_pow hB
  omega

end

theorem length_pos (h : 0 < ofDigits B l) : 0 < l.length := by
  cases l with
  | nil => simp at h
  | cons d l => simp

theorem ofDigits_pos (hB : 1 < B) (h : IsNormal B l) (hl : 0 < l.length)
    : 0 < ofDigits B l := by
  have hnil : IsNormal B ([] : List Nat) :=
    ⟨fun x hx => by simp at hx, fun h => absurd rfl h⟩
  have := hnil.lt_of_length_lt hB h (by simpa using hl)
  simpa using this

end IsNormal

theorem ofDigits_digitsAppend (B n x : Nat) : ofDigits B (digitsAppend B n x) = x := by
  rw [digitsAppend, ofDigits_append_replicate_zero, ofDigits_digits]

theorem getD_zero_eq_mod (h : AreLimbs B l) : l.getD 0 0 = ofDigits B l % B := by
  cases l with
  | nil => simp
  | cons d l =>
    have := h d mem_cons_self
    rw [ofDigits_cons]
    simp [mod_eq_of_lt this]

theorem ofDigits_of_length_one (h : l.length = 1) : ofDigits B l = l.getD 0 0 := by
  match l with
  | [d] => simp

end Limbs
