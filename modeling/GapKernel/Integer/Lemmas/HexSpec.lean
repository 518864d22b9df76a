import GapKernel.Integer.Lemmas.Hex

open List

namespace Integer

variable {w : IntSize}

section Read

def IsHexString (str : List UInt8) : Prop :=
  ∀ b ∈ hexBody str, hexDigit? b ≠ none

instance (str : List UInt8) : Decidable (IsHexString str) :=
  List.decidableBAll (fun b => hexDigit? b ≠ none) (hexBody str)

def hexDenotes (str : List UInt8) : Int :=
  hexSign str * (Nat.ofDigits 16 ((hexBody str).filterMap hexDigit?).reverse : Nat)

def ReadsHex (w : IntSize) (str : List UInt8) : Prop :=
  if IsHexString str then
    ∃ op, intHexString w str = .ok op ∧ Represents w op (hexDenotes str)
  else
    intHexString w str = .error hexFault

theorem isAccepted_iff (l : List UInt8)
    : IsAccepted l ↔ ∀ b ∈ l, hexDigit? b ≠ none ∨ IsBetween b := by
  unfold IsAccepted
  simp only [toNat_hexDecode_le_iff]

theorem hexVal_of_digits {l : List UInt8} (h : ∀ b ∈ l, hexDigit? b ≠ none)
    : hexVal l = Nat.ofDigits 16 (l.filterMap hexDigit?).reverse := by
  unfold hexVal
  congr 2
  induction l with
  | nil => rfl
  | cons b l ih =>
    rw [forall_mem_cons] at h
    cases hb : hexDigit? b with
    | none => exact absurd hb h.1
    | some d =>
      rw [filterMap_cons_some hb]
      rw [map_cons]
      rw [ih h.2]
      rw [(hexDecode_of_some hb).1]

theorem readsHex_iff (str : List UInt8)
    : ReadsHex w str ↔ (∀ b ∈ hexBody str, ¬ IsBetween b)
        ∨ ∃ b ∈ hexBody str, hexDigit? b = none ∧ ¬ IsBetween b := by
  have hread := intHexString_eq (w := w) str
  have haccepted := isAccepted_iff (hexBody str)
  unfold ReadsHex
  by_cases hstr : IsHexString str
  . have hstr' := hstr
    unfold IsHexString at hstr'
    rw [if_pos (haccepted.2 (fun b hb => Or.inl (hstr' b hb)))] at hread
    rw [if_pos hstr]
    unfold hexDenotes
    rw [← hexVal_of_digits hstr']
    constructor
    . intro _
      left
      intro b hb hbetween
      exact hstr' b hb (hexDigit?_of_isBetween hbetween)
    . intro _
      exact hread
  . rw [if_neg hstr]
    unfold IsHexString at hstr
    split at hread
    . next haccept =>
      -- An invalid byte that the decoder takes for a digit.
      constructor
      . intro herror
        rcases hread with ⟨op, hop⟩
        rw [herror] at hop
        cases hop.1
      . intro hcond
        exfalso
        cases hcond with
        | inl hnot =>
          apply hstr
          intro b hb
          exact (haccepted.1 haccept b hb).resolve_right (hnot b hb)
        | inr hother =>
          rcases hother with ⟨b, hb⟩
          cases haccepted.1 haccept b hb.1 with
          | inl hdigit => exact hdigit hb.2.1
          | inr hbetween => exact hb.2.2 hbetween
    . next hreject =>
      constructor
      . intro _
        right
        by_contra hnone
        apply hreject
        apply haccepted.2
        intro b hb
        by_contra hbad
        rw [not_or] at hbad
        exact hnone ⟨b, hb, not_not.1 hbad.1, hbad.2⟩
      . intro _
        exact hread

end Read

section Write

variable (G : GmpRadix w)

def hexLength (op : IntegerObj) : Nat :=
  (Nat.digits 16 (val w op).natAbs).length

def ReadsBack (op : IntegerObj) : Prop :=
  ∃ str, hexStringInt G op = .ok str ∧ intHexString w str = .ok op

theorem upperDigit_spec {d : Nat} (h : d < 16)
    : (hexDecode (upperDigit d)).toNat = d ∧ upperDigit d ≠ 0 ∧ upperDigit d ≠ '-'.toUInt8 := by
  have hall : ∀ d < 16, (hexDecode (upperDigit d)).toNat = d ∧ upperDigit d ≠ 0
      ∧ upperDigit d ≠ '-'.toUInt8 := by
    decide
  exact hall d h

def hexUpper (x : Int) : List UInt8 :=
  (Nat.digits 16 x.natAbs).reverse.map upperDigit

variable {x : Int}

theorem exists_of_mem_hexUpper {b : UInt8} (h : b ∈ hexUpper x)
    : ∃ d < 16, b = upperDigit d := by
  unfold hexUpper at h
  rw [mem_map] at h
  rcases h with ⟨d, hd⟩
  rw [mem_reverse] at hd
  exact ⟨d, Nat.digits_lt_base (by omega) hd.1, hd.2.symm⟩

theorem isAccepted_hexUpper (x : Int) : IsAccepted (hexUpper x) := by
  intro b hb
  rcases exists_of_mem_hexUpper hb with ⟨d, hd⟩
  rw [hd.2]
  rw [(upperDigit_spec hd.1).1]
  omega

theorem hexVal_hexUpper (x : Int) : hexVal (hexUpper x) = x.natAbs := by
  unfold hexVal hexUpper
  rw [map_map]
  rw [← map_reverse]
  rw [reverse_reverse]
  have hid : (Nat.digits 16 x.natAbs).map ((fun b => (hexDecode b).toNat) ∘ upperDigit)
      = (Nat.digits 16 x.natAbs).map id := by
    apply map_congr_left
    intro d hd
    exact (upperDigit_spec (Nat.digits_lt_base (by omega) hd)).1
  rw [hid]
  rw [map_id]
  apply Nat.ofDigits_digits

theorem signedDigits_eq (x : Int)
    : signedDigits 16 x = (if x < 0 then ['-'.toUInt8] else []) ++ hexUpper x :=
  rfl

theorem head_hexUpper (x : Int) : (hexUpper x).getD 0 0 ≠ '-'.toUInt8 := by
  cases h : hexUpper x with
  | nil => decide
  | cons b l =>
    have hmem : b ∈ hexUpper x := by
      rw [h]
      apply mem_cons_self
    rcases exists_of_mem_hexUpper hmem with ⟨d, hd⟩
    rw [getD_cons_zero]
    rw [hd.2]
    exact (upperDigit_spec hd.1).2.2

theorem hexBody_signedDigits (x : Int)
    : hexBody (signedDigits 16 x) = hexUpper x
        ∧ hexSign (signedDigits 16 x) * (x.natAbs : Int) = x := by
  unfold hexBody hexSign
  rw [signedDigits_eq]
  split
  . next hneg =>
    rw [singleton_append]
    rw [getD_cons_zero]
    rw [if_pos rfl]
    rw [if_pos rfl]
    constructor
    . rfl
    . omega
  . next hpos =>
    rw [nil_append]
    rw [if_neg (head_hexUpper x)]
    rw [if_neg (head_hexUpper x)]
    constructor
    . rfl
    . omega

theorem intHexString_signedDigits (x : Int)
    : ∃ op, intHexString w (signedDigits 16 x) = .ok op ∧ Represents w op x := by
  have hread := intHexString_eq (w := w) (signedDigits 16 x)
  have hbody := hexBody_signedDigits x
  rw [hbody.1] at hread
  rw [if_pos (isAccepted_hexUpper x)] at hread
  rw [hexVal_hexUpper] at hread
  rw [hbody.2] at hread
  exact hread

theorem length_signedDigits (x : Int)
    : (signedDigits 16 x).length = (if x < 0 then 1 else 0) + (Nat.digits 16 x.natAbs).length := by
  rw [signedDigits_eq]
  unfold hexUpper
  rw [length_append]
  rw [length_map]
  rw [length_reverse]
  split
  . rfl
  . rfl

theorem strlen_signedDigits (x : Int) (rest : List UInt8)
    : strlen (signedDigits 16 x ++ 0 :: rest) = (signedDigits 16 x).length := by
  unfold strlen
  rw [takeWhile_append_of_pos]
  . rw [takeWhile_cons_of_neg]
    . rw [append_nil]
    . decide
  . intro b hb
    rw [signedDigits_eq] at hb
    rw [mem_append] at hb
    rw [decide_eq_true_eq]
    cases hb with
    | inl hsign =>
      split at hsign
      . rw [mem_singleton] at hsign
        rw [hsign]
        decide
      . contradiction
    | inr hdigit =>
      rcases exists_of_mem_hexUpper hdigit with ⟨d, hd⟩
      rw [hd.2]
      exact (upperDigit_spec hd.1).2.1

variable {op : IntegerObj}

theorem hexStringInt_eq (h : Represents w op x) (hne : x ≠ 0)
    : hexStringInt G op = (do
        let res ← newString w (toInt32 ((Nat.digits 16 x.natAbs).length + 2))
        let res ← writeCStr res (signedDigits 16 x)
        let realLen := toInt32 (strlen res)
        return res.take realLen.toNat) := by
  have hsize : (fakeMpzOfObj op).size ≠ 0 := by
    intro hzero
    apply hne
    rw [← h.2]
    rw [← val_fakeMpzOfObj h.1]
    unfold Mpz.val
    rw [hzero]
    rw [Int.sign_zero]
    rw [zero_mul]
  have hmpz := isMpz_fakeMpzOfObj h.1
  have hval : (fakeMpzOfObj op).val w = x := by
    rw [val_fakeMpzOfObj h.1]
    exact h.2
  have hnezero : op ≠ INTOBJ_INT w 0 := by
    intro hzero
    rw [eq_INTOBJ_INT_iff h.1 (isSmall_zero w)] at hzero
    apply hne
    rw [← h.2]
    exact hzero
  unfold hexStringInt stringIntBase
  rw [if_neg hnezero]
  dsimp only
  rw [G.mpzSizeinbase_eq _ hmpz hsize]
  rw [G.mpzGetStr_eq _ 16 hmpz hsize (by omega) (by omega)]
  rw [hval]

-- The length of the string has to fit into an `int` and into an immediate integer.
theorem hexStringInt_of_fits (h : Represents w op x) (hne : x ≠ 0)
    (hfits : ((Nat.digits 16 x.natAbs).length + 2 : Int) ≤ min (2 ^ 31 - 1) w.intIntobjMax)
    : hexStringInt G op = .ok (signedDigits 16 x) := by
  have hlength := length_signedDigits x
  rw [hexStringInt_eq G h hne]
  generalize (Nat.digits 16 x.natAbs).length = d at *
  rw [toInt32_eq (by omega)]
  have hnew : newString w ((d + 2 : Nat) : Int) = .ok (replicate (d + 2 + 1) 0) := by
    unfold newString
    rw [if_neg (by omega)]
    rw [if_neg (by push_cast; omega)]
    rfl
  rw [hnew]
  rw [ok_bind]
  unfold writeCStr
  rw [if_pos (by rw [length_replicate]; split at hlength <;> omega)]
  dsimp only [pure, Except.pure]
  rw [ok_bind]
  rw [strlen_signedDigits]
  rw [toInt32_eq (by split at hlength <;> omega)]
  rw [Int.toNat_natCast]
  rw [take_left]

theorem hexStringInt_of_not_fits (h : Represents w op x) (hne : x ≠ 0)
    (hlong : min (2 ^ 31 - 1) w.intIntobjMax < ((Nat.digits 16 x.natAbs).length + 2 : Int))
    (str : List UInt8) : hexStringInt G op ≠ .ok str := by
  have hlength := length_signedDigits x
  rw [hexStringInt_eq G h hne]
  generalize (Nat.digits 16 x.natAbs).length = d at *
  intro hok
  by_cases hneg : toInt32 (d + 2) < 0
  . unfold newString at hok
    rw [if_pos hneg] at hok
    cases hok
  . by_cases hlarge : toInt32 (d + 2) > w.intIntobjMax
    . unfold newString at hok
      rw [if_neg hneg] at hok
      rw [if_pos hlarge] at hok
      cases hok
    . -- The length is off by a multiple of `2 ^ 32`, there is no room for the digits.
      have hwrap : (toInt32 (d + 2)).toNat < d := by
        unfold toInt32 at hneg hlarge ⊢
        split at hneg
        . omega
        . omega
      have hnew : newString w (toInt32 (d + 2))
          = .ok (replicate ((toInt32 (d + 2)).toNat + 1) 0) := by
        unfold newString
        rw [if_neg hneg]
        rw [if_neg hlarge]
        rfl
      rw [hnew] at hok
      rw [ok_bind] at hok
      unfold writeCStr at hok
      rw [if_neg (by rw [length_replicate]; omega)] at hok
      cases hok

def HexLengthFits (w : IntSize) (op : IntegerObj) : Prop :=
  (hexLength (w := w) op + 2 : Int) ≤ min (2 ^ 31 - 1) w.intIntobjMax

theorem readsBack_iff (h : IsCanonical w op)
    : ReadsBack G op ↔ HexLengthFits w op := by
  have hrep : Represents w op (val w op) := ⟨h, rfl⟩
  unfold ReadsBack HexLengthFits hexLength
  by_cases hzero : val w op = 0
  . rw [hzero] at hrep ⊢
    have hop : op = INTOBJ_INT w 0 := hrep.unique (represents_INTOBJ_INT (isSmall_zero w))
    constructor
    . intro _
      cases w <;> decide
    . intro _
      have hread := intHexString_eq (w := w) ['0'.toUInt8]
      rw [if_pos (by decide)] at hread
      rcases hread with ⟨res, hres⟩
      refine ⟨['0'.toUInt8], ?_, ?_⟩
      . unfold hexStringInt stringIntBase
        rw [if_pos hop]
        rfl
      . rw [hres.1]
        congr 1
        apply hres.2.unique
        exact hrep
  . constructor
    . intro hback
      by_contra hlong
      rw [not_le] at hlong
      rcases hback with ⟨str, hstr⟩
      exact hexStringInt_of_not_fits G hrep hzero hlong str hstr.1
    . intro hfits
      rcases intHexString_signedDigits (w := w) (val w op) with ⟨res, hres⟩
      refine ⟨_, hexStringInt_of_fits G hrep hzero hfits, ?_⟩
      rw [hres.1]
      rw [hres.2.unique hrep]

end Write

theorem hexString_iff (G : GmpRadix w)
    : (∀ str, ReadsHex w str ↔ (∀ b ∈ hexBody str, ¬ IsBetween b)
          ∨ ∃ b ∈ hexBody str, hexDigit? b = none ∧ ¬ IsBetween b)
        ∧ ∀ op, IsCanonical w op → (ReadsBack G op ↔ HexLengthFits w op) := by
  constructor
  . apply readsHex_iff
  . intro op h
    apply readsBack_iff G h

def valueRadix (w : IntSize) : GmpRadix w where
  mpzSizeinbase v base := (Nat.digits base (v.val w).natAbs).length
  mpzGetStr base v := signedDigits base.natAbs (v.val w)
  mpzSizeinbase_eq _ _ _ := by dsimp only
  mpzGetStr_eq _ _ _ _ _ _ := by
    rw [Int.natAbs_neg]
    rw [Int.natAbs_natCast]

theorem hexString_iff_three
    : ReadsHex .int8 ['3'.toUInt8] ∧ ReadsBack (valueRadix .int8) (.intobj (4 * 3 + 1)) := by
  have h := hexString_iff (valueRadix .int8)
  constructor
  . apply (h.1 ['3'.toUInt8]).2
    left
    intro b hb
    have hbody : b ∈ ['3'.toUInt8] := hb
    rw [List.mem_singleton] at hbody
    rw [hbody]
    decide
  . rw [h.2]
    . unfold HexLengthFits hexLength
      simp only [val, INT_INTOBJ_eq]
      rw [show Int.natAbs 3 = 3 by decide]
      rw [Nat.digits_of_lt 16 3 (by omega) (by omega)]
      decide
    . exact ⟨3, by decide, by decide⟩

theorem not_readsHex_colon : ¬ ReadsHex .int8 [':'.toUInt8] := by
  rw [readsHex_iff]
  decide

end Integer
