import GapKernel.Integer.Impl.Hex
import GapKernel.Integer.Lemmas.Value

open List Nat

namespace Integer

variable {w : IntSize}

def hexDigit? (b : UInt8) : Option Nat :=
  if 48 ≤ b.toNat ∧ b.toNat ≤ 57 then some (b.toNat - 48)
  else if 65 ≤ b.toNat ∧ b.toNat ≤ 70 then some (b.toNat - 55)
  else if 97 ≤ b.toNat ∧ b.toNat ≤ 102 then some (b.toNat - 87)
  else none

def IsBetween (b : UInt8) : Prop :=
  58 ≤ b.toNat ∧ b.toNat ≤ 63

instance (b : UInt8) : Decidable (IsBetween b) :=
  inferInstanceAs (Decidable (_ ∧ _))

section Decode

theorem toNat_hexDecode (b : UInt8)
    : (hexDecode b).toNat = if 97 ≤ b.toNat then b.toNat - 87
        else if 65 ≤ b.toNat then b.toNat - 55 else (b.toNat + 208) % 256 := by
  have hlt := b.toNat_lt
  unfold hexDecode
  simp only [ge_iff_le, UInt8.le_iff_toNat_le]
  have h97 : ('a'.toUInt8).toNat = 97 := by decide
  have h65 : ('A'.toUInt8).toNat = 65 := by decide
  have h48 : ('0'.toUInt8).toNat = 48 := by decide
  have h87 : ('a'.toUInt8 - 10).toNat = 87 := by decide
  have h55 : ('A'.toUInt8 - 10).toNat = 55 := by decide
  rw [h97]
  rw [h65]
  split
  . rw [UInt8.toNat_sub]
    rw [h87]
    omega
  . split
    . rw [UInt8.toNat_sub]
      rw [h55]
      omega
    . rw [UInt8.toNat_sub]
      rw [h48]
      omega

theorem hexDecode_of_some {b : UInt8} {d : Nat} (h : hexDigit? b = some d)
    : (hexDecode b).toNat = d ∧ d < 16 := by
  rw [toNat_hexDecode]
  unfold hexDigit? at h
  split at h
  . rw [Option.some.injEq] at h
    rw [if_neg (by omega)]
    rw [if_neg (by omega)]
    omega
  . split at h
    . rw [Option.some.injEq] at h
      rw [if_neg (by omega)]
      rw [if_pos (by omega)]
      omega
    . split at h
      . rw [Option.some.injEq] at h
        rw [if_pos (by omega)]
        omega
      . contradiction

theorem toNat_hexDecode_le_iff (b : UInt8)
    : (hexDecode b).toNat ≤ 15 ↔ hexDigit? b ≠ none ∨ IsBetween b := by
  have hlt := b.toNat_lt
  rw [toNat_hexDecode]
  unfold hexDigit? IsBetween
  split
  . split
    . omega
    . split
      . omega
      . split
        . simp
          omega
        . simp
          omega
  . split
    . split
      . omega
      . split
        . simp
          omega
        . split
          . omega
          . simp
            omega
    . split
      . simp
        omega
      . rw [if_neg (by omega)]
        rw [if_neg (by omega)]
        simp
        omega

theorem hexDigit?_of_isBetween {b : UInt8} (h : IsBetween b) : hexDigit? b = none := by
  unfold IsBetween at h
  unfold hexDigit?
  rw [if_neg (by omega)]
  rw [if_neg (by omega)]
  rw [if_neg (by omega)]

end Decode

section Value

def hexVal (l : List UInt8) : Nat :=
  Nat.ofDigits 16 ((l.map (fun b => (hexDecode b).toNat)).reverse)

def IsAccepted (l : List UInt8) : Prop :=
  ∀ b ∈ l, (hexDecode b).toNat ≤ 15

instance (l : List UInt8) : Decidable (IsAccepted l) :=
  List.decidableBAll (fun b => (hexDecode b).toNat ≤ 15) l

theorem isAccepted_append {l l' : List UInt8}
    : IsAccepted (l ++ l') ↔ IsAccepted l ∧ IsAccepted l' := by
  unfold IsAccepted
  exact forall_mem_append

theorem hexVal_cons (b : UInt8) (l : List UInt8)
    : hexVal (b :: l) = (hexDecode b).toNat * 16 ^ l.length + hexVal l := by
  unfold hexVal
  rw [map_cons]
  rw [reverse_cons]
  rw [ofDigits_append]
  rw [length_reverse]
  rw [length_map]
  rw [ofDigits_singleton]
  ring

theorem hexVal_append (l l' : List UInt8)
    : hexVal (l ++ l') = hexVal l * 16 ^ l'.length + hexVal l' := by
  unfold hexVal
  rw [map_append]
  rw [reverse_append]
  rw [ofDigits_append]
  rw [length_reverse]
  rw [length_map]
  ring

theorem hexVal_lt {l : List UInt8} (h : IsAccepted l) : hexVal l < 16 ^ l.length := by
  have hdigits : ∀ d ∈ (l.map (fun b => (hexDecode b).toNat)).reverse, d < 16 := by
    intro d hd
    rw [mem_reverse] at hd
    rw [mem_map] at hd
    rcases hd with ⟨b, hb⟩
    have := h b hb.1
    omega
  have hlt := ofDigits_lt_base_pow_length (by omega : 1 < 16) hdigits
  rw [length_reverse] at hlt
  rw [length_map] at hlt
  exact hlt

end Value

theorem hexstr2int_eq (p : List UInt8) (len n : Nat) (hlen : len ≤ p.length) (hn : n < w.limbBase)
    : hexstr2int w p len n
        = if IsAccepted (p.take len) then
            .ok ((n * 16 ^ len + hexVal (p.take len)) % w.limbBase)
          else
            .error hexFault := by
  induction len generalizing p n with
  | zero =>
    unfold hexstr2int
    rw [if_pos]
    . rw [pow_zero]
      rw [Nat.mul_one]
      rw [take_zero]
      rw [show hexVal [] = 0 by rfl]
      rw [Nat.add_zero]
      rw [mod_eq_of_lt hn]
      rfl
    . intro b hb
      contradiction
  | succ len ih =>
    cases p with
    | nil =>
      rw [length_nil] at hlen
      omega
    | cons b p =>
      rw [length_cons] at hlen
      have hB := one_lt_limbBase w
      have hgt : (15 : UInt8) < hexDecode b ↔ ¬ (hexDecode b).toNat ≤ 15 := by
        rw [UInt8.lt_iff_toNat_lt]
        rw [Nat.not_le]
        rfl
      unfold hexstr2int
      rw [take_succ_cons]
      dsimp only
      split
      . next hbad =>
        rw [if_neg]
        . rfl
        . intro haccept
          apply hgt.1 hbad
          apply haccept b mem_cons_self
      . next hgood =>
        rw [ih _ _ (by omega) (mod_lt _ (by omega))]
        have hiff : IsAccepted (b :: p.take len) ↔ IsAccepted (p.take len) := by
          unfold IsAccepted
          rw [forall_mem_cons]
          constructor
          . intro h
            exact h.2
          . intro h
            refine ⟨?_, h⟩
            by_contra hb
            exact hgood (hgt.2 hb)
        simp only [hiff]
        split
        . rw [hexVal_cons]
          rw [length_take_of_le (by omega)]
          congr 1
          rw [add_mod]
          rw [mod_mul_mod]
          rw [← add_mod]
          congr 1
          rw [pow_succ]
          ring
        . rfl

theorem hexstr2int_limb (p : List UInt8) (len : Nat) (hlen : len ≤ p.length)
    (hlimb : len ≤ hexPerLimb w)
    : hexstr2int w p len 0
        = if IsAccepted (p.take len) then .ok (hexVal (p.take len)) else .error hexFault := by
  have hB := one_lt_limbBase w
  rw [hexstr2int_eq p len 0 hlen (by omega)]
  split
  . next haccept =>
    have hlt := hexVal_lt haccept
    rw [length_take_of_le hlen] at hlt
    have hle : 16 ^ len ≤ w.limbBase := by
      calc 16 ^ len ≤ 16 ^ hexPerLimb w := Nat.pow_le_pow_right (by omega) hlimb
        _ = w.limbBase := by cases w <;> rfl
    rw [Nat.zero_mul]
    rw [Nat.zero_add]
    rw [mod_eq_of_lt (by omega)]
  . rfl

section Limbs

def hexLimbs (w : IntSize) (p : List UInt8) : Nat → List Nat
  | 0 => []
  | r + 1 => hexLimbs w (p.drop (hexPerLimb w)) r ++ [hexVal (p.take (hexPerLimb w))]

theorem hexLimbs_succ (p : List UInt8) (r : Nat)
    : hexLimbs w p (r + 1)
        = hexLimbs w (p.drop (hexPerLimb w)) r ++ [hexVal (p.take (hexPerLimb w))] :=
  rfl

@[simp]
theorem length_hexLimbs (p : List UInt8) (r : Nat) : (hexLimbs w p r).length = r := by
  induction r generalizing p with
  | zero => rfl
  | succ r ih =>
    unfold hexLimbs
    rw [length_append]
    rw [ih]
    rfl

theorem limbBase_eq_pow (w : IntSize) : w.limbBase = 16 ^ hexPerLimb w := by
  cases w <;> rfl

theorem take_succ_limbs (p : List UInt8) (r : Nat)
    : p.take ((r + 1) * hexPerLimb w)
        = p.take (hexPerLimb w) ++ (p.drop (hexPerLimb w)).take (r * hexPerLimb w) := by
  rw [succ_mul]
  rw [Nat.add_comm]
  exact take_add

theorem ofLimbs_append (l l' : List Nat)
    : w.ofLimbs (l ++ l') = w.ofLimbs l + w.limbBase ^ l.length * w.ofLimbs l' := by
  apply ofDigits_append

theorem ofLimbs_hexLimbs (p : List UInt8) (r : Nat) (hlen : r * hexPerLimb w ≤ p.length)
    : w.ofLimbs (hexLimbs w p r) = hexVal (p.take (r * hexPerLimb w)) := by
  induction r generalizing p with
  | zero =>
    rw [Nat.zero_mul]
    rfl
  | succ r ih =>
    rw [succ_mul] at hlen
    unfold hexLimbs
    rw [take_succ_limbs]
    rw [hexVal_append]
    rw [ofLimbs_append]
    rw [ofLimbs_singleton]
    rw [length_hexLimbs]
    rw [ih _ (by rw [length_drop]; omega)]
    rw [length_take_of_le (by rw [length_drop]; omega)]
    rw [limbBase_eq_pow]
    rw [← pow_mul]
    rw [Nat.mul_comm (hexPerLimb w) r]
    ring

theorem areLimbs_hexLimbs (p : List UInt8) (r : Nat)
    (haccept : IsAccepted (p.take (r * hexPerLimb w)))
    : Limbs.AreLimbs w.limbBase (hexLimbs w p r) := by
  induction r generalizing p with
  | zero =>
    intro x hx
    contradiction
  | succ r ih =>
    rw [take_succ_limbs] at haccept
    rw [isAccepted_append] at haccept
    unfold hexLimbs
    intro x hx
    rw [mem_append] at hx
    cases hx with
    | inl hx => exact ih _ haccept.2 x hx
    | inr hx =>
      rw [mem_singleton] at hx
      have hlt := hexVal_lt haccept.1
      rw [hx]
      rw [limbBase_eq_pow]
      apply Nat.lt_of_lt_of_le hlt
      apply Nat.pow_le_pow_right
      . omega
      . apply length_take_le

theorem readLimbs_eq (p : List UInt8) (r : Nat) (limbs : List Nat) (fuel : Nat)
    (hlen : r * hexPerLimb w ≤ p.length) (hlimbs : r ≤ limbs.length) (hfuel : r < fuel)
    : readLimbs w p ((r * hexPerLimb w : Nat) : Int) limbs ((r : Int) - 1) fuel
        = if IsAccepted (p.take (r * hexPerLimb w)) then
            .ok (hexLimbs w p r ++ limbs.drop r)
          else
            .error hexFault := by
  induction r generalizing p limbs fuel with
  | zero =>
    cases fuel with
    | zero => omega
    | succ fuel =>
      unfold readLimbs
      rw [Nat.zero_mul]
      rw [if_pos (by omega)]
      rw [if_pos]
      . rfl
      . intro b hb
        contradiction
  | succ r ih =>
    cases fuel with
    | zero => omega
    | succ fuel =>
      have hk : 0 < hexPerLimb w := by cases w <;> decide
      rw [succ_mul] at hlen
      unfold readLimbs
      rw [if_neg (by rw [succ_mul]; omega)]
      rw [hexstr2int_limb p (hexPerLimb w) (by omega) (Nat.le_refl _)]
      rw [take_succ_limbs]
      simp only [isAccepted_append]
      by_cases hfirst : IsAccepted (p.take (hexPerLimb w))
      . rw [if_pos hfirst]
        rw [ok_bind]
        have hwrite : readLimbs.writeLimb limbs (((r + 1 : Nat) : Int) - 1)
              (hexVal (p.take (hexPerLimb w)))
            = .ok (limbs.set r (hexVal (p.take (hexPerLimb w)))) := by
          unfold readLimbs.writeLimb
          rw [if_pos (by omega)]
          rw [show (((r + 1 : Nat) : Int) - 1).toNat = r by omega]
          rfl
        rw [hwrite]
        rw [ok_bind]
        have hrest : (((r + 1) * hexPerLimb w : Nat) : Int) - hexPerLimb w
            = ((r * hexPerLimb w : Nat) : Int) := by
          rw [succ_mul]
          omega
        rw [hrest]
        rw [show (((r + 1 : Nat) : Int) - 1 - 1) = (r : Int) - 1 by omega]
        rw [ih]
        . have hset : (limbs.set r (hexVal (p.take (hexPerLimb w)))).drop r
              = hexVal (p.take (hexPerLimb w)) :: limbs.drop (r + 1) := by
            rw [drop_set]
            rw [if_neg (by omega)]
            rw [Nat.sub_self]
            rw [drop_eq_getElem_cons (by omega)]
            rfl
          rw [hset]
          rw [hexLimbs_succ]
          rw [append_assoc]
          simp [hfirst]
        . rw [length_drop]
          omega
        . rw [length_set]
          omega
        . omega
      . rw [if_neg hfirst]
        rw [if_neg]
        . rfl
        . intro h
          exact hfirst h.1

end Limbs

section Parse

theorem isAccepted_zero : (hexDecode '0'.toUInt8).toNat = 0 := by
  decide

theorem skipZeros_spec (str rest : List UInt8) (i : Nat) (hi : i ≤ str.length)
    : let j := skipZeros (str ++ rest) str.length i
      j ≤ str.length ∧ hexVal (str.drop j) = hexVal (str.drop i)
        ∧ (IsAccepted (str.drop j) ↔ IsAccepted (str.drop i)) := by
  generalize hk : str.length - i = k
  induction k generalizing i with
  | zero =>
    unfold skipZeros
    rw [if_neg (by omega)]
    simp [hi]
  | succ k ih =>
    have hlt : i < str.length := by omega
    unfold skipZeros
    split
    . next hzero =>
      have hrec := ih (i + 1) hlt (by omega)
      have hget : str[i] = '0'.toUInt8 := by
        have hz := hzero.1
        rw [getD_eq_getElem?_getD] at hz
        rw [getElem?_append_left hlt] at hz
        rw [getElem?_eq_getElem hlt] at hz
        exact hz
      rw [drop_eq_getElem_cons hlt]
      rw [hget]
      rw [hexVal_cons]
      rw [isAccepted_zero]
      rw [Nat.zero_mul]
      rw [Nat.zero_add]
      unfold IsAccepted at hrec ⊢
      rw [forall_mem_cons]
      rw [isAccepted_zero]
      simpa using hrec
    . simp [hi]

def hexSign (str : List UInt8) : Int :=
  if str.getD 0 0 = '-'.toUInt8 then -1 else 1

def hexBody (str : List UInt8) : List UInt8 :=
  if str.getD 0 0 = '-'.toUInt8 then str.drop 1 else str

theorem minusIntobjMin_eq_pow (w : IntSize) : w.minusIntobjMin = 16 ^ (w.nrSmallIntBits / 4) := by
  cases w <;> rfl

theorem represents_small {str : List UInt8} {sign : Int} (hsign : sign = 1 ∨ sign = -1)
    (haccept : IsAccepted str) (hlen : str.length * 4 ≤ w.nrSmallIntBits)
    : Represents w (INTOBJ_INT w (w.wrap (sign * hexVal str))) (sign * hexVal str) := by
  have hlt := hexVal_lt haccept
  have hle : 16 ^ str.length ≤ w.minusIntobjMin := by
    rw [minusIntobjMin_eq_pow]
    apply Nat.pow_le_pow_right
    . omega
    . omega
  have hsmall : w.IsSmall (sign * hexVal str) := by
    rw [isSmall_iff_lt]
    cases hsign with
    | inl hone =>
      rw [hone]
      omega
    | inr hminus =>
      rw [hminus]
      omega
  rw [w.wrap_of_isInt (IntSize.isInt_of_isSmall hsmall)]
  apply represents_INTOBJ_INT hsmall

theorem represents_large {limbs : List Nat} {sign : Int} (hsign : sign = 1 ∨ sign = -1)
    (hlimbs : Limbs.AreLimbs w.limbBase limbs) (hpos : 0 < limbs.length)
    : Represents w (gmpNormalize w (if sign = 1 then .intpos limbs else .intneg limbs))
        (sign * w.ofLimbs limbs) := by
  cases hsign with
  | inl hone =>
    rw [if_pos hone]
    rw [hone]
    rw [one_mul]
    apply gmpNormalize_intpos hlimbs hpos
  | inr hminus =>
    rw [if_neg (by omega)]
    rw [hminus]
    rw [neg_one_mul]
    apply gmpNormalize_intneg hlimbs hpos

theorem large_eq (p : List UInt8) (len nd diff : Nat) (hlen : len ≤ p.length) (hdiff : 0 < diff)
    (hle : diff ≤ hexPerLimb w) (heq : len = diff + nd * hexPerLimb w)
    : intHexString.large w p len (replicate (nd + 1) 0) nd diff
        = if IsAccepted (p.take len) then
            .ok (hexLimbs w (p.drop diff) nd ++ [hexVal (p.take diff)])
          else
            .error hexFault := by
  unfold intHexString.large
  rw [if_pos (by omega)]
  rw [hexstr2int_limb p diff (by omega) hle]
  rw [heq]
  rw [take_add]
  simp only [isAccepted_append]
  by_cases hfirst : IsAccepted (p.take diff)
  . rw [if_pos hfirst]
    rw [ok_bind]
    have hwrite : readLimbs.writeLimb (replicate (nd + 1) 0) (nd : Int) (hexVal (p.take diff))
        = .ok ((replicate (nd + 1) 0).set nd (hexVal (p.take diff))) := by
      unfold readLimbs.writeLimb
      rw [length_replicate]
      rw [if_pos (by omega)]
      rw [Int.toNat_natCast]
      rfl
    rw [hwrite]
    rw [ok_bind]
    rw [show ((diff + nd * hexPerLimb w : Nat) : Int) - diff = ((nd * hexPerLimb w : Nat) : Int) by
      omega]
    rw [readLimbs_eq]
    . have hset : ((replicate (nd + 1) 0).set nd (hexVal (p.take diff))).drop nd
          = [hexVal (p.take diff)] := by
        rw [drop_set]
        rw [if_neg (by omega)]
        rw [Nat.sub_self]
        rw [drop_replicate]
        rw [Nat.add_sub_cancel_left]
        rfl
      rw [hset]
      simp [hfirst]
    . rw [length_drop]
      omega
    . rw [length_set]
      rw [length_replicate]
      omega
    . omega
  . rw [if_neg hfirst]
    rw [if_neg]
    . rfl
    . intro h
      exact hfirst h.1

theorem ofLimbs_large {p : List UInt8} {len nd diff : Nat} (hlen : len ≤ p.length)
    (heq : len = diff + nd * hexPerLimb w)
    : w.ofLimbs (hexLimbs w (p.drop diff) nd ++ [hexVal (p.take diff)]) = hexVal (p.take len) := by
  have hrest : nd * hexPerLimb w ≤ (p.drop diff).length := by
    rw [length_drop]
    omega
  rw [heq]
  rw [take_add]
  rw [hexVal_append]
  rw [length_take_of_le hrest]
  rw [ofLimbs_append]
  rw [ofLimbs_singleton]
  rw [length_hexLimbs]
  rw [ofLimbs_hexLimbs _ _ hrest]
  rw [limbBase_eq_pow]
  rw [← pow_mul]
  rw [Nat.mul_comm (hexPerLimb w) nd]
  ring

theorem areLimbs_large {p : List UInt8} {len nd diff : Nat} (hle : diff ≤ hexPerLimb w)
    (heq : len = diff + nd * hexPerLimb w) (haccept : IsAccepted (p.take len))
    : Limbs.AreLimbs w.limbBase (hexLimbs w (p.drop diff) nd ++ [hexVal (p.take diff)]) := by
  rw [heq] at haccept
  rw [take_add] at haccept
  rw [isAccepted_append] at haccept
  intro x hx
  rw [mem_append] at hx
  cases hx with
  | inl hx => exact areLimbs_hexLimbs _ _ haccept.2 x hx
  | inr hx =>
    rw [mem_singleton] at hx
    have hlt := hexVal_lt haccept.1
    rw [hx]
    rw [limbBase_eq_pow]
    apply Nat.lt_of_lt_of_le hlt
    apply Nat.pow_le_pow_right
    . omega
    . apply Nat.le_trans (length_take_le _ _) hle

theorem hexSign_cases (str : List UInt8) : hexSign str = 1 ∨ hexSign str = -1 := by
  unfold hexSign
  split
  . right
    rfl
  . left
    rfl

theorem intHexString_eq (str : List UInt8)
    : if IsAccepted (hexBody str) then
        ∃ op, intHexString w str = .ok op ∧ Represents w op (hexSign str * hexVal (hexBody str))
      else
        intHexString w str = .error hexFault := by
  unfold intHexString
  cases str with
  | nil =>
    rw [if_pos]
    . exact ⟨_, rfl, represents_INTOBJ_INT (isSmall_zero w)⟩
    . intro b hb
      contradiction
  | cons a tail =>
    generalize hstr : a :: tail = str
    have hpos : 0 < str.length := by
      rw [← hstr]
      apply succ_pos
    have hhead : (str ++ [0]).getD 0 0 = str.getD 0 0 := by
      rw [← hstr]
      rfl
    have hbody : hexBody str
        = str.drop (if str.getD 0 0 = '-'.toUInt8 then 1 else 0) := by
      unfold hexBody
      split
      . rfl
      . rw [drop_zero]
    have hskip := skipZeros_spec str [0] (if str.getD 0 0 = '-'.toUInt8 then 1 else 0)
      (by split <;> omega)
    rw [← hbody] at hskip
    dsimp only at hskip ⊢
    rw [hhead]
    simp only [if_neg hpos.ne']
    rw [show (if str.getD 0 0 = '-'.toUInt8 then (-1 : Int) else 1) = hexSign str by rfl]
    generalize skipZeros (str ++ [0]) str.length (if str.getD 0 0 = '-'.toUInt8 then 1 else 0) = j
      at hskip ⊢
    have hlen : str.length - j ≤ ((str ++ [0]).drop j).length := by
      rw [length_drop]
      rw [length_append]
      omega
    have htake : ((str ++ [0]).drop j).take (str.length - j) = str.drop j := by
      rw [drop_append_of_le_length hskip.1]
      apply take_left'
      apply length_drop
    have hsign := hexSign_cases str
    rw [← hskip.2.1]
    simp only [← hskip.2.2]
    by_cases hsmall : (str.length - j) * 4 ≤ w.nrSmallIntBits
    . have hlimb : str.length - j ≤ hexPerLimb w := by
        cases w with
        | int4 =>
          simp only [IntSize.nrSmallIntBits, IntSize.bits, hexPerLimb] at *
          omega
        | int8 =>
          simp only [IntSize.nrSmallIntBits, IntSize.bits, hexPerLimb] at *
          omega
      simp only [if_pos hsmall, hexstr2int_limb _ _ hlen hlimb, htake]
      by_cases haccept : IsAccepted (str.drop j)
      . simp only [if_pos haccept]
        refine ⟨_, rfl, ?_⟩
        apply represents_small hsign haccept
        rw [length_drop]
        exact hsmall
      . simp only [if_neg haccept]
        rfl
    . have hk : 0 < hexPerLimb w := by cases w <;> decide
      have hdiv := div_add_mod (str.length - j - 1) (hexPerLimb w)
      have hmod := mod_lt (str.length - j - 1) hk
      simp only [if_neg hsmall]
      generalize (str.length - j - 1) / hexPerLimb w = nd at hdiv ⊢
      rw [Nat.mul_comm] at hdiv
      have hdiff : str.length - j = (str.length - j - nd * hexPerLimb w) + nd * hexPerLimb w := by
        omega
      have hdiffle : str.length - j - nd * hexPerLimb w ≤ hexPerLimb w := by omega
      have hdiffpos : 0 < str.length - j - nd * hexPerLimb w := by omega
      simp only [large_eq _ _ _ _ hlen hdiffpos hdiffle hdiff, htake]
      by_cases haccept : IsAccepted (str.drop j)
      . simp only [if_pos haccept]
        refine ⟨_, rfl, ?_⟩
        rw [← htake]
        rw [← ofLimbs_large hlen hdiff]
        apply represents_large hsign
        . apply areLimbs_large hdiffle hdiff
          rw [htake]
          exact haccept
        . rw [length_append]
          apply succ_pos
      . simp only [if_neg haccept]
        rfl

end Parse

end Integer
