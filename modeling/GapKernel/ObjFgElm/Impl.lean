import GapKernel.FreeWord.Syllable
import GapKernel.IntObj
import Mathlib.Data.Nat.Bitwise

/-!
This module contains the packed representation of associative words: a word is an array of
generator/exponent pairs, each of them one machine field that holds the generator number in its
upper bits and the exponent in two's complement in its lower bits. The comparisons are those of
`NBits_Equal` and `NBits_Less`.
-/

open Nat

/--
What the type of an associative word tells about its pairs. At least one bit is left for the
generator number, see `StoreInfoFreeMagma`.
-/
structure WordType where
  /-- `AWP_NR_BITS_PAIR`, the number of bits of a pair. -/
  bits : Nat
  /-- `AWP_NR_BITS_EXP`, the number of bits of an exponent. -/
  ebits : Nat
  bits_eq : bits = 8 ∨ bits = 16 ∨ bits = 32
  ebits_pos : 0 < ebits
  ebits_lt : ebits < bits
  deriving DecidableEq, Repr

namespace WordType

def exps (t : WordType) : Nat :=
  1 <<< (t.ebits - 1)

def expm (t : WordType) : Nat :=
  t.exps - 1

def sepm (t : WordType) : Nat :=
  (1 <<< t.ebits) - 1

def genm (t : WordType) : Nat :=
  ((1 <<< (t.bits - t.ebits)) - 1) <<< t.ebits

def extRep (t : WordType) (p : Nat) : Nat × Int :=
  ((p >>> t.ebits) + 1,
    if p &&& t.exps ≠ 0 then
      ((p &&& t.expm : Nat) : Int) - t.exps
    else
      ((p &&& t.expm : Nat) : Int))

/--
`NBits_ExtRepOfObj`, with the flat list of the source grouped into pairs.
-/
def nBitsExtRepOfObj (t : WordType) (obj : List Nat) : List (Nat × Int) :=
  obj.map t.extRep

@[simp]
theorem nBitsExtRepOfObj_nil (t : WordType) : t.nBitsExtRepOfObj [] = [] := by
  rfl

@[simp]
theorem nBitsExtRepOfObj_cons (t : WordType) (p : Nat) (l : List Nat)
    : t.nBitsExtRepOfObj (p :: l) = t.extRep p :: t.nBitsExtRepOfObj l := by
  rfl

@[simp]
theorem nBitsExtRepOfObj_append (t : WordType) (l r : List Nat)
    : t.nBitsExtRepOfObj (l ++ r) = t.nBitsExtRepOfObj l ++ t.nBitsExtRepOfObj r := by
  simp [nBitsExtRepOfObj]

@[simp]
theorem nBitsExtRepOfObj_reverse (t : WordType) (l : List Nat)
    : t.nBitsExtRepOfObj l.reverse = (t.nBitsExtRepOfObj l).reverse := by
  simp [nBitsExtRepOfObj]

def field (t : WordType) (p : Nat) : Nat :=
  p % 2 ^ t.ebits

def gen (t : WordType) (p : Nat) : Nat :=
  p / 2 ^ t.ebits

theorem two_pow_ebits (t : WordType) : 2 ^ t.ebits = 2 * 2 ^ (t.ebits - 1) := by
  have := t.ebits_pos
  rw [← Nat.pow_succ']
  congr 1
  omega

theorem field_lt (t : WordType) (p : Nat) : t.field p < 2 ^ t.ebits := by
  apply mod_lt
  exact Nat.two_pow_pos t.ebits

theorem gen_field (t : WordType) (p : Nat) : 2 ^ t.ebits * t.gen p + t.field p = p := by
  exact div_add_mod p (2 ^ t.ebits)

variable {p : Nat}

theorem gen_lt (t : WordType) (h : p < 2 ^ t.bits)
    : t.gen p < 2 ^ (t.bits - t.ebits) := by
  apply Nat.div_lt_of_lt_mul
  rw [← Nat.pow_add]
  have := t.ebits_lt
  rwa [Nat.add_sub_cancel' this.le]

@[simp]
theorem exps_eq (t : WordType) : t.exps = 2 ^ (t.ebits - 1) := by
  simp [exps, one_shiftLeft]

@[simp]
theorem expm_eq (t : WordType) : t.expm = 2 ^ (t.ebits - 1) - 1 := by
  simp [expm]

@[simp]
theorem sepm_eq (t : WordType) : t.sepm = 2 ^ t.ebits - 1 := by
  simp [sepm, one_shiftLeft]

theorem and_expm (t : WordType) (p : Nat) : p &&& t.expm = t.field p % 2 ^ (t.ebits - 1) := by
  rw [expm_eq, and_two_pow_sub_one_eq_mod, field, two_pow_ebits, Nat.mul_comm]
  rw [mod_mul_right_mod]

theorem testBit_sign (t : WordType) (p : Nat)
    : p.testBit (t.ebits - 1) = decide (2 ^ (t.ebits - 1) ≤ t.field p) := by
  have : p.testBit (t.ebits - 1) = (t.field p).testBit (t.ebits - 1) := by
    have := t.ebits_pos
    unfold field
    rw [testBit_mod_two_pow]
    simp only [Bool.eq_and_self, decide_eq_true_eq]
    omega
  rw [this]
  have hlt := t.field_lt p
  rw [two_pow_ebits] at hlt
  by_cases h : 2 ^ (t.ebits - 1) ≤ t.field p
  . rw [testBit_of_two_pow_le_and_two_pow_add_one_gt h]
    . simp [h]
    . rw [Nat.pow_succ]
      omega
  . rw [testBit_eq_false_of_lt]
    . simp [h]
    . omega

theorem and_exps (t : WordType) (p : Nat)
    : p &&& t.exps = if 2 ^ (t.ebits - 1) ≤ t.field p then 2 ^ (t.ebits - 1) else 0 := by
  rw [exps_eq, and_two_pow, testBit_sign]
  split <;> simp [*]

@[simp]
theorem and_exps_ne_zero (t : WordType) (p : Nat)
    : p &&& t.exps ≠ 0 ↔ 2 ^ (t.ebits - 1) ≤ t.field p := by
  rw [and_exps]
  split
  . simp [*]
  . simp [*]

theorem and_genm (t : WordType) (h : p < 2 ^ t.bits)
    : p &&& t.genm = 2 ^ t.ebits * t.gen p := by
  have hgen : p &&& t.genm = (p >>> t.ebits &&& (2 ^ (t.bits - t.ebits) - 1)) <<< t.ebits := by
    apply eq_of_testBit_eq
    intro i
    simp only [genm, one_shiftLeft, testBit_and, testBit_shiftLeft,
      testBit_shiftRight]
    by_cases hi : t.ebits ≤ i
    . simp only [ge_iff_le, hi, decide_true, Bool.true_and]
      congr 2
      omega
    . simp [hi]
  rw [hgen, and_two_pow_sub_one_eq_mod, shiftRight_eq_div_pow, shiftLeft_eq]
  have hmod := mod_eq_of_lt (t.gen_lt h)
  unfold gen at *
  rw [hmod, Nat.mul_comm]

def signed (t : WordType) (f : Nat) : Int :=
  if 2 ^ (t.ebits - 1) ≤ f then (f : Int) - 2 ^ t.ebits else f

theorem extRep_eq (t : WordType) (p : Nat)
    : t.extRep p = (t.gen p + 1, t.signed (t.field p)) := by
  have hlt := t.field_lt p
  have h2 := t.two_pow_ebits
  unfold extRep
  simp only [and_exps_ne_zero, and_expm, gen, shiftRight_eq_div_pow, Prod.mk.injEq, true_and]
  unfold signed
  split
  . next h =>
    have : t.field p % 2 ^ (t.ebits - 1) = t.field p - 2 ^ (t.ebits - 1) := by
      rw [mod_eq_sub_mod h, mod_eq_of_lt]
      omega
    rw [this, exps_eq]
    have h2' : (2 : Int) ^ t.ebits = ((2 ^ t.ebits : Nat) : Int) := by norm_cast
    rw [h2', h2]
    omega
  . next h =>
    rw [mod_eq_of_lt]
    omega

theorem signed_injective (t : WordType) {f g : Nat} (hf : f < 2 ^ t.ebits) (hg : g < 2 ^ t.ebits)
    (h : t.signed f = t.signed g)
    : f = g := by
  have h2' : (2 : Int) ^ t.ebits = ((2 ^ t.ebits : Nat) : Int) := by norm_cast
  unfold signed at h
  split at h <;> split at h <;> omega

variable {q : Nat}

section

variable (t : WordType)

include t

theorem extRep_injective (h : t.extRep p = t.extRep q) : p = q := by
  simp only [extRep_eq, Prod.mk.injEq, Nat.add_right_cancel_iff] at h
  have hfield := t.signed_injective (t.field_lt p) (t.field_lt q) h.2
  rw [← t.gen_field p, ← t.gen_field q, h.1, hfield]

theorem and_genm_inj (hp : p < 2 ^ t.bits) (hq : q < 2 ^ t.bits)
    : p &&& t.genm = q &&& t.genm ↔ (t.extRep p).1 = (t.extRep q).1 := by
  simp [t.and_genm hp, t.and_genm hq, extRep_eq]

theorem and_genm_lt (hp : p < 2 ^ t.bits) (hq : q < 2 ^ t.bits)
    : p &&& t.genm < q &&& t.genm ↔ (t.extRep p).1 < (t.extRep q).1 := by
  simp [t.and_genm hp, t.and_genm hq, extRep_eq]

theorem and_exps_ne_zero_iff (p : Nat)
    : p &&& t.exps ≠ 0 ↔ (t.extRep p).2 < 0 := by
  have hlt := t.field_lt p
  have h2' : (2 : Int) ^ t.ebits = ((2 ^ t.ebits : Nat) : Int) := by norm_cast
  simp only [and_exps_ne_zero, extRep_eq, signed]
  split <;> omega

theorem and_exps_inj (p q : Nat)
    : p &&& t.exps = q &&& t.exps ↔ ((t.extRep p).2 < 0 ↔ (t.extRep q).2 < 0) := by
  rw [← and_exps_ne_zero_iff, ← and_exps_ne_zero_iff, and_exps_ne_zero, and_exps_ne_zero]
  rw [and_exps, and_exps]
  split <;> split <;> simp_all <;> omega

end

def unsignedExp (t : WordType) (p : Nat) : Nat :=
  if p &&& t.exps ≠ 0 then t.exps - (p &&& t.expm) else p &&& t.expm

theorem unsignedExp_eq (t : WordType) (p : Nat) : t.unsignedExp p = (t.extRep p).2.natAbs := by
  have hexpm : p &&& t.expm < t.exps := by
    rw [and_expm, exps_eq]
    apply mod_lt
    exact Nat.two_pow_pos (t.ebits - 1)
  unfold unsignedExp extRep
  split
  . simp only [*]
    omega
  . simp only [*]
    omega

structure IsPair (t : WordType) (p : Nat) : Prop where
  lt_two_pow : p < 2 ^ t.bits
  exp_ne : (t.extRep p).2 ≠ 0
  natAbs_le : (t.extRep p).2.natAbs ≤ t.expm

end WordType

/--
An associative word of one family that is freely reduced and whose exponents lie in the
symmetric range `-expm..expm`.
-/
structure ReducedWord (t : WordType) where
  data : List Nat
  lt_two_pow : ∀ p ∈ data, p < 2 ^ t.bits
  isReduced : FreeWord.IsReduced (t.nBitsExtRepOfObj data)
  natAbs_le : ∀ p ∈ data, (t.extRep p).2.natAbs ≤ t.expm

namespace ReducedWord

variable {t : WordType}

def syllables (w : ReducedWord t) : List (Nat × Int) :=
  t.nBitsExtRepOfObj w.data

theorem isPair (w : ReducedWord t) : ∀ p ∈ w.data, t.IsPair p := by
  intro p hp
  constructor
  . exact w.lt_two_pow p hp
  . apply w.isReduced.exp_ne
    exact List.mem_map_of_mem hp
  . exact w.natAbs_le p hp

theorem isReduced_syllables (w : ReducedWord t) : FreeWord.IsReduced w.syllables := by
  exact w.isReduced

def eval (w : ReducedWord t) : FreeGroup Nat :=
  FreeWord.eval w.syllables

end ReducedWord

namespace ObjFgElm

def nBitsEqual (l r : List Nat) : Bool :=
  if l.length ≠ r.length then
    false
  else
    go l r
where
  go (l r : List Nat) : Bool :=
    match l, r with
    | pl :: l, pr :: r => if pl ≠ pr then false else go l r
    | _, _ => true

def nBitsLess (t : WordType) (l r : List Nat) : Bool :=
  if l.length = 0 ∨ r.length = 0 then
    r.length ≠ 0
  else
    go t l r
where
  -- The loop that skips the common prefix, `lexico` is still `False` here.
  go (t : WordType) (l r : List Nat) : Bool :=
    match l, r with
    | pl :: l, pr :: r =>
      if pl ≠ pr then
        if pl &&& t.genm ≠ pr &&& t.genm then
          rest t (pl &&& t.genm < pr &&& t.genm) (pl :: l) (pr :: r)
        else
          let exl := t.unsignedExp pl
          let exr := t.unsignedExp pr
          if exl = exr ∧ pl &&& t.exps ≠ pr &&& t.exps then
            rest t (pl &&& t.exps ≠ 0) (pl :: l) (pr :: r)
          else if exl > exr then
            match r with
            | pr' :: _ => rest t (pl &&& t.genm < pr' &&& t.genm) (pl :: l) (pr :: r)
            | [] => false
          else
            match l with
            | pl' :: _ => rest t (pl' &&& t.genm < pr &&& t.genm) (pl :: l) (pr :: r)
            | [] => true
      else
        go t l r
    | l, r => rest t false l r
  -- The lengths of the rest, `lexico` breaks the tie.
  rest (t : WordType) (lexico : Bool) (l r : List Nat) : Bool :=
    let ll := (l.map t.unsignedExp).sum
    let lr := (r.map t.unsignedExp).sum
    if ll = lr then lexico else ll < lr

end ObjFgElm

/-!
This section contains the products and quotients of packed words, `NBits_Product` and
`NBits_Quotient`. The pointers that run through the data area of a word are lists here: one that
runs upwards is the list of the pairs it has not passed yet, one that runs downwards is this list
with the pair it points to in front. The result `none` is `TRY_NEXT_METHOD`, and `NewWord` is taken
to succeed.
-/

namespace ObjFgElm

def setExp (t : WordType) (p : Nat) (ex : Int) : Nat :=
  (p &&& t.genm) ||| (ex % 2 ^ t.ebits).toNat

def overflows (t : WordType) (ex : Int) : Prop :=
  (0 < ex ∧ t.expm < ex) ∨ (ex < 0 ∧ t.expm < -ex)

instance (t : WordType) (ex : Int) : Decidable (overflows t ex) :=
  inferInstanceAs (Decidable ((0 < ex ∧ (t.expm : Int) < ex) ∨ (ex < 0 ∧ (t.expm : Int) < -ex)))

def nBitsProduct (t : WordType) (l r : List Nat) : Option (List Nat) :=
  if l.length = 0 then
    some r
  else if r.length = 0 then
    some l
  else
    match go t l.reverse r with
    | (pl :: l, pr :: r) =>
      if pl &&& t.genm = pr &&& t.genm then
        let ex : Int := ((pl &&& t.expm) + (pr &&& t.expm) : Nat)
        let ex := if pl &&& t.exps ≠ 0 then ex - t.exps else ex
        let ex := if pr &&& t.exps ≠ 0 then ex - t.exps else ex
        if overflows t ex then
          none
        else
          some (l.reverse ++ setExp t pl ex :: r)
      else
        some (l.reverse ++ pl :: pr :: r)
    | (l, r) => some (l.reverse ++ r)
where
  -- The loop that looks at the meeting point, `l` runs downwards.
  go (t : WordType) (l r : List Nat) : List Nat × List Nat :=
    match l, r with
    | pl :: l, pr :: r =>
      if pl &&& t.genm = pr &&& t.genm then
        if pl &&& t.exps = pr &&& t.exps then
          (pl :: l, pr :: r)
        else if (pl &&& t.expm) + (pr &&& t.expm) ≠ t.exps then
          (pl :: l, pr :: r)
        else
          go t l r
      else
        (pl :: l, pr :: r)
    | l, r => (l, r)

def nBitsQuotient (t : WordType) (l r : List Nat) : Option (List Nat) :=
  if r.length = 0 then
    some l
  else
    match go t l.reverse r.reverse with
    | (pl :: l, pr :: r) =>
      if pl &&& t.genm = pr &&& t.genm then
        let ex : Int := (pl &&& t.expm : Nat) - (pr &&& t.expm : Nat)
        let ex := if pl &&& t.exps ≠ 0 then ex - t.exps else ex
        let ex := if pr &&& t.exps ≠ 0 then ex + t.exps else ex
        if overflows t ex then
          none
        else
          some (l.reverse ++ setExp t pl ex :: r.map (invert t))
      else
        some (l.reverse ++ pl :: (pr :: r).map (invert t))
    | (l, r) => some (l.reverse ++ r.map (invert t))
where
  -- The loop that looks at the meeting point, `l` and `r` run downwards.
  go (t : WordType) (l r : List Nat) : List Nat × List Nat :=
    match l, r with
    | pl :: l, pr :: r =>
      if pl &&& t.genm = pr &&& t.genm then
        if pl &&& t.exps ≠ pr &&& t.exps then
          (pl :: l, pr :: r)
        else if pl &&& t.expm ≠ pr &&& t.expm then
          (pl :: l, pr :: r)
        else
          go t l r
      else
        (pl :: l, pr :: r)
    | l, r => (l, r)
  -- `(*pr&genm) | (exps-(*pr&expm)) | (~*pr & exps)`
  invert (t : WordType) (pr : Nat) : Nat :=
    (pr &&& t.genm) ||| (t.exps - (pr &&& t.expm)) ||| ((pr ^^^ (2 ^ t.bits - 1)) &&& t.exps)

end ObjFgElm

/-!
This section contains the powers of packed words, `NBits_Power`. The result `none` is
`TRY_NEXT_METHOD`, and `NewWord` is taken to succeed and to provide the pairs that are written.
-/

namespace ObjFgElm

/--
`OverflowType<UIntN>`, an `Int` for pairs of 8 and 16 bits and an `Int8` for pairs of 32 bits.
-/
def overflowType (w : IntSize) (t : WordType) : IntSize :=
  if t.bits = 32 then .int8 else w

def nBitsPower (w : IntSize) (t : WordType) (l : List Nat) (pow : Int) : Option (List Nat) :=
  let nl := l.length
  if nl = 0 then
    some l
  else if pow = 0 then
    some []
  else if pow = 1 then
    some l
  else if pow = -1 then
    some (l.map (invert t)).reverse
  else
    -- The word is `w * h * w^-1` and `h` is at the positions from `sl` to `sr`.
    let sl := split t l l.reverse
    let sr := nl - 1 - sl
    if sl = sr then
      single w t l pow sr
    else if l.getD sl 0 &&& t.genm = l.getD sr 0 &&& t.genm then
      merge t l pow sl sr
    else
      some (general t l pow sl sr)
where
  -- The loop that splits the word, `pe` runs downwards. The result is `sl`.
  split (t : WordType) (pl pe : List Nat) : Nat :=
    match pl, pe with
    | p :: pl, q :: pe =>
      if p &&& t.genm = q &&& t.genm then
        if p &&& t.exps = q &&& t.exps then
          0
        else if (p &&& t.expm) + (q &&& t.expm) ≠ t.exps then
          0
        else
          split t pl pe + 1
      else
        0
    | _, _ => 0
  -- The special case `w * gi^n * w^-1`.
  single (w : IntSize) (t : WordType) (l : List Nat) (pow : Int) (sr : Nat) : Option (List Nat) :=
    let pl := l.getD sr 0
    let ex : Int := (pl &&& t.expm : Nat)
    let ex := if pl &&& t.exps ≠ 0 then ex - t.exps else ex
    let ex := (overflowType w t).wrap (ex * pow)
    if overflows t ex then
      none
    else
      some (l.set sr (setExp t (l.getD sr 0) ex))
  -- The special case `w * gj^x * t * gj^y * w^-1` with `x != -y`.
  merge (t : WordType) (l : List Nat) (pow : Int) (sl sr : Nat) : Option (List Nat) :=
    let pl := l.getD sl 0
    let pe := l.getD sr 0
    let ex : Int := ((pl &&& t.expm) + (pe &&& t.expm) : Nat)
    let ex := if pl &&& t.exps ≠ 0 then ex - t.exps else ex
    let ex := if pe &&& t.exps ≠ 0 then ex - t.exps else ex
    if overflows t ex then
      none
    else if 0 < pow then
      let obj := l.take (sl + 1)
      let copy := setLast (l.extract (sl + 1) (sr + 1)) fun pr => setExp t pr ex
      let obj := obj ++ (List.replicate pow.natAbs copy).flatten
      some (setLast obj (fun _ => l.getD sr 0) ++ l.drop (sr + 1))
    else
      let obj := setLast (l.take (sl + 1)) fun _ => invert t (l.getD sr 0)
      let copy := ((l.extract sl sr).map (invert t)).reverse
      let copy := setLast copy fun pr => setExp t pr (-ex)
      let obj := obj ++ (List.replicate pow.natAbs copy).flatten
      some (setLast obj (fun _ => invert t (l.getD sl 0)) ++ l.drop (sr + 1))
  -- The general case `w * t * w^-1`.
  general (t : WordType) (l : List Nat) (pow : Int) (sl sr : Nat) : List Nat :=
    let copy :=
      if 0 < pow then
        l.extract sl (sr + 1)
      else
        ((l.extract sl (sr + 1)).map (invert t)).reverse
    l.take sl ++ (List.replicate pow.natAbs copy).flatten ++ l.drop (sr + 1)
  -- `( *pl ^ invm ) + 1` in a pair.
  invert (t : WordType) (p : Nat) : Nat :=
    ((p ^^^ t.sepm) + 1) % 2 ^ t.bits
  -- The assignment to `pr[-1]`.
  setLast (obj : List Nat) (f : Nat → Nat) : List Nat :=
    match obj with
    | [] => []
    | [p] => [f p]
    | p :: obj => p :: setLast obj f

end ObjFgElm
