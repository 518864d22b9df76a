import GapKernel.FreeWord.Product
import GapKernel.ObjFgElm.Lemmas.Less

open FreeWord List Nat Int

namespace WordType

variable {f : Nat}

theorem gen_pair (t : WordType) (g : Nat) (hf : f < 2 ^ t.ebits)
    : t.gen (2 ^ t.ebits * g + f) = g := by
  unfold gen
  rw [mul_add_div (Nat.two_pow_pos t.ebits), div_eq_of_lt hf, Nat.add_zero]

theorem field_pair (t : WordType) (g : Nat) (hf : f < 2 ^ t.ebits)
    : t.field (2 ^ t.ebits * g + f) = f := by
  unfold field
  rw [mul_add_mod, mod_eq_of_lt hf]

section

variable (t : WordType) {p : Nat} (hp : p < 2 ^ t.bits) (hf : f < 2 ^ t.ebits)

include t hp hf

theorem genm_or
    : (p &&& t.genm) ||| f = 2 ^ t.ebits * t.gen p + f := by
  rw [t.and_genm hp]
  exact (two_pow_add_eq_or_of_lt hf (t.gen p)).symm

theorem pair_lt
    : 2 ^ t.ebits * t.gen p + f < 2 ^ t.bits := by
  have hgen := t.gen_lt hp
  have hbits : 2 ^ t.bits = 2 ^ t.ebits * 2 ^ (t.bits - t.ebits) := by
    rw [← Nat.pow_add]
    have := t.ebits_lt
    congr 1
    omega
  calc
    2 ^ t.ebits * t.gen p + f < 2 ^ t.ebits * (t.gen p + 1) := by
      rw [Nat.mul_add_one]
      omega
    _ ≤ 2 ^ t.ebits * 2 ^ (t.bits - t.ebits) := Nat.mul_le_mul_left _ hgen
    _ = 2 ^ t.bits := hbits.symm

end

def unsigned (t : WordType) (e : Int) : Nat :=
  (e % 2 ^ t.ebits).toNat

theorem cast_two_pow_ebits (t : WordType)
    : (2 : Int) ^ t.ebits = ((2 ^ t.ebits : Nat) : Int) := by
  norm_cast

theorem unsigned_lt (t : WordType) (e : Int) : t.unsigned e < 2 ^ t.ebits := by
  have hpos : (0 : Int) < 2 ^ t.ebits := by positivity
  have hlt := emod_lt_of_pos e hpos
  have hnonneg := emod_nonneg e hpos.ne'
  unfold unsigned
  rw [toNat_lt hnonneg]
  exact hlt

variable {e : Int}

variable (t : WordType)

include t

theorem unsigned_of_nonneg (h0 : 0 ≤ e) (h : e.natAbs ≤ t.expm)
    : t.unsigned e = e.toNat := by
  have h2 := t.two_pow_ebits
  have hpos := Nat.two_pow_pos (t.ebits - 1)
  rw [expm_eq] at h
  unfold unsigned
  rw [emod_eq_of_lt h0]
  rw [t.cast_two_pow_ebits, h2]
  omega

theorem unsigned_of_neg (h0 : e < 0) (h : e.natAbs ≤ t.expm)
    : t.unsigned e = 2 ^ t.ebits - e.natAbs := by
  have h2 := t.two_pow_ebits
  rw [expm_eq] at h
  unfold unsigned
  rw [← add_emod_right, emod_eq_of_lt]
  . rw [t.cast_two_pow_ebits]
    omega
  . rw [t.cast_two_pow_ebits]
    omega
  . omega

theorem signed_unsigned (h : e.natAbs ≤ t.expm)
    : t.signed (t.unsigned e) = e := by
  have h2 := t.two_pow_ebits
  have h' := h
  rw [expm_eq] at h'
  unfold signed
  rw [t.cast_two_pow_ebits]
  by_cases h0 : 0 ≤ e
  . rw [t.unsigned_of_nonneg h0 h]
    split <;> omega
  . rw [t.unsigned_of_neg (by omega) h]
    split <;> omega

theorem cast_and_expm (p : Nat)
    : ((p &&& t.expm : Nat) : Int)
        =
      if (t.extRep p).2 < 0 then (t.extRep p).2 + t.exps else (t.extRep p).2 := by
  have hlt : p &&& t.expm < t.exps := by
    rw [and_expm, exps_eq]
    exact mod_lt _ (Nat.two_pow_pos _)
  unfold extRep
  split
  . next h =>
    rw [if_pos]
    . omega
    . omega
  . next h =>
    rw [if_neg]
    omega

theorem cast_exps : (t.exps : Int) = t.expm + 1 := by
  have := Nat.two_pow_pos (t.ebits - 1)
  rw [exps_eq, expm_eq]
  omega

end WordType

namespace ObjFgElm

variable {p : Nat}

section

variable (t : WordType)

include t

theorem setExp_eq (hp : p < 2 ^ t.bits) (ex : Int)
    : setExp t p ex = 2 ^ t.ebits * t.gen p + t.unsigned ex := by
  exact t.genm_or hp (t.unsigned_lt ex)

theorem setExp_lt (hp : p < 2 ^ t.bits) (ex : Int)
    : setExp t p ex < 2 ^ t.bits := by
  rw [setExp_eq t hp]
  exact t.pair_lt hp (t.unsigned_lt ex)

theorem extRep_setExp {ex : Int} (hp : p < 2 ^ t.bits) (hex : ex.natAbs ≤ t.expm)
    : t.extRep (setExp t p ex) = ((t.extRep p).1, ex) := by
  rw [setExp_eq t hp, t.extRep_eq, t.extRep_eq]
  rw [t.gen_pair _ (t.unsigned_lt ex), t.field_pair _ (t.unsigned_lt ex), t.signed_unsigned hex]

theorem overflows_iff (ex : Int) : overflows t ex ↔ t.expm < ex.natAbs := by
  unfold overflows
  omega

theorem xor_and_exps (p : Nat)
    : (p ^^^ (2 ^ t.bits - 1)) &&& t.exps = if (t.extRep p).2 < 0 then 0 else t.exps := by
  have hbit : (p ^^^ (2 ^ t.bits - 1)).testBit (t.ebits - 1) = !p.testBit (t.ebits - 1) := by
    have := t.ebits_lt
    rw [testBit_xor, testBit_two_pow_sub_one, decide_eq_true (by omega)]
    simp
  have hsign := t.and_exps_ne_zero_iff p
  rw [WordType.and_exps_ne_zero] at hsign
  rw [WordType.exps_eq, and_two_pow, hbit, t.testBit_sign]
  split
  . next h => simp [hsign.mpr h]
  . next h => simp [hsign.not.mpr h]

end

structure Inverts (t : WordType) (f : Nat → Nat) : Prop where
  isPair : ∀ {p}, t.IsPair p → t.IsPair (f p)
  extRep : ∀ {p}, t.IsPair p → t.extRep (f p) = neg (t.extRep p)

variable {t : WordType} {f : Nat → Nat}

theorem inverts_of_eq
    (h : ∀ p, t.IsPair p → f p = 2 ^ t.ebits * t.gen p + t.unsigned (-(t.extRep p).2))
    : Inverts t f := by
  have hext : ∀ {p}, t.IsPair p → t.extRep (f p) = neg (t.extRep p) := by
    intro p hp
    have := hp.natAbs_le
    rw [h p hp, t.extRep_eq]
    rw [t.gen_pair _ (t.unsigned_lt _), t.field_pair _ (t.unsigned_lt _), t.signed_unsigned]
    . simp [neg, t.extRep_eq]
    . omega
  refine ⟨?_, hext⟩
  intro p hp
  constructor
  . rw [h p hp]
    exact t.pair_lt hp.lt_two_pow (t.unsigned_lt _)
  . rw [hext hp]
    simpa [neg] using hp.exp_ne
  . rw [hext hp]
    simpa [neg] using hp.natAbs_le

section

variable (hf : Inverts t f) {l : List Nat} (hl : ∀ p ∈ l, t.IsPair p)

include hf hl

theorem Inverts.isPair_map
    : ∀ p ∈ l.map f, t.IsPair p := by
  intro p hp
  obtain ⟨q, hq, rfl⟩ := mem_map.mp hp
  exact hf.isPair (hl q hq)

theorem Inverts.extRep_map
    : t.nBitsExtRepOfObj (l.map f) = (t.nBitsExtRepOfObj l).map neg := by
  simp only [WordType.nBitsExtRepOfObj, map_map]
  apply map_congr_left
  intro p hp
  exact hf.extRep (hl p hp)

end

theorem quotient_invert_eq (hp : t.IsPair p)
    : nBitsQuotient.invert t p = 2 ^ t.ebits * t.gen p + t.unsigned (-(t.extRep p).2) := by
  have hexpm := t.cast_and_expm p
  have hexps := t.cast_exps
  have h2 := t.two_pow_ebits
  have hne := hp.exp_ne
  have hle := hp.natAbs_le
  have hneg : (-(t.extRep p).2).natAbs ≤ t.expm := by omega
  have hfield : (t.exps - (p &&& t.expm)) ||| ((p ^^^ (2 ^ t.bits - 1)) &&& t.exps)
      = t.unsigned (-(t.extRep p).2) := by
    rw [xor_and_exps]
    rw [← WordType.exps_eq] at h2
    split
    . next h =>
      rw [t.unsigned_of_nonneg (by omega) hneg, or_zero]
      rw [if_pos h] at hexpm
      omega
    . next h =>
      rw [if_neg h] at hexpm
      have hlt : t.exps - (p &&& t.expm) < 2 ^ (t.ebits - 1) := by
        rw [← WordType.exps_eq]
        omega
      have hor := two_pow_add_eq_or_of_lt hlt 1
      rw [Nat.mul_one, ← WordType.exps_eq] at hor
      rw [t.unsigned_of_neg (by omega) hneg, Nat.or_comm, ← hor]
      omega
  unfold nBitsQuotient.invert
  rw [Nat.or_assoc, hfield, t.genm_or hp.lt_two_pow (t.unsigned_lt _)]

theorem inverts_quotient_invert (t : WordType) : Inverts t (nBitsQuotient.invert t) := by
  apply inverts_of_eq
  intro p hp
  exact quotient_invert_eq hp

end ObjFgElm

open FreeWord

namespace ObjFgElm

def Packs (t : WordType) (m : List (Nat × Int)) (res : Option (List Nat)) : Prop :=
  match res with
  | some data => (∀ p ∈ data, t.IsPair p) ∧ t.nBitsExtRepOfObj data = m
  | none => ∃ s ∈ m, t.expm < s.2.natAbs

/--
A result of one of the operations stands for the element `x`: it is a reduced word for `x`, or it is
`TRY_NEXT_METHOD` and an exponent of the reduced word for `x` does not fit.
-/
def Computes (t : WordType) (x : FreeGroup Nat) (res : Option (List Nat)) : Prop :=
  match res with
  | some data => ∃ w : ReducedWord t, w.data = data ∧ w.eval = x
  | none => ∃ m, IsReduced m ∧ eval m = x ∧ ∃ s ∈ m, t.expm < s.2.natAbs

variable {t : WordType} {m : List (Nat × Int)}

theorem computes_of_packs {res : Option (List Nat)} (hm : IsReduced m) (h : Packs t m res)
    : Computes t (eval m) res := by
  cases res with
  | some data =>
    obtain ⟨hdata, rfl⟩ := h
    let w : ReducedWord t := {
      data := data
      lt_two_pow := fun p hp => (hdata p hp).lt_two_pow
      isReduced := hm
      natAbs_le := fun p hp => (hdata p hp).natAbs_le
    }
    exact ⟨w, rfl, rfl⟩
  | none => exact ⟨m, hm, rfl, h⟩

variable {l r : List Nat}

theorem isPair_of_suffix (h : l <:+ r) (hr : ∀ p ∈ r, t.IsPair p)
    : ∀ p ∈ l, t.IsPair p := by
  intro p hp
  exact hr p (h.subset hp)

variable {p : Nat}

theorem isPair_setExp {ex : Int} (hp : t.IsPair p) (hne : ex ≠ 0) (hex : ex.natAbs ≤ t.expm)
    : t.IsPair (setExp t p ex) := by
  constructor
  . exact setExp_lt t hp.lt_two_pow ex
  . rw [extRep_setExp t hp.lt_two_pow hex]
    exact hne
  . rw [extRep_setExp t hp.lt_two_pow hex]
    exact hex

theorem product_cancel_iff {q : Nat} (hp : t.IsPair p) (hq : t.IsPair q)
    : (p &&& t.genm = q &&& t.genm ∧ p &&& t.exps ≠ q &&& t.exps
        ∧ (p &&& t.expm) + (q &&& t.expm) = t.exps)
        ↔
      ((t.extRep p).1 = (t.extRep q).1 ∧ (t.extRep p).2 + (t.extRep q).2 = 0) := by
  have hpe := t.cast_and_expm p
  have hqe := t.cast_and_expm q
  have hq0 := hq.exp_ne
  have hexps := t.cast_exps
  rw [t.and_genm_inj hp.lt_two_pow hq.lt_two_pow, ne_eq, t.and_exps_inj]
  apply and_congr_right
  intro _
  split at hpe
  . split at hqe
    . omega
    . omega
  . split at hqe
    . omega
    . omega

theorem cancel_cons_of_pos {s t : Nat × Int} {l r : List (Nat × Int)}
    (h : s.1 = t.1 ∧ s.2 + t.2 = 0)
    : cancel (s :: l) (t :: r) = cancel l r := by
  rw [cancel, if_pos h]

theorem cancel_cons_of_neg {s t : Nat × Int} {l r : List (Nat × Int)}
    (h : ¬(s.1 = t.1 ∧ s.2 + t.2 = 0))
    : cancel (s :: l) (t :: r) = (s :: l, t :: r) := by
  rw [cancel, if_neg h]

theorem product_go_eq (hl : ∀ p ∈ l, t.IsPair p) (hr : ∀ p ∈ r, t.IsPair p)
    : (nBitsProduct.go t l r).map t.nBitsExtRepOfObj t.nBitsExtRepOfObj
        =
      cancel (t.nBitsExtRepOfObj l) (t.nBitsExtRepOfObj r) := by
  fun_induction nBitsProduct.go t l r with
  | case1 pl l pr r hg hs =>
    symm
    apply cancel_cons_of_neg
    rw [← product_cancel_iff (hl pl (by simp)) (hr pr (by simp))]
    intro h
    exact h.2.1 hs
  | case2 pl l pr r hg hs he =>
    symm
    apply cancel_cons_of_neg
    rw [← product_cancel_iff (hl pl (by simp)) (hr pr (by simp))]
    intro h
    exact he h.2.2
  | case3 pl l pr r hg hs he ih =>
    have hpos := (product_cancel_iff (hl pl (by simp)) (hr pr (by simp))).mp ⟨hg, hs, by simpa using he⟩
    rw [ih]
    . exact (cancel_cons_of_pos hpos).symm
    . intro p hp
      exact hl p (by simp [hp])
    . intro p hp
      exact hr p (by simp [hp])
  | case4 pl l pr r hg =>
    symm
    apply cancel_cons_of_neg
    rw [← product_cancel_iff (hl pl (by simp)) (hr pr (by simp))]
    intro h
    exact hg h.1
  | case5 l r hnil =>
    cases l with
    | nil => simp [cancel, WordType.nBitsExtRepOfObj]
    | cons pl l =>
      cases r with
      | nil => simp [cancel, WordType.nBitsExtRepOfObj]
      | cons pr r => exact absurd rfl (hnil pl l pr r rfl)

theorem product_go_suffix (t : WordType) (l r : List Nat)
    : (nBitsProduct.go t l r).1 <:+ l ∧ (nBitsProduct.go t l r).2 <:+ r := by
  fun_induction nBitsProduct.go t l r with
  | case3 pl l pr r hg hs he ih =>
    constructor
    . exact ih.1.trans (suffix_cons pl l)
    . exact ih.2.trans (suffix_cons pr r)
  | _ => simp

theorem product_ex_eq (t : WordType) (p q : Nat)
    : (let ex : Int := ((p &&& t.expm) + (q &&& t.expm) : Nat)
      let ex := if p &&& t.exps ≠ 0 then ex - t.exps else ex
      if q &&& t.exps ≠ 0 then ex - t.exps else ex)
        =
      (t.extRep p).2 + (t.extRep q).2 := by
  have hp := t.cast_and_expm p
  have hq := t.cast_and_expm q
  simp only [t.and_exps_ne_zero_iff]
  split <;> split <;> simp_all <;> omega

theorem packs_overlap {pl : Nat} {ex : Int} (hl : ∀ p ∈ pl :: l, t.IsPair p)
    (hr : ∀ p ∈ r, t.IsPair p) (hne : ex ≠ 0)
    (hm : m = (t.nBitsExtRepOfObj l).reverse ++ ((t.extRep pl).1, ex) :: t.nBitsExtRepOfObj r)
    : Packs t m (if overflows t ex then none else some (l.reverse ++ setExp t pl ex :: r)) := by
  subst hm
  have hpl := hl pl (by simp)
  split
  . next h =>
    refine ⟨((t.extRep pl).1, ex), by simp, ?_⟩
    exact (overflows_iff t ex).mp h
  . next h =>
    have hle : ex.natAbs ≤ t.expm := by
      rw [overflows_iff] at h
      omega
    constructor
    . intro p hp
      simp only [mem_append, mem_reverse, mem_cons] at hp
      rcases hp with hp | rfl | hp
      . exact hl p (by simp [hp])
      . exact isPair_setExp hpl hne hle
      . exact hr p hp
    . simp [WordType.nBitsExtRepOfObj, extRep_setExp t hpl.lt_two_pow hle]

theorem packs_self (w : ReducedWord t) : Packs t w.syllables (some w.data) := by
  exact ⟨w.isPair, rfl⟩

theorem packs_append (hl : ∀ p ∈ l, t.IsPair p) (hr : ∀ p ∈ r, t.IsPair p)
    (hm : m = (t.nBitsExtRepOfObj l).reverse ++ t.nBitsExtRepOfObj r)
    : Packs t m (some (l.reverse ++ r)) := by
  subst hm
  constructor
  . intro p hp
    rcases mem_append.mp hp with hp | hp
    . exact hl p (by simpa using hp)
    . exact hr p hp
  . simp [WordType.nBitsExtRepOfObj]

@[simp]
theorem mul_nil_left (r : List (Nat × Int)) : mul [] r = r := by
  simp [mul, cancel, join]

@[simp]
theorem mul_nil_right (l : List (Nat × Int)) : mul l [] = l := by
  simp [mul, cancel, join]

theorem syllables_of_length {w : ReducedWord t} (h : w.data.length = 0)
    : w.syllables = [] := by
  simpa [ReducedWord.syllables, WordType.nBitsExtRepOfObj] using h

theorem packs_nBitsProduct (l r : ReducedWord t)
    : Packs t (mul l.syllables r.syllables) (nBitsProduct t l.data r.data) := by
  have hrev : ∀ p ∈ l.data.reverse, t.IsPair p := by
    intro p hp
    exact l.isPair p (by simpa using hp)
  unfold nBitsProduct
  split
  . next h =>
    rw [syllables_of_length h, mul_nil_left]
    exact packs_self r
  . split
    . next h =>
      rw [syllables_of_length h, mul_nil_right]
      exact packs_self l
    . have hgo := product_go_eq hrev r.isPair
      obtain ⟨hsl, hsr⟩ := product_go_suffix t l.data.reverse r.data
      have hjoin : mul l.syllables r.syllables
          = join (t.nBitsExtRepOfObj (nBitsProduct.go t l.data.reverse r.data).1)
              (t.nBitsExtRepOfObj (nBitsProduct.go t l.data.reverse r.data).2) := by
        unfold mul ReducedWord.syllables
        rw [WordType.nBitsExtRepOfObj, ← map_reverse]
        rw [← WordType.nBitsExtRepOfObj, ← hgo]
        rfl
      rw [hjoin]
      generalize nBitsProduct.go t l.data.reverse r.data = res at *
      obtain ⟨l', r'⟩ := res
      have hl' := isPair_of_suffix hsl hrev
      have hr' := isPair_of_suffix hsr r.isPair
      cases l' with
      | nil => exact packs_append hl' hr' rfl
      | cons pl l' =>
        cases r' with
        | nil => exact packs_append hl' hr' (by simp [join, WordType.nBitsExtRepOfObj])
        | cons pr r' =>
          dsimp only
          have hgen := t.and_genm_inj (hl' pl (by simp)).lt_two_pow (hr' pr (by simp)).lt_two_pow
          split
          . next h =>
            have hex := product_ex_eq t pl pr
            rw [hex]
            apply packs_overlap hl'
            . intro p hp
              exact hr' p (by simp [hp])
            . exact cancel_meet hgo.symm (hgen.mp h)
            . simp [join, WordType.nBitsExtRepOfObj, hgen.mp h]
          . next h =>
            rw [append_cons, ← reverse_cons]
            apply packs_append hl' hr'
            simp [join, WordType.nBitsExtRepOfObj, hgen.not.mp h]

theorem computes_nBitsProduct (l r : ReducedWord t)
    : Computes t (l.eval * r.eval) (nBitsProduct t l.data r.data) := by
  have hpacks := packs_nBitsProduct l r
  have hreduced := isReduced_mul l.isReduced_syllables r.isReduced_syllables
  have := computes_of_packs hreduced hpacks
  rwa [eval_mul] at this

theorem quotient_cancel_iff {q : Nat} (hp : t.IsPair p) (hq : t.IsPair q)
    : (p &&& t.genm = q &&& t.genm ∧ p &&& t.exps = q &&& t.exps ∧ p &&& t.expm = q &&& t.expm)
        ↔
      ((t.extRep p).1 = (neg (t.extRep q)).1 ∧ (t.extRep p).2 + (neg (t.extRep q)).2 = 0) := by
  have hpe := t.cast_and_expm p
  have hqe := t.cast_and_expm q
  have hexps := t.cast_exps
  rw [t.and_genm_inj hp.lt_two_pow hq.lt_two_pow, t.and_exps_inj]
  apply and_congr_right
  intro _
  dsimp only [neg]
  split at hpe
  . split at hqe
    . omega
    . omega
  . split at hqe
    . omega
    . omega

theorem quotient_go_eq (hl : ∀ p ∈ l, t.IsPair p) (hr : ∀ p ∈ r, t.IsPair p)
    : (nBitsQuotient.go t l r).map t.nBitsExtRepOfObj (fun r => (t.nBitsExtRepOfObj r).map neg)
        =
      cancel (t.nBitsExtRepOfObj l) ((t.nBitsExtRepOfObj r).map neg) := by
  fun_induction nBitsQuotient.go t l r with
  | case1 pl l pr r hg hs =>
    symm
    apply cancel_cons_of_neg
    rw [← quotient_cancel_iff (hl pl (by simp)) (hr pr (by simp))]
    intro h
    exact hs h.2.1
  | case2 pl l pr r hg hs he =>
    symm
    apply cancel_cons_of_neg
    rw [← quotient_cancel_iff (hl pl (by simp)) (hr pr (by simp))]
    intro h
    exact he h.2.2
  | case3 pl l pr r hg hs he ih =>
    have hpos := (quotient_cancel_iff (hl pl (by simp)) (hr pr (by simp))).mp
      ⟨hg, by simpa using hs, by simpa using he⟩
    rw [ih]
    . exact (cancel_cons_of_pos hpos).symm
    . intro p hp
      exact hl p (by simp [hp])
    . intro p hp
      exact hr p (by simp [hp])
  | case4 pl l pr r hg =>
    symm
    apply cancel_cons_of_neg
    rw [← quotient_cancel_iff (hl pl (by simp)) (hr pr (by simp))]
    intro h
    exact hg h.1
  | case5 l r hnil =>
    cases l with
    | nil => simp [cancel, WordType.nBitsExtRepOfObj]
    | cons pl l =>
      cases r with
      | nil => simp [cancel, WordType.nBitsExtRepOfObj]
      | cons pr r => exact absurd rfl (hnil pl l pr r rfl)

theorem quotient_go_suffix (t : WordType) (l r : List Nat)
    : (nBitsQuotient.go t l r).1 <:+ l ∧ (nBitsQuotient.go t l r).2 <:+ r := by
  fun_induction nBitsQuotient.go t l r with
  | case3 pl l pr r hg hs he ih =>
    constructor
    . exact ih.1.trans (suffix_cons pl l)
    . exact ih.2.trans (suffix_cons pr r)
  | _ => simp

theorem quotient_ex_eq (t : WordType) (p q : Nat)
    : (let ex : Int := (p &&& t.expm : Nat) - (q &&& t.expm : Nat)
      let ex := if p &&& t.exps ≠ 0 then ex - t.exps else ex
      if q &&& t.exps ≠ 0 then ex + t.exps else ex)
        =
      (t.extRep p).2 + (neg (t.extRep q)).2 := by
  have hp := t.cast_and_expm p
  have hq := t.cast_and_expm q
  simp only [t.and_exps_ne_zero_iff, neg]
  split <;> split <;> simp_all <;> omega

theorem packs_nBitsQuotient (l r : ReducedWord t)
    : Packs t (mul l.syllables (inv r.syllables)) (nBitsQuotient t l.data r.data) := by
  have hlrev : ∀ p ∈ l.data.reverse, t.IsPair p := by
    intro p hp
    exact l.isPair p (by simpa using hp)
  have hrrev : ∀ p ∈ r.data.reverse, t.IsPair p := by
    intro p hp
    exact r.isPair p (by simpa using hp)
  unfold nBitsQuotient
  split
  . next h =>
    rw [syllables_of_length h, inv_nil, mul_nil_right]
    exact packs_self l
  . have hgo := quotient_go_eq hlrev hrrev
    obtain ⟨hsl, hsr⟩ := quotient_go_suffix t l.data.reverse r.data.reverse
    have hjoin : mul l.syllables (inv r.syllables)
        = join (t.nBitsExtRepOfObj (nBitsQuotient.go t l.data.reverse r.data.reverse).1)
            ((t.nBitsExtRepOfObj (nBitsQuotient.go t l.data.reverse r.data.reverse).2).map neg) := by
      unfold mul inv ReducedWord.syllables
      rw [← map_reverse, WordType.nBitsExtRepOfObj, WordType.nBitsExtRepOfObj]
      rw [← map_reverse, ← map_reverse]
      rw [← WordType.nBitsExtRepOfObj, ← WordType.nBitsExtRepOfObj, ← hgo]
      rfl
    rw [hjoin]
    generalize nBitsQuotient.go t l.data.reverse r.data.reverse = res at *
    obtain ⟨l', r'⟩ := res
    have hl' := isPair_of_suffix hsl hlrev
    have hr' := isPair_of_suffix hsr hrrev
    have hinv := (inverts_quotient_invert t).isPair_map hr'
    have hext := (inverts_quotient_invert t).extRep_map hr'
    cases l' with
    | nil =>
      apply packs_append hl' hinv
      rw [hext]
      rfl
    | cons pl l' =>
      cases r' with
      | nil => exact packs_append hl' hinv (by simp [join, WordType.nBitsExtRepOfObj])
      | cons pr r' =>
        dsimp only
        have hgen := t.and_genm_inj (hl' pl (by simp)).lt_two_pow (hr' pr (by simp)).lt_two_pow
        split
        . next h =>
          have hex := quotient_ex_eq t pl pr
          rw [hex]
          apply packs_overlap hl'
          . intro p hp
            exact hinv p (by simp [hp])
          . exact cancel_meet hgo.symm (hgen.mp h)
          . rw [(inverts_quotient_invert t).extRep_map (fun p hp => hr' p (by simp [hp]))]
            simp [join, WordType.nBitsExtRepOfObj, neg, hgen.mp h]
        . next h =>
          rw [append_cons, ← reverse_cons]
          apply packs_append hl' hinv
          rw [hext]
          simp [join, WordType.nBitsExtRepOfObj, neg, hgen.not.mp h]

theorem computes_nBitsQuotient (l r : ReducedWord t)
    : Computes t (l.eval * r.eval⁻¹) (nBitsQuotient t l.data r.data) := by
  have hpacks := packs_nBitsQuotient l r
  have hreduced := isReduced_mul l.isReduced_syllables r.isReduced_syllables.inv
  have := computes_of_packs hreduced hpacks
  rwa [eval_mul, eval_inv] at this

end ObjFgElm
