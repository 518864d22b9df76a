import GapKernel.VecGF2.Lemmas.Simple

open BitBlocks GF2Vec GF2Mat Finset List Nat

namespace GF2Impl

variable {w : Nat}

theorem two_mul_le_two_pow (hw : 0 < w) : 2 * w ≤ 2 ^ w := by
  induction w with
  | zero => omega
  | succ n ih =>
    by_cases hn : 0 < n
    . have := ih hn
      rw [Nat.pow_succ]
      omega
    . have : n = 0 := by
        omega
      simp [this]

theorem subWord_of_le {a b : Nat} (hle : b ≤ a) (ha : a < 2 ^ w) : subWord w a b = a - b := by
  unfold subWord
  have : a + (2 ^ w - b) = a - b + 2 ^ w := by
    omega
  rw [this, add_mod_right, mod_eq_of_lt]
  omega

variable {n : Nat}

theorem shlWord_of_lt (word : BitVec w) (h : n < w)
    : shlWord word n = .ok (word <<< n) := by
  unfold shlWord
  rw [if_pos h]
  rfl

theorem shrWord_of_lt (word : BitVec w) (h : n < w)
    : shrWord word n = .ok (word >>> n) := by
  unfold shrWord
  rw [if_pos h]
  rfl

theorem getbits_spec {vptr : List (BitVec w)} {pos : Nat} (hn : 0 < n) (hnw : n < w)
    (hlen : pos - 1 + n ≤ vptr.length * w)
    : ∃ bits, getbits vptr pos n = .ok bits
        ∧ ∀ t, bits.getLsbD t = (decide (t < n) && bitAt vptr (pos - 1 + t)) := by
  have hw : 0 < w := by
    omega
  have htwo := two_mul_le_two_pow hw
  have hmod := mod_lt (pos - 1) hw
  have hdm := div_add_mod (pos - 1) w
  have hwno : (pos - 1) / w < vptr.length := div_lt_of_lt hw (by omega)
  generalize hp : (pos - 1) / w = p at *
  generalize hs : (pos - 1) % w = s at *
  have hbit1 : ∀ t, s + t < w → bitAt vptr (pos - 1 + t) = (vptr.getD p 0#w).getLsbD (s + t) := by
    intro t ht
    rw [← bitAt_mul_add ht, ← Nat.add_assoc, hdm]
  unfold getbits
  dsimp only
  rw [hp, hs]
  rw [readAt_of_lt hwno 0#w]
  rw [ok_bind]
  rw [mod_eq_of_lt (by omega)]
  split
  next hle =>
    rw [shlWord_of_lt _ (by omega)]
    rw [ok_bind]
    rw [subWord_of_le (by omega) (by omega)]
    rw [shrWord_of_lt _ (by omega)]
    refine ⟨_, rfl, ?_⟩
    intro t
    rw [BitVec.getLsbD_ushiftRight, BitVec.getLsbD_shiftLeft]
    by_cases ht : t < n
    . rw [hbit1 t (by omega)]
      have hin : w - n + t < w := by
        omega
      have hnot : ¬w - n + t < w - (s + n) := by
        omega
      have hidx : w - n + t - (w - (s + n)) = s + t := by
        omega
      simp [ht, hin, hnot, hidx]
    . have hout : ¬w - n + t < w := by
        omega
      simp [ht, hout]
  next hgt =>
    have hwno2 : p + 1 < vptr.length := by
      apply Nat.lt_of_mul_lt_mul_right (a := w)
      rw [succ_mul, Nat.mul_comm]
      omega
    have hbit2 : ∀ t, w ≤ s + t → s + t < 2 * w →
        bitAt vptr (pos - 1 + t) = (vptr.getD (p + 1) 0#w).getLsbD (s + t - w) := by
      intro t hle hlt
      rw [← bitAt_mul_add (by omega), mul_succ]
      congr 1
      omega
    rw [shrWord_of_lt _ (by omega)]
    rw [ok_bind]
    rw [readAt_of_lt hwno2 0#w]
    rw [ok_bind]
    rw [subWord_of_le (by omega) (by omega)]
    rw [shlWord_of_lt _ (by omega)]
    rw [ok_bind]
    rw [subWord_of_le (by omega) (by omega)]
    rw [shrWord_of_lt _ (by omega)]
    refine ⟨_, rfl, ?_⟩
    intro t
    rw [BitVec.getLsbD_or]
    simp only [BitVec.getLsbD_ushiftRight, BitVec.getLsbD_shiftLeft]
    by_cases ht : t < n
    . by_cases hst : s + t < w
      . rw [hbit1 t hst]
        have hlow : s - (s + n - w) + t < w - (s + n - w) := by
          omega
        simp [ht, hlow]
      . rw [hbit2 t (by omega) (by omega)]
        have hout : (vptr.getD p 0#w).getLsbD (s + t) = false :=
          BitVec.getLsbD_of_ge _ _ (by omega)
        have hin : s - (s + n - w) + t < w := by
          omega
        have hnot : ¬s - (s + n - w) + t < w - (s + n - w) := by
          omega
        have hidx : s - (s + n - w) + t - (w - (s + n - w)) = s + t - w := by
          omega
        rw [hout]
        simp [ht, hin, hnot, hidx]
    . have hout : (vptr.getD p 0#w).getLsbD (s + t) = false :=
        BitVec.getLsbD_of_ge _ _ (by omega)
      have hin : ¬s - (s + n - w) + t < w := by
        omega
      rw [hout]
      simp [ht, hin]

structure IsRules (rules : List Nat) (gs : Nat) : Prop where
  length_eq : rules.length = 2 ^ gs
  rule : ∀ p, 0 < p → p < 2 ^ gs → rules.getD p 0 < gs ∧ p.testBit (rules.getD p 0) = true

theorem and_two_pow_ne_zero (p i : Nat) : p &&& 2 ^ i ≠ 0 ↔ p.testBit i = true := by
  constructor
  . intro hne
    obtain ⟨x, hx⟩ := exists_testBit_of_ne_zero hne
    rw [testBit_and, testBit_two_pow, Bool.and_eq_true, decide_eq_true_iff] at hx
    rw [hx.2]
    exact hx.1
  . intro hbit heq
    have := congrArg (fun n => n.testBit i) heq
    simp only [testBit_and, hbit, testBit_two_pow_self, zero_testBit] at this
    cases this

variable {p i : Nat}

theorem ruleLoop_spec {rules : List Nat} (hp : p < rules.length) (hi : i + n ≤ 31)
    (hbit : ∃ x, i ≤ x ∧ x < i + n ∧ p.testBit x = true)
    : ∃ x, ruleLoop p n i rules = .ok (rules.set p x) ∧ x < i + n ∧ p.testBit x = true := by
  induction n generalizing i with
  | zero =>
    obtain ⟨x, hle, hlt, _⟩ := hbit
    omega
  | succ n ih =>
    unfold ruleLoop
    rw [oneShl_of_lt (by omega)]
    rw [ok_bind]
    split
    next hne =>
      rw [and_two_pow_ne_zero] at hne
      rw [writeAt_of_lt hp]
      exact ⟨i, rfl, by omega, hne⟩
    next heq =>
      rw [and_two_pow_ne_zero] at heq
      obtain ⟨x, hle, hlt, hx⟩ := hbit
      have hix : i ≠ x := by
        intro h
        rw [h] at heq
        exact heq hx
      obtain ⟨x', hrun, hlt', hx'⟩ := ih (by omega : i + 1 + n ≤ 31) ⟨x, by omega, by omega, hx⟩
      exact ⟨x', hrun, by omega, hx'⟩

variable {gs : Nat}

theorem exists_testBit (hp : 0 < p) (hlt : p < 2 ^ gs)
    : ∃ x, x < gs ∧ p.testBit x = true := by
  obtain ⟨x, hx⟩ := exists_testBit_of_ne_zero (by omega : p ≠ 0)
  refine ⟨x, ?_, hx⟩
  by_contra hge
  have := ge_two_pow_of_testBit hx
  have := Nat.pow_le_pow_right (by decide : 0 < 2) (by omega : gs ≤ x)
  omega

theorem makeRules_spec (htwo : 2 ≤ gs) (hgs : gs < 31)
    : ∃ rules, makeRules gs (2 ^ gs) = .ok rules ∧ IsRules rules gs := by
  have hfour : 2 ^ 2 ≤ 2 ^ gs := Nat.pow_le_pow_right (by decide) htwo
  obtain ⟨rules1, hrun1, hlen1, hrule1⟩ : ∃ rules,
      forLoop (fun j rules => ruleLoop j gs 0 rules) (2 ^ gs - 3) 3 (List.replicate (2 ^ gs) 0)
        = .ok rules ∧ rules.length = 2 ^ gs
      ∧ ∀ p, 3 ≤ p → p < 2 ^ gs → rules.getD p 0 < gs ∧ p.testBit (rules.getD p 0) = true := by
    apply forLoop_of_inv (fun i rules => rules.length = 2 ^ gs ∧ ∀ p, 3 ≤ p → p < i →
      rules.getD p 0 < gs ∧ p.testBit (rules.getD p 0) = true)
    . refine ⟨length_replicate, ?_⟩
      intro p hle hlt
      omega
    . rintro j rules hle hlt ⟨hlen, hrule⟩
      obtain ⟨x, hx, hbit⟩ := exists_testBit (by omega : 0 < j) (by omega : j < 2 ^ gs)
      obtain ⟨x', hrun, hx', hbit'⟩ := ruleLoop_spec (by omega : j < rules.length)
        (by omega : 0 + gs ≤ 31) ⟨x, by omega, by omega, hbit⟩
      refine ⟨_, hrun, by rw [length_set]; exact hlen, ?_⟩
      intro p hp hpj
      rw [getD_set (by omega)]
      split
      next heq =>
        rw [heq]
        exact ⟨by omega, hbit'⟩
      next hne => exact hrule p hp (by omega)
    . rintro rules ⟨hlen, hrule⟩
      refine ⟨hlen, ?_⟩
      intro p hp hlt
      exact hrule p hp (by omega)
  unfold makeRules
  rw [hrun1]
  rw [ok_bind]
  apply forLoop_of_inv (fun i rules => rules.length = 2 ^ gs
    ∧ (∀ p, 3 ≤ p → p < 2 ^ gs → rules.getD p 0 < gs ∧ p.testBit (rules.getD p 0) = true)
    ∧ ∀ y, y < i → rules.getD (2 ^ y) 0 = y)
  . exact ⟨hlen1, hrule1, by simp⟩
  . rintro j rules _ hlt ⟨hlen, hrule, hpow⟩
    have hj : 2 ^ j < 2 ^ gs := Nat.pow_lt_pow_right (by decide) (by omega)
    rw [oneShl_of_lt (by omega)]
    rw [ok_bind]
    rw [writeAt_of_lt (by omega)]
    refine ⟨_, rfl, by rw [length_set]; exact hlen, ?_, ?_⟩
    . intro p hp hpgs
      rw [getD_set (by omega)]
      split
      next heq =>
        rw [heq]
        exact ⟨by omega, testBit_two_pow_self⟩
      next hne => exact hrule p hp hpgs
    . intro y hy
      rw [getD_set (by omega)]
      split
      next heq => exact (Nat.pow_right_injective (Nat.le_refl 2) heq).symm
      next hne =>
        apply hpow
        have : y ≠ j := by
          intro heq
          rw [heq] at hne
          exact hne rfl
        omega
  . rintro rules ⟨hlen, hrule, hpow⟩
    refine ⟨hlen, ?_⟩
    intro p hp hlt
    by_cases h3 : 3 ≤ p
    . exact hrule p h3 hlt
    . by_cases h1 : p = 1
      . have := hpow 0 (by omega)
        rw [Nat.pow_zero] at this
        rw [h1, this]
        exact ⟨by omega, by decide⟩
      . have h2 : p = 2 := by
          omega
        have := hpow 1 (by omega)
        rw [Nat.pow_one] at this
        rw [h2, this]
        exact ⟨by omega, by decide⟩

theorem mul_add_lt_mul {k k' : Nat} (hk : k' < k) (hp : p < n) : k' * n + p < k * n := by
  have := Nat.mul_le_mul_right n hk
  rw [succ_mul] at this
  omega

def StartTag (gs p tag : Nat) : Prop :=
  (∃ x, x < gs ∧ p = 2 ^ x) ∧ tag = 2 ∨ (¬∃ x, x < gs ∧ p = 2 ^ x) ∧ tag = 0

variable {tags : List Nat}

theorem resetUnit_spec {k : Nat} (hgs : gs < 31) (hlen : k * 2 ^ gs + 2 ^ gs ≤ tags.length)
    : ∃ tags', (do
          let n ← oneShl gs
          let tags ← forLoop (fun j tags => writeAt tags (k * 2 ^ gs + j) 0) n 0 tags
          forLoop (fun j tags => do
            let mask ← oneShl j
            writeAt tags (k * 2 ^ gs + mask) 2) gs 0 tags : Result (List Nat)) = .ok tags'
        ∧ tags'.length = tags.length ∧ (∀ i, i < k * 2 ^ gs → tags'.getD i 0 = tags.getD i 0)
        ∧ ∀ p, p < 2 ^ gs → StartTag gs p (tags'.getD (k * 2 ^ gs + p) 0) := by
  rw [oneShl_of_lt hgs]
  rw [ok_bind]
  obtain ⟨tags1, hrun1, hlen1, hlow1, hzero⟩ : ∃ tags1,
      forLoop (fun j tags => writeAt tags (k * 2 ^ gs + j) 0) (2 ^ gs) 0 tags = .ok tags1
        ∧ tags1.length = tags.length ∧ (∀ i, i < k * 2 ^ gs → tags1.getD i 0 = tags.getD i 0)
        ∧ ∀ p, p < 2 ^ gs → tags1.getD (k * 2 ^ gs + p) 0 = 0 := by
    apply forLoop_of_inv (fun j t => t.length = tags.length
      ∧ (∀ i, i < k * 2 ^ gs → t.getD i 0 = tags.getD i 0)
      ∧ ∀ p, p < j → t.getD (k * 2 ^ gs + p) 0 = 0)
    . simp
    . rintro j t _ hj ⟨ht, hlow, hzero⟩
      rw [writeAt_of_lt (by omega)]
      refine ⟨_, rfl, by rw [length_set]; exact ht, ?_, ?_⟩
      . intro i hi
        rw [getD_set (by omega), if_neg (by omega)]
        exact hlow i hi
      . intro p hp
        rw [getD_set (by omega)]
        split
        next => rfl
        next hne => exact hzero p (by omega)
    . rintro t ⟨ht, hlow, hzero⟩
      refine ⟨ht, hlow, ?_⟩
      intro p hp
      exact hzero p (by omega)
  rw [hrun1]
  rw [ok_bind]
  apply forLoop_of_inv (fun j t => t.length = tags.length
    ∧ (∀ i, i < k * 2 ^ gs → t.getD i 0 = tags.getD i 0)
    ∧ ∀ p, p < 2 ^ gs → StartTag j p (t.getD (k * 2 ^ gs + p) 0))
  . refine ⟨hlen1, hlow1, ?_⟩
    intro p hp
    right
    rw [hzero p hp]
    simp
  . rintro j t _ hj ⟨ht, hlow, htag⟩
    have hpow : 2 ^ j < 2 ^ gs := Nat.pow_lt_pow_right (by decide) (by omega)
    have hpos := Nat.two_pow_pos j
    rw [oneShl_of_lt (by omega)]
    rw [ok_bind]
    rw [writeAt_of_lt (by omega)]
    refine ⟨_, rfl, by rw [length_set]; exact ht, ?_, ?_⟩
    . intro i hi
      rw [getD_set (by omega), if_neg (by omega)]
      exact hlow i hi
    . intro p hp
      rw [getD_set (by omega)]
      split
      next heq => exact Or.inl ⟨⟨j, by omega, by omega⟩, rfl⟩
      next hne =>
        rcases htag p hp with ⟨⟨x, hx, hpx⟩, htwo⟩ | ⟨hnot, hzero⟩
        . exact Or.inl ⟨⟨x, by omega, hpx⟩, htwo⟩
        . right
          refine ⟨?_, hzero⟩
          rintro ⟨x, hx, hpx⟩
          apply hnot
          refine ⟨x, ?_, hpx⟩
          have : x ≠ j := by
            intro hxj
            rw [hpx, hxj] at hne
            exact hne rfl
          omega
  . rintro t ⟨ht, hlow, htag⟩
    rw [Nat.zero_add] at htag
    exact ⟨ht, hlow, htag⟩

theorem resetTags_spec {bs : Nat} (hgs : gs < 31) (hlen : bs * 2 ^ gs ≤ tags.length)
    : ∃ tags', resetTags gs (2 ^ gs) bs tags = .ok tags' ∧ tags'.length = tags.length
        ∧ ∀ k p, k < bs → p < 2 ^ gs → StartTag gs p (tags'.getD (k * 2 ^ gs + p) 0) := by
  unfold resetTags
  apply forLoop_of_inv (fun i t => t.length = tags.length
    ∧ ∀ k p, k < i → p < 2 ^ gs → StartTag gs p (t.getD (k * 2 ^ gs + p) 0))
  . refine ⟨rfl, ?_⟩
    intro k p hk
    omega
  . rintro i t _ hi ⟨ht, htag⟩
    have hfit := Nat.mul_le_mul_right (2 ^ gs) (by omega : i + 1 ≤ bs)
    rw [succ_mul] at hfit
    obtain ⟨t', hrun, ht', hlow, hunit⟩ := resetUnit_spec hgs
      (by omega : i * 2 ^ gs + 2 ^ gs ≤ t.length)
    refine ⟨t', hrun, by omega, ?_⟩
    intro k p hk hp
    by_cases hki : k = i
    . rw [hki]
      exact hunit p hp
    . rw [hlow _ (mul_add_lt_mul (by omega) hp)]
      exact htag k p (by omega) hp
  . rintro t ⟨ht, htag⟩
    rw [Nat.zero_add] at htag
    exact ⟨ht, htag⟩

section

variable (mr : GF2Mat w)

def rowSum (k gs p j : Nat) : ZMod 2 :=
  ∑ x ∈ range gs, zbit (p.testBit x) * mr.entry (k + x) j

theorem rowSum_two_pow {k gs x : Nat} (hx : x < gs) (j : Nat)
    : rowSum mr k gs (2 ^ x) j = mr.entry (k + x) j := by
  unfold rowSum
  rw [sum_eq_single_of_mem x (mem_range.mpr hx)]
  . rw [testBit_two_pow_self, zbit_true, one_mul]
  . intro y _ hne
    rw [testBit_two_pow_of_ne (fun h => hne h.symm), zbit_false, zero_mul]

theorem rowSum_xor (k gs p q j : Nat)
    : rowSum mr k gs (p ^^^ q) j = rowSum mr k gs p j + rowSum mr k gs q j := by
  unfold rowSum
  rw [← sum_add_distrib]
  apply sum_congr rfl
  intro x _
  rw [testBit_xor, zbit_xor, add_mul]

def slot (gs i p : Nat) : Nat :=
  (2 ^ gs - 3) * i + (p - 3)

/--
The grease tables of a block with `bs` units, there is space for `size` units. A row that has been
made is the sum of the rows that its number selects, `b` is the first row of the block.
-/
structure Tables (gs nwords b bs size : Nat) (tags : List Nat) (buf : List (BitVec w)) : Prop where
  le_size : bs ≤ size
  tags_len : size * 2 ^ gs ≤ tags.length
  buf_len : (2 ^ gs - 3) * size * nwords ≤ buf.length
  tag : ∀ i p, i < bs → 0 < p → p < 2 ^ gs →
    StartTag gs p (tags.getD (2 ^ gs * i + p) 0)
      ∨ (¬∃ x, x < gs ∧ p = 2 ^ x) ∧ tags.getD (2 ^ gs * i + p) 0 = 1
        ∧ Reads (readPtr mr.rows buf (.buf (slot gs i p * nwords))) nwords
          (rowSum mr (b - 1 + i * gs) gs p)

end

section

variable {p x : Nat} (hbit : p.testBit x = true)

include hbit

theorem testBit_of_testBit_xor {t : Nat} (ht : (p ^^^ 2 ^ x).testBit t = true)
    : p.testBit t = true := by
  rw [testBit_xor, testBit_two_pow] at ht
  by_cases hxt : x = t
  . rw [← hxt]
    exact hbit
  . simpa [hxt] using ht

theorem xor_two_pow_lt : p ^^^ 2 ^ x < p := by
  apply lt_of_testBit x
  . rw [testBit_xor, hbit, testBit_two_pow_self]
    rfl
  . exact hbit
  . intro j hj
    rw [testBit_xor, testBit_two_pow_of_ne (by omega), Bool.xor_false]

end

theorem mul_add_inj {i' p' : Nat} (hp : p < n) (hp' : p' < n) (h : n * i + p = n * i' + p')
    : i = i' ∧ p = p' := by
  have hdiv := congrArg (fun x => x / n) h
  have hmod := congrArg (fun x => x % n) h
  simp only [mul_add_div (by omega : 0 < n), div_eq_of_lt hp, div_eq_of_lt hp'] at hdiv
  simp only [mul_add_mod, mod_eq_of_lt hp, mod_eq_of_lt hp'] at hmod
  exact ⟨hdiv, hmod⟩

theorem three_le (hgs : 2 ≤ gs) (hp : 0 < p) (hnot : ¬∃ x, x < gs ∧ p = 2 ^ x)
    : 3 ≤ p := by
  by_contra hlt
  apply hnot
  by_cases h1 : p = 1
  . exact ⟨0, by omega, h1⟩
  . exact ⟨1, by omega, by omega⟩

structure Agree (buf buf' : List (BitVec w)) (pd n : Nat) : Prop where
  length_eq : buf'.length = buf.length
  outside : ∀ m, m < pd ∨ pd + n ≤ m → buf'[m]? = buf[m]?

variable {buf buf' : List (BitVec w)} {nwords : Nat}

theorem readPtr_slot_congr {rows : List (GF2Vec w)} {s s' : Nat}
    (h : Agree buf buf' (s' * nwords) nwords) (hne : s ≠ s') (hi : i < nwords)
    : readPtr rows buf' (.buf (s * nwords)) i = readPtr rows buf (.buf (s * nwords)) i := by
  unfold readPtr readAt
  dsimp only
  rw [h.outside]
  rcases Nat.lt_or_gt_of_ne hne with hlt | hgt
  . have := mul_add_lt_mul hlt hi
    exact Or.inl this
  . have := Nat.mul_le_mul_right nwords hgt
    rw [succ_mul] at this
    right
    omega

theorem reads_slot_congr {rows : List (GF2Vec w)} {s s' : Nat} {f : Nat → ZMod 2}
    (h : Agree buf buf' (s' * nwords) nwords) (hne : s ≠ s')
    (hreads : Reads (readPtr rows buf (.buf (s * nwords))) nwords f)
    : Reads (readPtr rows buf' (.buf (s * nwords))) nwords f := by
  intro i hi
  rw [readPtr_slot_congr h hne hi]
  exact hreads i hi

theorem sumLoop_spec (rows : List (GF2Vec w)) (ps ps2 : RowPtr) (pd n : Nat) (f1 f2 : Nat → ZMod 2)
    (h1 : ∀ buf', Agree buf buf' pd n → Reads (readPtr rows buf' ps) n f1)
    (h2 : ∀ buf', Agree buf buf' pd n → Reads (readPtr rows buf' ps2) n f2)
    (hlen : pd + n ≤ buf.length)
    : ∃ buf', forLoop (fun i buf => do
          let block ← readPtr rows buf ps i
          let block2 ← readPtr rows buf ps2 i
          writeAt buf (pd + i) (block ^^^ block2)) n 0 buf = .ok buf'
        ∧ Agree buf buf' pd n ∧ Reads (readPtr rows buf' (.buf pd)) n (fun j => f1 j + f2 j) := by
  apply forLoop_of_inv (fun i buf' => Agree buf buf' pd n
    ∧ Reads (readPtr rows buf' (.buf pd)) i (fun j => f1 j + f2 j))
  . refine ⟨⟨rfl, fun _ _ => rfl⟩, ?_⟩
    intro i hi
    omega
  . rintro i buf' _ hi ⟨hagree, hreads⟩
    have hlen' := hagree.length_eq
    obtain ⟨block, hblock, hbits⟩ := h1 buf' hagree i (by omega)
    obtain ⟨block2, hblock2, hbits2⟩ := h2 buf' hagree i (by omega)
    rw [hblock]
    rw [ok_bind]
    rw [hblock2]
    rw [ok_bind]
    rw [writeAt_of_lt (by omega)]
    refine ⟨_, rfl, ⟨by rw [length_set]; exact hlen', ?_⟩, ?_⟩
    . intro m hm
      rw [getElem?_set_ne (by omega)]
      exact hagree.outside m hm
    . intro j hj
      unfold readPtr readAt at *
      dsimp only at *
      by_cases hij : i = j
      . rw [← hij, getElem?_set_self (by omega)]
        refine ⟨_, rfl, ?_⟩
        intro t ht
        rw [BitVec.getLsbD_xor, zbit_xor, hbits t ht, hbits2 t ht]
      . rw [getElem?_set_ne (by omega)]
        exact hreads j (by omega)
  . rintro buf' ⟨hagree, hreads⟩
    rw [Nat.zero_add] at hreads
    exact ⟨hagree, hreads⟩

theorem slot_inj {i' p' : Nat} (hp : 3 ≤ p) (hlt : p < 2 ^ gs) (hp' : 3 ≤ p') (hlt' : p' < 2 ^ gs)
    (h : slot gs i p = slot gs i' p') : i = i' ∧ p = p' := by
  have := mul_add_inj (by omega : p - 3 < 2 ^ gs - 3) (by omega : p' - 3 < 2 ^ gs - 3) h
  omega

theorem Tables.made {mr : GF2Mat w} {b bs size : Nat} (ht : Tables mr gs nwords b bs size tags buf)
    (htwo : 2 ≤ gs) (hlt : p < 2 ^ gs) (hnot : ¬∃ x, x < gs ∧ p = 2 ^ x) (hpos : 0 < p)
    (hlen : 2 ^ gs * i + p < tags.length) (hagree : Agree buf buf' (slot gs i p * nwords) nwords)
    (hreads : Reads (readPtr mr.rows buf' (.buf (slot gs i p * nwords))) nwords
      (rowSum mr (b - 1 + i * gs) gs p))
    : Tables mr gs nwords b bs size (tags.set (2 ^ gs * i + p) 1) buf' where
  le_size := ht.le_size
  tags_len := by
    rw [length_set]
    exact ht.tags_len
  buf_len := by
    rw [hagree.length_eq]
    exact ht.buf_len
  tag := by
    intro i' p' hi' hpos' hlt'
    rw [getD_set hlen]
    split
    next heq =>
      obtain ⟨hii, hpp⟩ := mul_add_inj hlt' hlt heq
      rw [hii, hpp]
      exact Or.inr ⟨hnot, rfl, hreads⟩
    next hne =>
      rcases ht.tag i' p' hi' hpos' hlt' with hstart | ⟨hnot', htag, hreads'⟩
      . exact Or.inl hstart
      . right
        refine ⟨hnot', htag, ?_⟩
        apply reads_slot_congr hagree _ hreads'
        intro heq
        obtain ⟨hii, hpp⟩ := slot_inj (three_le htwo hpos' hnot') hlt' (three_le htwo hpos hnot)
          hlt heq
        rw [hii, hpp] at hne
        exact hne rfl

section

variable {mr : GF2Mat w} {l n : Nat} (hr : mr.Valid l n)

include hr

theorem reads_row (hw : 0 < w) {x : Nat} (hx : x < l) (buf : List (BitVec w))
    : Reads (readPtr mr.rows buf (.row x)) ((n + w - 1) / w) (mr.entry x) := by
  have hrow := hr.getD hx
  unfold readPtr
  dsimp only
  rw [readAt_of_lt (by rw [hr.length_eq]; exact hx) (GF2Vec.new 0)]
  exact reads_readAt (ceilDiv_le hw hrow.enough)

theorem getgreasedata_spec (hw : 0 < w) {gs b bs size i : Nat} (hgs : gs < 31) (hgsw : gs < w)
    (htwo : 2 ≤ gs) {g : GreaseInfo w} (hrules : IsRules g.pgrules gs) (hrows : g.rows = mr.rows)
    (hn : g.nblocks = (n + w - 1) / w) (hpgtags : g.pgtags = 2 ^ gs * i)
    (hpgbuf : g.pgbuf = (2 ^ gs - 3) * g.nblocks * i) (hprrows : g.prrows = b - 1 + i * gs)
    (hi : i < bs) (ht : Tables mr gs g.nblocks b bs size g.tags g.buf) {fuel : Nat}
    {bits : BitVec w}
    (hpos : 0 < bits.toNat) (hlt : bits.toNat < 2 ^ gs)
    (hl : ∀ x, bits.toNat.testBit x = true → b - 1 + i * gs + x < l) (hfuel : bits.toNat < fuel)
    : ∃ tags buf ptr, getgreasedata fuel g bits = .ok ({ g with tags := tags, buf := buf }, ptr)
        ∧ Tables mr gs g.nblocks b bs size tags buf
        ∧ (∀ pos, ptr = .buf pos → 3 ≤ bits.toNat ∧ pos = slot gs i bits.toNat * g.nblocks)
        ∧ Reads (readPtr mr.rows buf ptr) g.nblocks
          (rowSum mr (b - 1 + i * gs) gs bits.toNat) := by
  induction fuel generalizing bits g with
  | zero => omega
  | succ fuel ih =>
    generalize hp : bits.toNat = p at *
    have hsize := Nat.lt_of_lt_of_le hi ht.le_size
    have hslot : g.pgbuf + (p - 3) * g.nblocks = slot gs i p * g.nblocks := by
      rw [hpgbuf]
      unfold slot
      rw [Nat.add_mul, Nat.mul_right_comm]
    have htagslen : g.pgtags + p < g.tags.length := by
      have := mul_add_lt_mul hsize hlt
      have := ht.tags_len
      rw [hpgtags, Nat.mul_comm]
      omega
    have hrule := hrules.rule p hpos hlt
    unfold getgreasedata
    rw [hp]
    rw [readAt_of_lt htagslen 0]
    rw [ok_bind]
    have htags := ht.tag i p hi hpos hlt
    rw [← hpgtags] at htags
    rcases htags with (⟨⟨x, hx, hpx⟩, htag⟩ | ⟨hnot, htag⟩) | ⟨hnot, htag, hreads⟩
    . -- The number has one bit.
      rw [htag]
      dsimp only
      rw [readAt_of_lt (by rw [hrules.length_eq]; exact hlt) 0]
      rw [ok_bind]
      have hxeq : g.pgrules.getD p 0 = x := by
        have := hrule.2
        rw [hpx, testBit_two_pow, decide_eq_true_iff] at this
        rw [hpx]
        exact this.symm
      rw [hxeq]
      refine ⟨g.tags, g.buf, _, rfl, ht, (by intro pos h; cases h), ?_⟩
      have hsum : rowSum mr (b - 1 + i * gs) gs p = mr.entry (b - 1 + i * gs + x) := by
        funext j
        rw [hpx, rowSum_two_pow mr hx]
      rw [hsum, hn, hprrows]
      apply reads_row hr hw
      apply hl
      rw [hpx]
      exact testBit_two_pow_self
    . -- The row has not been made.
      rw [htag]
      dsimp only
      rw [readAt_of_lt (by rw [hrules.length_eq]; exact hlt) 0]
      rw [ok_bind]
      generalize hx : g.pgrules.getD p 0 = x at *
      have h3 := three_le htwo hpos hnot
      have hpow : 2 ^ x < 2 ^ w := Nat.pow_lt_pow_right (by decide) (by omega)
      have hy : (bits ^^^ BitVec.ofNat w (2 ^ x)).toNat = p ^^^ 2 ^ x := by
        rw [BitVec.toNat_xor, BitVec.toNat_ofNat, mod_eq_of_lt hpow, hp]
      have hylt := xor_two_pow_lt hrule.2
      have hypos : 0 < p ^^^ 2 ^ x := by
        apply Nat.pos_of_ne_zero
        intro h
        have hxor : p ^^^ 2 ^ x = 2 ^ x ^^^ 2 ^ x := by
          rw [h, Nat.xor_self]
        exact hnot ⟨x, hrule.1, xor_left_injective hxor⟩
      rw [oneShl_of_lt (by omega)]
      rw [ok_bind]
      obtain ⟨tags1, buf1, ptr, hrun, ht1, hptr, hreads1⟩ := ih hrules hrows hn hpgtags hpgbuf
        hprrows ht (by rw [hy]; exact hypos : 0 < (bits ^^^ BitVec.ofNat w (2 ^ x)).toNat)
        (by rw [hy]; omega)
        (by
          rw [hy]
          intro t htest
          exact hl t (testBit_of_testBit_xor hrule.2 htest)) (by rw [hy]; omega)
      rw [hrun]
      rw [ok_bind]
      dsimp only
      rw [hslot, hrows]
      rw [hy] at hptr hreads1
      have hslotlt : slot gs i p < (2 ^ gs - 3) * size := by
        have := mul_add_lt_mul hsize (by omega : p - 3 < 2 ^ gs - 3)
        unfold slot
        rw [Nat.mul_comm _ i, Nat.mul_comm _ size]
        exact this
      have hbufpos : slot gs i p * g.nblocks + g.nblocks ≤ buf1.length := by
        have := Nat.mul_le_mul_right g.nblocks hslotlt
        rw [succ_mul] at this
        exact Nat.le_trans this ht1.buf_len
      obtain ⟨buf2, hsum, hagree, hreads2⟩ := sumLoop_spec mr.rows (.row (g.prrows + x)) ptr
        (slot gs i p * g.nblocks) g.nblocks (mr.entry (b - 1 + i * gs + x))
        (rowSum mr (b - 1 + i * gs) gs (p ^^^ 2 ^ x))
        (by
          intro buf' _
          rw [hn, hprrows]
          exact reads_row hr hw (hl x hrule.2) buf')
        (by
          intro buf' hagree
          cases ptr with
          | row r => exact hreads1
          | buf pos =>
            obtain ⟨hy3, hpos⟩ := hptr pos rfl
            rw [hpos] at hreads1 ⊢
            apply reads_slot_congr hagree _ hreads1
            unfold slot
            omega)
        hbufpos
      rw [hsum]
      rw [ok_bind]
      have hlen1 : 2 ^ gs * i + p < tags1.length := by
        have := mul_add_lt_mul hsize hlt
        have := ht1.tags_len
        rw [Nat.mul_comm]
        omega
      have hp1 : rowSum mr (b - 1 + i * gs) gs p = fun j => mr.entry (b - 1 + i * gs + x) j
          + rowSum mr (b - 1 + i * gs) gs (p ^^^ 2 ^ x) j := by
        funext j
        rw [rowSum_xor, rowSum_two_pow mr hrule.1]
        rw [add_left_comm, CharTwo.add_self_eq_zero, add_zero]
      rw [← hp1] at hreads2
      rw [writeAt_of_lt (by rw [hpgtags]; exact hlen1)]
      refine ⟨_, buf2, _, rfl, ?_, ?_, hreads2⟩
      . rw [hpgtags]
        exact ht1.made htwo hlt hnot hpos hlen1 hagree hreads2
      . intro pos hptr'
        rw [RowPtr.buf.injEq] at hptr'
        exact ⟨h3, hptr'.symm⟩
    . rw [htag]
      dsimp only
      rw [hslot]
      refine ⟨g.tags, g.buf, _, rfl, ht, ?_, hreads⟩
      intro pos hptr
      rw [RowPtr.buf.injEq] at hptr
      exact ⟨three_le htwo hpos hnot, hptr.symm⟩

end

end GF2Impl
