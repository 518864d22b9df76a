import GapKernel.VecGF2.Lemmas.Grease

open BitBlocks GF2Vec GF2Mat Finset Nat

namespace GF2Impl

variable {w : Nat}

structure Ready (mr : GF2Mat w) (gs nwords b bs size : Nat) (g : GreaseInfo w) : Prop where
  rows_eq : g.rows = mr.rows
  nblocks_eq : g.nblocks = nwords
  rules : 1 < gs → IsRules g.pgrules gs
  tables : 1 < gs → Tables mr gs nwords b bs size g.tags g.buf

theorem rowSum_eq_sum (mr : GF2Mat w) {k gs n p : Nat} {row : List (BitVec w)} (hn : n ≤ gs)
    (hbit : ∀ t, p.testBit t = (decide (t < n) && bitAt row (k + t))) (j : Nat)
    : rowSum mr k gs p j = ∑ x ∈ range n, bitZ row (k + x) * mr.entry (k + x) j := by
  unfold rowSum bitZ
  have hsub : range n ⊆ range gs := by
    intro x
    simp only [mem_range]
    omega
  rw [← sum_subset hsub]
  . apply sum_congr rfl
    intro x hx
    rw [hbit x, decide_eq_true (mem_range.mp hx), Bool.true_and]
  . intro x _ hx
    rw [hbit x, decide_eq_false (by simpa using hx), Bool.false_and, zbit_false, zero_mul]

theorem lt_two_pow_of_bits {n : Nat} {bits : BitVec w} {f : Nat → Bool}
    (hbit : ∀ t, bits.getLsbD t = (decide (t < n) && f t)) : bits.toNat < 2 ^ n := by
  apply lt_pow_two_of_testBit
  intro t ht
  rw [BitVec.testBit_toNat, hbit, decide_eq_false (by omega), Bool.false_and]

section

variable (hw : 0 < w) {mr : GF2Mat w} {l n : Nat} (hr : mr.Valid l n)

include hw hr

variable {gs b bs size : Nat} {g : GreaseInfo w} {pprow : List (BitVec w)}

theorem addChunk_spec {i : Nat} (hgs : gs < 31) (hgsw : gs < w)
    (hg : Ready mr gs ((n + w - 1) / w) b bs size g) (hi : i < bs) {bits : BitVec w} {c : Nat}
    (hc : c ≤ gs) (hcl : b - 1 + i * gs + c ≤ l)
    (hpg : 1 < c → g.pgtags = 2 ^ gs * i ∧ g.pgbuf = (2 ^ gs - 3) * g.nblocks * i
      ∧ g.prrows = b - 1 + i * gs) (hlt : bits.toNat < 2 ^ c) (hlen : n ≤ pprow.length * w)
    : ∃ g' pprow', (if bits = 0#w then
          return (g, pprow)
        else if bits = 1#w then do
          let pprow ← addGF2VecToGF2Vec pprow (readPtr g.rows g.buf (.row (b - 1 + i * gs))) n
          return (g, pprow)
        else do
          let (g, v) ← getgreasedata (bits.toNat + 1) g bits
          let pprow ← addGF2VecToGF2Vec pprow (readPtr g.rows g.buf v) n
          return (g, pprow) : Result (GreaseInfo w × List (BitVec w))) = .ok (g', pprow')
        ∧ Ready mr gs ((n + w - 1) / w) b bs size g' ∧ pprow'.length = pprow.length
        ∧ ∀ j, bitZ pprow' j = bitZ pprow j + rowSum mr (b - 1 + i * gs) gs bits.toNat j := by
  have hone : (1#w).toNat = 1 := by
    rw [BitVec.toNat_ofNat, mod_eq_of_lt (Nat.one_lt_two_pow (by omega))]
  have hzeroOut : ∀ p, p < 2 ^ c → ∀ j, n ≤ j → rowSum mr (b - 1 + i * gs) gs p j = 0 := by
    intro p hp j hj
    unfold rowSum
    apply sum_eq_zero
    intro x _
    by_cases hx : b - 1 + i * gs + x < l
    . rw [hr.entry_of_le hx hj, mul_zero]
    . have htest : p.testBit x = false := by
        apply testBit_lt_two_pow
        have := Nat.pow_le_pow_right (by decide : 0 < 2) (by omega : c ≤ x)
        omega
      rw [htest, zbit_false, zero_mul]
  split
  next hzero =>
    refine ⟨g, pprow, rfl, hg, rfl, ?_⟩
    intro j
    rw [hzero, BitVec.toNat_zero]
    unfold rowSum
    simp
  next hzero =>
    have hpos : 0 < bits.toNat := by
      apply Nat.pos_of_ne_zero
      intro h
      apply hzero
      apply BitVec.eq_of_toNat_eq
      rw [h, BitVec.toNat_zero]
    have hcpos : 0 < c := by
      apply Nat.pos_of_ne_zero
      intro h
      rw [h, Nat.pow_zero] at hlt
      omega
    split
    next hbits =>
      rw [hg.rows_eq]
      have hrow : rowSum mr (b - 1 + i * gs) gs (1#w).toNat = mr.entry (b - 1 + i * gs) := by
        funext j
        rw [hone]
        exact rowSum_two_pow mr (by omega : 0 < gs) j
      obtain ⟨pprow', hadd, hlen', hbit⟩ := addGF2VecToGF2Vec_spec hw hlen
        (reads_row hr hw (by omega : b - 1 + i * gs < l) g.buf)
        (fun j hj => hr.entry_of_le (by omega) hj)
      rw [hadd]
      refine ⟨g, pprow', rfl, hg, hlen', ?_⟩
      rw [hbits, hrow]
      exact hbit
    next hbits =>
      have hne : bits.toNat ≠ 1 := by
        intro h
        apply hbits
        apply BitVec.eq_of_toNat_eq
        rw [h, hone]
      have hctwo : 1 < c := by
        by_contra hle
        have : c = 1 := by
          omega
        rw [this] at hlt
        omega
      have hpow := Nat.pow_le_pow_right (by decide : 0 < 2) hc
      obtain ⟨hpgtags, hpgbuf, hprrows⟩ := hpg hctwo
      have htables := hg.tables (by omega)
      rw [← hg.nblocks_eq] at htables
      obtain ⟨tags, buf, ptr, hrun, htables', _, hreads⟩ := getgreasedata_spec hr hw hgs hgsw
        (by omega) (hg.rules (by omega)) hg.rows_eq hg.nblocks_eq hpgtags hpgbuf hprrows hi htables
        hpos (by omega : bits.toNat < 2 ^ gs)
        (by
          intro x hx
          have := ge_two_pow_of_testBit hx
          have : x < c := by
            by_contra hle
            have := Nat.pow_le_pow_right (by decide : 0 < 2) (by omega : c ≤ x)
            omega
          omega)
        (lt_succ_self bits.toNat)
      rw [hg.nblocks_eq] at htables' hreads
      obtain ⟨pprow', hadd, hlen', hbit⟩ := addGF2VecToGF2Vec_spec hw hlen hreads
        (hzeroOut bits.toNat hlt)
      rw [hrun]
      rw [ok_bind]
      dsimp only
      rw [hg.rows_eq, hadd]
      refine ⟨_, pprow', rfl, ⟨rfl, hg.nblocks_eq, hg.rules, fun _ => htables'⟩, hlen', hbit⟩

theorem unitStep_spec {i : Nat} (hgs : gs < 31) (hgsw : gs < w) (hpos : 0 < gs) (hb : 0 < b)
    (hl : l + gs < 2 ^ w) (hi : i < bs) (hk : b + i * gs ≤ l)
    (hg : Ready mr gs ((n + w - 1) / w) b bs size g) {rptr : List (BitVec w)}
    (hrptr : l ≤ rptr.length * w) (hlen : n ≤ pprow.length * w)
    (hsum : ∀ j, bitZ pprow j = ∑ k ∈ range (min (b - 1 + i * gs) l), bitZ rptr k * mr.entry k j)
    : ∃ g' pprow', unitStep gs (2 ^ gs) l n b rptr i (g, pprow) = .ok (g', pprow')
        ∧ Ready mr gs ((n + w - 1) / w) b bs size g' ∧ pprow'.length = pprow.length
        ∧ ∀ j, bitZ pprow' j
          = ∑ k ∈ range (min (b - 1 + (i + 1) * gs) l), bitZ rptr k * mr.entry k j := by
  have hk1 : b + i * gs - 1 = b - 1 + i * gs := by
    omega
  unfold unitStep
  dsimp only
  rw [mod_eq_of_lt (by omega : b + i * gs < 2 ^ w)]
  rw [mod_eq_of_lt (by omega : b + i * gs + gs < 2 ^ w)]
  rw [subWord_of_le (by omega) (by omega)]
  generalize hc : (if b + i * gs + gs > l then l + 1 - (b + i * gs) else gs) = c
  have hcEq : c = min gs (l + 1 - (b + i * gs)) := by
    rw [← hc]
    split
    . omega
    . omega
  rw [hk1]
  generalize hg1 : (if c > 1 then { g with
    pgtags := 2 ^ gs * i
    pgbuf := (2 ^ gs - 3) * g.nblocks * i
    prrows := b - 1 + i * gs } else g) = g1
  have hg1' : Ready mr gs ((n + w - 1) / w) b bs size g1 ∧ (1 < c → g1.pgtags = 2 ^ gs * i
      ∧ g1.pgbuf = (2 ^ gs - 3) * g1.nblocks * i ∧ g1.prrows = b - 1 + i * gs) := by
    rw [← hg1]
    split
    next h => exact ⟨⟨hg.rows_eq, hg.nblocks_eq, hg.rules, hg.tables⟩, fun _ => ⟨rfl, rfl, rfl⟩⟩
    next h => exact ⟨hg, fun h' => absurd h' h⟩
  obtain ⟨bits, hbits, hbit⟩ := getbits_spec (by omega : 0 < c) (by omega : c < w)
    (by omega : b + i * gs - 1 + c ≤ rptr.length * w)
  rw [hk1] at hbit
  obtain ⟨g', pprow', hrun, hg', hlen', hadd⟩ := addChunk_spec hw hr hgs hgsw hg1'.1 hi
    (by omega : c ≤ gs) (by omega) hg1'.2 (lt_two_pow_of_bits hbit) hlen
  rw [hbits]
  rw [ok_bind]
  refine ⟨g', pprow', hrun, hg', hlen', ?_⟩
  intro j
  have hend : min (b - 1 + (i + 1) * gs) l = b - 1 + i * gs + c := by
    rw [succ_mul]
    omega
  rw [hadd, hsum, hend, sum_range_add, Nat.min_eq_left (by omega)]
  congr 1
  apply rowSum_eq_sum mr (by omega : c ≤ gs)
  intro t
  rw [BitVec.testBit_toNat]
  exact hbit t

theorem unitLoop_spec (hgs : gs < 31) (hgsw : gs < w) (hpos : 0 < gs) (hb : 0 < b)
    (hl : l + gs < 2 ^ w) (hk : ∀ i, i < bs → b + i * gs ≤ l)
    (hg : Ready mr gs ((n + w - 1) / w) b bs size g) {rptr : List (BitVec w)}
    (hrptr : l ≤ rptr.length * w) (hlen : n ≤ pprow.length * w)
    (hsum : ∀ j, bitZ pprow j = ∑ k ∈ range (min (b - 1) l), bitZ rptr k * mr.entry k j)
    : ∃ s, forLoop (unitStep gs (2 ^ gs) l n b rptr) bs 0 (g, pprow) = .ok s
        ∧ Ready mr gs ((n + w - 1) / w) b bs size s.1 ∧ s.2.length = pprow.length
        ∧ ∀ j, bitZ s.2 j
          = ∑ k ∈ range (min (b - 1 + bs * gs) l), bitZ rptr k * mr.entry k j := by
  apply forLoop_of_inv (fun i s => Ready mr gs ((n + w - 1) / w) b bs size s.1
    ∧ s.2.length = pprow.length
    ∧ ∀ j, bitZ s.2 j = ∑ k ∈ range (min (b - 1 + i * gs) l), bitZ rptr k * mr.entry k j)
  . refine ⟨hg, rfl, ?_⟩
    rw [Nat.zero_mul]
    exact hsum
  . rintro i ⟨g, row⟩ _ hi ⟨hg, hrow, hsum⟩
    obtain ⟨g', row', hrun, hg', hrow', hsum'⟩ := unitStep_spec hw hr hgs hgsw hpos hb hl
      (by omega : i < bs) (hk i (by omega)) hg hrptr (by rw [hrow]; exact hlen) hsum
    exact ⟨_, hrun, hg', hrow'.trans hrow, hsum'⟩
  . rintro ⟨g, row⟩ h
    rw [Nat.zero_add] at h
    exact h

variable {ml : GF2Mat w} {m : Nat} (hm : ml.Valid m l)

structure RowDone (ml mr : GF2Mat w) (l n k r : Nat) (row : GF2Vec w) : Prop where
  len_eq : row.len = n
  enough : n ≤ row.blocks.length * w
  sum : ∀ j, bitZ row.blocks j = ∑ x ∈ range (min k l), ml.entry r x * mr.entry x j

include hm

theorem rowLoop_spec (hgs : gs < 31) (hgsw : gs < w) (hpos : 0 < gs) (hb : 0 < b)
    (hl : l + gs < 2 ^ w) (hk : ∀ i, i < bs → b + i * gs ≤ l)
    (hg : Ready mr gs ((n + w - 1) / w) b bs size g) {prod : List (GF2Vec w)}
    (hprod : prod.length = m)
    (hrows : ∀ r, r < m → RowDone ml mr l n (b - 1) r (prod.getD r (GF2Vec.new 0)))
    : ∃ s, forLoop (rowStep ml gs (2 ^ gs) l n b bs) m 1 (g, prod) = .ok s
        ∧ Ready mr gs ((n + w - 1) / w) b bs size s.1 ∧ s.2.length = m
        ∧ ∀ r, r < m → RowDone ml mr l n (b - 1 + bs * gs) r (s.2.getD r (GF2Vec.new 0)) := by
  apply forLoop_of_inv (fun i s => Ready mr gs ((n + w - 1) / w) b bs size s.1 ∧ s.2.length = m
    ∧ ∀ r, r < m → RowDone ml mr l n (if r + 1 < i then b - 1 + bs * gs else b - 1) r
      (s.2.getD r (GF2Vec.new 0)))
  . refine ⟨hg, hprod, ?_⟩
    intro r hr
    rw [if_neg (by omega)]
    exact hrows r hr
  . rintro i ⟨g, prod⟩ hi hlt ⟨hg, hlen, hrows⟩
    dsimp only at *
    have hlt' : i - 1 < m := by
      omega
    have hrow := hrows (i - 1) hlt'
    rw [if_neg (by omega)] at hrow
    obtain ⟨⟨g', pprow⟩, hrun, hg', hpprow, hsum⟩ := unitLoop_spec hw hr hgs hgsw hpos hb hl hk hg
      (hm.getD hlt').enough hrow.enough hrow.sum
    unfold rowStep
    dsimp only
    rw [readAt_of_lt (by rw [hm.length_eq]; exact hlt') (GF2Vec.new 0)]
    rw [ok_bind]
    rw [readAt_of_lt (by omega) (GF2Vec.new 0)]
    rw [ok_bind]
    rw [hrun]
    rw [ok_bind]
    dsimp only at *
    rw [writeAt_of_lt (by omega)]
    refine ⟨_, rfl, hg', by rw [List.length_set]; exact hlen, ?_⟩
    intro r hr
    rw [getD_set (by omega)]
    by_cases heq : r = i - 1
    . rw [if_pos heq, heq, if_pos (by omega)]
      refine ⟨hrow.len_eq, ?_, hsum⟩
      rw [hpprow]
      exact hrow.enough
    . rw [if_neg heq]
      have := hrows r hr
      by_cases hri : r + 1 < i
      . rw [if_pos hri] at this
        rw [if_pos (by omega)]
        exact this
      . rw [if_neg hri] at this
        rw [if_neg (by omega)]
        exact this
  . rintro ⟨g, prod⟩ ⟨hg, hlen, hrows⟩
    refine ⟨hg, hlen, ?_⟩
    intro r hr
    have := hrows r hr
    rw [if_pos (by omega)] at this
    exact this

omit hw hr hm in
theorem RowDone.congr {k k' r : Nat} {row : GF2Vec w} (h : RowDone ml mr l n k r row)
    (hk : min k' l = min k l) : RowDone ml mr l n k' r row where
  len_eq := h.len_eq
  enough := h.enough
  sum := by
    rw [hk]
    exact h.sum

structure Allocated (mr : GF2Mat w) (gs nwords size : Nat) (g : GreaseInfo w) : Prop where
  rows_eq : g.rows = mr.rows
  nblocks_eq : g.nblocks = nwords
  rules : 1 < gs → IsRules g.pgrules gs
  tags_len : 1 < gs → size * 2 ^ gs ≤ g.tags.length
  buf_len : 1 < gs → (2 ^ gs - 3) * size * nwords ≤ g.buf.length

omit hw hr hm in
theorem Ready.allocated {nwords : Nat} (h : Ready mr gs nwords b bs size g)
    : Allocated mr gs nwords size g where
  rows_eq := h.rows_eq
  nblocks_eq := h.nblocks_eq
  rules := h.rules
  tags_len := fun hgs => (h.tables hgs).tags_len
  buf_len := fun hgs => (h.tables hgs).buf_len

omit hw hr hm in
theorem Allocated.reset {nwords : Nat} (hgs : gs < 31) (h : Allocated mr gs nwords size g) (b : Nat)
    (hbs : bs ≤ size)
    : ∃ tags, (if gs > 1 then resetTags gs (2 ^ gs) bs g.tags else return g.tags
          : Result (List Nat)) = .ok tags
        ∧ Ready mr gs nwords b bs size { g with tags := tags } := by
  split
  next hgt =>
    have hle := Nat.mul_le_mul_right (2 ^ gs) hbs
    have htags := h.tags_len hgt
    obtain ⟨tags, hrun, hlen, hstart⟩ := resetTags_spec hgs (by omega : bs * 2 ^ gs ≤ g.tags.length)
    refine ⟨tags, hrun, h.rows_eq, h.nblocks_eq, h.rules, fun _ => ⟨hbs, ?_, h.buf_len hgt, ?_⟩⟩
    . rw [hlen]
      exact htags
    . intro i p hi _ hp
      left
      rw [Nat.mul_comm]
      exact hstart i p hi hp
  next hle =>
    exact ⟨g.tags, rfl, h.rows_eq, h.nblocks_eq, h.rules, fun hgt => absurd hgt hle⟩

structure IsBlockSize (w l gs size : Nat) : Prop where
  pos : 0 < size * gs % 2 ^ w
  le : size * gs % 2 ^ w ≤ l + gs
  eq : size * gs = size * gs % 2 ^ w ∨ size * gs % 2 ^ w = l ∧ l ≤ size * gs

omit hw hr hm in
theorem IsBlockSize.units (h : IsBlockSize w l gs size) (hpos : 0 < gs)
    (hl : 2 * l + 2 * gs < 2 ^ w) (hb : 0 < b) (hbl : b ≤ l)
    (hbs : (if (b + size * gs) % 2 ^ w > l then (l - b + gs) / gs else size) = bs)
    : (b + size * gs) % 2 ^ w = b + size * gs % 2 ^ w ∧ bs ≤ size ∧ (∀ i, i < bs → b + i * gs ≤ l)
      ∧ min (b + size * gs % 2 ^ w - 1) l = min (b - 1 + bs * gs) l := by
  have hle := h.le
  have hmod : (b + size * gs) % 2 ^ w = b + size * gs % 2 ^ w := by
    rw [add_mod, mod_eq_of_lt (by omega : b < 2 ^ w), mod_eq_of_lt (by omega)]
  rw [hmod] at hbs
  refine ⟨hmod, ?_⟩
  generalize hP : size * gs % 2 ^ w = P at *
  have heq := h.eq
  rw [hP] at heq
  split at hbs
  next hgt =>
    have hceil := div_add_mod (l - b + gs) gs
    have hlt := mod_lt (l - b + gs) hpos
    rw [hbs, Nat.mul_comm] at hceil
    refine ⟨?_, ?_, ?_⟩
    . rw [← hbs]
      apply le_of_lt_succ
      rw [Nat.div_lt_iff_lt_mul hpos, succ_mul]
      omega
    . intro i hi
      have := Nat.mul_le_mul_right gs hi
      rw [succ_mul] at this
      omega
    . omega
  next hle' =>
    have hPeq : size * gs = P := by
      rcases heq with h | ⟨h, _⟩
      . exact h
      . omega
    rw [← hbs]
    refine ⟨Nat.le_refl size, ?_, ?_⟩
    . intro i hi
      have := Nat.mul_le_mul_right gs hi
      rw [succ_mul] at this
      omega
    . rw [hPeq]
      congr 1
      omega

theorem blocksLoop_spec {fuel : Nat} (hgs : gs < 31) (hgsw : gs < w) (hpos : 0 < gs)
    (hl : 2 * l + 2 * gs < 2 ^ w) (hsize : IsBlockSize w l gs size) (hb : 0 < b)
    (hfuel : 0 < fuel ∧ l + 1 < fuel + b) (hg : Allocated mr gs ((n + w - 1) / w) size g)
    {prod : List (GF2Vec w)} (hprod : prod.length = m)
    (hrows : ∀ r, r < m → RowDone ml mr l n (b - 1) r (prod.getD r (GF2Vec.new 0)))
    : ∃ rows, blocksLoop ml gs (2 ^ gs) size l n fuel b g prod = .ok rows ∧ rows.length = m
        ∧ ∀ r, r < m → RowDone ml mr l n l r (rows.getD r (GF2Vec.new 0)) := by
  induction fuel generalizing b g prod with
  | zero => omega
  | succ fuel ih =>
    unfold blocksLoop
    split
    next hbl =>
      dsimp only
      generalize hbs : (if (b + size * gs) % 2 ^ w > l then (l - b + gs) / gs else size) = bs
      obtain ⟨hmod, hle, hk, hend⟩ := hsize.units hpos hl hb hbl hbs
      obtain ⟨tags, hreset, hready⟩ := hg.reset hgs b hle
      rw [hreset]
      rw [ok_bind]
      obtain ⟨⟨g', prod'⟩, hrun, hg', hlen', hrows'⟩ := rowLoop_spec hw hr hm hgs hgsw hpos hb
        (by omega) hk hready hprod hrows
      have hmlen : ml.len = m := hm.length_eq
      rw [hmlen, hrun]
      rw [ok_bind]
      dsimp only at *
      rw [hmod]
      have hP := hsize.pos
      apply ih (by omega) (by omega) hg'.allocated hlen'
      intro r hr
      apply (hrows' r hr).congr hend
    next hbl =>
      refine ⟨prod, rfl, hprod, ?_⟩
      intro r hr
      apply (hrows r hr).congr
      omega

end

end GF2Impl
