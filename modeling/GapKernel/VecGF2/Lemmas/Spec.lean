import GapKernel.VecGF2.Lemmas.Product

open BitBlocks GF2Vec GF2Mat Finset Nat

namespace GF2Impl

variable {w : Nat}

/-- The grease level fits into an `int`, and the size of a block does not become less by a wrap. -/
def GreaseFits (w l greasesize blocksize : Nat) : Prop :=
  min greasesize l < 31
    ∧ (min greasesize l * blocksize < 2 ^ w ∨ l ≤ min greasesize l * blocksize % 2 ^ w)

variable {l : Nat}

theorem five_le (hpos : 0 < l) (hl : l < 2 ^ (w - 4)) : 5 ≤ w := by
  by_contra hlt
  have : w - 4 = 0 := by
    omega
  rw [this, Nat.pow_zero] at hl
  omega

theorem length_bound (hpos : 0 < l) (hl : l < 2 ^ (w - 4)) : 2 * l + 3 * w < 2 ^ w := by
  have hw := five_le hpos hl
  obtain ⟨v, rfl⟩ := Nat.exists_eq_add_of_le hw
  have hv : ∀ v, 3 * (5 + v) < 28 * 2 ^ v := by
    intro v
    induction v with
    | zero => decide
    | succ v ih =>
      rw [Nat.pow_succ]
      omega
  have hsub : 5 + v - 4 = v + 1 := by
    omega
  have := hv v
  rw [hsub, Nat.pow_succ] at hl
  rw [Nat.pow_add]
  omega

theorem isBlockSize_of_fits {greasesize blocksize : Nat} (hlpos : 0 < l) (hl : l < 2 ^ (w - 4))
    (hgs : 0 < greasesize) (hgsw : greasesize < w) (hbs : 0 < blocksize)
    (hfits : GreaseFits w l greasesize blocksize)
    : IsBlockSize w l (min greasesize l)
        (if l < min greasesize l * blocksize % 2 ^ w then
          (l + min greasesize l - 1) / min greasesize l else blocksize) := by
  have hbound := length_bound hlpos hl
  have hwrap := hfits.2
  have hgspos : 0 < min greasesize l := by
    omega
  have hgsle : min greasesize l < w := by
    omega
  generalize min greasesize l = gs at *
  split
  next hlt =>
    have hceil := div_add_mod (l + gs - 1) gs
    have hmod := mod_lt (l + gs - 1) hgspos
    rw [Nat.mul_comm] at hceil
    have hP : (l + gs - 1) / gs * gs % 2 ^ w = (l + gs - 1) / gs * gs := by
      apply mod_eq_of_lt
      omega
    constructor
    . omega
    . omega
    . exact Or.inl hP.symm
  next hle =>
    rw [Nat.mul_comm] at *
    have hpos := Nat.mul_pos hbs hgspos
    rcases hwrap with h | h
    . have hP := mod_eq_of_lt h
      constructor
      . omega
      . omega
      . exact Or.inl hP.symm
    . have := mod_le (blocksize * gs) (2 ^ w)
      constructor
      . omega
      . omega
      . right
        omega

section

variable {ml mr : GF2Mat w} {m l n : Nat} (hm : ml.Valid m l) (hr : mr.Valid l n)
variable (hlpos : 0 < l) (hl : l < 2 ^ (w - 4))

include hm hr hlpos hl

theorem prodGF2MatGF2MatAdvanced_of_fits {greasesize blocksize : Nat} (hgs : 0 < greasesize)
    (hgsw : greasesize < w) (hbs : 0 < blocksize) (hfits : GreaseFits w l greasesize blocksize)
    : ∃ prod, prodGF2MatGF2MatAdvanced ml mr greasesize blocksize = .ok prod
        ∧ prod.IsProduct ml mr m l n := by
  have hw : 0 < w := by
    omega
  have hbound := length_bound hlpos hl
  have hsize := isBlockSize_of_fits hlpos hl hgs hgsw hbs hfits
  have hlen : mr.len = l := hr.length_eq
  have hmlen : ml.len = m := hm.length_eq
  have hmin : (if l < greasesize then l else greasesize) = min greasesize l := by
    split
    . omega
    . omega
  have hgs31 := hfits.1
  have hgspos : 0 < min greasesize l := by
    omega
  have hgsle : min greasesize l < w := by
    omega
  unfold prodGF2MatGF2MatAdvanced
  rw [hr.elm hlpos]
  rw [ok_bind]
  dsimp only
  rw [hlen, hmlen, hmin]
  generalize min greasesize l = gs at *
  generalize (if l < gs * blocksize % 2 ^ w then (l + gs - 1) / gs else blocksize) = size at *
  rw [oneShl_of_lt hgs31]
  rw [ok_bind]
  unfold GF2Vec.numberBlocks
  rw [(hr.getD hlpos).len_eq]
  obtain ⟨g, hg, halloc⟩ : ∃ g : GreaseInfo w, (if gs ≥ 2 then do
        let rules ← makeRules gs (2 ^ gs)
        return {
          tags := List.replicate (2 ^ gs * size) 0
          buf := List.replicate ((n + w - 1) / w * (2 ^ gs - 3) * size) 0#w
          rows := mr.rows
          pgtags := 0
          pgbuf := 0
          nblocks := (n + w - 1) / w
          pgrules := rules
          prrows := 0 }
      else
        return ⟨[], [], mr.rows, 0, 0, (n + w - 1) / w, [], 0⟩ : Result (GreaseInfo w)) = .ok g
      ∧ Allocated mr gs ((n + w - 1) / w) size g := by
    split
    next htwo =>
      obtain ⟨rules, hrun, hrules⟩ := makeRules_spec htwo hgs31
      rw [hrun]
      refine ⟨_, rfl, rfl, rfl, fun _ => hrules, ?_, ?_⟩
      . intro _
        rw [List.length_replicate, Nat.mul_comm]
      . intro _
        rw [List.length_replicate, Nat.mul_assoc _ _ size, Nat.mul_comm]
    next htwo =>
      exact ⟨_, rfl, rfl, rfl, fun h => absurd h htwo, fun h => absurd h htwo,
        fun h => absurd h htwo⟩
  rw [hg]
  rw [ok_bind]
  have hnew := valid_new hw n
  obtain ⟨rows, hrun, hrows, hdone⟩ := blocksLoop_spec hw hr hm hgs31 hgsle hgspos
    (by omega) hsize Nat.one_pos (by omega : 0 < l + 1 ∧ l + 1 < l + 1 + 1) halloc
    (List.length_replicate : (List.replicate m (GF2Vec.new n : GF2Vec w)).length = m)
    (by
      intro r hr
      have hget : (List.replicate m (GF2Vec.new n)).getD r (GF2Vec.new 0)
          = (GF2Vec.new n : GF2Vec w) := by
        rw [List.getD_eq_getElem?_getD, List.getElem?_replicate, if_pos hr]
        rfl
      rw [hget]
      refine ⟨rfl, hnew.enough, ?_⟩
      intro j
      rw [Nat.sub_self, Nat.zero_min, sum_range_zero]
      exact bitZ_replicate _ _)
  rw [hrun]
  refine ⟨⟨rows⟩, rfl, ⟨hrows, ?_⟩, ?_⟩
  . intro v hv
    obtain ⟨r, hr', hget⟩ := List.getElem_of_mem hv
    have hrow := hdone r (hrows ▸ hr')
    rw [List.getD_eq_getElem?_getD, List.getElem?_eq_getElem hr', hget, Option.getD_some] at hrow
    refine ⟨hrow.len_eq, hrow.enough, ?_⟩
    intro j hj
    rw [hrow.sum]
    apply sum_eq_zero
    intro k hk
    rw [mem_range] at hk
    rw [hr.entry_of_le (by omega) hj, mul_zero]
  . intro r j hr' _
    have := (hdone r hr').sum j
    rw [Nat.min_self] at this
    exact this

end

theorem getbits_ne_ok {k : Nat} (vptr : List (BitVec w)) (hk : l < k) (hw : 0 < w) (hkl : k ≤ l + w)
    (hbound : l + 3 * w < 2 ^ w) (bits : BitVec w)
    : getbits vptr k (subWord w (l + 1) k) ≠ .ok bits := by
  have hshift : ∀ (word word' : BitVec w) (n : Nat), w ≤ n →
      shlWord word n ≠ .ok word' ∧ shrWord word n ≠ .ok word' := by
    intro word word' n hn
    unfold shlWord shrWord
    rw [if_neg (by omega), if_neg (by omega)]
    constructor
    . intro h
      cases h
    . intro h
      cases h
  have hmod := mod_lt (k - 1) hw
  unfold getbits
  dsimp only
  generalize (k - 1) % w = shift1 at *
  cases readAt vptr ((k - 1) / w) with
  | error e =>
    intro h
    cases h
  | ok word1 =>
    rw [ok_bind]
    by_cases hzero : k = l + 1
    . have hn : subWord w (l + 1) k = 0 := by
        unfold subWord
        rw [hzero, Nat.add_sub_cancel' (by omega), mod_self]
      have hsub : subWord w w 0 = w := by
        unfold subWord
        rw [Nat.sub_zero, add_mod_right, mod_eq_of_lt (by omega)]
      rw [hn, hsub, Nat.add_zero, mod_eq_of_lt (by omega), if_pos (by omega)]
      cases shlWord word1 (w - shift1) with
      | error e =>
        intro h
        cases h
      | ok word =>
        rw [ok_bind]
        exact (hshift word bits w (Nat.le_refl w)).2
    . obtain ⟨d, hd⟩ : ∃ d, k = l + 1 + d := ⟨k - l - 1, by omega⟩
      have hn : subWord w (l + 1) k = 2 ^ w - d := by
        unfold subWord
        rw [mod_eq_of_lt (by omega)]
        omega
      rw [hn]
      by_cases hds : d ≤ shift1
      . have hlbit : (shift1 + (2 ^ w - d)) % 2 ^ w = shift1 - d := by
          have : shift1 + (2 ^ w - d) = shift1 - d + 2 ^ w := by
            omega
          rw [this, add_mod_right, mod_eq_of_lt (by omega)]
        have hsub : subWord w w (2 ^ w - d) = w + d := by
          unfold subWord
          rw [mod_eq_of_lt (by omega)]
          omega
        rw [hlbit, hsub, if_pos (by omega)]
        cases shlWord word1 (w - (shift1 - d)) with
        | error e =>
          intro h
          cases h
        | ok word =>
          rw [ok_bind]
          exact (hshift word bits (w + d) (Nat.le_add_right w d)).2
      . have hlbit : (shift1 + (2 ^ w - d)) % 2 ^ w = 2 ^ w - (d - shift1) := by
          rw [mod_eq_of_lt (by omega)]
          omega
        rw [hlbit, if_neg (by omega)]
        have hsub : subWord w w (2 ^ w - (d - shift1) - w) = 2 * w + (d - shift1) := by
          unfold subWord
          rw [mod_eq_of_lt (by omega)]
          omega
        rw [hsub]
        cases shrWord word1 shift1 with
        | error e =>
          intro h
          cases h
        | ok word1' =>
          rw [ok_bind]
          cases readAt vptr ((k - 1) / w + 1) with
          | error e =>
            intro h
            cases h
          | ok word2 =>
            rw [ok_bind]
            cases hshl : shlWord word2 (2 * w + (d - shift1)) with
            | error e =>
              intro h
              cases h
            | ok word2' => exact absurd hshl (hshift word2 word2' _ (by omega)).1

section

variable {ml mr : GF2Mat w} {m l n : Nat} (hm : ml.Valid m l) (hr : mr.Valid l n)
variable (hmpos : 0 < m) (hlpos : 0 < l) (hl : l < 2 ^ (w - 4))

include hlpos hl

theorem rowStep_ne_ok {gs size : Nat} (hgsw : gs < w) (hgs : 0 < gs) (hsize : 2 ^ w ≤ size * gs)
    (glen rlen j : Nat) (s s' : GreaseInfo w × List (GF2Vec w))
    : rowStep ml gs glen l rlen 1 size j s ≠ .ok s' := by
  have hbound := length_bound hlpos hl
  have hunit : ∀ rptr (u u' : GreaseInfo w × List (BitVec w)),
      forLoop (unitStep gs glen l rlen 1 rptr) size 0 u ≠ .ok u' := by
    intro rptr
    have hceil := div_add_mod (l + gs - 1) gs
    have hmod := mod_lt (l + gs - 1) hgs
    rw [Nat.mul_comm] at hceil
    have hlt : (l + gs - 1) / gs < size := by
      apply Nat.lt_of_mul_lt_mul_right (a := gs)
      omega
    apply forLoop_ne_ok (Nat.zero_le _) (by omega : (l + gs - 1) / gs < 0 + size)
    rintro ⟨g, pprow⟩ u'
    unfold unitStep
    dsimp only
    generalize (l + gs - 1) / gs * gs = i at *
    rw [mod_eq_of_lt (by omega : 1 + i < 2 ^ w)]
    rw [mod_eq_of_lt (by omega : 1 + i + gs < 2 ^ w), if_pos (by omega)]
    intro hrun
    cases hbits : getbits rptr (1 + i) (subWord w (l + 1) (1 + i)) with
    | error e =>
      rw [hbits] at hrun
      cases hrun
    | ok bits => exact getbits_ne_ok rptr (by omega) (by omega) (by omega) (by omega) bits hbits
  unfold rowStep
  dsimp only
  intro hrun
  cases hrptr : readAt ml.rows (j - 1) with
  | error e =>
    rw [hrptr] at hrun
    cases hrun
  | ok rptr =>
    rw [hrptr] at hrun
    rw [ok_bind] at hrun
    cases hrow : readAt s.2 (j - 1) with
    | error e =>
      rw [hrow] at hrun
      cases hrun
    | ok row =>
      rw [hrow] at hrun
      rw [ok_bind] at hrun
      cases hloop : forLoop (unitStep gs glen l rlen 1 rptr.blocks) size 0 (s.1, row.blocks) with
      | error e =>
        rw [hloop] at hrun
        cases hrun
      | ok u => exact hunit _ _ u hloop

include hm hr hmpos

theorem fits_of_prodGF2MatGF2MatAdvanced {greasesize blocksize : Nat} (hgs : 0 < greasesize)
    (hgsw : greasesize < w) {prod : GF2Mat w}
    (hrun : prodGF2MatGF2MatAdvanced ml mr greasesize blocksize = .ok prod)
    : GreaseFits w l greasesize blocksize := by
  have hbound := length_bound hlpos hl
  have hlen : mr.len = l := hr.length_eq
  have hmlen : ml.len = m := hm.length_eq
  have hmin : (if l < greasesize then l else greasesize) = min greasesize l := by
    split
    . omega
    . omega
  have hgspos : 0 < min greasesize l := by
    omega
  have hgsle : min greasesize l < w := by
    omega
  unfold GreaseFits
  unfold prodGF2MatGF2MatAdvanced at hrun
  rw [hr.elm hlpos] at hrun
  rw [ok_bind] at hrun
  dsimp only at hrun
  rw [hlen, hmlen, hmin] at hrun
  generalize min greasesize l = gs at *
  by_cases hgs31 : gs < 31
  . refine ⟨hgs31, ?_⟩
    by_contra hwrap
    rw [not_or, Nat.not_lt, Nat.not_le] at hwrap
    rw [if_neg (by omega), oneShl_of_lt hgs31] at hrun
    rw [ok_bind] at hrun
    generalize (if gs ≥ 2 then _ else _ : Result (GreaseInfo w)) = start at hrun
    have hbs1 : (if (1 + blocksize * gs) % 2 ^ w > l then (l - 1 + gs) / gs else blocksize)
        = blocksize := by
      rw [if_neg]
      rw [add_mod, Nat.mul_comm, mod_eq_of_lt (by omega : 1 < 2 ^ w)]
      rw [mod_eq_of_lt (by omega)]
      omega
    cases start with
    | error e => cases hrun
    | ok g =>
      rw [ok_bind] at hrun
      unfold blocksLoop at hrun
      rw [if_pos (by omega : 1 ≤ l)] at hrun
      dsimp only at hrun
      rw [hbs1] at hrun
      generalize (if gs > 1 then _ else _ : Result (List Nat)) = reset at hrun
      cases reset with
      | error e => cases hrun
      | ok tags =>
        rw [ok_bind] at hrun
        cases hloop : forLoop (rowStep ml gs (2 ^ gs) l (mr.rows.getD 0 (GF2Vec.new 0)).len 1
            blocksize) ml.len 1 ({ g with tags := tags },
              List.replicate m (GF2Vec.new (mr.rows.getD 0 (GF2Vec.new 0)).len)) with
        | error e =>
          rw [hloop] at hrun
          cases hrun
        | ok s =>
          apply forLoop_ne_ok (Nat.le_refl 1) (by omega : 1 < 1 + ml.len) _ _ s hloop
          apply rowStep_ne_ok hlpos hl hgsle hgspos
          rw [Nat.mul_comm]
          exact hwrap.1
  . unfold oneShl at hrun
    rw [if_neg hgs31] at hrun
    cases hrun

end

structure UnitReady (mr : GF2Mat w) (gs nwords b bs size i : Nat) (g : GreaseInfo w) : Prop where
  lt : i < bs
  rows_eq : g.rows = mr.rows
  nblocks_eq : g.nblocks = nwords
  pgtags_eq : g.pgtags = 2 ^ gs * i
  pgbuf_eq : g.pgbuf = (2 ^ gs - 3) * g.nblocks * i
  prrows_eq : g.prrows = b - 1 + i * gs
  rules : IsRules g.pgrules gs
  tables : Tables mr gs g.nblocks b bs size g.tags g.buf

def LooksUpSums (mr : GF2Mat w) (l n : Nat) : Prop :=
  ∀ gs b bs size i (g : GreaseInfo w) (bits : BitVec w), gs < 31 → gs < w → 2 ≤ gs →
    UnitReady mr gs ((n + w - 1) / w) b bs size i g → 0 < bits.toNat → bits.toNat < 2 ^ gs →
    (∀ x, bits.getLsbD x = true → b - 1 + i * gs + x < l) →
    ∃ g' ptr, getgreasedata (bits.toNat + 1) g bits = .ok (g', ptr)
      ∧ UnitReady mr gs ((n + w - 1) / w) b bs size i g'
      ∧ Reads (readPtr mr.rows g'.buf ptr) ((n + w - 1) / w) (fun j =>
          ∑ x ∈ range gs, zbit (bits.getLsbD x) * mr.entry (b - 1 + i * gs + x) j)

theorem looksUpSums (hw : 0 < w) {mr : GF2Mat w} {n : Nat} (hr : mr.Valid l n)
    : LooksUpSums mr l n := by
  intro gs b bs size i g bits hgs hgsw htwo h hpos hlt hl
  obtain ⟨tags, buf, ptr, hrun, htables, _, hreads⟩ := getgreasedata_spec hr hw hgs hgsw htwo
    h.rules h.rows_eq h.nblocks_eq h.pgtags_eq h.pgbuf_eq h.prrows_eq h.lt h.tables hpos hlt hl
    (lt_succ_self bits.toNat)
  rw [h.nblocks_eq] at hreads
  exact ⟨_, ptr, hrun, ⟨h.lt, h.rows_eq, h.nblocks_eq, h.pgtags_eq, h.pgbuf_eq, h.prrows_eq,
    h.rules, htables⟩, hreads⟩

section

variable {ml mr : GF2Mat w} {m l n : Nat} (hm : ml.Valid m l) (hr : mr.Valid l n)
variable (hmpos : 0 < m) (hlpos : 0 < l) (hl : l < 2 ^ (w - 4))

include hm hr hmpos hlpos hl

theorem prodGF2MatGF2Mat_spec
    : ∃ prod, prodGF2MatGF2Mat ml mr = .ok prod ∧ prod.IsProduct ml mr m l n := by
  have hbound := length_bound hlpos hl
  have hw : 0 < w := Nat.lt_of_lt_of_le (by decide) (five_le hlpos hl)
  have hsimple := prodGF2MatGF2MatSimple_spec hw hr hlpos hm
  unfold prodGF2MatGF2Mat
  split
  next =>
    rw [hm.elm hmpos]
    rw [ok_bind]
    dsimp only
    rw [hr.elm hlpos]
    rw [ok_bind]
    rw [(hm.getD hmpos).len_eq]
    split
    next hlarge =>
      have hpow : 2 ^ 7 < 2 ^ (w - 4) := by
        omega
      have hw8 := (Nat.pow_lt_pow_iff_right (by decide : 1 < 2)).mp hpow
      apply prodGF2MatGF2MatAdvanced_of_fits hm hr hlpos hl
      . decide
      . omega
      . omega
      . refine ⟨by omega, Or.inl ?_⟩
        have : min 8 l = 8 := by
          omega
        rw [this]
        omega
    next => exact hsimple
  next => exact hsimple

end

def zeroMat (m n : Nat) : GF2Mat w :=
  { rows := List.replicate m (GF2Vec.new n) }

theorem valid_zeroMat (hw : 0 < w) (m n : Nat) : (zeroMat m n : GF2Mat w).Valid m n where
  length_eq := List.length_replicate
  row := by
    intro v hv
    rw [(List.mem_replicate.mp hv).2]
    exact valid_new hw n

end GF2Impl
