import GapKernel.Integer.Lemmas.Value
import GapKernel.VecGF2.Lemmas.Simple

open BitBlocks BitNumber List

section Blocks

variable {w : Nat}

def blockBits (a : BitVec w) (n : Nat) : List Bool :=
  (List.range n).map a.getLsbD

def bitsFrom (blocks : List (BitVec w)) (i n : Nat) : List Bool :=
  (List.range n).map (fun j => bitAt blocks (i + j))

theorem length_blockBits (a : BitVec w) (n : Nat) : (blockBits a n).length = n := by
  simp [blockBits]

theorem length_bitsFrom (blocks : List (BitVec w)) (i n : Nat)
    : (bitsFrom blocks i n).length = n := by
  simp [bitsFrom]

theorem blockBits_add (a : BitVec w) (m n : Nat)
    : blockBits a (m + n) = blockBits a m ++ blockBits (a >>> m) n := by
  unfold blockBits
  rw [range_add, map_append, map_map]
  congr 1
  apply map_congr_left
  intro i _
  simp

theorem bitsFrom_add (blocks : List (BitVec w)) (i m n : Nat)
    : bitsFrom blocks i (m + n) = bitsFrom blocks i m ++ bitsFrom blocks (i + m) n := by
  unfold bitsFrom
  rw [range_add, map_append, map_map]
  congr 1
  apply map_congr_left
  intro j _
  dsimp only [Function.comp_apply]
  rw [Nat.add_assoc]

theorem bitsFrom_block (blocks : List (BitVec w)) (k : Nat) {n : Nat} (hn : n ≤ w)
    : bitsFrom blocks (w * k) n = blockBits (blocks.getD k 0#w) n := by
  apply map_congr_left
  intro j hj
  rw [mem_range] at hj
  exact bitAt_mul_add (by omega)

end Blocks

namespace GF2Vec

variable {w : Nat}

def HasBlocks (v : GF2Vec w) : Prop :=
  v.len ≤ v.blocks.length * w

instance (v : GF2Vec w) : Decidable v.HasBlocks :=
  inferInstanceAs (Decidable (_ ≤ _))

def entries (v : GF2Vec w) : List Bool :=
  bitsFrom v.blocks 0 v.len

theorem length_entries (v : GF2Vec w) : v.entries.length = v.len :=
  length_bitsFrom _ _ _

theorem entries_eq_nil_iff (v : GF2Vec w) : v.entries = [] ↔ v.len = 0 := by
  rw [← length_eq_zero_iff, length_entries]

theorem HasBlocks.numberBlocks_le {v : GF2Vec w} (h : v.HasBlocks) (hw : 0 < w)
    : v.numberBlocks ≤ v.blocks.length :=
  ceilDiv_le hw h

end GF2Vec

namespace GF2Impl

section Revert

variable {w : Nat}

theorem revertlist_getD : ∀ x < 256,
    revertlist.getD x 0 = number ((range 8).map (Nat.testBit x)) := by
  decide +kernel

theorem toNat_and_255 (hw : 8 ≤ w) (a : BitVec w)
    : (a &&& BitVec.ofNat w 255).toNat = a.toNat % 256 := by
  have hpow : 2 ^ 8 ≤ 2 ^ w := Nat.pow_le_pow_right (by decide) hw
  rw [BitVec.toNat_and, BitVec.toNat_ofNat, Nat.mod_eq_of_lt (by omega)]
  exact Nat.and_two_pow_sub_one_eq_mod a.toNat 8

theorem toNat_revertByte (hw : 8 ≤ w) (a : BitVec w)
    : (revertByte a).toNat = number (blockBits a 8) := by
  have hpow : 2 ^ 8 ≤ 2 ^ w := Nat.pow_le_pow_right (by decide) hw
  have hlt := number_lt (blockBits a 8)
  have hbits : (range 8).map (Nat.testBit (a.toNat % 256)) = blockBits a 8 := by
    apply map_congr_left
    intro i hi
    rw [mem_range] at hi
    rw [show 256 = 2 ^ 8 from rfl, Nat.testBit_mod_two_pow, decide_eq_true hi, Bool.true_and]
    rfl
  rw [length_blockBits] at hlt
  unfold revertByte
  rw [toNat_and_255 hw, revertlist_getD _ (Nat.mod_lt _ (by decide)), hbits]
  rw [BitVec.toNat_ofNat, Nat.mod_eq_of_lt (by omega)]

theorem revertLoop_succ (n : Nat) (a b : BitVec w)
    : revertLoop (n + 9) a b = revertLoop (n + 1) (a >>> 8) ((b <<< 8) + revertByte a) :=
  rfl

variable {n : Nat}

theorem revertLoop_of_le (hn : n ≤ 8) (a b : BitVec w)
    : revertLoop n a b = (b <<< n) + (revertByte a >>> (8 - n)) := by
  interval_cases n <;> rfl

theorem toNat_shl_add {b x : BitVec w} {m : Nat} (hm : m + n ≤ w) (hb : b.toNat < 2 ^ m)
    (hx : x.toNat < 2 ^ n) : ((b <<< n) + x).toNat = b.toNat * 2 ^ n + x.toNat := by
  have hpow : 2 ^ (m + n) ≤ 2 ^ w := Nat.pow_le_pow_right (by decide) hm
  have hle : (b.toNat + 1) * 2 ^ n ≤ 2 ^ m * 2 ^ n := Nat.mul_le_mul_right _ hb
  rw [← Nat.pow_add, Nat.add_mul, Nat.one_mul] at hle
  rw [BitVec.toNat_add, BitVec.toNat_shiftLeft, Nat.shiftLeft_eq]
  rw [Nat.mod_eq_of_lt (by omega : b.toNat * 2 ^ n < 2 ^ w), Nat.mod_eq_of_lt (by omega)]

theorem toNat_revertByte_shr (hw : 8 ≤ w) (a : BitVec w) (hn : n ≤ 8)
    : (revertByte a >>> (8 - n)).toNat = number (blockBits a n) := by
  have hsplit := blockBits_add a n (8 - n)
  have hlt := number_lt (blockBits (a >>> n) (8 - n))
  rw [length_blockBits] at hlt
  rw [BitVec.toNat_ushiftRight, toNat_revertByte hw, Nat.shiftRight_eq_div_pow]
  rw [show 8 = n + (8 - n) by omega, hsplit, number_append, length_blockBits]
  rw [show n + (8 - n) - n = 8 - n by omega, Nat.mul_comm]
  rw [Nat.mul_add_div (Nat.two_pow_pos _), Nat.div_eq_of_lt hlt, Nat.add_zero]

theorem revertLoop_spec (hw : 8 ≤ w) (n : Nat) (a b : BitVec w) {m : Nat} (hm : m + n ≤ w)
    (hb : b.toNat < 2 ^ m)
    : (revertLoop n a b).toNat = b.toNat * 2 ^ n + number (blockBits a n) := by
  induction n using Nat.strongRecOn generalizing a b m with
  | ind n ih =>
    by_cases hn : n ≤ 8
    . have hlt := number_lt (blockBits a n)
      rw [length_blockBits] at hlt
      rw [revertLoop_of_le hn, toNat_shl_add hm hb, toNat_revertByte_shr hw a hn]
      rw [toNat_revertByte_shr hw a hn]
      exact hlt
    . obtain ⟨k, rfl⟩ : ∃ k, n = k + 9 := ⟨n - 9, by omega⟩
      have hlt := number_lt (blockBits a 8)
      rw [length_blockBits] at hlt
      have hbyte := toNat_revertByte hw a
      have hsum := toNat_shl_add (x := revertByte a) (n := 8) (by omega : m + 8 ≤ w) hb
        (by rw [hbyte]; exact hlt)
      have hnext : ((b <<< 8) + revertByte a).toNat < 2 ^ (m + 8) := by
        rw [hsum, hbyte, Nat.pow_add]
        have := Nat.mul_le_mul_right (2 ^ 8) (Nat.succ_le_of_lt hb)
        rw [Nat.succ_mul] at this
        omega
      rw [revertLoop_succ, ih (k + 1) (by omega) _ _ (by omega) hnext, hsum, hbyte]
      rw [show k + 9 = 8 + (k + 1) by omega, blockBits_add a 8 (k + 1), number_append]
      rw [length_blockBits, Nat.pow_add 2 8]
      ring

theorem toNat_revertbits (hw : 8 ≤ w) (a : BitVec w) (hn : n ≤ w)
    : (revertbits a n).toNat = number (blockBits a n) := by
  unfold revertbits
  rw [revertLoop_spec hw n a 0#w (m := 0) (by omega) (by simp)]
  simp

end Revert

section Compare

variable {w : Nat} (hw : 8 ≤ w)

include hw

variable {n : Nat}

theorem cmp_revertbits (x y : BitVec w) (hn : n ≤ w)
    : cmpLists cmpBit (blockBits x n) (blockBits y n)
        = if revertbits x n < revertbits y n then -1
          else if revertbits y n < revertbits x n then 1 else 0 := by
  rw [cmpLists_eq_of_length (by rw [length_blockBits, length_blockBits])]
  rw [← toNat_revertbits hw x hn, ← toNat_revertbits hw y hn]
  rfl

omit hw in
theorem blockBits_inj {x y : BitVec w} (h : blockBits x w = blockBits y w) : x = y := by
  apply BitVec.eq_of_getLsbD_eq
  intro i hi
  have := congrArg (fun l => l[i]?) h
  simpa [blockBits, hi] using this

theorem cmpBlocks_spec {bl br : List (BitVec w)} {i : Nat} (hl : i + n ≤ bl.length)
    (hr : i + n ≤ br.length)
    : ∃ res, cmpBlocks bl br n i = .ok res
        ∧ (res = none → bitsFrom bl (w * i) (w * n) = bitsFrom br (w * i) (w * n))
        ∧ ∀ x, res = some x → x ≠ 0
          ∧ cmpLists cmpBit (bitsFrom bl (w * i) (w * n)) (bitsFrom br (w * i) (w * n)) = x := by
  induction n generalizing i with
  | zero => exact ⟨none, rfl, fun _ => rfl, (fun x hx => nomatch hx)⟩
  | succ n ih =>
    unfold cmpBlocks
    rw [readAt_of_lt (by omega) 0#w, ok_bind, readAt_of_lt (by omega) 0#w, ok_bind]
    have hsplit : ∀ blocks : List (BitVec w), bitsFrom blocks (w * i) (w * (n + 1))
        = blockBits (blocks.getD i 0#w) w ++ bitsFrom blocks (w * (i + 1)) (w * n) := by
      intro blocks
      rw [Nat.mul_succ, Nat.add_comm, bitsFrom_add, bitsFrom_block _ _ (Nat.le_refl w)]
      rw [← Nat.mul_succ]
    rw [hsplit, hsplit]
    split
    . next hne =>
      have hcmp := cmp_revertbits hw (bl.getD i 0#w) (br.getD i 0#w) (Nat.le_refl w)
      have hnz : cmpLists cmpBit (blockBits (bl.getD i 0#w) w) (blockBits (br.getD i 0#w) w)
          ≠ 0 := by
        rw [Ne, cmpLists_eq_zero_iff cmpBit_eq_zero_iff]
        exact fun h => hne (blockBits_inj h)
      rw [cmpLists_append_of_ne (by rw [length_blockBits, length_blockBits]) hnz]
      rw [hcmp] at hnz ⊢
      split
      . next hlt =>
        refine ⟨_, rfl, (fun h => nomatch h), ?_⟩
        rintro x ⟨⟩
        exact ⟨by decide, rfl⟩
      . next hlt =>
        rw [if_neg hlt] at hnz
        refine ⟨_, rfl, (fun h => nomatch h), ?_⟩
        rintro x ⟨⟩
        refine ⟨by decide, ?_⟩
        split
        . rfl
        . next hgt =>
          rw [if_neg hgt] at hnz
          exact absurd rfl hnz
    . next heq =>
      rw [not_not] at heq
      obtain ⟨res, hrun, hnone, hsome⟩ := ih (i := i + 1) (by omega) (by omega)
      rw [heq, cmpLists_append (fun b => (cmpBit_eq_zero_iff b b).mpr rfl)]
      exact ⟨res, hrun, fun h => by rw [hnone h], hsome⟩

omit hw in
theorem cmpLists_rest (x y : List Bool) (hlen : x.length = y.length) (x' y' : List Bool)
    (hrest : x' = [] ∨ y' = [])
    : cmpLists cmpBit (x ++ x') (y ++ y')
        = if number x < number y then -1
          else if number y < number x then 1
          else if y' ≠ [] then -1
          else if x' ≠ [] then 1
          else 0 := by
  have hnumber := cmpLists_eq_of_length hlen
  by_cases hne : cmpLists cmpBit x y = 0
  . have heq := (cmpLists_eq_zero_iff cmpBit_eq_zero_iff x y).mp hne
    rw [heq, cmpLists_append (fun b => (cmpBit_eq_zero_iff b b).mpr rfl)]
    rw [if_neg (Nat.lt_irrefl _), if_neg (Nat.lt_irrefl _)]
    rcases hrest with hx | hy
    . rw [hx, cmpLists_nil_left]
      simp
    . rw [hy, cmpLists_nil_right]
      simp
  . rw [cmpLists_append_of_ne hlen hne]
    rw [hnumber] at hne ⊢
    split
    . rfl
    . next hlt =>
      rw [if_neg hlt] at hne
      split
      . rfl
      . next hgt =>
        rw [if_neg hgt] at hne
        exact absurd rfl hne

omit hw in
theorem numberBlocks_min (hw : 0 < w) (vl vr : GF2Vec w)
    : (if vr.numberBlocks < vl.numberBlocks then vr.numberBlocks else vl.numberBlocks)
        = (min vl.len vr.len + w - 1) / w := by
  unfold GF2Vec.numberBlocks
  rcases Nat.le_total vl.len vr.len with h | h
  . have := Nat.div_le_div_right (c := w) (show vl.len + w - 1 ≤ vr.len + w - 1 by omega)
    rw [Nat.min_eq_left h, if_neg (by omega)]
  . have := Nat.div_le_div_right (c := w) (show vr.len + w - 1 ≤ vl.len + w - 1 by omega)
    rw [Nat.min_eq_right h]
    split
    . rfl
    . omega

omit hw in
theorem lastBits_eq (hw : 0 < w) (hn : 0 < n)
    : (if n % w = 0 then w else n % w) = (n - 1) % w + 1 := by
  obtain ⟨m, rfl⟩ : ∃ m, n = m + 1 := ⟨n - 1, by omega⟩
  rw [Nat.add_sub_cancel]
  have hmod := Nat.mod_lt m hw
  by_cases hlast : m % w + 1 = w
  . rw [succ_mod_of_eq hlast, if_pos rfl, hlast]
  . rw [succ_mod_of_lt (by omega), if_neg (by omega)]

theorem cmpGF2VecGF2Vec_spec {vl vr : GF2Vec w} (hl : vl.HasBlocks) (hr : vr.HasBlocks)
    : cmpGF2VecGF2Vec vl vr = .ok (if vl.len = 0 ∨ vr.len = 0 then 0
        else cmpLists cmpBit vl.entries vr.entries) := by
  have hpos : 0 < w := by
    omega
  have hlen : (if vl.len > vr.len then vr.len else vl.len) = min vl.len vr.len := by
    split
    . omega
    . omega
  unfold cmpGF2VecGF2Vec
  dsimp only
  rw [numberBlocks_min hpos, hlen]
  by_cases hzero : min vl.len vr.len = 0
  . rw [if_pos (by omega : vl.len = 0 ∨ vr.len = 0)]
    rw [hzero, Nat.zero_add, Nat.div_eq_of_lt (by omega)]
    rfl
  . rw [if_neg (by omega : ¬(vl.len = 0 ∨ vr.len = 0))]
    have hnb : (min vl.len vr.len + w - 1) / w = (min vl.len vr.len - 1) / w + 1 := by
      rw [show min vl.len vr.len + w - 1 = min vl.len vr.len - 1 + w by omega]
      exact Nat.add_div_right _ hpos
    have hlast : w * ((min vl.len vr.len - 1) / w) + ((min vl.len vr.len - 1) % w + 1)
        = min vl.len vr.len := by
      rw [← Nat.add_assoc, Nat.div_add_mod]
      omega
    have hmod := Nat.mod_lt (min vl.len vr.len - 1) hpos
    have hreadl : (min vl.len vr.len - 1) / w < vl.blocks.length := by
      apply div_lt_of_lt hpos
      have := hl
      unfold GF2Vec.HasBlocks at this
      omega
    have hreadr : (min vl.len vr.len - 1) / w < vr.blocks.length := by
      apply div_lt_of_lt hpos
      have := hr
      unfold GF2Vec.HasBlocks at this
      omega
    rw [hnb, Nat.add_sub_cancel, lastBits_eq hpos (by omega)]
    generalize (min vl.len vr.len - 1) / w = q at *
    generalize hrest : (min vl.len vr.len - 1) % w + 1 = r at *
    have hsplit : ∀ v : GF2Vec w, min vl.len vr.len ≤ v.len → v.entries
        = bitsFrom v.blocks (w * 0) (w * q) ++ (blockBits (v.blocks.getD q 0#w) r
          ++ bitsFrom v.blocks (min vl.len vr.len) (v.len - min vl.len vr.len)) := by
      intro v hle
      unfold GF2Vec.entries
      rw [← append_assoc, ← bitsFrom_block _ _ (by omega : r ≤ w), Nat.mul_zero]
      have hfront := bitsFrom_add v.blocks 0 (w * q) r
      rw [Nat.zero_add] at hfront
      have hall := bitsFrom_add v.blocks 0 (w * q + r) (v.len - min vl.len vr.len)
      rw [Nat.zero_add, hlast] at hall
      rw [← hfront, hlast, ← hall, Nat.add_sub_of_le hle]
    obtain ⟨res, hrun, hnone, hsome⟩ := @cmpBlocks_spec w hw q vl.blocks vr.blocks 0 (by omega)
      (by omega)
    rw [hrun, ok_bind, hsplit vl (Nat.min_le_left _ _), hsplit vr (Nat.min_le_right _ _)]
    cases res with
    | some x =>
      obtain ⟨hx, hcmp⟩ := hsome x rfl
      rw [cmpLists_append_of_ne, hcmp]
      . rfl
      . rw [length_bitsFrom, length_bitsFrom]
      . rw [hcmp]
        exact hx
    | none =>
      have hbits : ∀ v : GF2Vec w, bitsFrom v.blocks (min vl.len vr.len) (v.len - min vl.len vr.len)
          = [] ↔ v.len ≤ min vl.len vr.len := by
        intro v
        rw [← length_eq_zero_iff, length_bitsFrom]
        omega
      rw [hnone rfl, cmpLists_append (fun b => (cmpBit_eq_zero_iff b b).mpr rfl), cmpLists_rest]
      . dsimp only
        rw [if_neg hzero, readAt_of_lt hreadl 0#w, ok_bind, readAt_of_lt hreadr 0#w, ok_bind]
        rw [← toNat_revertbits hw _ (by omega), ← toNat_revertbits hw _ (by omega)]
        have hgt : ¬vr.len ≤ min vl.len vr.len ↔ vl.len < vr.len := by
          omega
        have hlt : ¬vl.len ≤ min vl.len vr.len ↔ vr.len < vl.len := by
          omega
        simp only [BitVec.lt_def, Ne, hbits, gt_iff_lt, hgt, hlt]
        split
        . rfl
        . split
          . rfl
          . split
            . rfl
            . split
              . rfl
              . rfl
      . rw [length_blockBits, length_blockBits]
      . rw [hbits, hbits]
        omega

structure ComparesEntries (vl vr : GF2Vec w) : Prop where
  cmp : cmpGF2VecGF2Vec vl vr = .ok (cmpLists cmpBit vl.entries vr.entries)
  lt : ltGF2VecGF2Vec vl vr = .ok (decide (cmpLists cmpBit vl.entries vr.entries < 0))
  eq : eqGF2VecGF2Vec vl vr = .ok (decide (vl.entries = vr.entries))

theorem comparesEntries_iff {vl vr : GF2Vec w} (hl : vl.HasBlocks) (hr : vr.HasBlocks)
    : ComparesEntries vl vr ↔ (vl.len = 0 ↔ vr.len = 0) := by
  have hspec := cmpGF2VecGF2Vec_spec hw hl hr
  have hzero := cmpLists_eq_zero_iff cmpBit_eq_zero_iff vl.entries vr.entries
  have hl' := vl.entries_eq_nil_iff
  have hr' := vr.entries_eq_nil_iff
  constructor
  . intro h
    by_contra hne
    rw [h.cmp, if_pos (by omega), Except.ok.injEq, hzero] at hspec
    rw [← hl', ← hr', hspec] at hne
    exact hne Iff.rfl
  . intro h
    have hcmp : cmpGF2VecGF2Vec vl vr = .ok (cmpLists cmpBit vl.entries vr.entries) := by
      rw [hspec]
      split
      . next hempty =>
        rw [hl'.mpr (by omega), hr'.mpr (by omega)]
        rfl
      . rfl
    refine ⟨hcmp, ?_, ?_⟩
    . unfold ltGF2VecGF2Vec
      rw [hcmp]
      rfl
    . unfold eqGF2VecGF2Vec
      rw [hcmp]
      split
      . next hne =>
        rw [decide_eq_false]
        . rfl
        . intro heq
          have := congrArg length heq
          rw [GF2Vec.length_entries, GF2Vec.length_entries] at this
          exact hne this
      . rw [ok_bind]
        simp only [hzero]
        rfl

end Compare

section Rows

variable {w : Nat} (hw : 8 ≤ w) {ml mr : GF2Mat w} {m n : Nat}

def IsMatrix (mat : GF2Mat w) (n : Nat) : Prop :=
  ∀ row ∈ mat.rows, row.len = n ∧ row.HasBlocks

def rowEntries (mat : GF2Mat w) : List (List Bool) :=
  mat.rows.map GF2Vec.entries

theorem length_rowEntries (mat : GF2Mat w) : (rowEntries mat).length = mat.len := by
  simp [rowEntries, GF2Mat.len]

variable {i : Nat}

theorem elm_of_lt {mat : GF2Mat w} (hi : i < mat.rows.length)
    : mat.elm (i + 1) = .ok mat.rows[i] := by
  unfold GF2Mat.elm
  rw [Nat.add_sub_cancel]
  unfold readAt
  rw [getElem?_eq_getElem hi]
  rfl

variable (hl : IsMatrix ml m) (hr : IsMatrix mr n)

include hw hl hr

theorem cmpRows_of_empty (hempty : ¬(m = 0 ↔ n = 0)) {k : Nat} (hkl : i + k ≤ ml.len)
    (hkr : i + k ≤ mr.len) : cmpRows ml mr k (i + 1) = .ok none := by
  induction k generalizing i with
  | zero => rfl
  | succ k ih =>
    have hil : i < ml.rows.length := by
      unfold GF2Mat.len at hkl
      omega
    have hir : i < mr.rows.length := by
      unfold GF2Mat.len at hkr
      omega
    have hrowl := hl _ (getElem_mem hil)
    have hrowr := hr _ (getElem_mem hir)
    unfold cmpRows
    rw [elm_of_lt hil, ok_bind, elm_of_lt hir, ok_bind]
    rw [cmpGF2VecGF2Vec_spec hw hrowl.2 hrowr.2, if_pos (by omega), ok_bind]
    exact ih (by omega) (by omega)

theorem cmpRows_spec (hempty : m = 0 ↔ n = 0) {k : Nat} (hkl : i + k ≤ ml.len)
    (hkr : i + k ≤ mr.len)
    : ∃ res, cmpRows ml mr k (i + 1) = .ok res
        ∧ (res = none →
          ((rowEntries ml).drop i).take k = ((rowEntries mr).drop i).take k)
        ∧ ∀ x, res = some x → x ≠ 0
          ∧ cmpLists (cmpLists cmpBit) (((rowEntries ml).drop i).take k)
            (((rowEntries mr).drop i).take k) = x := by
  induction k generalizing i with
  | zero => exact ⟨none, rfl, fun _ => rfl, (fun x hx => nomatch hx)⟩
  | succ k ih =>
    have hil : i < ml.rows.length := by
      unfold GF2Mat.len at hkl
      omega
    have hir : i < mr.rows.length := by
      unfold GF2Mat.len at hkr
      omega
    have hrowl := hl _ (getElem_mem hil)
    have hrowr := hr _ (getElem_mem hir)
    have hsplit : ∀ mat : GF2Mat w, ∀ hi : i < mat.rows.length, ((rowEntries mat).drop i).take (k + 1)
        = mat.rows[i].entries :: ((rowEntries mat).drop (i + 1)).take k := by
      intro mat hi
      have hi' : i < (rowEntries mat).length := by
        rw [length_rowEntries]
        exact hi
      rw [drop_eq_getElem_cons hi', take_succ_cons]
      simp [rowEntries]
    have hcmp := ((comparesEntries_iff hw hrowl.2 hrowr.2).mpr (by omega)).cmp
    rw [hsplit ml hil, hsplit mr hir, cmpLists_cons]
    unfold cmpRows
    rw [elm_of_lt hil, ok_bind, elm_of_lt hir, ok_bind, hcmp, ok_bind]
    split
    . next hne =>
      refine ⟨_, rfl, (fun h => nomatch h), ?_⟩
      rintro x ⟨⟩
      exact ⟨hne, rfl⟩
    . next heq =>
      rw [not_not] at heq
      obtain ⟨res, hrun, hnone, hsome⟩ := ih (i := i + 1) (by omega) (by omega)
      rw [if_pos heq, (cmpLists_eq_zero_iff cmpBit_eq_zero_iff _ _).mp heq]
      exact ⟨res, hrun, fun h => by rw [hnone h], hsome⟩

structure ComparesRows (ml mr : GF2Mat w) : Prop where
  cmp : cmpGF2MatGF2Mat ml mr = .ok (cmpLists (cmpLists cmpBit) (rowEntries ml) (rowEntries mr))
  lt : ltGF2MatGF2Mat ml mr
    = .ok (decide (cmpLists (cmpLists cmpBit) (rowEntries ml) (rowEntries mr) < 0))
  eq : eqGF2MatGF2Mat ml mr = .ok (decide (rowEntries ml = rowEntries mr))

def RowsDecide (ml mr : GF2Mat w) (m n : Nat) : Prop :=
  (m = 0 ↔ n = 0) ∨ ml.len = 0 ∨ mr.len = 0 ∨ m = 0 ∧ ml.len < mr.len ∨ n = 0 ∧ mr.len < ml.len

theorem cmpGF2MatGF2Mat_spec
    : cmpGF2MatGF2Mat ml mr = .ok (if m = 0 ↔ n = 0 then
          cmpLists (cmpLists cmpBit) (rowEntries ml) (rowEntries mr)
        else if ml.len < mr.len then -1 else if mr.len < ml.len then 1 else 0) := by
  have hmin : (if ml.len < mr.len then ml.len else mr.len) = min ml.len mr.len := by
    split
    . omega
    . omega
  have hlenl := length_rowEntries ml
  have hlenr := length_rowEntries mr
  unfold cmpGF2MatGF2Mat
  dsimp only
  rw [hmin]
  by_cases hempty : m = 0 ↔ n = 0
  . rw [if_pos hempty]
    obtain ⟨res, hrun, hnone, hsome⟩ := cmpRows_spec hw hl hr hempty (k := min ml.len mr.len)
      (i := 0) (by omega) (by omega)
    rw [hrun, ok_bind]
    rw [drop_zero, drop_zero] at hnone hsome
    have hsplitl := take_append_drop (min ml.len mr.len) (rowEntries ml)
    have hsplitr := take_append_drop (min ml.len mr.len) (rowEntries mr)
    rw [← hsplitl, ← hsplitr]
    cases res with
    | some x =>
      obtain ⟨hx, hcmp⟩ := hsome x rfl
      rw [cmpLists_append_of_ne, hcmp]
      . rfl
      . rw [length_take, length_take]
        omega
      . rw [hcmp]
        exact hx
    | none =>
      have hself : ∀ l : List Bool, cmpLists cmpBit l l = 0 :=
        cmpLists_self (fun b => (cmpBit_eq_zero_iff b b).mpr rfl)
      rw [hnone rfl, cmpLists_append hself]
      dsimp only
      split
      . next hlt =>
        rw [drop_eq_nil_of_le (by omega), cmpLists_nil_left, if_neg]
        . rfl
        . rw [drop_eq_nil_iff]
          omega
      . next hge =>
        have hdrop : (rowEntries mr).drop (min ml.len mr.len) = [] :=
          drop_eq_nil_of_le (by omega)
        rw [hdrop, cmpLists_nil_right]
        split
        . next hgt =>
          rw [if_neg]
          . rfl
          . rw [drop_eq_nil_iff]
            omega
        . next hle =>
          rw [if_pos]
          . rfl
          . rw [drop_eq_nil_iff]
            omega
  . rw [if_neg hempty]
    rw [cmpRows_of_empty hw hl hr hempty (k := min ml.len mr.len) (i := 0) (by omega) (by omega)]
    rw [ok_bind]
    dsimp only
    split
    . rfl
    . split
      . rfl
      . rfl

theorem cmpGF2MatGF2Mat_iff
    : cmpGF2MatGF2Mat ml mr = .ok (cmpLists (cmpLists cmpBit) (rowEntries ml) (rowEntries mr))
        ↔ RowsDecide ml mr m n := by
  rw [cmpGF2MatGF2Mat_spec hw hl hr, Except.ok.injEq]
  unfold RowsDecide
  by_cases hempty : m = 0 ↔ n = 0
  . simp [hempty]
  . rw [if_neg hempty]
    cases hml : ml.rows with
    | nil =>
      have hlen : ml.len = 0 := by
        rw [GF2Mat.len, hml]
        rfl
      have hentries : rowEntries ml = [] := by
        rw [rowEntries, hml]
        rfl
      have hnil : rowEntries mr = [] ↔ mr.len = 0 := by
        rw [← length_eq_zero_iff, length_rowEntries]
      rw [hentries, cmpLists_nil_left, hlen]
      simp only [hnil, Nat.not_lt_zero, if_false]
      by_cases hzero : mr.len = 0
      . simp [hzero]
      . simp [hzero, Nat.pos_of_ne_zero hzero]
    | cons rowl restl =>
      have hlenl : ml.len ≠ 0 := by
        rw [GF2Mat.len, hml]
        simp
      have hrowl := hl rowl (by rw [hml]; exact mem_cons_self)
      have hnill := rowl.entries_eq_nil_iff
      cases hmr : mr.rows with
      | nil =>
        have hlen : mr.len = 0 := by
          rw [GF2Mat.len, hmr]
          rfl
        have hentries : rowEntries mr = [] := by
          rw [rowEntries, hmr]
          rfl
        rw [hentries, cmpLists_nil_right, rowEntries, hml, hlen]
        simp [Nat.pos_of_ne_zero hlenl]
      | cons rowr restr =>
        have hlenr : mr.len ≠ 0 := by
          rw [GF2Mat.len, hmr]
          simp
        have hrowr := hr rowr (by rw [hmr]; exact mem_cons_self)
        have hnilr := rowr.entries_eq_nil_iff
        have hfirst : cmpLists cmpBit rowl.entries rowr.entries = if m = 0 then -1 else 1 := by
          split
          . next hm =>
            rw [hnill.mpr (by omega), cmpLists_nil_left, if_neg]
            rw [hnilr]
            omega
          . next hm =>
            rw [hnilr.mpr (by omega), cmpLists_nil_right, if_neg]
            rw [hnill]
            omega
        rw [rowEntries, rowEntries, hml, hmr, map_cons, map_cons, cmpLists_cons, hfirst]
        by_cases hm : m = 0
        . have hn : n ≠ 0 := by
            omega
          simp only [hm, hn, hlenl, hlenr, if_true]
          grind
        . have hn : n = 0 := by
            omega
          simp only [hm, hn, hlenl, hlenr, if_false]
          grind

theorem comparesRows_iff : ComparesRows ml mr ↔ RowsDecide ml mr m n := by
  rw [← cmpGF2MatGF2Mat_iff hw hl hr]
  refine ⟨fun h => h.cmp, fun h => ⟨h, ?_, ?_⟩⟩
  . unfold ltGF2MatGF2Mat
    rw [h]
    rfl
  . have hzero := cmpLists_eq_zero_iff (cmpLists_eq_zero_iff cmpBit_eq_zero_iff) (rowEntries ml)
      (rowEntries mr)
    unfold eqGF2MatGF2Mat
    rw [h]
    split
    . next hne =>
      rw [decide_eq_false]
      . rfl
      . intro heq
        have := congrArg length heq
        rw [length_rowEntries, length_rowEntries] at this
        exact hne this
    . rw [ok_bind]
      simp only [eq_comm (a := (0 : Int)), hzero]
      rfl

end Rows

section Number

variable {w : IntSize}

theorem eight_le_bits (w : IntSize) : 8 ≤ w.bits := by
  cases w with
  | int4 => decide
  | int8 => decide

variable {n : Nat}

theorem toNat_or_shl {off off2 : Nat} (hoff : off + off2 = n) {head a : BitVec n}
    (hhead : head.toNat < 2 ^ off)
    : (head ||| (a <<< off)).toNat = head.toNat + 2 ^ off * (a.toNat % 2 ^ off2) := by
  have hpow : 2 ^ n = 2 ^ off * 2 ^ off2 := by
    rw [← Nat.pow_add, hoff]
  rw [BitVec.toNat_or, BitVec.toNat_shiftLeft, Nat.shiftLeft_eq, hpow]
  rw [Nat.mul_comm a.toNat, Nat.mul_mod_mul_left, Nat.or_comm]
  rw [← Nat.two_pow_add_eq_or_of_lt hhead]
  exact Nat.add_comm _ _

variable {zahl : List Nat} {vp : Nat}

theorem drop_of_take_set {zahl' : List Nat} {x : Nat} (hvp : vp < zahl.length)
    (hlen : zahl'.length = (zahl.set vp x).length)
    (htake : zahl'.take (vp + 1) = (zahl.set vp x).take (vp + 1))
    : zahl'.drop vp = x :: zahl'.drop (vp + 1) ∧ zahl'.take vp = zahl.take vp := by
  rw [length_set] at hlen
  constructor
  . have hget : zahl'[vp]? = some x := by
      have := congrArg (fun l => l[vp]?) htake
      rw [getElem?_take_of_lt (Nat.lt_succ_self vp)] at this
      rw [getElem?_take_of_lt (Nat.lt_succ_self vp), getElem?_set_self hvp] at this
      exact this
    rw [getElem?_eq_getElem (by omega), Option.some.injEq] at hget
    rw [drop_eq_getElem_cons (by omega), hget]
  . have := congrArg (take vp) htake
    rw [take_take, take_take, Nat.min_eq_left (Nat.le_succ vp)] at this
    rw [this]
    exact take_set_of_le (Nat.le_refl vp)

theorem areLimbs_cons {x : Nat} {l : List Nat} (hx : x < w.limbBase)
    (hl : Limbs.AreLimbs w.limbBase l) : Limbs.AreLimbs w.limbBase (x :: l) := by
  intro y hy
  rw [mem_cons] at hy
  cases hy with
  | inl heq =>
    rw [heq]
    exact hx
  | inr hmem => exact hl y hmem

theorem numberShifted_spec {blocks : List (BitVec w.bits)} {off off2 : Nat}
    (hoff : off + off2 = w.bits) {head : BitVec w.bits} (hhead : head.toNat < 2 ^ off)
    (hn : n ≤ blocks.length) (hlen : zahl.length = vp + n + 1)
    : ∃ zahl', numberShifted w blocks off off2 n n vp head zahl = .ok zahl'
        ∧ zahl'.length = zahl.length ∧ zahl'.take vp = zahl.take vp
        ∧ Limbs.AreLimbs w.limbBase (zahl'.drop vp)
        ∧ w.ofLimbs (zahl'.drop vp)
          = head.toNat + 2 ^ off * number (bitsFrom blocks 0 (w.bits * n)) := by
  have hbits := eight_le_bits w
  induction n generalizing vp head zahl with
  | zero =>
    unfold numberShifted
    rw [writeAt_of_lt (by omega)]
    obtain ⟨hcons, hfront⟩ := drop_of_take_set (x := head.toNat) (show vp < zahl.length by omega)
      rfl rfl
    have hend : (zahl.set vp head.toNat).drop (vp + 1) = [] := by
      rw [drop_eq_nil_iff, length_set]
      omega
    rw [hend] at hcons
    refine ⟨_, rfl, length_set, hfront, ?_, ?_⟩
    . rw [hcons]
      exact areLimbs_cons head.isLt (fun x hx => nomatch hx)
    . rw [hcons]
      simp [IntSize.ofLimbs, bitsFrom, number]
  | succ n ih =>
    have hpow : 2 ^ w.bits = 2 ^ off * 2 ^ off2 := by
      rw [← Nat.pow_add, hoff]
    have hA := toNat_revertbits hbits (blocks.getD n 0#w.bits) (Nat.le_refl w.bits)
    unfold numberShifted
    dsimp only
    rw [Nat.add_sub_cancel, readAt_of_lt (by omega) 0#w.bits, ok_bind]
    generalize hx : revertbits (blocks.getD n 0#w.bits) w.bits = a at hA ⊢
    rw [writeAt_of_lt (by omega), ok_bind]
    have hnext : (a >>> off2).toNat < 2 ^ off := by
      rw [BitVec.toNat_ushiftRight, Nat.shiftRight_eq_div_pow]
      rw [Nat.div_lt_iff_lt_mul (Nat.two_pow_pos _), ← hpow]
      exact a.isLt
    have hset : (zahl.set vp (head ||| (a <<< off)).toNat).length = vp + 1 + n + 1 := by
      rw [length_set]
      omega
    obtain ⟨zahl', hrun, hlen', htake, hlimbs, hval⟩ := ih hnext (by omega) hset
    obtain ⟨hcons, hfront⟩ := drop_of_take_set (by omega) hlen' htake
    refine ⟨zahl', hrun, by rw [hlen', length_set], hfront, ?_, ?_⟩
    . rw [hcons]
      exact areLimbs_cons (head ||| (a <<< off)).isLt hlimbs
    . rw [hcons, toNat_or_shl hoff hhead]
      unfold IntSize.ofLimbs at hval ⊢
      rw [Nat.ofDigits_cons, hval, BitVec.toNat_ushiftRight, Nat.shiftRight_eq_div_pow]
      rw [show w.bits * (n + 1) = w.bits * n + w.bits by ring, bitsFrom_add, number_append]
      rw [Nat.zero_add, bitsFrom_block _ _ (Nat.le_refl w.bits), length_blockBits, ← hA]
      have hsplit := Nat.div_add_mod a.toNat (2 ^ off2)
      rw [show w.limbBase = 2 ^ off * 2 ^ off2 from hpow, hpow]
      generalize a.toNat / 2 ^ off2 = high at hsplit ⊢
      generalize a.toNat % 2 ^ off2 = low at hsplit ⊢
      rw [← hsplit]
      ring

theorem numberFull_spec {blocks : List (BitVec w.bits)} (hn : n ≤ blocks.length)
    (hlen : zahl.length = vp + n)
    : ∃ zahl', numberFull w blocks n (n - 1) vp zahl = .ok zahl'
        ∧ zahl'.length = zahl.length ∧ zahl'.take vp = zahl.take vp
        ∧ Limbs.AreLimbs w.limbBase (zahl'.drop vp)
        ∧ w.ofLimbs (zahl'.drop vp) = number (bitsFrom blocks 0 (w.bits * n)) := by
  induction n generalizing vp zahl with
  | zero =>
    refine ⟨zahl, rfl, rfl, rfl, ?_, ?_⟩
    . rw [drop_eq_nil_of_le (by omega)]
      exact fun x hx => nomatch hx
    . rw [drop_eq_nil_of_le (by omega)]
      rfl
  | succ n ih =>
    have hA := toNat_revertbits (eight_le_bits w) (blocks.getD n 0#w.bits) (Nat.le_refl w.bits)
    unfold numberFull
    rw [Nat.add_sub_cancel, readAt_of_lt (by omega) 0#w.bits, ok_bind]
    generalize revertbits (blocks.getD n 0#w.bits) w.bits = a at hA ⊢
    rw [writeAt_of_lt (by omega), ok_bind]
    have hset : (zahl.set vp a.toNat).length = vp + 1 + n := by
      rw [length_set]
      omega
    obtain ⟨zahl', hrun, hlen', htake, hlimbs, hval⟩ := ih (by omega) hset
    obtain ⟨hcons, hfront⟩ := drop_of_take_set (by omega) hlen' htake
    refine ⟨zahl', hrun, by rw [hlen', length_set], hfront, ?_, ?_⟩
    . rw [hcons]
      exact areLimbs_cons a.isLt hlimbs
    . rw [hcons]
      unfold IntSize.ofLimbs at hval ⊢
      rw [Nat.ofDigits_cons, hval, show w.bits * (n + 1) = w.bits * n + w.bits by ring]
      rw [bitsFrom_add, number_append, Nat.zero_add, bitsFrom_block _ _ (Nat.le_refl w.bits)]
      rw [length_blockBits, ← hA, Nat.add_comm, Nat.mul_comm]
      rfl

theorem numberGF2Vec_spec {vec : GF2Vec w.bits} (hvec : vec.HasBlocks) (hpos : vec.len ≠ 0)
    : ∃ vec' n, numberGF2Vec w vec = .ok (vec', n) ∧ vec'.HasBlocks
        ∧ vec'.entries = vec.entries ∧ Integer.Represents w n (number vec.entries) := by
  have hbits := eight_le_bits w
  have hw : 0 < w.bits := by
    omega
  have hread : (vec.len - 1) / w.bits < vec.blocks.length := by
    apply div_lt_of_lt hw
    have := hvec
    unfold GF2Vec.HasBlocks at this
    omega
  have hlast := Nat.div_add_mod (vec.len - 1) w.bits
  have hmod := Nat.mod_lt (vec.len - 1) hw
  unfold numberGF2Vec
  dsimp only
  rw [if_neg hpos, readAt_of_lt hread 0#w.bits, ok_bind, writeAt_of_lt hread, ok_bind]
  generalize hq : (vec.len - 1) / w.bits = q at *
  generalize hr : (vec.len - 1) % w.bits = r at *
  generalize hx : vec.blocks.getD q 0#w.bits &&& (~~~0#w.bits >>> (w.bits - (r + 1))) = x
  generalize hblocks : vec.blocks.set q x = blocks
  have hlen : blocks.length = vec.blocks.length := by
    rw [← hblocks, length_set]
  have hsame : ∀ i < vec.len, bitAt blocks i = bitAt vec.blocks i := by
    intro i hi
    rw [← hblocks, bitAt_set hread]
    split
    . next hdiv =>
      have hi' := Nat.div_add_mod i w.bits
      rw [hdiv] at hi'
      rw [← hx, BitVec.getLsbD_and, getLsbD_ones_shiftRight, decide_eq_true (by omega)]
      rw [Bool.and_true]
      unfold bitAt
      rw [hdiv]
    . rfl
  have hentries : ({ vec with blocks := blocks } : GF2Vec w.bits).entries = vec.entries := by
    apply map_congr_left
    intro i hi
    rw [mem_range] at hi
    dsimp only at hi ⊢
    rw [Nat.zero_add]
    exact hsame i hi
  have hvec' : ({ vec with blocks := blocks } : GF2Vec w.bits).HasBlocks := by
    unfold GF2Vec.HasBlocks
    dsimp only
    rw [hlen]
    exact hvec
  have hget : blocks.getD q 0#w.bits = x := by
    rw [← hblocks, getD_set hread, if_pos rfl]
  have hsplit : ({ vec with blocks := blocks } : GF2Vec w.bits).entries
      = bitsFrom blocks 0 (w.bits * q) ++ blockBits x (r + 1) := by
    unfold GF2Vec.entries
    dsimp only
    rw [← hget, ← bitsFrom_block _ _ (by omega : r + 1 ≤ w.bits)]
    have := bitsFrom_add blocks 0 (w.bits * q) (r + 1)
    rw [Nat.zero_add] at this
    rw [← this, show vec.len = w.bits * q + (r + 1) by omega]
  have hnumber : number vec.entries
      = 2 ^ (r + 1) * number (bitsFrom blocks 0 (w.bits * q)) + number (blockBits x (r + 1)) := by
    rw [← hentries, hsplit, number_append, length_blockBits, Nat.mul_comm]
  have hhead := toNat_revertbits hbits x (n := r + 1) (by omega)
  have hheadlt := number_lt (blockBits x (r + 1))
  rw [length_blockBits] at hheadlt
  split
  . next hsmall =>
    have hzero : q = 0 := by
      rw [← hq, Nat.div_eq_of_lt]
      unfold IntSize.nrSmallIntBits at hsmall
      omega
    have hlenr : vec.len = r + 1 := by
      rw [hzero] at hlast
      omega
    have hpow : 2 ^ (r + 1) ≤ 2 ^ w.nrSmallIntBits :=
      Nat.pow_le_pow_right (by decide) (by omega)
    have hval : (revertbits x vec.len).toNat = number vec.entries := by
      rw [hnumber, hzero, hlenr, hhead]
      simp [bitsFrom, number]
    refine ⟨_, _, rfl, hvec', hentries, ?_⟩
    rw [hval]
    apply Integer.represents_INTOBJ_INT
    rw [← hval, hlenr, hhead]
    unfold IntSize.IsSmall IntSize.intIntobjMin IntSize.intIntobjMax
    have hcast : ((2 ^ w.nrSmallIntBits : Nat) : Int) = 2 ^ w.nrSmallIntBits := by
      push_cast
      rfl
    omega
  . next hlarge =>
    rw [Nat.add_sub_cancel]
    have hzahl : ∃ zahl, (if r + 1 ≠ w.bits then numberShifted w blocks (r + 1) (w.bits - (r + 1)) q q 0
          (revertbits x (r + 1)) (replicate (q + 1) 0)
        else numberFull w blocks (q + 1) q 0 (replicate (q + 1) 0)) = .ok zahl
          ∧ zahl.length = q + 1 ∧ Limbs.AreLimbs w.limbBase zahl
          ∧ w.ofLimbs zahl = number vec.entries := by
      split
      . obtain ⟨zahl, hrun, hzlen, -, hlimbs, hval⟩ := @numberShifted_spec w q _ _ blocks _ _
          (show r + 1 + (w.bits - (r + 1)) = w.bits by omega) _
          (by rw [hhead]; exact hheadlt) (by omega)
          (show (replicate (q + 1) 0).length = 0 + q + 1 by simp)
        rw [drop_zero] at hlimbs hval
        rw [length_replicate] at hzlen
        rw [hhead, Nat.add_comm, ← hnumber] at hval
        exact ⟨zahl, hrun, hzlen, hlimbs, hval⟩
      . next hfull =>
        rw [not_not] at hfull
        obtain ⟨zahl, hrun, hzlen, -, hlimbs, hval⟩ := @numberFull_spec w (q + 1) _ 0 blocks
          (by omega) (show (replicate (q + 1) 0).length = 0 + (q + 1) by simp)
        rw [drop_zero] at hlimbs hval
        rw [length_replicate] at hzlen
        rw [show w.bits * (q + 1) = w.bits * q + (r + 1) by rw [hfull]; ring, bitsFrom_add] at hval
        rw [Nat.zero_add, bitsFrom_block _ _ (by omega), hget, number_append] at hval
        rw [length_blockBits, Nat.mul_comm, ← hnumber] at hval
        exact ⟨zahl, hrun, hzlen, hlimbs, hval⟩
    obtain ⟨zahl, hrun, hzlen, hlimbs, hval⟩ := hzahl
    rw [hrun, ok_bind]
    refine ⟨_, _, rfl, hvec', hentries, ?_⟩
    rw [← hval]
    exact Integer.gmpNormalize_intpos hlimbs (by omega)

end Number

section Orders

structure OrdersVectors {w : Nat} (S : Set (GF2Vec w)) : Prop where
  irrefl : ∀ u ∈ S, ltGF2VecGF2Vec u u = .ok false
  trans : ∀ u ∈ S, ∀ v ∈ S, ∀ x ∈ S, ltGF2VecGF2Vec u v = .ok true →
    ltGF2VecGF2Vec v x = .ok true → ltGF2VecGF2Vec u x = .ok true
  total : ∀ u ∈ S, ∀ v ∈ S, eqGF2VecGF2Vec u v = .ok true
    ↔ ltGF2VecGF2Vec u v = .ok false ∧ ltGF2VecGF2Vec v u = .ok false

theorem ordersVectors_iff {w : Nat} (hw : 8 ≤ w) {S : Set (GF2Vec w)}
    (hS : ∀ v ∈ S, v.HasBlocks)
    : OrdersVectors S ↔ ∀ u ∈ S, ∀ v ∈ S, (u.len = 0 ↔ v.len = 0) := by
  constructor
  . intro h u hu v hv
    by_contra hne
    have hlt : ∀ x ∈ S, ∀ y ∈ S, x.len = 0 ∨ y.len = 0 → ltGF2VecGF2Vec x y = .ok false := by
      intro x hx y hy hempty
      unfold ltGF2VecGF2Vec
      rw [cmpGF2VecGF2Vec_spec hw (hS x hx) (hS y hy), if_pos hempty]
      rfl
    have heq := (h.total u hu v hv).mpr
      ⟨hlt u hu v hv (by omega), hlt v hv u hu (by omega)⟩
    unfold eqGF2VecGF2Vec at heq
    rw [if_pos (by omega)] at heq
    cases heq
  . intro h
    have hcompares : ∀ u ∈ S, ∀ v ∈ S, ComparesEntries u v := by
      intro u hu v hv
      rw [comparesEntries_iff hw (hS u hu) (hS v hv)]
      exact h u hu v hv
    have hcompare := isCompare_cmpLists isCompare_cmpBit
    have hlt : ∀ u ∈ S, ∀ v ∈ S, ∀ b, ltGF2VecGF2Vec u v = .ok b
        ↔ decide (cmpLists cmpBit u.entries v.entries < 0) = b := by
      intro u hu v hv b
      rw [(hcompares u hu v hv).lt, Except.ok.injEq]
    constructor
    . intro u hu
      rw [hlt u hu u hu, hcompare.self]
      rfl
    . intro u hu v hv x hx huv hvx
      rw [hlt u hu v hv, decide_eq_true_iff] at huv
      rw [hlt v hv x hx, decide_eq_true_iff] at hvx
      rw [hlt u hu x hx, decide_eq_true_iff]
      exact hcompare.lt_of_le_of_lt (Int.le_of_lt huv) hvx
    . intro u hu v hv
      have hzero := cmpLists_eq_zero_iff cmpBit_eq_zero_iff u.entries v.entries
      have hswap := hcompare.swap u.entries v.entries
      rw [(hcompares u hu v hv).eq, hlt u hu v hv, hlt v hv u hu]
      rw [Except.ok.injEq, decide_eq_true_iff, decide_eq_false_iff_not, decide_eq_false_iff_not]
      rw [← hzero, ← hswap]
      omega

variable {w : IntSize} {vl vr : GF2Vec w.bits} {ml mr : GF2Mat w.bits} {m n : Nat}
  {S : Set (GF2Vec w.bits)}

theorem comparisons_iff (hl : vl.HasBlocks) (hr : vr.HasBlocks) (hml : IsMatrix ml m)
    (hmr : IsMatrix mr n) (hS : ∀ v ∈ S, v.HasBlocks)
    : (ComparesEntries vl vr ↔ (vl.len = 0 ↔ vr.len = 0))
      ∧ (OrdersVectors S ↔ ∀ u ∈ S, ∀ v ∈ S, (u.len = 0 ↔ v.len = 0))
      ∧ (ComparesRows ml mr ↔ RowsDecide ml mr m n)
      ∧ (vl.len ≠ 0 → ∃ vec' zahl, numberGF2Vec w vl = .ok (vec', zahl)
        ∧ vec'.entries = vl.entries
        ∧ Integer.Represents w zahl (∑ i ∈ Finset.range vl.len,
          bit (vl.entries.getD i false) * 2 ^ (vl.len - (i + 1)) : Nat))
      ∧ (vl.len ≠ 0 → vl.len = vr.len →
        (ltGF2VecGF2Vec vl vr = .ok true ↔ number vl.entries < number vr.entries)) := by
  have hw := eight_le_bits w
  refine ⟨comparesEntries_iff hw hl hr, ordersVectors_iff hw hS, comparesRows_iff hw hml hmr,
    ?_, ?_⟩
  . intro hpos
    obtain ⟨vec', zahl, hrun, -, hentries, hzahl⟩ := numberGF2Vec_spec hl hpos
    rw [number_eq_sum, GF2Vec.length_entries] at hzahl
    exact ⟨vec', zahl, hrun, hentries, hzahl⟩
  . intro hpos hlen
    have hcmp := ((comparesEntries_iff hw hl hr).mpr (by omega)).lt
    rw [hcmp, Except.ok.injEq, decide_eq_true_iff, cmpLists_eq_of_length]
    . split
      . next hlt => simp [hlt]
      . next hge =>
        split
        . simp [hge]
        . simp [hge]
    . rw [GF2Vec.length_entries, GF2Vec.length_entries, hlen]

/-- The empty vector and the vector with the entry one seem to be equal. -/
theorem not_comparesEntries_empty
    : (⟨0, []⟩ : GF2Vec 64).HasBlocks ∧ (⟨1, [1#64]⟩ : GF2Vec 64).HasBlocks
      ∧ cmpGF2VecGF2Vec (⟨0, []⟩ : GF2Vec 64) ⟨1, [1#64]⟩ = .ok 0
      ∧ cmpLists cmpBit (⟨0, []⟩ : GF2Vec 64).entries (⟨1, [1#64]⟩ : GF2Vec 64).entries = -1
      ∧ ¬ComparesEntries (⟨0, []⟩ : GF2Vec 64) ⟨1, [1#64]⟩ := by
  refine ⟨by decide, by decide, by decide, by decide, ?_⟩
  intro h
  have := h.cmp
  revert this
  decide

theorem comparisons_iff_three
    : (ComparesEntries (⟨3, [5#64]⟩ : GF2Vec 64) ⟨3, [3#64]⟩ ↔ (3 = 0 ↔ 3 = 0))
      ∧ (OrdersVectors {(⟨3, [5#64]⟩ : GF2Vec 64)} ↔
        ∀ u ∈ ({⟨3, [5#64]⟩} : Set (GF2Vec 64)), ∀ v ∈ ({⟨3, [5#64]⟩} : Set (GF2Vec 64)),
          (u.len = 0 ↔ v.len = 0))
      ∧ (ComparesRows (⟨[⟨3, [5#64]⟩]⟩ : GF2Mat 64) ⟨[]⟩
        ↔ RowsDecide (⟨[⟨3, [5#64]⟩]⟩ : GF2Mat 64) ⟨[]⟩ 3 0)
      ∧ (3 ≠ 0 → ∃ vec' zahl, numberGF2Vec .int8 (⟨3, [5#64]⟩ : GF2Vec 64) = .ok (vec', zahl)
        ∧ vec'.entries = (⟨3, [5#64]⟩ : GF2Vec 64).entries
        ∧ Integer.Represents .int8 zahl (∑ i ∈ Finset.range 3,
          bit ((⟨3, [5#64]⟩ : GF2Vec 64).entries.getD i false) * 2 ^ (3 - (i + 1)) : Nat))
      ∧ (3 ≠ 0 → 3 = 3 → (ltGF2VecGF2Vec (⟨3, [5#64]⟩ : GF2Vec 64) ⟨3, [3#64]⟩ = .ok true
        ↔ number (⟨3, [5#64]⟩ : GF2Vec 64).entries < number (⟨3, [3#64]⟩ : GF2Vec 64).entries)) := by
  have hblocks : ∀ x : BitVec 64, (⟨3, [x]⟩ : GF2Vec 64).HasBlocks := by
    intro x
    exact (by decide : 3 ≤ 1 * 64)
  apply comparisons_iff (w := .int8)
  . exact hblocks _
  . exact hblocks _
  . intro row hrow
    rw [List.mem_singleton.mp hrow]
    exact ⟨rfl, hblocks _⟩
  . exact fun row hrow => nomatch hrow
  . intro v hv
    rw [Set.mem_singleton_iff.mp hv]
    exact hblocks _

end Orders

end GF2Impl
