import GapKernel.VecGF2.Impl
import Mathlib.Algebra.Field.ZMod

open Nat

section Bits

open BitBlocks

variable {w : Nat}

def zbit (b : Bool) : ZMod 2 :=
  if b then 1 else 0

@[simp]
theorem zbit_false : zbit false = 0 :=
  rfl

@[simp]
theorem zbit_true : zbit true = 1 :=
  rfl

theorem zbit_xor (a b : Bool) : zbit (a ^^ b) = zbit a + zbit b := by
  revert a b
  decide

theorem zbit_injective {a b : Bool} : zbit a = zbit b → a = b := by
  revert a b
  decide

theorem le_ceilDiv_mul (hw : 0 < w) (n : Nat) : n ≤ (n + w - 1) / w * w := by
  have := div_add_mod (n + w - 1) w
  have := mod_lt (n + w - 1) hw
  rw [Nat.mul_comm]
  omega

theorem ceilDiv_le {n m : Nat} (hw : 0 < w) (h : n ≤ m * w) : (n + w - 1) / w ≤ m := by
  apply le_of_lt_succ
  rw [Nat.div_lt_iff_lt_mul hw, succ_mul]
  omega

theorem oneShl_of_lt {n : Nat} (h : n < 31) : oneShl n = .ok (2 ^ n) := by
  unfold oneShl
  rw [if_pos h]
  rfl

def bitZ (blocks : List (BitVec w)) (j : Nat) : ZMod 2 :=
  zbit (bitAt blocks j)

theorem bitZ_replicate (n j : Nat) : bitZ (List.replicate n 0#w) j = 0 := by
  unfold bitZ bitAt
  rw [List.getD_eq_getElem?_getD, List.getElem?_replicate]
  split
  next => simp
  next => simp

def Reads (ptV : Nat → Result (BitVec w)) (ct : Nat) (f : Nat → ZMod 2) : Prop :=
  ∀ i, i < ct → ∃ block, ptV i = .ok block ∧ ∀ t, t < w → zbit (block.getLsbD t) = f (w * i + t)

theorem reads_readAt {blocks : List (BitVec w)} {ct : Nat} (h : ct ≤ blocks.length)
    : Reads (readAt blocks) ct (bitZ blocks) := by
  intro i hi
  refine ⟨blocks.getD i 0#w, readAt_of_lt (by omega) _, ?_⟩
  intro t ht
  unfold bitZ
  rw [bitAt_mul_add ht]

namespace GF2Vec

structure Valid (v : GF2Vec w) (n : Nat) : Prop where
  len_eq : v.len = n
  enough : n ≤ v.blocks.length * w
  zero : ∀ j, n ≤ j → bitZ v.blocks j = 0

theorem valid_new (hw : 0 < w) (n : Nat) : (GF2Vec.new n : GF2Vec w).Valid n where
  len_eq := rfl
  enough := by
    unfold new
    rw [List.length_replicate]
    exact le_ceilDiv_mul hw n
  zero := by
    intro j _
    exact bitZ_replicate _ _

theorem addGF2VecToGF2Vec_spec (hw : 0 < w) {ptS : List (BitVec w)}
    {ptV : Nat → Result (BitVec w)} {len : Nat} {f : Nat → ZMod 2} (hlen : len ≤ ptS.length * w)
    (hreads : Reads ptV ((len + w - 1) / w) f) (hf : ∀ j, len ≤ j → f j = 0)
    : ∃ ptS', addGF2VecToGF2Vec ptS ptV len = .ok ptS' ∧ ptS'.length = ptS.length
        ∧ ∀ j, bitZ ptS' j = bitZ ptS j + f j := by
  have hct := ceilDiv_le hw hlen
  unfold addGF2VecToGF2Vec
  apply forLoop_of_inv (fun i s => s.length = ptS.length
    ∧ ∀ j, bitZ s j = bitZ ptS j + if j / w < i then f j else 0)
  . simp
  . rintro i s _ hi ⟨hs, hbits⟩
    obtain ⟨block, hptV, hblock⟩ := hreads i (by omega)
    have his : i < s.length := by
      omega
    rw [readAt_of_lt his 0#w]
    rw [ok_bind]
    rw [hptV]
    rw [ok_bind]
    rw [writeAt_of_lt his]
    refine ⟨_, rfl, ?_, ?_⟩
    . rw [List.length_set]
      exact hs
    . intro j
      unfold bitZ at hbits ⊢
      rw [bitAt_set his]
      split
      next hj =>
        have hget : zbit (bitAt s j) = zbit ((s.getD i 0#w).getLsbD (j % w)) := by
          unfold bitAt
          rw [hj]
        rw [BitVec.getLsbD_xor, zbit_xor, ← hget, hbits, hblock _ (mod_lt j hw), hj]
        rw [if_neg (by omega), if_pos (by omega), add_zero, ← hj, div_add_mod]
      next hj =>
        rw [hbits]
        by_cases hlt : j / w < i
        . rw [if_pos hlt, if_pos (by omega)]
        . rw [if_neg hlt, if_neg (by omega)]
  . rintro s ⟨hs, hbits⟩
    refine ⟨hs, ?_⟩
    intro j
    rw [hbits, Nat.zero_add]
    split
    next => rfl
    next hj =>
      rw [hf]
      have := le_ceilDiv_mul hw len
      rw [Nat.div_lt_iff_lt_mul hw] at hj
      omega

end GF2Vec

end Bits

section Simple

open BitBlocks GF2Vec Finset

variable {w : Nat}

namespace GF2Mat

structure Valid (mat : GF2Mat w) (m n : Nat) : Prop where
  length_eq : mat.rows.length = m
  row : ∀ v ∈ mat.rows, v.Valid n

def entry (mat : GF2Mat w) (i j : Nat) : ZMod 2 :=
  bitZ (mat.rows.getD i (GF2Vec.new 0)).blocks j

variable {mat : GF2Mat w} {m n i : Nat}

theorem Valid.getD (h : mat.Valid m n) (hi : i < m)
    : (mat.rows.getD i (GF2Vec.new 0)).Valid n := by
  rw [← h.length_eq] at hi
  apply h.row
  rw [List.getD_eq_getElem?_getD, List.getElem?_eq_getElem hi]
  exact List.getElem_mem hi

theorem Valid.elm (h : mat.Valid m n) (hi : i < m)
    : mat.elm (i + 1) = .ok (mat.rows.getD i (GF2Vec.new 0)) := by
  unfold GF2Mat.elm
  rw [Nat.add_sub_cancel]
  apply readAt_of_lt
  rw [h.length_eq]
  exact hi

theorem Valid.entry_of_le {j : Nat} (h : mat.Valid m n) (hi : i < m) (hj : n ≤ j)
    : mat.entry i j = 0 :=
  (h.getD hi).zero j hj

structure IsProduct (prod ml mr : GF2Mat w) (m l n : Nat) : Prop where
  valid : prod.Valid m n
  entry_eq : ∀ i j, i < m → j < n →
    prod.entry i j = ∑ k ∈ range l, ml.entry i k * mr.entry k j

theorem add_row (hw : 0 < w) (h : mat.Valid m n) (hi : i < m) {ptS : List (BitVec w)}
    (hlen : n ≤ ptS.length * w)
    : ∃ ptS', addGF2VecToGF2Vec ptS (readAt (mat.rows.getD i (GF2Vec.new 0)).blocks) n = .ok ptS'
        ∧ ptS'.length = ptS.length ∧ ∀ j, bitZ ptS' j = bitZ ptS j + mat.entry i j := by
  apply addGF2VecToGF2Vec_spec hw hlen
  . apply reads_readAt
    exact ceilDiv_le hw (h.getD hi).enough
  . exact (h.getD hi).zero

end GF2Mat

namespace GF2Impl

open GF2Mat

section

variable (hw : 0 < w) {vr : GF2Mat w} {l n : Nat} (hr : vr.Valid l n)

include hw hr

theorem bitsLoop_spec {vl start : List (BitVec w)} {p stop : Nat}
    (hstop : stop ≤ w * p + w) (hle : w * p ≤ stop) (hl : stop ≤ l) (hlen : n ≤ start.length * w)
    (hbits : ∀ j, bitZ start j = ∑ k ∈ range (w * p), bitZ vl k * vr.entry k j)
    : ∃ s, bitsLoop (vl.getD p 0#w) vr n (w * p + 1) stop start = .ok s
        ∧ s.2.length = start.length
        ∧ ∀ j, bitZ s.2 j = ∑ k ∈ range stop, bitZ vl k * vr.entry k j := by
  unfold bitsLoop
  apply forLoop_of_inv (fun i s => s.1 = 1#w <<< (i - 1 - w * p) ∧ s.2.length = start.length
    ∧ ∀ j, bitZ s.2 j = ∑ k ∈ range (i - 1), bitZ vl k * vr.entry k j)
  . refine ⟨?_, rfl, ?_⟩
    . simp
    . rw [Nat.add_sub_cancel]
      exact hbits
  . rintro i ⟨mask, s⟩ hi hlt ⟨hmask, hs, hsum⟩
    dsimp only at *
    obtain ⟨t, ht⟩ : ∃ t, i = w * p + t + 1 := ⟨i - w * p - 1, by omega⟩
    have htw : t < w := by
      omega
    have hshift : i - 1 - w * p = t := by
      omega
    have hi1 : i - 1 = w * p + t := by
      omega
    have hbit : (vl.getD p 0#w &&& mask != 0#w) = bitAt vl (w * p + t) := by
      rw [hmask, hshift, and_mask_ne_zero _ htw, bitAt_mul_add htw]
    have hmask' : mask <<< 1 = 1#w <<< (i + 1 - 1 - w * p) := by
      rw [hmask, ← BitVec.shiftLeft_add]
      congr 1
      omega
    have hsucc : i + 1 - 1 = w * p + t + 1 := by
      omega
    rw [hi1] at hsum
    split
    next hne =>
      rw [← bne_iff_ne, hbit] at hne
      rw [ht, hr.elm (by omega)]
      rw [ok_bind]
      obtain ⟨s', hadd, hs', hsum'⟩ := add_row hw hr (by omega : w * p + t < l)
        (by rw [hs]; exact hlen)
      rw [hadd]
      rw [ok_bind]
      refine ⟨_, rfl, ?_, ?_, ?_⟩
      . rw [← ht]
        exact hmask'
      . rw [hs', hs]
      . intro j
        rw [← ht, hsucc, sum_range_succ, ← hsum, hsum']
        unfold bitZ
        rw [hne, zbit_true, one_mul]
    next heq =>
      rw [← bne_iff_ne, hbit, Bool.not_eq_true] at heq
      refine ⟨_, rfl, hmask', hs, ?_⟩
      intro j
      rw [hsucc, sum_range_succ, ← hsum]
      unfold bitZ
      rw [heq, zbit_false, zero_mul, add_zero]
  . rintro ⟨mask, s⟩ ⟨_, hs, hsum⟩
    refine ⟨hs, ?_⟩
    have hend : w * p + 1 + (stop + 1 - (w * p + 1)) - 1 = stop := by
      omega
    rw [hend] at hsum
    exact hsum

theorem vecMatLoop_spec {vl : GF2Vec w} (hv : vl.Valid l) {fuel p i : Nat}
    {start : List (BitVec w)} (hlen : n ≤ start.length * w) (hi : i ≤ l → i = w * p + 1)
    (hend : l < i → l ≤ w * p) (hp : p ≤ l) (hfuel : l < fuel + p)
    (hbits : ∀ j, bitZ start j = ∑ k ∈ range (min (w * p) l), bitZ vl.blocks k * vr.entry k j)
    : ∃ s, vecMatLoop vl vr l n fuel p i start = .ok s ∧ s.length = start.length
        ∧ ∀ j, bitZ s j = ∑ k ∈ range l, bitZ vl.blocks k * vr.entry k j := by
  induction fuel generalizing p i start with
  | zero => omega
  | succ fuel ih =>
    unfold vecMatLoop
    split
    next hle =>
      have hip := hi hle
      have hwp : w * p < l := by
        omega
      have hpl : p + 1 ≤ l := by
        have := Nat.le_mul_of_pos_left p hw
        omega
      have hplen : p < vl.blocks.length := by
        have := hv.enough
        rw [Nat.mul_comm] at hwp
        apply Nat.lt_of_mul_lt_mul_right (a := w)
        omega
      have hsucc : w * (p + 1) = w * p + w := mul_succ w p
      rw [Nat.min_eq_left (Nat.le_of_lt hwp)] at hbits
      rw [readAt_of_lt hplen 0#w]
      rw [ok_bind]
      split
      next hzero =>
        apply ih hlen _ _ hpl (by omega)
        . intro j
          rw [hbits]
          apply sum_subset
          . intro k
            simp only [mem_range]
            omega
          . intro k hk hnot
            rw [mem_range] at hk hnot
            have hdiv : k / w = p := by
              rw [Nat.div_eq_iff hw]
              have := Nat.mul_comm w p
              omega
            unfold bitZ bitAt
            rw [hdiv, hzero]
            simp
        . omega
        . omega
      next hne =>
        dsimp only
        rw [hip]
        generalize hstop : (if l < w * p + 1 + w - 1 then l else w * p + 1 + w - 1) = stop
        have hstop' : stop = min (w * p + w) l := by
          rw [← hstop]
          split
          . omega
          . omega
        obtain ⟨⟨mask, start'⟩, hrun, hlen', hsum⟩ := bitsLoop_spec hw hr
          (by omega : stop ≤ w * p + w) (by omega) (by omega) hlen hbits
        rw [hrun]
        rw [ok_bind]
        dsimp only at *
        rw [← hlen']
        apply ih
        . rw [hlen']
          exact hlen
        . omega
        . omega
        . exact hpl
        . omega
        . rw [hsucc, ← hstop']
          exact hsum
    next hgt =>
      refine ⟨start, rfl, rfl, ?_⟩
      rw [Nat.min_eq_right (hend (by omega))] at hbits
      exact hbits

theorem prodGF2VecGF2Mat_spec (hl : 0 < l) {vl : GF2Vec w} (hv : vl.Valid l)
    : ∃ v, prodGF2VecGF2Mat vl vr = .ok v ∧ v.Valid n
        ∧ ∀ j, bitZ v.blocks j = ∑ k ∈ range l, bitZ vl.blocks k * vr.entry k j := by
  have hnew := valid_new hw n
  have hlen : (if vl.len > vr.len then vr.len else vl.len) = l := by
    unfold GF2Mat.len
    rw [hv.len_eq, hr.length_eq, if_neg (by omega)]
  unfold prodGF2VecGF2Mat
  rw [hlen]
  dsimp only
  rw [hr.elm hl]
  rw [ok_bind]
  rw [(hr.getD hl).len_eq]
  obtain ⟨blocks, hrun, hblocks, hsum⟩ := vecMatLoop_spec hw hr hv hnew.enough
    (by omega : 1 ≤ l → 1 = w * 0 + 1) (by omega) (Nat.zero_le l) (by omega : l < l + 1 + 0)
    (by
      intro j
      rw [Nat.mul_zero, Nat.zero_min, sum_range_zero]
      exact bitZ_replicate _ _)
  rw [hrun]
  refine ⟨_, rfl, ⟨rfl, ?_, ?_⟩, hsum⟩
  . rw [hblocks]
    exact hnew.enough
  . intro j hj
    rw [hsum]
    apply sum_eq_zero
    intro k hk
    rw [hr.entry_of_le (mem_range.mp hk) hj, mul_zero]

theorem mapM_prod_spec (hl : 0 < l) {rows : List (GF2Vec w)} (hrows : ∀ v ∈ rows, v.Valid l)
    : ∃ prods, rows.mapM (fun row => prodGF2VecGF2Mat row vr) = .ok prods
        ∧ List.Forall₂ (fun v row => v.Valid n
          ∧ ∀ j, bitZ v.blocks j = ∑ k ∈ range l, bitZ row.blocks k * vr.entry k j) prods rows := by
  induction rows with
  | nil => exact ⟨[], rfl, List.Forall₂.nil⟩
  | cons row rows ih =>
    obtain ⟨v, hrun, hv⟩ := prodGF2VecGF2Mat_spec hw hr hl (hrows row List.mem_cons_self)
    obtain ⟨prods, hruns, hprods⟩ := ih (fun v hv => hrows v (List.mem_cons_of_mem row hv))
    rw [List.mapM_cons]
    rw [hrun]
    rw [ok_bind]
    rw [hruns]
    exact ⟨v :: prods, rfl, List.Forall₂.cons hv hprods⟩

theorem prodGF2MatGF2MatSimple_spec (hl : 0 < l) {ml : GF2Mat w} {m : Nat} (hm : ml.Valid m l)
    : ∃ prod, prodGF2MatGF2MatSimple ml vr = .ok prod ∧ prod.IsProduct ml vr m l n := by
  obtain ⟨prods, hrun, hprods⟩ := mapM_prod_spec hw hr hl hm.row
  unfold prodGF2MatGF2MatSimple
  rw [hrun]
  have hlen : prods.length = m := by
    rw [hprods.length_eq, hm.length_eq]
  refine ⟨⟨prods⟩, rfl, ⟨hlen, ?_⟩, ?_⟩
  . intro v hv
    obtain ⟨i, hi, hget⟩ := List.getElem_of_mem hv
    have := (hprods.get hi (by rw [← hprods.length_eq]; exact hi)).1
    rw [← hget]
    exact this
  . intro i j hi _
    have hi' : i < ml.rows.length := by
      rw [hm.length_eq]
      exact hi
    have := (hprods.get (by omega : i < prods.length) hi').2 j
    unfold GF2Mat.entry at *
    simp only [List.getD_eq_getElem?_getD, List.getElem?_eq_getElem hi',
      List.getElem?_eq_getElem (by omega : i < prods.length), Option.getD_some]
    exact this

end

end GF2Impl

end Simple
