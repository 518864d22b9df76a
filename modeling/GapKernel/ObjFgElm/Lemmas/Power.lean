import GapKernel.ObjFgElm.Lemmas.Product

open FreeWord List Nat Option

namespace ObjFgElm

theorem xor_sepm (t : WordType) (p : Nat)
    : p ^^^ t.sepm = 2 ^ t.ebits * t.gen p + (2 ^ t.ebits - (t.field p + 1)) := by
  have hlt := t.field_lt p
  apply eq_of_testBit_eq
  intro i
  rw [testBit_xor, WordType.sepm_eq, testBit_two_pow_sub_one]
  rw [testBit_two_pow_mul_add _ (by omega), testBit_two_pow_sub_succ hlt]
  unfold WordType.gen WordType.field
  rw [testBit_mod_two_pow, testBit_div_two_pow]
  split
  . next h => simp [h]
  . next h =>
    have : i - t.ebits + t.ebits = i := by omega
    simp [h, this]

variable {t : WordType}

theorem power_invert_eq {p : Nat} (hp : t.IsPair p)
    : nBitsPower.invert t p = 2 ^ t.ebits * t.gen p + t.unsigned (-(t.extRep p).2) := by
  have hfield := t.field_lt p
  have hsigned : (t.extRep p).2 = t.signed (t.field p) := by rw [t.extRep_eq]
  have hne := hp.exp_ne
  have hle := hp.natAbs_le
  have hneg : (-(t.extRep p).2).natAbs ≤ t.expm := by omega
  have hun : t.unsigned (-(t.extRep p).2) = 2 ^ t.ebits - (t.field p + 1) + 1 := by
    have hcast := t.cast_two_pow_ebits
    by_cases h0 : 0 ≤ -(t.extRep p).2
    . rw [t.unsigned_of_nonneg h0 hneg]
      unfold WordType.signed at hsigned
      split at hsigned <;> omega
    . rw [t.unsigned_of_neg (by omega) hneg]
      unfold WordType.signed at hsigned
      split at hsigned <;> omega
  unfold nBitsPower.invert
  rw [xor_sepm, Nat.add_assoc, ← hun]
  apply mod_eq_of_lt
  exact t.pair_lt hp.lt_two_pow (t.unsigned_lt _)

theorem inverts_power_invert (t : WordType) : Inverts t (nBitsPower.invert t) := by
  apply inverts_of_eq
  intro p hp
  exact power_invert_eq hp

theorem split_eq_stem {l r : List Nat} (hl : ∀ p ∈ l, t.IsPair p) (hr : ∀ p ∈ r, t.IsPair p)
    : nBitsPower.split t l r = stem (t.nBitsExtRepOfObj l) (t.nBitsExtRepOfObj r) := by
  fun_induction nBitsPower.split t l r with
  | case1 p l q r hg hs =>
    have := (product_cancel_iff (hl p (by simp)) (hr q (by simp))).not.mp (fun h => h.2.1 hs)
    simp only [WordType.nBitsExtRepOfObj, map_cons, stem, this, ↓reduceIte]
  | case2 p l q r hg hs he =>
    have := (product_cancel_iff (hl p (by simp)) (hr q (by simp))).not.mp (fun h => he h.2.2)
    simp only [WordType.nBitsExtRepOfObj, map_cons, stem, this, ↓reduceIte]
  | case3 p l q r hg hs he ih =>
    have := (product_cancel_iff (hl p (by simp)) (hr q (by simp))).mp ⟨hg, hs, by simpa using he⟩
    rw [ih (fun p hp => hl p (by simp [hp])) (fun p hp => hr p (by simp [hp]))]
    simp only [WordType.nBitsExtRepOfObj, map_cons, stem, this, and_self, ↓reduceIte]
  | case4 p l q r hg =>
    have := (product_cancel_iff (hl p (by simp)) (hr q (by simp))).not.mp (fun h => hg h.1)
    simp only [WordType.nBitsExtRepOfObj, map_cons, stem, this, ↓reduceIte]
  | case5 l r hnil =>
    cases l with
    | nil => simp [stem, WordType.nBitsExtRepOfObj]
    | cons pl l =>
      cases r with
      | nil => simp [stem, WordType.nBitsExtRepOfObj]
      | cons pr r => exact absurd rfl (hnil pl l pr r rfl)

@[simp]
theorem setLast_concat (obj : List Nat) (p : Nat) (f : Nat → Nat)
    : nBitsPower.setLast (obj ++ [p]) f = obj ++ [f p] := by
  induction obj with
  | nil => rfl
  | cons q obj ih =>
    cases obj with
    | nil => rfl
    | cons q' obj =>
      simp only [cons_append] at ih ⊢
      rw [nBitsPower.setLast, ih]
      simp

theorem getD_append_cons {u v : List Nat} {p i : Nat} (hi : i = u.length)
    : (u ++ p :: v).getD i 0 = p := by
  simp [hi]

theorem extract_append {u c v : List Nat} {i j : Nat} (hi : i = u.length)
    (hj : j = u.length + c.length)
    : (u ++ c ++ v).extract i j = c := by
  simp [hi, hj]

theorem single_eq (w : IntSize) (t : WordType) (pow : Int) (u v : List Nat) (p : Nat)
    : nBitsPower.single w t (u ++ [p] ++ v) pow u.length
        =
      let ex := (overflowType w t).wrap ((t.extRep p).2 * pow)
      if overflows t ex then none else some (u ++ [setExp t p ex] ++ v) := by
  unfold nBitsPower.single
  simp only [append_assoc, singleton_append, getD_append_cons, set_append_right,
    Nat.le_refl, Nat.sub_self, set_cons_zero]
  rfl

theorem setLast_copies (obj x : List Nat) (p q : Nat) {n : Nat} (hn : n ≠ 0)
    : nBitsPower.setLast (obj ++ (replicate n (x ++ [p])).flatten) (fun _ => q)
        =
      obj ++ (replicate (n - 1) (x ++ [p])).flatten ++ x ++ [q] := by
  obtain ⟨k, rfl⟩ := exists_eq_succ_of_ne_zero hn
  rw [succ_eq_add_one, Nat.add_sub_cancel, replicate_succ', flatten_concat]
  rw [← append_assoc, ← append_assoc, setLast_concat]

theorem merge_eq (t : WordType) {pow : Int} (u m v : List Nat) (p q : Nat) (hpow : pow ≠ 0)
    : nBitsPower.merge t (u ++ (p :: m ++ [q]) ++ v) pow u.length (u.length + m.length + 1)
        =
      let ex := (t.extRep p).2 + (t.extRep q).2
      let copy :=
        if 0 < pow then
          p :: (replicate (pow.natAbs - 1) (m ++ [setExp t q ex])).flatten ++ m ++ [q]
        else
          let inv := nBitsPower.invert t
          let m' := (m.map inv).reverse
          inv q :: (replicate (pow.natAbs - 1) (m' ++ [setExp t (inv p) (-ex)])).flatten ++ m'
            ++ [inv p]
      if overflows t ex then none else some (u ++ copy ++ v) := by
  have hex := product_ex_eq t p q
  have hlen : u.length + m.length + 1 = (u ++ p :: m).length := by
    simp only [length_append, length_cons]
    omega
  have hpl : (u ++ (p :: m ++ [q]) ++ v).getD u.length 0 = p := by simp
  have hpe : (u ++ (p :: m ++ [q]) ++ v).getD (u.length + m.length + 1) 0 = q := by
    have := getD_append_cons (v := v) (p := q) hlen
    simpa using this
  have htake : (u ++ (p :: m ++ [q]) ++ v).take (u.length + 1) = u ++ [p] := by
    simp [take_append]
  have hcopy : (u ++ (p :: m ++ [q]) ++ v).extract (u.length + 1) (u.length + m.length + 1 + 1)
      = m ++ [q] := by
    have := extract_append (u := u ++ [p]) (c := m ++ [q]) (v := v) (i := u.length + 1)
      (j := u.length + m.length + 1 + 1) (by simp) (by simp; omega)
    simpa using this
  have hcopy' : (u ++ (p :: m ++ [q]) ++ v).extract u.length (u.length + m.length + 1)
      = p :: m := by
    have := extract_append (u := u) (c := p :: m) (v := q :: v) rfl
      (j := u.length + m.length + 1) (by simp; omega)
    simpa using this
  have hdrop : (u ++ (p :: m ++ [q]) ++ v).drop (u.length + m.length + 1 + 1) = v := by
    rw [drop_append_of_le_length, drop_of_length_le, nil_append]
    . simp
      omega
    . simp
      omega
  have hn : pow.natAbs ≠ 0 := by omega
  unfold nBitsPower.merge
  simp only [hpl, hpe, hex, htake, hcopy, hcopy', hdrop]
  split
  . rfl
  . split
    . rw [setLast_concat, setLast_copies _ _ _ _ hn]
      simp
    . rw [map_cons, reverse_cons, setLast_concat, setLast_concat]
      rw [setLast_copies _ _ _ _ hn]
      simp

theorem general_eq (t : WordType) (pow : Int) (u c v : List Nat) {sr : Nat}
    (hsr : sr + 1 = u.length + c.length)
    : nBitsPower.general t (u ++ c ++ v) pow u.length sr
        =
      let copy := if 0 < pow then c else (c.map (nBitsPower.invert t)).reverse
      u ++ (replicate pow.natAbs copy).flatten ++ v := by
  have hcopy : (u ++ c ++ v).extract u.length (sr + 1) = c := extract_append rfl hsr
  have htake : (u ++ c ++ v).take u.length = u := by simp
  have hdrop : (u ++ c ++ v).drop (sr + 1) = v := by simp [hsr]
  unfold nBitsPower.general
  simp only [hcopy, htake, hdrop]

structure IsSplit (t : WordType) (u c v : List Nat) : Prop where
  isPair : ∀ p ∈ u ++ c ++ v, t.IsPair p
  isReduced : IsReduced (t.nBitsExtRepOfObj (u ++ c ++ v))
  inv_eq : t.nBitsExtRepOfObj v = inv (t.nBitsExtRepOfObj u)
  isOpen : IsOpen (t.nBitsExtRepOfObj c)

namespace IsSplit

variable {t : WordType} {u c v : List Nat}

section

variable (h : IsSplit t u c v)

include h

theorem ext_eq
    : t.nBitsExtRepOfObj (u ++ c ++ v)
        =
      t.nBitsExtRepOfObj u ++ t.nBitsExtRepOfObj c ++ inv (t.nBitsExtRepOfObj u) := by
  rw [← h.inv_eq]
  simp

theorem length_eq : v.length = u.length := by
  have := congrArg List.length h.inv_eq
  simpa [WordType.nBitsExtRepOfObj, inv] using this

theorem split_eq
    : nBitsPower.split t (u ++ c ++ v) (u ++ c ++ v).reverse = u.length := by
  rw [split_eq_stem h.isPair]
  . have := stem_conj (t.nBitsExtRepOfObj u) h.isOpen
    rw [← h.ext_eq, ← WordType.nBitsExtRepOfObj_reverse] at this
    simpa [WordType.nBitsExtRepOfObj] using this
  . intro p hp
    exact h.isPair p (mem_reverse.mp hp)

theorem isPair_core : ∀ p ∈ c, t.IsPair p := by
  intro p hp
  exact h.isPair p (by simp [hp])

end

theorem packs {c' : List Nat} {m : List (Nat × Int)} (h : IsSplit t u c v)
    (hc : ∀ p ∈ c', t.IsPair p) (hm : t.nBitsExtRepOfObj c' = m)
    : Packs t (t.nBitsExtRepOfObj u ++ m ++ inv (t.nBitsExtRepOfObj u))
        (some (u ++ c' ++ v)) := by
  constructor
  . intro p hp
    simp only [mem_append] at hp
    rcases hp with (hp | hp) | hp
    . exact h.isPair p (by simp [hp])
    . exact hc p hp
    . exact h.isPair p (by simp [hp])
  . rw [← hm, ← h.inv_eq]
    simp

theorem isReduced_core (h : IsSplit t u c v) : IsReduced (t.nBitsExtRepOfObj c) := by
  have := h.isReduced
  rw [h.ext_eq] at this
  exact this.infix

theorem isSplit_invert (h : IsSplit t u c v)
    : IsSplit t u (c.map (nBitsPower.invert t)).reverse v := by
  have hinv := inverts_power_invert t
  have hext : t.nBitsExtRepOfObj (c.map (nBitsPower.invert t)).reverse
      = inv (t.nBitsExtRepOfObj c) := by
    rw [WordType.nBitsExtRepOfObj_reverse, hinv.extRep_map h.isPair_core]
    rfl
  constructor
  . intro p hp
    simp only [mem_append, mem_reverse] at hp
    rcases hp with (hp | hp) | hp
    . exact h.isPair p (by simp [hp])
    . exact hinv.isPair_map h.isPair_core p hp
    . exact h.isPair p (by simp [hp])
  . have := h.isReduced.inv
    rw [h.ext_eq, inv_conj] at this
    rw [WordType.nBitsExtRepOfObj_append, WordType.nBitsExtRepOfObj_append, hext, h.inv_eq]
    exact this
  . exact h.inv_eq
  . rw [hext]
    exact h.isOpen.inv

end IsSplit

theorem exists_isSplit (l : ReducedWord t) {w c : List (Nat × Int)}
    (heq : l.syllables = w ++ c ++ inv w) (hopen : IsOpen c)
    : ∃ u c' v, l.data = u ++ c' ++ v ∧ IsSplit t u c' v ∧ t.nBitsExtRepOfObj u = w
        ∧ t.nBitsExtRepOfObj c' = c := by
  obtain ⟨uc, v, hdata, huc, hv⟩ := map_eq_append_iff.mp heq
  obtain ⟨u, c', rfl, hu, hc⟩ := map_eq_append_iff.mp huc
  refine ⟨u, c', v, hdata, ?_, hu, hc⟩
  constructor
  . rw [← hdata]
    exact l.isPair
  . rw [← hdata]
    exact l.isReduced
  . unfold WordType.nBitsExtRepOfObj
    rw [hu, hv]
  . unfold WordType.nBitsExtRepOfObj
    rw [hc]
    exact hopen

theorem isPair_flatten_replicate {l : List Nat} (hl : ∀ p ∈ l, t.IsPair p) (n : Nat)
    : ∀ p ∈ (replicate n l).flatten, t.IsPair p := by
  intro p hp
  obtain ⟨l', hl', hp⟩ := mem_flatten.mp hp
  rw [eq_of_mem_replicate hl'] at hp
  exact hl p hp

theorem ext_flatten_replicate (t : WordType) (l : List Nat) (n : Nat)
    : t.nBitsExtRepOfObj (replicate n l).flatten
        =
      (replicate n (t.nBitsExtRepOfObj l)).flatten := by
  simp [WordType.nBitsExtRepOfObj, map_flatten]

namespace IsSplit

variable {t : WordType} {u v : List Nat}

theorem computes_general {c : List Nat} (h : IsSplit t u c v) {n : Nat} (hn : n ≠ 0)
    (hgen : ∀ s ∈ (t.nBitsExtRepOfObj c).getLast?, ∀ s' ∈ (t.nBitsExtRepOfObj c).head?, s.1 ≠ s'.1)
    : Computes t (eval (t.nBitsExtRepOfObj (u ++ c ++ v)) ^ n)
        (some (u ++ (replicate n c).flatten ++ v)) := by
  have hred := h.isReduced
  have hcore := h.isReduced_core
  have hne := h.isOpen.1
  rw [h.ext_eq] at hred ⊢
  rw [← eval_conj_pow (eval_flatten_replicate n (t.nBitsExtRepOfObj c))]
  apply computes_of_packs
  . apply hred.replace (isReduced_flatten_replicate hcore hgen n)
    . rw [head?_flatten_replicate hn]
    . rw [getLast?_flatten_replicate hn]
    . exact hne
  . exact h.packs (isPair_flatten_replicate h.isPair_core n) (ext_flatten_replicate t c n)

theorem computes_merge {m : List Nat} {p q : Nat} (h : IsSplit t u (p :: m ++ [q]) v)
    (hgen : (t.extRep p).1 = (t.extRep q).1) {n : Nat} (hn : 1 < n)
    : let ex := (t.extRep p).2 + (t.extRep q).2
      let copies := p :: (replicate (n - 1) (m ++ [setExp t q ex])).flatten ++ m ++ [q]
      Computes t (eval (t.nBitsExtRepOfObj (u ++ (p :: m ++ [q]) ++ v)) ^ n)
        (if overflows t ex then none else some (u ++ copies ++ v)) := by
  intro ex copies
  have hext : t.nBitsExtRepOfObj (p :: m ++ [q])
      = t.extRep p :: t.nBitsExtRepOfObj m ++ [t.extRep q] := by
    simp
  have hopen := h.isOpen
  have hcore := h.isReduced_core
  have hred := h.isReduced
  rw [h.ext_eq, hext] at hred
  rw [hext] at hopen hcore
  have hne : ex ≠ 0 := by
    intro hzero
    refine hopen.2 (t.extRep p) (by simp) (t.extRep q) ?_ ⟨hgen, hzero⟩
    rw [getLast?_concat]
    rfl
  have hpower := eval_mergedPower hgen (t.nBitsExtRepOfObj m) (n - 1)
  rw [Nat.sub_add_cancel (by omega)] at hpower
  rw [h.ext_eq, hext, ← eval_conj_pow hpower]
  apply computes_of_packs
  . apply hred.replace (isReduced_mergedPower hgen hne hcore (n - 1))
    . simp [mergedPower]
    . rw [mergedPower, getLast?_concat, getLast?_concat]
    . simp
  . split
    . next hover =>
      refine ⟨((t.extRep p).1, ex), ?_, (overflows_iff t ex).mp hover⟩
      obtain ⟨k, hk⟩ : ∃ k, n - 1 = k + 1 := ⟨n - 2, by omega⟩
      simp [mergedPower, hk, replicate_succ, ex]
    . next hover =>
      rw [overflows_iff] at hover
      have hset : t.IsPair (setExp t q ex) :=
        isPair_setExp (h.isPair_core q (by simp)) hne (by omega)
      have hcopy : t.extRep (setExp t q ex) = ((t.extRep p).1, ex) := by
        rw [extRep_setExp t (h.isPair_core q (by simp)).lt_two_pow (by omega), hgen]
      apply h.packs
      . intro r hr
        simp only [copies, cons_append, mem_cons, mem_append, not_mem_nil,
          or_false] at hr
        rcases hr with rfl | (hr | hr) | rfl
        . exact h.isPair_core r (by simp)
        . apply isPair_flatten_replicate _ _ r hr
          intro r hr
          rcases mem_append.mp hr with hr | hr
          . exact h.isPair_core r (by simp [hr])
          . rw [mem_singleton.mp hr]
            exact hset
        . exact h.isPair_core r (by simp [hr])
        . exact h.isPair_core r (by simp)
      . simp [copies, mergedPower, ext_flatten_replicate, hcopy, ex]

end IsSplit

/--
The word is a conjugate of a power `g^e` of one generator such that `e * n` does not fit into the
exponent, but the result of the machine multiplication does.
-/
def ExponentWraps (w : IntSize) (t : WordType) (l : List (Nat × Int)) (n : Int) : Prop :=
  ∃ u g e, l = u ++ [(g, e)] ++ inv u ∧ t.expm < (e * n).natAbs
    ∧ ((overflowType w t).wrap (e * n)).natAbs ≤ t.expm

theorem wrap_of_natAbs_le (w : IntSize) (t : WordType) {x : Int} (h : x.natAbs ≤ t.expm)
    : (overflowType w t).wrap x = x := by
  apply IntSize.wrap_of_isInt
  have hebits : 2 ^ (t.ebits - 1) ≤ 2 ^ 30 := by
    apply Nat.pow_le_pow_right (by omega)
    have := t.bits_eq
    have := t.ebits_lt
    omega
  rw [WordType.expm_eq] at h
  unfold IntSize.IsInt
  cases overflowType w t with
  | int4 =>
    simp only [IntSize.bits]
    omega
  | int8 =>
    simp only [IntSize.bits]
    omega

namespace IsSplit

variable {t : WordType} {u v : List Nat}

theorem computes_single {p : Nat} (h : IsSplit t u [p] v) (w : IntSize) {n : Int} (hn : n ≠ 0)
    (hwraps : ¬ExponentWraps w t (t.nBitsExtRepOfObj (u ++ [p] ++ v)) n)
    : let ex := (overflowType w t).wrap ((t.extRep p).2 * n)
      Computes t (eval (t.nBitsExtRepOfObj (u ++ [p] ++ v)) ^ n)
        (if overflows t ex then none else some (u ++ [setExp t p ex] ++ v)) := by
  intro ex
  have hp := h.isPair_core p (by simp)
  have hred := h.isReduced
  have hext : t.nBitsExtRepOfObj [p] = [((t.extRep p).1, (t.extRep p).2)] := rfl
  have hne : (t.extRep p).2 * n ≠ 0 := mul_ne_zero hp.exp_ne hn
  have hexact : ((t.extRep p).2 * n).natAbs ≤ t.expm → ex = (t.extRep p).2 * n :=
    wrap_of_natAbs_le w t
  unfold ExponentWraps at hwraps
  rw [h.ext_eq, hext] at hred hwraps ⊢
  rw [← eval_conj_syllable]
  apply computes_of_packs
  . apply hred.replace
    . simpa [isReduced_cons, IsReduced.nil] using hne
    . rfl
    . rfl
    . simp
  . split
    . next hover =>
      refine ⟨((t.extRep p).1, (t.extRep p).2 * n), by simp, ?_⟩
      rw [overflows_iff] at hover
      by_contra hle
      have := hexact (by omega)
      omega
    . next hover =>
      rw [overflows_iff] at hover
      have hle : ((t.extRep p).2 * n).natAbs ≤ t.expm := by
        by_contra hlt
        apply hwraps
        exact ⟨t.nBitsExtRepOfObj u, _, _, rfl, by omega, by omega⟩
      rw [hexact hle]
      apply h.packs
      . intro q hq
        rw [mem_singleton.mp hq]
        exact isPair_setExp hp hne hle
      . rw [WordType.nBitsExtRepOfObj_cons, extRep_setExp t hp.lt_two_pow hle]
        rfl

end IsSplit

namespace IsSplit

variable {t : WordType} {u v : List Nat}

variable {c : List Nat}

theorem ext_invert (h : IsSplit t u c v)
    : t.nBitsExtRepOfObj (c.map (nBitsPower.invert t)).reverse = inv (t.nBitsExtRepOfObj c) := by
  rw [WordType.nBitsExtRepOfObj_reverse, (inverts_power_invert t).extRep_map h.isPair_core]
  rfl

theorem eval_invert (h : IsSplit t u c v)
    : eval (t.nBitsExtRepOfObj (u ++ (c.map (nBitsPower.invert t)).reverse ++ v))
        =
      (eval (t.nBitsExtRepOfObj (u ++ c ++ v)))⁻¹ := by
  rw [h.isSplit_invert.ext_eq, h.ext_eq, h.ext_invert, ← eval_inv, inv_conj]

theorem eval_zpow (h : IsSplit t u c v) (n : Int)
    : eval (t.nBitsExtRepOfObj (u ++ c ++ v)) ^ n
        =
      eval (t.nBitsExtRepOfObj
        (u ++ (if 0 < n then c else (c.map (nBitsPower.invert t)).reverse) ++ v)) ^ n.natAbs := by
  split
  . next hn =>
    rw [← zpow_natCast]
    congr 1
    omega
  . next hn =>
    rw [h.eval_invert, ← zpow_natCast, inv_zpow, ← zpow_neg]
    congr 1
    omega

theorem overflows_neg (t : WordType) (ex : Int) : overflows t (-ex) ↔ overflows t ex := by
  simp [overflows_iff]

theorem computes_merge_invert {m : List Nat} {p q : Nat} (h : IsSplit t u (p :: m ++ [q]) v)
    (hgen : (t.extRep p).1 = (t.extRep q).1) {n : Nat} (hn : 1 < n)
    : let ex := (t.extRep p).2 + (t.extRep q).2
      let inv := nBitsPower.invert t
      let m' := (m.map inv).reverse
      let copies := inv q :: (replicate (n - 1) (m' ++ [setExp t (inv p) (-ex)])).flatten ++ m'
        ++ [inv p]
      Computes t (eval (t.nBitsExtRepOfObj (u ++ ((p :: m ++ [q]).map inv).reverse ++ v)) ^ n)
        (if overflows t ex then none else some (u ++ copies ++ v)) := by
  have hp := (inverts_power_invert t).extRep (h.isPair_core p (by simp))
  have hq := (inverts_power_invert t).extRep (h.isPair_core q (by simp))
  have hcore : ((p :: m ++ [q]).map (nBitsPower.invert t)).reverse
      = nBitsPower.invert t q :: (m.map (nBitsPower.invert t)).reverse
        ++ [nBitsPower.invert t p] := by
    simp
  have hsplit := h.isSplit_invert
  rw [hcore] at hsplit
  have hmerge := hsplit.computes_merge (by rw [hp, hq]; exact hgen.symm) hn
  have hex : (neg (t.extRep q)).2 + (neg (t.extRep p)).2 = -((t.extRep p).2 + (t.extRep q).2) := by
    dsimp only [neg]
    omega
  rw [hp, hq, hex] at hmerge
  simp only [overflows_neg] at hmerge
  dsimp only
  rw [hcore]
  exact hmerge

theorem computes_powers (h : IsSplit t u c v) {w : IntSize} {n : Int} {sr : Nat} (hn : 1 < n.natAbs)
    (hsr : sr + 1 = u.length + c.length)
    (hwraps : ¬ExponentWraps w t (t.nBitsExtRepOfObj (u ++ c ++ v)) n)
    : Computes t (eval (t.nBitsExtRepOfObj (u ++ c ++ v)) ^ n)
        (if u.length = sr then
          nBitsPower.single w t (u ++ c ++ v) n sr
        else if (u ++ c ++ v).getD u.length 0 &&& t.genm = (u ++ c ++ v).getD sr 0 &&& t.genm then
          nBitsPower.merge t (u ++ c ++ v) n u.length sr
        else
          some (nBitsPower.general t (u ++ c ++ v) n u.length sr)) := by
  have hne : c ≠ [] := by
    rintro rfl
    exact h.isOpen.1 rfl
  obtain ⟨p, c, rfl⟩ := exists_cons_of_ne_nil hne
  rcases eq_nil_or_concat' c with rfl | ⟨m, q, rfl⟩
  . have : sr = u.length := by simpa using hsr
    subst this
    rw [if_pos rfl, single_eq]
    exact h.computes_single w (by omega) hwraps
  . have : sr = u.length + m.length + 1 := by
      simp only [length_cons, length_append, length_nil] at hsr
      omega
    subst this
    have hp := h.isPair_core p (by simp)
    have hq := h.isPair_core q (by simp)
    have hpl : (u ++ p :: (m ++ [q]) ++ v).getD u.length 0 = p := by simp
    have hpe : (u ++ p :: (m ++ [q]) ++ v).getD (u.length + m.length + 1) 0 = q := by
      have := getD_append_cons (u := u ++ p :: m) (v := v) (p := q)
        (i := u.length + m.length + 1) (by simp; omega)
      simpa using this
    have hgen := t.and_genm_inj hp.lt_two_pow hq.lt_two_pow
    have hzpow := h.eval_zpow n
    rw [if_neg (by omega), hpl, hpe, hzpow]
    by_cases heq : p &&& t.genm = q &&& t.genm
    . rw [if_pos heq, ← cons_append, merge_eq t u m v p q (by omega)]
      by_cases hpos : 0 < n
      . simp only [if_pos hpos]
        exact h.computes_merge (hgen.mp heq) hn
      . simp only [if_neg hpos]
        exact h.computes_merge_invert (hgen.mp heq) hn
    . rw [if_neg heq, general_eq t n u _ v hsr]
      have hends : ∀ s ∈ (t.nBitsExtRepOfObj (p :: (m ++ [q]))).getLast?,
          ∀ s' ∈ (t.nBitsExtRepOfObj (p :: (m ++ [q]))).head?, s.1 ≠ s'.1 := by
        have hlast : (t.nBitsExtRepOfObj (p :: (m ++ [q]))).getLast? = some (t.extRep q) := by
          rw [← cons_append, WordType.nBitsExtRepOfObj_append]
          exact getLast?_concat
        intro s hs s' hs'
        rw [hlast, mem_def, Option.some.injEq] at hs
        simp only [WordType.nBitsExtRepOfObj_cons, head?_cons, mem_def,
          Option.some.injEq] at hs'
        rw [← hs, ← hs']
        exact fun h => heq (hgen.mpr h.symm)
      by_cases hpos : 0 < n
      . simp only [if_pos hpos]
        exact h.computes_general (by omega) hends
      . simp only [if_neg hpos]
        apply h.isSplit_invert.computes_general (by omega)
        rw [h.ext_invert]
        exact ends_inv hends

end IsSplit

theorem packs_inverse (l : ReducedWord t)
    : Packs t (inv l.syllables) (some (l.data.map (nBitsPower.invert t)).reverse) := by
  have hinv := inverts_power_invert t
  constructor
  . intro p hp
    exact hinv.isPair_map l.isPair p (mem_reverse.mp hp)
  . rw [WordType.nBitsExtRepOfObj_reverse, hinv.extRep_map l.isPair]
    rfl

theorem computes_nBitsPower {w : IntSize} (l : ReducedWord t) (n : Int)
    (h : ¬ExponentWraps w t l.syllables n)
    : Computes t (l.eval ^ n) (nBitsPower w t l.data n) := by
  unfold nBitsPower
  dsimp only
  split
  . next hlen =>
    have heval : l.eval = 1 := by
      rw [ReducedWord.eval, syllables_of_length hlen, eval_nil]
    rw [heval, one_zpow, ← heval]
    exact computes_of_packs l.isReduced_syllables (packs_self l)
  . next hlen =>
    split
    . next h0 =>
      rw [h0, zpow_zero]
      exact computes_of_packs IsReduced.nil ⟨by simp, rfl⟩
    . next h0 =>
      split
      . next h1 =>
        rw [h1, zpow_one]
        exact computes_of_packs l.isReduced_syllables (packs_self l)
      . next h1 =>
        split
        . next h2 =>
          rw [h2, zpow_neg_one, ReducedWord.eval, ← eval_inv]
          exact computes_of_packs l.isReduced_syllables.inv (packs_inverse l)
        . next h2 =>
          have hsyll : l.syllables ≠ [] := by
            simpa [ReducedWord.syllables, WordType.nBitsExtRepOfObj] using hlen
          obtain ⟨x, y, heq, hopen⟩ := exists_conj l.isReduced_syllables hsyll
          obtain ⟨u, c, v, hdata, hsplit, _, _⟩ := exists_isSplit l heq hopen
          have hpos : 0 < c.length := by
            apply length_pos_iff.mpr
            rintro rfl
            exact hsplit.isOpen.1 rfl
          have hv := hsplit.length_eq
          have hsr : (u ++ c ++ v).length - 1 - u.length + 1 = u.length + c.length := by
            simp only [length_append]
            omega
          have hpowers := hsplit.computes_powers (w := w) (n := n) (by omega) hsr
          unfold ReducedWord.eval ReducedWord.syllables at *
          rw [hdata] at h ⊢
          rw [hsplit.split_eq]
          exact hpowers h

theorem natAbs_le_of_mem (l : ReducedWord t) {s : Nat × Int} (hs : s ∈ l.syllables)
    : s.2.natAbs ≤ t.expm := by
  obtain ⟨p, hp, rfl⟩ := mem_map.mp hs
  exact l.natAbs_le p hp

theorem not_computes_nBitsPower {w : IntSize} (l : ReducedWord t) (n : Int)
    (h : ExponentWraps w t l.syllables n)
    : ¬Computes t (l.eval ^ n) (nBitsPower w t l.data n) := by
  obtain ⟨x, g, e, heq, hlt, hle⟩ := h
  have he : (g, e) ∈ l.syllables := by simp [heq]
  have hle' := natAbs_le_of_mem l he
  have hne := l.isReduced_syllables.exp_ne (g, e) he
  have hn : n ≠ 0 := by
    rintro rfl
    simp at hlt
  have hn1 : n ≠ 1 := by
    rintro rfl
    omega
  have hn2 : n ≠ -1 := by
    rintro rfl
    rw [mul_neg_one, Int.natAbs_neg] at hlt
    omega
  have hopen : IsOpen [(g, e)] := by
    constructor
    . simp
    . intro s hs s' hs'
      simp only [head?_cons, getLast?_singleton, mem_def, Option.some.injEq]
        at hs hs'
      subst hs hs'
      omega
  obtain ⟨u, c, v, hdata, hsplit, hu, hc⟩ := exists_isSplit l heq hopen
  obtain ⟨p, rfl, hp⟩ := map_eq_singleton_iff.mp hc
  have hlen := hsplit.length_eq
  have hsr : (u ++ [p] ++ v).length - 1 - u.length = u.length := by
    simp only [length_append, length_cons, length_nil]
    omega
  have hpower : nBitsPower w t l.data n
      = some (u ++ [setExp t p ((overflowType w t).wrap (e * n))] ++ v) := by
    unfold nBitsPower
    rw [hdata, hsplit.split_eq]
    dsimp only
    rw [if_neg (by simp), if_neg hn, if_neg hn1, if_neg hn2, hsr, if_pos rfl, single_eq, hp]
    dsimp only
    rw [if_neg]
    rw [overflows_iff]
    omega
  rw [hpower]
  rintro ⟨res, _, heval⟩
  have hred : IsReduced (x ++ [(g, e * n)] ++ inv x) := by
    have := l.isReduced_syllables
    rw [heq] at this
    apply this.replace
    . simpa [isReduced_cons, IsReduced.nil] using ⟨hne, hn⟩
    . rfl
    . rfl
    . simp
  have hsyll : res.syllables = x ++ [(g, e * n)] ++ inv x := by
    apply eval_injective res.isReduced_syllables hred
    rw [eval_conj_syllable, ← heq]
    exact heval
  have := natAbs_le_of_mem res (s := (g, e * n)) (by simp [hsyll])
  omega

def sevenBits : WordType where
  bits := 8
  ebits := 7
  bits_eq := eightBits.bits_eq
  ebits_pos := by decide
  ebits_lt := by decide

def aPower32 : ReducedWord sevenBits where
  data := [32]
  lt_two_pow := by decide
  isReduced := by decide
  natAbs_le := by decide

end ObjFgElm
