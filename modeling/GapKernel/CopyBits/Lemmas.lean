import GapKernel.BitBlocks
import GapKernel.CopyBits.Impl
import GapKernel.ForLoop

open BitBlocks List Nat

namespace CopyBits

variable {w : Nat}

theorem ite_bind_ok {α β : Type} {c : Prop} [Decidable c] {x y : Result α} {a : α}
    {f : α → Result β} (h : (if c then x else y) = .ok a)
    : (if c then x >>= f else y >>= f) = f a := by
  rw [← ok_bind a f, ← h]
  split
  next => rfl
  next => rfl

theorem shlWord_ok (word : BitVec w) {n : Nat} (h : n < w) : shlWord word n = .ok (word <<< n) :=
  if_pos h

theorem shrWord_ok (word : BitVec w) {n : Nat} (h : n < w) : shrWord word n = .ok (word >>> n) :=
  if_pos h

theorem one_shiftLeft (n : Nat) : 1#w <<< n = BitVec.ofNat w (2 ^ n) := by
  apply BitVec.eq_of_toNat_eq
  rw [BitVec.toNat_shiftLeft, BitVec.toNat_ofNat, BitVec.toNat_ofNat, shiftLeft_eq]
  rw [mod_mul_mod, Nat.one_mul]

theorem maskForCopyBits_spec {a b : Nat} (hab : a ≤ b) (hb : b < w)
    : ∃ m : BitVec w, maskForCopyBits w a b = .ok m ∧
        ∀ i, i < w → m.getLsbD i = decide (a ≤ i ∧ i ≤ b) := by
  have hhigh : ∃ high : BitVec w,
      (if b = w - 1 then pure 0#w else shlWord 1#w (b + 1) : Result (BitVec w)) = .ok high ∧
        high = BitVec.ofNat w (2 ^ (b + 1)) := by
    split
    . next heq =>
      refine ⟨_, rfl, ?_⟩
      rw [show b + 1 = w by omega]
      apply BitVec.eq_of_toNat_eq
      rw [BitVec.toNat_ofNat, BitVec.toNat_ofNat, mod_self, zero_mod]
    . exact ⟨_, shlWord_ok _ (by omega), one_shiftLeft (b + 1)⟩
  obtain ⟨high, hrun, rfl⟩ := hhigh
  have hle : 2 ^ a ≤ 2 ^ (b + 1) := Nat.pow_le_pow_right (by omega) (by omega)
  have hsub : BitVec.ofNat w (2 ^ (b + 1)) - 1#w <<< a
      = BitVec.ofNat w (2 ^ a * (2 ^ (b + 1 - a) - 1)) := by
    rw [Nat.mul_sub, ← Nat.pow_add, Nat.add_sub_cancel' (by omega), Nat.mul_one]
    rw [BitVec.sub_eq_iff_eq_add, one_shiftLeft, ← BitVec.ofNat_add, Nat.sub_add_cancel hle]
  refine ⟨BitVec.ofNat w (2 ^ a * (2 ^ (b + 1 - a) - 1)), ?_, ?_⟩
  . unfold maskForCopyBits
    dsimp only
    rw [ite_bind_ok hrun, shlWord_ok _ (by omega), ok_bind, hsub]
    rfl
  . intro i hi
    rw [BitVec.getLsbD_ofNat, testBit_two_pow_mul, testBit_two_pow_sub_one]
    rw [Bool.eq_iff_iff]
    simp only [Bool.and_eq_true, decide_eq_true_iff]
    omega

theorem copyInWord_spec {toBlock fromBlock : BitVec w} {s e t : Nat} {shift : Int}
    (hshift : shift = (t : Int) - s) (hse : s ≤ e) (he : e < w) (ht : t + (e - s) < w)
    : ∃ v, copyInWord toBlock s e fromBlock shift = .ok v ∧
        ∀ i, i < w → v.getLsbD i = if t ≤ i ∧ i ≤ t + (e - s) then fromBlock.getLsbD (s + (i - t))
          else toBlock.getLsbD i := by
  obtain ⟨m, hmask, hbits⟩ := maskForCopyBits_spec (by omega : t ≤ t + (e - s)) ht
  obtain ⟨x, hx, hxbits⟩ : ∃ x : BitVec w,
      (if 0 ≤ shift then shlWord fromBlock shift.toNat else shrWord fromBlock (-shift).toNat)
          = .ok x ∧
        ∀ i, i < w → t ≤ i → x.getLsbD i = fromBlock.getLsbD (s + (i - t)) := by
    split
    . refine ⟨_, shlWord_ok _ (by omega), ?_⟩
      intro i hi hti
      rw [BitVec.getLsbD_shiftLeft, decide_eq_true hi, decide_eq_false (by omega),
        show i - shift.toNat = s + (i - t) by omega]
      simp
    . refine ⟨_, shrWord_ok _ (by omega), ?_⟩
      intro i hi hti
      rw [BitVec.getLsbD_ushiftRight, show (-shift).toNat + i = s + (i - t) by omega]
  refine ⟨(toBlock &&& ~~~m) ||| (x &&& m), ?_, ?_⟩
  . unfold copyInWord
    rw [show (s + shift).toNat = t by omega, show (e + shift).toNat = t + (e - s) by omega, hmask,
      ok_bind]
    rw [ite_bind_ok hx]
    rfl
  . intro i hi
    rw [BitVec.getLsbD_or, BitVec.getLsbD_and, BitVec.getLsbD_and, BitVec.getLsbD_not, hbits i hi]
    split
    next hin =>
      rw [hxbits i hi hin.1]
      simp [hin, hi]
    next hout => simp [hout, hi]

structure Copied (src dst : List (BitVec w)) (f t n : Nat) (dst' : List (BitVec w)) : Prop where
  length_eq : dst'.length = dst.length
  copied : ∀ k, k < n → bitAt dst' (t + k) = bitAt src (f + k)
  kept : ∀ i, i < t ∨ t + n ≤ i → bitAt dst' i = bitAt dst i

section

variable {src dst dst' : List (BitVec w)} {f t n : Nat}

theorem Copied.refl (src dst : List (BitVec w)) (f t : Nat) : Copied src dst f t 0 dst :=
  ⟨rfl, fun k hk => absurd hk (Nat.not_lt_zero k), fun _ _ => rfl⟩

theorem Copied.mul_length_eq (h : Copied src dst f t n dst')
    : dst'.length * w = dst.length * w := by
  rw [h.length_eq]

theorem Copied.trans {dst'' : List (BitVec w)} {m : Nat} (h : Copied src dst f t n dst')
    (h' : Copied src dst' (f + n) (t + n) m dst'') : Copied src dst f t (n + m) dst'' where
  length_eq := h'.length_eq.trans h.length_eq
  copied := by
    intro k hk
    by_cases hkn : k < n
    . rw [h'.kept _ (Or.inl (by omega)), h.copied k hkn]
    . have hbit := h'.copied (k - n) (by omega)
      rw [show t + n + (k - n) = t + k by omega, show f + n + (k - n) = f + k by omega] at hbit
      exact hbit
  kept := by
    intro i hi
    rw [h'.kept i (by omega), h.kept i (by omega)]

variable {tb : Nat}

theorem Copied.set {s : Nat} {b : BitVec w} (htb : tb < dst.length) (hs : s + n ≤ w)
    (hb : ∀ i, i < w → b.getLsbD i = if s ≤ i ∧ i < s + n then bitAt src (f + (i - s))
      else (dst.getD tb 0#w).getLsbD i)
    : Copied src dst f (w * tb + s) n (dst.set tb b) where
  length_eq := length_set
  copied := by
    intro k hk
    rw [bitAt_set htb, Nat.add_assoc, mul_add_div (by omega), div_eq_of_lt (by omega),
      if_pos (Nat.add_zero tb), mul_add_mod, mod_eq_of_lt (by omega), hb _ (by omega),
      if_pos (by omega), Nat.add_sub_cancel_left]
  kept := by
    intro i hi
    by_cases hw : w = 0
    . subst hw
      rw [bitAt_set htb]
      unfold bitAt
      simp [BitVec.of_length_zero]
    . rw [bitAt_set htb]
      split
      next hdiv =>
        have hdm := div_add_mod i w
        have hlt := mod_lt i (Nat.pos_of_ne_zero hw)
        rw [hdiv] at hdm
        rw [hb _ hlt, if_neg (by omega)]
        unfold bitAt
        rw [hdiv]
      next => rfl

theorem lt_length_of_mul_lt {blocks : List (BitVec w)} {k x : Nat}
    (h : w * k + x < blocks.length * w) : k < blocks.length := by
  by_contra hle
  have hmul := Nat.mul_le_mul_left w (Nat.not_lt.mp hle)
  rw [Nat.mul_comm w blocks.length] at hmul
  omega

section

variable (src dst : List (BitVec w)) (fb tb : Nat) {s p : Nat} (hf : f = w * fb + s)
  (ht : t = w * tb + p) (hsrc : f + n ≤ src.length * w) (hdst : t + n ≤ dst.length * w)

include hf ht hsrc hdst

theorem copyBlock_spec {e : Nat} {c : Int} (hc : c = (p : Int) - s) (hn : s + n = e + 1)
    (hse : s ≤ e) (he : e < w) (hp : p + n ≤ w)
    : ∃ dst', copyBlock src dst tb s e fb c = .ok dst' ∧ Copied src dst f t n dst' := by
  have hfb : fb < src.length := lt_length_of_mul_lt (x := s) (by omega)
  have htb : tb < dst.length := lt_length_of_mul_lt (x := p) (by omega)
  obtain ⟨v, hrun, hbits⟩ := copyInWord_spec hc hse he (by omega)
  refine ⟨dst.set tb v, ?_, ht ▸ Copied.set htb hp ?_⟩
  . unfold copyBlock
    rw [readAt_of_lt hfb 0#w, ok_bind, readAt_of_lt htb 0#w, ok_bind, hrun, ok_bind,
      writeAt_of_lt htb]
  . intro i hi
    rw [hbits i hi, hf]
    by_cases hin : p ≤ i ∧ i ≤ p + (e - s)
    . rw [if_pos hin, if_pos (by omega), Nat.add_assoc, bitAt_mul_add (by omega)]
    . rw [if_neg hin, if_neg (by omega)]

theorem copyBlock_copyBlock_spec {e : Nat} {c c' : Int} (hc : c = (p : Int) - s)
    (hc' : c' = (p : Int) + w - s) (hs : s < w) (hn : s + n = w + e + 1) (hp : p + n ≤ w)
    : ∃ dst', (copyBlock src dst tb s (w - 1) fb c >>= fun dst =>
        copyBlock src dst tb 0 e (fb + 1) c') = .ok dst' ∧ Copied src dst f t n dst' := by
  obtain ⟨dst₁, hrun₁, hcopied₁⟩ := copyBlock_spec src dst fb tb (n := w - s)
    (e := w - 1) hf ht (by omega) (by omega) hc (by omega) (by omega) (by omega) (by omega)
  have hlength := hcopied₁.mul_length_eq
  obtain ⟨dst₂, hrun₂, hcopied₂⟩ := copyBlock_spec src dst₁ (fb + 1) tb (f := f + (w - s))
    (t := t + (w - s)) (n := n - (w - s)) (s := 0) (p := p + w - s) (e := e) (c := c')
    (by rw [mul_succ]; omega) (by omega) (by omega) (by omega) (by omega) (by omega) (by omega)
    (by omega) (by omega)
  have htrans := hcopied₁.trans hcopied₂
  rw [Nat.add_sub_cancel' (by omega)] at htrans
  rw [hrun₁, ok_bind]
  exact ⟨dst₂, hrun₂, htrans⟩

end

theorem copyBlocks_spec {body : Nat → List (BitVec w) → Result (List (BitVec w))}
    {last : List (BitVec w) → Result (List (BitVec w))} (ht : t = w * tb)
    (hbody : ∀ i dst', w * i + w ≤ n → dst'.length = dst.length → ∃ dst'', body i dst' = .ok dst'' ∧
      Copied src dst' (f + w * i) (w * (tb + i)) w dst'')
    (hlast : ∀ dst', n % w ≠ 0 → dst'.length = dst.length → ∃ dst'', last dst' = .ok dst'' ∧
      Copied src dst' (f + w * (n / w)) (w * (tb + n / w)) (n % w) dst'')
    : ∃ dst', (forLoop body (n / w) 0 dst >>= fun dst =>
        if n % w ≠ 0 then last dst else pure dst) = .ok dst' ∧ Copied src dst f t n dst' := by
  have hdm := div_add_mod n w
  rw [ht]
  obtain ⟨dst', hrun, hcopied⟩ := forLoop_spec (i := 0) (n := n / w)
    (fun i dst' => Copied src dst f (w * tb) (w * i) dst') (s := dst) (by
      intro i dst' _ hi hdst'
      have hle := Nat.mul_le_mul_left w (succ_le_of_lt (by omega : i < n / w))
      rw [mul_succ] at hle
      obtain ⟨dst'', hrun, hcopied⟩ := hbody i dst' (by omega) hdst'.length_eq
      rw [Nat.mul_add] at hcopied
      exact ⟨dst'', hrun, hdst'.trans hcopied⟩) (Copied.refl _ _ _ _)
  rw [Nat.zero_add] at hcopied
  rw [hrun, ok_bind]
  split
  next hne =>
    obtain ⟨dst'', hrun', hcopied'⟩ := hlast dst' hne hcopied.length_eq
    rw [Nat.mul_add] at hcopied'
    have htrans := hcopied.trans hcopied'
    rw [hdm] at htrans
    exact ⟨dst'', hrun', htrans⟩
  next heq =>
    rw [show w * (n / w) = n by omega] at hcopied
    exact ⟨dst', rfl, hcopied⟩

theorem copyWords_spec (src dst : List (BitVec w)) (fb tb : Nat) (hw : 0 < w)
    (hf : f = w * fb) (ht : t = w * tb) (hsrc : f + n ≤ src.length * w)
    (hdst : t + n ≤ dst.length * w)
    : ∃ dst', (forLoop (fun i dst => do
          let block ← readAt src (fb + i)
          writeAt dst (tb + i) block) (n / w) 0 dst >>= fun dst =>
        if n % w ≠ 0 then copyBlock src dst (tb + n / w) 0 (n % w - 1) (fb + n / w) 0
        else pure dst) = .ok dst' ∧ Copied src dst f t n dst' := by
  have hdm := div_add_mod n w
  have hmod := mod_lt n hw
  apply copyBlocks_spec ht
  . intro i dst' hi hlength
    have hfb : fb + i < src.length := lt_length_of_mul_lt (x := 0) (by rw [Nat.mul_add]; omega)
    have htb : tb + i < dst'.length :=
      lt_length_of_mul_lt (x := 0) (by rw [Nat.mul_add, hlength]; omega)
    refine ⟨dst'.set (tb + i) (src.getD (fb + i) 0#w), ?_, Copied.set (s := 0) htb (by omega) ?_⟩
    . rw [readAt_of_lt hfb 0#w, ok_bind, writeAt_of_lt htb]
    . intro k hk
      rw [if_pos (by omega), hf, ← Nat.mul_add, Nat.sub_zero, bitAt_mul_add hk]
  . intro dst' hne hlength
    exact copyBlock_spec _ _ _ _ (s := 0) (p := 0) (by rw [Nat.mul_add]; omega) rfl (by omega)
      (by rw [Nat.mul_add, hlength]; omega) rfl (by omega) (by omega) (by omega) (by omega)

variable {fb : Nat}

theorem copyAligned_spec {bit : Nat} (hbit : bit < w) (hn : 0 < n) (hf : f = w * fb + bit)
    (ht : t = w * tb + bit) (hsrc : f + n ≤ src.length * w) (hdst : t + n ≤ dst.length * w)
    : ∃ dst', copyAligned src fb bit dst tb n = .ok dst' ∧ Copied src dst f t n dst' := by
  unfold copyAligned
  split
  next hlt =>
    exact copyBlock_spec _ _ _ _ hf ht hsrc hdst (by omega) (by omega) (by omega) (by omega)
      (by omega)
  next hge =>
    by_cases hzero : bit = 0
    . subst hzero
      exact copyWords_spec _ _ _ _ hbit hf ht hsrc hdst
    . obtain ⟨dst₁, hrun₁, hcopied₁⟩ := copyBlock_spec src dst fb tb (n := w - bit)
        (e := w - 1) (c := 0) hf ht (by omega) (by omega) (by omega) (by omega) (by omega)
        (by omega) (by omega)
      have hlength := hcopied₁.mul_length_eq
      obtain ⟨dst₂, hrun₂, hcopied₂⟩ := copyWords_spec src dst₁ (fb + 1) (tb + 1)
        (f := f + (w - bit)) (t := t + (w - bit)) (n := n - (w - bit)) (by omega)
        (by rw [mul_succ]; omega) (by rw [mul_succ]; omega) (by omega) (by omega)
      have htrans := hcopied₁.trans hcopied₂
      rw [Nat.add_sub_cancel' (by omega)] at htrans
      refine ⟨dst₂, ?_, htrans⟩
      simp only [if_pos hzero]
      rw [hrun₁, ok_bind]
      exact hrun₂

variable {frombit tobit : Nat}

theorem copyFirst_spec (src dst : List (BitVec w)) (hbit : frombit < w) (hne : frombit ≠ tobit)
    (hn : 0 < n) (hn' : tobit + n ≤ w) (hf : f = w * fb + frombit) (ht : t = w * tb + tobit)
    (hsrc : f + n ≤ src.length * w) (hdst : t + n ≤ dst.length * w)
    : ∃ dst' fb' frombit', copyFirst src fb frombit dst tb tobit n = .ok (dst', fb', frombit') ∧
        f + n = w * fb' + frombit' ∧ 0 < frombit' ∧ (tobit + n = w → frombit' < w) ∧
        Copied src dst f t n dst' := by
  unfold copyFirst
  dsimp only
  split
  next hle =>
    obtain ⟨dst', hrun, hcopied⟩ := copyBlock_spec src dst fb tb (e := frombit + n - 1) hf ht
      hsrc hdst rfl (by omega) (by omega) (by omega) (by omega)
    rw [hrun, ok_bind]
    exact ⟨dst', fb, frombit + n, rfl, by omega, by omega, by omega, hcopied⟩
  next hgt =>
    obtain ⟨dst', hrun, hcopied⟩ := copyBlock_copyBlock_spec src dst fb tb
      (e := n + frombit - 1 - w) hf ht hsrc hdst rfl rfl hbit (by omega) (by omega)
    rw [← bind_assoc, hrun, ok_bind]
    refine ⟨dst', fb + 1, frombit + n - w, rfl, ?_, by omega, by omega, hcopied⟩
    rw [mul_succ]
    omega

theorem copied_shifted (src : List (BitVec w)) (fb : Nat) {m : BitVec w} (hbit : frombit < w)
    (hm : ∀ i, i < w → m.getLsbD i = decide (frombit ≤ i ∧ i ≤ w - 1)) (htb : tb < dst.length)
    : Copied src dst (w * fb + frombit) (w * tb) w (dst.set tb
        ((src.getD fb 0#w &&& m) >>> frombit
          ||| (src.getD (fb + 1) 0#w &&& ~~~m) <<< (w - frombit))) := by
  apply Copied.set (s := 0) htb (by omega)
  intro i hi
  rw [if_pos (by omega), Nat.sub_zero, BitVec.getLsbD_or, BitVec.getLsbD_ushiftRight,
    BitVec.getLsbD_shiftLeft, BitVec.getLsbD_and, BitVec.getLsbD_and, BitVec.getLsbD_not]
  by_cases hlt : frombit + i < w
  . rw [Nat.add_assoc, bitAt_mul_add hlt, hm _ hlt, decide_eq_true (by omega),
      decide_eq_true (by omega : i < w - frombit)]
    simp
  . have hout : (src.getD fb 0#w).getLsbD (frombit + i) = false :=
      BitVec.getLsbD_of_ge _ _ (by omega)
    rw [show w * fb + frombit + i = w * (fb + 1) + (frombit + i - w) by rw [mul_succ]; omega,
      bitAt_mul_add (by omega), hout, show i - (w - frombit) = frombit + i - w by omega,
      hm (frombit + i - w) (by omega), decide_eq_true (by omega : frombit + i - w < w),
      decide_eq_true hi, decide_eq_false (by omega : ¬i < w - frombit),
      decide_eq_false (by omega : ¬(frombit ≤ frombit + i - w ∧ frombit + i - w ≤ w - 1))]
    simp

theorem copyRest_spec (src dst : List (BitVec w)) (tb : Nat) (hbit : 0 < frombit ∧ frombit < w)
    (hf : f = w * fb + frombit) (ht : t = w * tb) (hsrc : f + n ≤ src.length * w)
    (hdst : t + n ≤ dst.length * w)
    : ∃ dst', copyRest src fb frombit dst tb n = .ok dst' ∧ Copied src dst f t n dst' := by
  have hdm := div_add_mod n w
  have hmod := mod_lt n (by omega : w > 0)
  unfold copyRest
  apply copyBlocks_spec ht
  . intro i dst' hi hlength
    have hfb : fb + i + 1 < src.length :=
      lt_length_of_mul_lt (x := 0) (by rw [mul_succ, Nat.mul_add]; omega)
    have htb : tb + i < dst'.length :=
      lt_length_of_mul_lt (x := 0) (by rw [Nat.mul_add, hlength]; omega)
    obtain ⟨m, hmask, hm⟩ := maskForCopyBits_spec (w := w) (by omega : frombit ≤ w - 1)
      (by omega)
    have hcopied := copied_shifted src (fb + i) hbit.2 hm htb
    rw [Nat.mul_add, Nat.add_right_comm, ← hf] at hcopied
    refine ⟨_, ?_, hcopied⟩
    rw [hmask, ok_bind, readAt_of_lt (by omega) 0#w, ok_bind, shrWord_ok _ hbit.2, ok_bind,
      readAt_of_lt hfb 0#w, ok_bind, shlWord_ok _ (by omega), ok_bind, writeAt_of_lt htb]
  . intro dst' hne hlength
    have hstart : f + w * (n / w) = w * (fb + n / w) + frombit := by
      rw [Nat.mul_add]
      omega
    have hfits : w * (tb + n / w) + n % w ≤ dst'.length * w := by
      rw [Nat.mul_add, hlength]
      omega
    split
    next hle =>
      exact copyBlock_spec _ _ _ _ (p := 0) hstart rfl (by omega) hfits (by omega) (by omega)
        (by omega) (by omega) (by omega)
    next hgt =>
      exact copyBlock_copyBlock_spec _ _ _ _ (p := 0) hstart rfl (by omega) hfits (by omega)
        (by omega) hbit.2 (by omega) (by omega)

theorem copyBits_copied (hfrombit : frombit < w) (htobit : tobit < w) (hf : f = w * fb + frombit)
    (ht : t = w * tb + tobit) (hsrc : ∀ k, k < n → f + k < src.length * w)
    (hdst : ∀ k, k < n → t + k < dst.length * w)
    : ∃ dst', copyBits src fb frombit dst tb tobit n = .ok dst' ∧ Copied src dst f t n dst' := by
  unfold copyBits
  split
  next hzero =>
    subst hzero
    exact ⟨dst, rfl, Copied.refl _ _ _ _⟩
  next hzero =>
    have hsrc' := hsrc (n - 1) (by omega)
    have hdst' := hdst (n - 1) (by omega)
    split
    next heq =>
      subst heq
      exact copyAligned_spec hfrombit (by omega) hf ht (by omega) (by omega)
    next hne =>
      split
      next hpos =>
        dsimp only
        generalize htail : (if tobit + n ≤ w then n else w - tobit) = tailbits
        obtain ⟨dst₁, fb', frombit', hrun, hstart, hpos', hlt, hcopied⟩ :=
          copyFirst_spec src dst (n := tailbits) hfrombit hne (by grind)
            (by grind) hf ht (by grind) (by grind)
        have hlength := hcopied.mul_length_eq
        have hle : tailbits ≤ n := by grind
        rw [hrun, ok_bind]
        by_cases hrest : n = tailbits
        . subst hrest
          refine ⟨dst₁, ?_, hcopied⟩
          rw [Nat.sub_self]
          unfold copyRest
          simp [forLoop]
          rfl
        . have htailbits : tobit + tailbits = w := by grind
          obtain ⟨dst', hrun', hcopied'⟩ := copyRest_spec src dst₁ (tb + 1) (n := n - tailbits)
            ⟨hpos', hlt htailbits⟩ hstart rfl (by omega)
            (by rw [mul_succ]; omega)
          rw [show w * (tb + 1) = t + tailbits by rw [mul_succ]; omega] at hcopied'
          have htrans := hcopied.trans hcopied'
          rw [Nat.add_sub_cancel' hle] at htrans
          exact ⟨dst', hrun', htrans⟩
      next hzero =>
        obtain rfl : tobit = 0 := by omega
        exact copyRest_spec _ _ _ (by omega) hf ht (by omega) (by omega)

theorem Copied.unique {src' dst₁ dst₂ : List (BitVec w)}
    (h : Copied src dst f t n dst₁) (h' : Copied src' dst f t n dst₂)
    (heq : ∀ k, k < n → bitAt src' (f + k) = bitAt src (f + k)) : dst₂ = dst₁ := by
  have hbit : ∀ i, bitAt dst₂ i = bitAt dst₁ i := by
    intro i
    by_cases hi : t ≤ i ∧ i < t + n
    . obtain ⟨k, rfl⟩ := Nat.exists_eq_add_of_le hi.1
      rw [h.copied k (by omega), h'.copied k (by omega), heq k (by omega)]
    . rw [h.kept i (by omega), h'.kept i (by omega)]
  apply ext_getElem
  . rw [h.length_eq, h'.length_eq]
  . intro k hk hk'
    apply BitVec.eq_of_getLsbD_eq
    intro i hi
    have hki := hbit (w * k + i)
    rw [bitAt_mul_add hi, bitAt_mul_add hi, getD_eq_getElem _ _ hk,
      getD_eq_getElem _ _ hk'] at hki
    exact hki

theorem copyBits_spec (src dst : List (BitVec w)) (fb tb : Nat) (hfrombit : frombit < w)
    (htobit : tobit < w) (hsrc : ∀ k, k < n → w * fb + frombit + k < src.length * w)
    (hdst : ∀ k, k < n → w * tb + tobit + k < dst.length * w)
    : ∃ dst', copyBits src fb frombit dst tb tobit n = .ok dst' ∧
        Copied src dst (w * fb + frombit) (w * tb + tobit) n dst' ∧
        ∀ src' : List (BitVec w), (∀ k, k < n →
            src'[(w * fb + frombit + k) / w]? = src[(w * fb + frombit + k) / w]?) →
          copyBits src' fb frombit dst tb tobit n = .ok dst' := by
  have hw : 0 < w := by omega
  obtain ⟨dst', hrun, hcopied⟩ := copyBits_copied hfrombit htobit rfl rfl hsrc hdst
  refine ⟨dst', hrun, hcopied, ?_⟩
  intro src' hsame
  have hsrc' : ∀ k, k < n → w * fb + frombit + k < src'.length * w := by
    intro k hk
    apply lt_of_div_lt hw
    have hlt := div_lt_of_lt hw (hsrc k hk)
    have hsome := hsame k hk
    rw [List.getElem?_eq_getElem hlt] at hsome
    exact (List.getElem?_eq_some_iff.mp hsome).1
  obtain ⟨dst₂, hrun₂, hcopied₂⟩ := copyBits_copied hfrombit htobit rfl rfl hsrc' hdst
  rw [hrun₂, hcopied.unique hcopied₂]
  intro k hk
  unfold bitAt
  rw [List.getD_eq_getElem?_getD, hsame k hk, List.getD_eq_getElem?_getD]

theorem copyBits_spec_eight
    : ∃ dst', copyBits [0x5A#8, 0xC3#8] 0 3 [0#8, 0#8] 0 5 9 = .ok dst' ∧
        Copied [0x5A#8, 0xC3#8] [0#8, 0#8] 3 5 9 dst' := by
  obtain ⟨dst', hrun, hcopied, -⟩ := copyBits_spec [0x5A#8, 0xC3#8] [0#8, 0#8] 0 0
    (by decide : 3 < 8) (by decide : 5 < 8) (n := 9) (by decide) (by decide)
  exact ⟨dst', hrun, hcopied⟩

end

end CopyBits
