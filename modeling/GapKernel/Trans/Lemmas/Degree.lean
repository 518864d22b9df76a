import GapKernel.Trans.Lemmas.Compare

open PermList TransImpl List

section Degree

variable {φ : Nat → Nat} {d n : Nat} {T : PermTnum}

theorem IsTransDegree.unique {d' : Nat} (h : IsTransDegree φ d) (h' : IsTransDegree φ d')
    : d = d' :=
  IsLeast.unique h h'

theorem Fits.mem_degree (h : Fits T n φ) : ∀ p, n ≤ p → φ p = p ∧ ∀ i, φ i = p → i = p := by
  intro p hp
  constructor
  . apply h.fix p hp
  . intro i hi
    by_cases hin : i < n
    . have := h.lt i hin
      omega
    . rw [← hi]
      rw [h.fix i (by omega)]

theorem Fits.degree_le (h : Fits T n φ) (hd : IsTransDegree φ d) : d ≤ n :=
  hd.2 h.mem_degree

theorem Fits.degree {T' : PermTnum} (h : Fits T n φ) (hd : IsTransDegree φ d)
    (hT : T.bits ≤ T'.bits ∨ d ≤ 2 ^ T'.bits) : Fits T' d φ := by
  have hlt : ∀ i, i < d → φ i < d := by
    intro i hi
    by_contra hge
    have := (hd.1 (φ i) (by omega)).2 i rfl
    omega
  have hle := h.degree_le hd
  constructor
  . intro i hi
    apply (hd.1 i hi).1
  . exact hlt
  . intro i hi
    cases hT with
    | inl hT => apply (h.widen hT).lt_bits i (by omega)
    | inr hT => exact Nat.lt_of_lt_of_le (hlt i hi) hT

theorem Fits.isTransDegree (h : Fits T n φ) (hlast : n = 0 ∨ φ (n - 1) ≠ n - 1)
    : IsTransDegree φ n := by
  constructor
  . exact h.mem_degree
  . intro m hm
    cases hlast with
    | inl hn => omega
    | inr hlast =>
      by_contra hlt
      exact hlast (hm (n - 1) (by omega)).1

structure IsPartialDegree (φ : Nat → Nat) (i deg : Nat) : Prop where
  lt : ∀ p, p < i → φ p ≠ p → p < deg ∧ φ p < deg
  eq : deg = 0 ∨ ∃ p, φ p ≠ p ∧ (deg = p + 1 ∨ deg = φ p + 1)

theorem IsPartialDegree.isTransDegree (h : IsPartialDegree φ n d) (hfits : Fits T n φ)
    : IsTransDegree φ d := by
  have hmoved : ∀ p, φ p ≠ p → p < d ∧ φ p < d := by
    intro p hp
    apply h.lt p _ hp
    by_contra hle
    exact hp (hfits.fix p (by omega))
  constructor
  . intro q hq
    constructor
    . by_contra hne
      have := hmoved q hne
      omega
    . intro i hi
      by_contra hne
      have := hmoved i (by omega)
      omega
  . intro m hm
    by_contra hlt
    cases h.eq with
    | inl h0 => omega
    | inr hp =>
      obtain ⟨p, hp, hd⟩ := hp
      cases hd with
      | inl hd => exact hp (hm p (by omega)).1
      | inr hd => exact hp ((hm (φ p) (by omega)).2 p rfl).symm

/--
The point `2 ^ 32` is not both fixed and the image of another point. The entry `2 ^ 32 - 1` plus one
is `0` in 32 bits.
-/
def NoWrap (φ : Nat → Nat) : Prop :=
  φ (2 ^ 32 - 1) = 2 ^ 32 - 1 → ∀ i, φ i = 2 ^ 32 - 1 → i = 2 ^ 32 - 1

theorem NoWrap.plusOne_eq (h : NoWrap φ) (hfits : Fits T n φ) (hlast : φ (n - 1) = n - 1) {i : Nat}
    (hin : i < n) (hi : i < φ i) : T.plusOne (φ i) = φ i + 1 := by
  have hbits := hfits.lt_bits i hin
  cases T with
  | perm2 => rfl
  | perm4 =>
    change φ i < 2 ^ 32 at hbits
    apply Nat.mod_eq_of_lt
    by_contra hge
    have heq : φ i = 2 ^ 32 - 1 := by omega
    have hlt := hfits.lt i hin
    have hlast' := hfits.lt_bits (n - 1) (by omega)
    rw [hlast] at hlast'
    change n - 1 < 2 ^ 32 at hlast'
    have hn : n - 1 = 2 ^ 32 - 1 := by omega
    rw [hn] at hlast
    have := h hlast i heq
    omega

theorem degreeLoop_spec {pt : List Nat} (hpt : IsEntries T pt φ) (hw : NoWrap φ)
    (hlast : φ (pt.length - 1) = pt.length - 1)
    : ∃ deg, degreeLoop T pt pt.length 0 0 = .ok deg ∧ IsTransDegree φ deg := by
  unfold degreeLoop
  apply forLoop_of_inv (fun i deg => IsPartialDegree φ i deg)
  . constructor
    . intro p hp
      omega
    . left
      rfl
  . intro i deg _ hi hdeg
    have hin : i < pt.length := by omega
    rw [hpt.readEntry_eq hin]
    rw [ok_bind]
    -- The first points, and the point `i`.
    have hstep : ∀ deg', deg ≤ deg' → (φ i ≠ i → i < deg' ∧ φ i < deg')
        → ∀ p, p < i + 1 → φ p ≠ p → p < deg' ∧ φ p < deg' := by
      intro deg' hle himp p hp hne
      by_cases hpi : p = i
      . rw [hpi] at hne ⊢
        exact himp hne
      . have := hdeg.lt p (by omega) hne
        omega
    split
    . next hgt =>
      rw [hw.plusOne_eq hpt.fits hlast hin hgt.1] at hgt ⊢
      refine ⟨_, rfl, ?_, ?_⟩
      . apply hstep
        . omega
        . omega
      . right
        exact ⟨i, by omega, Or.inr rfl⟩
    . next hgt =>
      split
      . next hlt =>
        refine ⟨_, rfl, ?_, ?_⟩
        . apply hstep
          . omega
          . omega
        . right
          exact ⟨i, by omega, Or.inl rfl⟩
      . next hlt =>
        refine ⟨_, rfl, ?_, hdeg.eq⟩
        apply hstep _ (Nat.le_refl _)
        intro hne
        by_cases hgt' : φ i > i
        . have := hw.plusOne_eq hpt.fits hlast hin hgt'
          omega
        . omega
  . intro deg hdeg
    rw [Nat.zero_add] at hdeg
    apply hdeg.isTransDegree hpt.fits

variable {w : IntSize} {f : TransBag}

theorem IsTransBag.setExt (hf : IsTransBag f φ) (hd : IsTransDegree φ d)
    : IsTransBag { f with ext := some d } φ where
  acts := hf.acts
  fits := hf.fits
  deg_le := hf.deg_le
  ext := by
    intro d' hd'
    cases hd'
    exact hd

structure SetsDegree (φ : Nat → Nat) (f f' : TransBag) (d : Nat) : Prop where
  isTransBag : IsTransBag f' φ
  isDegree : IsTransDegree φ d
  eq : f' = { f with ext := some d }

theorem funcDegreeOfTransformation_spec (hf : IsTransBag f φ) (hw : NoWrap φ)
    : ∃ f' d, funcDegreeOfTransformation w f = .ok (f', d) ∧ SetsDegree φ f f' d := by
  have he := hf.isEntries
  unfold funcDegreeOfTransformation
  split
  . next d hd =>
    refine ⟨_, _, rfl, hf, hf.ext d hd, ?_⟩
    rw [← hd]
  . rw [constAddrTrans_eq f]
    rw [ok_bind]
    have hset : ∀ d, IsTransDegree φ d → SetsDegree φ f { f with ext := some d } d :=
      fun d hd => ⟨hf.setExt hd, hd, rfl⟩
    by_cases hn : f.entries.length = 0
    . unfold lastEntry uintPred
      rw [if_pos hn]
      rw [if_pos hn]
      have hpos : 0 ≠ 2 ^ w.bits - 1 := by
        cases w <;> decide
      refine ⟨_, _, ?_, hset _ (he.fits.isTransDegree (Or.inl hn))⟩
      rw [pure_bind]
      rw [if_pos hpos]
      rfl
    . unfold lastEntry uintPred
      rw [if_neg hn]
      rw [if_neg hn]
      rw [he.readEntry_eq (by omega)]
      rw [ok_bind]
      by_cases hlast : φ (f.entries.length - 1) = f.entries.length - 1
      . rw [if_neg (by omega)]
        obtain ⟨d, hrun, hd⟩ := degreeLoop_spec he hw hlast
        rw [hrun]
        exact ⟨_, _, rfl, hset d hd⟩
      . rw [if_pos hlast]
        exact ⟨_, _, rfl, hset _ (he.fits.isTransDegree (Or.inr hlast))⟩

end Degree

section Trim

variable {φ : Nat → Nat} {d : Nat} {f : TransBag} {o : ByteOrder}

structure IsNarrowed (o : ByteOrder) (l : List Nat) (i : Nat) (mem : List Nat) : Prop where
  length_eq : mem.length = 4 * l.length
  take_eq : mem.take (2 * i) = Bytes.ofEntries o 2 (l.take i)
  drop_eq : mem.drop (2 * i) = (Bytes.ofEntries o 4 l).drop (2 * i)

theorem IsNarrowed.step {l : List Nat} {i : Nat} {mem : List Nat} (h : IsNarrowed o l i mem)
    (hi : i < l.length) (hlt : l[i] < 2 ^ 16)
    : Bytes.readMem o 4 mem (4 * i) = .ok l[i]
      ∧ ∃ mem', Bytes.writeMem o 2 mem (2 * i) l[i] = .ok mem' ∧ IsNarrowed o l (i + 1) mem' := by
  have hlen := h.length_eq
  constructor
  . unfold Bytes.readMem
    rw [if_pos (by omega)]
    have hdrop : mem.drop (4 * i) = (Bytes.ofEntries o 4 l).drop (4 * i) := by
      rw [show 4 * i = 2 * i + 2 * i by omega]
      rw [← drop_drop]
      rw [h.drop_eq]
      rw [drop_drop]
    rw [hdrop]
    rw [Bytes.take_drop_ofEntries 4 i l hi]
    rw [Bytes.ofBytes_toBytes]
    rw [Nat.mod_eq_of_lt (by omega)]
    rfl
  . have hpre : (mem.take (2 * i)).length = 2 * i := by
      rw [length_take_of_le (by omega)]
    have hnew : (mem.take (2 * i) ++ Bytes.toBytes o 2 l[i]).length = 2 * (i + 1) := by
      rw [length_append]
      rw [hpre]
      rw [Bytes.length_toBytes]
      omega
    unfold Bytes.writeMem
    rw [if_pos (by omega)]
    refine ⟨_, rfl, ?_, ?_, ?_⟩
    . rw [length_append]
      rw [hnew]
      rw [length_drop]
      omega
    . rw [← hnew]
      rw [take_left]
      rw [h.take_eq]
      rw [take_succ_eq_append_getElem hi]
      rw [Bytes.ofEntries_append]
      rw [Bytes.ofEntries_cons]
      rw [show Bytes.ofEntries o 2 [] = [] from rfl]
      rw [append_nil]
    . rw [← hnew]
      rw [drop_left]
      rw [hnew]
      rw [show 2 * i + 2 = 2 * (i + 1) by omega]
      rw [show 2 * (i + 1) = 2 * i + 2 by omega]
      rw [← drop_drop]
      rw [h.drop_eq]
      rw [drop_drop]

theorem narrow_spec {l : List Nat} (hd : d ≤ l.length) (hl : ∀ v ∈ l.take d, v < 2 ^ 16)
    : ∃ mem, narrow o d (Bytes.ofEntries o 4 l) = .ok mem
        ∧ Bytes.entries o 2 d (mem.take (2 * d)) = l.take d := by
  unfold narrow
  apply forLoop_of_inv (fun i mem => IsNarrowed o l i mem)
  . constructor
    . apply Bytes.length_ofEntries
    . rfl
    . rfl
  . intro i mem _ hi hmem
    have hil : i < l.length := by omega
    have hlt : l[i] < 2 ^ 16 := by
      apply hl
      rw [mem_take_iff_getElem]
      exact ⟨i, by omega, rfl⟩
    obtain ⟨hread, mem', hwrite, hmem'⟩ := hmem.step hil hlt
    refine ⟨mem', ?_, hmem'⟩
    rw [hread]
    rw [ok_bind]
    rw [show PermTnum.perm2.cast l[i] = l[i] from Nat.mod_eq_of_lt hlt]
    exact hwrite
  . intro mem hmem
    rw [Nat.zero_add] at hmem
    rw [hmem.take_eq]
    have h := Bytes.entries_ofEntries (o := o) 2 d (l.take d)
      (by rw [length_take_of_le hd])
    rw [take_take] at h
    rw [Nat.min_self] at h
    apply h hl

section

variable (hf : IsTransBag f φ) (hd : IsTransDegree φ d)

include hf hd

theorem IsTransBag.take {tnum : TransTnum} (htnum : tnum = f.tnum ∨ d ≤ 65536)
    : IsTransBag (.mk tnum none none none (f.entries.take d)) φ := by
  have hle := hf.fits.degree_le hd
  have hbits : f.tnum.dataType.bits ≤ tnum.dataType.bits ∨ d ≤ 2 ^ tnum.dataType.bits := by
    cases htnum with
    | inl htnum =>
      left
      rw [htnum]
    | inr h =>
      right
      apply Nat.le_trans h
      cases tnum <;> decide
  constructor
  . intro i
    by_cases hi : i < d
    . rw [← hf.acts]
      unfold image
      rw [getD_eq_getElem?_getD]
      rw [getElem?_take_of_lt hi]
      rw [getD_eq_getElem?_getD]
    . rw [image_of_le]
      . rw [(hd.1 i (by omega)).1]
      . rw [length_take_of_le hle]
        omega
  . dsimp only
    rw [length_take_of_le hle]
    apply hf.fits.degree hd hbits
  . intro h2
    dsimp only at h2 ⊢
    rw [length_take_of_le hle]
    cases htnum with
    | inl htnum =>
      have := hf.deg_le (htnum.symm.trans h2)
      omega
    | inr h => exact h
  . intro d' hd'
    contradiction

theorem IsTransBag.lt_of_mem_take
    : ∀ v ∈ f.entries.take d, v < d := by
  have hle := hf.fits.degree_le hd
  intro v hv
  rw [mem_take_iff_getElem] at hv
  obtain ⟨i, hi, hv⟩ := hv
  rw [← hv]
  rw [← image_of_lt (by omega)]
  rw [hf.acts]
  have hfits : Fits f.tnum.dataType d φ := hf.fits.degree hd (Or.inl (Nat.le_refl _))
  apply hfits.lt
  omega

theorem funcTrimTrans_spec
    : ∃ f', funcTrimTrans o f d = .ok f' ∧ IsTransBag f' φ ∧ f'.entries = f.entries.take d
        ∧ f'.tnum = if d ≤ 65536 then .trans2 else f.tnum := by
  have hle := hf.fits.degree_le hd
  unfold funcTrimTrans
  rw [if_neg (by omega)]
  split
  . next h2 =>
    have := hf.deg_le h2
    refine ⟨_, rfl, hf.take hd (Or.inl h2.symm), rfl, ?_⟩
    rw [if_pos (by omega)]
  . next h4 =>
    split
    . next hgt =>
      refine ⟨_, rfl, hf.take hd (Or.inl h4.symm), rfl, ?_⟩
      rw [if_neg (by omega)]
      exact h4.symm
    . next hgt =>
      have hmem : ∀ v ∈ f.entries.take d, v < 2 ^ 16 := by
        intro v hv
        have := hf.lt_of_mem_take hd v hv
        omega
      obtain ⟨mem, hrun, hmem⟩ := narrow_spec (o := o) hle hmem
      rw [hrun]
      rw [ok_bind]
      rw [hmem]
      refine ⟨_, rfl, hf.take hd (Or.inr (by omega)), rfl, ?_⟩
      rw [if_pos (by omega)]

end

theorem map_range_take (hf : IsTransBag f φ) (hle : d ≤ f.entries.length)
    : f.entries.take d = (range d).map φ := by
  apply ext_getElem
  . rw [length_take_of_le hle]
    rw [length_map]
    rw [length_range]
  . intro i hi hi'
    rw [length_take_of_le hle] at hi
    rw [getElem_take]
    rw [getElem_map]
    rw [getElem_range]
    rw [← hf.acts]
    rw [image_of_lt (by omega)]

def transHash (o : ByteOrder) (hashkeyMem : List Nat → Nat → Int) (φ : Nat → Nat) (d : Nat) : Int :=
  hashkeyMem (Bytes.ofEntries o (if d ≤ 65536 then 2 else 4) ((List.range d).map φ)) 255

theorem hashBag_spec {w : IntSize} {hashkeyMem : List Nat → Nat → Int} (hf : IsTransBag f φ)
    (hle : d ≤ f.entries.length) {n : Nat} (hn : f.tnum.dataType.sizeof = n) (hlt : n * d < 2 ^ 31)
    : hashFuncForTrans.hashBag w o hashkeyMem f (n * d)
        = .ok (hashkeyMem (Bytes.ofEntries o n ((range d).map φ)) 255) := by
  have hmod : n * d % 2 ^ w.bits = n * d := by
    apply Nat.mod_eq_of_lt
    apply Nat.lt_of_lt_of_le hlt
    cases w <;> decide
  have hmem : n * d ≤ n * f.entries.length := Nat.mul_le_mul_left n hle
  unfold hashFuncForTrans.hashBag hashkeyBagNC
  rw [hmod]
  rw [toInt32_eq hlt]
  rw [hn]
  rw [Bytes.length_ofEntries]
  rw [if_pos (by omega)]
  rw [Int.toNat_natCast]
  rw [show (0 : Int).toNat = 0 from rfl]
  rw [drop_zero]
  rw [Bytes.take_ofEntries]
  rw [map_range_take hf hle]
  rfl

theorem hashFuncForTrans_spec (w : IntSize) (o : ByteOrder) (hashkeyMem : List Nat → Nat → Int)
    (hf : IsTransBag f φ) (hd : IsTransDegree φ d) (hlt : d < 2 ^ 29)
    : ∃ f', hashFuncForTrans w o hashkeyMem f = .ok (f', transHash o hashkeyMem φ d)
        ∧ IsTransBag f' φ := by
  have hw : NoWrap φ := by
    intro _ i hi
    by_contra hne
    exact hne ((hd.1 (2 ^ 32 - 1) (by omega)).2 i hi)
  obtain ⟨f1, d', hrun, hset⟩ := funcDegreeOfTransformation_spec (w := w) hf hw
  have hdd : d' = d := hset.isDegree.unique hd
  rw [hdd] at hrun hset
  have hf1 := hset.isTransBag
  have hle : d ≤ f1.entries.length := hf1.fits.degree_le hd
  unfold hashFuncForTrans transHash
  rw [hrun]
  rw [ok_bind]
  dsimp only
  split
  . next h4 =>
    split
    . next hsmall =>
      obtain ⟨f2, htrim, hf2, hentries, htnum⟩ := funcTrimTrans_spec (o := o) hf1 hd
      rw [if_pos hsmall] at htnum
      rw [htrim]
      rw [ok_bind]
      have hle2 : d ≤ f2.entries.length := by
        rw [hentries]
        rw [length_take_of_le hle]
      rw [hashBag_spec hf2 hle2 (n := 2) (by rw [htnum]; rfl) (by omega)]
      exact ⟨f2, rfl, hf2⟩
    . next hbig =>
      rw [hashBag_spec hf1 hle (n := 4) (by rw [h4]; rfl) (by omega)]
      exact ⟨f1, rfl, hf1⟩
  . next h2 =>
    have := hf1.deg_le h2
    rw [hashBag_spec hf1 hle (n := 2) (by rw [h2]; rfl) (by omega)]
    rw [if_pos (by omega)]
    exact ⟨f1, rfl, hf1⟩

end Trim

namespace TransOps

/--
What the operations do with the transformations `f` and `g` and the permutation `p`. The point `i`
of a bag stands for the integer `i + 1`, and the functions act from the right.
-/
structure Correct (w : IntSize) (o : ByteOrder) (hashkeyMem : List Nat → Nat → Int)
    (f g : TransBag) (φ ψ : Nat → Nat) (p : PermBag) (σ : Equiv.Perm Nat) : Prop where
  prod : ComputesTrans (prod f g) (ψ ∘ φ)
  prodPerm : ComputesTrans (prodPerm f p) (σ ∘ φ)
  permProd : ComputesTrans (permProd p f) (φ ∘ σ)
  pow : ComputesTrans (pow f p) (σ ∘ φ ∘ σ.symm)
  permLquo : ComputesTrans (permLquo p f) (φ ∘ σ.symm)
  eq : ∃ b, eq o f g = .ok b ∧ (b = true ↔ φ = ψ)
  lt : ∃ b, lt f g = .ok b ∧ (b = true ↔ toLex φ < toLex ψ)
  degree : NoWrap φ
    → ∃ f' d, funcDegreeOfTransformation w f = .ok (f', d) ∧ IsTransBag f' φ ∧ IsTransDegree φ d
  hash : ∀ d, IsTransDegree φ d → d < 2 ^ 29
    → ∃ f', hashFuncForTrans w o hashkeyMem f = .ok (f', transHash o hashkeyMem φ d)
      ∧ IsTransBag f' φ

theorem correct_bags {w : IntSize} {f g : TransBag} {φ ψ : Nat → Nat} {p : PermBag}
    {σ : Equiv.Perm Nat} (o : ByteOrder) (hashkeyMem : List Nat → Nat → Int)
    (hf : IsTransBag f φ) (hg : IsTransBag g ψ) (hp : IsPermBag w p σ)
    : Correct w o hashkeyMem f g φ ψ p σ := by
  constructor
  . apply prodTrans_spec hf hg
  . apply prodTransPerm_spec hf hp
  . apply prodPermTrans_spec hp hf
  . apply powTransPerm_spec hf hp
  . apply lQuoPermTrans_spec hp hf
  . apply eq_spec o hf hg
  . apply ltTrans_spec hf hg
  . intro hw
    obtain ⟨f', d, hrun, hset⟩ := funcDegreeOfTransformation_spec (w := w) hf hw
    exact ⟨f', d, hrun, hset.isTransBag, hset.isDegree⟩
  . intro d hd hlt
    apply hashFuncForTrans_spec w o hashkeyMem hf hd hlt

theorem isTransBag_image {f : TransBag} (hext : f.ext = none)
    (hentries : ∀ v ∈ f.entries, v < f.entries.length ∧ v < 2 ^ f.tnum.dataType.bits)
    (hdeg : f.tnum = .trans2 → f.entries.length ≤ 65536) : IsTransBag f (image f.entries) where
  acts := fun _ => rfl
  fits := by
    have hmem : ∀ i, i < f.entries.length → image f.entries i ∈ f.entries := by
      intro i hi
      rw [image_of_lt hi]
      apply getElem_mem
    constructor
    . intro i hi
      apply image_of_le hi
    . intro i hi
      apply (hentries _ (hmem i hi)).1
    . intro i hi
      apply (hentries _ (hmem i hi)).2
  deg_le := hdeg
  ext := by
    intro d hd
    rw [hext] at hd
    contradiction

-- `1 -> 2`, `2 -> 2` with a fixed point at the end and 32 bits, and `1 -> 3` with 16 bits.
def exampleTrans4 : TransBag :=
  newTrans .perm4 [1, 1, 2]

def exampleTrans2 : TransBag :=
  newTrans .perm2 [2, 1, 2]

theorem correct_bags_example
    : Correct .int8 .little (fun mem seed => (mem.sum + seed : Nat)) exampleTrans4 exampleTrans2
        (image exampleTrans4.entries) (image exampleTrans2.entries)
        { tnum := .perm2, entries := [1, 0], storedInv := none } (Equiv.swap 0 1) :=
  correct_bags .little _
    (isTransBag_image rfl (by decide) (by decide)) (isTransBag_image rfl (by decide) (by decide))
    (PermOps.isPermHeap_exampleHeap.isPermBag 1 _ rfl)

/--
The degree of `1 -> 2`, `2 -> 2` is 2, and 2 is a fixed point.
-/
theorem degree_not_least
    : ∃ f φ, IsTransBag f φ ∧ ∃ f' d, funcDegreeOfTransformation .int8 f = .ok (f', d)
        ∧ ¬IsLeast {n | ∀ p, n ≤ p → φ p = p} d := by
  refine ⟨exampleTrans4, image exampleTrans4.entries,
    isTransBag_image rfl (by decide) (by decide), _, 2, rfl, ?_⟩
  intro h
  have h1 : 2 ≤ 1 := by
    apply h.2
    intro p hp
    match p with
    | 1 => rfl
    | 2 => rfl
    | p + 3 => apply image_of_le (Nat.le_add_left 3 p)
  omega

end TransOps
