import GapKernel.PPerm.Lemmas.Convert
import GapKernel.PPerm.Lemmas.Join
import GapKernel.PPerm.Lemmas.Spec

open PartialBijection PPermImpl List Option

namespace PartialBijection

def idemJoin (φ γ : Nat ≃. Nat) : Nat ≃. Nat :=
  PEquiv.ofSet {i | (φ i).isSome ∨ (γ i).isSome}

section Idempotents

variable {φ γ : Nat ≃. Nat}

variable {i v : Nat}

theorem eq_of_idem (h : φ.trans φ = φ) (hv : φ i = some v) : v = i := by
  have htrans : φ.trans φ i = φ v := trans_of_eq_some hv
  rw [h, hv] at htrans
  exact PEquiv.inj φ htrans.symm hv

theorem idemJoin_eq_some_iff
    : idemJoin φ γ i = some v ↔ i = v ∧ ((φ i).isSome ∨ (γ i).isSome) := by
  unfold idemJoin
  rw [PEquiv.ofSet_eq_some_iff]
  constructor
  . rintro ⟨rfl, h⟩
    exact ⟨rfl, h⟩
  . rintro ⟨rfl, h⟩
    exact ⟨rfl, h⟩

theorem idemJoin_symm : (idemJoin φ γ).symm = idemJoin φ γ :=
  PEquiv.ofSet_symm _

theorem idemJoin_of_some (h : φ.trans φ = φ) (hv : φ i = some v)
    : idemJoin φ γ i = φ i := by
  obtain rfl := eq_of_idem h hv
  rw [hv, idemJoin_eq_some_iff, hv]
  exact ⟨rfl, .inl rfl⟩

theorem idemJoin_of_none (h : γ.trans γ = γ) (hi : φ i = none)
    : idemJoin φ γ i = γ i := by
  ext v
  rw [idemJoin_eq_some_iff, hi]
  constructor
  . intro ⟨hiv, hsome⟩
    obtain ⟨u, hu⟩ := isSome_iff_exists.mp (hsome.resolve_left (by decide))
    rw [hu, eq_of_idem h hu, hiv]
  . intro hv
    obtain rfl := eq_of_idem h hv
    rw [hv]
    exact ⟨rfl, .inr rfl⟩

theorem isDegree_idemJoin {d e : Nat} (hd : IsDegree φ d) (he : IsDegree γ e) (hle : d ≤ e)
    : IsDegree (idemJoin φ γ) e := by
  constructor
  . intro i v hv
    rw [idemJoin_eq_some_iff] at hv
    rcases hv.2 with h | h
    . obtain ⟨u, hu⟩ := isSome_iff_exists.mp h
      have := hd.lt i u hu
      omega
    . obtain ⟨u, hu⟩ := isSome_iff_exists.mp h
      exact he.lt i u hu
  . refine he.last.imp_right fun ⟨v, hv⟩ => ⟨e - 1, ?_⟩
    rw [idemJoin_eq_some_iff, hv]
    exact ⟨rfl, .inr rfl⟩

theorem idemJoin_comm : idemJoin φ γ = idemJoin γ φ := by
  ext i v
  rw [idemJoin_eq_some_iff, idemJoin_eq_some_iff]
  exact and_congr_right fun _ => or_comm

theorem idemJoin_self (h : φ.trans φ = φ) : idemJoin φ φ = φ := by
  ext1 i
  cases hv : φ i with
  | none => rw [idemJoin_of_none h hv, hv]
  | some v => rw [idemJoin_of_some h hv, hv]

theorem IsDegree.symm_of_idem (h : φ.trans φ = φ) {d : Nat} (hd : IsDegree φ d)
    : IsDegree φ.symm d := by
  have hsymm : φ.symm = φ := by
    rw [← idemJoin_self h, idemJoin_symm]
  rwa [hsymm]

end Idempotents

end PartialBijection

section Writes

variable {T : PermTnum} {rd : Nat → Result Nat}

variable {pt : List Nat}

theorem writeEntry_eq_ok {pt' : List Nat} {i v : Nat} (h : writeEntry T pt i v = .ok pt')
    : i < pt.length ∧ pt' = pt.set i (T.cast v) := by
  unfold writeEntry at h
  split at h
  . next hlt => exact ⟨hlt, (Except.ok.inj h).symm⟩
  . contradiction

theorem writeLoop_eq_ok {n lo : Nat} {pt' : List Nat}
    (h : forLoop (fun i pt => do writeEntry T pt i (← rd i)) n lo pt = .ok pt') (k : Nat)
    : (lo ≤ k → k < lo + n → ∃ v, rd k = .ok v ∧ pt'[k]? = some (T.cast v))
      ∧ (k < lo → pt'[k]? = pt[k]?) := by
  induction n generalizing lo pt with
  | zero =>
    cases h
    exact ⟨fun h1 h2 => by omega, fun _ => rfl⟩
  | succ n ih =>
    obtain ⟨pt1, hbody, hrest⟩ := of_bind_eq_ok h
    obtain ⟨v, hv, hwrite⟩ := of_bind_eq_ok hbody
    obtain ⟨hlt, rfl⟩ := writeEntry_eq_ok hwrite
    obtain ⟨hin, hout⟩ := ih hrest
    refine ⟨fun h1 h2 => ?_, fun hk => ?_⟩
    . rcases Nat.lt_or_eq_of_le h1 with hk | rfl
      . exact hin hk (by omega)
      . refine ⟨v, hv, ?_⟩
        rw [hout (Nat.lt_succ_self lo), getElem?_set_self hlt]
    . rw [hout (by omega), getElem?_set_ne (by omega)]

structure IsImagesBelow (φ : Nat ≃. Nat) (n i : Nat) (pt : List Nat) : Prop where
  length_eq : pt.length = n
  get : ∀ k, k < i → k < n → pt[k]? = some (entryOf (φ k))

theorem writeLoop_spec {φ : Nat ≃. Nat} {deg n lo : Nat} (hpt : IsImagesBelow φ deg lo pt)
    (hn : lo + n ≤ deg) (hrd : ∀ i, lo ≤ i → i < lo + n → rd i = .ok (entryOf (φ i)))
    (hlt : ∀ i v, φ i = some v → v + 1 < 2 ^ T.bits)
    : ∃ pt', forLoop (fun i pt => do writeEntry T pt i (← rd i)) n lo pt = .ok pt'
        ∧ IsImagesBelow φ deg (lo + n) pt' := by
  apply forLoop_of_inv (fun i pt => IsImagesBelow φ deg i pt) hpt
  . intro i pt hlo hi h
    have hlen := h.length_eq
    rw [hrd i hlo hi, ok_bind, writeEntry_images (by omega) (entryOf_lt hlt (Nat.two_pow_pos _) i)]
    refine ⟨_, rfl, by rw [length_set]; exact hlen, fun k hk hkd => ?_⟩
    rcases Nat.lt_succ_iff_lt_or_eq.mp hk with hlt | rfl
    . rw [getElem?_set_ne (by omega)]
      exact h.get k hlt hkd
    . rw [getElem?_set_self (by omega)]
  . exact fun s hs => hs

end Writes

section JoinIdem

variable {o : ByteOrder} {f g : PPermBag} {φ γ : Nat ≃. Nat}

theorem readAs_same {U : PermTnum} (hg : IsPPermBag g γ) (htnum : g.tnum = U.ppermTnum) {i : Nat}
    (hi : i < g.entries.length) : readAs o U g i = .ok (entryOf (γ i)) := by
  unfold readAs
  rw [if_pos htnum, readEntry_images hg.images hi]

def pairEntry (o : ByteOrder) (a b : Nat) : Nat :=
  match o with
  | .little => a + 65536 * b
  | .big => 65536 * a + b

theorem ofBytes_pair (o : ByteOrder) {a b : Nat} (ha : a < 65536) (hb : b < 65536)
    : Bytes.ofBytes o (Bytes.toBytes o 2 a ++ Bytes.toBytes o 2 b) = pairEntry o a b := by
  cases o with
  | little =>
    simp only [Bytes.ofBytes, Bytes.toBytes, Bytes.littleEndian, Bytes.ofLittleEndian, pairEntry,
      cons_append, nil_append]
    omega
  | big =>
    simp only [Bytes.ofBytes, Bytes.toBytes, Bytes.littleEndian, Bytes.ofLittleEndian, pairEntry,
      reverse_append, reverse_reverse, cons_append, nil_append]
    omega

theorem readAs_narrow (hg : IsPPermBag g γ) (htnum : g.tnum = .pperm2) (i : Nat)
    : readAs o .perm4 g i
      = if 2 * i + 3 ≤ g.entries.length then
          .ok (pairEntry o (entryOf (γ (2 * i + 1))) (entryOf (γ (2 * i + 2))))
        else
          .error .access := by
  have hne : g.tnum ≠ PermTnum.perm4.ppermTnum := by
    rw [htnum]
    decide
  have hlt : ∀ k, entryOf (γ k) < 65536 := fun k =>
    entryOf_lt (fun j v hv => by
      have := (hg.image_lt hv).2.2
      rw [htnum] at this
      exact this) (by decide) k
  have hget : ∀ k, k < g.entries.length → g.entries[k]? = some (entryOf (γ k)) := fun k hk =>
    hg.images.getElem?_eq hk
  unfold readAs
  rw [if_neg hne, htnum]
  unfold Bytes.readMem
  change (if 4 * (i + 1) + 4 ≤ (Bytes.ofEntries o 2 (g.codeg :: g.entries)).length then _
    else _) = _
  rw [Bytes.length_ofEntries, length_cons]
  split
  . next hle =>
    rw [if_pos (by omega)]
    change Except.ok (Bytes.ofBytes o
      (((Bytes.ofEntries o 2 (g.codeg :: g.entries)).drop (4 * (i + 1))).take 4)) = _
    have hdrop : g.entries.drop (2 * i + 1)
        = entryOf (γ (2 * i + 1)) :: entryOf (γ (2 * i + 2)) :: g.entries.drop (2 * i + 3) := by
      rw [drop_eq_getElem_cons (by omega), drop_eq_getElem_cons (by omega)]
      congr 1
      . have := hget (2 * i + 1) (by omega)
        rwa [getElem?_eq_getElem (by omega), Option.some.injEq] at this
      . congr 1
        have := hget (2 * i + 2) (by omega)
        rwa [getElem?_eq_getElem (by omega), Option.some.injEq] at this
    rw [show 4 * (i + 1) = 2 * (2 * i + 2) by omega, Bytes.drop_ofEntries,
      show 2 * i + 2 = 2 * i + 1 + 1 from rfl, drop_succ_cons, hdrop, Bytes.ofEntries_cons,
      Bytes.ofEntries_cons, ← append_assoc, take_left' (by simp),
      ofBytes_pair o (hlt _) (hlt _)]
  . next hle =>
    rw [if_neg (by omega)]
    rfl

theorem readAs_narrow_iff (hg : IsPPermBag g γ) (hidem : γ.trans γ = γ) (htnum : g.tnum = .pperm2)
    (i : Nat)
    : (∃ v, readAs o .perm4 g i = .ok v ∧ PermTnum.perm4.cast v = entryOf (γ i))
      ↔ γ i = none ∧ 2 * i + 3 ≤ g.entries.length ∧ γ (2 * i + 1) = none
        ∧ γ (2 * i + 2) = none := by
  have hcases : ∀ k, γ k = none ∨ entryOf (γ k) = k + 1 := by
    intro k
    cases hk : γ k with
    | none => exact .inl rfl
    | some v => exact .inr (by rw [eq_of_idem hidem hk, entryOf_some])
  have hbits : g.entries.length < 65536 := by
    have h1 := hg.codegree.unique (hg.degree.symm_of_idem hidem)
    have h2 := hg.codeg_lt
    rw [htnum, h1] at h2
    exact h2
  rw [readAs_narrow hg htnum]
  constructor
  . intro ⟨v, hrun, hv⟩
    split at hrun
    . next hle =>
      cases hrun
      have hcast : PermTnum.perm4.cast
          (pairEntry o (entryOf (γ (2 * i + 1))) (entryOf (γ (2 * i + 2))))
          = pairEntry o (entryOf (γ (2 * i + 1))) (entryOf (γ (2 * i + 2))) := by
        apply Nat.mod_eq_of_lt
        change _ < 4294967296
        unfold pairEntry
        rcases hcases (2 * i + 1) with h1 | h1 <;> rcases hcases (2 * i + 2) with h2 | h2 <;>
          cases o <;> simp only [h1, h2, entryOf_none] <;> omega
      rw [hcast] at hv
      -- A point above `i` is not the image of `i`.
      have hzero : entryOf (γ i) ≤ i + 1 := by
        rcases hcases i with h0 | h0
        . rw [h0]
          exact Nat.zero_le _
        . exact Nat.le_of_eq h0
      unfold pairEntry at hv
      have hnone : γ (2 * i + 1) = none ∧ γ (2 * i + 2) = none := by
        rcases hcases (2 * i + 1) with h1 | h1
        . rcases hcases (2 * i + 2) with h2 | h2
          . exact ⟨h1, h2⟩
          . cases o <;> simp only [h1, h2, entryOf_none] at hv <;> omega
        . cases o <;> simp only [h1] at hv <;> omega
      refine ⟨?_, hle, hnone⟩
      rw [hnone.1, hnone.2] at hv
      rcases hcases i with h0 | h0
      . exact h0
      . rw [h0] at hv
        cases o <;> contradiction
    . contradiction
  . intro ⟨h0, hle, h1, h2⟩
    rw [if_pos hle, h0, h1, h2]
    refine ⟨_, rfl, ?_⟩
    cases o with
    | little => rfl
    | big => rfl

theorem joinIdemPPerms_iff {U : PermTnum} (hf : IsPPermBag f φ) (hg : IsPPermBag g γ)
    (hφ : φ.trans φ = φ) (hγ : γ.trans γ = γ) (hle : f.entries.length ≤ g.entries.length)
    (hbits : g.tnum.dataType.bits ≤ (PermTnum.resultType f.tnum.dataType U).bits)
    (hread : ∀ i v, i < g.entries.length → readAs o U g i = .ok v
      → (PermTnum.resultType f.tnum.dataType U).cast v = entryOf (γ i) → v = entryOf (γ i))
    : (∃ h, joinIdemPPerms o f.tnum.dataType U f g = .ok h ∧ IsPPermBag h (idemJoin φ γ))
      ↔ ∀ i, i < g.entries.length → φ i = none → ∃ v, readAs o U g i = .ok v
        ∧ (PermTnum.resultType f.tnum.dataType U).cast v = entryOf (γ i) := by
  let T := PermTnum.resultType f.tnum.dataType U
  have hdeg := isDegree_idemJoin hf.degree hg.degree hle
  have hlen : g.entries.length < 2 ^ T.bits := by
    have h1 := hg.codegree.unique (hg.degree.symm_of_idem hγ)
    have h2 := hg.codeg_lt
    have h3 := Nat.pow_le_pow_right Nat.two_pos hbits
    change _ < 2 ^ (PermTnum.resultType f.tnum.dataType U).bits
    omega
  unfold joinIdemPPerms
  dsimp only
  rw [constAddrPPerm_eq, ok_bind]
  constructor
  . intro ⟨h, hrun, hbag⟩ i hi hnone
    obtain ⟨pt1, hloop1, hrun⟩ := of_bind_eq_ok hrun
    obtain ⟨pt2, hloop2, hrun⟩ := of_bind_eq_ok hrun
    cases hrun
    have hentry : pt2[i]? = some (entryOf (γ i)) := by
      have hlen2 : i < pt2.length := by
        have heq := hbag.degree.unique hdeg
        change pt2.length = _ at heq
        omega
      have := hbag.images.getElem?_eq hlen2
      rwa [idemJoin_of_none hγ hnone] at this
    by_cases hdef : i < f.entries.length
    . obtain ⟨v, hv, hget⟩ := (writeLoop_eq_ok hloop1 i).1 (Nat.zero_le i) (by omega)
      rw [(writeLoop_eq_ok hloop2 i).2 hdef, hget] at hentry
      unfold joinEntry at hv
      rw [readEntry_images hf.images hdef, ok_bind, hnone, entryOf_none,
        if_neg (fun h => h rfl)] at hv
      exact ⟨v, hv, Option.some.inj hentry⟩
    . obtain ⟨v, hv, hget⟩ := (writeLoop_eq_ok hloop2 i).1 (by omega) (by omega)
      rw [hget] at hentry
      exact ⟨v, hv, Option.some.inj hentry⟩
  . intro h
    have hval : ∀ i, i < g.entries.length → φ i = none
        → readAs o U g i = .ok (entryOf (idemJoin φ γ i)) := by
      intro i hi hnone
      obtain ⟨v, hv, hcast⟩ := h i hi hnone
      rw [hv, hread i v hi hv hcast, idemJoin_of_none hγ hnone]
    have hlt : ∀ i v, idemJoin φ γ i = some v → v + 1 < 2 ^ T.bits := by
      intro i v hv
      have := hdeg.lt i v hv
      have := (idemJoin_eq_some_iff.mp hv).1
      omega
    obtain ⟨pt1, hloop1, hpt1⟩ := @writeLoop_spec T (joinEntry o U f.entries g)
      (List.replicate g.entries.length 0) (idemJoin φ γ) g.entries.length f.entries.length 0
      ⟨length_replicate, fun k hk => by omega⟩ (by omega) (by
        intro i _ hi
        unfold joinEntry
        rw [readEntry_images hf.images (by omega), ok_bind]
        cases hv : φ i with
        | none =>
          rw [entryOf_none, if_neg (fun h => h rfl)]
          exact hval i (by omega) hv
        | some v =>
          rw [entryOf_some, if_pos (Nat.succ_ne_zero v), idemJoin_of_some hφ hv, hv]
          rfl) hlt
    obtain ⟨pt2, hloop2, hpt2⟩ := @writeLoop_spec T (fun i => readAs o U g i) _ (idemJoin φ γ)
      g.entries.length (g.entries.length - f.entries.length) _ hpt1 (by omega) (by
        intro i hlo hi
        exact hval i (by omega) (hf.images.eq_none (by omega))) hlt
    rw [Nat.zero_add] at hloop2 hpt2
    refine ⟨newPPerm T pt2 g.entries.length, ?_, ?_⟩
    . rw [hloop1, ok_bind, hloop2]
      rfl
    . apply isPPermBag_newPPerm _ _ _ hlen
      . intro i
        rw [getD_eq_getElem?_getD]
        by_cases hi : i < g.entries.length
        . rw [hpt2.get i (by omega) hi]
          rfl
        . rw [getElem?_eq_none (by rw [hpt2.length_eq]; omega), hdeg.eq_none (by omega)]
          rfl
      . rw [hpt2.length_eq]
        exact hdeg
      . rw [idemJoin_symm]
        exact hdeg

end JoinIdem

/--
A bag with 16 bits is read with 32 bits if the bag of smaller degree has 32 bits. All entries that
are used have to be 0 then.
-/
def HasRightEntries (f g : PPermBag) (φ γ : Nat ≃. Nat) : Prop :=
  f.tnum = .pperm4 → g.tnum = .pperm2 → ∀ i, i < g.entries.length → φ i = none → γ i = none
    ∧ 2 * i + 3 ≤ g.entries.length ∧ γ (2 * i + 1) = none ∧ γ (2 * i + 2) = none

/-- The bags are the same partial permutation, or the entries of the one of larger degree are used. -/
def HasRightIdemJoin (f g : PPermBag) (φ γ : Nat ≃. Nat) : Prop :=
  φ = γ ∨ if f.entries.length > g.entries.length then HasRightEntries g f γ φ
    else HasRightEntries f g φ γ

section Spec

variable {o : ByteOrder} {w : IntSize} {f g : PPermBag} {φ γ : Nat ≃. Nat} {p : PermBag}
  {σ : Equiv.Perm Nat} {set : List Nat}

section

variable (hf : IsPPermBag f φ) (hg : IsPPermBag g γ) (hφ : φ.trans φ = φ) (hγ : γ.trans γ = γ)

include hf hg hφ hγ

section

variable (hle : f.entries.length ≤ g.entries.length)

include hle

theorem joinIdemPPerms_of_same
    : ∃ h, joinIdemPPerms o f.tnum.dataType g.tnum.dataType f g = .ok h
        ∧ IsPPermBag h (idemJoin φ γ) := by
  have hsame : ∀ i, i < g.entries.length
      → readAs o g.tnum.dataType g i = .ok (entryOf (γ i)) := fun i hi =>
    readAs_same hg g.tnum.ppermTnum_dataType.symm hi
  have hbits := PermTnum.bits_right f.tnum.dataType g.tnum.dataType
  apply (joinIdemPPerms_iff hf hg hφ hγ hle hbits ?_).mpr
  . intro i hi _
    refine ⟨_, hsame i hi, Nat.mod_eq_of_lt ?_⟩
    refine Nat.lt_of_lt_of_le ?_ (Nat.pow_le_pow_right Nat.two_pos hbits)
    exact entryOf_lt (fun j v hv => (hg.image_lt hv).2.2) (Nat.two_pow_pos _) i
  . intro i v hi hv _
    rw [hsame i hi] at hv
    exact (Except.ok.inj hv).symm

theorem joinIdemPPerms_narrow_iff (htf : f.tnum = .pperm4) (htg : g.tnum = .pperm2)
    : (∃ h, joinIdemPPerms o .perm4 .perm4 f g = .ok h ∧ IsPPermBag h (idemJoin φ γ))
      ↔ HasRightEntries f g φ γ := by
  have hT : f.tnum.dataType = .perm4 := congrArg PPermTnum.dataType htf
  have hiff := joinIdemPPerms_iff (o := o) (U := .perm4) hf hg hφ hγ hle (by
    rw [htg, htf]
    decide) (by
    intro i v _ hv hcast
    obtain ⟨hnone, hlen, h1, h2⟩ :=
      (readAs_narrow_iff hg hγ htg i).mp ⟨v, hv, by rw [hT] at hcast; exact hcast⟩
    rw [readAs_narrow hg htg, if_pos hlen, h1, h2] at hv
    rw [hnone, ← Except.ok.inj hv]
    cases o with
    | little => rfl
    | big => rfl)
  rw [hT] at hiff
  rw [hiff]
  unfold HasRightEntries
  rw [imp_iff_right htf, imp_iff_right htg]
  exact forall_congr' fun i => forall_congr' fun _ => forall_congr' fun _ =>
    readAs_narrow_iff hg hγ htg i

theorem joinIdem_ordered_iff
    : (∃ h, (match f.tnum, g.tnum with
        | .pperm2, .pperm2 => joinIdemPPerms o .perm2 .perm2 f g
        | .pperm2, .pperm4 => joinIdemPPerms o .perm2 .perm4 f g
        | _, _ => joinIdemPPerms o .perm4 .perm4 f g) = .ok h ∧ IsPPermBag h (idemJoin φ γ))
      ↔ HasRightEntries f g φ γ := by
  have hsame := joinIdemPPerms_of_same (o := o) hf hg hφ hγ hle
  cases htf : f.tnum with
  | pperm2 =>
    have hright : HasRightEntries f g φ γ := fun h => by
      rw [htf] at h
      contradiction
    cases htg : g.tnum with
    | pperm2 =>
      rw [htf, htg] at hsame
      exact iff_of_true hsame hright
    | pperm4 =>
      rw [htf, htg] at hsame
      exact iff_of_true hsame hright
  | pperm4 =>
    cases htg : g.tnum with
    | pperm2 => exact joinIdemPPerms_narrow_iff hf hg hφ hγ hle htf htg
    | pperm4 =>
      rw [htf, htg] at hsame
      refine iff_of_true hsame fun _ h => ?_
      rw [htg] at h
      contradiction

end

theorem funcJoinIdemPPerms_iff
    : (∃ h, funcJoinIdemPPerms o f g = .ok h ∧ IsPPermBag h (idemJoin φ γ))
      ↔ HasRightIdemJoin f g φ γ := by
  obtain ⟨b, hrun, hb⟩ := eqPPerm_spec hf hg
  unfold funcJoinIdemPPerms PPermOps.eq HasRightIdemJoin
  rw [hrun, ok_bind]
  cases b with
  | true =>
    obtain rfl : φ = γ := hb.mp rfl
    refine iff_of_true ⟨f, rfl, ?_⟩ (.inl rfl)
    rw [idemJoin_self hφ]
    exact hf
  | false =>
    rw [or_iff_right fun h => Bool.false_ne_true (hb.mpr h)]
    split
    . contradiction
    . by_cases hlt : f.entries.length > g.entries.length
      . rw [if_pos hlt, if_pos hlt, idemJoin_comm]
        exact joinIdem_ordered_iff hg hf hγ hφ (Nat.le_of_lt hlt)
      . rw [if_neg hlt, if_neg hlt]
        exact joinIdem_ordered_iff hf hg hφ hγ (Nat.not_lt.mp hlt)

end

structure RightRestrictions (o : ByteOrder) (f g : PPermBag) (φ γ : Nat ≃. Nat) (p : PermBag)
    (σ : Equiv.Perm Nat) (set : List Nat) : Prop where
  asPPerm : IsRestriction σ set (funcAsPPermPerm p set)
  meet : ∃ h, funcMeetPPerms f g = .ok h ∧ IsPPermBag h (φ ⊓ γ)
  join : ∃ res, funcJoinPPerms f g = .ok res ∧ IsJoin φ γ res
  joinIdem : φ.trans φ = φ → γ.trans γ = γ
    → ∃ h, funcJoinIdemPPerms o f g = .ok h ∧ IsPPermBag h (idemJoin φ γ)
  restricted : ∃ h, funcRestrictedPPerm f set = .ok h ∧ IsPPermBag h (restrict φ set)
  asPerm : ∃ f' res, funcAsPermPPerm f = .ok (f', res) ∧ IsPPermBag f' φ
    ∧ IsPermOf φ f.tnum.dataType res

theorem rightRestrictions_iff (o : ByteOrder) (hf : IsPPermBag f φ) (hslots : IsSlots f φ)
    (hg : IsPPermBag g γ) (hp : IsPermBag w p σ) (hset : IsPosSet set)
    : RightRestrictions o f g φ γ p σ set
      ↔ HasRightPoints p σ set
        ∧ (φ.trans φ = φ → γ.trans γ = γ → HasRightIdemJoin f g φ γ) := by
  constructor
  . intro h
    exact ⟨(funcAsPPermPerm_iff hp hset).mp h.asPPerm, fun hφ hγ =>
      (funcJoinIdemPPerms_iff hf hg hφ hγ).mp (h.joinIdem hφ hγ)⟩
  . intro ⟨hpoints, hidem⟩
    constructor
    . exact (funcAsPPermPerm_iff hp hset).mpr hpoints
    . exact funcMeetPPerms_spec hf hg
    . exact funcJoinPPerms_spec hf hg
    . exact fun hφ hγ => (funcJoinIdemPPerms_iff hf hg hφ hγ).mpr (hidem hφ hγ)
    . exact funcRestrictedPPerm_spec hf hset
    . exact funcAsPermPPerm_spec hf hslots

end Spec

theorem isSlots_newPPerm (T : PermTnum) (pt : List Nat) (codeg : Nat) (φ : Nat ≃. Nat)
    : IsSlots (newPPerm T pt codeg) φ where
  sorted _ h := nomatch h
  img _ h := nomatch h

def exampleId1 : PPermBag :=
  newPPerm .perm2 [1] 1

def exampleId2 : PPermBag :=
  newPPerm .perm2 [0, 2] 2

def examplePerm4 : PermBag where
  tnum := .perm4
  entries := [1, 0]
  storedInv := none

theorem isPPermBag_exampleId1 : IsPPermBag exampleId1 (PEquiv.single 0 0) :=
  PPermOps.isPPermBag_single .perm2 0 0 (by decide)

theorem isPPermBag_exampleId2 : IsPPermBag exampleId2 (PEquiv.single 1 1) :=
  PPermOps.isPPermBag_single .perm2 1 1 (by decide)

theorem isPosSet_singleton {x : Nat} (hx : 0 < x) : IsPosSet [x] where
  sorted := pairwise_singleton _ _
  pos y hy := by
    rw [mem_singleton] at hy
    rwa [hy]

theorem rightRestrictions_example
    : RightRestrictions .little exampleId1 exampleId2 (PEquiv.single 0 0) (PEquiv.single 1 1)
        PPermOps.examplePerm2 (Equiv.swap 0 1) [2] := by
  apply (rightRestrictions_iff .little isPPermBag_exampleId1 (isSlots_newPPerm _ _ _ _)
    isPPermBag_exampleId2 PPermOps.isPermBag_examplePerm2 (isPosSet_singleton (by decide))).mpr
  refine ⟨⟨by decide, fun _ => iff_of_false ?_ (by decide)⟩, fun _ _ => .inr fun h => ?_⟩
  . intro ⟨j, hj, heq⟩
    rw [List.mem_singleton] at hj
    obtain rfl : j = 1 := by omega
    exact absurd heq (by decide)
  . contradiction

/-- The transposition has no second point in the set, where the codegree is looked for. -/
theorem not_rightRestrictions_perm4
    : IsPermBag .int8 examplePerm4 (Equiv.swap 0 1) ∧ IsPosSet [2]
      ∧ funcAsPPermPerm examplePerm4 [2]
        = .error (.quit "List Element: <list>[%d] must have an assigned value" 2 0)
      ∧ ¬RightRestrictions .little exampleId1 exampleId2 (PEquiv.single 0 0) (PEquiv.single 1 1)
        examplePerm4 (Equiv.swap 0 1) [2] := by
  refine ⟨⟨PPermOps.isPermBag_examplePerm2.acts, by decide⟩, isPosSet_singleton (by decide), rfl,
    fun h => ?_⟩
  obtain ⟨bag, hrun, _⟩ := h.asPPerm
  contradiction
