import GapKernel.Permutat.Lemmas.Scan
import GapKernel.Permutat.Lemmas.Compare

open PermList PermImpl List

variable {w : IntSize}

section Product

/--
No point is repeated inside of a cycle, and a point that one cycle moves does not occur in a later
one.
-/
def AreDisjointCycles (cycles : List (List Nat)) : Prop :=
  (∀ cs ∈ cycles, cs.Nodup) ∧ cycles.Pairwise (fun cs cs' => ∀ x ∈ cs', cs.formPerm x = x)

def followedBy (σ : Equiv.Perm Nat) (cycles : List (List Nat)) : Equiv.Perm Nat :=
  cycles.foldl (fun σ cs => σ.trans cs.formPerm) σ

def AreFresh (σ : Equiv.Perm Nat) (cycles : List (List Nat)) : Prop :=
  AreDisjointCycles cycles ∧ ∀ cs ∈ cycles, ∀ x ∈ cs, σ x = x

variable {σ : Equiv.Perm Nat} {cs : List Nat}

theorem trans_formPerm_eq_self_iff (hcs : ∀ x ∈ cs, σ x = x) (x : Nat)
    : (σ.trans cs.formPerm) x = x ↔ σ x = x ∧ cs.formPerm x = x := by
  rw [Equiv.trans_apply]
  constructor
  . intro heq
    have hσ : σ x = x := by
      by_cases hmem : σ x ∈ cs
      . apply σ.injective
        apply hcs _ hmem
      . rw [formPerm_apply_of_notMem hmem] at heq
        exact heq
    rw [hσ] at heq
    exact ⟨hσ, heq⟩
  . intro h
    rw [h.1, h.2]

theorem areFresh_cons_iff {cycles : List (List Nat)}
    : AreFresh σ (cs :: cycles)
        ↔ (cs.Nodup ∧ ∀ x ∈ cs, σ x = x) ∧ AreFresh (σ.trans cs.formPerm) cycles := by
  unfold AreFresh AreDisjointCycles
  rw [forall_mem_cons, forall_mem_cons, pairwise_cons]
  constructor
  . intro h
    refine ⟨⟨h.1.1.1, h.2.1⟩, ⟨h.1.1.2, h.1.2.2⟩, ?_⟩
    intro cs' hcs' x hx
    rw [trans_formPerm_eq_self_iff h.2.1]
    exact ⟨h.2.2 cs' hcs' x hx, h.1.2.1 cs' hcs' x hx⟩
  . intro h
    have hfixed : ∀ cs' ∈ cycles, ∀ x ∈ cs', σ x = x ∧ cs.formPerm x = x := by
      intro cs' hcs' x hx
      exact (trans_formPerm_eq_self_iff h.1.2 x).mp (h.2.2 cs' hcs' x hx)
    refine ⟨⟨⟨h.1.1, h.2.1.1⟩, ?_, h.2.1.2⟩, h.1.2, ?_⟩
    . intro cs' hcs' x hx
      exact (hfixed cs' hcs' x hx).2
    . intro cs' hcs' x hx
      exact (hfixed cs' hcs' x hx).1

end Product

section Scan

structure ReadsCycle (cycle : Nat × (Nat → Result Int)) (cs : List Nat) : Prop where
  length_eq : cycle.1 = cs.length
  read_eq : ∀ j x, cs[j]? = some x → cycle.2 (j + 1) = .ok (x + 1 : Nat)

structure IsBuilt (w : IntSize) (σ : Equiv.Perm Nat) (s : List Nat × Nat) : Prop where
  acts : Acts s.1 σ
  le_length : s.2 ≤ s.1.length
  le_maxDeg : s.2 ≤ PermTnum.maxDegPerm4 w
  fix : ∀ i, s.2 ≤ i → σ i = i

theorem scanPermCycles_spec {cycles : List (Nat × (Nat → Result Int))} {points : List (List Nat)}
    (hreads : Forall₂ ReadsCycle cycles points) (hne : ∀ cs ∈ points, cs ≠ [])
    (hmax : ∀ cs ∈ points, ∀ x ∈ cs, x < PermTnum.maxDegPerm4 w) {σ : Equiv.Perm Nat}
    {s : List Nat × Nat} (hs : IsBuilt w σ s)
    : ReturnsIf (scanPermCycles w s.1 s.2 cycles) (AreFresh σ points)
        (fun s' => IsBuilt w (followedBy σ points) s'
          ∧ ∀ n, s'.2 ≤ n ↔ s.2 ≤ n ∧ ∀ cs ∈ points, ∀ x ∈ cs, x < n)
        disjointFault := by
  induction hreads generalizing σ s with
  | nil =>
    unfold scanPermCycles
    constructor
    . intro _
      refine ⟨s, rfl, hs, ?_⟩
      intro n
      simp
    . intro hc
      exfalso
      apply hc
      unfold AreFresh AreDisjointCycles
      simp
  | @cons cycle cs cycles points hread hreads ih =>
    rw [forall_mem_cons] at hne hmax
    have hcycle := scanPermCycle_spec hs.acts hs.le_length hs.le_maxDeg hs.fix hne.1 hread.read_eq
      hmax.1
    rw [← hread.length_eq] at hcycle
    unfold scanPermCycles
    dsimp only
    apply (hcycle.bind (q := AreFresh (σ.trans cs.formPerm) points) ?_).congr
    . exact areFresh_cons_iff
    . intro s' hs'
      exact hs'
    . intro s₁ hcs hs₁
      have hbuilt : IsBuilt w (σ.trans cs.formPerm) s₁ := by
        refine ⟨hs₁.1, hs₁.2.1, hs₁.2.2.1, ?_⟩
        intro i hi
        have hle := (hs₁.2.2.2 i).mp hi
        rw [trans_formPerm_eq_self_iff hcs.2]
        refine ⟨hs.fix i hle.1, formPerm_apply_of_notMem ?_⟩
        intro hmem
        exact Nat.lt_irrefl i (hle.2 i hmem)
      apply (ih hne.2 hmax.2 hbuilt).congr Iff.rfl
      intro s' hs'
      refine ⟨hs'.1, ?_⟩
      intro n
      rw [hs'.2, hs₁.2.2.2, forall_mem_cons, and_assoc]

end Scan

section Trim

variable {pt : List Nat}

theorem halves_getElem?_low (pt : List Nat) (k : Nat)
    : (halves pt)[2 * k]? = (pt[k]?).map (fun v => v % 2 ^ 16) := by
  induction pt generalizing k with
  | nil => rfl
  | cons v pt ih =>
    cases k with
    | zero => rfl
    | succ k => apply ih k

theorem halves_getElem?_high (pt : List Nat) (k : Nat)
    : (halves pt)[2 * k + 1]? = (pt[k]?).map (fun v => v / 2 ^ 16) := by
  induction pt generalizing k with
  | nil => rfl
  | cons v pt ih =>
    cases k with
    | zero => rfl
    | succ k => apply ih k

theorem length_halves (pt : List Nat) : (halves pt).length = 2 * pt.length := by
  induction pt with
  | nil => rfl
  | cons v pt ih =>
    unfold halves at ih ⊢
    rw [flatMap_cons, length_append, ih, length_cons]
    simp only [length_cons, length_nil]
    omega

structure IsNarrowing (pt : List Nat) (k : Nat) (ptr2 : List Nat) : Prop where
  length_eq : ptr2.length = 2 * pt.length
  copied : ∀ i, i < k → ptr2[i]? = pt[i]?
  kept : ∀ i, k ≤ i → ptr2[i]? = (halves pt)[i]?

theorem narrowEntry_spec {k : Nat} {ptr2 : List Nat} (h : IsNarrowing pt k ptr2)
    (hk : k < pt.length) (hentry : ∀ v, pt[k]? = some v → v < 2 ^ 16)
    : ∃ ptr2', narrowEntry k ptr2 = .ok ptr2' ∧ IsNarrowing pt (k + 1) ptr2' := by
  have hlen := h.length_eq
  have hv := getElem?_eq_getElem hk
  have hlow : readEntry ptr2 (2 * k) = .ok (pt[k] % 2 ^ 16) := by
    unfold readEntry
    rw [h.kept _ (by omega), halves_getElem?_low, hv]
    rfl
  have hhigh : readEntry ptr2 (2 * k + 1) = .ok (pt[k] / 2 ^ 16) := by
    unfold readEntry
    rw [h.kept _ (by omega), halves_getElem?_high, hv]
    rfl
  unfold narrowEntry
  rw [hlow, ok_bind, hhigh, ok_bind, Nat.mod_add_div]
  refine ⟨ptr2.set k pt[k], ?_, ?_⟩
  . unfold writeEntry PermTnum.cast
    rw [if_pos (by omega)]
    rw [show pt[k] % 2 ^ PermTnum.perm2.bits = pt[k] from Nat.mod_eq_of_lt (hentry _ hv)]
    rfl
  . constructor
    . rw [length_set, hlen]
    . intro i hi
      by_cases hik : i = k
      . rw [hik, getElem?_set_self (by omega), hv]
      . rw [getElem?_set_ne (fun heq => hik heq.symm)]
        apply h.copied
        omega
    . intro i hi
      rw [getElem?_set_ne (by omega)]
      apply h.kept
      omega

variable {m : Nat}

theorem resizePerm_of_le (hm : m ≤ pt.length) : resizePerm pt m = pt.take m := by
  unfold resizePerm
  rw [show m - pt.length = 0 by omega, replicate_zero, append_nil]

def typeFor (m : Nat) : PermTnum :=
  if m ≤ 65536 then .perm2 else .perm4

theorem trimBag_spec (hm : m ≤ pt.length) (hentries : ∀ i v, i < m → pt[i]? = some v → v < m)
    : trimBag { tnum := .perm4, entries := pt, storedInv := none } m
        = .ok { tnum := typeFor m, entries := pt.take m, storedInv := none } := by
  unfold trimBag typeFor
  rw [if_neg (fun heq => by cases heq)]
  split
  . next hle =>
    have hnarrow : ∃ ptr2, forLoop narrowEntry m 0 (halves pt) = .ok ptr2
        ∧ IsNarrowing pt (0 + m) ptr2 := by
      apply forLoop_spec (IsNarrowing pt)
      . intro k ptr2 _ hk h
        apply narrowEntry_spec h (by omega)
        intro v hv
        have := hentries k v (by omega) hv
        omega
      . constructor
        . apply length_halves
        . omega
        . intro i _
          rfl
    rcases hnarrow with ⟨ptr2, h⟩
    rw [h.1, ok_bind]
    have hlen := h.2.length_eq
    have htake : ptr2.take m = pt.take m := by
      apply ext_getElem?
      intro i
      rw [getElem?_take, getElem?_take]
      split
      . apply h.2.copied
        omega
      . rfl
    rw [resizePerm_of_le (by omega), htake]
    rfl
  . rw [resizePerm_of_le hm]
    rfl

theorem trimPerm_newPerm (h : PermHeap) (hm : m ≤ pt.length)
    (hentries : ∀ i v, i < m → pt[i]? = some v → v < m)
    : trimPerm (h.newPerm .perm4 pt).1 (h.newPerm .perm4 pt).2 m
        = .ok (h.newPerm (typeFor m) (pt.take m)).1 := by
  have hbag : (h.newPerm .perm4 pt).1.bags[(h.newPerm .perm4 pt).2]?
      = some { tnum := .perm4, entries := pt, storedInv := none } := by
    simp [PermHeap.newPerm]
  unfold trimPerm clearStoredInvPerm
  rw [bag_eq hbag, ok_bind]
  dsimp only
  rw [pure_bind, bag_eq hbag, ok_bind, trimBag_spec hm hentries, ok_bind]
  unfold PermHeap.newPerm
  simp
  rfl

end Trim

section Build

variable {h : PermHeap} {ρ : Nat → Equiv.Perm Nat}

def ReturnsPerm (w : IntSize) (h : PermHeap) (ρ : Nat → Equiv.Perm Nat) (T : PermTnum)
    (σ : Equiv.Perm Nat) (s : PermHeap × Nat) : Prop :=
  ∃ ρ' bag, IsPermHeap w s.1 ρ' ∧ Extends h ρ s.1 ρ' ∧ s.1.bags[s.2]? = some bag ∧ bag.tnum = T
    ∧ IsPermBag w bag σ

theorem returnsPerm_newPerm (hheap : IsPermHeap w h ρ) {σ : Equiv.Perm Nat}
    {s : List Nat × Nat} (hs : IsBuilt w σ s)
    : ∃ h', trimPerm (h.newPerm .perm4 s.1).1 (h.newPerm .perm4 s.1).2 s.2 = .ok h'
        ∧ ReturnsPerm w h ρ (typeFor s.2) σ (h', (h.newPerm .perm4 s.1).2) := by
  have hle := hs.le_length
  have hmax := hs.le_maxDeg
  have hentries : ∀ i v, i < s.2 → s.1[i]? = some v → v < s.2 := by
    intro i v hi hv
    rw [hs.acts.getElem?_eq (by omega)] at hv
    cases hv
    apply apply_lt hs.fix hi
  have hacts : Acts (s.1.take s.2) σ := by
    intro i
    by_cases hi : i < s.2
    . apply image_eq_of_getElem?
      rw [getElem?_take_of_lt hi]
      apply hs.acts.getElem?_eq
      omega
    . rw [image_of_le (by rw [length_take]; omega), hs.fix i (by omega)]
  have hdeg : (s.1.take s.2).length ≤ (typeFor s.2).maxDeg w := by
    rw [length_take]
    unfold typeFor
    split
    . simp only [PermTnum.maxDeg]
      omega
    . simp only [PermTnum.maxDeg]
      omega
  obtain ⟨ρ', hheap', hext, hbag, _⟩ := newPerm_spec hheap (typeFor s.2) hacts hdeg
  exact ⟨_, trimPerm_newPerm h hle hentries, ρ', _, hheap', hext, hbag, rfl, hacts, hdeg⟩

def BuildsProduct (w : IntSize) (h : PermHeap) (ρ : Nat → Equiv.Perm Nat)
    (cycles : List (List Nat)) (res : Result (PermHeap × Nat)) : Prop :=
  (¬AreDisjointCycles cycles → res = .error disjointFault)
    ∧ (AreDisjointCycles cycles → ∃ h' r ρ' bag, res = .ok (h', r) ∧ IsPermHeap w h' ρ'
      ∧ Extends h ρ h' ρ' ∧ h'.bags[r]? = some bag ∧ IsPermBag w bag (followedBy 1 cycles)
      ∧ (bag.tnum = .perm2 ↔ ∀ cs ∈ cycles, ∀ x ∈ cs, x + 1 ≤ 65536))

theorem permOfCycles_spec (hheap : IsPermHeap w h ρ)
    (hidentity : ∃ bag, h.bags[h.identityPerm]? = some bag ∧ bag.tnum = .perm2)
    {cycles : List (Nat × (Nat → Result Int))} {points : List (List Nat)}
    (hreads : Forall₂ ReadsCycle cycles points) (hne : ∀ cs ∈ points, cs ≠ [])
    (hmax : ∀ cs ∈ points, ∀ x ∈ cs, x < PermTnum.maxDegPerm4 w)
    : BuildsProduct w h ρ points (permOfCycles w h cycles) := by
  unfold permOfCycles
  split
  . next hzero =>
    have hnil : points = [] := by
      rw [hreads.length_eq] at hzero
      apply eq_nil_of_length_eq_zero hzero
    rw [hnil]
    constructor
    . intro hc
      exfalso
      apply hc
      unfold AreDisjointCycles
      simp
    . intro _
      obtain ⟨h', r, ρ', bag, heq, hheap', hext, hbag, hperm⟩ := Computes.identityPerm hheap
      cases heq
      refine ⟨_, _, ρ', bag, rfl, hheap', hext, hbag, hperm, ?_⟩
      obtain ⟨bag', hbag', htnum⟩ := hidentity
      rw [hbag] at hbag'
      cases hbag'
      simp [htnum]
  . have hstart : IsBuilt w 1 ([], 0) := ⟨acts_nil, Nat.le_refl 0, Nat.zero_le _, fun _ _ => rfl⟩
    have hscan := scanPermCycles_spec hreads hne hmax hstart
    have hfresh : AreFresh 1 points ↔ AreDisjointCycles points := by
      unfold AreFresh
      simp
    rw [hfresh] at hscan
    constructor
    . intro hc
      rw [hscan.2 hc]
      rfl
    . intro hc
      rcases hscan.1 hc with ⟨s, hs⟩
      rw [hs.1, ok_bind]
      dsimp only
      obtain ⟨h', heq, ρ', bag, hheap', hext, hbag, htnum, hperm⟩ :=
        returnsPerm_newPerm hheap hs.2.1
      rw [heq, ok_bind]
      refine ⟨_, _, ρ', bag, rfl, hheap', hext, hbag, hperm, ?_⟩
      have hle := hs.2.2 65536
      rw [htnum]
      unfold typeFor
      split
      . next htype =>
        have := (hle.mp htype).2
        simp only [true_iff]
        exact this
      . next htype =>
        simp only [reduceCtorEq, false_iff]
        intro hall
        exact htype (hle.mpr ⟨Nat.zero_le _, hall⟩)

end Build

namespace PermOps

variable {h : PermHeap} {ρ : Nat → Equiv.Perm Nat}

def literals (cycle : List Int) : List (Result Int) :=
  cycle.map pure

def points (array : List (List Int)) : List (List Nat) :=
  array.map (fun cycle => cycle.map (fun c => c.toNat - 1))

theorem readsCycle_elmList {cycle : List Int} (hpos : ∀ c ∈ cycle, 0 < c)
    : ReadsCycle (cycle.length, elmList cycle) (cycle.map (fun c => c.toNat - 1)) := by
  constructor
  . rw [length_map]
  . intro j x hx
    rw [getElem?_map, Option.map_eq_some_iff] at hx
    rcases hx with ⟨c, hc⟩
    have := hpos c (mem_of_getElem? hc.1)
    dsimp only
    unfold elmList
    rw [Nat.add_sub_cancel, hc.1, show ((x + 1 : Nat) : Int) = c by omega]
    rfl

theorem readsCycle_getFromExpr {cycle : List Int} (hpos : ∀ c ∈ cycle, 0 < c)
    : ReadsCycle ((literals cycle).length, getFromExpr (literals cycle))
        (cycle.map (fun c => c.toNat - 1)) := by
  have hread := readsCycle_elmList hpos
  unfold literals
  constructor
  . rw [length_map]
    exact hread.length_eq
  . intro j x hx
    have helm := hread.read_eq j x hx
    dsimp only at helm ⊢
    unfold elmList at helm
    unfold getFromExpr
    rw [getElem?_map]
    rw [← helm]
    cases cycle[j + 1 - 1]? with
    | none => rfl
    | some c => rfl

/--
Lists of cycles with points up to the largest degree: an error if they are not disjoint, and their
product otherwise.
-/
theorem array2Perm_evalPermExpr_spec (hheap : IsPermHeap w h ρ)
    (hidentity : ∃ bag, h.bags[h.identityPerm]? = some bag ∧ bag.tnum = .perm2)
    (array : List (List Int)) (hne : ∀ cycle ∈ array, cycle ≠ [])
    (hpos : ∀ cycle ∈ array, ∀ c ∈ cycle, 0 < c ∧ c ≤ PermTnum.maxDegPerm4 w)
    : BuildsProduct w h ρ (points array) (array2Perm w h array)
        ∧ BuildsProduct w h ρ (points array)
            (evalPermExpr w h (array.map literals)) := by
  have hne' : ∀ cs ∈ points array, cs ≠ [] := by
    intro cs hcs hnil
    unfold points at hcs
    rw [List.mem_map] at hcs
    rcases hcs with ⟨cycle, hcycle⟩
    rw [hnil, List.map_eq_nil_iff] at hcycle
    exact hne cycle hcycle.1 hcycle.2
  have hmax : ∀ cs ∈ points array, ∀ x ∈ cs, x < PermTnum.maxDegPerm4 w := by
    intro cs hcs x hx
    unfold points at hcs
    rw [List.mem_map] at hcs
    rcases hcs with ⟨cycle, hcycle⟩
    rw [← hcycle.2, List.mem_map] at hx
    rcases hx with ⟨c, hc⟩
    have := hpos cycle hcycle.1 c hc.1
    omega
  have hentry : ∀ cycle ∈ array, ∀ c ∈ cycle, 0 < c := fun cycle hcycle c hc =>
    (hpos cycle hcycle c hc).1
  constructor
  . apply permOfCycles_spec hheap hidentity _ hne' hmax
    unfold points
    rw [List.forall₂_map_left_iff, List.forall₂_map_right_iff, List.forall₂_same]
    intro cycle hcycle
    exact readsCycle_elmList (hentry cycle hcycle)
  . apply permOfCycles_spec hheap hidentity _ hne' hmax
    unfold points
    rw [List.map_map, List.forall₂_map_left_iff, List.forall₂_map_right_iff, List.forall₂_same]
    intro cycle hcycle
    exact readsCycle_getFromExpr (hentry cycle hcycle)

theorem array2Perm_evalPermExpr_spec_twoCycles
    : BuildsProduct .int8 exampleHeap exampleAction (points [[1, 3, 2], [5, 70000]])
          (array2Perm .int8 exampleHeap [[1, 3, 2], [5, 70000]])
        ∧ BuildsProduct .int8 exampleHeap exampleAction (points [[1, 3, 2], [5, 70000]])
            (evalPermExpr .int8 exampleHeap ([[1, 3, 2], [5, 70000]].map literals)) := by
  apply array2Perm_evalPermExpr_spec isPermHeap_exampleHeap
  . exact ⟨_, rfl, rfl⟩
  . decide
  . decide

end PermOps
