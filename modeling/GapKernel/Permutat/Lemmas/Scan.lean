import GapKernel.CycleChain
import GapKernel.Permutat.Lemmas.Product

open PermList PermImpl CycleChain List Function

variable {w : IntSize}

def ReturnsIf {α : Type} (res : Result α) (cond : Prop) (Q : α → Prop) (e : Fault) : Prop :=
  (cond → ∃ a, res = .ok a ∧ Q a) ∧ (¬cond → res = .error e)

theorem ReturnsIf.bind {α β : Type} {res : Result α} {f : α → Result β} {p q : Prop}
    {Q : α → Prop} {Q' : β → Prop} {e : Fault} (h : ReturnsIf res p Q e)
    (hf : ∀ a, p → Q a → ReturnsIf (f a) q Q' e)
    : ReturnsIf (res >>= f) (p ∧ q) Q' e := by
  constructor
  . intro hcond
    apply exists_bind_of (h.1 hcond.1)
    intro a ha
    exact (hf a hcond.1 ha).1 hcond.2
  . intro hcond
    by_cases hc : p
    . rcases h.1 hc with ⟨a, ha⟩
      rw [ha.1, ok_bind]
      apply (hf a hc ha.2).2
      intro hc'
      exact hcond ⟨hc, hc'⟩
    . rw [h.2 hc]
      rfl

theorem ReturnsIf.congr {α : Type} {res : Result α} {cond cond' : Prop} {Q Q' : α → Prop}
    {e : Fault} (h : ReturnsIf res cond Q e) (hcond : cond' ↔ cond) (hQ : ∀ a, Q a → Q' a)
    : ReturnsIf res cond' Q' e := by
  constructor
  . intro hc
    cases h.1 (hcond.mp hc) with
    | intro a ha => exact ⟨a, ha.1, hQ a ha.2⟩
  . intro hc
    apply h.2
    rw [← hcond]
    exact hc

section Entries

variable {pt : List Nat}

variable {i : Nat}

theorem image_eq_of_getElem? {v : Nat} (h : pt[i]? = some v) : image pt i = v := by
  unfold image
  rw [getD_eq_getElem?_getD, h]
  rfl

theorem readEntry_eq_image (hi : i < pt.length) : readEntry pt i = .ok (image pt i) := by
  unfold readEntry
  rw [getElem?_eq_getElem hi, image_of_lt hi]
  rfl

theorem writeEntry_spec {T : PermTnum} {v : Nat} (hi : i < pt.length) (hv : v < 2 ^ T.bits)
    : ∃ pt', writeEntry T pt i v = .ok pt' ∧ pt'.length = pt.length
        ∧ image pt' = update (image pt) i v := by
  refine ⟨pt.set i v, ?_, length_set, ?_⟩
  . unfold writeEntry PermTnum.cast
    rw [if_pos hi, Nat.mod_eq_of_lt hv]
    rfl
  . funext x
    by_cases hx : x = i
    . rw [hx, update_self]
      apply image_eq_of_getElem?
      apply getElem?_set_self hi
    . rw [update_of_ne hx]
      unfold image
      rw [getD_eq_getElem?_getD, getD_eq_getElem?_getD,
        getElem?_set_ne (fun heq => hx heq.symm)]

theorem maxDegPerm4_lt (w : IntSize) : PermTnum.maxDegPerm4 w < 2 ^ 32 := by
  cases w <;> decide

theorem growPerm_spec {m c : Nat} (hm : m ≤ pt.length) (hfix : ∀ i, m ≤ i → image pt i = i)
    (hc : c ≤ PermTnum.maxDegPerm4 w)
    : ∃ pt', growPerm pt m c = .ok pt' ∧ pt.length ≤ pt'.length ∧ c ≤ pt'.length
        ∧ image pt' = image pt := by
  have hbits := maxDegPerm4_lt w
  unfold growPerm
  split
  . next hlt =>
    have hlen : (resizePerm pt ((c + 1023) / 1024 * 1024)).length = (c + 1023) / 1024 * 1024 := by
      unfold resizePerm
      rw [length_append, length_take, length_replicate]
      omega
    apply forLoop_of_inv (fun k pt' => pt'.length = (c + 1023) / 1024 * 1024
      ∧ ∀ x, (x < k → image pt' x = image pt x))
    . refine ⟨hlen, ?_⟩
      intro x hx
      unfold resizePerm image
      rw [getD_eq_getElem?_getD, getD_eq_getElem?_getD, getElem?_append_left]
      . rw [getElem?_take_of_lt (by omega)]
      . rw [length_take]
        omega
    . intro k pt' hk hlt' h
      rcases writeEntry_spec (T := .perm4) (v := k) (show k < pt'.length by omega)
        (by simp only [PermTnum.bits]; omega) with ⟨pt'', h''⟩
      refine ⟨pt'', h''.1, h''.2.1.trans h.1, ?_⟩
      intro x hx
      rw [h''.2.2]
      by_cases hxk : x = k
      . rw [hxk, update_self, hfix k hk]
      . rw [update_of_ne hxk]
        apply h.2
        omega
    . intro pt' h
      refine ⟨by omega, by omega, ?_⟩
      funext x
      by_cases hx : x < (c + 1023) / 1024 * 1024
      . apply h.2
        omega
      . rw [image_of_le (by omega), image_of_le (by omega)]
  . exact ⟨pt, rfl, Nat.le_refl _, by omega, rfl⟩

end Entries

section Cycle

variable {σ : Equiv.Perm Nat} {m₀ : Nat}

def scanVar : Option Nat → Nat
  | none => 0
  | some x => x + 1

structure IsScanned (w : IntSize) (σ : Equiv.Perm Nat) (m₀ : Nat) (ds : List Nat) (s : CycleScan)
    : Prop where
  image_eq : image s.pt = chain σ ds
  le_length : s.m ≤ s.pt.length
  le_maxDeg : s.m ≤ PermTnum.maxDegPerm4 w
  le_iff : ∀ n, s.m ≤ n ↔ m₀ ≤ n ∧ ∀ x ∈ ds, x < n
  p_eq : s.p = scanVar ds.head?
  l_eq : s.l = scanVar ds.getLast?

variable {ds : List Nat} {s : CycleScan}

theorem IsScanned.fix (h : IsScanned w σ m₀ ds s) (hσ : ∀ i, m₀ ≤ i → σ i = i) (i : Nat)
    (hi : s.m ≤ i)
    : image s.pt i = i := by
  have hle := (h.le_iff i).mp hi
  rw [h.image_eq, chain_of_notMem]
  . apply hσ i hle.1
  . intro hmem
    exact Nat.lt_irrefl i (hle.2 i (dropLast_subset _ hmem))

theorem isLinkable_cons_iff {x : Nat} (hds : IsLinkable σ ds)
    : IsLinkable σ (x :: ds)
        ↔ ¬((scanVar ds.head? ≠ 0 ∧ scanVar ds.head? = x + 1) ∨ chain σ ds x ≠ x) := by
  cases ds with
  | nil =>
    unfold IsLinkable chain scanVar
    simp
  | cons b ds =>
    unfold IsLinkable scanVar
    simp [hds]

theorem getPositiveSmallIntEx_eq {c : Nat} (hpos : 0 < c) (hc : c ≤ PermTnum.maxDegPerm4 w)
    (funcname argname : String)
    : getPositiveSmallIntEx w funcname c argname = .ok c := by
  unfold getPositiveSmallIntEx
  rw [if_pos]
  . rfl
  . unfold IntSize.IsSmall IntSize.intIntobjMin IntSize.intIntobjMax IntSize.nrSmallIntBits
    cases w with
    | int4 =>
      simp only [PermTnum.maxDegPerm4, IntSize.bits] at *
      omega
    | int8 =>
      simp only [PermTnum.maxDegPerm4, IntSize.bits] at *
      omega

theorem scanEntry_spec (hσ : ∀ i, m₀ ≤ i → σ i = i) {x : Nat} (hds : IsLinkable σ ds)
    (h : IsScanned w σ m₀ ds s) (hx : x < PermTnum.maxDegPerm4 w)
    : ReturnsIf (scanEntry w (x + 1 : Nat) s) (IsLinkable σ (x :: ds)) (IsScanned w σ m₀ (x :: ds))
        disjointFault := by
  have hbits := maxDegPerm4_lt w
  have hle := h.le_maxDeg
  unfold scanEntry
  rw [getPositiveSmallIntEx_eq (by omega) (by omega), ok_bind, if_neg (by omega)]
  rcases growPerm_spec h.le_length (fun i hi => h.fix hσ i hi) 
    (show x + 1 ≤ PermTnum.maxDegPerm4 w by omega) with ⟨pt, hpt⟩
  have himage := hpt.2.2.2.trans h.image_eq
  rw [hpt.1, ok_bind]
  dsimp only
  rw [Nat.add_sub_cancel, readEntry_eq_image (by omega), ok_bind, himage, h.p_eq]
  rw [isLinkable_cons_iff hds]
  generalize hm : (if s.m < x + 1 then x + 1 else s.m) = m
  have hlen := h.le_length
  have hmle : m ≤ pt.length ∧ m ≤ PermTnum.maxDegPerm4 w := by
    split at hm
    . omega
    . omega
  have hmiff : ∀ n, m ≤ n ↔ m₀ ≤ n ∧ ∀ y ∈ x :: ds, y < n := by
    intro n
    rw [forall_mem_cons, ← and_assoc, and_comm (a := m₀ ≤ n), and_assoc, ← h.le_iff]
    split at hm
    . omega
    . omega
  have hlast : ∀ b, ds.head? = some b → (x :: ds).getLast? = ds.getLast? := by
    intro b hb
    rw [getLast?_cons]
    cases ds with
    | nil => cases hb
    | cons a l => rw [getLast?_cons]; rfl
  split
  . next hclash =>
    constructor
    . intro hc
      exact absurd hclash hc
    . intro _
      rfl
  . next hclash =>
    constructor
    . intro _
      cases hhead : ds.head? with
      | none =>
        rw [if_neg (by simp [scanVar])]
        have hnil : ds = [] := by
          cases ds with
          | nil => rfl
          | cons a l => cases hhead
        subst hnil
        exact ⟨_, rfl, himage, hmle.1, hmle.2, hmiff, rfl, rfl⟩
      | some b =>
        rw [if_pos (by simp [scanVar])]
        have hb : b < m := by
          have := ((hmiff m).mp (Nat.le_refl m)).2 b
          apply this
          apply mem_cons_of_mem
          apply mem_of_mem_head?
          exact hhead
        apply exists_bind_of (writeEntry_spec (T := .perm4) (by omega)
          (show scanVar (some b) - 1 < _ by simp only [PermTnum.bits, scanVar]; omega))
        intro pt' hpt'
        refine ⟨_, rfl, ?_, ?_, hmle.2, hmiff, rfl, ?_⟩
        . rw [hpt'.2, himage]
          cases ds with
          | nil => cases hhead
          | cons a l =>
            cases hhead
            rfl
        . rw [hpt'.1]
          exact hmle.1
        . rw [hlast b hhead]
          exact h.l_eq
    . intro hc
      exact absurd hclash hc

theorem scanEntries_spec (hσ : ∀ i, m₀ ≤ i → σ i = i) {readElm : Nat → Result Int} {cs : List Nat}
    (hread : ∀ j x, cs[j]? = some x → readElm (j + 1) = .ok (x + 1 : Nat))
    (hcs : ∀ x ∈ cs, x < PermTnum.maxDegPerm4 w) {j : Nat} (hj : j ≤ cs.length)
    (hds : IsLinkable σ (cs.drop j)) (h : IsScanned w σ m₀ (cs.drop j) s)
    : ReturnsIf (scanEntries w readElm j s) (IsLinkable σ cs) (IsScanned w σ m₀ cs)
        disjointFault := by
  induction j generalizing s with
  | zero =>
    constructor
    . intro _
      exact ⟨s, rfl, h⟩
    . intro hc
      exact absurd hds hc
  | succ j ih =>
    have hlt : j < cs.length := by omega
    have hdrop : cs.drop j = cs[j] :: cs.drop (j + 1) := drop_eq_getElem_cons hlt
    unfold scanEntries
    rw [hread j cs[j] (getElem?_eq_getElem hlt), ok_bind]
    have hentry := scanEntry_spec hσ hds h (hcs cs[j] (getElem_mem hlt))
    rw [← hdrop] at hentry
    apply (hentry.bind (fun s' hlink hs' => ih (by omega) hlink hs')).congr
    . constructor
      . intro hlink
        exact ⟨hlink.drop j, hlink⟩
      . intro hlink
        exact hlink.2
    . intro s' hs'
      exact hs'

theorem scanPermCycle_spec {pt : List Nat} {m : Nat} (hacts : Acts pt σ) (hm : m ≤ pt.length)
    (hmax : m ≤ PermTnum.maxDegPerm4 w) (hσ : ∀ i, m ≤ i → σ i = i) {readElm : Nat → Result Int}
    {cs : List Nat} (hne : cs ≠ [])
    (hread : ∀ j x, cs[j]? = some x → readElm (j + 1) = .ok (x + 1 : Nat))
    (hcs : ∀ x ∈ cs, x < PermTnum.maxDegPerm4 w)
    : ReturnsIf (scanPermCycle w pt m cs.length readElm) (cs.Nodup ∧ ∀ x ∈ cs, σ x = x)
        (fun s => Acts s.1 (σ.trans cs.formPerm) ∧ s.2 ≤ s.1.length
          ∧ s.2 ≤ PermTnum.maxDegPerm4 w ∧ ∀ n, s.2 ≤ n ↔ m ≤ n ∧ ∀ x ∈ cs, x < n)
        disjointFault := by
  cases cs with
  | nil => contradiction
  | cons a l =>
    unfold scanPermCycle
    rw [if_neg (by simp)]
    have hstart : IsScanned w σ m ((a :: l).drop (a :: l).length)
        { pt := pt, m := m, p := 0, l := 0 } := by
      rw [drop_length]
      constructor
      . funext i
        apply hacts
      . exact hm
      . exact hmax
      . intro n
        simp
      . rfl
      . rfl
    have hlink : IsLinkable σ ((a :: l).drop (a :: l).length) := by
      rw [drop_length]
      trivial
    have hscan := scanEntries_spec hσ hread hcs (Nat.le_refl _) hlink hstart
    apply (hscan.bind (q := chain σ (a :: l) ((a :: l).getLast (cons_ne_nil a l))
      = (a :: l).getLast (cons_ne_nil a l)) ?_).congr
    . exact (isLinkable_and_last_iff a l).symm
    . intro s hs
      exact hs
    . intro s hlinkable hs
      have hmem := getLast_mem (cons_ne_nil a l)
      have hlt := ((hs.le_iff s.m).mp (Nat.le_refl s.m)).2
      have hlast : s.l = (a :: l).getLast (cons_ne_nil a l) + 1 := by
        rw [hs.l_eq, getLast?_eq_getLast_of_ne_nil (cons_ne_nil a l)]
        rfl
      have hhead : s.p = a + 1 := hs.p_eq
      have hltlast := hlt _ hmem
      have hlthead := hlt a mem_cons_self
      have hlen := hs.le_length
      have hbits := maxDegPerm4_lt w
      have hmaxDeg := hs.le_maxDeg
      rw [hlast, hhead, Nat.add_sub_cancel, Nat.add_sub_cancel]
      rw [readEntry_eq_image (by omega), ok_bind, hs.image_eq]
      constructor
      . intro hclose
        rw [if_neg (not_not.mpr hclose)]
        apply exists_bind_of (writeEntry_spec (T := .perm4) (by omega)
          (show a < _ by simp only [PermTnum.bits]; omega))
        intro pt' hpt'
        have hcycle := (isLinkable_and_last_iff a l).mp ⟨hlinkable, hclose⟩
        refine ⟨_, rfl, ?_, ?_, hmaxDeg, hs.le_iff⟩
        . intro i
          rw [hpt'.2, hs.image_eq, update_chain_eq a l hcycle.1 hcycle.2]
        . rw [hpt'.1]
          exact hlen
      . intro hopen
        rw [if_pos hopen]
        rfl

end Cycle
