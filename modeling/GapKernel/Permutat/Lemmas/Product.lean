import GapKernel.Permutat.Lemmas.Heap

open PermList PermImpl

variable {w : IntSize} {h : PermHeap} {ρ : Nat → Equiv.Perm Nat}

theorem PermTnum.maxDeg_le (w : IntSize) (T : PermTnum) : T.maxDeg w ≤ 2 ^ T.bits := by
  cases w <;> cases T <;> decide

theorem PermTnum.maxDeg_left (w : IntSize) (TL TR : PermTnum)
    : TL.maxDeg w ≤ (TL.resultType TR).maxDeg w := by
  cases w <;> cases TL <;> cases TR <;> decide

theorem PermTnum.maxDeg_right (w : IntSize) (TL TR : PermTnum)
    : TR.maxDeg w ≤ (TL.resultType TR).maxDeg w := by
  cases w <;> cases TL <;> cases TR <;> decide

variable {a : Nat} {bag : PermBag}

theorem bag_eq (hbag : h.bags[a]? = some bag) : h.bag a = .ok bag := by
  unfold PermHeap.bag
  rw [hbag]
  rfl

theorem constAddrPerm_eq (hbag : h.bags[a]? = some bag)
    : h.constAddrPerm bag.tnum a = .ok bag.entries := by
  unfold PermHeap.constAddrPerm
  rw [bag_eq hbag]
  simp [bind, Except.bind]
  rfl

variable {σ : Equiv.Perm Nat}

theorem readEntry_eq {pt : List Nat} (hacts : Acts pt σ) {p : Nat} (hp : p < pt.length)
    : readEntry pt p = .ok (σ p) := by
  unfold readEntry
  rw [hacts.getElem?_eq hp]
  rfl

theorem IMAGE_eq {pt : List Nat} (hacts : Acts pt σ) (p : Nat)
    : IMAGE p pt pt.length = .ok (σ p) := by
  unfold IMAGE
  split
  . next hlt => apply readEntry_eq hacts hlt
  . next hlt =>
    rw [hacts.fix (by omega)]
    rfl

structure IsFill (w : IntSize) (T : PermTnum) (n : Nat) (α β : Equiv.Perm Nat) : Prop where
  idx_fix : ∀ i, n ≤ i → α i = i
  val_fix : ∀ i, n ≤ i → β i = i
  deg_le : n ≤ T.maxDeg w

namespace IsFill

variable {T : PermTnum} {n : Nat} {α β : Equiv.Perm Nat}

variable {pt : List Nat}

section

variable (c : IsFill w T n α β) {lo hi : Nat} {idx val : Nat → Result Nat}

include c

theorem exists_scatter (hfilled : IsFilled n α β lo pt) (hle : lo ≤ hi) (hn : hi ≤ n)
    (hidx : ∀ p, lo ≤ p → p < hi → idx p = .ok (α p))
    (hval : ∀ p, lo ≤ p → p < hi → val p = .ok (β p))
    : ∃ pt', scatter T lo hi idx val pt = .ok pt' ∧ IsFilled n α β hi pt' := by
  have hbits := PermTnum.maxDeg_le w T
  have hdeg := c.deg_le
  apply scatter_spec hfilled hle
  . intro p hlo hhi
    exact ⟨hidx p hlo hhi, apply_lt c.idx_fix (by omega)⟩
  . intro p hlo hhi
    have := apply_lt c.val_fix (show p < n by omega)
    exact ⟨hval p hlo hhi, by omega⟩

theorem bind_scatter {k : List Nat → Result (PermHeap × Nat)} {σ : Equiv.Perm Nat}
    (hfilled : IsFilled n α β lo pt) (hle : lo ≤ hi) (hn : hi ≤ n)
    (hidx : ∀ p, lo ≤ p → p < hi → idx p = .ok (α p))
    (hval : ∀ p, lo ≤ p → p < hi → val p = .ok (β p))
    (hk : ∀ pt', IsFilled n α β hi pt' → Computes w h ρ (k pt') σ)
    : Computes w h ρ (scatter T lo hi idx val pt >>= k) σ := by
  obtain ⟨pt', heq, hfilled'⟩ := c.exists_scatter hfilled hle hn hidx hval
  rw [heq]
  apply hk pt' hfilled'

end

theorem newPerm (c : IsFill w T n α β) (hheap : IsPermHeap w h ρ) (hfilled : IsFilled n α β n pt)
    : Computes w h ρ (.ok (h.newPerm T pt)) (α.symm.trans β) := by
  apply Computes.newPerm hheap
  . apply acts_of_getElem? hfilled.length_eq hfilled.getElem?_eq c.idx_fix c.val_fix
  . rw [hfilled.length_eq]
    apply c.deg_le

end IsFill

theorem fix_trans {n : Nat} {τ : Equiv.Perm Nat} (hσ : ∀ i, n ≤ i → σ i = i)
    (hτ : ∀ i, n ≤ i → τ i = i) (i : Nat) (hi : n ≤ i)
    : (σ.trans τ) i = i := by
  rw [Equiv.trans_apply, hσ i hi, hτ i hi]

structure Operands (w : IntSize) (bagL bagR : PermBag) (σ τ : Equiv.Perm Nat) (n : Nat)
    : Prop where
  left : Acts bagL.entries σ
  right : Acts bagR.entries τ
  left_le : bagL.entries.length ≤ n
  right_le : bagR.entries.length ≤ n
  le_of_lt : bagL.entries.length < n → n = bagR.entries.length
  deg_le : n ≤ (bagL.tnum.resultType bagR.tnum).maxDeg w

variable {bagL bagR : PermBag}

theorem operands {τ : Equiv.Perm Nat} (hl : IsPermBag w bagL σ) (hr : IsPermBag w bagR τ)
    : Operands w bagL bagR σ τ
        (if bagL.entries.length < bagR.entries.length then bagR.entries.length
          else bagL.entries.length) := by
  have h₁ := hl.deg_le
  have h₂ := hr.deg_le
  have h₃ := PermTnum.maxDeg_left w bagL.tnum bagR.tnum
  have h₄ := PermTnum.maxDeg_right w bagL.tnum bagR.tnum
  constructor
  . apply hl.acts
  . apply hr.acts
  . split <;> omega
  . split <;> omega
  . split <;> omega
  . split <;> omega

namespace Operands

variable {bagL bagR : PermBag} {σ τ : Equiv.Perm Nat} {n : Nat}

variable (o : Operands w bagL bagR σ τ n)

include o

theorem left_fix (i : Nat) (hi : n ≤ i) : σ i = i := by
  have := o.left_le
  apply o.left.fix
  omega

theorem right_fix (i : Nat) (hi : n ≤ i) : τ i = i := by
  have := o.right_le
  apply o.right.fix
  omega

theorem isFill {α β : Equiv.Perm Nat} (hα : ∀ i, n ≤ i → α i = i) (hβ : ∀ i, n ≤ i → β i = i)
    : IsFill w (bagL.tnum.resultType bagR.tnum) n α β :=
  ⟨hα, hβ, o.deg_le⟩

end Operands

variable {opL opR : Nat}

theorem prodPerm_spec (hheap : IsPermHeap w h ρ) (hl : h.bags[opL]? = some bagL)
    (hr : h.bags[opR]? = some bagR)
    : Computes w h ρ (prodPerm bagL.tnum bagR.tnum h opL opR) ((ρ opL).trans (ρ opR)) := by
  have o := operands (hheap.isPermBag _ _ hl) (hheap.isPermBag _ _ hr)
  unfold prodPerm
  rw [constAddrPerm_eq hl, ok_bind, constAddrPerm_eq hr, ok_bind]
  dsimp only
  generalize (if bagL.entries.length < bagR.entries.length then bagR.entries.length
    else bagL.entries.length) = n at o ⊢
  have hleft := o.left_le
  have hright := o.right_le
  split
  . next hzero =>
    rw [o.left.eq_one hzero]
    apply Computes.of_bag hheap hr
  . split
    . next hzero =>
      rw [o.right.eq_one hzero]
      apply Computes.of_bag hheap hl
    . have c := o.isFill (fun _ _ => rfl : ∀ i, n ≤ i → (1 : Equiv.Perm Nat) i = i)
        (fix_trans o.left_fix o.right_fix)
      have hn := o.le_of_lt
      split
      . next hle =>
        apply c.bind_scatter (isFilled_replicate n _ _) (Nat.zero_le _) hleft
        . intro p _ _
          rfl
        . intro p _ hp
          have := o.left.lt hp
          rw [readEntry_eq o.left hp, ok_bind, readEntry_eq o.right (by omega)]
          rfl
        . intro pt₁ hfilled₁
          apply c.bind_scatter hfilled₁ hle hright
          . intro p _ _
            rfl
          . intro p hp hp'
            rw [readEntry_eq o.right hp', Equiv.trans_apply, o.left.fix hp]
          . intro pt₂ hfilled₂
            have : n = bagR.entries.length := by omega
            rw [← this] at hfilled₂
            apply c.newPerm hheap hfilled₂
      . next hlt =>
        apply c.bind_scatter (isFilled_replicate n _ _) (Nat.zero_le _) hleft
        . intro p _ _
          rfl
        . intro p _ hp
          rw [readEntry_eq o.left hp, ok_bind, IMAGE_eq o.right]
          rfl
        . intro pt₁ hfilled₁
          have : n = bagL.entries.length := by omega
          rw [← this] at hfilled₁
          apply c.newPerm hheap hfilled₁

theorem storedInv_spec (hheap : IsPermHeap w h ρ) {b : Nat} {inv : PermBag}
    (hbag : h.bags[a]? = some bag) (hinv : h.bags[b]? = some inv) (htnum : inv.tnum = bag.tnum)
    (hρ : ρ b = (ρ a).symm)
    : IsPermHeap w { h with bags := h.bags.set a { bag with storedInv := some b } } ρ
        ∧ Extends h ρ { h with bags := h.bags.set a { bag with storedInv := some b } } ρ := by
  have hlt := (List.getElem?_eq_some_iff.mp hbag).1
  -- Only the reference of one bag has changed.
  have hget : ∀ c, (h.bags.set a { bag with storedInv := some b })[c]?
      = if a = c then some { bag with storedInv := some b } else h.bags[c]? := by
    intro c
    rw [List.getElem?_set]
    split
    . rfl
    . rfl
  have hext : Extends h ρ { h with bags := h.bags.set a { bag with storedInv := some b } } ρ := by
    intro c bag' hbag'
    refine ⟨rfl, ?_⟩
    dsimp only
    rw [hget]
    split
    . next heq =>
      rw [← heq, hbag] at hbag'
      cases hbag'
      exact ⟨_, rfl, rfl, rfl⟩
    . exact ⟨bag', hbag', rfl, rfl⟩
  refine ⟨⟨?_, ?_, ?_⟩, hext⟩
  . intro c bag' hbag'
    dsimp only at hbag'
    rw [hget] at hbag'
    split at hbag'
    . next heq =>
      have := hheap.isPermBag a bag hbag
      cases hbag'
      rw [← heq]
      exact ⟨this.acts, this.deg_le⟩
    . apply hheap.isPermBag c bag' hbag'
  . intro c bag' d hbag' hd
    dsimp only at hbag'
    rw [hget] at hbag'
    split at hbag'
    . next heq =>
      cases hbag'
      cases hd
      obtain ⟨_, inv', hinv', htnum', _⟩ := hext b inv hinv
      exact ⟨inv', hinv', htnum'.trans htnum, by rw [hρ, heq]⟩
    . obtain ⟨invd, hinvd, htnumd, hρd⟩ := hheap.storedInv c bag' d hbag' hd
      obtain ⟨_, inv', hinv', htnum', _⟩ := hext d invd hinvd
      exact ⟨inv', hinv', htnum'.trans htnumd, hρd⟩
  . obtain ⟨bag', hbag', hentries⟩ := hheap.identityPerm
    obtain ⟨_, bag'', hbag'', _, hentries''⟩ := hext _ bag' hbag'
    exact ⟨bag'', hbag'', hentries''.trans hentries⟩

variable {perm : Nat}

section

variable (hheap : IsPermHeap w h ρ)

include hheap

theorem setStoredInvPerm_spec {inv : Nat} {invBag : PermBag} (hbag : h.bags[perm]? = some bag)
    (hinv : h.bags[inv]? = some invBag) (htnum : invBag.tnum = bag.tnum)
    (hρ : ρ inv = (ρ perm).symm)
    : ∃ h', h.setStoredInvPerm perm inv = .ok h' ∧ IsPermHeap w h' ρ ∧ Extends h ρ h' ρ := by
  obtain ⟨hheap₁, hext₁⟩ := storedInv_spec hheap hbag hinv htnum hρ
  obtain ⟨_, invBag₁, hinv₁, htnum₁, _⟩ := hext₁ inv invBag hinv
  obtain ⟨_, bag₁, hbag₁, htnum₁', _⟩ := hext₁ perm bag hbag
  obtain ⟨hheap₂, hext₂⟩ := storedInv_spec hheap₁ hinv₁ hbag₁
    (by rw [htnum₁, htnum₁', htnum]) (by rw [hρ, Equiv.symm_symm])
  refine ⟨_, ?_, hheap₂, hext₁.trans hext₂⟩
  unfold PermHeap.setStoredInvPerm
  rw [bag_eq hbag, ok_bind, bag_eq hinv, ok_bind, if_pos htnum]
  dsimp only
  rw [bag_eq hinv₁, ok_bind]
  rfl

theorem invPerm_spec (hbag : h.bags[perm]? = some bag)
    : ∃ h' r ρ' inv, invPerm bag.tnum h perm = .ok (h', r) ∧ IsPermHeap w h' ρ'
        ∧ Extends h ρ h' ρ' ∧ h'.bags[r]? = some inv ∧ inv.tnum = bag.tnum
        ∧ ρ' r = (ρ perm).symm := by
  have hperm := hheap.isPermBag perm bag hbag
  unfold invPerm
  rw [bag_eq hbag, ok_bind]
  cases hstored : bag.storedInv with
  | some inv =>
    obtain ⟨invBag, hinv, htnum, hρ⟩ := hheap.storedInv perm bag inv hbag hstored
    exact ⟨h, inv, ρ, invBag, rfl, hheap, Extends.refl, hinv, htnum, hρ⟩
  | none =>
    have c : IsFill w bag.tnum bag.entries.length (ρ perm) 1 :=
      ⟨fun i hi => hperm.acts.fix hi, fun _ _ => rfl, hperm.deg_le⟩
    have hscatter : ∃ pt, scatter bag.tnum 0 bag.entries.length (fun p => readEntry bag.entries p)
        pure (List.replicate bag.entries.length 0) = .ok pt
        ∧ IsFilled bag.entries.length (ρ perm) 1 bag.entries.length pt := by
      apply c.exists_scatter (isFilled_replicate _ _ _) (Nat.zero_le _) (le_refl _)
      . intro p _ hp
        apply readEntry_eq hperm.acts hp
      . intro p _ _
        rfl
    obtain ⟨pt, heq, hfilled⟩ := hscatter
    have hacts := acts_of_getElem? hfilled.length_eq hfilled.getElem?_eq c.idx_fix c.val_fix
    obtain ⟨ρ₁, hheap₁, hext₁, hinv₁, hρ₁⟩ := newPerm_spec hheap bag.tnum hacts
      (by rw [hfilled.length_eq]; apply hperm.deg_le)
    obtain ⟨hρperm, bag₁, hbag₁, htnum₁, _⟩ := hext₁ perm bag hbag
    obtain ⟨h₂, heq₂, hheap₂, hext₂⟩ := setStoredInvPerm_spec hheap₁ hbag₁ hinv₁ htnum₁.symm
      (by rw [hρ₁, hρperm]; rfl)
    obtain ⟨_, inv₂, hinv₂, htnum₂, _⟩ := hext₂ _ _ hinv₁
    refine ⟨h₂, (h.newPerm bag.tnum pt).2, ρ₁, inv₂, ?_, hheap₂, hext₁.trans hext₂, hinv₂, htnum₂,
      by rw [hρ₁]; rfl⟩
    rw [constAddrPerm_eq hbag, ok_bind]
    dsimp only
    rw [heq, ok_bind, heq₂]
    rfl

theorem Computes.invPerm (hbag : h.bags[perm]? = some bag)
    : Computes w h ρ (invPerm bag.tnum h perm) (ρ perm).symm := by
  obtain ⟨h', r, ρ', inv, heq, hheap', hext, hinv, _, hρ⟩ := invPerm_spec hheap hbag
  refine ⟨h', r, ρ', inv, heq, hheap', hext, hinv, ?_⟩
  rw [← hρ]
  apply hheap'.isPermBag r inv hinv

variable (hl : h.bags[opL]? = some bagL) (hr : h.bags[opR]? = some bagR)

include hl hr

theorem lQuoPerm_spec
    : Computes w h ρ (lQuoPerm bagL.tnum bagR.tnum h opL opR) ((ρ opL).symm.trans (ρ opR)) := by
  have o := operands (hheap.isPermBag _ _ hl) (hheap.isPermBag _ _ hr)
  unfold lQuoPerm
  rw [constAddrPerm_eq hl, ok_bind, constAddrPerm_eq hr, ok_bind]
  dsimp only
  generalize (if bagL.entries.length < bagR.entries.length then bagR.entries.length
    else bagL.entries.length) = n at o ⊢
  have hleft := o.left_le
  have hright := o.right_le
  split
  . next hzero =>
    rw [o.left.eq_one hzero]
    apply Computes.of_bag hheap hr
  . split
    . next hzero =>
      rw [o.right.eq_one hzero]
      apply Computes.invPerm hheap hl
    . have c := o.isFill o.left_fix o.right_fix
      have hn := o.le_of_lt
      split
      . next hle =>
        apply c.bind_scatter (isFilled_replicate n _ _) (Nat.zero_le _) hleft
        . intro p _ hp
          apply readEntry_eq o.left hp
        . intro p _ hp
          apply readEntry_eq o.right (by omega)
        . intro pt₁ hfilled₁
          apply c.bind_scatter hfilled₁ hle hright
          . intro p hp _
            rw [o.left.fix hp]
            rfl
          . intro p _ hp
            apply readEntry_eq o.right hp
          . intro pt₂ hfilled₂
            have : n = bagR.entries.length := by omega
            rw [← this] at hfilled₂
            apply c.newPerm hheap hfilled₂
      . next hlt =>
        apply c.bind_scatter (isFilled_replicate n _ _) (Nat.zero_le _) hright
        . intro p _ hp
          apply readEntry_eq o.left (by omega)
        . intro p _ hp
          apply readEntry_eq o.right hp
        . intro pt₁ hfilled₁
          apply c.bind_scatter hfilled₁ (by omega) hleft
          . intro p _ hp
            apply readEntry_eq o.left hp
          . intro p hp _
            rw [o.right.fix hp]
            rfl
          . intro pt₂ hfilled₂
            have : n = bagL.entries.length := by omega
            rw [← this] at hfilled₂
            apply c.newPerm hheap hfilled₂

theorem powPerm_spec
    : Computes w h ρ (powPerm bagL.tnum bagR.tnum h opL opR)
        ((ρ opR).symm.trans ((ρ opL).trans (ρ opR))) := by
  have o := operands (hheap.isPermBag _ _ hl) (hheap.isPermBag _ _ hr)
  unfold powPerm
  rw [constAddrPerm_eq hl, ok_bind, constAddrPerm_eq hr, ok_bind]
  dsimp only
  generalize (if bagL.entries.length < bagR.entries.length then bagR.entries.length
    else bagL.entries.length) = n at o ⊢
  have hright := o.right_le
  split
  . next hzero =>
    rw [o.left.eq_one hzero]
    have : (ρ opR).symm.trans ((1 : Equiv.Perm Nat).trans (ρ opR)) = 1 :=
      Equiv.symm_trans_self (ρ opR)
    rw [this]
    apply Computes.identityPerm hheap
  . split
    . next hzero =>
      rw [o.right.eq_one hzero]
      apply Computes.of_bag hheap hl
    . have c := o.isFill o.right_fix (fix_trans o.left_fix o.right_fix)
      have hn := o.le_of_lt
      split
      . next heq =>
        apply c.bind_scatter (isFilled_replicate n _ _) (Nat.zero_le _) (le_refl n)
        . intro p _ hp
          apply readEntry_eq o.right (by omega)
        . intro p _ hp
          have hpl : p < bagL.entries.length := by omega
          have := o.left.lt hpl
          rw [readEntry_eq o.left hpl, ok_bind, readEntry_eq o.right (by omega)]
          rfl
        . intro pt hfilled
          apply c.newPerm hheap hfilled
      . apply c.bind_scatter (isFilled_replicate n _ _) (Nat.zero_le _) (le_refl n)
        . intro p _ _
          apply IMAGE_eq o.right
        . intro p _ _
          rw [IMAGE_eq o.left, ok_bind, IMAGE_eq o.right]
          rfl
        . intro pt hfilled
          apply c.newPerm hheap hfilled

theorem commPerm_spec
    : Computes w h ρ (commPerm bagL.tnum bagR.tnum h opL opR)
        ((ρ opL).symm.trans ((ρ opR).symm.trans ((ρ opL).trans (ρ opR)))) := by
  have o := operands (hheap.isPermBag _ _ hl) (hheap.isPermBag _ _ hr)
  unfold commPerm
  rw [constAddrPerm_eq hl, ok_bind, constAddrPerm_eq hr, ok_bind]
  dsimp only
  generalize (if bagL.entries.length < bagR.entries.length then bagR.entries.length
    else bagL.entries.length) = n at o ⊢
  have hright := o.right_le
  split
  . next hzero =>
    have : (ρ opL).symm.trans ((ρ opR).symm.trans ((ρ opL).trans (ρ opR))) = 1 := by
      cases hzero with
      | inl hzero =>
        rw [o.left.eq_one hzero]
        apply Equiv.symm_trans_self
      | inr hzero =>
        rw [o.right.eq_one hzero]
        apply Equiv.symm_trans_self
    rw [this]
    apply Computes.identityPerm hheap
  . have c := o.isFill (fix_trans o.right_fix o.left_fix) (fix_trans o.left_fix o.right_fix)
    have hn := o.le_of_lt
    split
    . next heq =>
      apply c.bind_scatter (isFilled_replicate n _ _) (Nat.zero_le _) (le_refl n)
      . intro p _ hp
        have hpr : p < bagR.entries.length := by omega
        have := o.right.lt hpr
        rw [readEntry_eq o.right hpr, ok_bind, readEntry_eq o.left (by omega)]
        rfl
      . intro p _ hp
        have hpl : p < bagL.entries.length := by omega
        have := o.left.lt hpl
        rw [readEntry_eq o.left hpl, ok_bind, readEntry_eq o.right (by omega)]
        rfl
      . intro pt hfilled
        apply c.newPerm hheap hfilled
    . apply c.bind_scatter (isFilled_replicate n _ _) (Nat.zero_le _) (le_refl n)
      . intro p _ _
        rw [IMAGE_eq o.right, ok_bind, IMAGE_eq o.left]
        rfl
      . intro p _ _
        rw [IMAGE_eq o.left, ok_bind, IMAGE_eq o.right]
        rfl
      . intro pt hfilled
        apply c.newPerm hheap hfilled

end
