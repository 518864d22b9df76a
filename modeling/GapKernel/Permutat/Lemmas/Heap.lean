import GapKernel.Permutat.Impl.Perm

open PermList List Function

structure IsPermBag (w : IntSize) (bag : PermBag) (σ : Equiv.Perm Nat) : Prop where
  acts : Acts bag.entries σ
  deg_le : bag.entries.length ≤ bag.tnum.maxDeg w

structure IsPermHeap (w : IntSize) (h : PermHeap) (ρ : Nat → Equiv.Perm Nat) : Prop where
  isPermBag : ∀ a bag, h.bags[a]? = some bag → IsPermBag w bag (ρ a)
  storedInv : ∀ a bag b, h.bags[a]? = some bag → bag.storedInv = some b
    → ∃ inv, h.bags[b]? = some inv ∧ inv.tnum = bag.tnum ∧ ρ b = (ρ a).symm
  identityPerm : ∃ bag, h.bags[h.identityPerm]? = some bag ∧ bag.entries = []

def Extends (h : PermHeap) (ρ : Nat → Equiv.Perm Nat) (h' : PermHeap) (ρ' : Nat → Equiv.Perm Nat)
    : Prop :=
  ∀ a bag, h.bags[a]? = some bag
    → ρ' a = ρ a ∧ ∃ bag', h'.bags[a]? = some bag' ∧ bag'.tnum = bag.tnum
      ∧ bag'.entries = bag.entries

def Computes (w : IntSize) (h : PermHeap) (ρ : Nat → Equiv.Perm Nat)
    (res : Result (PermHeap × Nat)) (σ : Equiv.Perm Nat) : Prop :=
  ∃ h' r ρ' bag, res = .ok (h', r) ∧ IsPermHeap w h' ρ' ∧ Extends h ρ h' ρ'
    ∧ h'.bags[r]? = some bag ∧ IsPermBag w bag σ

variable {w : IntSize} {h : PermHeap} {ρ : Nat → Equiv.Perm Nat}

theorem Extends.refl : Extends h ρ h ρ :=
  fun _ bag hbag => ⟨rfl, bag, hbag, rfl, rfl⟩

theorem Extends.trans {h' h'' : PermHeap} {ρ' ρ'' : Nat → Equiv.Perm Nat}
    (h₁ : Extends h ρ h' ρ') (h₂ : Extends h' ρ' h'' ρ'')
    : Extends h ρ h'' ρ'' := by
  intro a bag hbag
  obtain ⟨hρ', bag', hbag', htnum', hentries'⟩ := h₁ a bag hbag
  obtain ⟨hρ'', bag'', hbag'', htnum'', hentries''⟩ := h₂ a bag' hbag'
  exact ⟨hρ''.trans hρ', bag'', hbag'', htnum''.trans htnum', hentries''.trans hentries'⟩

theorem Computes.of_bag (hheap : IsPermHeap w h ρ) {r : Nat} {bag : PermBag}
    (hbag : h.bags[r]? = some bag)
    : Computes w h ρ (.ok (h, r)) (ρ r) :=
  ⟨h, r, ρ, bag, rfl, hheap, Extends.refl, hbag, hheap.isPermBag r bag hbag⟩

theorem Computes.identityPerm (hheap : IsPermHeap w h ρ)
    : Computes w h ρ (.ok (h, h.identityPerm)) 1 := by
  obtain ⟨bag, hbag, hentries⟩ := hheap.identityPerm
  have hacts := (hheap.isPermBag _ bag hbag).acts
  rw [← hacts.eq_one (by rw [hentries]; rfl)]
  apply Computes.of_bag hheap hbag

variable {σ : Equiv.Perm Nat}

section

variable (hheap : IsPermHeap w h ρ) (T : PermTnum) {entries : List Nat} (hacts : Acts entries σ)
  (hdeg : entries.length ≤ T.maxDeg w)

include hheap T hacts hdeg

theorem newPerm_spec
    : ∃ ρ', IsPermHeap w (h.newPerm T entries).1 ρ' ∧ Extends h ρ (h.newPerm T entries).1 ρ'
        ∧ (h.newPerm T entries).1.bags[(h.newPerm T entries).2]?
            = some { tnum := T, entries := entries, storedInv := none }
        ∧ ρ' (h.newPerm T entries).2 = σ := by
  have hold : ∀ a bag, h.bags[a]? = some bag → a ≠ h.bags.length
      ∧ (h.newPerm T entries).1.bags[a]? = some bag := by
    intro a bag hbag
    have hlt := (List.getElem?_eq_some_iff.mp hbag).1
    refine ⟨by omega, ?_⟩
    unfold PermHeap.newPerm
    rwa [getElem?_append_left hlt]
  have hnew : (h.newPerm T entries).1.bags[h.bags.length]?
      = some { tnum := T, entries := entries, storedInv := none } := by
    simp [PermHeap.newPerm]
  refine ⟨update ρ h.bags.length σ, ?_, ?_, hnew, update_self _ _ _⟩
  . -- A bag is the new one or an old one.
    have hcases : ∀ a bag, (h.newPerm T entries).1.bags[a]? = some bag
        → (a = h.bags.length ∧ bag = { tnum := T, entries := entries, storedInv := none })
          ∨ h.bags[a]? = some bag := by
      intro a bag hbag
      by_cases ha : a < h.bags.length
      . right
        unfold PermHeap.newPerm at hbag
        rwa [getElem?_append_left ha] at hbag
      . left
        have hlt := (List.getElem?_eq_some_iff.mp hbag).1
        simp only [PermHeap.newPerm, length_append, length_singleton] at hlt
        have heq : a = h.bags.length := by omega
        rw [heq, hnew] at hbag
        exact ⟨heq, (Option.some.inj hbag).symm⟩
    constructor
    . intro a bag hbag
      cases hcases a bag hbag with
      | inl heq =>
        rw [heq.1, heq.2, update_self]
        exact ⟨hacts, hdeg⟩
      | inr hbag' =>
        rw [update_of_ne (hold a bag hbag').1]
        apply hheap.isPermBag a bag hbag'
    . intro a bag b hbag hinv
      cases hcases a bag hbag with
      | inl heq =>
        rw [heq.2] at hinv
        contradiction
      | inr hbag' =>
        obtain ⟨inv, hinvbag, htnum, hρ⟩ := hheap.storedInv a bag b hbag' hinv
        refine ⟨inv, (hold b inv hinvbag).2, htnum, ?_⟩
        rw [update_of_ne (hold a bag hbag').1,
          update_of_ne (hold b inv hinvbag).1, hρ]
    . obtain ⟨bag, hbag, hentries⟩ := hheap.identityPerm
      exact ⟨bag, (hold _ bag hbag).2, hentries⟩
  . intro a bag hbag
    refine ⟨update_of_ne (hold a bag hbag).1 _ _, bag, (hold a bag hbag).2, rfl, rfl⟩

theorem Computes.newPerm
    : Computes w h ρ (.ok (h.newPerm T entries)) σ := by
  obtain ⟨ρ', hheap', hext, hbag, _⟩ := newPerm_spec hheap T hacts hdeg
  exact ⟨_, _, ρ', _, rfl, hheap', hext, hbag, hacts, hdeg⟩

end

theorem Computes.exists_perm {res : Result (PermHeap × Nat)} (hres : Computes w h ρ res σ)
    : ∃ h' r ρ', res = .ok (h', r) ∧ IsPermHeap w h' ρ' ∧ Extends h ρ h' ρ'
        ∧ r < h'.bags.length ∧ ρ' r = σ := by
  obtain ⟨h', r, ρ', bag, heq, hheap', hext, hbag, hperm⟩ := hres
  refine ⟨h', r, ρ', heq, hheap', hext, (List.getElem?_eq_some_iff.mp hbag).1, ?_⟩
  apply (hheap'.isPermBag r bag hbag).acts.unique hperm.acts

theorem Extends.perm_eq {h' : PermHeap} {ρ' : Nat → Equiv.Perm Nat} (hext : Extends h ρ h' ρ')
    {f : Nat} (hf : f < h.bags.length)
    : f < h'.bags.length ∧ ρ' f = ρ f := by
  obtain ⟨hρ, bag', hbag', _⟩ := hext f _ (getElem?_eq_getElem hf)
  exact ⟨(List.getElem?_eq_some_iff.mp hbag').1, hρ⟩

section Scatter

variable {T : PermTnum} {n : Nat} {α β : Equiv.Perm Nat}

structure IsFilled (n : Nat) (α β : Equiv.Perm Nat) (k : Nat) (pt : List Nat) : Prop where
  length_eq : pt.length = n
  getElem?_eq : ∀ p, p < k → pt[α p]? = some (β p)

theorem isFilled_replicate (n : Nat) (α β : Equiv.Perm Nat)
    : IsFilled n α β 0 (List.replicate n 0) := by
  constructor
  . simp
  . intro p hp
    omega

theorem IsFilled.succ {k : Nat} {pt : List Nat} (h : IsFilled n α β k pt) (hk : α k < n)
    (hval : β k < 2 ^ T.bits)
    : ∃ pt', writeEntry T pt (α k) (β k) = .ok pt' ∧ IsFilled n α β (k + 1) pt' := by
  have hlen := h.length_eq
  refine ⟨pt.set (α k) (β k), ?_, ?_, ?_⟩
  . unfold writeEntry PermTnum.cast
    rw [if_pos (by omega), Nat.mod_eq_of_lt hval]
    rfl
  . rw [length_set, hlen]
  . intro p hp
    by_cases hpk : p = k
    . rw [hpk, getElem?_set_self (by omega)]
    . rw [getElem?_set_ne (fun heq => hpk (α.injective heq).symm)]
      apply h.getElem?_eq
      omega

theorem scatter_spec {lo hi : Nat} {idx val : Nat → Result Nat} {pt : List Nat}
    (h : IsFilled n α β lo pt) (hle : lo ≤ hi)
    (hidx : ∀ p, lo ≤ p → p < hi → idx p = .ok (α p) ∧ α p < n)
    (hval : ∀ p, lo ≤ p → p < hi → val p = .ok (β p) ∧ β p < 2 ^ T.bits)
    : ∃ pt', scatter T lo hi idx val pt = .ok pt' ∧ IsFilled n α β hi pt' := by
  unfold scatter
  generalize hcount : hi - lo = count
  induction count generalizing lo pt with
  | zero =>
    have heq : hi = lo := by omega
    subst heq
    exact ⟨pt, rfl, h⟩
  | succ count ih =>
    obtain ⟨hi₁, hi₂⟩ := hidx lo (le_refl lo) (by omega)
    obtain ⟨hv₁, hv₂⟩ := hval lo (le_refl lo) (by omega)
    obtain ⟨pt₁, hwrite, hfilled⟩ := h.succ hi₂ hv₂
    obtain ⟨pt', hfold, hfilled'⟩ := ih hfilled (by omega)
      (fun p hp => hidx p (by omega)) (fun p hp => hval p (by omega)) (by omega)
    refine ⟨pt', ?_, hfilled'⟩
    rw [range'_succ, foldlM_cons, hi₁, hv₁]
    simp only [bind, Except.bind]
    rw [hwrite]
    apply hfold

end Scatter
