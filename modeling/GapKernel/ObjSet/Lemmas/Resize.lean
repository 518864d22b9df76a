import GapKernel.ObjSet.Lemmas.Table

open List

namespace Table

variable {w : IntSize} {ν : Type} {layout : Layout ν} {u : Undefined w} {t : Table w ν}

def SameEntries (u : Undefined w) (t t' : Table w ν) : Prop :=
  ∀ r, r.IsLive u → (r ∈ t'.slots ↔ r ∈ t.slots)

def OtherKey (u : Undefined w) (r s : Slot w ν) : Prop :=
  r.IsLive u → s.IsLive u → r.key ≠ s.key

theorem Inv.pairwise (h : Inv layout u t) : t.slots.Pairwise (OtherKey u) := by
  rw [pairwise_iff_getElem]
  intro i j hi hj hlt hlive _ heq
  have := h.distinct i j hi hj hlive heq
  omega

theorem Key.of_isLive {s : Slot w ν} (h : s.IsLive u) : ∃ k : Key u, s.key = k.obj :=
  ⟨⟨s.key, h.1, h.2⟩, rfl⟩

theorem foldlM_addLive_spec (slots : List (Slot w ν)) (hinv : Inv layout u t)
    (hpair : slots.Pairwise (OtherKey u))
    (hnew : ∀ s ∈ slots, s.IsLive u → ∀ r ∈ t.slots, r.key ≠ s.key)
    (hdirty : t.dirty = 0) (hroom : t.used + slots.countP (·.IsLive u) < t.size)
    : ∃ t', slots.foldlM (addLive layout u) t = some t' ∧ Inv layout u t'
        ∧ (∀ r, r.IsLive u → (r ∈ t'.slots ↔ r ∈ t.slots ∨ r ∈ slots))
        ∧ t'.bits = t.bits ∧ t'.size = t.size ∧ t'.used = t.used + slots.countP (·.IsLive u)
        ∧ t'.dirty = 0 := by
  induction slots generalizing t with
  | nil => exact ⟨t, rfl, hinv, by simp, rfl, rfl, rfl, hdirty⟩
  | cons s slots ih =>
    rw [pairwise_cons] at hpair
    rw [countP_cons] at hroom
    rw [countP_cons, foldlM_cons]
    by_cases hlive : s.IsLive u
    . obtain ⟨k, hk⟩ := Key.of_isLive hlive
      have hnews := hnew s mem_cons_self hlive
      simp only [hlive, decide_true, if_true] at hroom
      obtain ⟨t₁, heq, hinv₁, hins, hbits, hsize, hused, hdirty₁⟩ :=
        addNew_spec hinv k s.val (by rwa [hk] at hnews) (by omega)
      have hs : s = ⟨k.obj, s.val⟩ := by
        rw [← hk]
      rw [← hs] at hins
      obtain ⟨t', heq', hinv', hmem', hbits', hsize', hused', hdirty'⟩ := ih hinv₁ hpair.2
        (by
          intro r hr hrlive r' hr' hkey
          have hr'live : r'.IsLive u := by
            unfold Slot.IsLive at hrlive ⊢
            rwa [hkey]
          rw [hins r' hr'live] at hr'
          cases hr' with
          | inl heq =>
            rw [heq] at hkey
            exact hpair.1 r hr hlive hrlive hkey
          | inr hr' => exact hnew r (mem_cons_of_mem _ hr) hrlive r' hr' hkey)
        (by omega) (by omega)
      refine ⟨t', ?_, hinv', ?_, by omega, by omega, ?_, hdirty'⟩
      . unfold addLive
        rw [if_pos hlive, hk, heq]
        apply heq'
      . intro r hr
        rw [hmem' r hr, hins r hr, mem_cons]
        tauto
      . simp only [hlive, decide_true, if_true]
        omega
    . simp only [hlive, decide_false, Bool.false_eq_true, if_false] at hroom ⊢
      obtain ⟨t', heq', hinv', hmem', hbits', hsize', hused', hdirty'⟩ := ih hinv hpair.2
        (fun r hr => hnew r (mem_cons_of_mem _ hr)) hdirty hroom
      refine ⟨t', ?_, hinv', ?_, hbits', hsize', hused', hdirty'⟩
      . unfold addLive
        rw [if_neg hlive]
        apply heq'
      . intro r hr
        rw [hmem' r hr, mem_cons]
        have : r ≠ s := fun heq => hlive (heq ▸ hr)
        tauto

theorem newBag_inv (layout : Layout ν) (u : Undefined w) {bits : Nat}
    (h : bits ≤ layout.maxBits w)
    : Inv layout u (newBag layout (2 ^ bits) bits : Table w ν) := by
  have hlen := length_newBag (w := w) layout h
  have hslots : ∀ s ∈ (newBag layout (2 ^ bits) bits : Table w ν).slots, s.IsNull := by
    intro s hs
    unfold newBag at hs
    rw [eq_of_mem_replicate hs]
    rfl
  have hnlive : ∀ s ∈ (newBag layout (2 ^ bits) bits : Table w ν).slots, ¬s.IsLive u :=
    fun s hs => Slot.not_isLive_of_isNull (hslots s hs)
  constructor
  . apply h
  . rfl
  . apply hlen
  . rw [countP_eq_zero.mpr (fun s hs => by simpa using hnlive s hs)]
    rfl
  . rw [countP_eq_zero.mpr (fun s hs =>
      by simpa using Slot.not_isDeleted_of_isNull (hslots s hs))]
    rfl
  . apply Nat.two_pow_pos
  . intro i j hi hj hlive
    exact absurd hlive (hnlive _ (getElem_mem hi))
  . intro i hi hlive
    exact absurd hlive (hnlive _ (getElem_mem hi))

theorem resize_spec (h : Inv layout u t) {bits : Nat} (hbits : bits ≤ layout.maxBits w)
    (hroom : t.used < 2 ^ bits)
    : ∃ t', t.resize layout u bits = some t' ∧ Inv layout u t' ∧ SameEntries u t t'
        ∧ t'.bits = bits ∧ t'.size = 2 ^ bits ∧ t'.used = t.used ∧ t'.dirty = 0 := by
  -- The order of the slots does not matter.
  have hscan : ∃ slots, (if layout.downwards then t.slots.reverse else t.slots) = slots
      ∧ (∀ s, s ∈ slots ↔ s ∈ t.slots) ∧ slots.Pairwise (OtherKey u)
      ∧ slots.countP (·.IsLive u) = t.slots.countP (·.IsLive u) := by
    by_cases hdown : layout.downwards
    . refine ⟨t.slots.reverse, if_pos hdown, by simp, ?_, countP_reverse⟩
      rw [pairwise_reverse]
      apply h.pairwise.imp
      intro a b hab hb ha heq
      exact hab ha hb heq.symm
    . exact ⟨t.slots, if_neg hdown, by simp, h.pairwise, rfl⟩
  obtain ⟨slots, heq, hmem, hpair, hcount⟩ := hscan
  have hnull : ∀ r ∈ (newBag layout (2 ^ bits) bits : Table w ν).slots, r.IsNull := by
    intro r hr
    unfold newBag at hr
    rw [eq_of_mem_replicate hr]
    rfl
  obtain ⟨t', hfold, hinv', hmem', hbits', hsize', hused', hdirty'⟩ :=
    foldlM_addLive_spec (t := newBag layout (2 ^ bits) bits) slots (newBag_inv layout u hbits) hpair
      (by
        intro s _ hlive r hr hkey
        apply hlive.1
        rw [← hkey]
        apply hnull r hr)
      rfl
      (by
        rw [hcount, ← h.used_eq]
        simp only [newBag]
        omega)
  refine ⟨t', ?_, hinv', ?_, hbits', hsize', ?_, hdirty'⟩
  . unfold resize
    rw [h.readSlots_eq, shiftOne_eq w (le_trans hbits (maxBits_le layout w))]
    simp only [Option.bind_eq_bind, Option.bind_some]
    rw [heq]
    apply hfold
  . intro r hr
    rw [hmem' r hr, hmem]
    have : r ∉ (newBag layout (2 ^ bits) bits : Table w ν).slots :=
      fun hr' => Slot.not_isLive_of_isNull (hnull r hr') hr
    tauto
  . rw [hused', hcount, ← h.used_eq]
    simp [newBag]

structure IsTable (layout : Layout ν) (u : Undefined w) (t : Table w ν) : Prop
    extends Inv layout u t where
  load : 3 * (t.used + t.dirty) < 2 * t.size

def CanGrow (layout : Layout ν) (t : Table w ν) (expand : Nat) : Prop :=
  3 * (t.used + expand) < 2 ^ (layout.maxBits w + 1)

theorem checkForCleanUp_spec (h : Inv layout u t) (hload : 3 * (t.used + t.dirty) < 2 * t.size)
    {expand : Nat} (hexpand : expand ≤ 1) (hgrow : CanGrow layout t expand)
    : ∃ t', t.checkForCleanUp layout u expand = some t' ∧ Inv layout u t' ∧ SameEntries u t t'
        ∧ t'.used = t.used ∧ 3 * (t'.used + expand + t'.dirty) < 2 * t'.size := by
  have hsize := h.size_eq
  have hsize_le := h.size_le
  have hlt := h.lt_size
  have huint : ∀ x, x < 2 ^ 32 → w.uint x = x := by
    intro x hx
    unfold IntSize.uint
    apply Nat.mod_eq_of_lt
    cases w <;> simp only [IntSize.bits] <;> omega
  unfold checkForCleanUp
  dsimp only
  rw [huint _ (by omega), huint _ (by omega), huint _ (by omega)]
  split
  . next hge =>
    -- The bound on the entries says that the new size can be computed.
    have hbits : t.bits + 1 ≤ layout.maxBits w := by
      by_contra hbits
      have hle := Nat.pow_le_pow_right (n := 2) (by decide)
        (show layout.maxBits w + 1 ≤ t.bits + 1 by omega)
      unfold CanGrow at hgrow
      rw [Nat.pow_succ 2 t.bits] at hle
      omega
    obtain ⟨t', heq, hinv', hsame, _, hsize', hused', hdirty'⟩ :=
      resize_spec h hbits (by rw [Nat.pow_succ]; omega)
    refine ⟨t', heq, hinv', hsame, hused', ?_⟩
    rw [Nat.pow_succ] at hsize'
    omega
  . split
    . obtain ⟨t', heq, hinv', hsame, _, hsize', hused', hdirty'⟩ :=
        resize_spec h h.bits_le (by omega)
      exact ⟨t', heq, hinv', hsame, hused', by omega⟩
    . exact ⟨t, rfl, h, fun _ _ => Iff.rfl, rfl, by omega⟩

theorem SameEntries.not_mem {t' : Table w ν} (h : SameEntries u t t') (k : Key u)
    (hnew : ∀ s ∈ t.slots, s.key ≠ k.obj)
    : ∀ s ∈ t'.slots, s.key ≠ k.obj := by
  intro s hs hkey
  rw [h s (Key.isLive k hkey)] at hs
  exact hnew s hs hkey

theorem add_spec (h : IsTable layout u t) (k : Key u) (val : ν)
    (hnew : ∀ s ∈ t.slots, s.key ≠ k.obj) (hgrow : CanGrow layout t 1)
    : ∃ t₁ t', t.checkForCleanUp layout u 1 = some t₁ ∧ t₁.addNew layout u k.obj val = some t'
        ∧ IsTable layout u t' ∧ Inserts u t t' ⟨k.obj, val⟩ := by
  obtain ⟨t₁, heq₁, hinv₁, hsame, _, hload₁⟩ :=
    checkForCleanUp_spec h.toInv h.load (le_refl 1) hgrow
  obtain ⟨t', heq', hinv', hins, _, hsize', hused', hdirty'⟩ :=
    addNew_spec hinv₁ k val (hsame.not_mem k hnew) (by omega)
  refine ⟨t₁, t', heq₁, heq', ⟨hinv', by omega⟩, ?_⟩
  intro r hr
  rw [hins r hr, hsame r hr]

variable {pos : Nat}

theorem IsWrite.mem_iff_of_isLive {t' : Table w ν} {s r : Slot w ν} (h : IsWrite u t t' pos s)
    (hinv : Inv layout u t) (hpos : pos < t.slots.length) (hr : r.IsLive u)
    (hlive : t.slots[pos].IsLive u)
    : r ∈ t'.slots ↔ r = s ∨ (r ∈ t.slots ∧ r.key ≠ t.slots[pos].key) := by
  rw [h.mem_iff]
  constructor
  . intro hmem
    cases hmem with
    | inl heq => exact Or.inl heq
    | inr hmem =>
      obtain ⟨i, hi, hne, rfl⟩ := hmem
      exact Or.inr ⟨getElem_mem hi, fun hkey => hne (hinv.distinct i pos hi hpos hr hkey)⟩
  . intro hmem
    cases hmem with
    | inl heq => exact Or.inl heq
    | inr hmem =>
      obtain ⟨hmem, hkey⟩ := hmem
      obtain ⟨i, hi, rfl⟩ := getElem_of_mem hmem
      refine Or.inr ⟨i, hi, ?_, rfl⟩
      intro heq
      subst heq
      exact hkey rfl

section

variable (h : IsTable layout u t) (k : Key u) (hpos : pos < t.slots.length)
  (hkey : t.slots[pos].key = k.obj)

include h k hpos hkey

theorem delete_spec
    : ∃ t', t.delete layout u pos = some t' ∧ IsTable layout u t'
        ∧ ∀ r, r.IsLive u → (r ∈ t'.slots ↔ r ∈ t.slots ∧ r.key ≠ k.obj) := by
  have hlive := Key.isLive k hkey
  have hload := h.load
  have hlt := h.lt_size
  have hdel : (⟨u.obj, layout.zero⟩ : Slot w ν).IsDeleted u := rfl
  have hnlive := Slot.not_isLive_of_isDeleted hdel
  have hndel : ¬t.slots[pos].IsDeleted u :=
    fun hd => Slot.not_isLive_of_isDeleted hd hlive
  have hpos_used : 0 < t.used := by
    rw [h.used_eq, countP_pos_iff]
    exact ⟨_, getElem_mem hpos, by simpa using hlive⟩
  unfold delete
  generalize hw :
    { t.writeSlot pos ⟨u.obj, layout.zero⟩ with used := t.used - 1, dirty := t.dirty + 1 } = t₁
  have hwrite : IsWrite u t t₁ pos ⟨u.obj, layout.zero⟩ := by
    subst hw
    refine ⟨hpos, rfl, rfl, rfl, ?_, ?_⟩
    . rw [if_pos hlive, if_neg hnlive]
      rfl
    . rw [if_neg hndel, if_pos hdel]
      rfl
  have hused₁ : t₁.used = t.used - 1 := by
    rw [← hw]
  have hdirty₁ : t₁.dirty = t.dirty + 1 := by
    rw [← hw]
  have hsize₁ := hwrite.size_eq
  have hinv₁ : Inv layout u t₁ := by
    apply hwrite.inv h.toInv
    . exact u.obj_ne
    . exact fun hl => absurd hl hnlive
    . intro i hi hl heq
      unfold Slot.IsLive at hl
      rw [heq] at hl
      exact absurd rfl hl.2
    . omega
  obtain ⟨t', heq', hinv', hsame, _, hload'⟩ :=
    checkForCleanUp_spec hinv₁ (by omega) (Nat.zero_le 1) (by
      have hle := Nat.pow_le_pow_right (n := 2) (by decide)
        (show t.bits + 1 ≤ layout.maxBits w + 1 from Nat.succ_le_succ h.bits_le)
      have hsize := h.size_eq
      unfold CanGrow
      rw [Nat.pow_succ] at hle
      omega)
  refine ⟨t', heq', ⟨hinv', by omega⟩, ?_⟩
  intro r hr
  rw [hsame r hr, hwrite.mem_iff_of_isLive h.toInv hpos hr hlive, hkey]
  have : r ≠ ⟨u.obj, layout.zero⟩ := fun heq => hnlive (heq ▸ hr)
  tauto

theorem writeSlot_spec (val : ν)
    : IsTable layout u (t.writeSlot pos { t.slots[pos] with val := val })
        ∧ ∀ r, r.IsLive u
          → (r ∈ (t.writeSlot pos { t.slots[pos] with val := val }).slots
              ↔ r = ⟨k.obj, val⟩ ∨ (r ∈ t.slots ∧ r.key ≠ k.obj)) := by
  have hlive := Key.isLive k hkey
  have hlt := h.lt_size
  have hndel : ¬t.slots[pos].IsDeleted u :=
    fun hd => Slot.not_isLive_of_isDeleted hd hlive
  have hs : ({ t.slots[pos] with val := val } : Slot w ν) = ⟨k.obj, val⟩ := by
    rw [← hkey]
  have hlive' : (⟨k.obj, val⟩ : Slot w ν).IsLive u := Key.isLive k rfl
  have hndel' : ¬(⟨k.obj, val⟩ : Slot w ν).IsDeleted u :=
    fun hd => Slot.not_isLive_of_isDeleted hd hlive'
  rw [hs]
  have hpos_used : 0 < t.used := by
    rw [h.used_eq, countP_pos_iff]
    exact ⟨_, getElem_mem hpos, by simpa using hlive⟩
  have hwrite : IsWrite u t (t.writeSlot pos ⟨k.obj, val⟩) pos ⟨k.obj, val⟩ := by
    refine ⟨hpos, rfl, rfl, rfl, ?_, ?_⟩
    . rw [if_pos hlive, if_pos hlive']
      simp only [writeSlot]
      omega
    . rw [if_neg hndel, if_neg hndel']
      rfl
  constructor
  . constructor
    . apply hwrite.inv h.toInv
      . exact fun hn => Slot.not_isLive_of_isNull hn hlive'
      . intro _
        rw [← hkey]
        apply h.reachable pos hpos hlive
      . intro i hi hl heq
        apply h.distinct i pos hi hpos hl
        rw [heq, hkey]
      . exact hlt
    . exact h.load
  . intro r hr
    rw [hwrite.mem_iff_of_isLive h.toInv hpos hr hlive, hkey]

end

theorem keys_spec (h : Inv layout u t)
    : ∃ l, t.keys layout u = some l ∧ l.len = l.elms.length ∧ l.elms.Nodup
        ∧ ∀ x, x ∈ l.elms ↔ ∃ s ∈ t.slots, s.IsLive u ∧ s.key = x := by
  refine ⟨_, by unfold keys; rw [h.readSlots_eq]; rfl, ?_, ?_, ?_⟩
  . dsimp only
    rw [length_map, ← countP_eq_length_filter, h.used_eq]
  . dsimp only
    unfold List.Nodup
    rw [pairwise_map, pairwise_filter]
    apply h.pairwise.imp
    intro a b hab ha hb
    exact hab (by simpa using ha) (by simpa using hb)
  . intro x
    rw [mem_map]
    constructor
    . intro ⟨s, hs, hkey⟩
      rw [mem_filter] at hs
      exact ⟨s, hs.1, by simpa using hs.2, hkey⟩
    . intro ⟨s, hs, hlive, hkey⟩
      exact ⟨s, by rw [mem_filter]; exact ⟨hs, by simpa using hlive⟩, hkey⟩

end Table
