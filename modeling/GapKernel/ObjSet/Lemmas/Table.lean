import GapKernel.LinearProbe
import GapKernel.ObjSet.Impl
import Mathlib.Tactic.IntervalCases

open List

-- A table of `2 ^ maxBits` slots is the largest one whose size and whose bytes can be computed.
def Layout.maxBits {ν : Type} (layout : Layout ν) (w : IntSize) : Nat :=
  match w with
  | .int4 => 30 - layout.words
  | .int8 => 30

namespace Table

open LinearProbe

variable {w : IntSize} {ν : Type} {layout : Layout ν} {u : Undefined w} {t : Table w ν}

theorem maxBits_le (layout : Layout ν) (w : IntSize) : layout.maxBits w ≤ 30 := by
  unfold Layout.maxBits
  cases w <;> simp

theorem shiftOne_eq (w : IntSize) {bits : Nat} (h : bits ≤ 30) : w.shiftOne bits = 2 ^ bits := by
  cases w with
  | int4 => interval_cases bits <;> rfl
  | int8 => interval_cases bits <;> rfl

theorem length_newBag (layout : Layout ν) {bits : Nat} (h : bits ≤ layout.maxBits w)
    : (newBag layout (2 ^ bits) bits : Table w ν).slots.length = 2 ^ bits := by
  have hwords := layout.words_eq
  have hwrap : (4 + layout.words * 2 ^ bits) * w.sizeofBag < 2 ^ w.bits := by
    have hpow : 2 ^ bits ≤ 2 ^ layout.maxBits w := Nat.pow_le_pow_right (by decide) h
    generalize 2 ^ bits = size at *
    cases w with
    | int4 =>
      simp only [Layout.maxBits, IntSize.sizeofBag, IntSize.bits] at *
      cases hwords with
      | inl hwords => rw [hwords] at hpow ⊢; omega
      | inr hwords => rw [hwords] at hpow ⊢; omega
    | int8 =>
      simp only [Layout.maxBits, IntSize.sizeofBag, IntSize.bits] at *
      cases hwords with
      | inl hwords => rw [hwords]; omega
      | inr hwords => rw [hwords]; omega
  have hbag : 0 < w.sizeofBag := by
    cases w <;> decide
  unfold newBag IntSize.uint
  simp only [length_replicate]
  rw [Nat.mod_eq_of_lt hwrap, Nat.mul_div_cancel _ hbag, Nat.add_sub_cancel_left]
  apply Nat.mul_div_cancel_left
  omega

theorem countP_add (u : Undefined w) (slots : List (Slot w ν))
    : slots.countP (·.IsNull) + slots.countP (·.IsLive u) + slots.countP (·.IsDeleted u)
        =
      slots.length := by
  induction slots with
  | nil => rfl
  | cons s slots ih =>
    simp only [countP_cons, length_cons, decide_eq_true_eq]
    by_cases hn : s.IsNull
    . rw [if_pos hn, if_neg (Slot.not_isLive_of_isNull hn), if_neg (Slot.not_isDeleted_of_isNull hn)]
      omega
    . rw [if_neg hn]
      by_cases hd : s.IsDeleted u
      . rw [if_neg (Slot.not_isLive_of_isDeleted hd), if_pos hd]
        omega
      . rw [if_pos (Slot.isLive_of_not hn hd), if_neg hd]
        omega

structure Inv (layout : Layout ν) (u : Undefined w) (t : Table w ν) : Prop where
  bits_le : t.bits ≤ layout.maxBits w
  size_eq : t.size = 2 ^ t.bits
  length_eq : t.slots.length = t.size
  used_eq : t.used = t.slots.countP (·.IsLive u)
  dirty_eq : t.dirty = t.slots.countP (·.IsDeleted u)
  lt_size : t.used + t.dirty < t.size
  distinct : ∀ i j (hi : i < t.slots.length) (hj : j < t.slots.length),
    t.slots[i].IsLive u → t.slots[i].key = t.slots[j].key → i = j
  reachable : ∀ i (hi : i < t.slots.length), t.slots[i].IsLive u
    → Reachable (·.IsNull) t.slots (t.objHash t.slots[i].key) i

theorem Key.isLive (k : Key u) {s : Slot w ν} (h : s.key = k.obj) : s.IsLive u := by
  unfold Slot.IsLive
  rw [h]
  exact ⟨k.obj_ne_null, k.obj_ne_undefined⟩

namespace Inv

variable (h : Inv layout u t)

include h

theorem size_le : t.size ≤ 2 ^ 30 := by
  rw [h.size_eq]
  apply Nat.pow_le_pow_right
  . decide
  . exact le_trans h.bits_le (maxBits_le layout w)

theorem objHash_lt (obj : Obj w) : t.objHash obj < t.slots.length := by
  rw [h.length_eq, h.size_eq]
  apply fibHash_lt
  have := le_trans h.bits_le (maxBits_le layout w)
  cases w <;> simp only [IntSize.bits] <;> omega

theorem readSlot_eq {hash : Nat} (hlt : hash < t.slots.length)
    : t.readSlot layout hash = some t.slots[hash] := by
  have hlen := h.length_eq
  have hle := h.size_le
  unfold readSlot
  rw [if_pos]
  . simp [hlt]
  . cases layout.words_eq with
    | inl hwords => rw [hwords]; omega
    | inr hwords => rw [hwords]; omega

theorem readSlots_eq : t.readSlots layout = some t.slots := by
  have htake : ∀ n, n ≤ t.slots.length
      → (List.range n).mapM (t.readSlot layout) = some (t.slots.take n) := by
    intro n
    induction n with
    | zero => simp
    | succ n ih =>
      intro hn
      rw [range_succ, mapM_append, ih (by omega), mapM_cons, h.readSlot_eq hn]
      rw [take_succ_eq_append_getElem hn]
      rfl
  unfold readSlots
  rw [← h.length_eq, htake _ (le_refl _), take_length]

theorem exists_null : ∃ s ∈ t.slots, s.IsNull := by
  have hadd := countP_add u t.slots
  have hused := h.used_eq
  have hdirty := h.dirty_eq
  have hlt := h.lt_size
  have hlen := h.length_eq
  have hpos : 0 < t.slots.countP (·.IsNull) := by omega
  rw [countP_pos_iff] at hpos
  simpa using hpos

end Inv

def FindStops (obj : Obj w) (s : Slot w ν) : Prop :=
  s.IsNull ∨ s.key = obj

instance (obj : Obj w) : DecidablePred (FindStops obj : Slot w ν → Prop) :=
  fun _ => inferInstanceAs (Decidable (_ ∨ _))

theorem findObj_go_skip (h : Inv layout u t) (obj : Obj w) (fuel pos : Nat)
    (hpos : pos < t.slots.length) (hstop : ¬FindStops obj t.slots[pos])
    : findObj.go layout t obj (fuel + 1) pos
        =
      findObj.go layout t obj fuel (next t.slots.length pos) := by
  unfold FindStops at hstop
  rw [not_or] at hstop
  rw [findObj.go, h.readSlot_eq hpos]
  dsimp only
  rw [if_neg hstop.1, if_neg hstop.2, h.length_eq]
  rfl

theorem findObj_spec (h : Inv layout u t) (k : Key u)
    : (∃ pos, ∃ hpos : pos < t.slots.length,
        t.slots[pos].key = k.obj ∧ t.findObj layout k.obj = some pos)
      ∨ ((∀ s ∈ t.slots, s.key ≠ k.obj) ∧ t.findObj layout k.obj = some (-1)) := by
  have hhash := h.objHash_lt k.obj
  obtain ⟨s, hs, hnull⟩ := h.exists_null
  have hstop : ∃ i, IsFirst (FindStops k.obj) t.slots (t.objHash k.obj) i :=
    exists_isFirst _ ⟨s, hs, Or.inl hnull⟩
  obtain ⟨i, hfirst⟩ := hstop
  obtain ⟨rest, hgo⟩ := hfirst.loop (findObj.go layout t k.obj) (findObj_go_skip h k.obj) t.size
    (t.objHash k.obj) hhash (by rw [← h.length_eq]; apply dist_lt hhash hfirst.lt)
  have hlt := hfirst.lt
  unfold findObj
  rw [hgo, findObj.go, h.readSlot_eq hlt]
  dsimp only
  by_cases hi : t.slots[i].IsNull
  . rw [if_pos hi]
    right
    refine ⟨?_, rfl⟩
    intro s hs hkey
    obtain ⟨j, hj, rfl⟩ := getElem_of_mem hs
    have hreach := h.reachable j hj (Key.isLive k hkey)
    rw [hkey] at hreach
    cases hfirst.eq_or_not_free hhash hj hreach (Or.inr hkey) with
    | inl hij =>
      subst hij
      apply Slot.not_isLive_of_isNull hi (Key.isLive k hkey)
    | inr hfree => exact hfree hi
  . have hkey := hfirst.stops.resolve_left hi
    rw [if_neg hi, if_pos hkey]
    left
    exact ⟨i, hlt, hkey, rfl⟩

def AddStops (u : Undefined w) (s : Slot w ν) : Prop :=
  s.IsNull ∨ s.IsDeleted u

instance (u : Undefined w) : DecidablePred (AddStops u : Slot w ν → Prop) :=
  fun _ => inferInstanceAs (Decidable (_ ∨ _))

theorem addNew_go_skip (h : Inv layout u t) (key : Obj w) (val : ν) (fuel pos : Nat)
    (hpos : pos < t.slots.length) (hstop : ¬AddStops u t.slots[pos])
    : addNew.go layout u t key val (fuel + 1) pos
        =
      addNew.go layout u t key val fuel (next t.slots.length pos) := by
  unfold AddStops at hstop
  rw [not_or] at hstop
  rw [addNew.go, h.readSlot_eq hpos]
  dsimp only
  rw [if_neg hstop.1, if_neg hstop.2, h.length_eq]
  rfl

structure IsWrite (u : Undefined w) (t t' : Table w ν) (pos : Nat) (s : Slot w ν) : Prop where
  lt : pos < t.slots.length
  bits_eq : t'.bits = t.bits
  size_eq : t'.size = t.size
  slots_eq : t'.slots = t.slots.set pos s
  used_eq : t'.used
    = t.used - (if t.slots[pos].IsLive u then 1 else 0) + (if s.IsLive u then 1 else 0)
  dirty_eq : t'.dirty
    = t.dirty - (if t.slots[pos].IsDeleted u then 1 else 0) + (if s.IsDeleted u then 1 else 0)

namespace IsWrite

variable {t' : Table w ν} {pos : Nat} {s : Slot w ν}

theorem mem_iff (h : IsWrite u t t' pos s) {r : Slot w ν}
    : r ∈ t'.slots ↔ r = s ∨ ∃ i, ∃ hi : i < t.slots.length, i ≠ pos ∧ t.slots[i] = r := by
  have hpos := h.lt
  rw [h.slots_eq, mem_iff_getElem]
  constructor
  . intro ⟨i, hi, heq⟩
    rw [length_set] at hi
    rw [getElem_set] at heq
    split at heq
    . left
      apply heq.symm
    . next hne => exact Or.inr ⟨i, hi, fun heq => hne heq.symm, heq⟩
  . intro hmem
    cases hmem with
    | inl heq => exact ⟨pos, by simpa using hpos, by simp [heq]⟩
    | inr hmem =>
      obtain ⟨i, hi, hne, heq⟩ := hmem
      exact ⟨i, by simpa using hi, by rw [getElem_set_ne (fun heq => hne heq.symm), heq]⟩

theorem inv (h : IsWrite u t t' pos s) (hinv : Inv layout u t) (hnull : ¬s.IsNull)
    (hreach : s.IsLive u → Reachable (·.IsNull) t.slots (t.objHash s.key) pos)
    (hkey : ∀ i (hi : i < t.slots.length), t.slots[i].IsLive u → t.slots[i].key = s.key → i = pos)
    (hroom : t'.used + t'.dirty < t.size)
    : Inv layout u t' := by
  have hpos := h.lt
  have hhash : ∀ obj, t'.objHash obj = t.objHash obj := by
    intro obj
    unfold objHash
    rw [h.bits_eq]
  have hset : ∀ i (hi : i < t'.slots.length) (hi' : i < t.slots.length),
      t'.slots[i] = if pos = i then s else t.slots[i] := by
    intro i hi hi'
    simp only [h.slots_eq]
    apply getElem_set
  have hlen : t'.slots.length = t.slots.length := by
    rw [h.slots_eq, length_set]
  constructor
  . rw [h.bits_eq]
    apply hinv.bits_le
  . rw [h.size_eq, h.bits_eq]
    apply hinv.size_eq
  . rw [hlen, h.size_eq]
    apply hinv.length_eq
  . rw [h.slots_eq, countP_set hpos, h.used_eq, hinv.used_eq]
    simp
  . rw [h.slots_eq, countP_set hpos, h.dirty_eq, hinv.dirty_eq]
    simp
  . rw [h.size_eq]
    apply hroom
  . intro i j hi hj hlive heq
    rw [hlen] at hi hj
    rw [hset i _ hi] at hlive heq
    rw [hset j _ hj] at heq
    by_cases hip : pos = i
    . by_cases hjp : pos = j
      . omega
      . rw [if_pos hip] at hlive heq
        rw [if_neg hjp] at heq
        have hlivej : t.slots[j].IsLive u := by
          unfold Slot.IsLive at hlive ⊢
          rwa [heq] at hlive
        exact absurd (hkey j hj hlivej heq.symm).symm hjp
    . rw [if_neg hip] at hlive heq
      by_cases hjp : pos = j
      . rw [if_pos hjp] at heq
        exact absurd (hkey i hi hlive heq).symm hip
      . rw [if_neg hjp] at heq
        apply hinv.distinct i j hi hj hlive heq
  . intro i hi hlive
    rw [hlen] at hi
    rw [hset i _ hi] at hlive ⊢
    rw [hhash, h.slots_eq]
    apply Reachable.set _ hnull
    by_cases hip : pos = i
    . rw [if_pos hip] at hlive ⊢
      rw [← hip]
      apply hreach hlive
    . rw [if_neg hip] at hlive ⊢
      apply hinv.reachable i hi hlive

end IsWrite

theorem addNew_isWrite (h : Inv layout u t) (k : Key u) (val : ν)
    : ∃ t' pos, ∃ hpos : pos < t.slots.length, t.addNew layout u k.obj val = some t'
        ∧ IsWrite u t t' pos ⟨k.obj, val⟩ ∧ ¬t.slots[pos].IsLive u
        ∧ Reachable (·.IsNull) t.slots (t.objHash k.obj) pos := by
  have hhash := h.objHash_lt k.obj
  obtain ⟨s, hs, hnull⟩ := h.exists_null
  have hstop : ∃ i, IsFirst (AddStops u) t.slots (t.objHash k.obj) i :=
    exists_isFirst _ ⟨s, hs, Or.inl hnull⟩
  obtain ⟨i, hfirst⟩ := hstop
  obtain ⟨rest, hgo⟩ := hfirst.loop (addNew.go layout u t k.obj val)
    (addNew_go_skip h k.obj val) t.size (t.objHash k.obj) hhash
    (by rw [← h.length_eq]; apply dist_lt hhash hfirst.lt)
  have hlt := hfirst.lt
  have hreach : Reachable (·.IsNull) t.slots (t.objHash k.obj) i :=
    hfirst.reachable (fun _ => Or.inl)
  have hlive : (⟨k.obj, val⟩ : Slot w ν).IsLive u := Key.isLive k rfl
  have hdel : ¬(⟨k.obj, val⟩ : Slot w ν).IsDeleted u :=
    fun hd => Slot.not_isLive_of_isDeleted hd hlive
  unfold addNew
  rw [hgo, addNew.go, h.readSlot_eq hlt]
  dsimp only
  by_cases hn : t.slots[i].IsNull
  . have hnlive := Slot.not_isLive_of_isNull (u := u) hn
    rw [if_pos hn]
    refine ⟨_, i, hlt, rfl, ⟨hlt, rfl, rfl, rfl, ?_, ?_⟩, hnlive, hreach⟩
    . rw [if_neg hnlive, if_pos hlive]
      rfl
    . rw [if_neg (Slot.not_isDeleted_of_isNull hn), if_neg hdel]
      rfl
  . have hd := hfirst.stops.resolve_left hn
    have hnlive := Slot.not_isLive_of_isDeleted hd
    rw [if_neg hn, if_pos hd]
    refine ⟨_, i, hlt, rfl, ⟨hlt, rfl, rfl, rfl, ?_, ?_⟩, hnlive, hreach⟩
    . rw [if_neg hnlive, if_pos hlive]
      rfl
    . rw [if_pos hd, if_neg hdel]
      rfl

def Inserts (u : Undefined w) (t t' : Table w ν) (s : Slot w ν) : Prop :=
  ∀ r, r.IsLive u → (r ∈ t'.slots ↔ r = s ∨ r ∈ t.slots)

theorem addNew_spec (h : Inv layout u t) (k : Key u) (val : ν)
    (hnew : ∀ s ∈ t.slots, s.key ≠ k.obj) (hroom : t.used + t.dirty + 1 < t.size)
    : ∃ t', t.addNew layout u k.obj val = some t' ∧ Inv layout u t' ∧ Inserts u t t' ⟨k.obj, val⟩
        ∧ t'.bits = t.bits ∧ t'.size = t.size ∧ t'.used = t.used + 1 ∧ t'.dirty ≤ t.dirty := by
  obtain ⟨t', pos, hpos, heq, hwrite, hnlive, hreach⟩ := addNew_isWrite h k val
  have hlive : (⟨k.obj, val⟩ : Slot w ν).IsLive u := Key.isLive k rfl
  have hdel : ¬(⟨k.obj, val⟩ : Slot w ν).IsDeleted u :=
    fun hd => Slot.not_isLive_of_isDeleted hd hlive
  have hused := hwrite.used_eq
  have hdirty := hwrite.dirty_eq
  rw [if_neg hnlive, if_pos hlive] at hused
  rw [if_neg hdel] at hdirty
  refine ⟨t', heq, ?_, ?_, hwrite.bits_eq, hwrite.size_eq, by omega, by omega⟩
  . apply hwrite.inv h
    . exact fun hn => Slot.not_isLive_of_isNull hn hlive
    . exact fun _ => hreach
    . intro i hi _ hkey
      exact absurd hkey (hnew _ (getElem_mem hi))
    . omega
  . intro r hr
    rw [hwrite.mem_iff]
    constructor
    . intro hmem
      cases hmem with
      | inl hmem => exact Or.inl hmem
      | inr hmem =>
        obtain ⟨i, hi, _, rfl⟩ := hmem
        exact Or.inr (getElem_mem hi)
    . intro hmem
      cases hmem with
      | inl hmem => exact Or.inl hmem
      | inr hmem =>
        obtain ⟨i, hi, rfl⟩ := getElem_of_mem hmem
        refine Or.inr ⟨i, hi, ?_, rfl⟩
        intro heq
        subst heq
        exact hnlive hr

end Table
