import GapKernel.ObjSet.Lemmas.Resize
import Mathlib.Data.Finmap

open Finset Option

namespace Table

variable {w : IntSize} {ν : Type} {layout : Layout ν} {u : Undefined w} {t : Table w ν}

theorem Key.obj_injective : Function.Injective (Key.obj : Key u → Obj w) := by
  intro k k' h
  cases k
  cases k'
  simp_all

theorem used_eq_card (h : Inv layout u t) (s : Finset (Key u))
    (hmem : ∀ k, k ∈ s ↔ ∃ r ∈ t.slots, r.key = k.obj)
    : t.used = s.card := by
  obtain ⟨l, hkeys, hlen, hnodup, hl⟩ := keys_spec h
  have hused : l.len = t.used := by
    unfold keys at hkeys
    rw [h.readSlots_eq] at hkeys
    simp only [bind_eq_bind, bind_some, Option.some.injEq] at hkeys
    rw [← hkeys]
  have himage : s.image Key.obj = l.elms.toFinset := by
    ext x
    rw [mem_image, List.mem_toFinset, hl]
    constructor
    . intro ⟨k, hk, hx⟩
      obtain ⟨r, hr, hkey⟩ := (hmem k).mp hk
      exact ⟨r, hr, Key.isLive k hkey, by rw [hkey, hx]⟩
    . intro ⟨r, hr, hlive, hx⟩
      obtain ⟨k, hk⟩ := Key.of_isLive hlive
      exact ⟨k, (hmem k).mpr ⟨r, hr, hk⟩, by rw [← hk, hx]⟩
  rw [← hused, hlen, ← List.toFinset_card_of_nodup hnodup, ← himage]
  apply card_image_of_injective
  apply Key.obj_injective

structure IsConsistent (layout : Layout ν) (u : Undefined w) (t : Table w ν) : Prop where
  used_eq : t.used = t.slots.countP (·.IsLive u)
  dirty_eq : t.dirty = t.slots.countP (·.IsDeleted u)
  size_eq : t.size = 2 ^ t.bits
  length_eq : t.slots.length = t.size
  exists_null : ∃ s ∈ t.slots, s.IsNull
  addNew_ends : ∀ (k : Key u) val, ∃ t', t.addNew layout u k.obj val = some t'

theorem IsTable.isConsistent (h : IsTable layout u t) : IsConsistent layout u t := by
  constructor
  . apply h.used_eq
  . apply h.dirty_eq
  . apply h.size_eq
  . apply h.length_eq
  . apply h.exists_null
  . intro k val
    obtain ⟨t', _, _, heq, _⟩ := addNew_isWrite h.toInv k val
    exact ⟨t', heq⟩

theorem newBag_isTable (layout : Layout ν) (u : Undefined w)
    : IsTable layout u (newBag layout 4 2 : Table w ν) := by
  constructor
  . show Inv layout u (newBag layout (2 ^ 2) 2)
    apply newBag_inv layout u
    have := layout.words_eq
    unfold Layout.maxBits
    cases w <;> simp only
    . omega
    . omega
  . simp [newBag]

end Table

namespace ObjSet

open Table

inductive SetOp {w : IntSize} (u : Undefined w) where
  | find (k : Key u)
  | add (k : Key u)
  | remove (k : Key u)
  | clear

namespace SetOp

variable {w : IntSize} {u : Undefined w}

def exec (set : Table w Unit) (op : SetOp u) : Option (Table w Unit) :=
  match op with
  | find k => (findObjSet set k.obj).map fun _ => set
  | add k => addObjSet u set k.obj
  | remove k => removeObjSet u set k.obj
  | clear => some (clearObjSet set)

def run (ops : List (SetOp u)) : Option (Table w Unit) :=
  ops.foldlM exec newObjSet

def apply (s : Finset (Key u)) (op : SetOp u) : Finset (Key u) :=
  match op with
  | find _ => s
  | add k => insert k s
  | remove k => s.erase k
  | clear => ∅

def Fits (s : Finset (Key u)) (op : SetOp u) : Prop :=
  match op with
  | add k => k ∈ s ∨ 3 * (s.card + 1) < 2 ^ (layout.maxBits w + 1)
  | _ => True

def FitAll (s : Finset (Key u)) (ops : List (SetOp u)) : Prop :=
  match ops with
  | [] => True
  | op :: ops => op.Fits s ∧ FitAll (op.apply s) ops

end SetOp

variable {w : IntSize} {u : Undefined w} {t : Table w Unit} {s : Finset (Key u)}

structure IsObjSet (u : Undefined w) (t : Table w Unit) (s : Finset (Key u)) : Prop where
  find : ∀ k : Key u, ∃ pos, findObjSet t k.obj = some pos ∧ (0 ≤ pos ↔ k ∈ s)
  values : ∃ l, objSetValues u t = some l ∧ l.len = l.elms.length ∧ l.elms.Nodup
    ∧ ∀ x, x ∈ l.elms ↔ ∃ k ∈ s, k.obj = x
  isConsistent : IsConsistent layout u t

structure Holds (u : Undefined w) (t : Table w Unit) (s : Finset (Key u)) : Prop
    extends IsTable layout u t where
  mem_iff : ∀ k : Key u, k ∈ s ↔ ⟨k.obj, ()⟩ ∈ t.slots

theorem mem_slots_iff (k : Key u) : ⟨k.obj, ()⟩ ∈ t.slots ↔ ∃ r ∈ t.slots, r.key = k.obj := by
  constructor
  . intro h
    exact ⟨_, h, rfl⟩
  . intro ⟨r, hr, hkey⟩
    rwa [← hkey]

theorem Holds.find_spec (h : Holds u t s) (k : Key u)
    : (k ∈ s ∧ ∃ pos, ∃ hpos : pos < t.slots.length,
        t.slots[pos].key = k.obj ∧ findObjSet t k.obj = some (pos : Int))
      ∨ (k ∉ s ∧ (∀ r ∈ t.slots, r.key ≠ k.obj) ∧ findObjSet t k.obj = some (-1)) := by
  rw [h.mem_iff, mem_slots_iff]
  cases findObj_spec h.toInv k with
  | inl hfound =>
    obtain ⟨pos, hpos, hkey, heq⟩ := hfound
    exact Or.inl ⟨⟨_, List.getElem_mem hpos, hkey⟩, pos, hpos, hkey, heq⟩
  | inr hnone =>
    obtain ⟨hnew, heq⟩ := hnone
    exact Or.inr ⟨fun ⟨r, hr, hkey⟩ => hnew r hr hkey, hnew, heq⟩

theorem Holds.isObjSet (h : Holds u t s) : IsObjSet u t s := by
  constructor
  . intro k
    cases h.find_spec k with
    | inl hfound =>
      obtain ⟨hk, pos, _, _, heq⟩ := hfound
      exact ⟨pos, heq, by simp [hk]⟩
    | inr hnone => exact ⟨-1, hnone.2.2, by simp [hnone.1]⟩
  . obtain ⟨l, heq, hlen, hnodup, hl⟩ := keys_spec h.toInv
    refine ⟨l, heq, hlen, hnodup, ?_⟩
    intro x
    rw [hl]
    constructor
    . intro ⟨r, hr, hlive, hkey⟩
      obtain ⟨k, hk⟩ := Key.of_isLive hlive
      exact ⟨k, by rw [h.mem_iff, mem_slots_iff]; exact ⟨r, hr, hk⟩, by rw [← hk, hkey]⟩
    . intro ⟨k, hk, hx⟩
      rw [h.mem_iff] at hk
      exact ⟨_, hk, Key.isLive k rfl, hx⟩
  . apply h.toIsTable.isConsistent

theorem holds_newObjSet : Holds u newObjSet ∅ := by
  constructor
  . apply newBag_isTable
  . intro k
    rw [mem_slots_iff]
    simp only [notMem_empty, false_iff]
    intro ⟨r, hr, hkey⟩
    unfold newObjSet newBag at hr
    rw [List.eq_of_mem_replicate hr] at hkey
    exact k.obj_ne_null hkey.symm

theorem Holds.exec (h : Holds u t s) (op : SetOp u) (hfits : op.Fits s)
    : ∃ t', op.exec t = some t' ∧ Holds u t' (op.apply s) := by
  cases op with
  | find k =>
    obtain ⟨pos, heq, _⟩ := h.isObjSet.find k
    exact ⟨t, by simp [SetOp.exec, heq], h⟩
  | add k =>
    simp only [SetOp.exec, SetOp.apply, addObjSet]
    cases h.find_spec k with
    | inl hfound =>
      obtain ⟨hk, pos, _, _, heq⟩ := hfound
      refine ⟨t, by simp [heq], ?_⟩
      rwa [insert_eq_of_mem hk]
    | inr hnone =>
      obtain ⟨hk, hnew, heq⟩ := hnone
      have hcard : t.used = s.card :=
        used_eq_card h.toInv s (fun k => by rw [h.mem_iff, mem_slots_iff])
      have hgrow : CanGrow layout t 1 := by
        unfold CanGrow
        rw [hcard]
        apply hfits.resolve_left hk
      obtain ⟨t₁, t', heq₁, heq', htable, hins⟩ := add_spec h.toIsTable k () hnew hgrow
      refine ⟨t', by simp [heq, checkObjSetForCleanUp, heq₁, addObjSetNew, heq'], htable, ?_⟩
      intro k'
      rw [hins _ (Key.isLive k' rfl), mem_insert, h.mem_iff]
      simp [Key.obj_injective.eq_iff]
  | remove k =>
    simp only [SetOp.exec, SetOp.apply, removeObjSet]
    cases h.find_spec k with
    | inl hfound =>
      obtain ⟨hk, pos, hpos, hkey, heq⟩ := hfound
      obtain ⟨t', heq', htable, hmem⟩ := delete_spec h.toIsTable k hpos hkey
      refine ⟨t', by simp [heq, heq'], htable, ?_⟩
      intro k'
      rw [hmem _ (Key.isLive k' rfl), mem_erase, h.mem_iff]
      simp only [ne_eq, Key.obj_injective.eq_iff]
      tauto
    | inr hnone =>
      obtain ⟨hk, _, heq⟩ := hnone
      refine ⟨t, by simp [heq], ?_⟩
      rwa [erase_eq_of_notMem hk]
  | clear => exact ⟨_, rfl, holds_newObjSet⟩

theorem Holds.foldlM (h : Holds u t s) (ops : List (SetOp u)) (hfits : SetOp.FitAll s ops)
    : ∃ t', ops.foldlM SetOp.exec t = some t' ∧ Holds u t' (ops.foldl SetOp.apply s) := by
  induction ops generalizing t s with
  | nil => exact ⟨t, rfl, h⟩
  | cons op ops ih =>
    obtain ⟨t₁, heq₁, h₁⟩ := h.exec op hfits.1
    obtain ⟨t', heq', h'⟩ := ih h₁ hfits.2
    refine ⟨t', ?_, h'⟩
    rw [List.foldlM_cons, heq₁]
    apply heq'

end ObjSet

namespace ObjMap

open Table

variable {w : IntSize} {u : Undefined w}

abbrev FiniteMap {w : IntSize} (u : Undefined w) := Finmap fun _ : Key u => Obj w

inductive MapOp {w : IntSize} (u : Undefined w) where
  | find (k : Key u)
  | lookup (k : Key u)
  | add (k : Key u) (value : Obj w)
  | remove (k : Key u)
  | clear

namespace MapOp

def exec (map : Table w (Obj w)) (op : MapOp u) : Option (Table w (Obj w)) :=
  match op with
  | find k => (findObjMap map k.obj).map fun _ => map
  | lookup k => (lookupObjMap map k.obj).map fun _ => map
  | add k value => addObjMap u map k.obj value
  | remove k => removeObjMap u map k.obj
  | clear => some (clearObjMap map)

def run (ops : List (MapOp u)) : Option (Table w (Obj w)) :=
  ops.foldlM exec newObjMap

def apply (m : FiniteMap u) (op : MapOp u) : FiniteMap u :=
  match op with
  | find _ => m
  | lookup _ => m
  | add k value => m.insert k value
  | remove k => m.erase k
  | clear => ∅

def Fits (m : FiniteMap u) (op : MapOp u) : Prop :=
  match op with
  | add k _ =>
    k ∈ m ∨ 3 * (m.keys.card + 1) < 2 ^ ((ObjMap.layout : Layout (Obj w)).maxBits w + 1)
  | _ => True

def FitAll (m : FiniteMap u) (ops : List (MapOp u)) : Prop :=
  match ops with
  | [] => True
  | op :: ops => op.Fits m ∧ FitAll (op.apply m) ops

end MapOp

variable {t : Table w (Obj w)} {m : FiniteMap u}

structure IsObjMap (u : Undefined w) (t : Table w (Obj w)) (m : FiniteMap u) : Prop where
  find : ∀ k : Key u, ∃ pos, findObjMap t k.obj = some pos ∧ (0 ≤ pos ↔ k ∈ m)
  lookup : ∀ k : Key u, lookupObjMap t k.obj = some ((m.lookup k).getD 0)
  keys : ∃ l, objMapKeys u t = some l ∧ l.len = l.elms.length ∧ l.elms.Nodup
    ∧ ∀ x, x ∈ l.elms ↔ ∃ k ∈ m, k.obj = x
  isConsistent : IsConsistent layout u t

structure Holds (u : Undefined w) (t : Table w (Obj w)) (m : FiniteMap u) : Prop
    extends IsTable layout u t where
  lookup_iff : ∀ (k : Key u) value, m.lookup k = some value ↔ ⟨k.obj, value⟩ ∈ t.slots

theorem Holds.mem_iff (h : Holds u t m) (k : Key u)
    : k ∈ m ↔ ∃ r ∈ t.slots, r.key = k.obj := by
  rw [Finmap.mem_iff]
  constructor
  . intro ⟨value, hv⟩
    rw [h.lookup_iff] at hv
    exact ⟨_, hv, rfl⟩
  . intro ⟨r, hr, hkey⟩
    refine ⟨r.val, ?_⟩
    rwa [h.lookup_iff, ← hkey]

theorem Holds.find_spec (h : Holds u t m) (k : Key u)
    : (∃ pos, ∃ hpos : pos < t.slots.length, t.slots[pos].key = k.obj
        ∧ m.lookup k = some t.slots[pos].val ∧ findObjMap t k.obj = some (pos : Int))
      ∨ (k ∉ m ∧ (∀ r ∈ t.slots, r.key ≠ k.obj) ∧ findObjMap t k.obj = some (-1)) := by
  rw [h.mem_iff]
  cases findObj_spec h.toInv k with
  | inl hfound =>
    obtain ⟨pos, hpos, hkey, heq⟩ := hfound
    refine Or.inl ⟨pos, hpos, hkey, ?_, heq⟩
    rw [h.lookup_iff, ← hkey]
    apply List.getElem_mem
  | inr hnone =>
    obtain ⟨hnew, heq⟩ := hnone
    exact Or.inr ⟨fun ⟨r, hr, hkey⟩ => hnew r hr hkey, hnew, heq⟩

theorem Holds.isObjMap (h : Holds u t m) : IsObjMap u t m := by
  constructor
  . intro k
    cases h.find_spec k with
    | inl hfound =>
      obtain ⟨pos, hpos, hkey, _, heq⟩ := hfound
      have hk : k ∈ m := by
        rw [h.mem_iff]
        exact ⟨_, List.getElem_mem hpos, hkey⟩
      exact ⟨pos, heq, by simp [hk]⟩
    | inr hnone => exact ⟨-1, hnone.2.2, by simp [hnone.1]⟩
  . intro k
    unfold lookupObjMap
    cases h.find_spec k with
    | inl hfound =>
      obtain ⟨pos, hpos, _, hlookup, heq⟩ := hfound
      have hread := h.readSlot_eq hpos
      rw [hlookup]
      simp [heq, hread]
    | inr hnone =>
      obtain ⟨hk, _, heq⟩ := hnone
      rw [Finmap.lookup_eq_none.mpr hk]
      simp [heq]
  . obtain ⟨l, heq, hlen, hnodup, hl⟩ := keys_spec h.toInv
    refine ⟨l, heq, hlen, hnodup, ?_⟩
    intro x
    rw [hl]
    constructor
    . intro ⟨r, hr, hlive, hkey⟩
      obtain ⟨k, hk⟩ := Key.of_isLive hlive
      exact ⟨k, by rw [h.mem_iff]; exact ⟨r, hr, hk⟩, by rw [← hk, hkey]⟩
    . intro ⟨k, hk, hx⟩
      rw [h.mem_iff] at hk
      obtain ⟨r, hr, hkey⟩ := hk
      exact ⟨r, hr, Key.isLive k hkey, by rw [hkey, hx]⟩
  . apply h.toIsTable.isConsistent

theorem holds_newObjMap : Holds u newObjMap ∅ := by
  constructor
  . apply newBag_isTable
  . intro k value
    simp only [Finmap.lookup_empty, reduceCtorEq, false_iff]
    intro hmem
    unfold newObjMap newBag at hmem
    have hkey := congrArg Slot.key (List.eq_of_mem_replicate hmem)
    exact k.obj_ne_null hkey

theorem lookup_insert_iff (k k' : Key u) (value value' : Obj w)
    : (m.insert k value).lookup k' = some value'
        ↔
      (k' = k ∧ value' = value) ∨ (m.lookup k' = some value' ∧ k' ≠ k) := by
  by_cases hk : k' = k
  . subst hk
    rw [Finmap.lookup_insert]
    simp [eq_comm]
  . rw [Finmap.lookup_insert_of_ne _ hk]
    simp [hk]

theorem Holds.exec (h : Holds u t m) (op : MapOp u) (hfits : op.Fits m)
    : ∃ t', op.exec t = some t' ∧ Holds u t' (op.apply m) := by
  cases op with
  | find k =>
    obtain ⟨pos, heq, _⟩ := h.isObjMap.find k
    exact ⟨t, by simp [MapOp.exec, heq], h⟩
  | lookup k => exact ⟨t, by simp [MapOp.exec, h.isObjMap.lookup k], h⟩
  | add k value =>
    simp only [MapOp.exec, MapOp.apply, addObjMap]
    cases h.find_spec k with
    | inl hfound =>
      obtain ⟨pos, hpos, hkey, _, heq⟩ := hfound
      obtain ⟨htable, hmem⟩ := writeSlot_spec h.toIsTable k hpos hkey value
      have hread := h.readSlot_eq hpos
      refine ⟨_, by simp [heq, hread], htable, ?_⟩
      intro k' value'
      rw [hmem _ (Key.isLive k' rfl), lookup_insert_iff, h.lookup_iff]
      simp [Key.obj_injective.eq_iff]
    | inr hnone =>
      obtain ⟨hk, hnew, heq⟩ := hnone
      have hcard : t.used = m.keys.card :=
        used_eq_card h.toInv m.keys (fun k => by rw [Finmap.mem_keys, h.mem_iff])
      have hgrow : CanGrow layout t 1 := by
        unfold CanGrow
        rw [hcard]
        apply hfits.resolve_left hk
      obtain ⟨t₁, t', heq₁, heq', htable, hins⟩ := add_spec h.toIsTable k value hnew hgrow
      refine ⟨t', by simp [heq, checkObjMapForCleanUp, heq₁, addObjMapNew, heq'], htable, ?_⟩
      intro k' value'
      rw [hins _ (Key.isLive k' rfl), lookup_insert_iff, h.lookup_iff]
      simp only [Slot.mk.injEq, Key.obj_injective.eq_iff]
      have : ⟨k'.obj, value'⟩ ∈ t.slots → k' ≠ k := by
        intro hmem hkk
        rw [← h.lookup_iff, hkk] at hmem
        exact hk (Finmap.mem_of_lookup_eq_some hmem)
      tauto
  | remove k =>
    simp only [MapOp.exec, MapOp.apply, removeObjMap]
    cases h.find_spec k with
    | inl hfound =>
      obtain ⟨pos, hpos, hkey, _, heq⟩ := hfound
      obtain ⟨t', heq', htable, hmem⟩ := delete_spec h.toIsTable k hpos hkey
      refine ⟨t', by simp [heq, heq'], htable, ?_⟩
      intro k' value'
      rw [hmem _ (Key.isLive k' rfl)]
      simp only [ne_eq, Key.obj_injective.eq_iff]
      by_cases hk : k' = k
      . subst hk
        simp
      . rw [Finmap.lookup_erase_ne hk, h.lookup_iff]
        simp [hk]
    | inr hnone =>
      obtain ⟨hk, _, heq⟩ := hnone
      refine ⟨t, by simp [heq], ?_⟩
      have : m.erase k = m := by
        apply Finmap.ext_lookup
        intro k'
        by_cases hkk : k' = k
        . rw [hkk, Finmap.lookup_erase, Finmap.lookup_eq_none.mpr hk]
        . rw [Finmap.lookup_erase_ne hkk]
      rwa [this]
  | clear => exact ⟨_, rfl, holds_newObjMap⟩

theorem Holds.foldlM (h : Holds u t m) (ops : List (MapOp u)) (hfits : MapOp.FitAll m ops)
    : ∃ t', ops.foldlM MapOp.exec t = some t' ∧ Holds u t' (ops.foldl MapOp.apply m) := by
  induction ops generalizing t m with
  | nil => exact ⟨t, rfl, h⟩
  | cons op ops ih =>
    obtain ⟨t₁, heq₁, h₁⟩ := h.exec op hfits.1
    obtain ⟨t', heq', h'⟩ := ih h₁ hfits.2
    refine ⟨t', ?_, h'⟩
    rw [List.foldlM_cons, heq₁]
    apply heq'

end ObjMap

namespace ObjTable

open Table ObjSet ObjMap

variable {w : IntSize}

theorem isObjSet_isObjMap (u : Undefined w)
    : (∀ ops : List (SetOp u), SetOp.FitAll ∅ ops
        → ∃ set, SetOp.run ops = some set ∧ IsObjSet u set (ops.foldl SetOp.apply ∅))
      ∧ (∀ ops : List (MapOp u), MapOp.FitAll ∅ ops
        → ∃ map, MapOp.run ops = some map ∧ IsObjMap u map (ops.foldl MapOp.apply ∅)) := by
  constructor
  . intro ops hfits
    obtain ⟨set, heq, h⟩ := holds_newObjSet.foldlM ops hfits
    exact ⟨set, heq, h.isObjSet⟩
  . intro ops hfits
    obtain ⟨map, heq, h⟩ := holds_newObjMap.foldlM ops hfits
    exact ⟨map, heq, h.isObjMap⟩

def undefined8 : Undefined .int8 where
  obj := 8#64
  obj_ne := by
    show ¬8#64 = 0#64
    decide

def intKey (i : Nat) : Key undefined8 where
  obj := BitVec.ofNat 64 (4 * i + 1)
  obj_ne_null := by
    show ¬BitVec.ofNat 64 (4 * i + 1) = 0#64
    intro h
    have := congrArg BitVec.toNat h
    simp only [BitVec.toNat_ofNat] at this
    omega
  obj_ne_undefined := by
    show ¬BitVec.ofNat 64 (4 * i + 1) = 8#64
    intro h
    have := congrArg BitVec.toNat h
    simp only [BitVec.toNat_ofNat] at this
    omega

theorem isObjSet_isObjMap_addRemove
    : (∃ set, SetOp.run [.add (intKey 1), .add (intKey 2), .remove (intKey 1)] = some set
        ∧ IsObjSet undefined8 set
          ([SetOp.add (intKey 1), .add (intKey 2), .remove (intKey 1)].foldl SetOp.apply ∅))
      ∧ (∃ map, MapOp.run [.add (intKey 1) 5, .lookup (intKey 1), .clear] = some map
        ∧ IsObjMap undefined8 map
          ([MapOp.add (intKey 1) 5, .lookup (intKey 1), .clear].foldl MapOp.apply ∅)) := by
  constructor
  . apply (isObjSet_isObjMap undefined8).1
    simp [SetOp.FitAll, SetOp.Fits, SetOp.apply, Layout.maxBits]
  . apply (isObjSet_isObjMap undefined8).2
    simp [MapOp.FitAll, MapOp.Fits, Layout.maxBits]

def adds (n : Nat) : List (SetOp undefined8) :=
  (List.range n).map fun i => .add (intKey i)

theorem intKey_injOn (n : Nat) (hn : n ≤ 2 ^ 62) : Set.InjOn intKey (Finset.range n) := by
  intro i hi j hj h
  rw [mem_coe, mem_range] at hi hj
  have := congrArg (fun k => k.obj.toNat) h
  simp only [intKey, BitVec.toNat_ofNat, IntSize.bits] at this
  omega

theorem foldl_adds (n : Nat) : (adds n).foldl SetOp.apply ∅ = (Finset.range n).image intKey := by
  unfold adds
  induction n with
  | zero => rfl
  | succ n ih =>
    rw [List.range_succ, List.map_append, List.foldl_append, ih, range_add_one,
      image_insert]
    rfl

theorem fitAll_append {u : Undefined w} (s : Finset (Key u)) (ops ops' : List (SetOp u))
    : SetOp.FitAll s (ops ++ ops')
        ↔
      SetOp.FitAll s ops ∧ SetOp.FitAll (ops.foldl SetOp.apply s) ops' := by
  induction ops generalizing s with
  | nil => simp [SetOp.FitAll]
  | cons op ops ih =>
    rw [List.cons_append, SetOp.FitAll, SetOp.FitAll, ih, List.foldl_cons, and_assoc]

theorem fitAll_adds (n : Nat) (hn : 3 * n < 2 ^ 31) : SetOp.FitAll ∅ (adds n) := by
  induction n with
  | zero => trivial
  | succ n ih =>
    have heq : adds (n + 1) = adds n ++ [.add (intKey n)] := by
      unfold adds
      rw [List.range_succ, List.map_append]
      rfl
    rw [heq, fitAll_append, foldl_adds]
    refine ⟨ih (by omega), Or.inr ?_, trivial⟩
    have := card_image_le (s := Finset.range n) (f := intKey)
    rw [card_range] at this
    simp only [Layout.maxBits]
    omega

section Headers

variable {ν : Type} {layout : Layout ν} {u : Undefined w} {t t' : Table w ν}

def SameSize (t t' : Table w ν) : Prop :=
  t'.bits = t.bits ∧ t'.size = t.size

theorem sameSize_addNew {key : Obj w} {val : ν} (h : t.addNew layout u key val = some t')
    : SameSize t t' := by
  unfold addNew at h
  generalize t.size = fuel at h
  generalize t.objHash key = hash at h
  induction fuel generalizing hash with
  | zero => simp [addNew.go] at h
  | succ fuel ih =>
    rw [addNew.go] at h
    split at h
    . contradiction
    . split at h
      . cases h
        exact ⟨rfl, rfl⟩
      . split at h
        . cases h
          exact ⟨rfl, rfl⟩
        . exact ih _ h

theorem sameSize_foldlM {slots : List (Slot w ν)} (h : slots.foldlM (addLive layout u) t = some t')
    : SameSize t t' := by
  induction slots generalizing t with
  | nil =>
    cases h
    exact ⟨rfl, rfl⟩
  | cons s slots ih =>
    rw [List.foldlM_cons, bind_eq_bind, bind_eq_some_iff] at h
    obtain ⟨t₁, hadd, h⟩ := h
    have h₁ : SameSize t t₁ := by
      unfold addLive at hadd
      split at hadd
      . exact sameSize_addNew hadd
      . cases hadd
        exact ⟨rfl, rfl⟩
    have h₂ := ih h
    exact ⟨h₂.1.trans h₁.1, h₂.2.trans h₁.2⟩

theorem size_of_resize {bits : Nat} (h : t.resize layout u bits = some t')
    : t'.bits = bits ∧ t'.size = w.shiftOne bits := by
  unfold resize at h
  rw [bind_eq_bind, bind_eq_some_iff] at h
  obtain ⟨slots, _, h⟩ := h
  apply sameSize_foldlM h

end Headers

theorem size_of_exec_add {n : Nat} {t : Table .int8 Unit} (hn : n = 715827882)
    (h : ObjSet.Holds undefined8 t ((Finset.range n).image intKey)) {t' : Table .int8 Unit}
    (heq : SetOp.exec t (.add (intKey n)) = some t')
    : t'.bits = 31 ∧ t'.size = IntSize.shiftOne .int8 31 := by
  have hk : intKey n ∉ (Finset.range n).image intKey := by
    rw [mem_image]
    intro ⟨i, hi, hin⟩
    rw [mem_range] at hi
    have := intKey_injOn (n + 1) (by omega) (Finset.mem_coe.mpr (Finset.mem_range.mpr (by omega)))
      (Finset.mem_coe.mpr (Finset.mem_range.mpr (by omega))) hin
    omega
  have hcard : t.used = n := by
    rw [used_eq_card h.toInv _ (fun k => by rw [h.mem_iff, mem_slots_iff])]
    rw [card_image_of_injOn (intKey_injOn n (by omega)), card_range]
  have hload := h.load
  have hsize := h.size_eq
  have hbits_le := h.bits_le
  have hbits : t.bits = 30 := by
    simp only [Layout.maxBits] at hbits_le
    by_contra hne
    have := Nat.pow_le_pow_right (n := 2) (by decide) (show t.bits ≤ 29 by omega)
    omega
  rw [hbits] at hsize
  have hfind := (h.find_spec (intKey n)).resolve_left (fun hf => hk hf.1)
  simp only [SetOp.exec, addObjSet, hfind.2.2, bind_eq_bind, bind_some] at heq
  rw [if_neg (by decide), bind_eq_some_iff] at heq
  obtain ⟨t₁, hcheck, hadd⟩ := heq
  have hgrow : t.resize ObjSet.layout undefined8 31 = some t₁ := by
    unfold checkObjSetForCleanUp checkForCleanUp at hcheck
    rw [if_pos] at hcheck
    . rwa [hbits] at hcheck
    . rw [hcard, hn, hsize]
      decide
  obtain ⟨hb, hs⟩ := size_of_resize hgrow
  obtain ⟨hb', hs'⟩ := sameSize_addNew hadd
  exact ⟨hb'.trans hb, hs'.trans hs⟩

theorem not_isObjSet_adds
    : ¬∃ set, SetOp.run (adds 715827883) = some set
        ∧ IsObjSet undefined8 set ((adds 715827883).foldl SetOp.apply ∅) := by
  obtain ⟨n, hn⟩ : ∃ n, n = 715827882 := ⟨_, rfl⟩
  have heq : adds 715827883 = adds n ++ [.add (intKey n)] := by
    rw [show 715827883 = n + 1 by omega]
    unfold adds
    rw [List.range_succ, List.map_append]
    rfl
  intro ⟨set, hrun, hset⟩
  obtain ⟨t, hrun', h⟩ := holds_newObjSet.foldlM (adds n) (fitAll_adds n (by omega))
  rw [foldl_adds] at h
  unfold SetOp.run at hrun
  rw [heq, List.foldlM_append, hrun', Option.bind_eq_bind, Option.bind_some, List.foldlM_cons,
    Option.bind_eq_bind, Option.bind_eq_some_iff] at hrun
  obtain ⟨t', hexec, hrun⟩ := hrun
  cases hrun
  obtain ⟨hbits, hsize⟩ := size_of_exec_add hn h hexec
  have := hset.isConsistent.size_eq
  rw [hbits, hsize] at this
  exact absurd this (by decide)

end ObjTable
