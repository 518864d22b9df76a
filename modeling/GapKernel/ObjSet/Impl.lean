import GapKernel.IntObj

/-!
This module contains the bags of object sets and object maps. Both are hash tables with open
addressing; a slot of a set is one word, a slot of a map is a key and a value.
-/

-- An object is a machine word, the null pointer is `0`.
abbrev Obj (w : IntSize) := BitVec w.bits

structure Undefined (w : IntSize) where
  obj : Obj w
  obj_ne : obj ≠ 0

structure Key {w : IntSize} (u : Undefined w) where
  obj : Obj w
  obj_ne_null : obj ≠ 0
  obj_ne_undefined : obj ≠ u.obj
  deriving DecidableEq

structure Slot (w : IntSize) (ν : Type) where
  key : Obj w
  val : ν
  deriving DecidableEq

namespace Slot

variable {w : IntSize} {ν : Type}

def IsNull (s : Slot w ν) : Prop :=
  s.key = 0

def IsDeleted (u : Undefined w) (s : Slot w ν) : Prop :=
  s.key = u.obj

def IsLive (u : Undefined w) (s : Slot w ν) : Prop :=
  s.key ≠ 0 ∧ s.key ≠ u.obj

instance (s : Slot w ν) : Decidable s.IsNull :=
  inferInstanceAs (Decidable (_ = _))

instance (u : Undefined w) (s : Slot w ν) : Decidable (s.IsDeleted u) :=
  inferInstanceAs (Decidable (_ = _))

instance (u : Undefined w) (s : Slot w ν) : Decidable (s.IsLive u) :=
  inferInstanceAs (Decidable (_ ∧ _))

variable {u : Undefined w} {s : Slot w ν}

theorem not_isLive_of_isNull (h : s.IsNull) : ¬s.IsLive u :=
  fun hl => hl.1 h

theorem not_isLive_of_isDeleted (h : s.IsDeleted u)
    : ¬s.IsLive u :=
  fun hl => hl.2 h

theorem not_isDeleted_of_isNull (h : s.IsNull)
    : ¬s.IsDeleted u := by
  intro hd
  apply u.obj_ne
  rw [← hd]
  apply h

theorem isLive_of_not (hn : ¬s.IsNull) (hd : ¬s.IsDeleted u)
    : s.IsLive u :=
  ⟨hn, hd⟩

end Slot

/--
What differs between sets and maps: the number of words of a slot, the value of a slot in a new
bag, and whether the slots are read from the last one to the first one when the table is resized.
-/
structure Layout (ν : Type) where
  words : Nat
  zero : ν
  downwards : Bool
  words_eq : words = 1 ∨ words = 2

structure Table (w : IntSize) (ν : Type) where
  size : Nat
  bits : Nat
  used : Nat
  dirty : Nat
  slots : List (Slot w ν)
  deriving DecidableEq

namespace IntSize

-- A value that is stored in a `UInt`.
def uint (w : IntSize) (x : Nat) : Nat :=
  x % 2 ^ w.bits

def sizeofBag (w : IntSize) : Nat :=
  w.bits / 8

-- `(UInt)(1 << bits)`, the shift is done in `int`.
def shiftOne (w : IntSize) (bits : Nat) : Nat :=
  ((1#32 <<< bits).signExtend w.bits).toNat

end IntSize

def fibHashMult (w : IntSize) : Obj w :=
  match w with
  | .int4 => 0x9e3779b9#32
  | .int8 => 0x9e3779b97f4a7c13#64

def fibHash {w : IntSize} (word : Obj w) (bits : Nat) : Nat :=
  ((word * fibHashMult w) >>> (w.bits - bits)).toNat

theorem fibHash_lt {w : IntSize} (word : Obj w) {bits : Nat} (h : bits ≤ w.bits)
    : fibHash word bits < 2 ^ bits := by
  unfold fibHash
  rw [BitVec.toNat_ushiftRight, Nat.shiftRight_eq_div_pow]
  rw [Nat.div_lt_iff_lt_mul (Nat.two_pow_pos _), ← Nat.pow_add]
  have := (word * fibHashMult w).isLt
  rwa [Nat.add_sub_cancel' h]

/-!
This section contains what the functions for sets and the functions for maps have in common. A
result `none` stands for a loop that does not end or an access outside of the bag.
-/

namespace Table

variable {w : IntSize} {ν : Type}

-- `NewBag` is taken to succeed.
def newBag (layout : Layout ν) (size bits : Nat) : Table w ν :=
  let bytes := w.uint ((4 + layout.words * size) * w.sizeofBag)
  {
    size := size
    bits := bits
    used := 0
    dirty := 0
    slots := List.replicate ((bytes / w.sizeofBag - 4) / layout.words) ⟨0, layout.zero⟩
  }

-- The number of a slot is converted to `int`.
def readSlot (layout : Layout ν) (t : Table w ν) (hash : Nat) : Option (Slot w ν) :=
  if layout.words * hash + (layout.words - 1) < 2 ^ 31 then
    t.slots[hash]?
  else
    none

def writeSlot (t : Table w ν) (hash : Nat) (s : Slot w ν) : Table w ν :=
  { t with slots := t.slots.set hash s }

def objHash (t : Table w ν) (obj : Obj w) : Nat :=
  fibHash obj t.bits

-- The loop has come back to its first slot after `size` steps, then it does not end.
def findObj (layout : Layout ν) (t : Table w ν) (obj : Obj w) : Option Int :=
  go t.size (t.objHash obj)
where
  go (fuel hash : Nat) : Option Int :=
    match fuel with
    | 0 => none
    | fuel + 1 =>
      match t.readSlot layout hash with
      | none => none
      | some current =>
        if current.IsNull then
          some (-1)
        else if current.key = obj then
          some hash
        else
          go fuel (if hash + 1 ≥ t.size then 0 else hash + 1)

def addNew (layout : Layout ν) (u : Undefined w) (t : Table w ν) (key : Obj w) (val : ν)
    : Option (Table w ν) :=
  go t.size (t.objHash key)
where
  go (fuel hash : Nat) : Option (Table w ν) :=
    match fuel with
    | 0 => none
    | fuel + 1 =>
      match t.readSlot layout hash with
      | none => none
      | some current =>
        if current.IsNull then
          some { t.writeSlot hash ⟨key, val⟩ with used := t.used + 1 }
        else if current.IsDeleted u then
          some { t.writeSlot hash ⟨key, val⟩ with used := t.used + 1, dirty := t.dirty - 1 }
        else
          go fuel (if hash + 1 ≥ t.size then 0 else hash + 1)

-- The slots that a loop from `0` to `size - 1` reads.
def readSlots (layout : Layout ν) (t : Table w ν) : Option (List (Slot w ν)) :=
  (List.range t.size).mapM (t.readSlot layout)

def addLive (layout : Layout ν) (u : Undefined w) (t : Table w ν) (s : Slot w ν)
    : Option (Table w ν) :=
  if s.IsLive u then t.addNew layout u s.key s.val else some t

def resize (layout : Layout ν) (u : Undefined w) (t : Table w ν) (bits : Nat)
    : Option (Table w ν) := do
  let slots ← t.readSlots layout
  let slots := if layout.downwards then slots.reverse else slots
  slots.foldlM (addLive layout u) (newBag layout (w.shiftOne bits) bits)

def checkForCleanUp (layout : Layout ν) (u : Undefined w) (t : Table w ν) (expand : Nat)
    : Option (Table w ν) :=
  let used := t.used + expand
  if w.uint (used * 3) ≥ w.uint (t.size * 2) then
    t.resize layout u (t.bits + 1)
  else if t.dirty ≠ 0
      ∧ (t.dirty ≥ used ∨ w.uint ((t.dirty + used) * 3) ≥ w.uint (t.size * 2)) then
    t.resize layout u t.bits
  else
    some t

-- What happens to an entry that was found at `pos` and is removed.
def delete (layout : Layout ν) (u : Undefined w) (t : Table w ν) (pos : Nat)
    : Option (Table w ν) :=
  checkForCleanUp layout u
    { t.writeSlot pos ⟨u.obj, layout.zero⟩ with used := t.used - 1, dirty := t.dirty + 1 } 0

structure Plist (w : IntSize) where
  len : Nat
  elms : List (Obj w)
  deriving DecidableEq

-- The keys of a table, in the order of their slots.
def keys (layout : Layout ν) (u : Undefined w) (t : Table w ν) : Option (Plist w) := do
  let slots ← t.readSlots layout
  some { len := t.used, elms := (slots.filter (·.IsLive u)).map (·.key) }

end Table

namespace ObjSet

variable {w : IntSize}

def layout : Layout Unit where
  words := 1
  zero := ()
  downwards := true
  words_eq := by decide

def newObjSet : Table w Unit :=
  Table.newBag layout 4 2

def findObjSet (set : Table w Unit) (obj : Obj w) : Option Int :=
  set.findObj layout obj

def addObjSetNew (u : Undefined w) (set : Table w Unit) (obj : Obj w) : Option (Table w Unit) :=
  set.addNew layout u obj ()

def checkObjSetForCleanUp (u : Undefined w) (set : Table w Unit) (expand : Nat)
    : Option (Table w Unit) :=
  set.checkForCleanUp layout u expand

def addObjSet (u : Undefined w) (set : Table w Unit) (obj : Obj w) : Option (Table w Unit) := do
  if (← findObjSet set obj) ≥ 0 then
    some set
  else
    let set ← checkObjSetForCleanUp u set 1
    addObjSetNew u set obj

def removeObjSet (u : Undefined w) (set : Table w Unit) (obj : Obj w) : Option (Table w Unit) := do
  let pos ← findObjSet set obj
  if pos ≥ 0 then
    set.delete layout u pos.toNat
  else
    some set

def clearObjSet (_set : Table w Unit) : Table w Unit :=
  newObjSet

def objSetValues (u : Undefined w) (set : Table w Unit) : Option (Table.Plist w) :=
  set.keys layout u

end ObjSet

namespace ObjMap

variable {w : IntSize}

def layout : Layout (Obj w) where
  words := 2
  zero := 0
  downwards := false
  words_eq := by decide

def newObjMap : Table w (Obj w) :=
  Table.newBag layout 4 2

def findObjMap (map : Table w (Obj w)) (obj : Obj w) : Option Int :=
  map.findObj layout obj

def lookupObjMap (map : Table w (Obj w)) (obj : Obj w) : Option (Obj w) := do
  let index ← findObjMap map obj
  if index < 0 then
    some 0
  else
    let slot ← map.readSlot layout index.toNat
    some slot.val

def addObjMapNew (u : Undefined w) (map : Table w (Obj w)) (key value : Obj w)
    : Option (Table w (Obj w)) :=
  map.addNew layout u key value

def checkObjMapForCleanUp (u : Undefined w) (map : Table w (Obj w)) (expand : Nat)
    : Option (Table w (Obj w)) :=
  map.checkForCleanUp layout u expand

def addObjMap (u : Undefined w) (map : Table w (Obj w)) (key value : Obj w)
    : Option (Table w (Obj w)) := do
  let pos ← findObjMap map key
  if pos ≥ 0 then
    let slot ← map.readSlot layout pos.toNat
    some (map.writeSlot pos.toNat { slot with val := value })
  else
    let map ← checkObjMapForCleanUp u map 1
    addObjMapNew u map key value

def removeObjMap (u : Undefined w) (map : Table w (Obj w)) (key : Obj w)
    : Option (Table w (Obj w)) := do
  let pos ← findObjMap map key
  if pos ≥ 0 then
    map.delete layout u pos.toNat
  else
    some map

def clearObjMap (_map : Table w (Obj w)) : Table w (Obj w) :=
  newObjMap

def objMapKeys (u : Undefined w) (map : Table w (Obj w)) : Option (Table.Plist w) :=
  map.keys layout u

end ObjMap
