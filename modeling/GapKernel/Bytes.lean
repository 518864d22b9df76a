import GapKernel.Fault
import Mathlib.Algebra.Group.Int.Defs
import Mathlib.Algebra.Group.Nat.Defs

/-!
This module contains the bytes of numbers in memory, arrays of numbers of one width, and the hash of
a part of a bag.
-/

open List

inductive ByteOrder where
  | little
  | big
  deriving DecidableEq, Repr

namespace Bytes

def littleEndian : Nat → Nat → List Nat
  | 0, _ => []
  | n + 1, v => v % 256 :: littleEndian n (v / 256)

def ofLittleEndian : List Nat → Nat
  | [] => 0
  | b :: bs => b + 256 * ofLittleEndian bs

def toBytes (o : ByteOrder) (n v : Nat) : List Nat :=
  match o with
  | .little => littleEndian n v
  | .big => (littleEndian n v).reverse

def ofBytes (o : ByteOrder) (bs : List Nat) : Nat :=
  match o with
  | .little => ofLittleEndian bs
  | .big => ofLittleEndian bs.reverse

def ofEntries (o : ByteOrder) (n : Nat) (entries : List Nat) : List Nat :=
  entries.flatMap (toBytes o n)

def entries (o : ByteOrder) (n k : Nat) (mem : List Nat) : List Nat :=
  (List.range k).map (fun i => ofBytes o ((mem.drop (n * i)).take n))

def readMem (o : ByteOrder) (n : Nat) (mem : List Nat) (pos : Nat) : Result Nat :=
  if pos + n ≤ mem.length then
    return ofBytes o ((mem.drop pos).take n)
  else
    throw .access

def writeMem (o : ByteOrder) (n : Nat) (mem : List Nat) (pos v : Nat) : Result (List Nat) :=
  if pos + n ≤ mem.length then
    return mem.take pos ++ toBytes o n v ++ mem.drop (pos + n)
  else
    throw .access

def memcmp (memL memR : List Nat) (n : Nat) : Result Int :=
  if n ≤ memL.length ∧ n ≤ memR.length then
    return if memL.take n = memR.take n then 0 else if memL.take n < memR.take n then -1 else 1
  else
    throw .access

variable {o : ByteOrder}

theorem length_littleEndian (n v : Nat) : (littleEndian n v).length = n := by
  induction n generalizing v with
  | zero => rfl
  | succ n ih =>
    unfold littleEndian
    rw [length_cons]
    rw [ih]

theorem ofLittleEndian_littleEndian (n v : Nat)
    : ofLittleEndian (littleEndian n v) = v % 256 ^ n := by
  induction n generalizing v with
  | zero =>
    rw [Nat.pow_zero]
    rw [Nat.mod_one]
    rfl
  | succ n ih =>
    unfold littleEndian ofLittleEndian
    rw [ih]
    rw [Nat.pow_succ']
    rw [Nat.mod_mul]

@[simp]
theorem length_toBytes (n v : Nat) : (toBytes o n v).length = n := by
  cases o with
  | little => apply length_littleEndian
  | big =>
    unfold toBytes
    rw [length_reverse]
    apply length_littleEndian

theorem ofBytes_toBytes (n v : Nat) : ofBytes o (toBytes o n v) = v % 256 ^ n := by
  cases o with
  | little => apply ofLittleEndian_littleEndian
  | big =>
    unfold ofBytes toBytes
    rw [reverse_reverse]
    apply ofLittleEndian_littleEndian

theorem ofEntries_cons (n v : Nat) (l : List Nat)
    : ofEntries o n (v :: l) = toBytes o n v ++ ofEntries o n l := by
  unfold ofEntries
  rw [flatMap_cons]

theorem ofEntries_append (n : Nat) (l l' : List Nat)
    : ofEntries o n (l ++ l') = ofEntries o n l ++ ofEntries o n l' := by
  unfold ofEntries
  rw [flatMap_append]

@[simp]
theorem length_ofEntries (n : Nat) (l : List Nat) : (ofEntries o n l).length = n * l.length := by
  induction l with
  | nil => rfl
  | cons v l ih =>
    rw [ofEntries_cons]
    rw [length_append]
    rw [ih]
    rw [length_toBytes]
    rw [length_cons]
    rw [Nat.mul_succ]
    rw [Nat.add_comm]

theorem take_ofEntries (n k : Nat) (l : List Nat)
    : (ofEntries o n l).take (n * k) = ofEntries o n (l.take k) := by
  by_cases hk : k ≤ l.length
  . have hlen : (ofEntries o n (l.take k)).length = n * k := by
      rw [length_ofEntries]
      rw [length_take_of_le hk]
    rw [← take_append_drop k l]
    rw [ofEntries_append]
    rw [← hlen]
    rw [take_left]
    rw [take_append_drop]
  . rw [take_of_length_le]
    . rw [take_of_length_le (by omega)]
    . rw [length_ofEntries]
      apply Nat.mul_le_mul_left
      omega

theorem drop_ofEntries (n k : Nat) (l : List Nat)
    : (ofEntries o n l).drop (n * k) = ofEntries o n (l.drop k) := by
  by_cases hk : k ≤ l.length
  . have hlen : (ofEntries o n (l.take k)).length = n * k := by
      rw [length_ofEntries]
      rw [length_take_of_le hk]
    rw [← take_append_drop k l]
    rw [ofEntries_append]
    rw [← hlen]
    rw [drop_left]
    rw [take_append_drop]
  . rw [drop_of_length_le]
    . rw [drop_of_length_le (by omega)]
      rfl
    . rw [length_ofEntries]
      apply Nat.mul_le_mul_left
      omega

theorem take_drop_ofEntries (n i : Nat) (l : List Nat) (hi : i < l.length)
    : ((ofEntries o n l).drop (n * i)).take n = toBytes o n l[i] := by
  rw [drop_ofEntries]
  rw [drop_eq_getElem_cons hi]
  rw [ofEntries_cons]
  apply take_left'
  apply length_toBytes

theorem entries_ofEntries (n k : Nat) (l : List Nat) (hk : k ≤ l.length)
    (hl : ∀ v ∈ l.take k, v < 256 ^ n)
    : entries o n k (ofEntries o n l) = l.take k := by
  apply ext_getElem
  . unfold entries
    simp [hk]
  . intro i hi hi'
    have hik : i < k := by
      rw [length_take] at hi'
      omega
    have hil : i < l.length := by
      omega
    simp only [entries, getElem_map, getElem_range]
    rw [take_drop_ofEntries n i l hil]
    rw [ofBytes_toBytes]
    rw [getElem_take]
    apply Nat.mod_eq_of_lt
    apply hl
    rw [mem_take_iff_getElem]
    exact ⟨i, by omega, rfl⟩

theorem ofEntries_injective (n : Nat) {l l' : List Nat} (hlen : l.length = l'.length)
    (hl : ∀ v ∈ l, v < 256 ^ n) (hl' : ∀ v ∈ l', v < 256 ^ n)
    (h : ofEntries o n l = ofEntries o n l') : l = l' := by
  have h1 := entries_ofEntries (o := o) n l.length l (Nat.le_refl _)
  have h2 := entries_ofEntries (o := o) n l'.length l' (Nat.le_refl _)
  rw [take_length] at h1 h2
  rw [← h1 hl]
  rw [← h2 hl']
  rw [h]
  rw [hlen]

theorem memcmp_ofEntries (n k : Nat) {l l' : List Nat} (hk : k ≤ l.length) (hk' : k ≤ l'.length)
    (hl : ∀ v ∈ l, v < 256 ^ n) (hl' : ∀ v ∈ l', v < 256 ^ n)
    : ∃ res, memcmp (ofEntries o n l) (ofEntries o n l') (k * n) = .ok res
        ∧ (res = 0 ↔ l.take k = l'.take k) := by
  unfold memcmp
  rw [length_ofEntries]
  rw [length_ofEntries]
  rw [Nat.mul_comm k n]
  rw [if_pos ⟨Nat.mul_le_mul_left n hk, Nat.mul_le_mul_left n hk'⟩]
  rw [take_ofEntries]
  rw [take_ofEntries]
  refine ⟨_, rfl, ?_⟩
  constructor
  . intro h
    by_cases heq : ofEntries o n (l.take k) = ofEntries o n (l'.take k)
    . apply ofEntries_injective n _ _ _ heq
      . rw [length_take_of_le hk]
        rw [length_take_of_le hk']
      . intro v hv
        apply hl
        apply mem_of_mem_take hv
      . intro v hv
        apply hl'
        apply mem_of_mem_take hv
    . rw [if_neg heq] at h
      split at h
      . contradiction
      . contradiction
  . intro h
    rw [h]
    rw [if_pos rfl]

end Bytes

def toInt32 (v : Nat) : Int :=
  if v % 2 ^ 32 < 2 ^ 31 then ((v % 2 ^ 32 : Nat) : Int) else ((v % 2 ^ 32 : Nat) : Int) - 2 ^ 32

/--
The hash function for the bytes is a parameter. For a negative number of bytes it would read in
front of them.
-/
def hashkeyBagNC (hashkeyMem : List Nat → Nat → Int) (mem : List Nat) (seed : Nat) (skip read : Int)
    : Result Int :=
  if 0 ≤ skip ∧ 0 ≤ read ∧ skip + read ≤ mem.length then
    return hashkeyMem ((mem.drop skip.toNat).take read.toNat) seed
  else
    throw .access

theorem toInt32_eq {v : Nat} (h : v < 2 ^ 31) : toInt32 v = v := by
  unfold toInt32
  rw [Nat.mod_eq_of_lt (by omega)]
  rw [if_pos h]
