import GapKernel.BalTree.Impl
import Mathlib.Data.List.Nodup
import Mathlib.Data.List.Perm.Subperm

open List Function

namespace BalTree

inductive Shape (E : Type) where
  | nil
  | node (l : Shape E) (p : Ptr) (x : E) (r : Shape E)

namespace Shape

variable {E : Type}

def ptr : Shape E → Option Ptr
  | nil => none
  | node _ p _ _ => some p

def entries : Shape E → List (Ptr × E)
  | nil => []
  | node l p x r => l.entries ++ (p, x) :: r.entries

def ptrs (t : Shape E) : List Ptr :=
  t.entries.map Prod.fst

def items (t : Shape E) : List E :=
  t.entries.map Prod.snd

def size (t : Shape E) : Nat :=
  t.entries.length

def Balanced : Shape E → Prop
  | nil => True
  | node l _ _ r =>
    l.Balanced ∧ r.Balanced ∧ l.size ≤ r.size + 1 ∧ r.size ≤ l.size + 1

def Holds (h : Ptr → Option (Node E)) : Shape E → Prop
  | nil => True
  | node l p x r =>
    h p = some { left := l.ptr, right := r.ptr, item := some x } ∧ l.Holds h ∧ r.Holds h

@[simp]
theorem ptr_node (l r : Shape E) (p : Ptr) (x : E) : (node l p x r).ptr = some p := by
  rfl

@[simp]
theorem ptrs_nil : (nil : Shape E).ptrs = [] := by
  rfl

@[simp]
theorem ptrs_node (l r : Shape E) (p : Ptr) (x : E)
    : (node l p x r).ptrs = l.ptrs ++ p :: r.ptrs := by
  simp [ptrs, entries]

@[simp]
theorem items_nil : (nil : Shape E).items = [] := by
  rfl

@[simp]
theorem items_node (l r : Shape E) (p : Ptr) (x : E)
    : (node l p x r).items = l.items ++ x :: r.items := by
  simp [items, entries]

@[simp]
theorem size_nil : (nil : Shape E).size = 0 := by
  rfl

@[simp]
theorem size_node (l r : Shape E) (p : Ptr) (x : E)
    : (node l p x r).size = l.size + r.size + 1 := by
  simp [size, entries]
  omega

theorem length_ptrs (t : Shape E) : t.ptrs.length = t.size := by
  simp [ptrs, size]

theorem length_items (t : Shape E) : t.items.length = t.size := by
  simp [items, size]

variable {h : Ptr → Option (Node E)} {t : Shape E}

theorem Holds.congr {h' : Ptr → Option (Node E)} (ht : t.Holds h) (heq : ∀ p ∈ t.ptrs, h' p = h p)
    : t.Holds h' := by
  induction t with
  | nil => trivial
  | node l p x r ihl ihr =>
    simp only [ptrs_node, mem_append, mem_cons] at heq
    refine ⟨?_, ?_, ?_⟩
    . rw [heq p (by simp)]
      exact ht.1
    . apply ihl ht.2.1
      intro q hq
      exact heq q (Or.inl hq)
    . apply ihr ht.2.2
      intro q hq
      exact heq q (Or.inr (Or.inr hq))

theorem Holds.heap_ne_none (ht : t.Holds h) {p : Ptr} (hp : p ∈ t.ptrs) : h p ≠ none := by
  induction t with
  | nil => simp at hp
  | node l q x r ihl ihr =>
    rw [ptrs_node, mem_append, mem_cons] at hp
    rcases hp with hl | rfl | hr
    . exact ihl ht.2.1 hl
    . rw [ht.1]
      simp
    . exact ihr ht.2.2 hr

theorem Holds.update (ht : t.Holds h) {p : Ptr} (hp : p ∉ t.ptrs) (n : Option (Node E))
    : t.Holds (Function.update h p n) := by
  apply ht.congr
  intro a ha
  apply Function.update_of_ne
  rintro rfl
  exact hp ha

end Shape

inductive Ctx (E : Type) where
  | top
  | left (c : Ctx E) (p : Ptr) (x : E) (r : Shape E)
  | right (c : Ctx E) (l : Shape E) (p : Ptr) (x : E)

namespace Ctx

variable {E : Type}

def fill : Ctx E → Shape E → Shape E
  | top, t => t
  | left c p x r, t => c.fill (.node t p x r)
  | right c l p x, t => c.fill (.node l p x t)

def loc : Ctx E → NodeAddr
  | top => .root
  | left _ p _ _ => .left p
  | right _ _ p _ => .right p

def before : Ctx E → List (Ptr × E)
  | top => []
  | left c _ _ _ => c.before
  | right c l p x => c.before ++ l.entries ++ [(p, x)]

def after : Ctx E → List (Ptr × E)
  | top => []
  | left c p x r => (p, x) :: r.entries ++ c.after
  | right c _ _ _ => c.after

def ptrs (d : Ctx E) : List Ptr :=
  d.before.map Prod.fst ++ d.after.map Prod.fst

def Holds (root : Option Ptr) (h : Ptr → Option (Node E)) : Ctx E → Option Ptr → Prop
  | top, q => root = q
  | left c p x r, q =>
    h p = some { left := q, right := r.ptr, item := some x } ∧ r.Holds h ∧ c.Holds root h (some p)
  | right c l p x, q =>
    h p = some { left := l.ptr, right := q, item := some x } ∧ l.Holds h ∧ c.Holds root h (some p)

section

variable (d : Ctx E) (t : Shape E)

include d t

theorem entries_fill
    : (d.fill t).entries = d.before ++ t.entries ++ d.after := by
  induction d generalizing t with
  | top => simp [fill, before, after]
  | left c p x r ih => simp [fill, before, after, ih, Shape.entries]
  | right c l p x ih => simp [fill, before, after, ih, Shape.entries]

theorem ptrs_fill
    : (d.fill t).ptrs = d.before.map Prod.fst ++ t.ptrs ++ d.after.map Prod.fst := by
  simp [Shape.ptrs, entries_fill]

theorem items_fill
    : (d.fill t).items = d.before.map Prod.snd ++ t.items ++ d.after.map Prod.snd := by
  simp [Shape.items, entries_fill]

theorem size_fill
    : (d.fill t).size = t.size + d.before.length + d.after.length := by
  simp [Shape.size, entries_fill]
  omega

theorem ptrs_fill_perm : (d.fill t).ptrs.Perm (d.ptrs ++ t.ptrs) := by
  rw [ptrs_fill]
  unfold ptrs
  rw [append_assoc, append_assoc]
  apply List.Perm.append_left
  apply perm_append_comm

end

@[simp]
theorem ptrs_left (d : Ctx E) (p : Ptr) (x : E) (r : Shape E) (q : Ptr)
    : q ∈ (left d p x r).ptrs ↔ q = p ∨ q ∈ r.ptrs ∨ q ∈ d.ptrs := by
  simp only [ptrs, before, after, Shape.ptrs, cons_append, map_cons, map_append,
    mem_append, mem_cons]
  tauto

@[simp]
theorem ptrs_right (d : Ctx E) (l : Shape E) (p : Ptr) (x : E) (q : Ptr)
    : q ∈ (right d l p x).ptrs ↔ q = p ∨ q ∈ l.ptrs ∨ q ∈ d.ptrs := by
  simp only [ptrs, before, after, Shape.ptrs, map_append, mem_append, map_cons,
    map_nil, mem_singleton]
  tauto

theorem holds_fill {root : Option Ptr} {h : Ptr → Option (Node E)} {d : Ctx E} {t : Shape E}
    : root = (d.fill t).ptr ∧ (d.fill t).Holds h ↔ d.Holds root h t.ptr ∧ t.Holds h := by
  induction d generalizing t with
  | top => simp [fill, Holds]
  | left c p x r ih =>
    rw [fill, ih]
    simp only [Holds, Shape.Holds, Shape.ptr_node]
    tauto
  | right c l p x ih =>
    rw [fill, ih]
    simp only [Holds, Shape.Holds, Shape.ptr_node]
    tauto

theorem Holds.congr {root : Option Ptr} {h h' : Ptr → Option (Node E)} {d : Ctx E}
    {q : Option Ptr} (hd : d.Holds root h q) (heq : ∀ p ∈ d.ptrs, h' p = h p)
    : d.Holds root h' q := by
  induction d generalizing q with
  | top => exact hd
  | left c p x r ih =>
    simp only [ptrs_left] at heq
    refine ⟨?_, hd.2.1.congr ?_, ih hd.2.2 ?_⟩
    . rw [heq p (Or.inl rfl)]
      exact hd.1
    . intro a ha
      exact heq a (Or.inr (Or.inl ha))
    . intro a ha
      exact heq a (Or.inr (Or.inr ha))
  | right c l p x ih =>
    simp only [ptrs_right] at heq
    refine ⟨?_, hd.2.1.congr ?_, ih hd.2.2 ?_⟩
    . rw [heq p (Or.inl rfl)]
      exact hd.1
    . intro a ha
      exact heq a (Or.inr (Or.inl ha))
    . intro a ha
      exact heq a (Or.inr (Or.inr ha))

def comp (c : Ctx E) : Ctx E → Ctx E
  | top => c
  | left d p x r => left (c.comp d) p x r
  | right d l p x => right (c.comp d) l p x

theorem fill_comp (c d : Ctx E) (t : Shape E) : (c.comp d).fill t = c.fill (d.fill t) := by
  induction d generalizing t with
  | top => rfl
  | left d p x r ih => exact ih _
  | right d l p x ih => exact ih _

def depth : Ctx E → Nat
  | top => 0
  | left c _ _ _ => c.depth + 1
  | right c _ _ _ => c.depth + 1

theorem depth_comp (c d : Ctx E) : (c.comp d).depth = c.depth + d.depth := by
  induction d with
  | top => rfl
  | left d p x r ih => exact congrArg (· + 1) ih
  | right d l p x ih => exact congrArg (· + 1) ih

theorem comp_assoc (b c d : Ctx E) : (b.comp c).comp d = b.comp (c.comp d) := by
  induction d with
  | top => rfl
  | left d p x r ih =>
    exact congrArg (left · p x r) ih
  | right d l p x ih =>
    exact congrArg (right · l p x) ih

theorem before_comp (c d : Ctx E) : (c.comp d).before = c.before ++ d.before := by
  induction d with
  | top => simp [comp, before]
  | left d p x r ih => exact ih
  | right d l p x ih => simp [comp, before, ih]

theorem after_comp (c d : Ctx E) : (c.comp d).after = d.after ++ c.after := by
  induction d with
  | top => simp [comp, after]
  | left d p x r ih => simp [comp, after, ih]
  | right d l p x ih => exact ih

end Ctx

end BalTree

namespace BalTree

variable {E : Type}

structure Rep (s : BalTree E) (T : Shape E) : Prop where
  root : s.root = T.ptr
  holds : T.Holds s.heap
  nodup : T.ptrs.Nodup
  allocated : ∀ p, s.heap p ≠ none ↔ p ∈ T.ptrs
  bounds : ∀ p ∈ T.ptrs, 0 < p ∧ p < s.next
  next_pos : 0 < s.next

structure Valid (s : BalTree E) (T : Shape E) : Prop extends Rep s T where
  nodes : s.nodes = T.size

namespace Rep

variable {s : BalTree E} {T t : Shape E} {d : Ctx E}

section

variable (hs : Rep s (d.fill t))

include hs

theorem ctx_holds : d.Holds s.root s.heap t.ptr :=
  (Ctx.holds_fill.mp ⟨hs.root, hs.holds⟩).1

theorem hole_holds : t.Holds s.heap :=
  (Ctx.holds_fill.mp ⟨hs.root, hs.holds⟩).2

theorem ctx_nodup : d.ptrs.Nodup :=
  ((d.ptrs_fill_perm t).nodup_iff.mp hs.nodup).of_append_left

theorem hole_nodup : t.ptrs.Nodup :=
  ((d.ptrs_fill_perm t).nodup_iff.mp hs.nodup).of_append_right

end

variable {p : Ptr}

theorem not_mem_ctx (hs : Rep s (d.fill t)) (hp : p ∈ t.ptrs) : p ∉ d.ptrs := by
  intro hd
  have hdisjoint := nodup_append'.mp ((d.ptrs_fill_perm t).nodup_iff.mp hs.nodup)
  exact hdisjoint.2.2 hd hp

theorem mem_fill : p ∈ (d.fill t).ptrs ↔ p ∈ d.ptrs ∨ p ∈ t.ptrs := by
  rw [(d.ptrs_fill_perm t).mem_iff, mem_append]

theorem heap_eq_none (hs : Rep s T) (hp : p ∉ T.ptrs) : s.heap p = none := by
  rw [← hs.allocated p] at hp
  simpa using hp

theorem heap_pseudoroot (hs : Rep s T) : s.heap pseudoroot = none := by
  apply hs.heap_eq_none
  intro h
  have := hs.bounds _ h
  simp [pseudoroot] at this

theorem size_lt_fuel (hs : Rep s T) : T.size < s.fuel := by
  have hsub : T.ptrs ⊆ List.range s.next := by
    intro p hp
    rw [mem_range]
    exact (hs.bounds p hp).2
  have hle := (subperm_of_subset hs.nodup hsub).length_le
  rw [T.length_ptrs, length_range] at hle
  unfold fuel
  omega

theorem of_fill (hctx : d.Holds s.root s.heap t.ptr) (hhole : t.Holds s.heap)
    (hnodup : (d.ptrs ++ t.ptrs).Nodup)
    (hallocated : ∀ p, s.heap p ≠ none ↔ p ∈ d.ptrs ∨ p ∈ t.ptrs)
    (hbounds : ∀ p, p ∈ d.ptrs ∨ p ∈ t.ptrs → 0 < p ∧ p < s.next) (hnext : 0 < s.next)
    : Rep s (d.fill t) where
  root := (Ctx.holds_fill.mpr ⟨hctx, hhole⟩).1
  holds := (Ctx.holds_fill.mpr ⟨hctx, hhole⟩).2
  nodup := (d.ptrs_fill_perm t).nodup_iff.mpr hnodup
  allocated := by
    intro p
    rw [mem_fill]
    exact hallocated p
  bounds := by
    intro p hp
    exact hbounds p (mem_fill.mp hp)
  next_pos := hnext

end Rep

variable {s : BalTree E}

theorem Rep.size_hole_lt_fuel {d : Ctx E} {t : Shape E} (hs : Rep s (d.fill t))
    : t.size < s.fuel := by
  have := hs.size_lt_fuel
  rw [Ctx.size_fill] at this
  omega

variable {p : Ptr} {n : Node E}

theorem node_of_heap (hp : s.heap p = some n)
    : s.node p = .ok n := by
  unfold node
  rw [hp]
  rfl

theorem item_of_heap {l r : Option Ptr} {x : E}
    (hp : s.heap p = some { left := l, right := r, item := some x }) : s.item p = .ok x := by
  unfold item
  rw [node_of_heap hp, ok_bind]
  rfl

theorem setLeft_of_heap (hp : s.heap p = some n) (q : Option Ptr)
    : s.setLeft p q = .ok (s.setNode p { n with left := q }) := by
  unfold setLeft
  rw [node_of_heap hp, ok_bind]
  rfl

theorem setRight_of_heap (hp : s.heap p = some n) (q : Option Ptr)
    : s.setRight p q = .ok (s.setNode p { n with right := q }) := by
  unfold setRight
  rw [node_of_heap hp, ok_bind]
  rfl

theorem setItem_of_heap (hp : s.heap p = some n) (x : E)
    : s.setItem p x = .ok (s.setNode p { n with item := some x }) := by
  unfold setItem
  rw [node_of_heap hp, ok_bind]
  rfl

namespace Ctx

variable {s : BalTree E} {d : Ctx E} {q : Option Ptr}

theorem Holds.read (hd : d.Holds s.root s.heap q) : s.read d.loc = .ok q := by
  unfold BalTree.read
  cases d with
  | top =>
    rw [← hd]
    rfl
  | left d p x r =>
    dsimp only [loc]
    rw [node_of_heap hd.1, ok_bind]
    rfl
  | right d l p x =>
    dsimp only [loc]
    rw [node_of_heap hd.1, ok_bind]
    rfl

variable {p : Ptr}

theorem left_nodup {x : E} {r : Shape E} (h : (left d p x r).ptrs.Nodup)
    : p ∉ r.ptrs ∧ p ∉ d.ptrs := by
  have hperm : (left d p x r).ptrs.Perm (p :: (d.before.map Prod.fst ++ r.ptrs
      ++ d.after.map Prod.fst)) := by
    simp only [ptrs, before, after, map_append, map_cons, cons_append,
      append_assoc]
    apply perm_middle
  rw [hperm.nodup_iff, nodup_cons] at h
  simp only [mem_append, not_or] at h
  simp only [ptrs, mem_append, not_or]
  tauto

theorem right_nodup {x : E} {l : Shape E} (h : (right d l p x).ptrs.Nodup)
    : p ∉ l.ptrs ∧ p ∉ d.ptrs := by
  have hperm : (right d l p x).ptrs.Perm (p :: (d.before.map Prod.fst ++ l.ptrs
      ++ d.after.map Prod.fst)) := by
    simp only [ptrs, before, after, map_append, map_cons, map_nil,
      append_assoc, cons_append, nil_append]
    rw [← append_assoc, ← append_assoc]
    apply perm_middle
  rw [hperm.nodup_iff, nodup_cons] at h
  simp only [mem_append, not_or] at h
  simp only [ptrs, mem_append, not_or]
  tauto

theorem Holds.update {root : Option Ptr} {h : Ptr → Option (Node E)} (hd : d.Holds root h q)
    (hp : p ∉ d.ptrs) (n : Option (Node E))
    : d.Holds root (Function.update h p n) q := by
  apply hd.congr
  intro a ha
  apply Function.update_of_ne
  rintro rfl
  exact hp ha

theorem Holds.write (hd : d.Holds s.root s.heap q) (hnodup : d.ptrs.Nodup) (q' : Option Ptr)
    : ∃ root' h', s.write d.loc q' = .ok { s with root := root', heap := h' } ∧
        d.Holds root' h' q' ∧ (∀ p ∉ d.ptrs, h' p = s.heap p) ∧
        ∀ p, h' p ≠ none ↔ s.heap p ≠ none := by
  have hframe (p : Ptr) (n : Node E) (hp : p ∈ d.ptrs) :
      ∀ a ∉ d.ptrs, Function.update s.heap p (some n) a = s.heap a := by
    intro a ha
    apply Function.update_of_ne
    rintro rfl
    exact ha hp
  have hallocated (p : Ptr) (n m : Node E) (hp : s.heap p = some m) :
      ∀ a, Function.update s.heap p (some n) a ≠ none ↔ s.heap a ≠ none := by
    intro a
    by_cases ha : a = p
    . subst ha
      rw [update_self, hp]
      simp
    . rw [Function.update_of_ne ha]
  cases d with
  | top => exact ⟨q', s.heap, rfl, rfl, by simp, by simp⟩
  | left d p x r =>
    have hnotMem := left_nodup hnodup
    refine ⟨s.root, Function.update s.heap p (some ⟨q', r.ptr, some x⟩), ?_, ?_, ?_, ?_⟩
    . dsimp only [loc, BalTree.write]
      rw [setLeft_of_heap hd.1]
      rfl
    . exact ⟨update_self _ _ _, hd.2.1.update hnotMem.1 _, hd.2.2.update hnotMem.2 _⟩
    . apply hframe _ _ (by simp)
    . apply hallocated _ _ _ hd.1
  | right d l p x =>
    have hnotMem := right_nodup hnodup
    refine ⟨s.root, Function.update s.heap p (some ⟨l.ptr, q', some x⟩), ?_, ?_, ?_, ?_⟩
    . dsimp only [loc, BalTree.write]
      rw [setRight_of_heap hd.1]
      rfl
    . exact ⟨update_self _ _ _, hd.2.1.update hnotMem.1 _, hd.2.2.update hnotMem.2 _⟩
    . apply hframe _ _ (by simp)
    . apply hallocated _ _ _ hd.1

end Ctx

theorem Valid.setItem {d : Ctx E} {l r : Shape E} {y : E} (hs : Valid s (d.fill (.node l p y r)))
    (x : E)
    : ∃ s', s.setItem p x = .ok s' ∧ Valid s' (d.fill (.node l p x r)) := by
  have hp : p ∈ (Shape.node l p y r).ptrs := by
    simp
  have hnodup := hs.toRep.hole_nodup
  have hnodup' := hnodup
  rw [Shape.ptrs_node, nodup_append', nodup_cons, disjoint_cons_right] at hnodup'
  have hholds := hs.toRep.hole_holds
  refine ⟨_, setItem_of_heap hholds.1 x, Rep.of_fill ?_ ?_ ?_ ?_ ?_ hs.next_pos, ?_⟩
  . exact hs.toRep.ctx_holds.update (hs.toRep.not_mem_ctx hp) _
  . exact ⟨update_self _ _ _, hholds.2.1.update hnodup'.2.2.1 _,
      hholds.2.2.update hnodup'.2.1.1 _⟩
  . have := (d.ptrs_fill_perm _).nodup_iff.mp hs.nodup
    rw [Shape.ptrs_node] at this
    rw [Shape.ptrs_node]
    exact this
  . intro a
    rw [Shape.ptrs_node, ← Shape.ptrs_node l r p y, ← Rep.mem_fill, ← hs.allocated]
    unfold setNode
    dsimp only
    by_cases ha : a = p
    . subst ha
      rw [update_self, hholds.1]
      simp
    . rw [Function.update_of_ne ha]
  . intro a ha
    rw [Shape.ptrs_node, ← Shape.ptrs_node l r p y, ← Rep.mem_fill] at ha
    exact hs.bounds a ha
  . change s.nodes = _
    rw [hs.nodes, Ctx.size_fill, Ctx.size_fill, Shape.size_node, Shape.size_node]

end BalTree
