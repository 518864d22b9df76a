import GapKernel.BalTree.Lemmas.Remove
import Mathlib.Data.Set.Insert

open List Function

namespace BalTree

variable {E : Type} {s : BalTree E} {t : Shape E}

theorem deleteNodes_spec (t : Shape E) (fuel : Nat) (s : BalTree E) (ht : t.Holds s.heap)
    (hnodup : t.ptrs.Nodup) (hfuel : t.size < fuel)
    : ∃ h, deleteNodes fuel s t.ptr = .ok { s with heap := h } ∧ (∀ a ∈ t.ptrs, h a = none) ∧
        ∀ a ∉ t.ptrs, h a = s.heap a := by
  induction t generalizing fuel s with
  | nil =>
    obtain ⟨fuel, rfl⟩ := Nat.exists_eq_succ_of_ne_zero (Nat.ne_zero_of_lt hfuel)
    exact ⟨s.heap, rfl, by simp, by simp⟩
  | node l p x r ihl ihr =>
    obtain ⟨fuel, rfl⟩ := Nat.exists_eq_succ_of_ne_zero (Nat.ne_zero_of_lt hfuel)
    rw [Shape.size_node] at hfuel
    rw [Shape.ptrs_node, nodup_append', nodup_cons, disjoint_cons_right] at hnodup
    obtain ⟨h₁, hdelete₁, hnone₁, hframe₁⟩ := ihl fuel s ht.2.1 hnodup.1 (by omega)
    have hp₁ : h₁ p = some { left := l.ptr, right := r.ptr, item := some x } := by
      rw [hframe₁ p hnodup.2.2.1]
      exact ht.1
    have hr₁ : r.Holds h₁ := by
      apply ht.2.2.congr
      intro a ha
      exact hframe₁ a (fun hal => hnodup.2.2.2 hal ha)
    obtain ⟨h₂, hdelete₂, hnone₂, hframe₂⟩ :=
      ihr fuel { s with heap := h₁ } hr₁ hnodup.2.1.2 (by omega)
    refine ⟨update h₂ p none, ?_, ?_, ?_⟩
    . unfold deleteNodes
      dsimp only [Shape.ptr]
      rw [node_of_heap ht.1, ok_bind]
      rw [hdelete₁, ok_bind]
      rw [node_of_heap (s := { s with heap := h₁ }) hp₁, ok_bind]
      rw [hdelete₂]
      rfl
    . intro a ha
      rw [Shape.ptrs_node, mem_append, mem_cons] at ha
      by_cases hap : a = p
      . subst hap
        exact update_self _ _ _
      . rw [update_of_ne hap]
        by_cases har : a ∈ r.ptrs
        . exact hnone₂ a har
        . rw [hframe₂ a har]
          apply hnone₁
          tauto
    . intro a ha
      simp only [Shape.ptrs_node, mem_append, mem_cons, not_or] at ha
      rw [update_of_ne ha.2.1, hframe₂ a ha.2.2]
      exact hframe₁ a ha.1

def FindsIn (compare : E → E → Int) (s : BalTree E) (S : Set E) (x : E) : Option Ptr → Prop
  | none => ∀ y ∈ S, compare x y ≠ 0
  | some p => ∃ y ∈ S, s.item p = .ok y ∧ compare x y = 0

theorem findAux_spec {compare : E → E → Int} (hcompare : IsCompare compare) (x : E) (fuel : Nat)
    (d : Ctx E) (hs : Rep s (d.fill t)) (hd : d.Follows compare x)
    (hinc : Increasing compare (d.fill t).items) (hfuel : t.size < fuel)
    : ∃ p, findAux compare fuel s t.ptr x = .ok p ∧
        FindsIn compare s { y | y ∈ (d.fill t).items } x p := by
  induction t generalizing fuel d with
  | nil =>
    obtain ⟨fuel, rfl⟩ := Nat.exists_eq_succ_of_ne_zero (Nat.ne_zero_of_lt hfuel)
    obtain ⟨-, hbefore, hafter⟩ := hd.compare_items hcompare hinc
    refine ⟨none, rfl, ?_⟩
    intro y hy hxy
    rw [Set.mem_ofPred_eq, Ctx.items_fill, Shape.items_nil, append_nil] at hy
    rcases mem_append.mp hy with hy | hy
    . have := hbefore y hy
      omega
    . have := hafter y hy
      omega
  | node l p y r ihl ihr =>
    obtain ⟨fuel, rfl⟩ := Nat.exists_eq_succ_of_ne_zero (Nat.ne_zero_of_lt hfuel)
    have hp := hs.hole_holds.1
    rw [Shape.size_node] at hfuel
    unfold findAux
    dsimp only [Shape.ptr]
    rw [item_of_heap hp, ok_bind]
    split
    . next hlt =>
      rw [node_of_heap hp, ok_bind]
      exact ihl fuel (.left d p y r) hs ⟨hlt, hd⟩ hinc (by omega)
    . next hlt =>
      split
      . next hgt =>
        rw [node_of_heap hp, ok_bind]
        exact ihr fuel (.right d l p y) hs ⟨hgt, hd⟩ hinc (by omega)
      . next hgt =>
        refine ⟨some p, rfl, y, ?_, item_of_heap hp, by omega⟩
        rw [Set.mem_ofPred_eq, items_fill_node]
        simp

structure Represents (compare : E → E → Int) (s : BalTree E) (T : Shape E) (S : Set E) : Prop
    extends Rep s T where
  increasing : Increasing compare T.items
  mem_items : ∀ y, y ∈ T.items ↔ y ∈ S
  nodes : s.nodes = T.items.length

inductive Op (E : Type) where
  | insert (x : E)
  | remove (x : E)
  | find (x : E)
  | clear

def step (compare : E → E → Int) (minNodesForHeight : Nat → Int) (s : BalTree E)
    : Op E → Result (BalTree E)
  | .insert x => s.insert compare minNodesForHeight x
  | .remove x => s.remove compare x
  | .find x => do
    let _ ← s.find compare x
    return s
  | .clear => s.clear

def Op.apply (compare : E → E → Int) (S : Set E) : Op E → Set E
  | insert x => insertKey compare x S
  | remove x => removeKey compare x S
  | find _ => S
  | clear => ∅

namespace Represents

variable {compare : E → E → Int} {T : Shape E} {S : Set E}

theorem valid (hs : Represents compare s T S) : Valid s T :=
  ⟨hs.toRep, by rw [hs.nodes, Shape.length_items]⟩

theorem of_valid (hs : Valid s T) (hinc : Increasing compare T.items)
    (hmem : ∀ y, y ∈ T.items ↔ y ∈ S) : Represents compare s T S :=
  ⟨hs.toRep, hinc, hmem, by rw [hs.nodes, Shape.length_items]⟩

theorem make : Represents compare (make : BalTree E) .nil ∅ := by
  refine of_valid valid_make ?_ ?_
  . simp [Increasing]
  . simp

section

variable (hcompare : IsCompare compare) (hs : Represents compare s T S)

include hcompare hs

theorem find (x : E)
    : ∃ p, s.find compare x = .ok p ∧ FindsIn compare s S x p := by
  have hS : S = { y | y ∈ T.items } := by
    ext y
    exact (hs.mem_items y).symm
  unfold BalTree.find
  rw [hs.root, hS]
  exact findAux_spec hcompare x s.fuel .top hs.toRep trivial hs.increasing hs.toRep.size_lt_fuel

theorem insert (minNodesForHeight : Nat → Int) (x : E)
    : ∃ s', ∃ T' : Shape E, s.insert compare minNodesForHeight x = .ok s' ∧
        Represents compare s' T' (insertKey compare x S) := by
  obtain ⟨s₁, k, hinsert, hk⟩ := insertAux_spec compare minNodesForHeight x s.fuel s .top
    T hs.valid trivial hs.toRep.size_lt_fuel
  have hfinish (s₂ : BalTree E) (T₂ : Shape E) (hvalid : Valid s₂ T₂)
      (hT₂ : Increasing compare T₂.items ∧
        ∀ z, z ∈ T₂.items ↔ z = x ∨ z ∈ T.items ∧ compare x z ≠ 0) :
      ∃ s', ∃ T' : Shape E,
        (if s₂.nodes > s₂.maxnodes then { s₂ with maxnodes := s₂.nodes } else s₂) = s' ∧
          Represents compare s' T' (insertKey compare x S) := by
    have hmem : ∀ y, y ∈ T₂.items ↔ y ∈ insertKey compare x S := by
      intro y
      rw [hT₂.2, hs.mem_items]
      rfl
    split
    . exact ⟨_, T₂, rfl, of_valid (hvalid.maxnodes _) hT₂.1 hmem⟩
    . exact ⟨_, T₂, rfl, of_valid hvalid hT₂.1 hmem⟩
  unfold BalTree.insert
  dsimp only [Ctx.loc, Ctx.depth] at hinsert
  rw [hinsert, ok_bind]
  dsimp only
  rcases hk with ⟨rfl, hinserted⟩ | ⟨hne, c, p, hdeep⟩
  . obtain ⟨T₁, hvalid, hT₁⟩ := hinserted.items hcompare hs.increasing
    obtain ⟨s', T', rfl, hs'⟩ := hfinish s₁ T₁ hvalid hT₁
    exact ⟨_, T', rfl, hs'⟩
  . have hpos : k > 0 := by
      rw [hdeep.size_eq] at hne ⊢
      omega
    obtain ⟨s₂, T₂, hrebalance, hvalid, -, hentries, -⟩ := hdeep.valid.rebalance
    have hT₂ : T₂.items = (c.fill (.node .nil p x .nil)).items :=
      congrArg (List.map Prod.snd) hentries
    obtain ⟨s', T', rfl, hs'⟩ := hfinish s₂ T₂ hvalid (Ctx.Follows.items hcompare hs.increasing
      hdeep.follows (hdeep.eq_fill.trans (Ctx.fill_comp .top c _).symm) (p := p)
      (hT₂.trans (congrArg Shape.items (Ctx.fill_comp .top c _).symm)))
    dsimp only [Ctx.loc] at hrebalance
    rw [if_pos hpos, hdeep.size_eq, hrebalance, ok_bind]
    exact ⟨_, T', rfl, hs'⟩

theorem remove (x : E)
    : ∃ s', ∃ T' : Shape E, s.remove compare x = .ok s' ∧
        Represents compare s' T' (removeKey compare x S) := by
  obtain ⟨s', T', hremove, hvalid, hitems⟩ := removeAux_spec (x := x) hcompare s.fuel .top T
    hs.valid trivial hs.increasing hs.toRep.size_lt_fuel
  refine ⟨s', T', hremove, of_valid hvalid ?_ ?_⟩
  . rw [hitems]
    exact List.Pairwise.filter _ hs.increasing
  . intro y
    rw [hitems, mem_filter, decide_eq_true_eq]
    dsimp only [Ctx.fill]
    rw [hs.mem_items]
    rfl

end

theorem clear (hs : Represents compare s T S)
    : ∃ s', s.clear = .ok s' ∧ Represents compare s' .nil ∅ := by
  obtain ⟨h, hdelete, hnone, hframe⟩ :=
    deleteNodes_spec T s.fuel s hs.holds hs.nodup hs.toRep.size_lt_fuel
  unfold BalTree.clear
  rw [hs.root, hdelete, ok_bind]
  refine ⟨_, rfl, of_valid ⟨⟨rfl, trivial, ?_, ?_, ?_, hs.next_pos⟩, rfl⟩ ?_ ?_⟩
  . simp
  . intro a
    simp only [Shape.ptrs_nil, not_mem_nil, iff_false, not_not]
    by_cases ha : a ∈ T.ptrs
    . exact hnone a ha
    . rw [hframe a ha]
      exact hs.toRep.heap_eq_none ha
  . simp
  . simp [Increasing]
  . simp

theorem step (hcompare : IsCompare compare) (hs : Represents compare s T S)
    (minNodesForHeight : Nat → Int) (op : Op E)
    : ∃ s', ∃ T' : Shape E, s.step compare minNodesForHeight op = .ok s' ∧
        Represents compare s' T' (op.apply compare S) := by
  cases op with
  | insert x => exact hs.insert hcompare minNodesForHeight x
  | remove x => exact hs.remove hcompare x
  | find x =>
    obtain ⟨p, hfind, -⟩ := hs.find hcompare x
    refine ⟨s, T, ?_, hs⟩
    unfold BalTree.step
    dsimp only
    rw [hfind]
    rfl
  | clear =>
    obtain ⟨s', hclear, hs'⟩ := hs.clear
    exact ⟨s', .nil, hclear, hs'⟩

theorem run (hcompare : IsCompare compare) (minNodesForHeight : Nat → Int) (ops : List (Op E))
    (hs : Represents compare s T S)
    : ∃ s', ∃ T' : Shape E, ops.foldlM (BalTree.step compare minNodesForHeight) s = .ok s' ∧
        Represents compare s' T' (ops.foldl (Op.apply compare) S) := by
  induction ops generalizing s T S with
  | nil => exact ⟨s, T, rfl, hs⟩
  | cons op ops ih =>
    obtain ⟨s₁, T₁, hstep, hs₁⟩ := hs.step hcompare minNodesForHeight op
    rw [foldlM_cons, hstep, ok_bind, foldl_cons]
    exact ih hs₁

end Represents

theorem isCompare_sub : IsCompare (fun a b : Int => a - b) where
  swap := by
    intro a b
    omega
  trans := by
    intro a b c hab hbc
    omega

/--
After every sequence of operations the tree represents the elements of the abstract map, and
`Rebalance` at any place of any tree keeps the nodes in their order and balances the subtree.
-/
theorem run_spec {compare : E → E → Int} (hcompare : IsCompare compare)
    (minNodesForHeight : Nat → Int)
    : (∀ ops : List (Op E),
        ∃ s, ∃ T : Shape E, ops.foldlM (step compare minNodesForHeight) make = .ok s ∧
          Represents compare s T (ops.foldl (Op.apply compare) ∅) ∧
          ∀ x, ∃ p, s.find compare x = .ok p ∧
            FindsIn compare s (ops.foldl (Op.apply compare) ∅) x p) ∧
      ∀ (s : BalTree E) (d : Ctx E) (t : Shape E), Rep s (d.fill t) →
        ∃ s', ∃ t' : Shape E, s.rebalance d.loc t.size = .ok s' ∧ Rep s' (d.fill t') ∧
          t'.entries = t.entries ∧ t'.Balanced := by
  constructor
  . intro ops
    obtain ⟨s, T, hrun, hs⟩ := Represents.make.run hcompare minNodesForHeight ops
    exact ⟨s, T, hrun, hs, hs.find hcompare⟩
  . intro s d t hs
    obtain ⟨root, h, t', hrebalance, hrep, hentries, hbalanced⟩ := rebalance_spec hs
    exact ⟨_, t', hrebalance, hrep, hentries, hbalanced⟩

theorem run_spec_insertRemove
    : ∃ s : BalTree Int, ∃ T : Shape Int,
        [.insert 2, .insert 1, .remove 2].foldlM
            (step (fun a b => a - b) (fun d => 3 ^ (d + 1) / 2 ^ (d + 1))) make = .ok s ∧
          Represents (fun a b => a - b) s T { 1 } := by
  obtain ⟨s, T, hrun, hs, -⟩ := (run_spec isCompare_sub (fun d => 3 ^ (d + 1) / 2 ^ (d + 1))).1
    [.insert 2, .insert 1, .remove 2]
  refine ⟨s, T, hrun, hs.toRep, hs.increasing, ?_, hs.nodes⟩
  intro y
  rw [hs.mem_items]
  simp only [List.foldl_cons, List.foldl_nil, Op.apply, insertKey, removeKey, Set.mem_ofPred_eq,
    Set.mem_empty_iff_false, Set.mem_singleton_iff, false_and, or_false]
  omega

end BalTree
