import GapKernel.BalTree.Lemmas.Memory
import GapKernel.Compare
import Mathlib.Tactic.Ring

open List Nat Function

namespace BalTree

variable {E : Type}

def Chain (h : Ptr → Option (Node E)) (p : Ptr) : List (Ptr × E) → Ptr → Prop
  | [], q => p = q
  | (a, x) :: l, q =>
    p = a ∧ ∃ left right, h a = some { left := left, right := some right, item := some x } ∧
      Chain h right l q

namespace Chain

variable {h h' : Ptr → Option (Node E)} {p q : Ptr}

theorem congr {l : List (Ptr × E)} (hl : Chain h p l q)
    (heq : ∀ a ∈ l.map Prod.fst, h' a = h a) : Chain h' p l q := by
  induction l generalizing p with
  | nil => exact hl
  | cons e l ih =>
    rw [map_cons, forall_mem_cons] at heq
    have ⟨hp, left, right, ha, htail⟩ := hl
    refine ⟨hp, left, right, ?_, ih htail heq.2⟩
    rw [heq.1]
    exact ha

theorem append {l l' : List (Ptr × E)}
    : Chain h p (l ++ l') q ↔ ∃ a, Chain h p l a ∧ Chain h a l' q := by
  induction l generalizing p with
  | nil => simp [Chain]
  | cons e l ih =>
    simp only [cons_append, Chain, ih]
    constructor
    . rintro ⟨hp, left, right, ha, b, hl, hl'⟩
      exact ⟨b, ⟨hp, left, right, ha, hl⟩, hl'⟩
    . rintro ⟨b, ⟨hp, left, right, ha, hl⟩, hl'⟩
      exact ⟨hp, left, right, ha, b, hl, hl'⟩

end Chain

theorem linearize_spec (t : Shape E) (fuel : Nat) (s : BalTree E) (q : Ptr)
    (ht : t.Holds s.heap) (hnodup : t.ptrs.Nodup) (hfuel : t.size < fuel)
    : ∃ h p, linearize fuel s t.ptr q = .ok ({ s with heap := h }, p) ∧
        Chain h p t.entries q ∧ ∀ a ∉ t.ptrs, h a = s.heap a := by
  induction t generalizing fuel s q with
  | nil =>
    obtain ⟨fuel, rfl⟩ := exists_eq_succ_of_ne_zero (Nat.ne_zero_of_lt hfuel)
    exact ⟨s.heap, q, rfl, rfl, by simp⟩
  | node l p x r ihl ihr =>
    obtain ⟨fuel, rfl⟩ := exists_eq_succ_of_ne_zero (Nat.ne_zero_of_lt hfuel)
    rw [Shape.size_node] at hfuel
    rw [Shape.ptrs_node, nodup_append', nodup_cons, disjoint_cons_right] at hnodup
    obtain ⟨hp, hl, hr⟩ := ht
    obtain ⟨h₁, p₁, hlin₁, hchain₁, hframe₁⟩ := ihr fuel s q hr hnodup.2.1.2 (by omega)
    have hp₁ : h₁ p = some { left := l.ptr, right := r.ptr, item := some x } := by
      rw [hframe₁ p hnodup.2.1.1, hp]
    let s₂ : BalTree E :=
      setNode { s with heap := h₁ } p { left := l.ptr, right := some p₁, item := some x }
    have hp₂ : s₂.heap p = some { left := l.ptr, right := some p₁, item := some x } :=
      update_self _ _ _
    have hframe₂ : ∀ a ≠ p, s₂.heap a = h₁ a := by
      intro a ha
      exact update_of_ne ha _ _
    have hl₂ : l.Holds s₂.heap := by
      apply hl.congr
      intro a ha
      rw [hframe₂ a (by rintro rfl; exact hnodup.2.2.1 ha)]
      exact hframe₁ a (hnodup.2.2.2 ha)
    obtain ⟨h₃, p₃, hlin₃, hchain₃, hframe₃⟩ := ihl fuel s₂ p hl₂ hnodup.1 (by omega)
    refine ⟨h₃, p₃, ?_, ?_, ?_⟩
    . unfold linearize
      dsimp only [Shape.ptr]
      rw [node_of_heap hp, ok_bind]
      rw [hlin₁, ok_bind]
      rw [setRight_of_heap (s := { s with heap := h₁ }) hp₁, ok_bind]
      change (s₂.node p >>= _) = _
      rw [node_of_heap hp₂, ok_bind]
      exact hlin₃
    . rw [Shape.entries, Chain.append]
      refine ⟨p, hchain₃, rfl, l.ptr, p₁, ?_, hchain₁.congr ?_⟩
      . rw [hframe₃ p hnodup.2.2.1, hp₂]
      . intro a ha
        rw [hframe₃ a (fun hal => hnodup.2.2.2 hal ha)]
        apply hframe₂
        rintro rfl
        exact hnodup.2.1.1 ha
    . intro a ha
      simp only [Shape.ptrs_node, mem_append, mem_cons, not_or] at ha
      rw [hframe₃ a ha.1, hframe₂ a ha.2.1, hframe₁ a ha.2.2]

theorem treeify_spec (n : Nat) (s : BalTree E) (p q : Ptr) (l : List (Ptr × E)) (nq : Node E)
    (hchain : Chain s.heap p l q) (hlength : l.length = n) (hnodup : (l.map Prod.fst).Nodup)
    (hq : q ∉ l.map Prod.fst) (hnq : s.heap q = some nq)
    : ∃ h, ∃ t : Shape E, treeify s (some p) n = .ok ({ s with heap := h }, q) ∧ t.Holds h ∧
        t.entries = l ∧ t.Balanced ∧ h q = some { nq with left := t.ptr } ∧
        ∀ a, a ∉ l.map Prod.fst → a ≠ q → h a = s.heap a := by
  induction n using Nat.strongRecOn generalizing s p q l nq with
  | ind n ih =>
    cases n with
    | zero =>
      obtain rfl := length_eq_zero_iff.mp hlength
      obtain rfl : p = q := hchain
      refine ⟨update s.heap p (some { nq with left := none }), .nil, ?_, trivial, rfl,
        trivial, update_self _ _ _, ?_⟩
      . unfold treeify
        rw [show deref (some p) = .ok p from rfl, ok_bind, setLeft_of_heap hnq]
        rfl
      . intro a _ ha
        exact update_of_ne ha _ _
    | succ n =>
      have hlt : n - n / 2 < l.length := by
        omega
      obtain ⟨l₁, ⟨m, x⟩, l₂, hl, hlength₁⟩ : ∃ l₁ e l₂, l = l₁ ++ e :: l₂ ∧
          l₁.length = n - n / 2 := by
        refine ⟨l.take (n - n / 2), l[n - n / 2], l.drop (n - n / 2 + 1), ?_, ?_⟩
        . rw [getElem_cons_drop, take_append_drop]
        . rw [length_take]
          omega
      subst hl
      have hlength₂ : l₂.length = n / 2 := by
        rw [length_append, length_cons] at hlength
        omega
      rw [Chain.append] at hchain
      obtain ⟨m', hchain₁, hm', left, right, hm, hchain₂⟩ := hchain
      subst m'
      rw [map_append, map_cons, nodup_append', nodup_cons,
        disjoint_cons_right] at hnodup
      simp only [map_append, map_cons, mem_append, mem_cons, not_or] at hq ⊢
      obtain ⟨hnodup₁, ⟨hm₂, hnodup₂⟩, hm₁, hdisjoint⟩ := hnodup
      obtain ⟨h₁, t₁, htree₁, hholds₁, hentries₁, hbalanced₁, hm₁', hframe₁⟩ :=
        ih (n - n / 2) (by omega) s p m l₁ _ hchain₁ hlength₁ hnodup₁ hm₁ hm
      have hchain₂' : Chain h₁ right l₂ q := by
        apply hchain₂.congr
        intro a ha
        apply hframe₁ a (fun ha₁ => hdisjoint ha₁ ha)
        rintro rfl
        exact hm₂ ha
      have hnq₁ : h₁ q = some nq := by
        rw [hframe₁ q hq.1 hq.2.1, hnq]
      obtain ⟨h₂, t₂, htree₂, hholds₂, hentries₂, hbalanced₂, hq₂, hframe₂⟩ :=
        ih (n / 2) (by omega) { s with heap := h₁ } right q l₂ nq hchain₂' hlength₂ hnodup₂ hq.2.2
          hnq₁
      have hm₂' : h₂ m = some { left := t₁.ptr, right := some right, item := some x } := by
        rw [hframe₂ m hm₂ (fun heq => hq.2.1 heq.symm)]
        exact hm₁'
      let s₃ : BalTree E :=
        setNode { s with heap := h₂ } m { left := t₁.ptr, right := t₂.ptr, item := some x }
      have hq₃ : s₃.heap q = some { nq with left := t₂.ptr } := by
        rw [← hq₂]
        exact update_of_ne hq.2.1 _ _
      let s₄ := s₃.setNode q { nq with left := some m }
      have hq₄ : s₄.heap q = some { nq with left := some m } :=
        update_self _ _ _
      have hframe₄ : ∀ a, a ≠ m → a ≠ q → s₄.heap a = h₂ a := by
        intro a har haq
        exact (update_of_ne haq _ _).trans (update_of_ne har _ _)
      have hptrs₁ : t₁.ptrs = l₁.map Prod.fst := by
        rw [Shape.ptrs, hentries₁]
      have hptrs₂ : t₂.ptrs = l₂.map Prod.fst := by
        rw [Shape.ptrs, hentries₂]
      refine ⟨s₄.heap, .node t₁ m x t₂, ?_, ⟨?_, ?_, ?_⟩, ?_, ⟨hbalanced₁, hbalanced₂, ?_⟩, hq₄,
        ?_⟩
      . unfold treeify
        dsimp only
        rw [htree₁, ok_bind]
        rw [node_of_heap (s := { s with heap := h₁ }) hm₁', ok_bind]
        rw [htree₂, ok_bind]
        rw [node_of_heap (s := { s with heap := h₂ }) hq₂, ok_bind]
        rw [setRight_of_heap (s := { s with heap := h₂ }) hm₂', ok_bind]
        change (s₃.setLeft q (some m) >>= _) = _
        rw [setLeft_of_heap hq₃, ok_bind]
        rfl
      . exact (update_of_ne (fun heq => hq.2.1 heq.symm) _ _).trans
          (update_self _ _ _)
      . apply hholds₁.congr
        intro a ha
        rw [hptrs₁] at ha
        rw [hframe₄ a (by rintro rfl; exact hm₁ ha) (by rintro rfl; exact hq.1 ha)]
        exact hframe₂ a (fun ha₂ => hdisjoint ha ha₂) (by rintro rfl; exact hq.1 ha)
      . apply hholds₂.congr
        intro a ha
        rw [hptrs₂] at ha
        exact hframe₄ a (by rintro rfl; exact hm₂ ha) (by rintro rfl; exact hq.2.2 ha)
      . rw [Shape.entries, hentries₁, hentries₂]
      . unfold Shape.size
        rw [hentries₁, hentries₂, hlength₁, hlength₂]
        omega
      . intro a ha haq
        rw [hframe₄ a ha.2.1 haq, hframe₂ a ha.2.2 haq]
        exact hframe₁ a ha.1 ha.2.1

theorem rebalance_spec {s : BalTree E} {d : Ctx E} {t : Shape E} (hs : Rep s (d.fill t))
    : ∃ root h, ∃ t' : Shape E,
        s.rebalance d.loc t.size = .ok { s with root := root, heap := h } ∧
          Rep { s with root := root, heap := h } (d.fill t') ∧ t'.entries = t.entries ∧
          t'.Balanced := by
  let n : Node E := { left := none, right := none, item := none }
  let s₀ := s.setNode pseudoroot n
  have hn₀ : s₀.heap pseudoroot = some n := by
    unfold s₀ setNode
    simp
  have hpseudoroot : pseudoroot ∉ d.ptrs ∧ pseudoroot ∉ t.ptrs := by
    rw [← not_or, ← Rep.mem_fill, ← hs.allocated, hs.heap_pseudoroot]
    simp
  have ht₀ : t.Holds s₀.heap := hs.hole_holds.update hpseudoroot.2 _
  have hfuel : t.size < s₀.fuel := hs.size_hole_lt_fuel
  obtain ⟨h₁, p, hlin, hchain, hframe₁⟩ :=
    linearize_spec t s₀.fuel s₀ pseudoroot ht₀ hs.hole_nodup hfuel
  have hn₁ : h₁ pseudoroot = some n := by
    rw [hframe₁ _ hpseudoroot.2, hn₀]
  obtain ⟨h₂, t', htree, hholds, hentries, hbalanced, hn₂, hframe₂⟩ :=
    treeify_spec t.size { s₀ with heap := h₁ } p pseudoroot t.entries n hchain rfl hs.hole_nodup
      hpseudoroot.2 hn₁
  have hptrs : t'.ptrs = t.ptrs := by
    rw [Shape.ptrs, hentries]
    rfl
  have hframe : ∀ a, a ∉ t.ptrs → a ≠ pseudoroot → h₂ a = s.heap a := by
    intro a ha hne
    rw [hframe₂ a ha hne]
    dsimp only
    rw [hframe₁ a ha]
    exact update_of_ne hne _ _
  have hd₂ : d.Holds s₀.root h₂ t.ptr := by
    apply hs.ctx_holds.congr
    intro a ha
    apply hframe a (fun hat => hs.not_mem_ctx hat ha)
    rintro rfl
    exact hpseudoroot.1 ha
  obtain ⟨root, h₃, hwrite, hd₃, hframe₃, hallocated₃⟩ :=
    Ctx.Holds.write (s := { s₀ with heap := h₂ }) hd₂ hs.ctx_nodup t'.ptr
  have ht₃ : t'.Holds h₃ := by
    apply hholds.congr
    intro a ha
    apply hframe₃
    apply hs.not_mem_ctx
    rw [← hptrs]
    exact ha
  refine ⟨root, update h₃ pseudoroot none, t', ?_, Rep.of_fill ?_ ?_ ?_ ?_ ?_ hs.next_pos,
    hentries, hbalanced⟩
  . unfold rebalance
    rw [hs.ctx_holds.read, ok_bind]
    change (linearize s₀.fuel s₀ _ _ >>= _) = _
    rw [hlin, ok_bind]
    dsimp only
    rw [Int.toNat_natCast, htree, ok_bind]
    rw [node_of_heap (s := { s₀ with heap := h₂ }) hn₂, ok_bind]
    rw [hwrite]
    rfl
  . exact hd₃.update hpseudoroot.1 _
  . apply ht₃.update
    rw [hptrs]
    exact hpseudoroot.2
  . rw [hptrs]
    exact (d.ptrs_fill_perm t).nodup_iff.mp hs.nodup
  . intro a
    rw [hptrs, ← Rep.mem_fill, ← hs.allocated]
    by_cases hzero : a = pseudoroot
    . subst hzero
      rw [hs.heap_pseudoroot]
      simp
    . dsimp only
      rw [update_of_ne hzero, hallocated₃]
      by_cases hat : a ∈ t.ptrs
      . have hne : s.heap a ≠ none := hs.hole_holds.heap_ne_none hat
        rw [← hptrs] at hat
        exact iff_of_true (hholds.heap_ne_none hat) hne
      . rw [← hframe a hat hzero]
  . intro a ha
    apply hs.bounds
    rw [Rep.mem_fill, ← hptrs]
    exact ha

theorem countAux_spec {s : BalTree E} {t : Shape E} (fuel : Nat) (ht : t.Holds s.heap)
    (hfuel : t.size < fuel) : countAux fuel s t.ptr = .ok t.size := by
  induction t generalizing fuel with
  | nil =>
    obtain ⟨fuel, rfl⟩ := exists_eq_succ_of_ne_zero (Nat.ne_zero_of_lt hfuel)
    rfl
  | node l p x r ihl ihr =>
    obtain ⟨fuel, rfl⟩ := exists_eq_succ_of_ne_zero (Nat.ne_zero_of_lt hfuel)
    rw [Shape.size_node] at hfuel
    unfold countAux
    dsimp only [Shape.ptr]
    rw [node_of_heap ht.1, ok_bind]
    rw [ihl fuel ht.2.1 (by omega), ok_bind]
    rw [ihr fuel ht.2.2 (by omega), ok_bind]
    rw [Shape.size_node]
    congr 1
    omega

end BalTree

namespace BalTree

namespace Shape

variable {E : Type}

def IsWeightBalanced : Shape E → Prop
  | nil => True
  | node l p x r =>
    3 * l.size ≤ 2 * (node l p x r).size ∧ 3 * r.size ≤ 2 * (node l p x r).size

end Shape

namespace Ctx

variable {E : Type} {compare : E → E → Int} {x : E} {d : Ctx E} {t l r : Shape E} {p : Ptr}

def Follows (compare : E → E → Int) (x : E) : Ctx E → Prop
  | top => True
  | left c _ y _ => compare x y < 0 ∧ c.Follows compare x
  | right c _ _ y => 0 < compare x y ∧ c.Follows compare x

theorem Follows.compare_items (hcompare : IsCompare compare) (hd : d.Follows compare x)
    (hinc : Increasing compare (d.fill t).items)
    : Increasing compare t.items ∧ (∀ y ∈ d.before.map Prod.snd, 0 < compare x y) ∧
        ∀ y ∈ d.after.map Prod.snd, compare x y < 0 := by
  induction d generalizing t with
  | top => exact ⟨hinc, by simp [before], by simp [after]⟩
  | left c p y r ih =>
    obtain ⟨hnode, hbefore, hafter⟩ := ih hd.2 hinc
    rw [Shape.items_node, Increasing.append_cons] at hnode
    refine ⟨hnode.1, hbefore, ?_⟩
    intro z hz
    simp only [after, cons_append, map_cons, map_append, mem_cons,
      mem_append] at hz
    rcases hz with rfl | hz | hz
    . exact hd.1
    . exact hcompare.lt_of_lt_of_le hd.1 (Int.le_of_lt (hnode.2.2.2.1 z hz))
    . exact hafter z hz
  | right c l p y ih =>
    obtain ⟨hnode, hbefore, hafter⟩ := ih hd.2 hinc
    rw [Shape.items_node, Increasing.append_cons] at hnode
    refine ⟨hnode.2.1, ?_, hafter⟩
    intro z hz
    simp only [before, map_cons, map_append, map_nil, mem_append,
      mem_singleton] at hz
    rcases hz with (hz | hz) | rfl
    . exact hbefore z hz
    . rw [hcompare.swap]
      have hxy := (hcompare.swap x y).mp hd.1
      exact hcompare.lt_of_lt_of_le (hnode.2.2.1 z hz) (Int.le_of_lt hxy)
    . exact hd.1

theorem Follows.compare_around {y : E} (hcompare : IsCompare compare) (hd : d.Follows compare x)
    (hxy : compare x y = 0) (hinc : Increasing compare (d.fill (.node l p y r)).items)
    : (∀ z ∈ d.before.map Prod.snd ++ l.items, 0 < compare x z) ∧
        ∀ z ∈ r.items ++ d.after.map Prod.snd, compare x z < 0 := by
  obtain ⟨hnode, hbefore, hafter⟩ := hd.compare_items hcompare hinc
  rw [Shape.items_node, Increasing.append_cons] at hnode
  constructor
  . intro z hz
    rcases mem_append.mp hz with hz | hz
    . exact hbefore z hz
    . rw [hcompare.swap]
      apply hcompare.lt_of_lt_of_le (hnode.2.2.1 z hz)
      exact Int.le_of_eq ((hcompare.eq_zero_comm x y).mp hxy)
  . intro z hz
    rcases mem_append.mp hz with hz | hz
    . exact hcompare.lt_of_le_of_lt (Int.le_of_eq hxy) (hnode.2.2.2.1 z hz)
    . exact hafter z hz

def AncestorsBalanced : Ctx E → Shape E → Prop
  | top, _ => True
  | left c p y r, t =>
    (Shape.node t p y r).IsWeightBalanced ∧ c.AncestorsBalanced (.node t p y r)
  | right c l p y, t =>
    (Shape.node l p y t).IsWeightBalanced ∧ c.AncestorsBalanced (.node l p y t)

theorem ancestorsBalanced_comp (c d : Ctx E) (t : Shape E)
    : (c.comp d).AncestorsBalanced t ↔
        d.AncestorsBalanced t ∧ c.AncestorsBalanced (d.fill t) := by
  induction d generalizing t with
  | top => simp [comp, AncestorsBalanced, fill]
  | left d p y r ih => exact (and_congr_right fun _ => ih _).trans and_assoc.symm
  | right d l p y ih => exact (and_congr_right fun _ => ih _).trans and_assoc.symm

def minSize : Nat → Nat
  | 0 => 1
  | j + 1 => (3 * minSize j + 1) / 2

theorem AncestorsBalanced.minSize_le (hd : d.AncestorsBalanced t) {j : Nat}
    (ht : minSize j ≤ t.size) : minSize (j + d.depth) ≤ (d.fill t).size := by
  induction d generalizing t j with
  | top => exact ht
  | left c p y r ih =>
    have hweight := hd.1.1
    have hstep : minSize (j + 1) ≤ (Shape.node t p y r).size := by
      unfold minSize
      omega
    have hle := ih hd.2 hstep
    rw [Nat.add_right_comm] at hle
    exact hle
  | right c l p y ih =>
    have hweight := hd.1.2
    have hstep : minSize (j + 1) ≤ (Shape.node l p y t).size := by
      unfold minSize
      omega
    have hle := ih hd.2 hstep
    rw [Nat.add_right_comm] at hle
    exact hle

-- The size 8 is already more than the fifth power of the factor, the smaller ones are rounded up.
theorem pow_le_minSize (j : Nat) : 3 ^ (j + 5) ≤ 2 ^ (j + 5) * minSize (j + 4) := by
  induction j with
  | zero => decide
  | succ j ih =>
    have hstep : 3 * minSize (j + 4) ≤ 2 * minSize (j + 5) := by
      have hdef : minSize (j + 5) = (3 * minSize (j + 4) + 1) / 2 := rfl
      omega
    calc 3 ^ (j + 1 + 5)
      _ = 3 * 3 ^ (j + 5) := by ring
      _ ≤ 3 * (2 ^ (j + 5) * minSize (j + 4)) := Nat.mul_le_mul_left 3 ih
      _ = 2 ^ (j + 5) * (3 * minSize (j + 4)) := by ring
      _ ≤ 2 ^ (j + 5) * (2 * minSize (j + 5)) := Nat.mul_le_mul_left _ hstep
      _ = 2 ^ (j + 1 + 5) * minSize (j + 1 + 4) := by ring

theorem minNodesForHeight_le (j : Nat) : minNodesForHeight j ≤ minSize j := by
  match j with
  | 0 | 1 | 2 | 3 => decide
  | j + 4 =>
    unfold minNodesForHeight
    have hle : 3 ^ (j + 5) / 2 ^ (j + 5) ≤ minSize (j + 4) :=
      Nat.div_le_of_le_mul (pow_le_minSize j)
    exact_mod_cast hle

theorem AncestorsBalanced.minNodesForHeight_le {x : E}
    (hd : d.AncestorsBalanced (.node .nil p x .nil))
    : minNodesForHeight d.depth ≤ (d.fill (.node .nil p x .nil)).size := by
  have hle := hd.minSize_le (j := 0) (by simp [minSize])
  rw [Nat.zero_add] at hle
  have hbound := Ctx.minNodesForHeight_le d.depth
  omega

end Ctx

section

variable {E : Type} {s : BalTree E} {d : Ctx E} {t : Shape E} {x : E}

theorem Valid.rebalance (hs : Valid s (d.fill t))
    : ∃ s', ∃ t' : Shape E, s.rebalance d.loc t.size = .ok s' ∧ Valid s' (d.fill t') ∧
        s'.nodes = s.nodes ∧ t'.entries = t.entries ∧ t'.Balanced := by
  obtain ⟨root, h, t', hrebalance, hrep, hentries, hbalanced⟩ := rebalance_spec hs.toRep
  refine ⟨_, t', hrebalance, ⟨hrep, ?_⟩, rfl, hentries, hbalanced⟩
  change s.nodes = _
  rw [hs.nodes, Ctx.size_fill, Ctx.size_fill]
  unfold Shape.size
  rw [hentries]

theorem Valid.link (hs : Valid s (d.fill .nil)) (x : E)
    : ∃ s' : BalTree E,
        (s.alloc { left := none, right := none, item := some x }).1.write d.loc (some s.next)
            = .ok s' ∧
          Valid { s' with nodes := s'.nodes + 1 } (d.fill (.node .nil s.next x .nil)) := by
  let n : Node E := { left := none, right := none, item := some x }
  let s₁ := (s.alloc n).1
  have hnext : s.next ∉ d.ptrs := by
    intro hmem
    have hbound := hs.bounds s.next (Rep.mem_fill.mpr (Or.inl hmem))
    exact Nat.lt_irrefl _ hbound.2
  have hd₁ : d.Holds s₁.root s₁.heap none := hs.toRep.ctx_holds.update hnext _
  obtain ⟨root, h, hwrite, hd₂, hframe, hallocated⟩ :=
    hd₁.write hs.toRep.ctx_nodup (some s.next)
  have hheap : h s.next = some n := by
    rw [hframe _ hnext]
    unfold s₁ alloc setNode
    simp
  refine ⟨{ s₁ with root := root, heap := h }, hwrite, Rep.of_fill ?_ ?_ ?_ ?_ ?_ ?_, ?_⟩
  . exact hd₂
  . exact ⟨hheap, trivial, trivial⟩
  . simpa using nodup_append'.mpr ⟨hs.toRep.ctx_nodup, by simp, by simpa using hnext⟩
  . intro a
    rw [hallocated]
    unfold s₁ alloc setNode
    dsimp only
    by_cases ha : a = s.next
    . subst ha
      simp
    . rw [update_of_ne ha, hs.allocated, Rep.mem_fill]
      simp [ha]
  . intro a ha
    change 0 < a ∧ a < s.next + 1
    rcases ha with hd | ha
    . have hbound := hs.bounds a (Rep.mem_fill.mpr (Or.inl hd))
      exact ⟨hbound.1, lt_succ_of_lt hbound.2⟩
    . obtain rfl : a = s.next := by
        simpa using ha
      exact ⟨hs.next_pos, lt_succ_self _⟩
  . exact succ_pos _
  . change s.nodes + 1 = _
    rw [hs.nodes, Ctx.size_fill, Ctx.size_fill]
    simp only [Shape.size_node, Shape.size_nil]
    omega

variable {compare : E → E → Int} {minNodesForHeight : Nat → Int} {s' : BalTree E} {k : Int}

inductive Inserted (compare : E → E → Int) (minNodesForHeight : Nat → Int) (x : E) (T : Shape E)
    (s' : BalTree E) : Prop
  | overwritten (d : Ctx E) (l r : Shape E) (p : Ptr) (y : E) (hd : d.Follows compare x)
    (hxy : compare x y = 0) (hT : T = d.fill (.node l p y r))
    (hvalid : Valid s' (d.fill (.node l p x r)))
  | added (d : Ctx E) (p : Ptr) (hd : d.Follows compare x) (hT : T = d.fill .nil)
    (hnodes : minNodesForHeight d.depth ≤ s'.nodes)
    (hvalid : Valid s' (d.fill (.node .nil p x .nil)))
  | rebalanced (c d : Ctx E) (p : Ptr) (t : Shape E) (hd : (c.comp d).Follows compare x)
    (hT : T = (c.comp d).fill .nil) (hnodes : s'.nodes < minNodesForHeight (c.comp d).depth)
    (hweight : ¬(d.fill (.node .nil p x .nil)).IsWeightBalanced)
    (hentries : t.entries = (d.fill (.node .nil p x .nil)).entries) (hbalanced : t.Balanced)
    (hvalid : Valid s' (c.fill t))

structure TooDeep (compare : E → E → Int) (minNodesForHeight : Nat → Int) (x : E) (d : Ctx E)
    (t : Shape E) (s' : BalTree E) (k : Int) (c : Ctx E) (p : Ptr) : Prop where
  follows : (d.comp c).Follows compare x
  eq_fill : t = c.fill .nil
  nodes_lt : s'.nodes < minNodesForHeight (d.comp c).depth
  balanced : c.AncestorsBalanced (.node .nil p x .nil)
  size_eq : k = (c.fill (.node .nil p x .nil)).size
  valid : Valid s' (d.fill (c.fill (.node .nil p x .nil)))

theorem TooDeep.weight {b c : Ctx E} {l r : Shape E} {p q : Ptr} {y : E}
    (h : TooDeep compare minNodesForHeight x (d.comp b) t s k c p)
    (hb : b.fill (c.fill (.node .nil p x .nil)) = .node l q y r)
    (hone : ∀ u, (b.fill u).IsWeightBalanced → b.AncestorsBalanced u)
    : ∃ s' k', s.checkWeight d.loc l.size r.size = .ok (s', k') ∧
        (k' = 0 ∧ Inserted compare minNodesForHeight x (d.fill (b.fill t)) s' ∨
          k' ≠ 0 ∧ ∃ c p, TooDeep compare minNodesForHeight x d (b.fill t) s' k' c p) := by
  have hsize : (l.size : Int) + r.size + 1 = (Shape.node l q y r).size := by
    rw [Shape.size_node]
    rfl
  have hweight : (3 * (l.size : Int) ≤ 2 * (Shape.node l q y r).size ∧
      3 * (r.size : Int) ≤ 2 * (Shape.node l q y r).size) ↔
      (b.fill (c.fill (.node .nil p x .nil))).IsWeightBalanced := by
    rw [hb]
    unfold Shape.IsWeightBalanced
    omega
  have hvalid := h.valid
  rw [Ctx.fill_comp] at hvalid
  have hfollows := h.follows
  have hnodes := h.nodes_lt
  rw [Ctx.comp_assoc] at hfollows hnodes
  have hfill : b.fill t = (b.comp c).fill .nil := by
    rw [h.eq_fill, Ctx.fill_comp]
  unfold checkWeight
  rw [hsize]
  dsimp only
  split
  . next hle =>
    rw [hweight] at hle
    refine ⟨s, _, rfl, Or.inr ⟨?_, b.comp c, p, hfollows, hfill, hnodes, ?_, ?_, ?_⟩⟩
    . rw [Shape.size_node]
      omega
    . rw [Ctx.ancestorsBalanced_comp]
      exact ⟨h.balanced, hone _ hle⟩
    . rw [Ctx.fill_comp, hb]
    . rw [Ctx.fill_comp]
      exact hvalid
  . next hle =>
    rw [hweight] at hle
    rw [hb] at hvalid
    obtain ⟨s', t', hrebalance, hvalid', hnodes', hentries, hbalanced⟩ := hvalid.rebalance
    rw [hrebalance, ok_bind]
    refine ⟨s', 0, rfl, Or.inl ⟨rfl, .rebalanced d (b.comp c) p t' hfollows ?_ ?_ ?_ ?_ hbalanced
      hvalid'⟩⟩
    . rw [hfill, Ctx.fill_comp d]
    . rw [hnodes']
      exact hnodes
    . rw [Ctx.fill_comp]
      exact hle
    . rw [Ctx.fill_comp, hb, hentries]

theorem insertAux_spec (compare : E → E → Int) (minNodesForHeight : Nat → Int) (x : E)
    (fuel : Nat) (s : BalTree E) (d : Ctx E) (t : Shape E) (hs : Valid s (d.fill t))
    (hd : d.Follows compare x) (hfuel : t.size < fuel)
    : ∃ s' k, insertAux compare minNodesForHeight fuel s d.loc x d.depth = .ok (s', k) ∧
        (k = 0 ∧ Inserted compare minNodesForHeight x (d.fill t) s' ∨
          k ≠ 0 ∧ ∃ c p, TooDeep compare minNodesForHeight x d t s' k c p) := by
  induction t generalizing fuel d with
  | nil =>
    obtain ⟨fuel, rfl⟩ := exists_eq_succ_of_ne_zero (Nat.ne_zero_of_lt hfuel)
    obtain ⟨s', hwrite, hvalid⟩ := hs.link x
    refine ⟨{ s' with nodes := s'.nodes + 1 },
      if minNodesForHeight d.depth > s'.nodes + 1 then 1 else 0, ?_, ?_⟩
    . unfold insertAux
      rw [hs.toRep.ctx_holds.read, ok_bind]
      dsimp only [Shape.ptr]
      change ((s.alloc _).1.write d.loc (some s.next) >>= _) = _
      rw [hwrite, ok_bind]
      rfl
    . split
      . next hgt =>
        exact Or.inr ⟨by simp, .top, s.next, hd, rfl, hgt, trivial, by simp [Ctx.fill], hvalid⟩
      . next hle => exact Or.inl ⟨rfl, .added d s.next hd rfl (Int.not_lt.mp hle) hvalid⟩
  | node l p y r ihl ihr =>
    obtain ⟨fuel, rfl⟩ := exists_eq_succ_of_ne_zero (Nat.ne_zero_of_lt hfuel)
    have hp := hs.toRep.hole_holds.1
    rw [Shape.size_node] at hfuel
    unfold insertAux
    rw [hs.toRep.ctx_holds.read, ok_bind]
    dsimp only [Shape.ptr]
    rw [item_of_heap hp, ok_bind]
    split
    . next hlt =>
      obtain ⟨s', k, hinsert, hk⟩ := ihl fuel (.left d p y r) hs ⟨hlt, hd⟩ (by omega)
      dsimp only [Ctx.loc, Ctx.depth] at hinsert
      rw [hinsert, ok_bind]
      rcases hk with ⟨rfl, hinserted⟩ | ⟨hne, c, q, hdeep⟩
      . exact ⟨s', 0, rfl, Or.inl ⟨rfl, hinserted⟩⟩
      . have hvalid : Valid s' (d.fill (.node _ p y r)) := hdeep.valid
        have hholds := hvalid.toRep.hole_holds
        rw [if_neg hne, node_of_heap hholds.1, ok_bind]
        dsimp only
        rw [countAux_spec _ hholds.2.2, ok_bind, hdeep.size_eq]
        . exact TooDeep.weight (b := .left .top p y r) hdeep rfl (fun _ h => ⟨h, trivial⟩)
        . have := hvalid.toRep.size_hole_lt_fuel
          rw [Shape.size_node] at this
          omega
    . next hlt =>
      split
      . next hgt =>
        obtain ⟨s', k, hinsert, hk⟩ := ihr fuel (.right d l p y) hs ⟨hgt, hd⟩ (by omega)
        dsimp only [Ctx.loc, Ctx.depth] at hinsert
        rw [hinsert, ok_bind]
        rcases hk with ⟨rfl, hinserted⟩ | ⟨hne, c, q, hdeep⟩
        . exact ⟨s', 0, rfl, Or.inl ⟨rfl, hinserted⟩⟩
        . have hvalid : Valid s' (d.fill (.node l p y _)) := hdeep.valid
          have hholds := hvalid.toRep.hole_holds
          rw [if_neg hne, node_of_heap hholds.1, ok_bind]
          dsimp only
          rw [countAux_spec _ hholds.2.1, ok_bind, hdeep.size_eq]
          . exact TooDeep.weight (b := .right .top l p y) hdeep rfl (fun _ h => ⟨h, trivial⟩)
          . have := hvalid.toRep.size_hole_lt_fuel
            rw [Shape.size_node] at this
            omega
      . next hgt =>
        have heq : compare x y = 0 := by omega
        obtain ⟨s', hset, hvalid⟩ := hs.setItem x
        rw [hset, ok_bind]
        exact ⟨s', 0, rfl, Or.inl ⟨rfl, .overwritten d l r p y hd heq rfl hvalid⟩⟩

theorem items_fill_node (d : Ctx E) (l r : Shape E) (p : Ptr) (y : E)
    : (d.fill (.node l p y r)).items
        = d.before.map Prod.snd ++ l.items ++ [y] ++ (r.items ++ d.after.map Prod.snd) := by
  rw [Ctx.items_fill, Shape.items_node]
  simp

section

variable (hcompare : IsCompare compare) {T : Shape E} (hinc : Increasing compare T.items)

include hcompare hinc

theorem Ctx.Follows.items (hd : d.Follows compare x) (hT : T = d.fill .nil) {T' : Shape E}
    {p : Ptr} (hT' : T'.items = (d.fill (.node .nil p x .nil)).items)
    : Increasing compare T'.items ∧ ∀ z, z ∈ T'.items ↔ z = x ∨ z ∈ T.items ∧ compare x z ≠ 0 := by
  rw [hT] at hinc ⊢
  obtain ⟨-, hbefore, hafter⟩ := hd.compare_items hcompare hinc
  rw [hT', items_fill_node, Shape.items_nil, append_nil, nil_append, append_assoc]
  rw [Ctx.items_fill] at hinc ⊢
  exact Increasing.replace hbefore (by simp) hafter hcompare hinc

theorem Inserted.items (h : Inserted compare minNodesForHeight x T s')
    : ∃ T' : Shape E, Valid s' T' ∧ Increasing compare T'.items ∧
        ∀ z, z ∈ T'.items ↔ z = x ∨ z ∈ T.items ∧ compare x z ≠ 0 := by
  cases h with
  | overwritten d l r p y hd hxy hT hvalid =>
    refine ⟨_, hvalid, ?_⟩
    rw [hT] at hinc ⊢
    obtain ⟨hbefore, hafter⟩ := hd.compare_around hcompare hxy hinc
    rw [items_fill_node] at hinc ⊢
    rw [items_fill_node, append_assoc _ [x]]
    exact Increasing.replace hbefore (by simpa using hxy) hafter hcompare hinc
  | added d p hd hT hnodes hvalid => exact ⟨_, hvalid, hd.items hcompare hinc hT rfl⟩
  | rebalanced c d p t hd hT hnodes hweight hentries hbalanced hvalid =>
    refine ⟨_, hvalid, hd.items hcompare hinc hT (p := p) ?_⟩
    rw [Ctx.fill_comp, Ctx.items_fill, Ctx.items_fill]
    unfold Shape.items
    rw [hentries]

end

end

variable {E : Type}

/--
`InsertAux` returns 0 to `Insert`: a leaf that is too deep has an ancestor that is not
weight-balanced, and such an ancestor is rebalanced.
-/
theorem insertAux_root_zero {s : BalTree E} {T : Shape E} (hs : Valid s T)
    (compare : E → E → Int) (x : E)
    : (∃ s', insertAux compare minNodesForHeight s.fuel s .root x 0 = .ok (s', 0) ∧
        Inserted compare minNodesForHeight x T s' ∧
        s.insert compare minNodesForHeight x
          = .ok (if s'.nodes > s'.maxnodes then { s' with maxnodes := s'.nodes } else s')) ∧
      ∀ (d : Ctx E) (p : Ptr),
        (d.fill (.node .nil p x .nil)).size < minNodesForHeight d.depth →
          ¬d.AncestorsBalanced (.node .nil p x .nil) := by
  constructor
  . obtain ⟨s', k, hinsert, hk⟩ := insertAux_spec compare minNodesForHeight x s.fuel s .top
      T hs trivial hs.toRep.size_lt_fuel
    rcases hk with ⟨rfl, hinserted⟩ | ⟨-, c, p, hdeep⟩
    . refine ⟨s', hinsert, hinserted, ?_⟩
      unfold insert
      dsimp only [Ctx.loc, Ctx.depth] at hinsert
      rw [hinsert]
      rfl
    . have hlt := hdeep.nodes_lt
      rw [hdeep.valid.nodes, Ctx.depth_comp] at hlt
      have hle := hdeep.balanced.minNodesForHeight_le
      simp only [Ctx.fill, Ctx.depth, Nat.zero_add] at hlt
      omega
  . intro d p hlt hbalanced
    have hle := hbalanced.minNodesForHeight_le
    omega

theorem valid_make : Valid (make : BalTree E) .nil := by
  refine ⟨⟨rfl, trivial, ?_, ?_, ?_, Nat.one_pos⟩, rfl⟩
  . simp
  . simp [make]
  . simp

theorem insertAux_root_zero_make
    : (∃ s', insertAux (fun a b => a - b) minNodesForHeight (make : BalTree Int).fuel make .root 1 0
          = .ok (s', 0)) ∧
        ¬Ctx.AncestorsBalanced (.right (.right (.right .top .nil 1 10) .nil 2 20) .nil 3 30)
          (.node .nil 4 40 .nil) := by
  obtain ⟨s', hinsert, -⟩ := (insertAux_root_zero valid_make (fun a b => a - b) 1).1
  exact ⟨⟨s', hinsert⟩, (insertAux_root_zero (valid_make (E := Nat)) (fun _ _ => 0) 40).2
    (.right (.right (.right .top .nil 1 10) .nil 2 20) .nil 3 30) 4 (by decide)⟩

end BalTree
