import GapKernel.ListFunc.Impl
import Mathlib.Algebra.BigOperators.Intervals

open List Nat

section Segment

variable {α : Type} {E : α → α → Prop} {S B : α → Prop}

theorem mem_or_mem_of_reach (hedge : ∀ u, S u → ∀ t, E u t → S t ∨ B t)
    (hclosed : ∀ u, B u → ∀ t, E u t → B t) {u t : α} (hu : S u)
    (hreach : Relation.ReflTransGen E u t) : S t ∨ B t := by
  induction hreach with
  | refl => exact Or.inl hu
  | tail _ hlast ih =>
    cases ih with
    | inl hS => exact hedge _ hS _ hlast
    | inr hB => exact Or.inr (hclosed _ hB _ hlast)

theorem mem_of_reach (hclosed : ∀ u, B u → ∀ t, E u t → B t) {u t : α} (hu : B u)
    (hreach : Relation.ReflTransGen E u t) : B t := by
  induction hreach with
  | refl => exact hu
  | tail _ hlast ih => exact hclosed _ ih _ hlast

theorem mem_iff_reach_reach {v : α} (hfrom : ∀ u, S u → Relation.ReflTransGen E v u)
    (hto : ∀ u, S u → Relation.ReflTransGen E u v)
    (hedge : ∀ u, S u → ∀ t, E u t → S t ∨ B t) (hclosed : ∀ u, B u → ∀ t, E u t → B t)
    (hdisjoint : ∀ u, S u → ¬B u) {u : α} (hu : S u) (t : α)
    : S t ↔ Relation.ReflTransGen E u t ∧ Relation.ReflTransGen E t u := by
  constructor
  . intro ht
    exact ⟨(hto u hu).trans (hfrom t ht), (hto t ht).trans (hfrom u hu)⟩
  . rintro ⟨hut, htu⟩
    cases mem_or_mem_of_reach hedge hclosed hu hut with
    | inl hS => exact hS
    | inr hB => exact absurd (mem_of_reach hclosed hB htu) (hdisjoint u hu)

end Segment

namespace ListFunc

def Edge (digraph : List (List Nat)) (u t : Nat) : Prop :=
  ∃ adj, elmPlist digraph u = .ok adj ∧ t ∈ adj

def Reach (digraph : List (List Nat)) : Nat → Nat → Prop :=
  Relation.ReflTransGen (Edge digraph)

def IsVertex (digraph : List (List Nat)) (v : Nat) : Prop :=
  0 < v ∧ v ≤ digraph.length

def IsDigraph (digraph : List (List Nat)) : Prop :=
  ∀ adj ∈ digraph, ∀ t ∈ adj, IsVertex digraph t

namespace ComponentsState

def number (s : ComponentsState) (v : Nat) : Nat :=
  entryPlist s.val v

def path (s : ComponentsState) : List Nat :=
  s.frames.map Frame.vertex

def white (n : Nat) (s : ComponentsState) : Finset Nat :=
  (Finset.Icc 1 n).filter fun v => s.number v = 0

def work (digraph : List (List Nat)) (s : ComponentsState) : Nat :=
  (∑ v ∈ s.white digraph.length, ((digraph.getD (v - 1) []).length + 1))
    + (s.frames.map fun f => f.adj.length + 2 - f.next).sum

def push (s : ComponentsState) (t : Nat) (adj : List Nat) : ComponentsState :=
  { s with
    val := s.val.set (t - 1) (s.now + 1), stack := s.stack ++ [t], now := s.now + 1,
    frames := ⟨t, s.now + 1, 1, adj⟩ :: s.frames }

def cut (s : ComponentsState) (pre comp val : List Nat) (frames : List Frame) : ComponentsState :=
  { s with val := val, stack := pre, comps := s.comps ++ [comp], frames := frames }

end ComponentsState

def Explored (digraph : List (List Nat)) (frames : List Frame) (u t : Nat) : Prop :=
  Edge digraph u t ∧ ∀ f ∈ frames, f.vertex = u → t ∈ f.adj.take (f.next - 1)

structure Numbered (digraph : List (List Nat)) (s : ComponentsState) : Prop where
  val_length : s.val.length = digraph.length
  now_add : s.now + (s.white digraph.length).card = digraph.length
  number_le : ∀ v, s.number v ≤ s.now ∨ s.number v = digraph.length + 1
  mem_stack : ∀ v, v ∈ s.stack ↔ s.number v ≠ 0 ∧ s.number v ≠ digraph.length + 1
  stack_sorted : s.stack.Pairwise fun u v => s.number u < s.number v
  mem_comps : ∀ v, v ∈ s.comps.flatten ↔ s.number v = digraph.length + 1
  comps_nodup : s.comps.flatten.Nodup
  comps_ne_nil : ∀ comp ∈ s.comps, comp ≠ []
  component : ∀ comp ∈ s.comps, ∀ u ∈ comp, ∀ v,
    v ∈ comp ↔ Reach digraph u v ∧ Reach digraph v u
  closed : ∀ u, s.number u = digraph.length + 1 → ∀ t, Edge digraph u t →
    s.number t = digraph.length + 1

structure IsFrame (digraph : List (List Nat)) (s : ComponentsState) (f : Frame) : Prop where
  adj_eq : elmPlist digraph f.vertex = .ok f.adj
  next_pos : 0 < f.next
  next_le : f.next ≤ f.adj.length + 1
  mem_stack : f.vertex ∈ s.stack
  low_le : f.low ≤ s.number f.vertex
  low : ∃ w ∈ s.stack, s.number w = f.low ∧ Reach digraph f.vertex w

structure IsAnchor (digraph : List (List Nat)) (s : ComponentsState) (u : Nat) (f : Frame)
    : Prop where
  mem : f ∈ s.frames
  le : s.number f.vertex ≤ s.number u
  nearest : ∀ v ∈ s.path, s.number v ≤ s.number u → s.number v ≤ s.number f.vertex
  reach : Reach digraph f.vertex u
  low_le : ∀ t ∈ s.stack, Explored digraph s.frames u t → f.low ≤ s.number t

structure Searching (digraph : List (List Nat)) (s : ComponentsState) : Prop
    extends Numbered digraph s where
  isFrame : ∀ f ∈ s.frames, IsFrame digraph s f
  path_sorted : s.path.Pairwise fun u v => s.number v < s.number u ∧ Reach digraph v u
  anchor : ∀ u ∈ s.stack, ∃ f, IsAnchor digraph s u f
  back : ∀ u ∈ s.stack, u ∉ s.path → ∃ w ∈ s.stack, s.number w < s.number u ∧ Reach digraph u w
  visited : ∀ u t, s.number u ≠ 0 → Explored digraph s.frames u t → s.number t ≠ 0

variable {digraph : List (List Nat)} {s : ComponentsState} {u v t : Nat} {f : Frame}
  {frames : List Frame}

theorem isVertex_of_edge (hdigraph : IsDigraph digraph) (h : Edge digraph u t)
    : IsVertex digraph t := by
  obtain ⟨adj, hadj, ht⟩ := h
  rw [elmPlist_eq_ok_iff] at hadj
  exact hdigraph adj (mem_of_getElem? hadj.2) t ht

theorem elmPlist_of_isVertex (h : IsVertex digraph v) : ∃ adj, elmPlist digraph v = .ok adj := by
  have hpos := h.1
  have hle := h.2
  have hlt : v - 1 < digraph.length := by
    omega
  exact ⟨digraph[v - 1], elmPlist_eq_ok_iff.mpr ⟨h.1, getElem?_eq_getElem hlt⟩⟩

theorem length_lt_of_nodup {l : List Nat} (hnodup : l.Nodup) (hl : ∀ v ∈ l, IsVertex digraph v)
    (ht : IsVertex digraph t) (hmem : t ∉ l) : l.length < digraph.length := by
  have hsub : (t :: l) ⊆ range' 1 digraph.length := by
    intro v hv
    have : IsVertex digraph v := by
      cases mem_cons.mp hv with
      | inl heq => rwa [heq]
      | inr hv => exact hl v hv
    have hpos := this.1
    have hle := this.2
    rw [mem_range'_1]
    omega
  have hle := ((nodup_cons.mpr ⟨hmem, hnodup⟩).subperm hsub).length_le
  rw [length_cons, length_range'] at hle
  exact hle

namespace Numbered

section

variable (hs : Numbered digraph s)

include hs

theorem isVertex (h : s.number v ≠ 0) : IsVertex digraph v := by
  unfold ComponentsState.number entryPlist at h
  cases v with
  | zero => exact absurd rfl h
  | succ v =>
    refine ⟨succ_pos v, ?_⟩
    by_contra hgt
    apply h
    dsimp only
    rw [getD_eq_getElem?_getD, getElem?_eq_none]
    . rfl
    . rw [hs.val_length]
      omega

theorem now_le : s.now ≤ digraph.length := by
  have := hs.now_add
  omega

theorem number_le_now (h : v ∈ s.stack) : s.number v ≤ s.now :=
  (hs.number_le v).resolve_right ((hs.mem_stack v).mp h).2

theorem stack_nodup : s.stack.Nodup :=
  hs.stack_sorted.imp fun h heq => absurd (heq ▸ h) (Nat.lt_irrefl _)

theorem elmPlist_val (h : IsVertex digraph v)
    : elmPlist s.val v = .ok (s.number v) :=
  elmPlist_eq_entryPlist h.1 (hs.val_length ▸ h.2)

end

theorem mem_white (h : IsVertex digraph v) : v ∈ s.white digraph.length ↔ s.number v = 0 := by
  unfold ComponentsState.white
  rw [Finset.mem_filter, Finset.mem_Icc]
  exact ⟨fun h => h.2, fun hv => ⟨h, hv⟩⟩

theorem comps_length_le (hs : Numbered digraph s) : s.comps.length ≤ s.comps.flatten.length := by
  have : ∀ comps : List (List Nat), (∀ comp ∈ comps, comp ≠ [])
      → comps.length ≤ comps.flatten.length := by
    intro comps
    induction comps with
    | nil => intro _; exact Nat.le_refl 0
    | cons comp comps ih =>
      intro hne
      have hpos := length_pos_iff.mpr (hne comp mem_cons_self)
      have hle := ih fun comp hcomp => hne comp (mem_cons_of_mem _ hcomp)
      rw [flatten_cons, length_append, length_cons]
      omega
  exact this s.comps hs.comps_ne_nil

end Numbered

theorem Searching.path_nodup (hs : Searching digraph s) : s.path.Nodup :=
  hs.path_sorted.imp fun h heq => absurd (heq ▸ h.1) (Nat.lt_irrefl _)

theorem Searching.mem_stack_of_mem_path (hs : Searching digraph s) (h : v ∈ s.path)
    : v ∈ s.stack := by
  obtain ⟨f, hf, rfl⟩ := mem_map.mp h
  exact (hs.isFrame f hf).mem_stack

theorem Numbered.eq_of_number_eq (hs : Numbered digraph s) (hu : u ∈ s.stack) (hv : v ∈ s.stack)
    (h : s.number u = s.number v) : u = v := by
  by_contra hne
  have := List.Pairwise.forall_of_forall_of_flip (R := fun u v => u ≠ v → s.number u ≠ s.number v)
    (fun _ _ hne => absurd rfl hne) (hs.stack_sorted.imp fun hlt _ => by omega)
    (hs.stack_sorted.imp fun hlt _ => by omega) hu hv
  exact this hne h

theorem explored_of_tail (hadj : elmPlist digraph f.vertex = .ok f.adj)
    (hnext : f.adj.length < f.next) (h : Explored digraph frames u t)
    : Explored digraph (f :: frames) u t := by
  refine ⟨h.1, fun f' hf' heq => ?_⟩
  cases mem_cons.mp hf' with
  | inl heq' =>
    obtain ⟨adj, hadj', ht⟩ := h.1
    rw [← heq, heq', hadj] at hadj'
    cases hadj'
    rw [heq', take_of_length_le (by omega)]
    exact ht
  | inr hf' => exact h.2 f' hf' heq

section Visit

variable {adj : List Nat}

section

variable (hs : Numbered digraph s) (ht : IsVertex digraph t)

include hs ht

theorem number_push (v : Nat)
    : (s.push t adj).number v = if v = t then s.now + 1 else s.number v :=
  entryPlist_set ht.1 (hs.val_length ▸ ht.2)

theorem number_push_of_mem (hwhite : s.number t = 0) (hv : v ∈ s.stack)
    : (s.push t adj).number v = s.number v := by
  rw [number_push hs ht, if_neg]
  rintro rfl
  exact ((hs.mem_stack v).mp hv).1 hwhite

theorem white_push
    : (s.push t adj).white digraph.length = (s.white digraph.length).erase t := by
  ext v
  unfold ComponentsState.white
  rw [Finset.mem_erase, Finset.mem_filter, Finset.mem_filter, number_push hs ht]
  split
  next heq => simp [heq]
  next hne => simp [hne]

theorem Numbered.push (hwhite : s.number t = 0)
    : Numbered digraph (s.push t adj) := by
  have hlt : s.now < digraph.length := by
    have hpos := Finset.card_pos.mpr ⟨t, (Numbered.mem_white ht).mpr hwhite⟩
    have := hs.now_add
    omega
  constructor
  . exact length_set.trans hs.val_length
  . rw [white_push hs ht]
    have := Finset.card_erase_add_one ((Numbered.mem_white ht).mpr hwhite)
    have := hs.now_add
    have : (s.push t adj).now = s.now + 1 := rfl
    omega
  . intro v
    rw [number_push hs ht]
    split
    next heq => exact Or.inl (Nat.le_refl _)
    next hne => exact (hs.number_le v).imp (fun h => le_succ_of_le h) id
  . intro v
    rw [number_push hs ht]
    unfold ComponentsState.push
    rw [mem_append, mem_singleton, hs.mem_stack]
    split
    next heq => simp [heq]; omega
    next hne => simp [hne]
  . apply pairwise_append.mpr
    refine ⟨?_, pairwise_singleton _ _, ?_⟩
    . apply hs.stack_sorted.imp_of_mem
      intro u v hu hv hlt
      rw [number_push_of_mem hs ht hwhite hu, number_push_of_mem hs ht hwhite hv]
      exact hlt
    . intro u hu v hv
      rw [mem_singleton.mp hv, number_push_of_mem hs ht hwhite hu, number_push hs ht,
        if_pos rfl]
      have := hs.number_le_now hu
      omega
  . intro v
    rw [number_push hs ht]
    unfold ComponentsState.push
    rw [hs.mem_comps]
    split
    next heq =>
      rw [heq, hwhite]
      omega
    next hne => rfl
  . exact hs.comps_nodup
  . exact hs.comps_ne_nil
  . exact hs.component
  . intro u hu t' hedge
    rw [number_push hs ht] at hu ⊢
    split at hu
    next heq => omega
    next hne =>
      have := hs.closed u hu t' hedge
      rw [if_neg, this]
      intro heq
      rw [heq, hwhite] at this
      omega

end

theorem IsFrame.push (hs : Searching digraph s) (ht : IsVertex digraph t)
    (hwhite : s.number t = 0) (hf : IsFrame digraph s f) : IsFrame digraph (s.push t adj) f := by
  obtain ⟨w, hw, hlow, hreach⟩ := hf.low
  refine ⟨hf.adj_eq, hf.next_pos, hf.next_le, mem_append_left _ hf.mem_stack, ?_,
    w, mem_append_left _ hw, ?_, hreach⟩
  . rw [number_push_of_mem hs.toNumbered ht hwhite hf.mem_stack]
    exact hf.low_le
  . rw [number_push_of_mem hs.toNumbered ht hwhite hw]
    exact hlow

theorem explored_of_push (h : Explored digraph (s.push t adj).frames u v)
    : u ≠ t ∧ Explored digraph s.frames u v := by
  refine ⟨?_, h.1, fun f hf => h.2 f (mem_cons_of_mem _ hf)⟩
  rintro rfl
  have := h.2 _ mem_cons_self rfl
  cases this

section

variable (hs : Searching digraph s) (ht : IsVertex digraph t) (hwhite : s.number t = 0)

include hs ht hwhite

theorem IsAnchor.push (hu : u ∈ s.stack) (hf : IsAnchor digraph s u f)
    : IsAnchor digraph (s.push t adj) u f := by
  have hold : ∀ v ∈ s.stack, (s.push t adj).number v = s.number v := fun v hv =>
    number_push_of_mem hs.toNumbered ht hwhite hv
  have hfmem := (hs.isFrame f hf.mem).mem_stack
  refine ⟨mem_cons_of_mem _ hf.mem, ?_, ?_, hf.reach, ?_⟩
  . rw [hold u hu, hold _ hfmem]
    exact hf.le
  . intro v hv hle
    cases mem_cons.mp hv with
    | inl heq =>
      rw [hold u hu, heq, number_push hs.toNumbered ht, if_pos rfl] at hle
      have := hs.number_le_now hu
      omega
    | inr hv =>
      rw [hold u hu, hold v (hs.mem_stack_of_mem_path hv)] at hle
      rw [hold v (hs.mem_stack_of_mem_path hv), hold _ hfmem]
      exact hf.nearest v hv hle
  . intro t' ht' hex
    cases mem_append.mp ht' with
    | inl ht' =>
      rw [hold t' ht']
      exact hf.low_le t' ht' (explored_of_push hex).2
    | inr ht' =>
      rw [mem_singleton.mp ht', number_push hs.toNumbered ht, if_pos rfl]
      have := (hs.isFrame f hf.mem).low_le
      have := hs.number_le_now hfmem
      omega

theorem Searching.push (hadj : elmPlist digraph t = .ok adj)
    (hreach : ∀ v ∈ s.path, Reach digraph v t) : Searching digraph (s.push t adj) := by
  have hold : ∀ v ∈ s.stack, (s.push t adj).number v = s.number v := fun v hv =>
    number_push_of_mem hs.toNumbered ht hwhite hv
  have hself : (s.push t adj).number t = s.now + 1 :=
    (number_push hs.toNumbered ht t).trans (if_pos rfl)
  refine ⟨hs.toNumbered.push ht hwhite, ?_, ?_, ?_, ?_, ?_⟩
  . intro f hf
    cases mem_cons.mp hf with
    | inl heq =>
      have hmem : t ∈ (s.push t adj).stack := mem_append_right _ mem_cons_self
      rw [heq]
      exact ⟨hadj, Nat.one_pos, Nat.le_add_left 1 _, hmem, Nat.le_of_eq hself.symm,
        t, hmem, hself, .refl⟩
    | inr hf => exact (hs.isFrame f hf).push hs ht hwhite
  . apply pairwise_cons.mpr
    constructor
    . intro v hv
      have hmem := hs.mem_stack_of_mem_path hv
      rw [hold v hmem, hself]
      exact ⟨lt_succ_of_le (hs.number_le_now hmem), hreach v hv⟩
    . apply hs.path_sorted.imp_of_mem
      intro u v hu hv h
      rw [hold u (hs.mem_stack_of_mem_path hu), hold v (hs.mem_stack_of_mem_path hv)]
      exact h
  . intro u hu
    cases mem_append.mp hu with
    | inl hu =>
      obtain ⟨f, hf⟩ := hs.anchor u hu
      exact ⟨f, hf.push hs ht hwhite hu⟩
    | inr hu =>
      rw [mem_singleton.mp hu]
      refine ⟨_, mem_cons_self, Nat.le_refl _, fun v _ h => h, .refl, ?_⟩
      intro t' _ hex
      exact absurd rfl (explored_of_push hex).1
  . intro u hu hpath
    have hu' : u ∈ s.stack := by
      cases mem_append.mp hu with
      | inl hu => exact hu
      | inr hu => exact absurd (mem_cons.mpr (Or.inl (mem_singleton.mp hu))) hpath
    obtain ⟨w, hw, hlt, hback⟩ := hs.back u hu' fun h => hpath (mem_cons_of_mem _ h)
    refine ⟨w, mem_append_left _ hw, ?_, hback⟩
    rw [hold u hu', hold w hw]
    exact hlt
  . intro u t' hu hex
    obtain ⟨hut, hex⟩ := explored_of_push hex
    rw [number_push hs.toNumbered ht, if_neg hut] at hu
    rw [number_push hs.toNumbered ht]
    split
    next heq => exact succ_ne_zero _
    next hne => exact hs.visited u t' hu hex

theorem Searching.length_lt
    : s.stack.length < digraph.length ∧ s.frames.length < digraph.length := by
  have hnotin : t ∉ s.stack := fun h => ((hs.mem_stack t).mp h).1 hwhite
  have hvertex : ∀ v ∈ s.stack, IsVertex digraph v := fun v hv =>
    hs.toNumbered.isVertex ((hs.mem_stack v).mp hv).1
  have hframes := length_lt_of_nodup hs.path_nodup
    (fun v hv => hvertex v (hs.mem_stack_of_mem_path hv)) ht
    fun h => hnotin (hs.mem_stack_of_mem_path h)
  unfold ComponentsState.path at hframes
  rw [length_map] at hframes
  exact ⟨length_lt_of_nodup hs.stack_nodup hvertex ht hnotin, hframes⟩

end

theorem visitVertex_eq (hlen : s.val.length = digraph.length) (ht : IsVertex digraph t)
    (hadj : elmPlist digraph t = .ok adj) (hstack : s.stack.length < digraph.length)
    (hframes : s.frames.length < digraph.length)
    : visitVertex digraph t s = .ok (s.push t adj) := by
  unfold visitVertex pushEntry pushFrame
  rw [hadj, ok_bind]
  dsimp only
  rw [setElmPlist_eq ht.1 (hlen ▸ ht.2), ok_bind, if_pos hstack, if_pos hframes]
  rfl

end Visit

section Frames

structure Advanced (digraph : List (List Nat)) (s : ComponentsState) (f f' : Frame) : Prop where
  vertex_eq : f'.vertex = f.vertex
  isFrame : IsFrame digraph s f'
  low_le : f'.low ≤ f.low
  visited : ∀ t ∈ f'.adj.take (f'.next - 1), t ∈ f.adj.take (f.next - 1)
    ∨ s.number t ≠ 0 ∧ (t ∈ s.stack → f'.low ≤ s.number t)

variable {pre post : List Frame} {f' : Frame}

theorem explored_of_advanced (hframes : s.frames = pre ++ f :: post)
    (hf : Advanced digraph s f f') (hex : Explored digraph (pre ++ f' :: post) u t)
    : Explored digraph s.frames u t
      ∨ u = f.vertex ∧ s.number t ≠ 0 ∧ (t ∈ s.stack → f'.low ≤ s.number t) := by
  by_cases hu : u = f.vertex ∧ s.number t ≠ 0 ∧ (t ∈ s.stack → f'.low ≤ s.number t)
  . exact Or.inr hu
  . refine Or.inl ⟨hex.1, fun g hg heq => ?_⟩
    rw [hframes] at hg
    rcases mem_append.mp hg with hg | hg
    . exact hex.2 g (mem_append_left _ hg) heq
    . cases mem_cons.mp hg with
      | inl hgf =>
        have hmem := hex.2 f' (mem_append_right _ mem_cons_self)
          (by rw [hf.vertex_eq, ← hgf, heq])
        rw [hgf]
        exact (hf.visited t hmem).resolve_right fun h => hu ⟨by rw [← heq, hgf], h⟩
      | inr hg => exact hex.2 g (mem_append_right _ (mem_cons_of_mem _ hg)) heq

theorem path_advanced (hframes : s.frames = pre ++ f :: post) (hf : f'.vertex = f.vertex)
    : ComponentsState.path { s with frames := pre ++ f' :: post } = s.path := by
  unfold ComponentsState.path
  rw [hframes]
  simp only [map_append, map_cons, hf]

section

variable (hs : Searching digraph s) (hframes : s.frames = pre ++ f :: post)

include hs hframes

theorem Searching.eq_of_frames {g : Frame} (hg : g ∈ s.frames) (heq : g.vertex = f.vertex)
    : g = f := by
  have hnodup := hs.path_nodup
  have hf : f ∈ s.frames := by
    rw [hframes]
    exact mem_append_right _ mem_cons_self
  exact inj_on_of_nodup_map hnodup hg hf heq

theorem Searching.advance (hf : Advanced digraph s f f')
    : Searching digraph { s with frames := pre ++ f' :: post } := by
  have hpath := path_advanced hframes hf.vertex_eq
  have hmem : ∀ g ∈ pre ++ f' :: post, g = f' ∨ g ∈ s.frames := by
    intro g hg
    rw [hframes]
    simp only [mem_append, mem_cons] at hg ⊢
    tauto
  have hmem' : ∀ g ∈ s.frames, g = f ∨ g ∈ pre ++ f' :: post := by
    intro g hg
    rw [hframes] at hg
    simp only [mem_append, mem_cons] at hg ⊢
    tauto
  refine ⟨⟨hs.val_length, hs.now_add, hs.number_le, hs.mem_stack, hs.stack_sorted, hs.mem_comps,
    hs.comps_nodup, hs.comps_ne_nil, hs.component, hs.closed⟩, ?_, ?_, ?_, ?_, ?_⟩
  . intro g hg
    have : IsFrame digraph s g := by
      cases hmem g hg with
      | inl heq =>
        rw [heq]
        exact hf.isFrame
      | inr hg => exact hs.isFrame g hg
    exact ⟨this.adj_eq, this.next_pos, this.next_le, this.mem_stack, this.low_le, this.low⟩
  . rw [hpath]
    exact hs.path_sorted
  . intro u hu
    obtain ⟨g, hg⟩ := hs.anchor u hu
    by_cases hgf : g = f
    . rw [hgf] at hg
      refine ⟨f', mem_append_right _ mem_cons_self, ?_, ?_, ?_, ?_⟩
      . rw [hf.vertex_eq]
        exact hg.le
      . rw [hpath, hf.vertex_eq]
        exact hg.nearest
      . rw [hf.vertex_eq]
        exact hg.reach
      . intro t ht hex
        cases explored_of_advanced hframes hf hex with
        | inl hex => exact Nat.le_trans hf.low_le (hg.low_le t ht hex)
        | inr h => exact h.2.2 ht
    . refine ⟨g, (hmem' g hg.mem).resolve_left hgf, hg.le, ?_, hg.reach, ?_⟩
      . rw [hpath]
        exact hg.nearest
      . intro t ht hex
        cases explored_of_advanced hframes hf hex with
        | inl hex => exact hg.low_le t ht hex
        | inr h =>
          -- The vertex of a frame is its own anchor.
          have hfmem : f.vertex ∈ s.path := by
            rw [← hpath, ← hf.vertex_eq]
            exact mem_map_of_mem (mem_append_right _ mem_cons_self)
          have hle := hg.nearest f.vertex hfmem (h.1 ▸ Nat.le_refl _)
          have heq : g.vertex = f.vertex :=
            hs.eq_of_number_eq (hs.isFrame g hg.mem).mem_stack (hs.mem_stack_of_mem_path hfmem)
              (Nat.le_antisymm (h.1 ▸ hg.le) hle)
          exact absurd (hs.eq_of_frames hframes hg.mem heq) hgf
  . rw [hpath]
    exact hs.back
  . intro u t hu hex
    cases explored_of_advanced hframes hf hex with
    | inl hex => exact hs.visited u t hu hex
    | inr h => exact h.2.1

end

theorem path_tail (hframes : s.frames = f :: frames)
    : s.path = f.vertex :: ComponentsState.path { s with frames := frames } := by
  unfold ComponentsState.path
  rw [hframes]
  rfl

theorem Searching.explored_tail (hs : Searching digraph s) (hframes : s.frames = f :: frames)
    (hnext : f.adj.length < f.next) (hex : Explored digraph frames u t)
    : Explored digraph s.frames u t := by
  rw [hframes]
  apply explored_of_tail _ hnext hex
  apply (hs.isFrame f _).adj_eq
  rw [hframes]
  exact mem_cons_self

theorem Searching.popFrame {parent : Frame} (hs : Searching digraph s)
    (hframes : s.frames = f :: parent :: frames) (hnext : f.adj.length < f.next)
    (hlow : f.low < s.number f.vertex) (hparent : parent.low ≤ f.low)
    : Searching digraph { s with frames := parent :: frames } := by
  have hpath := path_tail hframes
  have hsorted := pairwise_cons.mp (hpath ▸ hs.path_sorted)
  have hmem : ∀ g ∈ parent :: frames, g ∈ s.frames := by
    intro g hg
    rw [hframes]
    exact mem_cons_of_mem _ hg
  have hf : IsFrame digraph s f := hs.isFrame f (hframes ▸ mem_cons_self)
  refine ⟨⟨hs.val_length, hs.now_add, hs.number_le, hs.mem_stack, hs.stack_sorted, hs.mem_comps,
    hs.comps_nodup, hs.comps_ne_nil, hs.component, hs.closed⟩, ?_, hsorted.2, ?_, ?_, ?_⟩
  . intro g hg
    have := hs.isFrame g (hmem g hg)
    exact ⟨this.adj_eq, this.next_pos, this.next_le, this.mem_stack, this.low_le, this.low⟩
  . intro u hu
    obtain ⟨g, hg⟩ := hs.anchor u hu
    have hgmem := hg.mem
    rw [hframes] at hgmem
    cases mem_cons.mp hgmem with
    | inl hgf =>
      rw [hgf] at hg
      have hlt := hsorted.1 parent.vertex mem_cons_self
      refine ⟨parent, mem_cons_self, Nat.le_trans (Nat.le_of_lt hlt.1) hg.le, ?_,
        hlt.2.trans hg.reach, ?_⟩
      . intro v hv _
        cases mem_cons.mp hv with
        | inl heq => rw [heq]
        | inr hv => exact Nat.le_of_lt ((pairwise_cons.mp hsorted.2).1 v hv).1
      . intro t ht hex
        exact Nat.le_trans hparent (hg.low_le t ht (hs.explored_tail hframes hnext hex))
    | inr hgmem =>
      refine ⟨g, hgmem, hg.le, ?_, hg.reach, ?_⟩
      . intro v hv
        apply hg.nearest
        rw [hpath]
        exact mem_cons_of_mem _ hv
      . intro t ht hex
        exact hg.low_le t ht (hs.explored_tail hframes hnext hex)
  . intro u hu hnotin
    by_cases heq : u = f.vertex
    . obtain ⟨w, hw, hnum, hreach⟩ := hf.low
      rw [heq]
      exact ⟨w, hw, hnum ▸ hlow, hreach⟩
    . apply hs.back u hu
      rw [hpath, mem_cons]
      rintro (h | h)
      . exact heq h
      . exact hnotin h
  . intro u t hu hex
    exact hs.visited u t hu (hs.explored_tail hframes hnext hex)

theorem Searching.exists_parent (hs : Searching digraph s) (hframes : s.frames = f :: frames)
    (hlow : f.low < s.number f.vertex) : ∃ parent frames', frames = parent :: frames' := by
  have hf : IsFrame digraph s f := hs.isFrame f (hframes ▸ mem_cons_self)
  obtain ⟨w, hw, hnum, _⟩ := hf.low
  obtain ⟨g, hg⟩ := hs.anchor w hw
  cases frames with
  | cons parent frames => exact ⟨parent, frames, rfl⟩
  | nil =>
    have hgmem := hg.mem
    rw [hframes] at hgmem
    have hle := hg.le
    rw [mem_singleton.mp hgmem, hnum] at hle
    omega

end Frames

section Component

variable {pre suf : List Nat}

theorem markComponent_spec {n : Nat} {stack rest val : List Nat}
    (hstack : stack = pre ++ v :: suf ++ rest) (hv : v ∉ suf)
    (hval : ∀ u ∈ v :: suf, 0 < u ∧ u ≤ val.length)
    : ∃ val', markComponent n v stack (pre.length + 1 + suf.length) val = .ok (pre.length, val')
      ∧ val'.length = val.length
      ∧ ∀ u, entryPlist val' u = if u ∈ v :: suf then n + 1 else entryPlist val u := by
  induction suf using reverseRecOn generalizing rest val with
  | nil =>
    have hpos := hval v mem_cons_self
    refine ⟨val.set (v - 1) (n + 1), ?_, length_set, fun u => ?_⟩
    . have helm : elmPlist stack (pre.length + 1) = .ok v := by
        rw [hstack, append_assoc]
        exact elmPlist_append_cons _ _ _
      rw [length_nil, Nat.add_zero]
      unfold markComponent
      rw [helm, ok_bind, setElmPlist_eq hpos.1 hpos.2, ok_bind, if_neg (not_not_intro rfl)]
      rfl
    . rw [entryPlist_set hpos.1 hpos.2]
      simp only [mem_singleton]
  | append_singleton suf x ih =>
    have hx := hval x (by simp)
    have hne : x ≠ v := by
      rintro rfl
      exact hv (by simp)
    have helm : elmPlist stack (pre.length + 1 + suf.length + 1) = .ok x := by
      have hlen : pre.length + 1 + suf.length = (pre ++ v :: suf).length := by
        simp only [length_append, length_cons]
        omega
      have happ : stack = (pre ++ v :: suf) ++ x :: rest := by
        rw [hstack]
        simp
      rw [happ, hlen]
      exact elmPlist_append_cons _ _ _
    have hstack' : stack = pre ++ v :: suf ++ x :: rest := by
      rw [hstack]
      simp
    have hval' : ∀ u ∈ v :: suf, 0 < u ∧ u ≤ (val.set (x - 1) (n + 1)).length := by
      intro u hu
      rw [length_set]
      apply hval
      cases mem_cons.mp hu with
      | inl heq => exact mem_cons.mpr (Or.inl heq)
      | inr hu => exact mem_cons_of_mem _ (mem_append_left _ hu)
    obtain ⟨val', hrun, hlen, hentry⟩ := ih hstack' (fun h => hv (mem_append_left _ h)) hval'
    refine ⟨val', ?_, hlen.trans length_set, fun u => ?_⟩
    . rw [length_append, length_singleton, ← Nat.add_assoc]
      unfold markComponent
      rw [helm, ok_bind, setElmPlist_eq hx.1 hx.2, ok_bind, if_pos hne]
      exact hrun
    . rw [hentry, entryPlist_set hx.1 hx.2]
      simp only [mem_cons, mem_append, not_mem_nil, or_false]
      by_cases hu : u = v ∨ u ∈ suf
      . rw [if_pos hu, if_pos (by tauto)]
      . by_cases hux : u = x
        . rw [if_neg hu, if_pos hux, if_pos (by tauto)]
        . rw [if_neg hu, if_neg hux, if_neg (by tauto)]

structure IsRoot (digraph : List (List Nat)) (s : ComponentsState) (f : Frame)
    (frames : List Frame) (pre suf : List Nat) : Prop extends Searching digraph s where
  frames_eq : s.frames = f :: frames
  done : f.adj.length < f.next
  low_eq : f.low = s.number f.vertex
  stack_eq : s.stack = pre ++ f.vertex :: suf

namespace IsRoot

section

variable (hs : IsRoot digraph s f frames pre suf)

include hs

theorem isFrame_first : IsFrame digraph s f := by
  apply hs.isFrame
  rw [hs.frames_eq]
  exact mem_cons_self

theorem lt_of_mem_pre (hu : u ∈ pre)
    : s.number u < s.number f.vertex := by
  have hsorted := hs.stack_sorted
  rw [hs.stack_eq] at hsorted
  exact (pairwise_append.mp hsorted).2.2 u hu _ mem_cons_self

theorem le_of_mem_suf (hu : u ∈ f.vertex :: suf)
    : s.number f.vertex ≤ s.number u := by
  have hsorted := hs.stack_sorted
  rw [hs.stack_eq] at hsorted
  cases mem_cons.mp hu with
  | inl heq => rw [heq]
  | inr hu =>
    have := (pairwise_cons.mp (pairwise_append.mp hsorted).2.1).1 u hu
    omega

theorem mem_stack_iff
    : u ∈ s.stack ↔ u ∈ pre ∨ u ∈ f.vertex :: suf := by
  rw [hs.stack_eq, mem_append]

theorem mem_pre_iff
    : u ∈ pre ↔ u ∈ s.stack ∧ s.number u < s.number f.vertex := by
  rw [hs.mem_stack_iff]
  constructor
  . intro hu
    exact ⟨Or.inl hu, hs.lt_of_mem_pre hu⟩
  . rintro ⟨hu | hu, hlt⟩
    . exact hu
    . have := hs.le_of_mem_suf hu
      omega

theorem mem_suf_iff
    : u ∈ f.vertex :: suf ↔ u ∈ s.stack ∧ s.number f.vertex ≤ s.number u := by
  rw [hs.mem_stack_iff]
  constructor
  . intro hu
    exact ⟨Or.inr hu, hs.le_of_mem_suf hu⟩
  . rintro ⟨hu | hu, hle⟩
    . have := hs.lt_of_mem_pre hu
      omega
    . exact hu

theorem number_lt_of_mem_path (hv : v ∈ ComponentsState.path { s with frames := frames })
    : s.number v < s.number f.vertex := by
  have hsorted := hs.path_sorted
  rw [path_tail hs.frames_eq] at hsorted
  exact ((pairwise_cons.mp hsorted).1 v hv).1

variable (hu : u ∈ f.vertex :: suf)

include hu

theorem anchor_first
    : IsAnchor digraph s u f := by
  obtain ⟨hmem, hle⟩ := hs.mem_suf_iff.mp hu
  obtain ⟨g, hg⟩ := hs.anchor u hmem
  have hpath := path_tail hs.frames_eq
  have hnear := hg.nearest f.vertex (hpath ▸ mem_cons_self) hle
  have hgmem := hg.mem
  rw [hs.frames_eq] at hgmem
  cases mem_cons.mp hgmem with
  | inl heq => exact heq ▸ hg
  | inr hgmem =>
    have := hs.number_lt_of_mem_path (mem_map_of_mem hgmem)
    omega

theorem explored (hedge : Edge digraph u t)
    : Explored digraph s.frames u t := by
  rw [hs.frames_eq]
  apply explored_of_tail hs.isFrame_first.adj_eq hs.done
  refine ⟨hedge, fun g hg heq => ?_⟩
  have := hs.number_lt_of_mem_path (mem_map_of_mem hg)
  have := hs.le_of_mem_suf hu
  rw [heq] at *
  omega

theorem edge_cases (hedge : Edge digraph u t)
    : t ∈ f.vertex :: suf ∨ s.number t = digraph.length + 1 := by
  have hex := hs.explored hu hedge
  have hne := hs.visited u t ((hs.mem_stack u).mp (hs.mem_suf_iff.mp hu).1).1 hex
  by_cases hblack : s.number t = digraph.length + 1
  . exact Or.inr hblack
  . have ht := (hs.mem_stack t).mpr ⟨hne, hblack⟩
    refine Or.inl (hs.mem_suf_iff.mpr ⟨ht, ?_⟩)
    rw [← hs.low_eq]
    exact (hs.anchor_first hu).low_le t ht hex

theorem not_black
    : s.number u ≠ digraph.length + 1 :=
  ((hs.mem_stack u).mp (hs.mem_suf_iff.mp hu).1).2

theorem reach_root
    : Reach digraph u f.vertex := by
  induction hk : s.number u using Nat.strong_induction_on generalizing u with
  | _ k ih =>
    by_cases heq : u = f.vertex
    . rw [heq]
      exact .refl
    . obtain ⟨hmem, hle⟩ := hs.mem_suf_iff.mp hu
      have hpath : u ∉ s.path := by
        rw [path_tail hs.frames_eq, mem_cons]
        rintro (h | h)
        . exact heq h
        . have := hs.number_lt_of_mem_path h
          omega
      obtain ⟨w, hw, hlt, hreach⟩ := hs.back u hmem hpath
      have hwsuf : w ∈ f.vertex :: suf :=
        (mem_or_mem_of_reach (fun _ hu _ hedge => hs.edge_cases hu hedge) hs.closed hu
          hreach).resolve_right ((hs.mem_stack w).mp hw).2
      exact hreach.trans (ih _ (hk ▸ hlt) hwsuf rfl)

theorem mem_iff (t : Nat)
    : t ∈ f.vertex :: suf ↔ Reach digraph u t ∧ Reach digraph t u :=
  mem_iff_reach_reach (fun _ hu => (hs.anchor_first hu).reach) (fun _ hu => hs.reach_root hu)
    (fun _ hu _ hedge => hs.edge_cases hu hedge) hs.closed (fun _ hu => hs.not_black hu) hu t

end

section Cut

variable {val : List Nat}

variable (hs : IsRoot digraph s f frames pre suf)

include hs

theorem number_cut_of_mem
    (hval : ∀ u, entryPlist val u = if u ∈ f.vertex :: suf then digraph.length + 1 else s.number u)
    (hu : u ∈ pre)
    : (s.cut pre (f.vertex :: suf) val frames).number u = s.number u := by
  refine (hval u).trans (if_neg ?_)
  intro h
  have := hs.lt_of_mem_pre hu
  have := hs.le_of_mem_suf h
  omega

variable (hlen : val.length = s.val.length)
  (hval : ∀ u, entryPlist val u = if u ∈ f.vertex :: suf then digraph.length + 1 else s.number u)

include hlen hval

theorem numbered_cut
    : Numbered digraph (s.cut pre (f.vertex :: suf) val frames) := by
  have hnumber : ∀ u, (s.cut pre (f.vertex :: suf) val frames).number u
      = if u ∈ f.vertex :: suf then digraph.length + 1 else s.number u := hval
  have hnodup := hs.stack_nodup
  rw [hs.stack_eq] at hnodup
  constructor
  . exact hlen.trans hs.val_length
  . have hwhite : (s.cut pre (f.vertex :: suf) val frames).white digraph.length
        = s.white digraph.length := by
      apply Finset.filter_congr
      intro u _
      rw [hnumber]
      split
      next hu =>
        have := ((hs.mem_stack u).mp (hs.mem_suf_iff.mp hu).1).1
        omega
      next hu => rfl
    rw [hwhite]
    exact hs.now_add
  . intro u
    rw [hnumber]
    split
    next hu => exact Or.inr rfl
    next hu => exact hs.number_le u
  . intro u
    rw [hnumber]
    unfold ComponentsState.cut
    split
    next hu =>
      simp only [ne_eq, not_true_eq_false, and_false, iff_false]
      intro hpre
      have := hs.lt_of_mem_pre hpre
      have := hs.le_of_mem_suf hu
      omega
    next hu =>
      rw [← hs.mem_stack, hs.mem_stack_iff]
      exact ⟨Or.inl, fun h => h.resolve_right hu⟩
  . have hsorted := hs.stack_sorted
    rw [hs.stack_eq] at hsorted
    apply (pairwise_append.mp hsorted).1.imp_of_mem
    intro u v hu hv hlt
    rw [hs.number_cut_of_mem hval hu, hs.number_cut_of_mem hval hv]
    exact hlt
  . intro u
    rw [hnumber]
    unfold ComponentsState.cut
    rw [flatten_concat, mem_append, hs.mem_comps]
    split
    next hu => simp only [hu, or_true]
    next hu => simp only [hu, or_false]
  . unfold ComponentsState.cut
    rw [flatten_concat]
    apply hs.comps_nodup.append (nodup_append.mp hnodup).2.1
    intro u hcomps hu
    exact hs.not_black hu ((hs.mem_comps u).mp hcomps)
  . intro comp hcomp
    cases mem_append.mp hcomp with
    | inl hcomp => exact hs.comps_ne_nil comp hcomp
    | inr hcomp =>
      rw [mem_singleton.mp hcomp]
      exact cons_ne_nil _ _
  . intro comp hcomp u hu t
    cases mem_append.mp hcomp with
    | inl hcomp => exact hs.component comp hcomp u hu t
    | inr hcomp =>
      rw [mem_singleton.mp hcomp] at hu ⊢
      exact hs.mem_iff hu t
  . intro u hu t hedge
    rw [hnumber] at hu ⊢
    split
    next ht => rfl
    next ht =>
      split at hu
      next hsuf => exact (hs.edge_cases hsuf hedge).resolve_left ht
      next hsuf => exact hs.closed u hu t hedge

theorem searching_cut
    : Searching digraph (s.cut pre (f.vertex :: suf) val frames) := by
  have hold := fun u => hs.number_cut_of_mem (u := u) hval
  have hmem : ∀ g ∈ frames, g ∈ s.frames := by
    intro g hg
    rw [hs.frames_eq]
    exact mem_cons_of_mem _ hg
  have hvertex : ∀ g ∈ frames, g.vertex ∈ pre := fun g hg =>
    hs.mem_pre_iff.mpr ⟨(hs.isFrame g (hmem g hg)).mem_stack,
      hs.number_lt_of_mem_path (mem_map_of_mem hg)⟩
  have hpathpre : ∀ v ∈ ComponentsState.path { s with frames := frames }, v ∈ pre := by
    intro v hv
    obtain ⟨g, hg, rfl⟩ := mem_map.mp hv
    exact hvertex g hg
  have hlower : ∀ u ∈ pre, ∀ w ∈ s.stack, s.number w ≤ s.number u → w ∈ pre := by
    intro u hu w hw hle
    exact hs.mem_pre_iff.mpr ⟨hw, Nat.lt_of_le_of_lt hle (hs.lt_of_mem_pre hu)⟩
  have hstack : ∀ u ∈ pre, u ∈ s.stack := fun u hu => hs.mem_stack_iff.mpr (Or.inl hu)
  have hsorted := hs.path_sorted
  rw [path_tail hs.frames_eq] at hsorted
  refine ⟨hs.numbered_cut hlen hval, ?_, ?_, ?_, ?_, ?_⟩
  . intro g hg
    have hframe := hs.isFrame g (hmem g hg)
    obtain ⟨w, hw, hlow, hreach⟩ := hframe.low
    have hwpre := hlower _ (hvertex g hg) w hw (hlow ▸ hframe.low_le)
    refine ⟨hframe.adj_eq, hframe.next_pos, hframe.next_le, hvertex g hg, ?_, w, hwpre, ?_,
      hreach⟩
    . rw [hold _ (hvertex g hg)]
      exact hframe.low_le
    . rw [hold w hwpre]
      exact hlow
  . apply (pairwise_cons.mp hsorted).2.imp_of_mem
    intro u v hu hv h
    rw [hold u (hpathpre u hu), hold v (hpathpre v hv)]
    exact h
  . intro u hu
    obtain ⟨g, hg⟩ := hs.anchor u (hstack u hu)
    have hgmem := hg.mem
    rw [hs.frames_eq] at hgmem
    cases mem_cons.mp hgmem with
    | inl heq =>
      have := hg.le
      have := hs.lt_of_mem_pre hu
      rw [heq] at *
      omega
    | inr hgmem =>
      refine ⟨g, hgmem, ?_, ?_, hg.reach, ?_⟩
      . rw [hold u hu, hold _ (hvertex g hgmem)]
        exact hg.le
      . intro v hv hle
        rw [hold v (hpathpre v hv), hold u hu] at hle
        rw [hold v (hpathpre v hv), hold _ (hvertex g hgmem)]
        apply hg.nearest v _ hle
        rw [path_tail hs.frames_eq]
        exact mem_cons_of_mem _ hv
      . intro t ht hex
        rw [hold t ht]
        exact hg.low_le t (hstack t ht) (hs.explored_tail hs.frames_eq hs.done hex)
  . intro u hu hnotin
    have hpath : u ∉ s.path := by
      rw [path_tail hs.frames_eq, mem_cons]
      rintro (heq | h)
      . have := hs.lt_of_mem_pre hu
        rw [heq] at this
        omega
      . exact hnotin h
    obtain ⟨w, hw, hlt, hreach⟩ := hs.back u (hstack u hu) hpath
    have hwpre := hlower u hu w hw (Nat.le_of_lt hlt)
    refine ⟨w, hwpre, ?_, hreach⟩
    rw [hold u hu, hold w hwpre]
    exact hlt
  . intro u t hu hex
    have hnumber : ∀ u, (s.cut pre (f.vertex :: suf) val frames).number u
        = if u ∈ f.vertex :: suf then digraph.length + 1 else s.number u := hval
    have hex' := hs.explored_tail hs.frames_eq hs.done hex
    rw [hnumber] at hu ⊢
    split
    next ht => exact succ_ne_zero _
    next ht =>
      split at hu
      next hsuf =>
        exact hs.visited u t ((hs.mem_stack u).mp (hs.mem_suf_iff.mp hsuf).1).1 hex'
      next hsuf => exact hs.visited u t hu hex'

end Cut

end IsRoot

end Component

end ListFunc
