import GapKernel.ListFunc.Lemmas.DepthFirst

open List Nat

namespace ListFunc

structure IsComponents (digraph comps : List (List Nat)) : Prop where
  isVertex : ∀ v ∈ comps.flatten, IsVertex digraph v
  count_eq : ∀ v, IsVertex digraph v → comps.flatten.count v = 1
  same_iff : ∀ u v, IsVertex digraph u → IsVertex digraph v →
    ((∃ comp ∈ comps, u ∈ comp ∧ v ∈ comp) ↔ Reach digraph u v ∧ Reach digraph v u)

variable {digraph : List (List Nat)} {s : ComponentsState} {u v t : Nat} {f : Frame}
  {frames : List Frame}

section Work

variable {s' : ComponentsState} {adj : List Nat}

structure Progress (digraph : List (List Nat)) (s s' : ComponentsState) : Prop where
  searching : Searching digraph s'
  work_eq : s'.work digraph + 1 = s.work digraph
  number_ne : ∀ v, s.number v ≠ 0 → s'.number v ≠ 0

theorem work_push (hs : Numbered digraph s) (ht : IsVertex digraph t) (hwhite : s.number t = 0)
    (hadj : elmPlist digraph t = .ok adj) : (s.push t adj).work digraph = s.work digraph := by
  have hmem := (Numbered.mem_white ht).mpr hwhite
  have hdeg : (digraph.getD (t - 1) []).length = adj.length := by
    rw [getD_eq_getElem?_getD, (elmPlist_eq_ok_iff.mp hadj).2]
    rfl
  have hsum := Finset.sum_erase_add (s.white digraph.length)
    (fun v => (digraph.getD (v - 1) []).length + 1) hmem
  unfold ComponentsState.work
  rw [white_push hs ht, ← hsum]
  unfold ComponentsState.push
  rw [map_cons, sum_cons]
  dsimp only
  omega

theorem number_ne_push (hlen : s.val.length = digraph.length) (ht : IsVertex digraph t)
    (h : s.number v ≠ 0) : (s.push t adj).number v ≠ 0 := by
  refine (entryPlist_set ht.1 (hlen ▸ ht.2)).trans_ne ?_
  split
  next heq => exact succ_ne_zero _
  next hne => exact h

theorem visitVertex_spec (hs : Searching digraph s) (ht : IsVertex digraph t)
    (hwhite : s.number t = 0) (hreach : ∀ v ∈ s.path, Reach digraph v t)
    : ∃ s', visitVertex digraph t s = .ok s' ∧ Searching digraph s'
      ∧ s'.work digraph = s.work digraph ∧ s'.number t ≠ 0
      ∧ ∀ v, s.number v ≠ 0 → s'.number v ≠ 0 := by
  obtain ⟨adj, hadj⟩ := elmPlist_of_isVertex ht
  obtain ⟨hstack, hframes⟩ := hs.length_lt ht hwhite
  refine ⟨s.push t adj, visitVertex_eq hs.val_length ht hadj hstack hframes,
    hs.push ht hwhite hadj hreach, work_push hs.toNumbered ht hwhite hadj, ?_,
    fun v hv => number_ne_push hs.val_length ht hv⟩
  rw [number_push hs.toNumbered ht, if_pos rfl]
  exact succ_ne_zero _

theorem work_cons (hframes : s.frames = f :: frames)
    : s.work digraph = ComponentsState.work digraph { s with frames := frames }
      + (f.adj.length + 2 - f.next) := by
  unfold ComponentsState.work
  rw [hframes, map_cons, sum_cons]
  have : ComponentsState.white digraph.length { s with frames := frames }
      = s.white digraph.length := rfl
  rw [this]
  dsimp only
  omega

end Work

section Round

variable {s' : ComponentsState}

section

variable (hs : Searching digraph s) (hframes : s.frames = f :: frames)

include hs hframes

theorem popFrame_of_root (hlow : f.low = s.number f.vertex) : popFrame f frames = frames := by
  cases frames with
  | nil => rfl
  | cons parent frames =>
    have hpath := path_tail hframes
    have hlt := ((pairwise_cons.mp (hpath ▸ hs.path_sorted)).1 parent.vertex
      mem_cons_self).1
    have hle : parent.low ≤ s.number parent.vertex := by
      apply (hs.isFrame parent _).low_le
      rw [hframes]
      exact mem_cons_of_mem _ mem_cons_self
    unfold popFrame
    dsimp only
    rw [if_neg (by omega)]

theorem componentsRound_root (hdone : f.adj.length < f.next) (hlow : f.low = s.number f.vertex)
    : ∃ s', componentsRound digraph f frames s = .ok s' ∧ Progress digraph s s' := by
  have hf : IsFrame digraph s f := hs.isFrame f (hframes ▸ mem_cons_self)
  obtain ⟨pre, suf, hstack⟩ := append_of_mem hf.mem_stack
  have hroot : IsRoot digraph s f frames pre suf := ⟨hs, hframes, hdone, hlow, hstack⟩
  have hvertex : ∀ u ∈ s.stack, IsVertex digraph u := fun u hu =>
    hs.toNumbered.isVertex ((hs.mem_stack u).mp hu).1
  have hnodup := hs.stack_nodup
  rw [hstack] at hnodup
  have hrange : ∀ u ∈ f.vertex :: suf, 0 < u ∧ u ≤ s.val.length := by
    intro u hu
    rw [hs.val_length]
    exact hvertex u (hroot.mem_stack_iff.mpr (Or.inr hu))
  obtain ⟨val, hmark, hlen, hval⟩ := markComponent_spec (n := digraph.length)
    (hstack.trans (append_nil _).symm)
    (nodup_cons.mp (nodup_append.mp hnodup).2.1).1 hrange
  have hcut := hroot.searching_cut hlen hval
  have hcomps : s.comps.length < digraph.length := by
    apply Nat.lt_of_le_of_lt hs.comps_length_le
    apply length_lt_of_nodup hs.comps_nodup _ (hvertex _ hf.mem_stack)
    . intro h
      exact hroot.not_black mem_cons_self ((hs.mem_comps _).mp h)
    . intro u hu
      apply hs.toNumbered.isVertex
      rw [(hs.mem_comps u).mp hu]
      exact succ_ne_zero _
  have hne : ∀ v, s.number v ≠ 0 → (s.cut pre (f.vertex :: suf) val frames).number v ≠ 0 := by
    intro v hv
    refine (hval v).trans_ne ?_
    split
    next h => exact succ_ne_zero _
    next h => exact hv
  refine ⟨s.cut pre (f.vertex :: suf) val frames, ?_, hcut, ?_, hne⟩
  . have hrun : popComponent digraph.length f s
        = .ok (s.cut pre (f.vertex :: suf) val s.frames) := by
      have hlength : s.stack.length = pre.length + 1 + suf.length := by
        rw [hstack, length_append, length_cons]
        omega
      unfold popComponent
      rw [hs.toNumbered.elmPlist_val (hvertex _ hf.mem_stack), ok_bind, if_pos hlow, hlength,
        hmark, ok_bind]
      dsimp only
      unfold pushEntry
      rw [if_pos hcomps, hstack, drop_left, take_left]
      rfl
    unfold componentsRound
    rw [if_pos hdone, hrun, ok_bind, popFrame_of_root hs hframes hlow]
    rfl
  . have hwhite : (s.cut pre (f.vertex :: suf) val frames).white digraph.length
        = s.white digraph.length := by
      apply Finset.filter_congr
      intro v _
      constructor
      . intro h
        by_contra hv
        exact hne v hv h
      . intro h
        refine (hval v).trans ((if_neg ?_).trans h)
        intro hv
        exact ((hs.mem_stack v).mp (hroot.mem_suf_iff.mp hv).1).1 h
    have hnext := hf.next_le
    have hwork : (s.cut pre (f.vertex :: suf) val frames).work digraph
        = ComponentsState.work digraph { s with frames := frames } := by
      unfold ComponentsState.work
      rw [hwhite]
      rfl
    rw [work_cons hframes, hwork]
    omega

theorem componentsRound_inner (hdone : f.adj.length < f.next) (hlow : f.low ≠ s.number f.vertex)
    : ∃ s', componentsRound digraph f frames s = .ok s' ∧ Progress digraph s s' := by
  have hf : IsFrame digraph s f := hs.isFrame f (hframes ▸ mem_cons_self)
  have hlt : f.low < s.number f.vertex := Nat.lt_of_le_of_ne hf.low_le hlow
  obtain ⟨parent, frames', rfl⟩ := hs.exists_parent hframes hlt
  have hparent : IsFrame digraph s parent := by
    apply hs.isFrame
    rw [hframes]
    exact mem_cons_of_mem _ mem_cons_self
  have hreach := (pairwise_cons.mp (path_tail hframes ▸ hs.path_sorted)).1 parent.vertex
    mem_cons_self
  let parent' := if f.low < parent.low then { parent with low := f.low } else parent
  have hadv : Advanced digraph s parent parent' := by
    dsimp only [parent']
    split
    next h =>
      obtain ⟨w, hw, hnum, hback⟩ := hf.low
      have hle := hparent.low_le
      exact ⟨rfl, ⟨hparent.adj_eq, hparent.next_pos, hparent.next_le, hparent.mem_stack,
        Nat.le_trans (Nat.le_of_lt h) hle, w, hw, hnum, hreach.2.trans hback⟩,
        Nat.le_of_lt h, fun t ht => Or.inl ht⟩
    next h => exact ⟨rfl, hparent, Nat.le_refl _, fun t ht => Or.inl ht⟩
  have hle : parent'.low ≤ f.low := by
    dsimp only [parent']
    split
    next h => exact Nat.le_refl _
    next h => exact Nat.le_of_not_lt h
  have hsplit : s.frames = [f] ++ parent :: frames' := hframes
  have hadvanced := hs.advance hsplit hadv
  have hpopped := hadvanced.popFrame rfl hdone hlt hle
  refine ⟨{ s with frames := parent' :: frames' }, ?_, hpopped, ?_, fun v hv => hv⟩
  . have hvertex : IsVertex digraph f.vertex :=
      hs.toNumbered.isVertex ((hs.mem_stack _).mp hf.mem_stack).1
    unfold componentsRound popComponent
    rw [if_pos hdone, hs.toNumbered.elmPlist_val hvertex, ok_bind, if_neg hlow]
    rfl
  . have hnext := hf.next_le
    have hsame : parent'.adj.length + 2 - parent'.next = parent.adj.length + 2 - parent.next := by
      dsimp only [parent']
      split
      next h => rfl
      next h => rfl
    unfold ComponentsState.work
    rw [hframes]
    simp only [map_cons, sum_cons, hsame]
    have : ComponentsState.white digraph.length { s with frames := parent' :: frames' }
        = s.white digraph.length := rfl
    rw [this]
    omega

end

theorem mem_take_of_next {adj : List Nat} {next : Nat} (h : elmPlist adj next = .ok t)
    (hv : v ∈ adj.take (next + 1 - 1)) : v ∈ adj.take (next - 1) ∨ v = t := by
  obtain ⟨hpos, hget⟩ := elmPlist_eq_ok_iff.mp h
  obtain ⟨hlt, hget⟩ := List.getElem?_eq_some_iff.mp hget
  rw [show next + 1 - 1 = next - 1 + 1 by omega, ← take_append_getElem hlt, hget] at hv
  cases mem_append.mp hv with
  | inl hv => exact Or.inl hv
  | inr hv => exact Or.inr (mem_singleton.mp hv)

theorem Advanced.of_visited (hf : IsFrame digraph s f)
    (hnext : f.next ≤ f.adj.length) (helm : elmPlist f.adj f.next = .ok t)
    (hlow : t ∈ s.stack → f.low ≤ s.number t) (ht : s.number t ≠ 0)
    : Advanced digraph s f { f with next := f.next + 1 } := by
  refine ⟨rfl, ⟨hf.adj_eq, succ_pos _, succ_le_succ hnext, hf.mem_stack, hf.low_le,
    hf.low⟩, Nat.le_refl _, fun v hv => ?_⟩
  cases mem_take_of_next helm hv with
  | inl h => exact Or.inl h
  | inr h =>
    rw [h]
    exact Or.inr ⟨ht, hlow⟩

theorem edge_of_next (hf : IsFrame digraph s f) (helm : elmPlist f.adj f.next = .ok t)
    : Edge digraph f.vertex t :=
  ⟨f.adj, hf.adj_eq, mem_of_getElem? (elmPlist_eq_ok_iff.mp helm).2⟩

section

variable (hs : Searching digraph s) (hframes : s.frames = f :: frames)
  (hnext : f.next ≤ f.adj.length) (helm : elmPlist f.adj f.next = .ok t) (ht : IsVertex digraph t)

include hs hframes hnext helm ht

theorem componentsRound_visit (hwhite : s.number t = 0)
    : ∃ s', componentsRound digraph f frames s = .ok s' ∧ Progress digraph s s' := by
  have hf : IsFrame digraph s f := hs.isFrame f (hframes ▸ mem_cons_self)
  have hreach : ∀ v ∈ s.path, Reach digraph v t := by
    intro v hv
    have hsorted := hs.path_sorted
    rw [path_tail hframes] at hv hsorted
    have hlast : Reach digraph f.vertex t := .single (edge_of_next hf helm)
    cases mem_cons.mp hv with
    | inl heq =>
      rw [heq]
      exact hlast
    | inr hv => exact ((pairwise_cons.mp hsorted).1 v hv).2.trans hlast
  obtain ⟨adj, hadj⟩ := elmPlist_of_isVertex ht
  obtain ⟨hstack, hlength⟩ := hs.length_lt ht hwhite
  have hpush := hs.push ht hwhite hadj hreach
  have hself : (s.push t adj).number t = s.now + 1 :=
    (number_push hs.toNumbered ht t).trans (if_pos rfl)
  have hadv : Advanced digraph (s.push t adj) f { f with next := f.next + 1 } := by
    apply Advanced.of_visited (hf.push hs ht hwhite) hnext helm
    . intro _
      have := hf.low_le
      have := hs.number_le_now hf.mem_stack
      omega
    . rw [hself]
      exact succ_ne_zero _
  have hsplit : (s.push t adj).frames = [⟨t, s.now + 1, 1, adj⟩] ++ f :: frames :=
    congrArg (List.cons _) hframes
  have hsearch := hpush.advance hsplit hadv
  refine ⟨ComponentsState.push { s with frames := { f with next := f.next + 1 } :: frames } t adj,
    ?_, hsearch, ?_, fun v hv => number_ne_push hs.val_length ht hv⟩
  . unfold componentsRound
    rw [if_neg (Nat.not_lt.mpr hnext), helm, ok_bind]
    rw [hs.toNumbered.elmPlist_val ht, ok_bind, if_pos hwhite]
    rw [hframes] at hlength
    exact visitVertex_eq (s := { s with frames := _ }) hs.val_length ht hadj hstack hlength
  . have hwork := work_push hs.toNumbered ht hwhite hadj
    unfold ComponentsState.work at hwork ⊢
    rw [hframes] at hwork
    have hwhite : ComponentsState.white digraph.length (ComponentsState.push
        { s with frames := { f with next := f.next + 1 } :: frames } t adj)
        = (s.push t adj).white digraph.length := rfl
    rw [hwhite, hframes, ← hwork]
    unfold ComponentsState.push
    simp only [map_cons, sum_cons, hframes]
    omega

theorem componentsRound_look (hne : s.number t ≠ 0)
    : ∃ s', componentsRound digraph f frames s = .ok s' ∧ Progress digraph s s' := by
  have hf : IsFrame digraph s f := hs.isFrame f (hframes ▸ mem_cons_self)
  have hedge := edge_of_next hf helm
  let f' : Frame := if s.number t < f.low then { f with next := f.next + 1, low := s.number t }
    else { f with next := f.next + 1 }
  have hadv : Advanced digraph s f f' := by
    dsimp only [f']
    split
    next hlt =>
      have hnow := hs.number_le_now hf.mem_stack
      have hle := hf.low_le
      have hmem : t ∈ s.stack := (hs.mem_stack t).mpr ⟨hne, by
        have := hs.toNumbered.now_le
        omega⟩
      refine ⟨rfl, ⟨hf.adj_eq, succ_pos _, succ_le_succ hnext, hf.mem_stack,
        by dsimp only; omega, t, hmem, rfl, .single hedge⟩,
        Nat.le_of_lt hlt, fun v hv => ?_⟩
      cases mem_take_of_next helm hv with
      | inl h => exact Or.inl h
      | inr h =>
        rw [h]
        exact Or.inr ⟨hne, fun _ => Nat.le_refl _⟩
    next hge => exact Advanced.of_visited hf hnext helm (fun _ => Nat.le_of_not_lt hge) hne
  have hsplit : s.frames = [] ++ f :: frames := hframes
  refine ⟨{ s with frames := f' :: frames }, ?_, hs.advance hsplit hadv, ?_, fun v hv => hv⟩
  . unfold componentsRound
    rw [if_neg (Nat.not_lt.mpr hnext), helm, ok_bind]
    rw [hs.toNumbered.elmPlist_val ht, ok_bind, if_neg hne]
    rfl
  . have hleft : f'.adj.length + 2 - f'.next + 1 = f.adj.length + 2 - f.next := by
      dsimp only [f']
      split
      next h => dsimp only; omega
      next h => dsimp only; omega
    rw [work_cons hframes, work_cons (s := { s with frames := f' :: frames }) rfl]
    dsimp only
    omega

end

theorem componentsRound_spec (hdigraph : IsDigraph digraph) (hs : Searching digraph s)
    (hframes : s.frames = f :: frames)
    : ∃ s', componentsRound digraph f frames s = .ok s' ∧ Progress digraph s s' := by
  have hf : IsFrame digraph s f := hs.isFrame f (hframes ▸ mem_cons_self)
  by_cases hdone : f.adj.length < f.next
  . by_cases hlow : f.low = s.number f.vertex
    . exact componentsRound_root hs hframes hdone hlow
    . exact componentsRound_inner hs hframes hdone hlow
  . have hnext := hf.next_pos
    have hlt : f.next - 1 < f.adj.length := by
      omega
    have helm : elmPlist f.adj f.next = .ok f.adj[f.next - 1] :=
      elmPlist_eq_ok_iff.mpr ⟨hnext, getElem?_eq_getElem hlt⟩
    have ht := isVertex_of_edge hdigraph (edge_of_next hf helm)
    by_cases hwhite : s.number f.adj[f.next - 1] = 0
    . exact componentsRound_visit hs hframes (Nat.le_of_not_lt hdone) helm ht hwhite
    . exact componentsRound_look hs hframes (Nat.le_of_not_lt hdone) helm ht hwhite

theorem componentsLoop_spec (hdigraph : IsDigraph digraph) {fuel : Nat}
    (hs : Searching digraph s) (hfuel : s.work digraph < fuel)
    : ∃ s', componentsLoop digraph fuel s = .ok s' ∧ Searching digraph s' ∧ s'.frames = []
      ∧ ∀ v, s.number v ≠ 0 → s'.number v ≠ 0 := by
  induction fuel generalizing s with
  | zero => omega
  | succ fuel ih =>
    unfold componentsLoop
    split
    next hframes => exact ⟨s, rfl, hs, hframes, fun v hv => hv⟩
    next f frames hframes =>
      obtain ⟨s1, hrun, hs1⟩ := componentsRound_spec hdigraph hs hframes
      have hwork := hs1.work_eq
      obtain ⟨s', hrun', hs', hempty, hne⟩ := ih hs1.searching (by omega)
      rw [hrun, ok_bind]
      exact ⟨s', hrun', hs', hempty, fun v hv => hne v (hs1.number_ne v hv)⟩

end Round

theorem sum_length_eq (l : List (List Nat))
    : ∑ v ∈ Finset.Icc 1 l.length, (l.getD (v - 1) []).length = l.flatten.length := by
  induction l using reverseRecOn with
  | nil => rfl
  | append_singleton l x ih =>
    rw [length_append, length_singleton, Finset.sum_Icc_succ_top (succ_pos _),
      flatten_concat, length_append, ← ih, Nat.add_sub_cancel]
    congr 1
    . apply Finset.sum_congr rfl
      intro v hv
      rw [Finset.mem_Icc] at hv
      rw [getD_eq_getElem?_getD, getD_eq_getElem?_getD,
        getElem?_append_left (by omega)]
    . rw [getD_eq_getElem?_getD, getElem?_concat_length]
      rfl

theorem work_le (h : s.frames = [])
    : s.work digraph ≤ digraph.flatten.length + digraph.length := by
  unfold ComponentsState.work
  rw [h, map_nil, sum_nil, Nat.add_zero, ← sum_length_eq digraph]
  apply Nat.le_trans (Finset.sum_le_sum_of_subset (Finset.filter_subset _ _))
  rw [Finset.sum_add_distrib, Finset.sum_const, card_Icc]
  simp

theorem componentsFrom_spec (hdigraph : IsDigraph digraph) {k : Nat} (hk : IsVertex digraph k)
    (hs : Searching digraph s) (hframes : s.frames = [])
    : ∃ s', componentsFrom digraph k s = .ok s' ∧ Searching digraph s' ∧ s'.frames = []
      ∧ s'.number k ≠ 0 ∧ ∀ v, s.number v ≠ 0 → s'.number v ≠ 0 := by
  unfold componentsFrom
  rw [hs.toNumbered.elmPlist_val hk, ok_bind]
  split
  next hwhite =>
    have hpath : ∀ v ∈ s.path, Reach digraph v k := by
      intro v hv
      unfold ComponentsState.path at hv
      rw [hframes] at hv
      cases hv
    obtain ⟨s1, hrun, hs1, hwork, hne, hnumber⟩ := visitVertex_spec hs hk hwhite hpath
    have hlt : s1.work digraph < digraph.flatten.length + digraph.length + 1 := by
      rw [hwork]
      exact lt_succ_of_le (work_le hframes)
    obtain ⟨s', hrun', hs', hempty, hnumber'⟩ := componentsLoop_spec hdigraph hs1 hlt
    rw [hrun, ok_bind]
    exact ⟨s', hrun', hs', hempty, hnumber' k hne, fun v hv => hnumber' v (hnumber v hv)⟩
  next hne => exact ⟨s, rfl, hs, hframes, hne, fun v hv => hv⟩

theorem searching_init (digraph : List (List Nat))
    : Searching digraph ⟨replicate digraph.length 0, [], [], 0, []⟩ := by
  have hnumber : ∀ v, ComponentsState.number ⟨replicate digraph.length 0, [], [], 0, []⟩ v
      = 0 := by
    intro v
    unfold ComponentsState.number
    rw [← nil_append (replicate _ _), entryPlist_append_replicate]
    cases v with
    | zero => rfl
    | succ v => rfl
  have hwhite : ComponentsState.white digraph.length
      ⟨replicate digraph.length 0, [], [], 0, []⟩ = Finset.Icc 1 digraph.length :=
    Finset.filter_true_of_mem fun v _ => hnumber v
  refine ⟨⟨length_replicate, ?_, ?_, ?_, .nil, ?_, .nil, ?_, ?_, ?_⟩, ?_, .nil, ?_, ?_, ?_⟩
  . rw [hwhite, card_Icc]
    simp
  . intro v
    rw [hnumber]
    exact Or.inl (Nat.zero_le _)
  . intro v
    rw [hnumber]
    simp
  . intro v
    rw [hnumber]
    simp
  . intro comp hcomp
    cases hcomp
  . intro comp hcomp
    cases hcomp
  . intro u hu
    rw [hnumber] at hu
    cases hu
  . intro f hf
    cases hf
  . intro u hu
    cases hu
  . intro u hu
    cases hu
  . intro u t hu
    exact absurd (hnumber u) hu

theorem isComponents_of_searching (hs : Searching digraph s) (hframes : s.frames = [])
    (hall : ∀ v, IsVertex digraph v → s.number v ≠ 0) : IsComponents digraph s.comps := by
  have hstack : ∀ v, v ∉ s.stack := by
    intro v hv
    obtain ⟨f, hf⟩ := hs.anchor v hv
    have hmem := hf.mem
    rw [hframes] at hmem
    cases hmem
  have hcomps : ∀ v, IsVertex digraph v → v ∈ s.comps.flatten := by
    intro v hv
    rw [hs.mem_comps]
    by_contra hne
    exact hstack v ((hs.mem_stack v).mpr ⟨hall v hv, hne⟩)
  constructor
  . intro v hv
    apply hs.toNumbered.isVertex
    rw [(hs.mem_comps v).mp hv]
    exact succ_ne_zero _
  . intro v hv
    exact count_eq_one_of_mem hs.comps_nodup (hcomps v hv)
  . intro u v hu _
    obtain ⟨comp, hcomp, hucomp⟩ := mem_flatten.mp (hcomps u hu)
    constructor
    . rintro ⟨comp', hcomp', hu', hv'⟩
      exact (hs.component comp' hcomp' u hu' v).mp hv'
    . intro hreach
      exact ⟨comp, hcomp, hucomp, (hs.component comp hcomp u hucomp v).mpr hreach⟩

theorem funcStronglyConnectedComponentsDigraph_spec (digraph : List (List Nat))
    (hdigraph : IsDigraph digraph)
    : ∃ comps, funcStronglyConnectedComponentsDigraph digraph = .ok comps
      ∧ IsComponents digraph comps := by
  unfold funcStronglyConnectedComponentsDigraph
  dsimp only
  split
  next hnil =>
    refine ⟨[], rfl, (fun v hv => nomatch hv), fun v hv => ?_, fun u v hu => ?_⟩
    . have := hv.1
      have := hv.2
      omega
    . have := hu.1
      have := hu.2
      omega
  next hpos =>
    have hstep : ∀ j s, 1 ≤ j → j < 1 + digraph.length
        → (Searching digraph s ∧ s.frames = [] ∧ ∀ v, 0 < v → v < j → s.number v ≠ 0)
        → ∃ s', componentsFrom digraph j s = .ok s' ∧ Searching digraph s' ∧ s'.frames = []
          ∧ ∀ v, 0 < v → v < j + 1 → s'.number v ≠ 0 := by
      rintro j s hle hlt ⟨hs, hframes, hall⟩
      obtain ⟨s', hrun, hs', hframes', hj, hnumber⟩ := componentsFrom_spec hdigraph
        ⟨hle, by omega⟩ hs hframes
      refine ⟨s', hrun, hs', hframes', fun v hpos hv => ?_⟩
      by_cases heq : v = j
      . rw [heq]
        exact hj
      . exact hnumber v (hall v hpos (by omega))
    obtain ⟨s, hrun, hs, hframes, hall⟩ := forLoop_spec _ hstep
      ⟨searching_init digraph, rfl, fun v hpos hv => by omega⟩
    rw [hrun]
    exact ⟨s.comps, rfl, isComponents_of_searching hs hframes
      fun v hv => hall v hv.1 (by have := hv.2; omega)⟩

def exampleDigraph : List (List Nat) :=
  [[2, 3], [1], [2], [4, 5, 5], [], [1, 5]]

theorem funcStronglyConnectedComponentsDigraph_example
    : ∃ comps, funcStronglyConnectedComponentsDigraph exampleDigraph = .ok comps
      ∧ IsComponents exampleDigraph comps :=
  funcStronglyConnectedComponentsDigraph_spec exampleDigraph
    (by unfold IsDigraph IsVertex exampleDigraph; decide)

end ListFunc
