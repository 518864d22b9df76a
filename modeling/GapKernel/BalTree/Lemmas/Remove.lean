import GapKernel.BalTree.Lemmas.Insert

open List

namespace BalTree

variable {E : Type} {s : BalTree E} {d : Ctx E} {t l r : Shape E} {p : Ptr} {x : E}

theorem Valid.maxnodes {T : Shape E} (hs : Valid s T) (n : Int)
    : Valid { s with maxnodes := n } T :=
  ⟨⟨hs.root, hs.holds, hs.nodup, hs.allocated, hs.bounds, hs.next_pos⟩, hs.nodes⟩

theorem Valid.unlink (hs : Valid s (d.fill (.node l p x r))) (ht : t.Holds s.heap)
    (hperm : (Shape.node l p x r).ptrs.Perm (p :: t.ptrs))
    : ∃ s', s.write d.loc t.ptr = .ok s' ∧ Rep (s'.dealloc p) (d.fill t) ∧ s'.nodes = s.nodes := by
  have hmem : p ∈ (Shape.node l p x r).ptrs := by
    simp
  have hmem' : ∀ a ∈ t.ptrs, a ∈ (Shape.node l p x r).ptrs := by
    intro a ha
    rw [hperm.mem_iff]
    exact mem_cons_of_mem _ ha
  have hnodup : (d.ptrs ++ p :: t.ptrs).Nodup := by
    rw [← (hperm.append_left d.ptrs).nodup_iff]
    exact (d.ptrs_fill_perm _).nodup_iff.mp hs.nodup
  rw [nodup_append', nodup_cons, disjoint_cons_right] at hnodup
  obtain ⟨root, h, hwrite, hd, hframe, hallocated⟩ :=
    hs.toRep.ctx_holds.write hs.toRep.ctx_nodup t.ptr
  have ht' : t.Holds h := by
    apply ht.congr
    intro a ha
    exact hframe a (hs.toRep.not_mem_ctx (hmem' a ha))
  refine ⟨_, hwrite, Rep.of_fill ?_ ?_ ?_ ?_ ?_ hs.next_pos, rfl⟩
  . exact hd.update hnodup.2.2.1 _
  . exact ht'.update hnodup.2.1.1 _
  . rw [nodup_append']
    exact ⟨hnodup.1, hnodup.2.1.2, hnodup.2.2.2⟩
  . intro a
    unfold dealloc
    dsimp only
    by_cases ha : a = p
    . subst ha
      rw [Function.update_self]
      have := hnodup.2.1.1
      have := hnodup.2.2.1
      tauto
    . rw [Function.update_of_ne ha, hallocated, hs.allocated, Rep.mem_fill, hperm.mem_iff,
        mem_cons]
      tauto
  . intro a ha
    apply hs.bounds
    rw [Rep.mem_fill]
    exact ha.imp_right (hmem' a)

theorem finishRemove_spec {T : Shape E} (hs : Rep (s.dealloc p) T) (hnodes : s.nodes = T.size + 1)
    : ∃ s', ∃ T' : Shape E, s.finishRemove p = .ok s' ∧ Valid s' T' ∧ T'.items = T.items := by
  have hvalid : Valid { s.dealloc p with nodes := s.nodes - 1 } T := by
    refine ⟨⟨hs.root, hs.holds, hs.nodup, hs.allocated, hs.bounds, hs.next_pos⟩, ?_⟩
    change s.nodes - 1 = _
    omega
  have hsize : s.nodes - 1 = T.size := by
    omega
  unfold finishRemove
  dsimp only
  split
  . split
    . obtain ⟨s', T', hrebalance, hvalid', -, hentries, -⟩ := Valid.rebalance (d := .top) hvalid
      have hitems : T'.items = T.items := congrArg (List.map Prod.snd) hentries
      dsimp only [Ctx.loc, dealloc] at hrebalance ⊢
      rw [hsize] at hrebalance ⊢
      rw [hrebalance, ok_bind]
      exact ⟨_, T', rfl, hvalid'.maxnodes _, hitems⟩
    . exact ⟨_, T, rfl, hvalid.maxnodes _, rfl⟩
  . exact ⟨_, T, rfl, hvalid, rfl⟩

theorem successor_spec (ht : t ≠ .nil)
    : ∃ c q y r', t = Ctx.fill c (.node .nil q y r') ∧ c.before = [] ∧
        ∀ (d : Ctx E) (s : BalTree E) (fuel : Nat), Rep s (d.fill t) → t.size ≤ fuel →
          successor fuel s d.loc = .ok (d.comp c).loc := by
  induction t with
  | nil => contradiction
  | node l p x r ihl =>
    have hsuccessor (d : Ctx E) (s : BalTree E) (fuel : Nat)
        (hs : Rep s (d.fill (.node l p x r))) (hfuel : (Shape.node l p x r).size ≤ fuel) :
        ∃ fuel', fuel = fuel' + 1 ∧ l.size ≤ fuel' ∧ successor fuel s d.loc =
          if l.ptr ≠ none then successor fuel' s (.left p) else .ok d.loc := by
      rw [Shape.size_node] at hfuel
      obtain ⟨fuel, rfl⟩ := Nat.exists_eq_succ_of_ne_zero (by omega : fuel ≠ 0)
      refine ⟨fuel, rfl, by omega, ?_⟩
      rw [Nat.succ_eq_add_one, successor]
      rw [hs.ctx_holds.read, ok_bind]
      rw [show deref (Shape.node l p x r).ptr = .ok p from rfl, ok_bind]
      rw [node_of_heap hs.hole_holds.1, ok_bind]
      rfl
    cases l with
    | nil =>
      refine ⟨.top, p, x, r, rfl, rfl, ?_⟩
      intro d s fuel hs hfuel
      obtain ⟨fuel', rfl, -, hsucc⟩ := hsuccessor d s fuel hs hfuel
      rw [hsucc]
      rfl
    | node ll lp lx lr =>
      obtain ⟨c, q, y, r', heq, hbefore, hrec⟩ := ihl (by simp)
      refine ⟨(Ctx.left .top p x r).comp c, q, y, r', ?_, ?_, ?_⟩
      . rw [Ctx.fill_comp, ← heq]
        rfl
      . rw [Ctx.before_comp, hbefore]
        rfl
      . intro d s fuel hs hfuel
        obtain ⟨fuel', rfl, hfuel', hsucc⟩ := hsuccessor d s fuel hs hfuel
        rw [hsucc, if_pos (by simp), ← Ctx.comp_assoc]
        exact hrec (.left d p x r) s fuel' hs hfuel'

theorem removeNode_spec (fuel : Nat) (s : BalTree E) (d : Ctx E) (l r : Shape E) (p : Ptr) (x : E)
    (hs : Valid s (d.fill (.node l p x r))) (hfuel : (Shape.node l p x r).size ≤ fuel)
    : ∃ s', ∃ T' : Shape E, removeNode fuel s d.loc = .ok s' ∧ Valid s' T' ∧
        T'.items = d.before.map Prod.snd ++ (l.items ++ r.items) ++ d.after.map Prod.snd := by
  induction fuel generalizing s d l r p x with
  | zero =>
    rw [Shape.size_node] at hfuel
    omega
  | succ fuel ih =>
    rw [Shape.size_node] at hfuel
    have hholds := hs.toRep.hole_holds
    unfold removeNode
    rw [hs.toRep.ctx_holds.read, ok_bind]
    rw [show deref (Shape.node l p x r).ptr = .ok p from rfl, ok_bind]
    rw [node_of_heap hholds.1, ok_bind]
    have hfinish (t : Shape E) (ht : t.Holds s.heap)
        (hperm : (Shape.node l p x r).ptrs.Perm (p :: t.ptrs))
        (hitems : t.items = l.items ++ r.items) :
        ∃ s', ∃ T' : Shape E, (s.write d.loc t.ptr >>= fun s => s.finishRemove p) = .ok s' ∧
          Valid s' T' ∧
          T'.items = d.before.map Prod.snd ++ (l.items ++ r.items) ++ d.after.map Prod.snd := by
      obtain ⟨s₁, hwrite, hrep, hnodes⟩ := hs.unlink ht hperm
      have hsize : s₁.nodes = (d.fill t).size + 1 := by
        have hlength := congrArg List.length hitems
        rw [length_append] at hlength
        simp only [Shape.length_items] at hlength
        rw [hnodes, hs.nodes, Ctx.size_fill, Ctx.size_fill, Shape.size_node, hlength]
        omega
      obtain ⟨s', T', hremove, hvalid, hitems'⟩ := finishRemove_spec hrep hsize
      rw [hwrite, ok_bind]
      refine ⟨s', T', hremove, hvalid, ?_⟩
      rw [hitems', Ctx.items_fill, hitems]
    split
    . split
      . next hl hr =>
        have hr' : r ≠ .nil := by
          rintro rfl
          exact hr rfl
        obtain ⟨c, q, y, r', rfl, hbefore, hsuccessor⟩ := successor_spec hr'
        have hloc : ((Ctx.right d l p x).comp c).loc = ((Ctx.right d l p y).comp c).loc := by
          cases c <;> rfl
        have hs' : Rep s (((Ctx.right d l p x).comp c).fill (.node .nil q y r')) := by
          rw [Ctx.fill_comp]
          exact hs.toRep
        have hfuel' := hs.toRep.size_hole_lt_fuel
        rw [Shape.size_node] at hfuel'
        rw [show NodeAddr.right p = (Ctx.right d l p x).loc from rfl]
        rw [hsuccessor (.right d l p x) s s.fuel hs.toRep (by omega), ok_bind]
        rw [hs'.ctx_holds.read, ok_bind]
        rw [show deref (Shape.node .nil q y r').ptr = .ok q from rfl, ok_bind]
        rw [item_of_heap hs'.hole_holds.1, ok_bind]
        obtain ⟨s₁, hset, hvalid₁⟩ := hs.setItem y
        rw [hset, ok_bind, hloc]
        have hvalid₁' : Valid s₁ (((Ctx.right d l p y).comp c).fill (.node .nil q y r')) := by
          rw [Ctx.fill_comp]
          exact hvalid₁
        rw [Ctx.size_fill] at hfuel
        obtain ⟨s', T', hremove, hvalid, hitems⟩ :=
          ih s₁ _ .nil r' q y hvalid₁' (by omega)
        refine ⟨s', T', hremove, hvalid, ?_⟩
        rw [hitems, Ctx.before_comp, Ctx.after_comp, Ctx.items_fill, hbefore]
        simp [Ctx.before, Ctx.after, Shape.items, Shape.entries]
      . next hl hr =>
        have hr' : r = .nil := by
          cases r with
          | nil => rfl
          | node => simp at hr
        subst hr'
        apply hfinish l hholds.2.1
        . simp
        . simp
    . next hl =>
      have hl' : l = .nil := by
        cases l with
        | nil => rfl
        | node => simp at hl
      subst hl'
      apply hfinish r hholds.2.2
      . simp
      . simp

theorem removeAux_spec {compare : E → E → Int} (hcompare : IsCompare compare) (fuel : Nat)
    (d : Ctx E) (t : Shape E) (hs : Valid s (d.fill t)) (hd : d.Follows compare x)
    (hinc : Increasing compare (d.fill t).items) (hfuel : t.size < fuel)
    : ∃ s', ∃ T' : Shape E, removeAux compare fuel s d.loc x = .ok s' ∧ Valid s' T' ∧
        T'.items = (d.fill t).items.filter (fun y => compare x y ≠ 0) := by
  induction t generalizing fuel d with
  | nil =>
    obtain ⟨fuel, rfl⟩ := Nat.exists_eq_succ_of_ne_zero (Nat.ne_zero_of_lt hfuel)
    refine ⟨s, _, ?_, hs, ?_⟩
    . unfold removeAux
      rw [hs.toRep.ctx_holds.read]
      rfl
    . obtain ⟨-, hbefore, hafter⟩ := hd.compare_items hcompare hinc
      rw [Ctx.items_fill, Increasing.filter_compare_ne hbefore (by simp) hafter]
      simp
  | node l p y r ihl ihr =>
    obtain ⟨fuel, rfl⟩ := Nat.exists_eq_succ_of_ne_zero (Nat.ne_zero_of_lt hfuel)
    have hsize := hs.toRep.size_hole_lt_fuel
    rw [Shape.size_node] at hfuel
    unfold removeAux
    rw [hs.toRep.ctx_holds.read, ok_bind]
    dsimp only [Shape.ptr]
    rw [item_of_heap hs.toRep.hole_holds.1, ok_bind]
    split
    . next hlt => exact ihl fuel (.left d p y r) hs ⟨hlt, hd⟩ hinc (by omega)
    . next hlt =>
      split
      . next hgt => exact ihr fuel (.right d l p y) hs ⟨hgt, hd⟩ hinc (by omega)
      . next hgt =>
        have hxy : compare x y = 0 := by omega
        obtain ⟨s', T', hremove, hvalid, hitems⟩ :=
          removeNode_spec s.fuel s d l r p y hs (by omega)
        refine ⟨s', T', hremove, hvalid, ?_⟩
        obtain ⟨hbefore, hafter⟩ := hd.compare_around hcompare hxy hinc
        rw [hitems, items_fill_node,
          Increasing.filter_compare_ne hbefore (by simpa using hxy) hafter]
        simp

end BalTree
