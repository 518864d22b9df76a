import GapKernel.CosetTable.Lemmas.Scan
import Mathlib.Order.Interval.Finset.Nat

open PartialAction List

structure RelatorLists (m : Nat) where
  words : List (List (List Nat))
  width : words.length = 2 * m
  start : ∀ i, ∀ ws, words[i]? = some ws → ∀ w ∈ ws, w.head? = some (i + 1)
  letters : ∀ ws ∈ words, ∀ w ∈ ws, ∀ a ∈ w, 0 < a ∧ a ≤ 2 * m
  -- The lists are sets.
  nodup : ∀ ws ∈ words, ws.Nodup
  rotation : ∀ a w, (∃ ws ∈ words, a :: w ∈ ws) → ∃ ws ∈ words, w ++ [a] ∈ ws
  inverse : ∀ w, (∃ ws ∈ words, w ∈ ws) → ∃ ws ∈ words, invWord CosetTable.invCol w ∈ ws

namespace RelatorLists

variable {m : Nat}

def rels (R : RelatorLists m) : Set (List Nat) :=
  { w | ∃ ws ∈ R.words, w ∈ ws }

def bags (R : RelatorLists m) : List (List (List Nat)) :=
  R.words.map (List.map CosetTable.relBag)

def column (R : RelatorLists m) (a : Nat) : List (List Nat) :=
  R.words.getD (a - 1) []

theorem rotates (R : RelatorLists m) (a : Nat) (w : List Nat) (h : a :: w ∈ R.rels)
    : w ++ [a] ∈ R.rels := by
  apply R.rotation
  exact h

variable {a : Nat}

section

variable (R : RelatorLists m)

include R

theorem column_mem (ha : 0 < a ∧ a ≤ 2 * m)
    : R.column a ∈ R.words := by
  have hlt : a - 1 < R.words.length := by
    rw [R.width]
    omega
  unfold column
  rw [getD_eq_getElem _ _ hlt]
  apply getElem_mem

theorem elmPlist_bags (ha : 0 < a ∧ a ≤ 2 * m)
    : elmPlist R.bags a = .ok ((R.column a).map CosetTable.relBag) := by
  cases a with
  | zero => omega
  | succ a =>
    have hlt : a < R.words.length := by
      rw [R.width]
      omega
    unfold elmPlist bags column
    rw [Nat.add_sub_cancel]
    rw [getD_eq_getElem _ _ hlt]
    simp [hlt]
    rfl

theorem letters_mem {w : List Nat} (hw : w ∈ R.rels)
    : ∀ a ∈ w, 0 < a ∧ a ≤ 2 * m := by
  obtain ⟨ws, hws, hmem⟩ := hw
  exact R.letters ws hws w hmem

theorem cons_mem_column_iff (ha : 0 < a ∧ a ≤ 2 * m) (v : List Nat)
    : a :: v ∈ R.column a ↔ a :: v ∈ R.rels := by
  constructor
  . intro h
    exact ⟨R.column a, R.column_mem ha, h⟩
  . intro h
    obtain ⟨ws, hws, hmem⟩ := h
    rw [mem_iff_getElem?] at hws
    rcases hws with ⟨i, hi⟩
    have hhead := R.start i ws hi (a :: v) hmem
    rw [head?_cons, Option.some.injEq] at hhead
    unfold column
    rw [hhead, Nat.add_sub_cancel]
    rw [getD_eq_getElem?_getD, hi]
    rw [hhead] at hmem
    exact hmem

theorem exists_cons_of_mem_column (ha : 0 < a ∧ a ≤ 2 * m) {w : List Nat} (h : w ∈ R.column a)
    : ∃ v, w = a :: v := by
  have hget : R.words[a - 1]? = some (R.column a) := by
    unfold column
    have hlt : a - 1 < R.words.length := by
      rw [R.width]
      omega
    rw [getD_eq_getElem _ _ hlt]
    rw [getElem?_eq_getElem hlt]
  have hhead := R.start (a - 1) (R.column a) hget w h
  cases w with
  | nil => cases hhead
  | cons b v =>
    rw [head?_cons, Option.some.injEq] at hhead
    apply Exists.intro v
    rw [hhead]
    congr 1
    omega

end

def invRel (w : List Nat) : List Nat :=
  match w with
  | [] => []
  | a :: v => CosetTable.invCol a :: invWord CosetTable.invCol v

theorem invRel_inj : Function.Injective invRel := by
  intro w w' h
  cases w with
  | nil =>
    cases w' with
    | nil => rfl
    | cons b v => cases h
  | cons a v =>
    cases w' with
    | nil => cases h
    | cons b v' =>
      unfold invRel at h
      rw [List.cons.injEq] at h
      rw [CosetTable.involutive_invCol.injective h.1]
      rw [← invWord_invWord CosetTable.involutive_invCol v, h.2]
      rw [invWord_invWord CosetTable.involutive_invCol]

theorem length_column_le (R : RelatorLists m) (ha : 0 < a ∧ a ≤ 2 * m)
    : (R.column a).length ≤ (R.column (CosetTable.invCol a)).length := by
  have hnodup : ((R.column a).map invRel).Nodup := by
    rw [nodup_map_iff invRel_inj]
    exact R.nodup _ (R.column_mem ha)
  have hsub : (R.column a).map invRel ⊆ R.column (CosetTable.invCol a) := by
    intro w hw
    rw [mem_map] at hw
    obtain ⟨w', hw', rfl⟩ := hw
    obtain ⟨v, rfl⟩ := R.exists_cons_of_mem_column ha hw'
    unfold invRel
    rw [R.cons_mem_column_iff (CosetTable.invCol_mem ha)]
    rw [R.cons_mem_column_iff ha] at hw'
    have hinv : invWord CosetTable.invCol (a :: v) ∈ R.rels := R.inverse _ hw'
    rw [invWord_cons] at hinv
    exact mem_of_rotation R.rotates hinv
  have := (subperm_of_subset hnodup hsub).length_le
  rw [length_map] at this
  exact this

theorem length_column_invCol (R : RelatorLists m) (ha : 0 < a ∧ a ≤ 2 * m)
    : (R.column (CosetTable.invCol a)).length = (R.column a).length := by
  apply Nat.le_antisymm
  . have := R.length_column_le (CosetTable.invCol_mem ha)
    rw [CosetTable.involutive_invCol a] at this
    exact this
  . exact R.length_column_le ha

end RelatorLists

namespace ScanStack

structure Holds (s : ScanStack) (sd : Nat) (items : List (Nat × Nat)) : Prop where
  pos : 0 < sd
  le : items.length ≤ sd
  size1 : sd ≤ s.s1.length
  size2 : sd ≤ s.s2.length
  items1 : ∃ rest, s.s1 = items.map Prod.fst ++ rest
  items2 : ∃ rest, s.s2 = items.map Prod.snd ++ rest

variable {s : ScanStack} {sd : Nat} {items : List (Nat × Nat)}

theorem setElmPlist_next {u rest : List Nat} {k x : Nat} (hrest : rest ≠ []) (hk : k = u.length + 1)
    : ∃ rest', setElmPlist (u ++ rest) k x = .ok ((u ++ [x]) ++ rest')
        ∧ rest.length = rest'.length + 1 := by
  cases rest with
  | nil => exact absurd rfl hrest
  | cons y rest =>
    apply Exists.intro rest
    constructor
    . rw [hk, setElmPlist_append_cons]
      simp
    . rfl

theorem push_array {l u : List Nat} {k : Nat} (sd x : Nat) (hl : ∃ rest, l = u ++ rest)
    (hk : k = u.length + 1) (hle : k ≤ sd)
    : ∃ l', setElmPlist (l ++ replicate (sd - l.length) 0) k x = .ok l'
        ∧ (∃ rest, l' = (u ++ [x]) ++ rest) ∧ sd ≤ l'.length := by
  obtain ⟨rest, rfl⟩ := hl
  rw [append_assoc]
  have hlen : (rest ++ replicate (sd - (u ++ rest).length) 0).length + u.length ≥ sd := by
    simp
    omega
  have hne : rest ++ replicate (sd - (u ++ rest).length) 0 ≠ [] := by
    intro h
    rw [h] at hlen
    simp at hlen
    omega
  obtain ⟨rest', hset, hrest'⟩ := setElmPlist_next (x := x) hne hk
  refine ⟨_, hset, ⟨rest', rfl⟩, ?_⟩
  simp
  omega

theorem Holds.push_spec (h : s.Holds sd items) (setLen : Bool) (d x : Nat)
    : ∃ s' sd', s.push setLen (items.length + 1) sd d x = .ok (s', sd')
        ∧ s'.Holds sd' (items ++ [(d, x)]) := by
  have hpos := h.pos
  have hle := h.le
  have hsize1 := h.size1
  have hsize2 := h.size2
  unfold push
  split
  . next hlt =>
    obtain ⟨l1, hset1, hrest1, hlen1⟩ := push_array (k := items.length + 1) (2 * sd) d h.items1
      (by simp) (by omega)
    obtain ⟨l2, hset2, hrest2, hlen2⟩ := push_array (k := items.length + 1) (2 * sd) x h.items2
      (by simp) (by omega)
    dsimp only
    rw [hset1, ok_bind, hset2, ok_bind]
    refine ⟨_, _, rfl, ?_⟩
    constructor
    . omega
    . simp
      omega
    . exact hlen1
    . exact hlen2
    . rw [map_append]
      exact hrest1
    . rw [map_append]
      exact hrest2
  . next hlt =>
    obtain ⟨l1, hset1, hrest1, hlen1⟩ := push_array (k := items.length + 1) sd d h.items1
      (by simp) (by omega)
    obtain ⟨l2, hset2, hrest2, hlen2⟩ := push_array (k := items.length + 1) sd x h.items2
      (by simp) (by omega)
    rw [Nat.sub_eq_zero_of_le hsize1, replicate_zero, append_nil] at hset1
    rw [Nat.sub_eq_zero_of_le hsize2, replicate_zero, append_nil] at hset2
    rw [hset1, ok_bind, hset2, ok_bind]
    refine ⟨_, _, rfl, ?_⟩
    constructor
    . exact hpos
    . simp
      omega
    . exact hlen1
    . exact hlen2
    . rw [map_append]
      exact hrest1
    . rw [map_append]
      exact hrest2

theorem Holds.elm_last {d x : Nat} (h : s.Holds sd (items ++ [(d, x)]))
    : elmPlist s.s1 (items.length + 1) = .ok d ∧ elmPlist s.s2 (items.length + 1) = .ok x := by
  obtain ⟨rest1, h1⟩ := h.items1
  obtain ⟨rest2, h2⟩ := h.items2
  rw [h1, h2]
  rw [map_append, map_append]
  constructor
  . have := elmPlist_append_cons (items.map Prod.fst) rest1 d
    rw [length_map] at this
    simpa using this
  . have := elmPlist_append_cons (items.map Prod.snd) rest2 x
    rw [length_map] at this
    simpa using this

theorem Holds.init {item : Nat × Nat} (h : s.Holds sd (items ++ [item])) : s.Holds sd items := by
  have hle := h.le
  rw [length_append] at hle
  constructor
  . exact h.pos
  . omega
  . exact h.size1
  . exact h.size2
  . obtain ⟨rest, hrest⟩ := h.items1
    rw [hrest, map_append, append_assoc]
    exact ⟨_, rfl⟩
  . obtain ⟨rest, hrest⟩ := h.items2
    rw [hrest, map_append, append_assoc]
    exact ⟨_, rfl⟩

theorem Holds.clear_spec (h : s.Holds sd items) : ∃ s', s.clear sd = .ok s' := by
  unfold clear
  rw [if_pos ⟨h.size1, h.size2⟩]
  exact ⟨_, rfl⟩

end ScanStack

namespace CosetTable

def undefined (t : CosetTable) (m n : Nat) : Finset (Nat × Nat) :=
  (Finset.Icc 1 (2 * m) ×ˢ Finset.Icc 1 n).filter (fun cell => t.entry cell.1 cell.2 = 0)

theorem card_undefined_lt {t t' : CosetTable} {m n a q r : Nat} (hwf' : t'.Wf m n)
    (hdef : Defines invCol t.action t'.action a q r)
    : (t'.undefined m n).card < (t.undefined m n).card := by
  apply Finset.card_lt_card
  rw [Finset.ssubset_iff_of_subset]
  . have hmem := hwf'.action_mem hdef.entry
    have hundef := hdef.undef
    have hentry := hdef.entry
    rw [action_eq_none_iff] at hundef
    rw [action_eq_some_iff] at hentry
    apply Exists.intro (a, q)
    unfold undefined
    simp
    omega
  . intro cell hcell
    unfold undefined at hcell ⊢
    rw [Finset.mem_filter] at hcell ⊢
    apply And.intro hcell.1
    rw [← action_eq_none_iff] at hcell ⊢
    cases h : t.action cell.1 cell.2 with
    | none => rfl
    | some s =>
      have := hdef.extends _ _ _ h
      rw [hcell.2] at this
      cases this

theorem card_undefined_le {t : CosetTable} {m n : Nat} (hwf : t.Wf m n)
    : (t.undefined m n).card ≤ t.size := by
  have hsize : t.size = 2 * m * n := by
    unfold size
    rw [map_congr_left (g := fun _ => n) hwf.height]
    simp [hwf.width]
  rw [hsize]
  unfold undefined
  apply Nat.le_trans (Finset.card_filter_le _ _)
  simp

section

variable {m n : Nat} (R : RelatorLists m) (t0 : CosetTable)

def stackScans (t : CosetTable) (items : List (Nat × Nat)) : Set (Nat × List Nat) :=
  { s | ∃ item ∈ items, ∃ e, t.action item.2 item.1 = some e
      ∧ s ∈ entryScans invCol R.rels item.2 item.1 e }

structure Inv (n : Nat) (st : ScanState) (pending : Set (Nat × List Nat))
    (items : List (Nat × Nat)) : Prop where
  wf : st.t.Wf m n
  inverse : Inverse invCol st.t.action
  extend : Extends t0.action st.t.action
  forced : ∀ a p q, st.t.action a p = some q → Forced invCol t0.action R.rels (cosets n) a p q
  stack : st.stack.Holds st.sd items
  j : st.j = items.length
  entries : ∀ item ∈ items, item.2 % 2 = 1 ∧ ∃ e, st.t.action item.2 item.1 = some e
  settled : Settled invCol st.t.action R.rels (cosets n) (pending ∪ stackScans R st.t items)

def NoCompletion (n : Nat) : Prop :=
  ∀ (Ω : Type) (act : Nat → Ω → Ω) (point : Nat → Ω),
    ¬ Completion invCol t0.action R.rels (cosets n) act point

variable {R} {t0}

variable {items : List (Nat × Nat)}

theorem stackScans_mono {t t' : CosetTable} (hext : Extends t.action t'.action) {item : Nat × Nat}
    : stackScans R t items ⊆ stackScans R t' (items ++ [item]) := by
  intro s hs
  obtain ⟨item', hmem, e, he, hs⟩ := hs
  exact ⟨item', by simp [hmem], e, hext _ _ _ he, hs⟩

variable {st : ScanState} {pending : Set (Nat × List Nat)} {w : List Nat} {p : Nat}

theorem Inv.of_closed (h : Inv R t0 n st (insert (p, w) pending) items)
    (hc : Closed invCol st.t.action w p)
    : Inv R t0 n st pending items :=
  { h with
    settled := by
      have := h.settled
      rw [Set.insert_union] at this
      exact this.scanned involutive_invCol h.inverse hc }

theorem Inv.noCompletion (h : Inv R t0 n st pending items) (hw : w ∈ R.rels) (hp : p ∈ cosets n)
    (hc : Conflict invCol st.t.action w p)
    : NoCompletion R t0 n := by
  intro Ω act point hcomp
  exact hcomp.not_conflict involutive_invCol h.forced h.inverse h.wf.action_dom hw hp hc

variable {d : Nat}

theorem Inv.deduction (h : Inv R t0 n st (insert (p, w) pending) items) (hw : w ∈ R.rels)
    (hp : p ∈ cosets n) {t' : CosetTable} (hwf' : t'.Wf m n) {x : Nat}
    (hded : Deduces st.t t' w p d x) {stack : ScanStack} {sd : Nat}
    (hstack : stack.Holds sd (items ++ [(d, x)]))
    : Inv R t0 n { t := t', stack := stack, j := st.j + 1, sd := sd } pending
        (items ++ [(d, x)]) := by
  obtain ⟨e, he, hdef⟩ := hded.mem
  have hinv' := hdef.inverse involutive_invCol h.inverse
  constructor
  . exact hwf'
  . exact hinv'
  . intro a p q hq
    exact hdef.extends _ _ _ (h.extend _ _ _ hq)
  . obtain ⟨u, v, a, q, r, huv, hu, hv, _, hdef'⟩ := hded.forced
    have hnew : Forced invCol t0.action R.rels (cosets n) a q r := by
      apply Forced.relator st.t.action u v a p q r h.forced hp
      . rw [← huv]
        exact hw
      . exact hu
      . exact hv
    intro b s s' hs
    cases hdef'.other b s with
    | inl heq =>
      rw [heq] at hs
      exact h.forced b s s' hs
    | inr heq =>
      cases heq with
      | inl heq =>
        rw [heq.1, heq.2, hdef'.entry] at hs
        cases hs
        rw [heq.1, heq.2]
        exact hnew
      | inr heq =>
        rw [heq.1, heq.2, hdef'.entry_inv] at hs
        cases hs
        rw [heq.1, heq.2]
        exact Forced.inverse a _ _ hnew
  . exact hstack
  . simp [h.j]
  . intro item hitem
    rw [mem_append, mem_singleton] at hitem
    cases hitem with
    | inl hitem =>
      have hent := h.entries item hitem
      apply And.intro hent.1
      obtain ⟨e', he'⟩ := hent.2
      exact ⟨e', hdef.extends _ _ _ he'⟩
    | inr hitem =>
      rw [hitem]
      exact ⟨hded.odd, e, he⟩
  . have hset := h.settled.define involutive_invCol h.inverse R.rotates hdef
    rw [Set.insert_union, Set.insert_union] at hset
    have hset' := hset.scanned involutive_invCol hinv' (Closed.complete hded.scan)
    apply hset'.mono
    intro s hs
    cases hs with
    | inr hs =>
      right
      exact ⟨(d, x), by simp, e, he, hs⟩
    | inl hs =>
      cases hs with
      | inl hs => exact Or.inl hs
      | inr hs => exact Or.inr (stackScans_mono hdef.extends hs)

theorem scanRelators_spec (setLen : Bool) {ws : List (List Nat)} (hmem : ∀ w ∈ ws, w ∈ R.rels)
    (hd : d ∈ cosets n) {rest : List (List Nat)}
    : ∀ (pre : List (List Nat)) (st : ScanState) (pending : Set (Nat × List Nat))
        (items : List (Nat × Nat)), ws = pre ++ rest
      → Inv R t0 n st ({ s | s.1 = d ∧ s.2 ∈ rest } ∪ pending) items
      → ∃ ok st', scanRelators setLen (ws.map relBag) d rest.length (pre.length + 1) st = .ok (ok, st')
        ∧ (∃ items, st'.stack.Holds st'.sd items)
        ∧ Extends st.t.action st'.t.action ∧ st'.t.Wf m n
        ∧ (ok = false → NoCompletion R t0 n)
        ∧ (ok = true → ∃ items', Inv R t0 n st' pending items'
          ∧ items'.length + (st'.t.undefined m n).card ≤ items.length + (st.t.undefined m n).card) := by
  induction rest with
  | nil =>
    intro pre st pending items hws h
    refine ⟨true, st, rfl, ⟨items, h.stack⟩, fun _ _ _ h => h, h.wf, by simp, fun _ => ⟨items, ?_, ?_⟩⟩
    . simpa using h
    . apply Nat.le_refl
  | cons w rest ih =>
    intro pre st pending items hws h
    have hnext : ws = (pre ++ [w]) ++ rest := by
      rw [hws]
      simp
    have hw : w ∈ R.rels := hmem w (by rw [hws]; simp)
    have hsub : { s : Nat × List Nat | s.1 = d ∧ s.2 ∈ w :: rest }
        = insert (d, w) { s | s.1 = d ∧ s.2 ∈ rest } := by
      ext s
      cases s
      simp
      tauto
    rw [hsub, Set.insert_union] at h
    have hget : elmPlist (ws.map relBag) (pre.length + 1) = .ok (relBag w) := by
      rw [hws, map_append, map_cons]
      have := elmPlist_append_cons (pre.map relBag) (rest.map relBag) (relBag w)
      rw [length_map] at this
      exact this
    rw [length_cons]
    unfold scanRelators
    rw [hget, ok_bind]
    have hlen : pre.length + 1 = (pre ++ [w]).length := by
      simp
    cases relatorScan_spec h.wf h.inverse (R.letters_mem hw) hd with
    | inl hscan =>
      rw [hscan.1, ok_bind]
      exact ⟨false, st, rfl, ⟨items, h.stack⟩, fun _ _ _ h => h, h.wf,
        fun _ => h.noCompletion hw hd hscan.2, by simp⟩
    | inr hscan =>
      cases hscan with
      | inl hscan =>
        rw [hscan.1, ok_bind]
        rw [hlen]
        exact ih (pre ++ [w]) st pending items hnext (h.of_closed hscan.2)
      | inr hscan =>
        obtain ⟨t', d', x, hrun, hwf', hded⟩ := hscan
        obtain ⟨stack, sd, hpush, hstack⟩ := h.stack.push_spec setLen d' x
        obtain ⟨e, he, hdef⟩ := hded.mem
        have hinv := h.deduction hw hd hwf' hded hstack
        rw [hrun, ok_bind]
        dsimp only
        rw [h.j, hpush, ok_bind]
        rw [hlen, ← h.j]
        obtain ⟨ok, st', hrun', hheld, hext, hwf, hno, hyes⟩ := ih (pre ++ [w]) _ pending _ hnext hinv
        refine ⟨ok, st', hrun', hheld, ?_, hwf, hno, ?_⟩
        . intro a p q hq
          exact hext _ _ _ (hdef.extends _ _ _ hq)
        . intro hok
          obtain ⟨items', hinv', hle⟩ := hyes hok
          apply Exists.intro items'
          apply And.intro hinv'
          have hlt := card_undefined_lt hwf' hdef
          have hj := h.j
          rw [length_append, length_singleton] at hle
          dsimp only at hle
          omega

theorem scanRelators_column (setLen : Bool) {a : Nat} (ha : 0 < a ∧ a ≤ 2 * m) (hd : d ∈ cosets n)
    (h : Inv R t0 n st ({ s | s.1 = d ∧ s.2 ∈ R.column a } ∪ pending) items)
    : ∃ ok st', scanRelators setLen ((R.column a).map relBag) d (R.column a).length 1 st
          = .ok (ok, st')
        ∧ (∃ items, st'.stack.Holds st'.sd items)
        ∧ Extends st.t.action st'.t.action ∧ st'.t.Wf m n
        ∧ (ok = false → NoCompletion R t0 n)
        ∧ (ok = true → ∃ items', Inv R t0 n st' pending items'
          ∧ items'.length + (st'.t.undefined m n).card
            ≤ items.length + (st.t.undefined m n).card) := by
  have hmem : ∀ w ∈ R.column a, w ∈ R.rels := by
    intro w hw
    exact ⟨R.column a, R.column_mem ha, hw⟩
  exact scanRelators_spec setLen hmem hd [] st pending items rfl h

theorem Inv.pop {x e : Nat} (h : Inv R t0 n st ∅ (items ++ [(d, x)]))
    (he : st.t.action x d = some e)
    : Inv R t0 n { st with j := st.j - 1 }
        ({ s | s.1 = d ∧ s.2 ∈ R.column x } ∪ ({ s | s.1 = e ∧ s.2 ∈ R.column (invCol x) } ∪ ∅))
        items :=
  { wf := h.wf
    inverse := h.inverse
    extend := h.extend
    forced := h.forced
    stack := h.stack.init
    j := by
      have := h.j
      simp at this
      simp [this]
    entries := fun item hitem => h.entries item (by simp [hitem])
    settled := by
      have hx := (h.wf.action_mem he).1.1
      apply h.settled.mono
      intro s hs
      cases hs with
      | inl hs => cases hs
      | inr hs =>
        obtain ⟨item, hitem, e', he', hs⟩ := hs
        rw [mem_append, mem_singleton] at hitem
        cases hitem with
        | inl hitem =>
          right
          exact ⟨item, hitem, e', he', hs⟩
        | inr hitem =>
          left
          rw [hitem] at he' hs
          have heq : e' = e := by
            rw [he] at he'
            cases he'
            rfl
          obtain ⟨hrel, hs⟩ := hs
          cases hs with
          | inl hs =>
            left
            obtain ⟨hd, v, hv⟩ := hs
            apply And.intro hd
            rw [hv] at hrel ⊢
            exact (R.cons_mem_column_iff hx v).mpr hrel
          | inr hs =>
            right
            left
            obtain ⟨hd, v, hv⟩ := hs
            rw [heq] at hd
            apply And.intro hd
            rw [hv] at hrel ⊢
            exact (R.cons_mem_column_iff (invCol_mem hx) v).mpr hrel }

theorem scanStack_spec (rounds : Nat)
    : ∀ (st : ScanState) (items : List (Nat × Nat)), Inv R t0 n st ∅ items
      → items.length + (st.t.undefined m n).card < rounds
      → ∃ ok st', scanStack R.bags rounds st = .ok (ok, st')
        ∧ (∃ items, st'.stack.Holds st'.sd items)
        ∧ (ok = false → NoCompletion R t0 n)
        ∧ (ok = true → Inv R t0 n st' ∅ []) := by
  induction rounds with
  | zero =>
    intro st items _ hlt
    omega
  | succ rounds ih =>
    intro st items h hlt
    unfold scanStack
    cases eq_nil_or_concat items with
    | inl hnil =>
      subst hnil
      have hj : st.j = 0 := h.j
      rw [if_pos hj]
      exact ⟨true, st, rfl, ⟨[], h.stack⟩, by simp, fun _ => h⟩
    | inr hitems =>
      obtain ⟨items, item, rfl⟩ := hitems
      obtain ⟨d, x⟩ := item
      rw [concat_eq_append] at h hlt
      have hlast := h.stack.elm_last
      have hj : st.j = items.length + 1 := by
        have := h.j
        simp at this
        exact this
      obtain ⟨hodd, e, he⟩ := h.entries (d, x) (by simp)
      have hmem := h.wf.action_mem he
      have hcol : invCol x = x + 1 := if_pos hodd
      obtain ⟨ok, st1, hrun, hheld, hext, hwf, hno, hyes⟩ :=
        scanRelators_column true hmem.1.1 hmem.1.2 (h.pop he)
      have he1 : st1.t.elm x d = .ok e := by
        rw [hwf.elm_eq hmem.1.1 hmem.1.2]
        have := hext x d e he
        rw [action_eq_some_iff] at this
        rw [this.1]
      rw [if_neg (by omega)]
      rw [hj, hlast.1, ok_bind, hlast.2, ok_bind]
      rw [R.elmPlist_bags hmem.1.1, ok_bind]
      dsimp only
      rw [length_map]
      rw [hj] at hrun
      rw [hrun, ok_bind]
      rw [he1, ok_bind]
      rw [← hcol]
      rw [R.elmPlist_bags (invCol_mem hmem.1.1), ok_bind]
      cases ok with
      | false => exact ⟨false, st1, rfl, hheld, fun _ => hno rfl, by simp⟩
      | true =>
        obtain ⟨items1, h1, hle1⟩ := hyes rfl
        obtain ⟨ok, st2, hrun2, hheld2, hext2, hwf2, hno2, hyes2⟩ :=
          scanRelators_column false (invCol_mem hmem.1.1) hmem.2 h1
        rw [R.length_column_invCol hmem.1.1] at hrun2
        rw [if_pos rfl]
        rw [hrun2, ok_bind]
        cases ok with
        | false => exact ⟨false, st2, rfl, hheld2, fun _ => hno2 rfl, by simp⟩
        | true =>
          obtain ⟨items2, h2, hle2⟩ := hyes2 rfl
          rw [if_pos rfl]
          apply ih st2 items2 h2
          simp at hlt hle1
          omega

def ClosedExcept (R : RelatorLists m) (n : Nat) (t : CosetTable) (a q : Nat) : Prop :=
  ∀ w ∈ R.rels, ∀ p ∈ cosets n, ¬ Meets invCol t.action a q w p
    → (∀ r, t.action a q = some r → ¬ Meets invCol t.action (invCol a) r w p)
    → Closed invCol t.action w p

/--
The low index scan after the definition of the entry of the generator `x` at `d` in a table with `n`
cosets. If it succeeds, then the table has been extended by the entries that the relators force, its
columns are mutually inverse, and all scans are closed. If it fails, there is no action that
contains the table and satisfies the relators.
-/
theorem lowindexCosetScan_spec (R : RelatorLists m) (t : CosetTable) (n : Nat) (hwf : t.Wf m n)
    (hinv : Inverse invCol t.action) (d x : Nat) (hx : x % 2 = 1) (hdef : t.action x d ≠ none)
    (hclosed : ClosedExcept R n t x d) (stack : ScanStack)
    (hstack : stack.Holds stack.len [(d, x)])
    : ∃ ok t' stack', t.lowindexCosetScan R.bags stack = .ok (ok, t', stack')
      ∧ (ok = true → t'.Wf m n ∧ Inverse invCol t'.action
        ∧ (∀ a p q, t'.action a p = some q ↔ Forced invCol t.action R.rels (cosets n) a p q)
        ∧ (∀ w ∈ R.rels, ∀ p ∈ cosets n, Closed invCol t'.action w p))
      ∧ (ok = false → NoCompletion R t n) := by
  cases he : t.action x d with
  | none => exact absurd he hdef
  | some e =>
    have h : Inv R t n { t := t, stack := stack, j := 1, sd := stack.len } ∅ [(d, x)] := by
      constructor
      . exact hwf
      . exact hinv
      . exact fun _ _ _ h => h
      . exact fun a p q h => Forced.entry a p q h
      . exact hstack
      . rfl
      . intro item hitem
        rw [List.mem_singleton] at hitem
        rw [hitem]
        exact ⟨hx, e, he⟩
      . intro w hw p hp
        have hscan : ∀ s ∈ entryScans invCol R.rels x d e, s ∈ ∅ ∪ stackScans R t [(d, x)] := by
          intro s hs
          right
          exact ⟨(d, x), by simp, e, he, hs⟩
        by_cases hm : Meets invCol t.action x d w p
        . right
          obtain ⟨s, hs, hl⟩ := exists_entryScan involutive_invCol hinv R.rotates he hw hm
          exact ⟨s, hscan s hs, hl⟩
        . by_cases hm' : Meets invCol t.action (invCol x) e w p
          . right
            obtain ⟨s, hs, hl⟩ :=
              exists_entryScan involutive_invCol hinv R.rotates (hinv x d e he) hw hm'
            rw [entryScans_inv involutive_invCol] at hs
            exact ⟨s, hscan s hs, hl⟩
          . left
            apply hclosed w hw p hp hm
            intro r hr
            rw [he] at hr
            cases hr
            exact hm'
    have hle := card_undefined_le hwf
    obtain ⟨ok, st', hrun, ⟨items, hheld⟩, hno, hyes⟩ := scanStack_spec (t.size + 2) _ _ h (by
      simp
      omega)
    obtain ⟨stack', hclear⟩ := hheld.clear_spec
    refine ⟨ok, st'.t, stack', ?_, ?_, hno⟩
    . unfold lowindexCosetScan
      rw [hrun, ok_bind]
      dsimp only
      rw [hclear, ok_bind]
      rfl
    . intro hok
      have hend := hyes hok
      have hcl : ∀ w ∈ R.rels, ∀ p ∈ cosets n, Closed invCol st'.t.action w p := by
        intro w hw p hp
        have hset : Settled invCol st'.t.action R.rels (cosets n) ∅ := by
          apply hend.settled.mono
          intro s hs
          cases hs with
          | inl hs => exact hs
          | inr hs =>
            obtain ⟨item, hitem, _⟩ := hs
            cases hitem
        exact hset.closed hw hp
      refine ⟨hend.wf, hend.inverse, ?_, hcl⟩
      intro a p q
      constructor
      . exact hend.forced a p q
      . exact Forced.of_closed hend.inverse hend.extend hcl

end

def squareRelators : RelatorLists 1 where
  words := [[[1, 1]], [[2, 2]]]
  width := rfl
  start := by
    intro i ws h w hw
    match i with
    | 0 => cases h; simp at hw; rw [hw]; rfl
    | 1 => cases h; simp at hw; rw [hw]; rfl
    | i + 2 => cases h
  letters := by decide
  nodup := by decide
  rotation := by
    intro a w h
    simp at h ⊢
    grind
  inverse := by
    intro w h
    simp at h ⊢
    cases h with
    | inl h => rw [h]; right; rfl
    | inr h => rw [h]; left; rfl

theorem lowindexCosetScan_spec_square
    : ∃ ok t' stack', CosetTable.lowindexCosetScan [[2, 0], [0, 1]] squareRelators.bags
          { s1 := [1], s2 := [1], len := 1 } = .ok (ok, t', stack')
      ∧ (ok = true → t'.Wf 1 2 ∧ Inverse invCol t'.action
        ∧ (∀ a p q, t'.action a p = some q
          ↔ Forced invCol (CosetTable.action [[2, 0], [0, 1]]) squareRelators.rels (cosets 2) a p q)
        ∧ (∀ w ∈ squareRelators.rels, ∀ p ∈ cosets 2, Closed invCol t'.action w p))
      ∧ (ok = false → NoCompletion squareRelators [[2, 0], [0, 1]] 2) := by
  have hwf : CosetTable.Wf [[2, 0], [0, 1]] 1 2 := by
    constructor
    . rfl
    . decide
    . decide
  apply lowindexCosetScan_spec squareRelators [[2, 0], [0, 1]] 2 hwf _ 1 1 rfl
  . decide
  . intro w hw p hp h1 h2
    exfalso
    have h2 := h2 2 rfl
    have hp : p = 1 ∨ p = 2 := by
      unfold cosets at hp
      simp at hp
      omega
    have hw : w = [1, 1] ∨ w = [2, 2] := by
      unfold RelatorLists.rels squareRelators at hw
      simpa using hw
    cases hw with
    | inl hw =>
      subst hw
      cases hp with
      | inl hp =>
        subst hp
        exact h1 (Meets.left [] [1] rfl rfl)
      | inr hp =>
        subst hp
        exact h2 (Meets.right [1] [] rfl rfl)
    | inr hw =>
      subst hw
      cases hp with
      | inl hp =>
        subst hp
        exact h1 (Meets.right [2] [] rfl rfl)
      | inr hp =>
        subst hp
        exact h2 (Meets.left [] [2] rfl rfl)
  . constructor
    . decide
    . decide
    . decide
    . decide
    . exact ⟨[], rfl⟩
    . exact ⟨[], rfl⟩
  . intro a p q h
    have hin := (hwf.action_mem h).1
    have ha : a = 1 ∨ a = 2 := by omega
    have hp : p = 1 ∨ p = 2 := by omega
    cases ha with
    | inl ha =>
      cases hp with
      | inl hp => subst ha hp; cases h; rfl
      | inr hp => subst ha hp; cases h
    | inr ha =>
      cases hp with
      | inl hp => subst ha hp; cases h
      | inr hp => subst ha hp; cases h; rfl

end CosetTable
