import GapKernel.SymbolTable.Lemmas
import Mathlib.Algebra.Order.BigOperators.Group.Finset
import Mathlib.Data.Prod.Lex
import Mathlib.Logic.Relation
import Mathlib.Order.WellFounded

/-!
This module contains `LookupSymbol` in several threads. A thread first searches under a read lock.
If the name is missing then it gets the write lock, and searches again.
-/

namespace SymbolTable

open LinearProbe Function List

inductive Lock where
  | read
  | write
  deriving DecidableEq

/-- Where a thread is in `LookupSymbol`. -/
inductive Phase where
  | idle
  | waiting (lock : Lock) (name : List UInt8)
  | searching (lock : Lock) (name : List UInt8) (pos : Nat)
  -- It has found a free slot under the write lock.
  | entering (name : List UInt8) (pos : Nat)
  deriving DecidableEq

namespace Phase

def held : Phase → Option Lock
  | idle => none
  | waiting _ _ => none
  | searching lock _ _ => some lock
  | entering _ _ => some .write

-- How many parts of `LookupSymbol` are in front of a thread.
def rank : Phase → Nat
  | idle => 0
  | entering _ _ => 1
  | searching .write _ _ => 2
  | waiting .write _ => 3
  | searching .read _ _ => 4
  | waiting .read _ => 5

end Phase

structure Threads (τ : Type) where
  symtab : SymbolTable
  phase : τ → Phase
  -- The names and the results of the calls that have returned
  returned : List (List UInt8 × Nat)

namespace Threads

variable {τ : Type} [DecidableEq τ]

def goTo (s : Threads τ) (t : τ) (phase : Phase) : Threads τ :=
  { s with phase := update s.phase t phase }

-- The lock is given back, too.
def ret (s : Threads τ) (t : τ) (name : List UInt8) (id : Nat) : Threads τ :=
  { s.goTo t .idle with returned := (name, id) :: s.returned }

def begin (initialSize : Nat) : Threads τ :=
  ⟨init initialSize, fun _ => .idle, []⟩

-- A lock of `pthread_rwlock` is shared by readers only.
def IsFree (s : Threads τ) (lock : Lock) : Prop :=
  ∀ u, (s.phase u).held = none ∨ lock = .read ∧ (s.phase u).held = some .read

-- What a thread does when the loop has looked at a position
def afterProbe (s : Threads τ) (t : τ) (lock : Lock) (name : List UInt8) (pos : Nat)
    : Option Nat → Threads τ
  | none => s.goTo t (.searching lock name (nextPos s.symtab.table.length pos))
  | some 0 =>
    match lock with
    | .read => s.goTo t (.waiting .write name)
    | .write => s.goTo t (.entering name pos)
  | some (id + 1) => s.ret t name (id + 1)

/-- One step of a thread that is in `LookupSymbol`. -/
inductive Advance (w : IntSize) (s : Threads τ) (t : τ) : Threads τ → Prop where
  | lock {lock name pos} (hphase : s.phase t = .waiting lock name) (hfree : s.IsFree lock)
    (hpos : startPos w s.symtab.table.length name = .ok pos)
    : Advance w s t (s.goTo t (.searching lock name pos))
  | probe {lock name pos res} (hphase : s.phase t = .searching lock name pos)
    (hprobe : s.symtab.probe name pos = .ok res)
    : Advance w s t (s.afterProbe t lock name pos res)
  | enter {name pos symtab} (hphase : s.phase t = .entering name pos)
    (hnew : s.symtab.newSymbol w pos name = .ok symtab)
    : Advance w s t ({ s with symtab := symtab }.ret t name symtab.count)

/-- A step of some thread, or a call. A longer name is rejected before the first lock. -/
inductive Step (w : IntSize) (s : Threads τ) : Threads τ → Prop where
  | call {t name} (hphase : s.phase t = .idle) (hlen : name.length ≤ 1023)
    : Step w s (s.goTo t (.waiting .read name))
  | advance {t s'} (h : Advance w s t s') : Step w s s'

def IsReachable (w : IntSize) (initialSize : Nat) (s : Threads τ) : Prop :=
  Relation.ReflTransGen (Step w) (begin initialSize) s

variable {w : IntSize} {s s' : Threads τ} {t : τ}

section Search

variable {symtab : SymbolTable} {name : List UInt8} {names : List (List UInt8)}

/-- The search is at slot `i`, the first slot where it can end is not behind it. -/
def IsAt (w : IntSize) (s : SymbolTable) (name : List UInt8) (i : Nat) : Prop :=
  ∃ j, IsFirst (Stops s.names name) s.table (start w s.table.length name) j
    ∧ i < s.table.length ∧ dist s.table.length (start w s.table.length name) i
      ≤ dist s.table.length (start w s.table.length name) j

theorem isAt_start (h : IsSymbolTable w symtab) (name : List UInt8)
    : IsAt w symtab name (start w symtab.table.length name) := by
  rcases exists_first h name with ⟨j, hj⟩
  refine ⟨j, hj, start_lt w h.length_pos name, ?_⟩
  rw [dist_self]
  exact Nat.zero_le _

theorem dist_next_right {n pos i : Nat} (hpos : pos < n) (hi : i < n) (h : dist n pos i + 1 < n)
    : dist n pos (next n i) = dist n pos i + 1 := by
  unfold LinearProbe.dist LinearProbe.next at *
  split at h <;> split <;> split <;> omega

/-- Either the search ends here, or it goes on to the next slot. -/
theorem IsAt.cases {i : Nat} (h : IsSymbolTable w symtab) (hi : IsAt w symtab name i)
    : (symtab.probe name (i + 1) = .ok (some (idOf symtab.names name))
        ∧ Holds w symtab.table (idOf symtab.names name) name i)
      ∨ symtab.probe name (i + 1) = .ok none ∧ ∃ j, IsAt w symtab name j
        ∧ nextPos symtab.table.length (i + 1) = j + 1
        ∧ dist symtab.table.length (start w symtab.table.length name) j
          = dist symtab.table.length (start w symtab.table.length name) i + 1 := by
  rcases hi with ⟨j, hj, hlt, hle⟩
  have hprobe := @probe_spec _ name _ h _ hlt
  have hstart := start_lt w h.length_pos name
  by_cases heq : i = j
  . subst heq
    have hholds := h.get_first hj
    rw [(List.getElem?_eq_some_iff.1 hholds.get).2] at hprobe
    refine .inl ⟨hprobe.1 ?_, hholds⟩
    rw [← (List.getElem?_eq_some_iff.1 hholds.get).2]
    exact hj.stops
  . have hne := mt (dist_inj hstart hlt hj.lt) heq
    have hbound := dist_lt hstart hj.lt
    have hdist := dist_next_right hstart hlt (by omega)
    refine .inr ⟨hprobe.2 (hj.before i hlt (by omega)), _, ⟨j, hj, next_lt hlt, ?_⟩,
      nextPos_eq hlt, hdist⟩
    omega

theorem elmPlist_idOf (h : idOf names name ≠ 0) : elmPlist names (idOf names name) = .ok name := by
  unfold idOf at *
  by_cases hmem : name ∈ names
  . have hlt := idxOf_lt_length_of_mem hmem
    rw [if_pos hmem]
    apply elmPlist_of_getElem?
    rw [getElem?_eq_getElem hlt, getElem_idxOf]
  . exact absurd (if_neg hmem) h

end Search

def IsGood (w : IntSize) (s : SymbolTable) : Phase → Prop
  | .idle => True
  | .waiting _ _ => True
  | .searching _ name pos => ∃ i, pos = i + 1 ∧ IsAt w s name i
  | .entering name pos => ∃ i, pos = i + 1 ∧ Holds w s.table 0 name i ∧ name ∉ s.names

structure Inv (w : IntSize) (s : Threads τ) : Prop where
  symtab : IsSymbolTable w s.symtab
  exclusive : ∀ t u, t ≠ u → (s.phase t).held = some .write → (s.phase u).held = none
  good : ∀ t, IsGood w s.symtab (s.phase t)
  returned : ∀ r ∈ s.returned, elmPlist s.symtab.names r.2 = .ok r.1

/-- A thread takes a free lock, keeps its own one or has none. -/
theorem Inv.exclusive_update (h : Inv w s) {p : Phase}
    (hp : p.held = none ∨ p.held = (s.phase t).held ∨ ∃ lock, p.held = some lock ∧ s.IsFree lock)
    (u v : τ) (hne : u ≠ v) (hu : (update s.phase t p u).held = some .write)
    : (update s.phase t p v).held = none := by
  by_cases hut : u = t
  . subst hut
    rw [update_self] at hu
    rw [update_of_ne hne.symm]
    rcases hp with hnone | hsame | ⟨lock, hlock, hfree⟩
    . rw [hnone] at hu
      cases hu
    . exact h.exclusive u v hne (hsame ▸ hu)
    . rw [hlock] at hu
      cases hu
      exact (hfree v).resolve_right nofun
  . rw [update_of_ne hut] at hu
    by_cases hvt : v = t
    . subst hvt
      rw [update_self]
      rcases hp with hnone | hsame | ⟨lock, hlock, hfree⟩
      . exact hnone
      . exact hsame.trans (h.exclusive u v hne hu)
      . have := hfree u
        rw [hu] at this
        simp at this
    . rw [update_of_ne hvt]
      exact h.exclusive u v hne hu

theorem good_update {symtab : SymbolTable} {phase : τ → Phase} {p : Phase}
    (hp : IsGood w symtab p) (h : ∀ u, u ≠ t → IsGood w symtab (phase u)) (u : τ)
    : IsGood w symtab (update phase t p u) := by
  by_cases hu : u = t
  . subst hu
    rw [update_self]
    exact hp
  . rw [update_of_ne hu]
    exact h u hu

theorem Inv.moved (h : Inv w s) {p : Phase} (hp : IsGood w s.symtab p)
    (hheld : p.held = none ∨ p.held = (s.phase t).held
      ∨ ∃ lock, p.held = some lock ∧ s.IsFree lock)
    : Inv w (s.goTo t p) :=
  ⟨h.symtab, h.exclusive_update hheld, good_update hp fun u _ => h.good u, h.returned⟩

theorem Inv.advance (h : Inv w s) (hstep : Advance w s t s') : Inv w s' := by
  have hgood := h.good t
  cases hstep with
  | lock hphase hfree hpos =>
    rw [startPos_eq h.symtab.length_pos] at hpos
    cases hpos
    apply h.moved
    . exact ⟨_, rfl, isAt_start h.symtab _⟩
    . exact .inr (.inr ⟨_, rfl, hfree⟩)
  | @probe lock name pos res hphase hprobe =>
    rw [hphase] at hgood
    rcases hgood with ⟨i, rfl, hi⟩
    rcases hi.cases h.symtab with ⟨hend, hholds⟩ | ⟨hnone, j, hj, hpos, _⟩
    . have hid := @elmPlist_idOf name s.symtab.names
      have hmem : idOf s.symtab.names name = 0 → name ∉ s.symtab.names := by
        intro hzero hmem
        rw [idOf, if_pos hmem] at hzero
        contradiction
      rw [hend] at hprobe
      have heq := Except.ok.inj hprobe
      subst heq
      generalize idOf s.symtab.names name = id at *
      cases id with
      | zero =>
        cases lock with
        | read => exact h.moved trivial (.inl rfl)
        | write =>
          apply h.moved
          . exact ⟨i, rfl, hholds, hmem rfl⟩
          . exact .inr (.inl (by rw [hphase]; rfl))
      | succ id =>
        have hidle := h.moved (t := t) (p := .idle) trivial (.inl rfl)
        refine ⟨hidle.symtab, hidle.exclusive, hidle.good, ?_⟩
        intro r hr
        rcases mem_cons.1 hr with rfl | hr
        . exact hid (Nat.succ_ne_zero id)
        . exact h.returned r hr
    . rw [hnone] at hprobe
      cases hprobe
      apply h.moved
      . exact ⟨j, hpos, hj⟩
      . exact .inr (.inl (by rw [hphase]; rfl))
  | enter hphase hnew =>
    rw [hphase] at hgood
    rcases hgood with ⟨i, rfl, hholds, hmem⟩
    rcases newSymbol_spec h.symtab hholds hmem with ⟨symtab', hrun, hsymtab, hnames⟩
    rw [hrun] at hnew
    have heq := Except.ok.inj hnew
    subst heq
    refine ⟨hsymtab, h.exclusive_update (.inl rfl), good_update trivial fun u hu => ?_, ?_⟩
    . -- No other thread is in the table.
      have hnone := h.exclusive t u hu.symm (by rw [hphase]; rfl)
      dsimp only
      cases hother : s.phase u with
      | idle => trivial
      | waiting lock name => trivial
      | searching lock name pos =>
        rw [hother] at hnone
        cases hnone
      | entering name pos =>
        rw [hother] at hnone
        cases hnone
    . intro r hr
      rcases mem_cons.1 hr with rfl | hr
      . change elmPlist symtab'.names symtab'.count = .ok _
        rw [← hsymtab.names_length, hnames, length_append, length_singleton]
        apply elmPlist_of_getElem?
        exact getElem?_concat_length
      . change elmPlist symtab'.names r.2 = .ok r.1
        rw [hnames]
        exact elmPlist_append (h.returned r hr)

theorem IsReachable.inv {initialSize : Nat} (hsize : 2 ≤ initialSize)
    (h : IsReachable w initialSize s) : Inv w s := by
  induction h with
  | refl => exact ⟨init_isSymbolTable hsize, nofun, fun _ => trivial, nofun⟩
  | tail _ hstep ih =>
    cases hstep with
    | call hphase hlen => exact ih.moved trivial (.inl rfl)
    | advance hadv => exact ih.advance hadv

def exampleCall : Threads Bool :=
  (begin 28069).goTo true (.waiting .read [120])

theorem isReachable_exampleCall : IsReachable .int8 28069 exampleCall :=
  .single (.call rfl (by decide))

section Progress

theorem Inv.advance_of_held (h : Inv w s) (hheld : (s.phase t).held ≠ none)
    : ∃ s', Advance w s t s' := by
  have hgood := h.good t
  cases hphase : s.phase t with
  | idle => exact absurd (congrArg Phase.held hphase) hheld
  | waiting lock name => exact absurd (congrArg Phase.held hphase) hheld
  | searching lock name pos =>
    rw [hphase] at hgood
    rcases hgood with ⟨i, rfl, hi⟩
    rcases hi.cases h.symtab with ⟨hend, _⟩ | ⟨hnone, _⟩
    . exact ⟨_, .probe hphase hend⟩
    . exact ⟨_, .probe hphase hnone⟩
  | entering name pos =>
    rw [hphase] at hgood
    rcases hgood with ⟨i, rfl, hholds, hmem⟩
    rcases newSymbol_spec h.symtab hholds hmem with ⟨symtab, hnew, _⟩
    exact ⟨_, .enter hphase hnew⟩

/-- While a thread is in `LookupSymbol`, some thread can go on. -/
theorem Inv.exists_advance (h : Inv w s) (hbusy : s.phase t ≠ .idle)
    : ∃ u s', Advance w s u s' := by
  by_cases hnone : ∀ u, (s.phase u).held = none
  . -- The locks are free, so that the thread can have the one it waits for.
    cases hphase : s.phase t with
    | idle => exact absurd hphase hbusy
    | waiting lock name =>
      exact ⟨t, _, .lock hphase (fun u => .inl (hnone u)) (startPos_eq h.symtab.length_pos)⟩
    | searching lock name pos => exact nomatch (congrArg Phase.held hphase).symm.trans (hnone t)
    | entering name pos => exact nomatch (congrArg Phase.held hphase).symm.trans (hnone t)
  . rw [not_forall] at hnone
    rcases hnone with ⟨u, hheld⟩
    exact ⟨u, h.advance_of_held hheld⟩

-- How many slots are in front of a search.
def slotsLeft (w : IntSize) (s : SymbolTable) : Phase → Nat
  | .searching _ name pos =>
    s.table.length - dist s.table.length (start w s.table.length name) (pos - 1)
  | _ => 0

theorem Advance.phase_of_ne (h : Advance w s t s') {u : τ} (hu : u ≠ t)
    : s'.phase u = s.phase u := by
  cases h with
  | lock => exact update_of_ne hu _ _
  | @probe lock _ _ res =>
    rcases res with _ | _ | id
    . exact update_of_ne hu _ _
    . cases lock <;> exact update_of_ne hu _ _
    . exact update_of_ne hu _ _
  | enter => exact update_of_ne hu _ _

theorem phase_goTo (s : Threads τ) (p : Phase) : (s.goTo t p).phase t = p :=
  update_self ..

theorem phase_ret (s : Threads τ) (name : List UInt8) (id : Nat)
    : (s.ret t name id).phase t = .idle :=
  update_self ..

theorem Inv.rank_lt_or (h : Inv w s) (hstep : Advance w s t s')
    : (s'.phase t).rank < (s.phase t).rank
      ∨ (s'.phase t).rank = (s.phase t).rank ∧ s'.symtab = s.symtab
        ∧ slotsLeft w s.symtab (s'.phase t) < slotsLeft w s.symtab (s.phase t) := by
  have hgood := h.good t
  cases hstep with
  | @lock lock _ _ hphase _ _ =>
    left
    rw [phase_goTo, hphase]
    cases lock <;> simp [Phase.rank]
  | @probe lock name pos res hphase hprobe =>
    rw [hphase] at hgood ⊢
    rcases res with _ | _ | id
    . right
      rcases hgood with ⟨i, rfl, hi⟩
      rcases hi.cases h.symtab with ⟨hend, _⟩ | ⟨_, j, hj, hpos, hdist⟩
      . rw [hend] at hprobe
        cases hprobe
      . rcases hj with ⟨_, _, hlt, _⟩
        have hbound := dist_lt (start_lt w h.symtab.length_pos name) hlt
        dsimp only [afterProbe]
        rw [phase_goTo, hpos]
        refine ⟨by cases lock <;> rfl, rfl, ?_⟩
        unfold slotsLeft
        simp only [Nat.add_sub_cancel]
        omega
    . left
      dsimp only [afterProbe]
      cases lock <;> simp [phase_goTo, Phase.rank]
    . left
      dsimp only [afterProbe]
      rw [phase_ret]
      cases lock <;> simp [Phase.rank]
  | enter hphase _ =>
    left
    rw [phase_ret, hphase]
    exact Nat.zero_lt_one

variable [Fintype τ]

def measure (w : IntSize) (s : Threads τ) : Nat ×ₗ Nat :=
  toLex (∑ t, (s.phase t).rank, ∑ t, slotsLeft w s.symtab (s.phase t))

theorem sum_lt_of_phase (f : Phase → Nat) (hother : ∀ u, u ≠ t → s'.phase u = s.phase u)
    (hlt : f (s'.phase t) < f (s.phase t))
    : ∑ u, f (s'.phase u) < ∑ u, f (s.phase u) := by
  apply Finset.sum_lt_sum _ ⟨t, Finset.mem_univ t, hlt⟩
  intro u _
  by_cases hu : u = t
  . rw [hu]
    exact Nat.le_of_lt hlt
  . rw [hother u hu]

theorem Inv.measure_lt (h : Inv w s) (hstep : Advance w s t s') : measure w s' < measure w s := by
  have hother := fun u => hstep.phase_of_ne (u := u)
  rw [measure, measure, Prod.Lex.toLex_lt_toLex]
  rcases h.rank_lt_or hstep with hlt | ⟨heq, hsymtab, hlt⟩
  . exact .inl (sum_lt_of_phase Phase.rank hother hlt)
  . rw [hsymtab]
    refine .inr ⟨Finset.sum_congr rfl fun u _ => ?_, sum_lt_of_phase _ hother hlt⟩
    by_cases hu : u = t
    . rw [hu, heq]
    . rw [hother u hu]

theorem Inv.acc (h : Inv w s) : Acc (fun s' s => ∃ t, Advance w s t s') s := by
  induction hm : measure w s using WellFoundedLT.induction generalizing s with
  | ind m ih =>
    constructor
    rintro s' ⟨t, hstep⟩
    have hlt := h.measure_lt hstep
    rw [hm] at hlt
    exact ih _ hlt (h.advance hstep) rfl

/--
All calls return: without new calls a finite number of threads can make only finitely many steps,
and as long as a thread is in `LookupSymbol` some thread can make one.
-/
theorem all_return {initialSize : Nat} (hsize : 2 ≤ initialSize) (h : IsReachable w initialSize s)
    : Acc (fun s' s => ∃ t, Advance w s t s') s
      ∧ ((∀ t s', ¬Advance w s t s') → ∀ t, s.phase t = .idle) := by
  have hinv := h.inv hsize
  refine ⟨hinv.acc, fun hstuck t => ?_⟩
  by_contra hbusy
  rcases hinv.exists_advance hbusy with ⟨u, s', hstep⟩
  exact hstuck u s' hstep

theorem all_return_call
    : Acc (fun s' s => ∃ t, Advance .int8 s t s') exampleCall :=
  (all_return (by decide) isReachable_exampleCall).1

end Progress

end Threads

end SymbolTable
