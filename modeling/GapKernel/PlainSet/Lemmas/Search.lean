import GapKernel.PlainSet.Impl
import GapKernel.SetOrder

open List Bool

namespace PlistHeap

variable {E : Type} {h : PlistHeap E} {list list' pos : Nat}

def Holds (h : PlistHeap E) (list : Nat) (l : List E) : Prop :=
  h.bags[list]? = some { isPlist := true, entries := l.map some }

def store (h : PlistHeap E) (list : Nat) (l : List E) : PlistHeap E :=
  h.put list (l.map some)

def SameExcept (list : Nat) (h h' : PlistHeap E) : Prop :=
  ∀ list', list' ≠ list → list' < h.bags.length → h'.bags[list']? = h.bags[list']?

theorem bag_eq_iff {bag : SmallList E} : h.bag list = .ok bag ↔ h.bags[list]? = some bag := by
  unfold PlistHeap.bag
  cases h.bags[list]? with
  | none => simp [throw, throwThe, MonadExceptOf.throw]
  | some b => simp [pure, Except.pure]

theorem plist_of_bag {bag : SmallList E} (hbag : h.bags[list]? = some bag)
    (hplist : bag.isPlist = true) : h.plist list = .ok bag.entries := by
  unfold plist
  rw [bag_eq_iff.mpr hbag]
  rw [ok_bind]
  rw [if_pos hplist]
  rfl

variable {l : List E}

theorem Holds.of_eq {h h' : PlistHeap E} {list : Nat} (hl : h.Holds list l)
    (heq : h'.bags[list]? = h.bags[list]?) : h'.Holds list l := by
  unfold Holds
  rw [heq]
  exact hl

theorem Holds.plist (hl : h.Holds list l) : h.plist list = .ok (l.map some) :=
  plist_of_bag hl rfl

theorem Holds.lt_length (hl : h.Holds list l) : list < h.bags.length := by
  unfold Holds at hl
  by_contra hnot
  rw [getElem?_eq_none (by omega)] at hl
  cases hl

theorem Holds.unique {A B : List E} (hA : h.Holds list A) (hB : h.Holds list B) : A = B := by
  unfold Holds at hA hB
  rw [hA, Option.some.injEq, SmallList.mk.injEq] at hB
  exact (List.map_inj_right (fun _ _ => Option.some.inj)).mp hB.2

theorem Holds.lenPlist (hl : h.Holds list l) : h.lenPlist list = .ok l.length := by
  unfold PlistHeap.lenPlist
  rw [hl.plist]
  rw [ok_bind]
  rw [length_map]
  rfl

theorem Holds.elm {u v : List E} {x : E} (hl : h.Holds list (u ++ x :: v))
    (hpos : pos = u.length + 1) : h.elm list pos = .ok x := by
  unfold PlistHeap.elm
  rw [hl.plist]
  rw [ok_bind]
  rw [map_append]
  rw [map_cons]
  have hlen : pos = (u.map some).length + 1 := by
    rw [length_map]
    exact hpos
  rw [hlen]
  rw [elmPlist_append_cons]
  rfl

theorem holds_store (hlist : list < h.bags.length)
    : (h.store list l).Holds list l := by
  unfold Holds store put
  rw [getElem?_set_self hlist]

theorem Holds.store_of_ne {m : List E} (hl : h.Holds list l) (hne : list ≠ list')
    : (h.store list' m).Holds list l := by
  unfold Holds store put
  rw [getElem?_set_ne hne.symm]
  exact hl

theorem Holds.store {m : List E} (hl : h.Holds list l) : (h.store list m).Holds list m :=
  holds_store hl.lt_length

@[simp]
theorem store_store (h : PlistHeap E) (list : Nat) (l m : List E)
    : (h.store list l).store list m = h.store list m := by
  unfold PlistHeap.store put
  simp

theorem Holds.store_self (hl : h.Holds list l) : h.store list l = h := by
  unfold PlistHeap.store put
  unfold Holds at hl
  rw [List.getElem?_eq_some_iff] at hl
  have ⟨_, hget⟩ := hl
  rw [← hget]
  rw [set_getElem_self]

theorem Holds.setElm {u v : List E} {x y : E} (hl : h.Holds list (u ++ y :: v))
    (hpos : pos = u.length + 1)
    : h.setElm list pos (some x) = .ok (h.store list (u ++ x :: v)) := by
  unfold PlistHeap.setElm
  rw [hl.plist]
  rw [ok_bind]
  rw [map_append]
  rw [map_cons]
  have hlen : pos = (u.map some).length + 1 := by
    rw [length_map]
    exact hpos
  rw [hlen]
  rw [setElmPlist_append_cons]
  unfold PlistHeap.store
  rw [map_append]
  rfl

theorem Holds.setLen {out rest : List E} {len : Nat} (hl : h.Holds list (out ++ rest))
    (hlen : len = out.length) : h.setLen list len = .ok (h.store list out) := by
  unfold PlistHeap.setLen
  rw [hl.plist]
  rw [ok_bind]
  rw [map_append]
  have hlen' : len = (out.map some).length := by
    rw [length_map]
    exact hlen
  rw [hlen']
  rw [take_left]
  rw [length_append]
  rw [Nat.sub_eq_zero_of_le (by omega)]
  rw [replicate_zero, append_nil]
  rfl

theorem store_bags_of_ne (hne : list' ≠ list)
    : (h.store list l).bags[list']? = h.bags[list']? := by
  unfold PlistHeap.store put
  rw [getElem?_set_ne hne.symm]

theorem newPlist_old (entries : List (Option E)) (hlist : list < h.bags.length)
    : (h.newPlist entries).1.bags[list]? = h.bags[list]? := by
  unfold newPlist
  dsimp only
  rw [getElem?_append_left hlist]

theorem holds_newPlist (h : PlistHeap E) (l : List E)
    : (h.newPlist (l.map some)).1.Holds h.bags.length l := by
  unfold Holds newPlist
  simp

structure Reading (h : PlistHeap E) (list : Nat) (done rest : List E) (len i : Nat) : Prop where
  holds : h.Holds list (done ++ rest)
  len_eq : len = done.length + rest.length
  pos_eq : i = done.length + 1

namespace Reading

variable {done rest : List E} {x : E} {len i : Nat}

variable {l : List E}

theorem start (hl : h.Holds list l) : Reading h list [] l l.length 1 where
  holds := hl
  len_eq := by simp
  pos_eq := rfl

theorem not_le (hr : Reading h list done [] len i) : ¬i ≤ len := by
  have := hr.len_eq
  have := hr.pos_eq
  simp only [length_nil] at *
  omega

theorem le (hr : Reading h list done (x :: rest) len i) : i ≤ len := by
  have := hr.len_eq
  have := hr.pos_eq
  simp only [length_cons] at *
  omega

theorem elm (hr : Reading h list done (x :: rest) len i) : h.elm list i = .ok x :=
  hr.holds.elm hr.pos_eq

theorem skip {r : List E} (hr : Reading h list done (l ++ r) len i)
    : Reading h list (done ++ l) r len (done.length + l.length + 1) where
  holds := by
    rw [append_assoc]
    exact hr.holds
  len_eq := by
    have := hr.len_eq
    simp only [length_append] at *
    omega
  pos_eq := by
    rw [length_append]

theorem next (hr : Reading h list done (x :: rest) len i)
    : Reading h list (done ++ [x]) rest len (i + 1) := by
  rw [hr.pos_eq]
  exact hr.skip (l := [x])

theorem store_of_ne (hr : Reading h list done rest len i) (hne : list ≠ list')
    : Reading (h.store list' l) list done rest len i where
  holds := hr.holds.store_of_ne hne
  len_eq := hr.len_eq
  pos_eq := hr.pos_eq

theorem write {out mid : List E} {y : E} (hr : Reading h list (out ++ mid) rest len i)
    (hmid : mid ≠ [])
    : ∃ mid', h.setElm list (out.length + 1) (some y)
          = .ok (h.store list (out ++ [y] ++ mid' ++ rest))
        ∧ Reading (h.store list (out ++ [y] ++ mid' ++ rest)) list (out ++ [y] ++ mid') rest
            len i := by
  cases mid with
  | nil => exact absurd rfl hmid
  | cons z mid =>
    have hl : h.Holds list (out ++ z :: (mid ++ rest)) := by
      simpa using hr.holds
    refine ⟨mid, ?_, ?_⟩
    . rw [hl.setElm rfl]
      simp
    . constructor
      . exact hl.store
      . have := hr.len_eq
        simp only [length_append, length_cons, length_nil] at *
        omega
      . have := hr.pos_eq
        simp only [length_append, length_cons, length_nil] at *
        omega

end Reading

end PlistHeap

theorem List.exists_split_at {α : Type} {l : List α} {k : Nat} (hk : k < l.length)
    : ∃ u x v, l = u ++ x :: v ∧ u.length = k := by
  refine ⟨l.take k, l[k], l.drop (k + 1), ?_, ?_⟩
  . rw [getElem_cons_drop, take_append_drop]
  . rw [length_take]
    omega

namespace PlainSetImpl

open PlistHeap

variable {E : Type} {eq lt : E → E → Bool} {h : PlistHeap E}

section

variable (ho : IsSetOrder eq lt)

include ho

variable {list fuel : Nat}

theorem positionLoop_spec (obj : E) (lo mid hi : List E) (hl : h.Holds list (lo ++ mid ++ hi))
    (hsorted : StrictlySorted lt (lo ++ mid ++ hi)) (hlo : ∀ x ∈ lo, lt x obj = true)
    (hhi : ∀ x ∈ hi, lt x obj = false) (hfuel : mid.length < fuel)
    : ∃ l r, lo ++ mid ++ hi = l ++ r ∧ (∀ x ∈ l, lt x obj = true) ∧ (∀ x ∈ r, lt x obj = false) ∧
        positionLoop lt h list obj fuel lo.length (lo.length + mid.length + 1)
          = .ok (l.length + 1) := by
  induction fuel generalizing lo mid hi with
  | zero => omega
  | succ fuel ih =>
    unfold positionLoop
    split
    next hlt =>
      have hmid : (lo.length + (lo.length + mid.length + 1)) / 2 - lo.length - 1 < mid.length := by
        omega
      obtain ⟨u, v, w, rfl, hu⟩ := List.exists_split_at hmid
      have hm : (lo.length + (lo.length + (u ++ v :: w).length + 1)) / 2
          = lo.length + u.length + 1 := by
        omega
      rw [hm]
      have hl' : h.Holds list ((lo ++ u) ++ v :: (w ++ hi)) := by
        simpa using hl
      dsimp only
      rw [hl'.elm (by simp)]
      rw [ok_bind]
      have hsorted' : StrictlySorted lt ((lo ++ u) ++ v :: (w ++ hi)) := by
        simpa using hsorted
      simp only [StrictlySorted.append_iff, StrictlySorted.cons_iff] at hsorted'
      simp only [length_append, length_cons] at hfuel
      split
      next hv =>
        have hlo' : ∀ x ∈ lo ++ u ++ [v], lt x obj = true := by
          intro x hx
          rcases mem_append.mp hx with hx | hx
          . exact ho.lt_trans (hsorted'.2.2 x hx v mem_cons_self) hv
          . rw [mem_singleton.mp hx]
            exact hv
        have := ih (lo ++ u ++ [v]) w hi (by simpa using hl)
          (by simpa using hsorted) hlo' hhi (by omega)
        simpa [Nat.add_assoc, Nat.add_comm, Nat.add_left_comm] using this
      next hv =>
        rw [not_eq_true] at hv
        have hhi' : ∀ x ∈ v :: w ++ hi, lt x obj = false := by
          intro x hx
          rcases mem_cons.mp hx with rfl | hx
          . exact hv
          . rw [← not_eq_true]
            intro hlt
            have := ho.lt_trans (hsorted'.2.1.1 x hx) hlt
            rw [hv] at this
            cases this
        have := ih lo u (v :: w ++ hi) (by simpa using hl)
          (by simpa using hsorted) hlo hhi' (by omega)
        simpa using this
    next hge =>
      have : mid = [] := by
        rw [← length_eq_zero_iff]
        omega
      rw [this]
      exact ⟨lo, hi, by simp, hlo, hhi, rfl⟩

theorem positionSortedDensePlist_spec (obj : E) {A : List E} (hl : h.Holds list A)
    (hsorted : StrictlySorted lt A)
    : ∃ l r, A = l ++ r ∧ (∀ x ∈ l, lt x obj = true) ∧ (∀ x ∈ r, lt x obj = false) ∧
        positionSortedDensePlist lt h list obj = .ok (l.length + 1) := by
  unfold positionSortedDensePlist
  rw [hl.lenPlist]
  rw [ok_bind]
  have := positionLoop_spec ho obj [] A [] (by simpa using hl)
    (by simpa using hsorted) (by simp) (by simp) (Nat.lt_succ_self A.length)
  simpa using this

theorem searchLoop_spec (e : E) (lo mid hi : List E) {pre : List E}
    (hl : h.Holds list (pre ++ (lo ++ mid ++ hi))) (hsorted : StrictlySorted lt (lo ++ mid ++ hi))
    (hlo : ∀ x ∈ lo, lt x e = true) (hhi : ∀ x ∈ hi, lt e x = true) (hfuel : mid.length < fuel)
    : ∃ found l r, lo ++ mid ++ hi = l ++ r ∧ (∀ x ∈ l, lt e x = false) ∧
        found = memSet eq e (lo ++ mid ++ hi) ∧ (found = true → l ≠ []) ∧
        searchLoop eq lt h list e fuel (pre.length + lo.length + 1)
          (pre.length + lo.length + mid.length) = .ok (found, pre.length + l.length + 1) := by
  induction fuel generalizing lo mid hi with
  | zero => omega
  | succ fuel ih =>
    unfold searchLoop
    split
    next hle =>
      have hmid : (pre.length + lo.length + 1 + (pre.length + lo.length + mid.length)) / 2
          - pre.length - lo.length - 1 < mid.length := by
        omega
      obtain ⟨u, v, w, rfl, hu⟩ := List.exists_split_at hmid
      have hm : (pre.length + lo.length + 1 + (pre.length + lo.length + (u ++ v :: w).length)) / 2
          = pre.length + lo.length + u.length + 1 := by
        omega
      rw [hm]
      have hl' : h.Holds list ((pre ++ lo ++ u) ++ v :: (w ++ hi)) := by
        simpa using hl
      dsimp only
      rw [hl'.elm (by simp [Nat.add_assoc])]
      rw [ok_bind]
      have hsorted' : StrictlySorted lt ((lo ++ u) ++ v :: (w ++ hi)) := by
        simpa using hsorted
      simp only [StrictlySorted.append_iff, StrictlySorted.cons_iff] at hsorted'
      simp only [length_append, length_cons] at hfuel
      split
      next hv =>
        have hhi' : ∀ x ∈ v :: w ++ hi, lt e x = true := by
          intro x hx
          rcases mem_cons.mp hx with rfl | hx
          . exact hv
          . exact ho.lt_trans hv (hsorted'.2.1.1 x hx)
        have := ih lo u (v :: w ++ hi) (by simpa using hl)
          (by simpa using hsorted) hlo hhi' (by omega)
        simpa using this
      next hv =>
        rw [not_eq_true] at hv
        split
        next hev =>
          refine ⟨true, lo ++ u ++ [v], w ++ hi, by simp, ?_, ?_, by simp, ?_⟩
          . intro x hx
            rcases mem_append.mp hx with hx | hx
            . apply ho.lt_asymm
              rw [ho.eq_comm] at hev
              exact ho.lt_of_lt_of_eq (hsorted'.2.2 x hx v mem_cons_self) hev
            . rw [mem_singleton.mp hx]
              exact hv
          . simp [hev]
          . simp [Nat.add_assoc]
            rfl
        next hev =>
          rw [not_eq_true] at hev
          have hve := ho.lt_of_not_eq hev hv
          have hlo' : ∀ x ∈ lo ++ u ++ [v], lt x e = true := by
            intro x hx
            rcases mem_append.mp hx with hx | hx
            . exact ho.lt_trans (hsorted'.2.2 x hx v mem_cons_self) hve
            . rw [mem_singleton.mp hx]
              exact hve
          have := ih (lo ++ u ++ [v]) w hi (by simpa using hl)
            (by simpa using hsorted) hlo' hhi (by omega)
          simpa [Nat.add_assoc, Nat.add_comm, Nat.add_left_comm] using this
    next hgt =>
      have : mid = [] := by
        rw [← length_eq_zero_iff]
        omega
      rw [this]
      refine ⟨false, lo, hi, by simp, ?_, ?_, by simp, rfl⟩
      . intro x hx
        exact ho.lt_asymm (hlo x hx)
      . rw [append_nil, memSet_append, ho.memSet_of_lt hlo, ho.memSet_of_gt hhi]
        rfl

theorem searchLoop_window {e : E} {pre window : List E} {i2 len2 : Nat}
    (hl : h.Holds list (pre ++ window)) (hsorted : StrictlySorted lt window)
    (hi2 : i2 = pre.length + 1) (hlen2 : len2 = pre.length + window.length) (hfuel : len2 < fuel)
    : ∃ l r, window = l ++ r ∧ (∀ x ∈ l, lt e x = false) ∧
        (memSet eq e window = true → l ≠ []) ∧
        searchLoop eq lt h list e fuel i2 len2
          = .ok (memSet eq e window, pre.length + l.length + 1) := by
  obtain ⟨found, l, r, hsplit, hle, hfound, hne, heq⟩ := searchLoop_spec ho e [] window []
    (by simpa using hl) (by simpa using hsorted) (by simp) (by simp)
    (by omega : window.length < fuel)
  rw [hi2, hlen2]
  refine ⟨l, r, by simpa using hsplit, hle, ?_, ?_⟩
  . intro hmem
    apply hne
    rw [hfound]
    simpa using hmem
  . rw [hfound] at heq
    simpa using heq

theorem memSet_rest {e e' : E} {l r : List E} (hle : ∀ x ∈ l, lt e x = false) (hlt : lt e e' = true)
    : memSet eq e' (l ++ r) = memSet eq e' r := by
  rw [memSet_append, ho.memSet_of_lt (fun x hx => ho.lt_of_not_lt_of_lt (hle x hx) hlt)]
  rfl

end

end PlainSetImpl
