import GapKernel.PlistElms.Lemmas

/-!
This module contains the sequence of assignments that the assignment to several positions stands
for, and when the functions for several positions are right.
-/

open List

namespace PlistImpl

variable {α : Type}

def assAt (list : PlistEntries α) (p val : Option (PlistObj α)) : Option (PlistEntries α) :=
  match p with
  | some (.int n) => if 0 < n then some ((growPlist list n).set (n.toNat - 1) val) else none
  | _ => none

def Operand.entry (x : Operand α) (list : PlistEntries α) (i : Nat) : Option (PlistObj α) :=
  match x with
  | .plist x => (x.entries[i - 1]?).join
  | .same => (list[i - 1]?).join

def Positions.entry (poss : Positions α) (list : PlistEntries α) (i : Nat) : Option (PlistObj α) :=
  match poss with
  | .plist poss => poss.entry list i
  | .range poss => some (.int (poss.low + (i - 1 : Nat) * poss.inc))

def assSeq (poss : Positions α) (vals : Operand α)
    : (k i : Nat) → PlistEntries α → Option (PlistEntries α)
  | 0, _, list => some list
  | k + 1, i, list => do
    let list ← assAt list (poss.entry list i) (vals.entry list i)
    assSeq poss vals k (i + 1) list

def Positions.length (poss : Positions α) (list : PlistBag α) : Nat :=
  match poss with
  | .plist poss => (poss.bag list).entries.length
  | .range poss => poss.len.toNat

def Returns (l : Option (PlistEntries α)) (res : Result (PlistBag α)) : Prop :=
  match l with
  | some l => ∃ bag, res = .ok bag ∧ bag.entries = l
  | none => ∃ msg a b, res = .error (.quit msg a b)

/-- The list after the single assignments, or an error if one of them is not possible. -/
def IsAssigned (list : PlistBag α) (poss : Positions α) (vals : Operand α)
    (res : Result (PlistBag α)) : Prop :=
  Returns (assSeq poss vals (poss.length list) 1 list.entries) res

/-- The length of a list that has all the positions, large integers are read as addresses. -/
def largestPos (len : Int) (ps : PlistEntries α) : Int :=
  ps.foldl (fun m p => max m (intIntObj p)) len

/--
All positions are small integers. If the list itself gives the positions, every position that is read
in the sequence of assignments has to be a small integer, and the longest list that they give has the
length that is known before.
-/
def HasRightPositions (list : PlistBag α) (poss : Positions α) (vals : Operand α) : Prop :=
  match poss with
  | .range _ => True
  | .plist (.plist ps) => ∀ p ∈ ps.entries, isIntObj p = true
  | .plist .same => ∃ l, assSeq (.plist .same) vals list.entries.length 1 list.entries = some l
      ∧ l.length = largestPos list.entries.length list.entries

section Grow

variable {list : PlistEntries α}

theorem length_growPlist (list : PlistEntries α) (m : Int)
    : (growPlist list m).length = max list.length m.toNat := by
  unfold growPlist
  split
  . rw [length_append, length_replicate]
    omega
  . omega

theorem getElem?_growPlist (list : PlistEntries α) (m : Int) (k : Nat)
    : (growPlist list m)[k]?
      = if k < list.length then list[k]? else if k < m then some none else none := by
  unfold growPlist
  split
  . next hlt =>
    rw [getElem?_append]
    split
    . rfl
    . rw [getElem?_replicate]
      by_cases hk : k < m
      . rw [if_pos hk, if_pos (by omega)]
      . rw [if_neg hk, if_neg (by omega)]
  . next hge =>
    split
    . rfl
    . rw [getElem?_eq_none (by omega), if_neg (by omega)]

theorem growPlist_of_le {m : Int} (h : m ≤ list.length) : growPlist list m = list :=
  if_neg (Int.not_lt.mpr h)

theorem set_growPlist {m n : Int} (hn : 0 < n) (hnm : n ≤ m) (val : Option (PlistObj α))
    : (growPlist list m).set (n.toNat - 1) val
      = growPlist ((growPlist list n).set (n.toNat - 1) val) m := by
  apply ext_getElem?
  intro k
  simp only [getElem?_set, getElem?_growPlist, length_set, length_growPlist]
  by_cases hk : n.toNat - 1 = k
  . rw [if_pos hk, if_pos hk, if_pos (by omega), if_pos (by omega), if_pos (by omega)]
  . rw [if_neg hk, if_neg hk]
    by_cases hlen : k < list.length
    . rw [if_pos hlen, if_pos (by omega), if_pos hlen]
    . rw [if_neg hlen]
      by_cases hkn : k < n
      . rw [if_pos (by omega), if_pos (by omega), if_neg hlen, if_pos hkn]
      . rw [if_neg (show ¬k < max list.length n.toNat by omega)]

variable {l : PlistEntries α}

theorem assAt_eq_some {p val : Option (PlistObj α)} (h : assAt list p val = some l)
    : ∃ n, p = some (.int n) ∧ 0 < n ∧ l = (growPlist list n).set (n.toNat - 1) val := by
  unfold assAt at h
  split at h
  . next n =>
    split at h
    . next hn => exact ⟨n, rfl, hn, (Option.some.inj h).symm⟩
    . contradiction
  . contradiction

variable {poss : Positions α} {vals : Operand α} {k i : Nat}

theorem assSeq_succ (h : assSeq poss vals (k + 1) i list = some l)
    : ∃ l', assAt list (poss.entry list i) (vals.entry list i) = some l'
        ∧ assSeq poss vals k (i + 1) l' = some l :=
  Option.bind_eq_some_iff.mp h

theorem assSeq_length_le (h : assSeq poss vals k i list = some l) : list.length ≤ l.length := by
  induction k generalizing i list with
  | zero => rw [Option.some.inj h]
  | succ k ih =>
    obtain ⟨l', hass, hrest⟩ := assSeq_succ h
    obtain ⟨n, -, -, rfl⟩ := assAt_eq_some hass
    have := ih hrest
    rw [length_set, length_growPlist] at this
    omega

end Grow

section Loop

variable {list l : PlistEntries α} {poss vals : Operand α}

def Operand.CanRead (x : Operand α) (n : Nat) (list : PlistEntries α) : Prop :=
  match x with
  | .plist x => n ≤ x.entries.length
  | .same => n ≤ list.length

variable {x : Operand α} {n i : Nat}

theorem Operand.CanRead.elmw (h : x.CanRead n list) (h1 : 0 < i) (hi : i ≤ n) (m : Int)
    : x.elmw (growPlist list m) i = .ok (x.entry list i) := by
  obtain ⟨k, rfl⟩ : ∃ k, i = k + 1 := ⟨i - 1, by omega⟩
  cases x with
  | plist x =>
    have hle : n ≤ x.entries.length := h
    have hget := getElem?_eq_getElem (show k < x.entries.length by omega)
    unfold Operand.elmw Operand.entry
    dsimp only
    rw [elmPlist_of_getElem? hget, Nat.add_sub_cancel, hget]
    rfl
  | same =>
    have hle : n ≤ list.length := h
    have hget := getElem?_eq_getElem (show k < list.length by omega)
    have hgrow : (growPlist list m)[k]? = some list[k] := by
      rw [getElem?_growPlist, if_pos (by omega), hget]
    unfold Operand.elmw Operand.entry
    dsimp only
    rw [elmPlist_of_getElem? hgrow, Nat.add_sub_cancel, hget]
    rfl

theorem Operand.CanRead.mono (h : x.CanRead n list) (hle : list.length ≤ l.length)
    : x.CanRead n l := by
  cases x with
  | plist x => exact h
  | same => exact Nat.le_trans h hle

def asssRound (poss vals : Operand α) (i : Nat) (list : PlistEntries α)
    : Result (PlistEntries α) := do
  let pos := intIntObj (← poss.elmw list i)
  let val ← vals.elmw list i
  setElmPlist list pos.toNat val

theorem asssLoop_eq {k : Nat} {m : Int} (hi : 0 < i) (hk : i + k = n + 1)
    (hposs : poss.CanRead n list) (hvals : vals.CanRead n list)
    (h : assSeq (.plist poss) vals k i list = some l) (hm : l.length ≤ m)
    : forLoop (asssRound poss vals) k i (growPlist list m) = .ok (growPlist l m) := by
  induction k generalizing i list with
  | zero =>
    rw [← Option.some.inj h]
    rfl
  | succ k ih =>
    obtain ⟨l', hass, hrest⟩ := assSeq_succ h
    obtain ⟨p, hp, hpos, rfl⟩ := assAt_eq_some hass
    have hlen := assSeq_length_le hrest
    rw [length_set, length_growPlist] at hlen
    have hp' : poss.entry list i = some (.int p) := hp
    have hgrow : list.length ≤ ((growPlist list p).set (p.toNat - 1) (vals.entry list i)).length := by
      rw [length_set, length_growPlist]
      omega
    unfold forLoop asssRound
    rw [hposs.elmw hi (by omega), ok_bind, hvals.elmw hi (by omega), ok_bind, hp']
    change setElmPlist (growPlist list m) p.toNat (vals.entry list i) >>= _ = _
    rw [setElmPlist_eq (by omega) (by rw [length_growPlist]; omega), ok_bind,
      set_growPlist hpos (by omega)]
    exact ih (by omega) (by omega) (hposs.mono hgrow) (hvals.mono hgrow) hrest

theorem elmPlist_error {β : Type} {l : List β} {pos : Nat} {err : Fault}
    (h : elmPlist l pos = .error err) : err = .access := by
  unfold elmPlist at h
  split at h
  . exact (Except.error.inj h).symm
  . split at h
    . contradiction
    . exact (Except.error.inj h).symm

theorem Operand.elmw_error {err : Fault} (h : x.elmw list i = .error err) : err = .access := by
  cases x with
  | plist x => exact elmPlist_error h
  | same => exact elmPlist_error h

theorem asssRound_cases (poss vals : Operand α) (i : Nat) (list : PlistEntries α)
    : (∃ l, asssRound poss vals i list = .ok l ∧ l.length = list.length)
      ∨ asssRound poss vals i list = .error .access := by
  unfold asssRound
  cases hp : poss.elmw list i with
  | error err =>
    rw [Operand.elmw_error hp]
    exact .inr rfl
  | ok p =>
    rw [ok_bind]
    cases hv : vals.elmw list i with
    | error err =>
      rw [Operand.elmw_error hv]
      exact .inr rfl
    | ok v =>
      rw [ok_bind]
      unfold setElmPlist
      split
      . exact .inl ⟨_, rfl, length_set⟩
      . exact .inr rfl

theorem asssLoop_cases (poss vals : Operand α) (k i : Nat) (list : PlistEntries α)
    : (∃ l, forLoop (asssRound poss vals) k i list = .ok l ∧ l.length = list.length)
      ∨ forLoop (asssRound poss vals) k i list = .error .access := by
  induction k generalizing i list with
  | zero => exact .inl ⟨list, rfl, rfl⟩
  | succ k ih =>
    unfold forLoop
    rcases asssRound_cases poss vals i list with ⟨l, hrun, hlen⟩ | hrun
    . rw [hrun, ok_bind, ← hlen]
      exact ih (i + 1) l
    . rw [hrun]
      exact .inr rfl

theorem largestPos_cons (len : Int) (p : Option (PlistObj α)) (ps : PlistEntries α)
    : largestPos len (p :: ps) = largestPos (max len (intIntObj p)) ps :=
  rfl

theorem le_largestPos (len : Int) (ps : PlistEntries α) : len ≤ largestPos len ps := by
  induction ps generalizing len with
  | nil => exact Int.le_refl len
  | cons p ps ih =>
    rw [largestPos_cons]
    exact Int.le_trans (Int.le_max_left _ _) (ih _)

theorem maxLoop_eq {bag : PlistBag α} {k : Nat} (m : Int) (hx : (x.bag bag).entries.length = k)
    : forLoop (fun i max => do
        let pos := intIntObj (← x.elmw bag.entries i)
        return if max < pos then pos else max) k 1 m
      = .ok (largestPos m (x.bag bag).entries) := by
  have hread : ∀ i, x.elmw bag.entries i = elmPlist (x.bag bag).entries i := by
    intro i
    cases x with
    | plist x => rfl
    | same => rfl
  have hloop (pre rest : PlistEntries α) (m : Int)
      : forLoop (fun i max => do
          let pos := intIntObj (← elmPlist (pre ++ rest) i)
          return if max < pos then pos else max) rest.length (pre.length + 1) m
        = .ok (largestPos m rest) := by
    induction rest generalizing pre m with
    | nil => rfl
    | cons p rest ih =>
      rw [length_cons]
      unfold forLoop
      rw [elmPlist_append_cons, ok_bind, largestPos_cons]
      have hmax : (if m < intIntObj p then intIntObj p else m) = max m (intIntObj p) := by
        split
        . omega
        . omega
      have hrest := ih (pre ++ [p]) (max m (intIntObj p))
      rw [append_assoc, singleton_append, length_append] at hrest
      change (Except.ok _ >>= _) = _
      rw [ok_bind, hmax]
      exact hrest
  simp only [hread]
  have := hloop [] (x.bag bag).entries m
  rwa [nil_append, hx, length_nil, Nat.zero_add] at this

end Loop

section Assigned

variable {list : PlistBag α} {vals : Operand α}

theorem asssPlistList_eq (poss : Operand α) {n : Nat}
    (hn : (poss.bag list).entries.length = n)
    : asssPlistList list.entries poss vals n
      = forLoop (asssRound poss vals) n 1
        (growPlist list.entries (largestPos list.entries.length (poss.bag list).entries)) := by
  unfold asssPlistList
  rw [maxLoop_eq _ hn]
  rfl

theorem canRead_bag (x : Operand α) : x.CanRead (x.bag list).entries.length list.entries := by
  cases x with
  | plist x => exact Nat.le_refl _
  | same => exact Nat.le_refl _

theorem asssPlist_plist_iff (poss : Operand α)
    (hvals : (vals.bag list).entries.length = (poss.bag list).entries.length)
    : IsAssigned list (.plist poss) vals (asssPlist list (.plist poss) vals)
      ↔ ∃ l, assSeq (.plist poss) vals (poss.bag list).entries.length 1 list.entries = some l
        ∧ l.length = largestPos list.entries.length (poss.bag list).entries := by
  have hle := le_largestPos list.entries.length (poss.bag list).entries
  unfold IsAssigned asssPlist Positions.length
  dsimp only
  rw [asssPlistList_eq poss rfl]
  have hcases := asssLoop_cases poss vals (poss.bag list).entries.length 1
    (growPlist list.entries (largestPos list.entries.length (poss.bag list).entries))
  cases hseq : assSeq (.plist poss) vals (poss.bag list).entries.length 1 list.entries with
  | none =>
    refine iff_of_false (fun h => ?_) fun ⟨l, hl, _⟩ => nomatch hl
    obtain ⟨msg, a, b, hrun⟩ := h
    rcases hcases with ⟨l, hok, -⟩ | herr
    . rw [hok] at hrun
      contradiction
    . rw [herr] at hrun
      cases hrun
  | some l =>
    constructor
    . intro ⟨bag, hrun, hbag⟩
      refine ⟨l, rfl, ?_⟩
      rcases hcases with ⟨l', hok, hlen⟩ | herr
      . rw [hok] at hrun
        cases hrun
        rw [← hbag]
        change (l'.length : Int) = _
        rw [hlen, length_growPlist]
        omega
      . rw [herr] at hrun
        contradiction
    . intro ⟨l', hl', hlen⟩
      cases hl'
      have hv : vals.CanRead (poss.bag list).entries.length list.entries := by
        rw [← hvals]
        exact canRead_bag vals
      rw [asssLoop_eq (Nat.one_pos) (by omega) (canRead_bag poss) hv hseq (Int.le_of_eq hlen),
        growPlist_of_le (Int.le_of_eq hlen.symm)]
      exact ⟨_, rfl, rfl⟩

section

variable (t : PlistKTNum) (pre rest : PlistEntries α) (l : PlistEntries α)

include t pre rest l

theorem assSeq_of_isInt (hrest : ∀ p ∈ rest, isIntObj p = true ∧ 0 < intIntObj p)
    : ∃ l', assSeq (.plist (.plist ⟨t, pre ++ rest⟩)) vals rest.length (pre.length + 1) l = some l'
        ∧ l'.length = largestPos l.length rest := by
  induction rest generalizing pre l with
  | nil => exact ⟨l, rfl, rfl⟩
  | cons p rest ih =>
    obtain ⟨hint, hpos⟩ := hrest p mem_cons_self
    have hentry : Positions.entry (.plist (.plist ⟨t, pre ++ p :: rest⟩)) l (pre.length + 1) = p := by
      unfold Positions.entry Operand.entry
      simp
    obtain ⟨n, rfl⟩ : ∃ n, p = some (.int n) := by
      rcases p with _ | n | ⟨z, addr⟩ | ⟨a, addr⟩
      . contradiction
      . exact ⟨n, rfl⟩
      . contradiction
      . contradiction
    have hnpos : 0 < n := hpos
    obtain ⟨l', hseq, hlen⟩ := ih (pre ++ [some (.int n)])
      ((growPlist l n).set (n.toNat - 1) (vals.entry l (pre.length + 1)))
      fun q hq => hrest q (mem_cons_of_mem _ hq)
    rw [append_assoc, singleton_append, length_append] at hseq
    refine ⟨l', ?_, ?_⟩
    . rw [length_cons]
      unfold assSeq
      rw [hentry]
      unfold assAt
      dsimp only
      rw [if_pos hnpos]
      exact hseq
    . rw [hlen, length_set, length_growPlist, largestPos_cons]
      change largestPos ((max l.length n.toNat : Nat) : Int) rest = largestPos (max l.length n) rest
      congr 1
      omega

theorem isInt_of_assSeq {l' : PlistEntries α}
    (h : assSeq (.plist (.plist ⟨t, pre ++ rest⟩)) vals rest.length (pre.length + 1) l = some l')
    : ∀ p ∈ rest, isIntObj p = true := by
  induction rest generalizing pre l with
  | nil => exact fun p hp => absurd hp not_mem_nil
  | cons p rest ih =>
    rw [length_cons] at h
    obtain ⟨l1, hass, hrest⟩ := assSeq_succ h
    obtain ⟨n, hp, -, -⟩ := assAt_eq_some hass
    have hentry : Positions.entry (.plist (.plist ⟨t, pre ++ p :: rest⟩)) l (pre.length + 1) = p := by
      unfold Positions.entry Operand.entry
      simp
    rw [hentry] at hp
    intro q hq
    rcases mem_cons.mp hq with rfl | hq
    . rw [hp]
      rfl
    . have htail := ih (pre ++ [p]) l1
      rw [append_assoc, singleton_append, length_append] at htail
      exact htail hrest q hq

end

theorem asssPlist_list_iff {ps : PlistBag α} (hps : isPossPlist ps.entries = true)
    (hvals : (vals.bag list).entries.length = ps.entries.length)
    : IsAssigned list (.plist (.plist ps)) vals (asssPlist list (.plist (.plist ps)) vals)
      ↔ ∀ p ∈ ps.entries, isIntObj p = true := by
  rw [asssPlist_plist_iff (.plist ps) hvals]
  constructor
  . intro ⟨l, hseq, _⟩
    exact isInt_of_assSeq ps.tnum [] ps.entries list.entries hseq
  . intro hint
    exact assSeq_of_isInt ps.tnum [] ps.entries list.entries fun p hp =>
      ⟨hint p hp, pos_of_isInt hps hp (hint p hp)⟩

theorem asssRangeLoop_eq {poss : RangeBag} (t : PlistKTNum) {k i : Nat} (hi : 0 < i)
    (hk : i + k = poss.len.toNat + 1) (l : PlistEntries α)
    : (do
        let s ← forLoop (fun i (s : PlistEntries α × Int) => do
          let val ← vals.elmw s.1 i
          let list ← setElmPlist s.1 s.2.toNat val
          return (list, s.2 + poss.inc)) k i (l, poss.low + (i - 1 : Nat) * poss.inc)
        return s.1)
      = forLoop (asssRound (.plist ⟨t, poss.elms.map fun n => some (.int n)⟩) vals) k i l := by
  induction k generalizing i l with
  | zero => rfl
  | succ k ih =>
    obtain ⟨j, rfl⟩ : ∃ j, i = j + 1 := ⟨i - 1, by omega⟩
    have hget : (poss.elms.map (fun n => some (.int n) : Int → Option (PlistObj α)))[j]?
        = some (some (.int (poss.low + j * poss.inc))) := by
      unfold RangeBag.elms
      rw [getElem?_map, getElem?_map, getElem?_range (by omega)]
      rfl
    unfold forLoop asssRound Operand.elmw
    dsimp only
    rw [elmPlist_of_getElem? hget, ok_bind, Nat.add_sub_cancel]
    change (do
      let s ← (do
        let s ← (do
          let val ← vals.elmw l (j + 1)
          let list ← setElmPlist l (poss.low + j * poss.inc).toNat val
          return (list, poss.low + j * poss.inc + poss.inc))
        forLoop _ k (j + 1 + 1) s)
      return s.1) = (do
        let list ← (do
          let val ← vals.elmw l (j + 1)
          setElmPlist l (poss.low + j * poss.inc).toNat val)
        forLoop _ k (j + 1 + 1) list)
    cases hv : vals.elmw l (j + 1) with
    | error err => rfl
    | ok v =>
      rw [ok_bind, ok_bind]
      cases hset : setElmPlist l (poss.low + j * poss.inc).toNat v with
      | error err => rfl
      | ok l' =>
        have hrest := @ih (j + 1 + 1) (by omega) (by omega) l'
        rw [Nat.add_sub_cancel] at hrest
        have hpos : poss.low + j * poss.inc + poss.inc
            = poss.low + ((j + 1 : Nat) : Int) * poss.inc := by
          push_cast
          ring
        rw [hpos]
        exact hrest

theorem largestPos_of_le {len m : Int} {ps : PlistEntries α} (hlen : len ≤ m)
    (hle : ∀ p ∈ ps, intIntObj p ≤ m) (hex : len = m ∨ ∃ p ∈ ps, intIntObj p = m)
    : largestPos len ps = m := by
  induction ps generalizing len with
  | nil => exact hex.resolve_right fun ⟨p, hp, _⟩ => absurd hp not_mem_nil
  | cons p ps ih =>
    rw [largestPos_cons]
    have hp := hle p mem_cons_self
    apply ih (Int.max_le.mpr ⟨hlen, hp⟩) fun q hq => hle q (mem_cons_of_mem p hq)
    rcases hex with rfl | ⟨q, hq, heq⟩
    . exact .inl (Int.max_eq_left hp)
    . rcases mem_cons.mp hq with rfl | hq
      . rw [heq]
        exact .inl (Int.max_eq_right hlen)
      . exact .inr ⟨q, hq, heq⟩

theorem asssPlistRange_eq {poss : RangeBag} (h : IsPosRange poss) (t : PlistKTNum)
    : asssPlistRange list.entries poss vals
      = asssPlistList list.entries (.plist ⟨t, poss.elms.map fun n => some (.int n)⟩) vals
        poss.len.toNat := by
  have hmax : largestPos list.entries.length (poss.elms.map (fun n => some (.int n) : Int → Option (PlistObj α)))
      = max (max (list.entries.length : Int) poss.low) poss.last := by
    apply largestPos_of_le
    . omega
    . intro p hp
      obtain ⟨n, hn, rfl⟩ := mem_map.mp hp
      have := (h.between hn).2
      change n ≤ _
      omega
    . have hlow : ∃ p ∈ poss.elms.map (fun n => some (.int n) : Int → Option (PlistObj α)),
          intIntObj p = poss.low := ⟨_, mem_map_of_mem h.low_mem, rfl⟩
      have hlast : ∃ p ∈ poss.elms.map (fun n => some (.int n) : Int → Option (PlistObj α)),
          intIntObj p = poss.last := ⟨_, mem_map_of_mem h.last_mem, rfl⟩
      rcases Int.le_total poss.last (max (list.entries.length : Int) poss.low) with hle | hle
      . rw [Int.max_eq_left hle]
        rcases Int.le_total poss.low list.entries.length with hle' | hle'
        . exact .inl (Int.max_eq_left hle').symm
        . rw [Int.max_eq_right hle']
          exact .inr hlow
      . rw [Int.max_eq_right hle]
        exact .inr hlast
  have hlen : (poss.elms.map (fun n => some (.int n) : Int → Option (PlistObj α))).length = poss.len.toNat := by
    simp [RangeBag.elms]
  rw [asssPlistList_eq (.plist ⟨t, poss.elms.map fun n => some (.int n)⟩) hlen]
  unfold asssPlistRange
  have hmax' : (let max : Int := list.entries.length
      let max := if max < poss.low then poss.low else max
      if max < poss.last then poss.last else max)
      = max (max (list.entries.length : Int) poss.low) poss.last := by
    dsimp only
    split <;> split <;> omega
  dsimp only at hmax' ⊢
  rw [hmax', ← hmax, ← asssRangeLoop_eq t Nat.one_pos (by omega)]
  rw [Nat.sub_self, Int.natCast_zero, Int.zero_mul, Int.add_zero]
  rfl

end Assigned

section Spec

variable {list : PlistBag α} {poss : Positions α} {vals : Operand α}

theorem assSeq_range {r : RangeBag} (t : PlistKTNum) {k i : Nat} (hi : 0 < i)
    (hk : i + k = r.len.toNat + 1) (l : PlistEntries α)
    : assSeq (.range r) vals k i l
      = assSeq (.plist (.plist ⟨t, r.elms.map fun n => some (.int n)⟩)) vals k i l := by
  induction k generalizing i l with
  | zero => rfl
  | succ k ih =>
    have hentry : Positions.entry (.range r) l i
        = Positions.entry (.plist (.plist ⟨t, r.elms.map fun n => some (.int n)⟩)) l i := by
      unfold Positions.entry Operand.entry RangeBag.elms
      dsimp only
      rw [getElem?_map, getElem?_map, getElem?_range (by omega)]
      rfl
    unfold assSeq
    rw [hentry]
    congr 1
    funext l'
    exact ih (by omega) (by omega) l'

theorem asssPlist_range_spec {r : RangeBag} (h : IsPosRange r)
    (hvals : (vals.bag list).entries.length = r.len.toNat)
    : IsAssigned list (.range r) vals (asssPlist list (.range r) vals) := by
  let ps : PlistBag α := ⟨.dense, r.elms.map fun n => some (.int n)⟩
  have hlen : ps.entries.length = r.len.toNat := by simp [ps, RangeBag.elms]
  have hint : ∀ p ∈ ps.entries, isIntObj p = true ∧ 0 < intIntObj p := by
    intro p hp
    obtain ⟨n, hn, rfl⟩ := mem_map.mp hp
    exact ⟨rfl, h.pos hn⟩
  obtain ⟨l, hseq, hl⟩ := @assSeq_of_isInt α vals .dense [] ps.entries list.entries hint
  rw [nil_append, length_nil, Nat.zero_add] at hseq
  have hright := (asssPlist_plist_iff (.plist ps) (hvals.trans hlen.symm)).mpr ⟨l, hseq, hl⟩
  have hrun : asssPlist list (.plist (.plist ps)) vals = asssPlist list (.range r) vals := by
    unfold asssPlist
    dsimp only
    rw [asssPlistRange_eq h .dense, ← hlen]
    rfl
  unfold IsAssigned Positions.length at hright ⊢
  rw [hrun] at hright
  dsimp only
  rw [assSeq_range .dense Nat.one_pos (Nat.add_comm 1 _), ← hlen]
  exact hright

theorem asssPlist_iff (hvalid : poss.IsValid) (hposs : poss.isPoss list = true)
    (hvals : (vals.bag list).entries.length = poss.length list)
    : IsAssigned list poss vals (asssPlist list poss vals) ↔ HasRightPositions list poss vals := by
  cases poss with
  | range r => exact iff_of_true (asssPlist_range_spec (isPosRange hvalid hposs) hvals) trivial
  | plist poss =>
    cases poss with
    | plist ps => exact asssPlist_list_iff hposs hvals
    | same => exact asssPlist_plist_iff .same hvals

structure RightSublists (list : PlistBag α) (poss : Positions α) (vals : Operand α) : Prop where
  elms : IsElms list.entries (poss.objs list) (elmsPlist list poss)
  elmsDense : IsElms list.entries (poss.objs list) (elmsPlistDense list poss)
  asss : IsAssigned list poss vals (asssPlist list poss vals)
  asssXXX : IsAssigned list poss vals (asssPlistXXX list poss vals)

theorem asssPlistXXX_iff
    : IsAssigned list poss vals (asssPlistXXX list poss vals)
      ↔ IsAssigned list poss vals (asssPlist list poss vals) := by
  have hrun : ∃ res : Result (PlistEntries α), asssPlist list poss vals
      = (do return ⟨list.tnum, ← res⟩) ∧ asssPlistXXX list poss vals = (do return ⟨.plist, ← res⟩) := by
    unfold asssPlistXXX asssPlist
    cases poss with
    | range r => exact ⟨_, rfl, rfl⟩
    | plist poss =>
      cases poss with
      | plist ps => exact ⟨_, rfl, rfl⟩
      | same => exact ⟨_, rfl, rfl⟩
  obtain ⟨res, hrun, hrun'⟩ := hrun
  rw [hrun, hrun']
  unfold IsAssigned
  cases res with
  | error err => exact Iff.rfl
  | ok l =>
    cases assSeq poss vals (poss.length list) 1 list.entries with
    | none => exact iff_of_false (fun ⟨_, _, _, h⟩ => nomatch h) fun ⟨_, _, _, h⟩ => nomatch h
    | some l' =>
      constructor
      . intro ⟨bag, hbag, heq⟩
        cases hbag
        exact ⟨_, rfl, heq⟩
      . intro ⟨bag, hbag, heq⟩
        cases hbag
        exact ⟨_, rfl, heq⟩

theorem rightSublists_iff (hvalid : poss.IsValid) (hposs : poss.isPoss list = true)
    (hvals : (vals.bag list).entries.length = poss.length list)
    : RightSublists list poss vals
      ↔ HasRightAddresses list.entries (poss.objs list)
        ∧ HasRightHoles list.entries (poss.objs list) ∧ HasRightPositions list poss vals := by
  have helms : IsElms list.entries (poss.objs list) (elmsPlist list poss)
      ↔ HasRightAddresses list.entries (poss.objs list) := by
    cases poss with
    | plist poss => exact elmsPlistList_iff hposs
    | range r =>
      refine iff_of_true (elmsPlistRange_spec (isPosRange hvalid hposs)) (.inl fun p hp => ?_)
      obtain ⟨n, -, rfl⟩ := List.mem_map.mp hp
      rfl
  have hdense : IsElms list.entries (poss.objs list) (elmsPlistDense list poss)
      ↔ HasRightHoles list.entries (poss.objs list) := by
    cases poss with
    | plist poss => exact elmsPlistDenseList_iff hposs
    | range r => exact elmsPlistDenseRange_iff (isPosRange hvalid hposs)
  have hasss := asssPlist_iff hvalid hposs hvals
  constructor
  . intro h
    exact ⟨helms.mp h.elms, hdense.mp h.elmsDense, hasss.mp h.asss⟩
  . intro ⟨h1, h2, h3⟩
    exact ⟨helms.mpr h1, hdense.mpr h2, hasss.mpr h3, asssPlistXXX_iff.mpr (hasss.mpr h3)⟩

end Spec

def exampleList : PlistBag Unit where
  tnum := .cyc
  entries := [some (.int 2), some (.int 1)]

def exampleVals : Operand Unit :=
  .plist ⟨.cyc, [some (.int 7), some (.int 8)]⟩

theorem rightSublists_swap
    : RightSublists exampleList (.plist (.plist exampleList)) exampleVals := by
  have hvalid : Positions.IsValid (.plist (.plist exampleList)) := trivial
  have hvals : (exampleVals.bag exampleList).entries.length
      = (Positions.plist (.plist exampleList)).length exampleList := rfl
  apply (rightSublists_iff hvalid (by decide) hvals).mpr
  have hint : ∀ p ∈ exampleList.entries, isIntObj p = true := by decide
  exact ⟨.inl hint, .inr (by decide), hint⟩

/--
The value 7 replaces the second position, where the bag has no entry. The single assignments give a
list of length 7.
-/
theorem not_rightSublists_same
    : asssPlist exampleList (.plist .same) exampleVals = .error .access
      ∧ assSeq (.plist .same) exampleVals 2 1 exampleList.entries
        = some [some (.int 2), some (.int 7), none, none, none, none, some (.int 8)]
      ∧ ¬RightSublists exampleList (.plist .same) exampleVals := by
  have hrun : asssPlist exampleList (.plist .same) exampleVals = .error .access := by rfl
  have hseq : assSeq (.plist .same) exampleVals 2 1 exampleList.entries
      = some [some (.int 2), some (.int 7), none, none, none, none, some (.int 8)] := by rfl
  refine ⟨hrun, hseq, fun h => ?_⟩
  have hasss : Returns (assSeq (.plist .same) exampleVals 2 1 exampleList.entries)
    (asssPlist exampleList (.plist .same) exampleVals) := h.asss
  rw [hseq] at hasss
  obtain ⟨bag, hok, -⟩ := hasss
  rw [hrun] at hok
  contradiction

end PlistImpl
