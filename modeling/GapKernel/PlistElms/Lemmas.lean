import GapKernel.PlistElms.Impl

open PlistImpl List

section MapM

variable {β γ : Type} {f : β → Result γ}

theorem mapM_cons_ok {b : β} {c : γ} (l : List β) (h : f b = .ok c)
    : (b :: l).mapM f = (do return c :: (← l.mapM f)) := by
  rw [mapM_cons, h, ok_bind]

theorem mapM_cases (f : β → Result γ) (l : List β)
    : (∃ cs, l.mapM f = .ok cs ∧ l.map f = cs.map .ok)
      ∨ ∃ u b v err, l = u ++ b :: v ∧ (∀ a ∈ u, ∃ c, f a = .ok c) ∧ f b = .error err
        ∧ l.mapM f = .error err := by
  induction l with
  | nil => exact .inl ⟨[], rfl, rfl⟩
  | cons b l ih =>
    cases hb : f b with
    | error err =>
      refine .inr ⟨[], b, l, err, rfl, fun a ha => absurd ha not_mem_nil, hb, ?_⟩
      rw [mapM_cons, hb]
      rfl
    | ok c =>
      rw [mapM_cons_ok l hb]
      rcases ih with ⟨cs, hrun, hcs⟩ | ⟨u, b', v, err, rfl, hu, hb', hrun⟩
      . refine .inl ⟨c :: cs, by rw [hrun]; rfl, ?_⟩
        rw [map_cons, map_cons, hb, hcs]
      . refine .inr ⟨b :: u, b', v, err, rfl, fun a ha => ?_, hb', by rw [hrun]; rfl⟩
        rcases mem_cons.mp ha with rfl | ha
        . exact ⟨c, hb⟩
        . exact hu a ha

end MapM

namespace PlistImpl

variable {α : Type}

def lookupAt (list : PlistEntries α) (pos : Int) : Option (PlistObj α) :=
  if 0 < pos then (list[pos.toNat - 1]?).join else none

def lookup (list : PlistEntries α) (p : Option (PlistObj α)) : Option (PlistObj α) :=
  match p with
  | some (.int n) => lookupAt list n
  | _ => none

def IsElms (list ps : PlistEntries α) (res : Result (PlistBag α)) : Prop :=
  (∃ bag, res = .ok bag ∧ bag.entries = ps.map (lookup list) ∧ ∀ p ∈ ps, (lookup list p).isSome)
    ∨ (∃ msg a b, res = .error (.quit msg a b)) ∧ ∃ p ∈ ps, lookup list p = none

def Positions.objs (poss : Positions α) (list : PlistBag α) : PlistEntries α :=
  match poss with
  | .plist poss => (poss.bag list).entries
  | .range poss => poss.elms.map (fun n => some (.int n))

def Positions.isPoss (poss : Positions α) (list : PlistBag α) : Bool :=
  match poss with
  | .plist poss => isPossPlist (poss.bag list).entries
  | .range poss => isPossRange poss

def Positions.IsValid (poss : Positions α) : Prop :=
  match poss with
  | .plist _ => True
  | .range poss => poss.IsRange

section Elms

variable {list ps : PlistEntries α}

theorem isPossPlist_iff : isPossPlist ps = true
    ↔ ∀ p ∈ ps, (∃ n, p = some (.int n) ∧ 0 < n) ∨ ∃ z addr, p = some (.large z addr) ∧ 0 < z := by
  unfold isPossPlist
  rw [all_eq_true]
  refine forall_congr' fun p => forall_congr' fun _ => ?_
  rcases p with _ | n | ⟨z, addr⟩ | ⟨a, addr⟩
  . simp
  . simp
  . simp
  . simp

variable {p : Option (PlistObj α)}

theorem pos_of_isInt (hps : isPossPlist ps = true) (hp : p ∈ ps) (hint : isIntObj p = true)
    : 0 < intIntObj p := by
  rcases isPossPlist_iff.mp hps p hp with ⟨n, rfl, hn⟩ | ⟨z, addr, rfl, _⟩
  . exact hn
  . contradiction

theorem lookup_of_isInt (h : isIntObj p = true)
    : lookup list p = lookupAt list (intIntObj p) := by
  rcases p with _ | n | ⟨z, addr⟩ | ⟨a, addr⟩
  . contradiction
  . rfl
  . contradiction
  . contradiction

theorem lookup_of_not_isInt (h : ¬isIntObj p = true)
    : lookup list p = none := by
  rcases p with _ | n | ⟨z, addr⟩ | ⟨a, addr⟩
  . rfl
  . exact absurd rfl h
  . rfl
  . rfl

variable {pos : Int}

theorem lookupAt_of_lt (h : list.length < pos) : lookupAt list pos = none := by
  unfold lookupAt
  rw [if_pos (by omega), getElem?_eq_none (by omega)]
  rfl

theorem elmAt_eq (hpos : 0 < pos) (hle : pos ≤ list.length)
    : elmAt list pos = .ok (lookupAt list pos) := by
  unfold elmAt lookupAt
  obtain ⟨k, hk⟩ : ∃ k, pos.toNat = k + 1 := ⟨pos.toNat - 1, by omega⟩
  have hget := getElem?_eq_getElem (show k < list.length by omega)
  rw [if_pos hpos, hk, Nat.add_sub_cancel, elmPlist_of_getElem? hget, hget]
  rfl

theorem elmAt_of_nonpos (hpos : pos ≤ 0) : elmAt list pos = .error .access := by
  unfold elmAt
  rw [show pos.toNat = 0 by omega]
  rfl

theorem elmsList_eq (f : Option (PlistObj α) → Result (Option (PlistObj α)))
    (done pre rest : PlistEntries α) (hlen : done.length = pre.length)
    : forLoop (fun i elms => do
        let p ← elmPlist (pre ++ rest) i
        let elm ← f p
        setElmPlist elms i elm) rest.length (pre.length + 1)
        (done ++ replicate rest.length none)
      = (do return done ++ (← rest.mapM f)) := by
  induction rest generalizing done pre with
  | nil => simp [forLoop]
  | cons p rest ih =>
    have hset (elm : Option (PlistObj α))
        : setElmPlist (done ++ none :: replicate rest.length none) (pre.length + 1) elm
          = .ok ((done ++ [elm]) ++ replicate rest.length none) := by
      rw [← hlen, setElmPlist_append_cons, append_cons]
    rw [length_cons, replicate_succ]
    unfold forLoop
    rw [elmPlist_append_cons, ok_bind]
    cases hf : f p with
    | error err =>
      rw [mapM_cons, hf]
      rfl
    | ok elm =>
      have hrest := ih (done ++ [elm]) (pre ++ [p]) (by simp [hlen])
      rw [length_append, append_assoc, singleton_append] at hrest
      rw [ok_bind, hset, ok_bind, mapM_cons_ok rest hf]
      refine hrest.trans ?_
      cases rest.mapM f with
      | error err => rfl
      | ok elms =>
        change Except.ok _ = Except.ok _
        rw [append_assoc, singleton_append]

theorem elmsRange_eq (f : Int → Result (Option (PlistObj α))) (inc : Int) (n : Nat) (low : Int)
    (done : PlistEntries α)
    : (do
        let s ← forLoop (fun i (s : PlistEntries α × Int) => do
          let elms ← setElmPlist s.1 i (← f s.2)
          return (elms, s.2 + inc)) n (done.length + 1) (done ++ replicate n none, low)
        return s.1)
      = (do return done ++ (← ((range n).map fun (k : Nat) => low + k * inc).mapM f)) := by
  induction n generalizing low done with
  | zero => simp [forLoop]
  | succ n ih =>
    have hset (elm : Option (PlistObj α))
        : setElmPlist (done ++ none :: replicate n none) (done.length + 1) elm
          = .ok ((done ++ [elm]) ++ replicate n none) := by
      rw [setElmPlist_append_cons, append_cons]
    have hrange : (range (n + 1)).map (fun (k : Nat) => low + k * inc)
        = low :: (range n).map fun (k : Nat) => low + inc + k * inc := by
      rw [range_succ_eq_map, map_cons, map_map]
      congr 1
      . simp
      . apply map_congr_left
        intro k _
        simp only [Function.comp_apply, Nat.succ_eq_add_one]
        push_cast
        ring
    rw [hrange, replicate_succ]
    unfold forLoop
    dsimp only
    cases hf : f low with
    | error err =>
      rw [mapM_cons, hf]
      rfl
    | ok elm =>
      have hrest := ih (low + inc) (done ++ [elm])
      rw [length_append, length_singleton] at hrest
      rw [ok_bind, hset, ok_bind, mapM_cons_ok _ hf]
      refine hrest.trans ?_
      cases ((range n).map fun (k : Nat) => low + inc + k * inc).mapM f with
      | error err => rfl
      | ok elms =>
        change Except.ok _ = Except.ok _
        rw [append_assoc, singleton_append]

end Elms

section Select

variable {list ps : PlistEntries α}

def selectElm (list : PlistEntries α) (p : Option (PlistObj α)) : Result (Option (PlistObj α)) :=
  if list.length < intIntObj p then throw (noValue (intIntObj p))
    else elmsPlistElm list (intIntObj p)

def selectDense (list : PlistEntries α) (p : Option (PlistObj α)) : Result (Option (PlistObj α)) :=
  if ¬isIntObj p then
    throw (.quit "List Elements: position is too large for this type of list" 0 0)
  else if list.length < intIntObj p then
    throw (noValue (intIntObj p))
  else
    elmAt list (intIntObj p)

theorem elmsPlistElm_eq {pos : Int} (hpos : 0 < pos) (hle : pos ≤ list.length)
    : elmsPlistElm list pos
      = match lookupAt list pos with
        | some elm => .ok (some elm)
        | none => .error (noValue pos) := by
  unfold elmsPlistElm
  rw [elmAt_eq hpos hle, ok_bind]
  cases lookupAt list pos with
  | none => rfl
  | some elm => rfl

theorem selectElm_of_pos {p : Option (PlistObj α)} (hpos : 0 < intIntObj p)
    : selectElm list p
      = match lookupAt list (intIntObj p) with
        | some elm => .ok (some elm)
        | none => .error (noValue (intIntObj p)) := by
  unfold selectElm
  split
  . next hlt =>
    rw [lookupAt_of_lt hlt]
    rfl
  . next hle => rw [elmsPlistElm_eq hpos (Int.not_lt.mp hle)]

theorem selectElm_of_nonpos {p : Option (PlistObj α)} (hpos : intIntObj p ≤ 0)
    : selectElm list p = .error .access := by
  unfold selectElm elmsPlistElm
  rw [if_neg (by omega), elmAt_of_nonpos hpos]
  rfl

theorem elmsPlistList_eq (list ps : PlistEntries α)
    : elmsPlistList list ps = (do
        if ps.length = 0 then
          return ⟨.empty, []⟩
        else
          return ⟨.dense, ← ps.mapM (selectElm list)⟩) := by
  have hloop := elmsList_eq (selectElm list) [] [] ps rfl
  have hbody : (fun i elms => do
      let pos := intIntObj (← elmPlist ps i)
      if list.length < pos then
        throw (noValue pos)
      else
        setElmPlist elms i (← elmsPlistElm list pos))
      = (fun i (elms : PlistEntries α) => do
        let p ← elmPlist ps i
        let elm ← selectElm list p
        setElmPlist elms i elm) := by
    funext i elms
    congr 1
    funext p
    unfold selectElm
    dsimp only
    by_cases hlt : list.length < intIntObj p
    . rw [if_pos hlt, if_pos hlt]
      rfl
    . rw [if_neg hlt, if_neg hlt]
  unfold elmsPlistList
  split
  . rfl
  . dsimp only
    rw [hbody]
    rw [nil_append, nil_append, length_nil, Nat.zero_add] at hloop
    rw [hloop]
    cases ps.mapM (selectElm list) with
    | error err => rfl
    | ok elms => rfl

theorem elmsPlistDenseList_eq (list ps : PlistBag α)
    : elmsPlistDenseList list ps = (do
        if ps.entries.length = 0 then
          return ⟨.empty, []⟩
        else
          return ⟨if list.tnum.isSsort ∧ ps.tnum.isSsort then resetNhomog list.tnum
            else elmsTnum list.tnum .dense, ← ps.entries.mapM (selectDense list.entries)⟩) := by
  have hloop := elmsList_eq (selectDense list.entries) [] [] ps.entries rfl
  have hbody : (fun i elms => do
      let p ← elmPlist ps.entries i
      if ¬isIntObj p then
        throw (.quit "List Elements: position is too large for this type of list" 0 0)
      else
        let pos := intIntObj p
        if list.entries.length < pos then
          throw (noValue pos)
        else
          setElmPlist elms i (← elmAt list.entries pos))
      = (fun i (elms : PlistEntries α) => do
        let p ← elmPlist ps.entries i
        let elm ← selectDense list.entries p
        setElmPlist elms i elm) := by
    funext i elms
    congr 1
    funext p
    unfold selectDense
    split
    . rfl
    . dsimp only
      split
      . rfl
      . rfl
  unfold elmsPlistDenseList
  split
  . rfl
  . dsimp only
    rw [hbody]
    rw [nil_append, nil_append, length_nil, Nat.zero_add] at hloop
    rw [hloop]
    cases ps.entries.mapM (selectDense list.entries) with
    | error err => rfl
    | ok elms => rfl

theorem elmsLoop_eq (f : Int → Result (Option (PlistObj α))) (poss : RangeBag)
    : elmsLoop f poss = poss.elms.mapM f := by
  have hloop := elmsRange_eq f poss.inc poss.len.toNat poss.low []
  rw [nil_append, length_nil, Nat.zero_add] at hloop
  unfold elmsLoop
  dsimp only
  refine hloop.trans ?_
  unfold RangeBag.elms
  cases ((range poss.len.toNat).map fun (k : Nat) => poss.low + k * poss.inc).mapM f with
  | error err => rfl
  | ok elms => rfl

theorem isElms_of_mapM {β : Type} (tnum : PlistKTNum) (obj : β → Option (PlistObj α))
    {qs : List β} {f : β → Result (Option (PlistObj α))} {elms : PlistEntries α} (hmap : qs.map f = elms.map .ok)
    (hf : ∀ q ∈ qs, ∀ e, f q = .ok e → e = lookup list (obj q) ∧ e.isSome)
    : IsElms list (qs.map obj) (.ok ⟨tnum, elms⟩) := by
  have hlen : qs.length = elms.length := by
    have := congrArg length hmap
    rwa [length_map, length_map] at this
  have hget : ∀ i (hi : i < qs.length), f qs[i] = .ok elms[i] := by
    intro i hi
    have := congrArg (fun l => l[i]?) hmap
    simp only [getElem?_map, getElem?_eq_getElem hi,
      getElem?_eq_getElem (hlen ▸ hi), Option.map_some] at this
    exact Option.some.inj this
  refine .inl ⟨_, rfl, ?_, fun p hp => ?_⟩
  . rw [map_map]
    apply ext_getElem
    . rw [length_map]
      exact hlen.symm
    . intro i h1 h2
      rw [length_map] at h2
      rw [getElem_map]
      exact (hf _ (getElem_mem h2) _ (hget i h2)).1
  . obtain ⟨q, hq, rfl⟩ := mem_map.mp hp
    obtain ⟨i, hi, rfl⟩ := mem_iff_getElem.mp hq
    obtain ⟨heq, hsome⟩ := hf _ hq _ (hget i hi)
    rwa [← heq]

/--
All positions are small integers, or else some position is not bound, also if the addresses of the
large integers are taken for positions, and it is found before an access with a position that is not
positive.
-/
def HasRightAddresses (list ps : PlistEntries α) : Prop :=
  (∀ p ∈ ps, isIntObj p = true)
    ∨ ∃ u p v, ps = u ++ p :: v ∧ (∀ q ∈ u, 0 < intIntObj q) ∧ 0 < intIntObj p
      ∧ lookupAt list (intIntObj p) = none

theorem elmsPlistList_iff (hps : isPossPlist ps = true)
    : IsElms list ps (elmsPlistList list ps) ↔ HasRightAddresses list ps := by
  rw [elmsPlistList_eq]
  split
  . next h0 =>
    rw [length_eq_zero_iff] at h0
    rw [h0]
    exact iff_of_true (.inl ⟨_, rfl, rfl, fun p hp => absurd hp not_mem_nil⟩)
      (.inl fun p hp => absurd hp not_mem_nil)
  . rcases mapM_cases (selectElm list) ps with ⟨elms, hrun, hmap⟩ | ⟨u, p, v, err, hsplit, hu, hp, hrun⟩
    . rw [hrun, ok_bind]
      -- No error has been found.
      have hok : ∀ q ∈ ps, ∃ e, selectElm list q = .ok e := by
        intro q hq
        have : selectElm list q ∈ elms.map Except.ok := hmap ▸ mem_map_of_mem hq
        obtain ⟨e, -, he⟩ := mem_map.mp this
        exact ⟨e, he.symm⟩
      have hpos : ∀ q ∈ ps, 0 < intIntObj q := by
        intro q hq
        by_contra hnot
        obtain ⟨e, he⟩ := hok q hq
        rw [selectElm_of_nonpos (by omega)] at he
        contradiction
      have hbound : ∀ q ∈ ps, ∀ e, selectElm list q = .ok e
          → e = lookupAt list (intIntObj q) ∧ e.isSome := by
        intro q hq e he
        rw [selectElm_of_pos (hpos q hq)] at he
        cases hlook : lookupAt list (intIntObj q) with
        | none =>
          rw [hlook] at he
          contradiction
        | some elm =>
          rw [hlook] at he
          cases he
          exact ⟨rfl, rfl⟩
      constructor
      . intro h
        rcases h with ⟨bag, hbag, -, hsome⟩ | ⟨⟨msg, a, b, herr⟩, -⟩
        . refine .inl fun p hp => ?_
          by_contra hnot
          have := hsome p hp
          rw [lookup_of_not_isInt hnot] at this
          contradiction
        . contradiction
      . intro h
        rcases h with hint | ⟨u, p, v, hsplit, -, -, hnone⟩
        . have hall := isElms_of_mapM .dense id hmap fun q hq e he => by
            rw [id, lookup_of_isInt (hint q hq)]
            exact hbound q hq e he
          rwa [map_id] at hall
        . have hmem : p ∈ ps := by simp [hsplit]
          obtain ⟨e, he⟩ := hok p hmem
          obtain ⟨heq, hsome⟩ := hbound p hmem e he
          rw [heq, hnone] at hsome
          contradiction
    . rw [hrun]
      have hupos : ∀ q ∈ u, 0 < intIntObj q := by
        intro q hq
        by_contra hnot
        obtain ⟨e, he⟩ := hu q hq
        rw [selectElm_of_nonpos (by omega)] at he
        contradiction
      have hmem : p ∈ ps := by simp [hsplit]
      constructor
      . intro h
        rcases h with ⟨bag, hbag, -⟩ | ⟨⟨msg, a, b, herr⟩, -⟩
        . contradiction
        . have herr' : err = .quit msg a b := Except.error.inj herr
          rw [herr'] at hp
          have hppos : 0 < intIntObj p := by
            by_contra hnot
            rw [selectElm_of_nonpos (by omega)] at hp
            cases hp
          refine .inr ⟨u, p, v, hsplit, hupos, hppos, ?_⟩
          rw [selectElm_of_pos hppos] at hp
          cases hlook : lookupAt list (intIntObj p) with
          | none => rfl
          | some elm =>
            rw [hlook] at hp
            contradiction
      . intro h
        -- The first position that is not bound is the one with the error.
        have hppos : 0 < intIntObj p := by
          rcases h with hint | ⟨u', p', v', hsplit', hupos', hppos', hnone⟩
          . exact pos_of_isInt hps hmem (hint p hmem)
          . have hlen : u.length ≤ u'.length := by
              by_contra hlt
              have hp' : p' ∈ u := by
                have hget : ps[u'.length]? = some p' := by rw [hsplit']; simp
                rw [hsplit, getElem?_append_left (by omega)] at hget
                exact mem_of_getElem? hget
              obtain ⟨e, he⟩ := hu p' hp'
              rw [selectElm_of_pos hppos', hnone] at he
              contradiction
            have hget : ps[u.length]? = some p := by rw [hsplit]; simp
            rw [hsplit'] at hget
            rcases Nat.lt_or_eq_of_le hlen with hlt | heq
            . rw [getElem?_append_left hlt] at hget
              exact hupos' p (mem_of_getElem? hget)
            . rw [heq] at hget
              simp only [getElem?_append_right (Nat.le_refl _), Nat.sub_self,
                getElem?_cons_zero, Option.some.injEq] at hget
              rw [← hget]
              exact hppos'
        rw [selectElm_of_pos hppos] at hp
        cases hlook : lookupAt list (intIntObj p) with
        | some elm =>
          rw [hlook] at hp
          contradiction
        | none =>
          rw [hlook] at hp
          cases hp
          refine .inr ⟨⟨_, _, _, rfl⟩, ?_⟩
          by_cases hint : isIntObj p = true
          . exact ⟨p, hmem, (lookup_of_isInt hint).trans hlook⟩
          . exact ⟨p, hmem, lookup_of_not_isInt hint⟩

end Select

section Ranges

variable {list : PlistEntries α} {poss : RangeBag}

structure IsPosRange (poss : RangeBag) : Prop where
  two_le_len : 2 ≤ poss.len
  low_pos : 0 < poss.low
  last_pos : 0 < poss.last

theorem isPosRange (hr : poss.IsRange) (h : isPossRange poss = true) : IsPosRange poss := by
  unfold isPossRange at h
  split at h
  . contradiction
  . next hlow =>
    split at h
    . contradiction
    . next hlast => exact ⟨hr.two_le_len, Int.not_le.mp hlow, Int.not_le.mp hlast⟩

namespace IsPosRange

theorem low_mem (h : IsPosRange poss) : poss.low ∈ poss.elms := by
  have := h.two_le_len
  rw [RangeBag.mem_elms]
  exact ⟨0, by omega, by simp⟩

theorem last_mem (h : IsPosRange poss) : poss.last ∈ poss.elms := by
  have := h.two_le_len
  rw [RangeBag.mem_elms]
  refine ⟨(poss.len - 1).toNat, by omega, ?_⟩
  rw [Int.toNat_of_nonneg (by omega)]
  rfl

variable {n : Int}

theorem between (h : IsPosRange poss) (hn : n ∈ poss.elms)
    : min poss.low poss.last ≤ n ∧ n ≤ max poss.low poss.last := by
  have hlen := h.two_le_len
  obtain ⟨k, hk, rfl⟩ := RangeBag.mem_elms.mp hn
  have hk' : (k : Int) ≤ poss.len - 1 := by omega
  have hlast : poss.last = poss.low + (poss.len - 1) * poss.inc := rfl
  rcases Int.le_total 0 poss.inc with hinc | hinc
  . have h1 := Int.mul_nonneg (Int.natCast_nonneg k) hinc
    have h2 := Int.mul_le_mul_of_nonneg_right hk' hinc
    omega
  . have h1 := Int.mul_nonpos_of_nonneg_of_nonpos (Int.natCast_nonneg k) hinc
    have h2 := Int.mul_le_mul_of_nonpos_right hk' hinc
    omega

theorem pos (h : IsPosRange poss) (hn : n ∈ poss.elms) : 0 < n := by
  have h1 := h.low_pos
  have h2 := h.last_pos
  have h3 := h.between hn
  omega

theorem le_of_le (h : IsPosRange poss) {m : Int} (hn : n ∈ poss.elms) (hlow : poss.low ≤ m)
    (hlast : poss.last ≤ m) : n ≤ m := by
  have h3 := h.between hn
  omega

end IsPosRange

theorem isElms_error {ps : PlistEntries α} {p : Option (PlistObj α)} (hp : p ∈ ps)
    (hnone : lookup list p = none) (pos : Int)
    : IsElms list ps (throw (noValue pos)) :=
  .inr ⟨⟨_, _, _, rfl⟩, p, hp, hnone⟩

theorem isElms_range_error {n : Int} (hn : n ∈ poss.elms) (hnone : lookupAt list n = none)
    : IsElms list (poss.elms.map fun n => some (.int n)) (throw (noValue n)) := by
  have hlook : lookup list (some (.int n)) = none := hnone
  exact isElms_error (mem_map_of_mem hn) hlook n

theorem elmsPlistRange_spec (h : IsPosRange poss)
    : IsElms list (poss.elms.map fun n => some (.int n)) (elmsPlistRange list poss) := by
  have hlen := h.two_le_len
  have hbeyond : ∀ n ∈ poss.elms, list.length < n
      → IsElms list (poss.elms.map fun n => some (.int n)) (throw (noValue n)) := fun n hn hlt =>
    isElms_range_error hn (lookupAt_of_lt hlt)
  unfold elmsPlistRange
  rw [if_neg (by omega)]
  split
  . next hlow => exact hbeyond _ h.low_mem hlow
  . next hlow =>
    split
    . next hlast => exact hbeyond _ h.last_mem hlast
    . next hlast =>
      have helm : ∀ n ∈ poss.elms, elmsPlistElm list n = match lookupAt list n with
          | some elm => .ok (some elm)
          | none => .error (noValue n) := fun n hn =>
        elmsPlistElm_eq (h.pos hn) (h.le_of_le hn (Int.not_lt.mp hlow) (Int.not_lt.mp hlast))
      rw [elmsLoop_eq]
      rcases mapM_cases (elmsPlistElm list) poss.elms with
        ⟨elms, hrun, hmap⟩ | ⟨u, n, v, err, hsplit, -, hn, hrun⟩
      . rw [hrun]
        apply isElms_of_mapM .dense (fun n => some (.int n)) hmap
        intro n hn e he
        rw [helm n hn] at he
        cases hlook : lookupAt list n with
        | none =>
          rw [hlook] at he
          contradiction
        | some elm =>
          rw [hlook] at he
          cases he
          exact ⟨hlook.symm, rfl⟩
      . have hmem : n ∈ poss.elms := by simp [hsplit]
        rw [helm n hmem] at hn
        cases hlook : lookupAt list n with
        | some elm =>
          rw [hlook] at hn
          contradiction
        | none =>
          rw [hlook] at hn
          cases hn
          rw [hrun]
          exact isElms_range_error hmem hlook

end Ranges

section Dense

variable {list : PlistEntries α}

def IsBeyond (list : PlistEntries α) (p : Option (PlistObj α)) : Prop :=
  isIntObj p = false ∨ list.length < intIntObj p

def HasRightHoles (list ps : PlistEntries α) : Prop :=
  (∃ p ∈ ps, IsBeyond list p) ∨ ∀ p ∈ ps, (lookup list p).isSome

theorem lookup_of_isBeyond {p : Option (PlistObj α)} (h : IsBeyond list p)
    : lookup list p = none := by
  rcases h with h | h
  . exact lookup_of_not_isInt (by rw [h]; exact Bool.false_ne_true)
  . by_cases hint : isIntObj p = true
    . rw [lookup_of_isInt hint]
      exact lookupAt_of_lt h
    . exact lookup_of_not_isInt hint

theorem isElms_of_elmAt {β : Type} (tnum : PlistKTNum) (obj : β → Option (PlistObj α))
    {qs : List β} {f : β → Result (Option (PlistObj α))}
    (hf : ∀ q ∈ qs, f q = .ok (lookup list (obj q))) (hnot : ∀ q ∈ qs, ¬IsBeyond list (obj q))
    : IsElms list (qs.map obj) (do return ⟨tnum, ← qs.mapM f⟩)
        ↔ HasRightHoles list (qs.map obj) := by
  have hright : HasRightHoles list (qs.map obj)
      ↔ ∀ p ∈ qs.map obj, (lookup list p).isSome := by
    refine or_iff_right fun ⟨p, hp, hbeyond⟩ => ?_
    obtain ⟨q, hq, rfl⟩ := mem_map.mp hp
    exact hnot q hq hbeyond
  rw [hright]
  rcases mapM_cases f qs with ⟨elms, hrun, hmap⟩ | ⟨u, q, v, err, hsplit, -, hq, hrun⟩
  . rw [hrun, ok_bind]
    constructor
    . intro h
      rcases h with ⟨bag, _, -, hsome⟩ | ⟨⟨msg, a, b, herr⟩, -⟩
      . exact hsome
      . contradiction
    . intro hsome
      apply isElms_of_mapM tnum obj hmap
      intro q hq e he
      rw [hf q hq] at he
      cases he
      exact ⟨rfl, hsome _ (mem_map_of_mem hq)⟩
  . rw [hf q (by simp [hsplit])] at hq
    contradiction

theorem elmsPlistDenseList_iff {list ps : PlistBag α} (hps : isPossPlist ps.entries = true)
    : IsElms list.entries ps.entries (elmsPlistDenseList list ps)
      ↔ HasRightHoles list.entries ps.entries := by
  rw [elmsPlistDenseList_eq]
  split
  . next h0 =>
    rw [length_eq_zero_iff] at h0
    rw [h0]
    exact iff_of_true (.inl ⟨_, rfl, rfl, fun p hp => absurd hp not_mem_nil⟩)
      (.inr fun p hp => absurd hp not_mem_nil)
  . by_cases hbeyond : ∃ p ∈ ps.entries, IsBeyond list.entries p
    . refine iff_of_true ?_ (.inl hbeyond)
      obtain ⟨p, hp, hb⟩ := hbeyond
      -- The loop ends at this position, or before.
      rcases mapM_cases (selectDense list.entries) ps.entries with
        ⟨elms, hrun, hmap⟩ | ⟨u, q, v, err, hsplit, -, hq, hrun⟩
      . have : selectDense list.entries p ∈ elms.map Except.ok := hmap ▸ mem_map_of_mem hp
        obtain ⟨e, -, he⟩ := mem_map.mp this
        unfold selectDense at he
        rcases hb with hb | hb
        . rw [hb, if_pos (by decide)] at he
          contradiction
        . split at he
          . contradiction
          . contradiction
      . rw [hrun]
        have hmem : q ∈ ps.entries := by simp [hsplit]
        unfold selectDense at hq
        by_cases hint : isIntObj q = true
        . rw [if_neg (not_not_intro hint)] at hq
          have hpos := pos_of_isInt hps hmem hint
          split at hq
          . next hlt =>
            cases hq
            exact isElms_error hmem (lookup_of_isBeyond (.inr hlt)) _
          . next hle =>
            rw [elmAt_eq hpos (Int.not_lt.mp hle)] at hq
            contradiction
        . rw [if_pos hint] at hq
          cases hq
          exact .inr ⟨⟨_, _, _, rfl⟩, q, hmem, lookup_of_not_isInt hint⟩
    . have hnot : ∀ q ∈ ps.entries, ¬IsBeyond list.entries q := fun q hq hb => hbeyond ⟨q, hq, hb⟩
      have hstep : ∀ q ∈ ps.entries,
          selectDense list.entries q = .ok (lookup list.entries (id q)) := by
        intro q hq
        have hb := hnot q hq
        unfold IsBeyond at hb
        rw [not_or, Bool.not_eq_false] at hb
        unfold selectDense
        rw [if_neg (not_not_intro hb.1), if_neg hb.2,
          elmAt_eq (pos_of_isInt hps hq hb.1) (Int.not_lt.mp hb.2), id, lookup_of_isInt hb.1]
      have hiff := isElms_of_elmAt (if list.tnum.isSsort ∧ ps.tnum.isSsort then
        resetNhomog list.tnum else elmsTnum list.tnum .dense) id hstep hnot
      rwa [map_id] at hiff

theorem elmsPlistDenseRange_iff {list : PlistBag α} {poss : RangeBag} (h : IsPosRange poss)
    : IsElms list.entries (poss.elms.map fun n => some (.int n)) (elmsPlistDenseRange list poss)
      ↔ HasRightHoles list.entries (poss.elms.map fun n => some (.int n)) := by
  have hlen := h.two_le_len
  have hbeyond : ∀ n ∈ poss.elms, n < 1 ∨ list.entries.length < n
      → (IsElms list.entries (poss.elms.map fun n => some (.int n)) (throw (noValue n))
        ↔ HasRightHoles list.entries (poss.elms.map fun n => some (.int n))) := by
    intro n hn hlt
    have hlt := hlt.resolve_left (by have := h.pos hn; omega)
    exact iff_of_true (isElms_range_error hn (lookupAt_of_lt hlt))
      (.inl ⟨_, mem_map_of_mem hn, .inr hlt⟩)
  unfold elmsPlistDenseRange
  rw [if_neg (by omega)]
  split
  . next hlow => exact hbeyond _ h.low_mem hlow
  . next hlow =>
    split
    . next hlast => exact hbeyond _ h.last_mem hlast
    . next hlast =>
      rw [not_or] at hlow hlast
      have hle : ∀ n ∈ poss.elms, n ≤ list.entries.length := fun n hn =>
        h.le_of_le hn (Int.not_lt.mp hlow.2) (Int.not_lt.mp hlast.2)
      dsimp only
      rw [elmsLoop_eq]
      apply isElms_of_elmAt _ (fun n => some (.int n))
      . exact fun n hn => elmAt_eq (h.pos hn) (hle n hn)
      . intro n hn hb
        rcases hb with hb | hb
        . contradiction
        . exact absurd (hle n hn) (Int.not_le.mpr hb)

end Dense

end PlistImpl
