import GapKernel.LinearProbe
import GapKernel.SymbolTable.Impl

namespace SymbolTable

open LinearProbe List

variable {w : IntSize} {name : List UInt8} {table : List Nat} {names : List (List UInt8)}

section Slots

/-- The slot where the search for a name begins. -/
def start (w : IntSize) (sizeTable : Nat) (name : List UInt8) : Nat :=
  (hashString w name).toNat % sizeTable

variable {n : Nat}

theorem start_lt (w : IntSize) (hn : 0 < n) (name : List UInt8) : start w n name < n :=
  Nat.mod_lt _ hn

theorem startPos_eq (hn : 0 < n) : startPos w n name = .ok (start w n name + 1) := by
  unfold startPos
  rw [if_neg (by omega)]
  rfl

theorem nextPos_eq {i : Nat} (hi : i < n) : nextPos n (i + 1) = LinearProbe.next n i + 1 := by
  unfold nextPos LinearProbe.next
  split
  . rw [show i + 1 = n by omega, Nat.mod_self]
  . rw [Nat.mod_eq_of_lt (by omega)]

/-- The slot holds the id, and the search for the name gets to it. -/
structure Holds (w : IntSize) (table : List Nat) (id : Nat) (name : List UInt8) (i : Nat)
    : Prop where
  get : table[i]? = some id
  reachable : Reachable (· = 0) table (start w table.length name) i

theorem Holds.lt {id i : Nat} (h : Holds w table id name i) : i < table.length := by
  by_contra hge
  have hget := h.get
  rw [getElem?_eq_none (Nat.le_of_not_lt hge)] at hget
  contradiction

variable {i id : Nat}

theorem Holds.set (h : Holds w table 0 name i) (hid : id ≠ 0)
    : Holds w (table.set i id) id name i := by
  refine ⟨getElem?_set_self h.lt, ?_⟩
  rw [length_set]
  exact h.reachable.set hid

theorem Holds.set_of_ne {j id' : Nat} {name' : List UInt8} (h : Holds w table id name i)
    (hid : id ≠ 0) (hfree : Holds w table 0 name' j) (hid' : id' ≠ 0)
    : Holds w (table.set j id') id name i := by
  have hne : j ≠ i := by
    rintro rfl
    exact hid (Option.some.inj (h.get.symm.trans hfree.get))
  refine ⟨?_, ?_⟩
  . rw [getElem?_set_ne hne]
    exact h.get
  . rw [length_set]
    exact h.reachable.set hid'

theorem Holds.count_set (h : Holds w table 0 name i) (hid : id ≠ 0)
    : (table.set i id).count 0 + 1 = table.count 0 := by
  rcases List.getElem?_eq_some_iff.1 h.get with ⟨_, hzero⟩
  have hpos : 0 < table.count 0 := count_pos_iff.2 (mem_of_getElem? h.get)
  rw [List.count_set h.lt, hzero, beq_self_eq_true, if_pos rfl, beq_eq_false_iff_ne.2 hid]
  simp only [Bool.false_eq_true, if_false]
  omega

theorem findFree_spec (hfree : 0 ∈ table) (name : List UInt8)
    : ∃ i, findFree table table.length (start w table.length name + 1) = .ok (i + 1)
      ∧ Holds w table 0 name i := by
  have hstart := start_lt w (length_pos_of_mem hfree) name
  rcases @exists_isFirst _ (· = 0) _ _ (start w table.length name) ⟨0, hfree, rfl⟩ with ⟨i, hi⟩
  have hholds : Holds w table 0 name i :=
    ⟨List.getElem?_eq_some_iff.2 ⟨hi.lt, hi.stops⟩, hi.reachable fun _ h => h⟩
  refine ⟨i, ?_, hholds⟩
  rcases hi.loop (fun fuel pos => findFree table fuel (pos + 1)) (fun fuel pos hpos hne => by
    rw [findFree, elmPlist_of_getElem? (getElem?_eq_getElem hpos), ok_bind, if_neg hne,
      nextPos_eq hpos]) table.length _ hstart (dist_lt hstart hi.lt) with ⟨rest, hrest⟩
  rw [hrest, findFree, elmPlist_of_getElem? hholds.get]
  rfl

end Slots

section Rehash

/-- Every name is found in the table under its id. -/
def HoldsAll (w : IntSize) (names : List (List UInt8)) (table : List Nat) (id : Nat) : Prop :=
  ∃ name, names[id - 1]? = some name ∧ ∃ i, Holds w table id name i

theorem rehash_spec (ids : List Nat) (hids : ∀ id ∈ ids, id ≤ names.length)
    (hroom : ids.length < table.count 0 + ids.count 0)
    : ∃ table', rehash w names table ids = .ok table' ∧ table'.length = table.length
      ∧ table'.count 0 + ids.length = table.count 0 + ids.count 0
      ∧ (∀ id ∈ table', id ∈ table ∨ id ∈ ids)
      ∧ ∀ id ≠ 0, id ∈ ids ∨ HoldsAll w names table id → HoldsAll w names table' id := by
  induction ids generalizing table with
  | nil => exact ⟨table, rfl, rfl, rfl, fun _ h => .inl h, fun _ _ h => h.resolve_left not_mem_nil⟩
  | cons id ids ih =>
    rw [forall_mem_cons] at hids
    unfold rehash
    by_cases hid : id = 0
    . subst hid
      rw [if_pos rfl]
      rw [length_cons, count_cons_self] at hroom
      have hroom' : ids.length < table.count 0 + ids.count 0 := by omega
      rcases ih hids.2 hroom' with ⟨table', hrun, hlen, hcount, hmem, hholds⟩
      refine ⟨table', hrun, hlen, by rw [length_cons, count_cons_self]; omega,
        fun id h => (hmem id h).imp_right (mem_cons_of_mem 0), ?_⟩
      intro id hne h
      exact hholds id hne (h.imp_left fun hin => (mem_cons.1 hin).resolve_left hne)
    . have hle : ids.count 0 ≤ ids.length := count_le_length
      rw [length_cons, count_cons_of_ne hid] at hroom
      have hname : names[id - 1]? = some (names.getD (id - 1) []) := by
        rw [getD_eq_getElem?_getD, getElem?_eq_getElem (by omega)]
        rfl
      have hget : elmPlist names id = .ok (names.getD (id - 1) []) :=
        elmPlist_eq_ok_iff.2 ⟨by omega, hname⟩
      have hfree : 0 ∈ table := count_pos_iff.1 (by omega)
      rcases findFree_spec (w := w) hfree (names.getD (id - 1) []) with ⟨i, hfind, hi⟩
      have hset := hi.count_set hid
      have hroom' : ids.length < (table.set i id).count 0 + ids.count 0 := by omega
      rcases ih hids.2 hroom' with ⟨table', hrun, hlen, hcount, hmem, hholds⟩
      rw [length_set] at hlen
      refine ⟨table', ?_, hlen, ?_, ?_, ?_⟩
      . rw [if_neg hid, hget, ok_bind, startPos_eq (length_pos_of_mem hfree), ok_bind, hfind,
          ok_bind, setElmPlist_eq (Nat.succ_pos i) hi.lt, ok_bind]
        exact hrun
      . rw [length_cons, count_cons_of_ne hid]
        omega
      . intro id' hin
        rcases hmem id' hin with htable | hin
        . rcases mem_or_eq_of_mem_set htable with htable | rfl
          . exact .inl htable
          . exact .inr mem_cons_self
        . exact .inr (mem_cons_of_mem id hin)
      . rintro id' hne (hin | ⟨name, hname', j, hj⟩)
        . rcases mem_cons.1 hin with rfl | hin
          . exact hholds id' hne (.inr ⟨_, hname, i, hi.set hid⟩)
          . exact hholds id' hne (.inl hin)
        . exact hholds id' hne (.inr ⟨name, hname', j, hj.set_of_ne hne hi hid⟩)

end Rehash

structure IsSymbolTable (w : IntSize) (s : SymbolTable) : Prop where
  two_le : 2 ≤ s.table.length
  names_length : s.names.length = s.count
  nodup : s.names.Nodup
  le_count : ∀ id ∈ s.table, id ≤ s.count
  count_free : s.table.count 0 + s.count = s.table.length
  lt_length : s.count < s.table.length
  holds : ∀ id ≠ 0, id ≤ s.count → HoldsAll w s.names s.table id

theorem IsSymbolTable.length_pos {s : SymbolTable} (h : IsSymbolTable w s) : 0 < s.table.length :=
  Nat.lt_of_lt_of_le Nat.two_pos h.two_le

theorem init_isSymbolTable {initialSize : Nat} (h : 2 ≤ initialSize)
    : IsSymbolTable w (init initialSize) := by
  unfold init
  refine ⟨?_, rfl, nodup_nil, ?_, ?_, ?_, fun id hne hle => absurd (Nat.le_zero.1 hle) hne⟩
  . rw [length_replicate]
    exact h
  . intro id hid
    exact Nat.le_of_eq (eq_of_mem_replicate hid)
  . rw [count_replicate_self, length_replicate]
    rfl
  . rw [length_replicate]
    dsimp only
    omega

variable {s : SymbolTable}

/-- Where the search for the name ends. -/
def Stops (names : List (List UInt8)) (name : List UInt8) (id : Nat) : Prop :=
  id = 0 ∨ names[id - 1]? = some name

theorem probe_spec (h : IsSymbolTable w s) {i : Nat} (hi : i < s.table.length)
    : (Stops s.names name s.table[i] → s.probe name (i + 1) = .ok (some s.table[i]))
      ∧ (¬Stops s.names name s.table[i] → s.probe name (i + 1) = .ok none) := by
  unfold probe Stops
  rw [elmPlist_of_getElem? (getElem?_eq_getElem hi), ok_bind]
  by_cases hid : s.table[i] = 0
  . rw [if_pos hid, hid]
    exact ⟨fun _ => rfl, fun hnot => absurd (.inl rfl) hnot⟩
  . have hle := h.le_count _ (getElem_mem hi)
    have hname : s.names[s.table[i] - 1]? = some (s.names.getD (s.table[i] - 1) []) := by
      rw [getD_eq_getElem?_getD, getElem?_eq_getElem (by have := h.names_length; omega)]
      rfl
    rw [if_neg hid, elmPlist_eq_ok_iff.2 ⟨by omega, hname⟩, ok_bind, hname]
    constructor
    . intro hstop
      rw [if_pos (Option.some.inj (hstop.resolve_left hid))]
      rfl
    . intro hstop
      rw [if_neg fun heq => hstop (.inr (congrArg some heq))]
      rfl

/-- The id of a name, `0` if it has none yet. -/
def idOf (names : List (List UInt8)) (name : List UInt8) : Nat :=
  if name ∈ names then names.idxOf name + 1 else 0

theorem exists_first (h : IsSymbolTable w s) (name : List UInt8)
    : ∃ i, IsFirst (Stops s.names name) s.table (start w s.table.length name) i := by
  classical
  apply exists_isFirst
  have hcount := h.count_free
  have hlt := h.lt_length
  exact ⟨0, count_pos_iff.1 (by omega), .inl rfl⟩

theorem IsSymbolTable.get_first (h : IsSymbolTable w s) {i : Nat}
    (hi : IsFirst (Stops s.names name) s.table (start w s.table.length name) i)
    : Holds w s.table (idOf s.names name) name i := by
  have hreach := hi.reachable fun id (hid : id = 0) => .inl hid
  unfold idOf
  split
  . next hmem =>
    have hlt := idxOf_lt_length_of_mem hmem
    have hidx : s.names[s.names.idxOf name]? = some name := by
      rw [getElem?_eq_getElem hlt, getElem_idxOf]
    rcases h.holds (s.names.idxOf name + 1) (Nat.succ_ne_zero _)
      (by rw [← h.names_length]; exact hlt) with ⟨name', hname, j, hj⟩
    rw [Nat.add_sub_cancel, hidx] at hname
    cases hname
    refine ⟨?_, hreach⟩
    have hget := List.getElem?_eq_some_iff.1 hj.get
    rcases hi.eq_or_not_free (start_lt w h.length_pos name) hj.lt hj.reachable
      (.inr (by rw [hget.2]; exact hidx)) with rfl | hne
    . exact hj.get
    . have hstop := hi.stops.resolve_left hne
      rcases List.getElem?_eq_some_iff.1 hstop with ⟨hlt', heq⟩
      have hsame := h.nodup.getElem_inj_iff.1 (heq.trans (getElem_idxOf hlt).symm)
      rw [getElem?_eq_getElem hi.lt]
      rw [get_eq_getElem] at hne
      congr 1
      dsimp only at hne
      omega
  . next hmem =>
    refine ⟨?_, hreach⟩
    rw [getElem?_eq_getElem hi.lt]
    congr 1
    exact hi.stops.resolve_right fun hname => hmem (mem_of_getElem? hname)

theorem search_spec (h : IsSymbolTable w s) (hlen : name.length ≤ 1023)
    : ∃ i, s.search w name = .ok (i + 1, idOf s.names name)
      ∧ Holds w s.table (idOf s.names name) name i := by
  rcases exists_first h name with ⟨i, hi⟩
  have hholds := h.get_first hi
  have hstart := start_lt w h.length_pos name
  refine ⟨i, ?_, hholds⟩
  unfold search
  rw [if_neg (by omega), startPos_eq h.length_pos, ok_bind]
  rcases hi.loop (fun fuel pos => s.findSymbol name fuel (pos + 1)) (fun fuel pos hpos hne => by
    rw [findSymbol, (probe_spec h hpos).2 hne, ok_bind]
    dsimp only
    rw [nextPos_eq hpos]) s.table.length _ hstart (dist_lt hstart hi.lt) with ⟨rest, hrest⟩
  rw [hrest, findSymbol, (probe_spec h hi.lt).1 hi.stops, ok_bind]
  rw [List.getElem?_eq_some_iff.1 hholds.get |>.2]
  rfl

/-- A name gets the next id if it has none. -/
def intern (names : List (List UInt8)) (name : List UInt8) : List (List UInt8) :=
  if name ∈ names then names else names ++ [name]

theorem newSymbol_spec (h : IsSymbolTable w s) {i : Nat} (hi : Holds w s.table 0 name i)
    (hname : name ∉ s.names)
    : ∃ s', s.newSymbol w (i + 1) name = .ok s' ∧ IsSymbolTable w s'
      ∧ s'.names = s.names ++ [name] := by
  have htwo := h.two_le
  have hnames : newSymbolFunc s.names (s.count + 1) name = .ok (s.names ++ [name]) := by
    unfold newSymbolFunc
    rw [← h.names_length, Nat.add_sub_cancel_left, replicate_one,
      setElmPlist_eq (Nat.succ_pos _) (by rw [length_append]; rfl)]
    simp
  have hlen : (s.names ++ [name]).length = s.count + 1 := by
    rw [length_append, h.names_length]
    rfl
  have hnodup : (s.names ++ [name]).Nodup := by
    rw [← concat_eq_append]
    exact h.nodup.concat hname
  have hcount : (s.table.set i (s.count + 1)).count 0 + 1 = s.table.count 0 :=
    hi.count_set (Nat.succ_ne_zero s.count)
  have hfree := h.count_free
  have hle : ∀ id ∈ s.table.set i (s.count + 1), id ≤ s.count + 1 := by
    intro id hid
    rcases mem_or_eq_of_mem_set hid with hid | rfl
    . exact Nat.le_succ_of_le (h.le_count id hid)
    . exact Nat.le_refl _
  have hholds : ∀ id ≠ 0, id ≤ s.count + 1
      → HoldsAll w (s.names ++ [name]) (s.table.set i (s.count + 1)) id := by
    intro id hne hid
    rcases Nat.lt_or_ge s.count id with hlt | hge
    . have heq : id = s.count + 1 := by omega
      subst heq
      refine ⟨name, ?_, i, hi.set hne⟩
      rw [Nat.add_sub_cancel, ← h.names_length, getElem?_concat_length]
    . rcases h.holds id hne hge with ⟨name', hname', j, hj⟩
      refine ⟨name', ?_, j, hj.set_of_ne hne hi (Nat.succ_ne_zero _)⟩
      rw [getElem?_append_left (by rw [h.names_length]; omega)]
      exact hname'
  unfold newSymbol
  dsimp only
  rw [setElmPlist_eq (show 0 < i + 1 from Nat.succ_pos i) hi.lt, ok_bind, hnames, ok_bind,
    Nat.add_sub_cancel, length_set]
  split
  . next hcrowded =>
    have hzeros : (replicate (2 * s.table.length + 1) 0).count 0 = 2 * s.table.length + 1 :=
      count_replicate_self
    have hroom : (s.table.set i (s.count + 1)).length
        < (replicate (2 * s.table.length + 1) 0).count 0
          + (s.table.set i (s.count + 1)).count 0 := by
      rw [length_set, hzeros]
      omega
    rcases rehash_spec (w := w) _ (fun id hid => by rw [hlen]; exact hle id hid) hroom with
      ⟨table', hrun, hlen', hcount', hmem, hholds'⟩
    rw [length_replicate] at hlen'
    rw [length_set, hzeros] at hcount'
    refine ⟨⟨s.count + 1, table', s.names ++ [name]⟩, by rw [hrun]; rfl,
      ⟨by dsimp only; omega, hlen, hnodup, ?_, by dsimp only; omega, by dsimp only; omega, ?_⟩, rfl⟩
    . intro id hid
      rcases hmem id hid with hzero | hold
      . rw [eq_of_mem_replicate hzero]
        exact Nat.zero_le _
      . exact hle id hold
    . intro id hne hid
      rcases hholds id hne hid with ⟨name', hname', j, hj⟩
      exact hholds' id hne (.inl (mem_of_getElem? hj.get))
  . next hroom =>
    refine ⟨_, rfl, ⟨?_, hlen, hnodup, hle, ?_, ?_, hholds⟩, rfl⟩
    . rw [length_set]
      exact htwo
    . rw [length_set]
      dsimp only
      omega
    . rw [length_set]
      dsimp only
      omega

theorem lookupSymbol_spec (h : IsSymbolTable w s) (hlen : name.length ≤ 1023)
    : ∃ s', s.lookupSymbol w name = .ok ((intern s.names name).idxOf name + 1, s')
      ∧ IsSymbolTable w s' ∧ s'.names = intern s.names name := by
  rcases search_spec h hlen with ⟨i, hsearch, hi⟩
  unfold lookupSymbol
  rw [hsearch, ok_bind]
  dsimp only
  unfold intern
  unfold idOf at hi ⊢
  by_cases hmem : name ∈ s.names
  . rw [if_pos hmem, if_pos hmem, if_pos (Nat.succ_ne_zero _)]
    exact ⟨s, rfl, h, rfl⟩
  . rw [if_neg hmem] at hi
    rcases newSymbol_spec h hi hmem with ⟨s', hnew, hs', hnames⟩
    rw [if_neg hmem, if_neg hmem, if_neg (not_not.2 rfl), hnew]
    refine ⟨s', ?_, hs', hnames⟩
    rw [ok_bind, ← hs'.names_length, hnames, idxOf_append_of_notMem hmem, length_append]
    simp [pure, Except.pure]

section Run

-- The results of a sequence of calls
def lookups (w : IntSize) (s : SymbolTable) : List (List UInt8) → List (Result Nat) × SymbolTable
  | [] => ([], s)
  | name :: calls =>
    match s.lookupSymbol w name with
    | .ok (id, s) => ((lookups w s calls).1.cons (.ok id), (lookups w s calls).2)
    | .error e => ((lookups w s calls).1.cons (.error e), (lookups w s calls).2)

/-- The names in the order of their first calls -/
def internAll (names calls : List (List UInt8)) : List (List UInt8) :=
  (calls.filter (·.length ≤ 1023)).foldl intern names

theorem mem_intern (names : List (List UInt8)) (name : List UInt8) : name ∈ intern names name := by
  unfold intern
  split
  . assumption
  . exact mem_concat_self

theorem exists_internAll (names calls : List (List UInt8))
    : ∃ more, internAll names calls = names ++ more := by
  unfold internAll
  induction calls.filter (·.length ≤ 1023) generalizing names with
  | nil => exact ⟨[], (append_nil _).symm⟩
  | cons name calls ih =>
    rcases ih (intern names name) with ⟨more, hmore⟩
    rw [foldl_cons, hmore]
    unfold intern
    split
    . exact ⟨more, rfl⟩
    . exact ⟨name :: more, append_assoc _ _ _⟩

theorem lookups_spec (h : IsSymbolTable w s) (calls : List (List UInt8))
    : IsSymbolTable w (lookups w s calls).2
      ∧ (lookups w s calls).2.names = internAll s.names calls
      ∧ (lookups w s calls).1 = calls.map fun name =>
        if name.length ≤ 1023 then .ok ((internAll s.names calls).idxOf name + 1)
        else .error (.quit "Symbol names must consist of at most 1023 characters" 0 0) := by
  induction calls generalizing s with
  | nil => exact ⟨h, rfl, rfl⟩
  | cons name calls ih =>
    unfold lookups internAll
    by_cases hshort : name.length ≤ 1023
    . rcases lookupSymbol_spec h hshort with ⟨s', hrun, hs', hnames⟩
      have hih := ih hs'
      rw [hnames] at hih
      rcases exists_internAll (intern s.names name) calls with ⟨more, hmore⟩
      rw [hrun, filter_cons_of_pos (by simpa using hshort), foldl_cons, map_cons, if_pos hshort]
      refine ⟨hih.1, hih.2.1, congrArg₂ cons (congrArg _ (congrArg (· + 1) ?_)) hih.2.2⟩
      change _ = (internAll (intern s.names name) calls).idxOf name
      rw [hmore, idxOf_append_of_mem (mem_intern _ _)]
    . have hrun : s.lookupSymbol w name
          = .error (.quit "Symbol names must consist of at most 1023 characters" 0 0) := by
        unfold lookupSymbol search
        rw [if_pos (Nat.lt_of_not_le hshort)]
        rfl
      rw [hrun, filter_cons_of_neg (by simpa using hshort), map_cons, if_neg hshort]
      exact ⟨(ih h).1, (ih h).2.1, congrArg _ (ih h).2.2⟩

/--
In every sequence of calls a name has got one id, its place in the order of the first calls, and
the name can be found under the id. Only a name that is too long is rejected.
-/
theorem lookups_init {initialSize : Nat} (hsize : 2 ≤ initialSize) (calls : List (List UInt8))
    : (lookups w (init initialSize) calls).2.names = internAll [] calls
      ∧ (internAll [] calls).Nodup
      ∧ (lookups w (init initialSize) calls).1 = calls.map fun name =>
        if name.length ≤ 1023 then .ok ((internAll [] calls).idxOf name + 1)
        else .error (.quit "Symbol names must consist of at most 1023 characters" 0 0) := by
  rcases lookups_spec (w := w) (init_isSymbolTable hsize) calls with ⟨hinv, hnames, hids⟩
  have hnodup := hinv.nodup
  rw [hnames] at hnodup
  exact ⟨hnames, hnodup, hids⟩

theorem lookups_init_two
    : (lookups .int8 (init 28069) ["ab".toUTF8.toList, "c".toUTF8.toList]).2.names
      = internAll [] ["ab".toUTF8.toList, "c".toUTF8.toList] :=
  (lookups_init (by decide) _).1

end Run

end SymbolTable
