import GapKernel.OnLists.Lemmas
import GapKernel.PPerm.Lemmas.Spec

/-!
This module shows when the images of tuples and sets are right, and have a type that is true.
-/

open OnListsImpl PermList PartialBijection List

namespace OnLists

def IsTupleImage (act : Nat → Option Nat) (tup : IntList) (run : Result IntPlist) : Prop :=
  ∃ res, run = .ok res ∧ res.entries = tup.elms.filterMap act ∧ res.IsTrue

def IsSetImage (act : Nat → Option Nat) (set : IntList) (run : Result IntPlist) : Prop :=
  ∃ res, run = .ok res ∧ res.entries.Pairwise (· < ·)
    ∧ (∀ y, y ∈ res.entries ↔ ∃ k ∈ set.elms, act k = some y) ∧ res.IsTrue

def totalPointOf (φ : Nat → Nat) (k : Nat) : Option Nat :=
  some (pointOf φ k)

section Points

variable {T : PermTnum} {pt : List Nat} {φ : Nat → Nat}

theorem imgPoint_of_lt (err : Fault) (hacts : ∀ i, image pt i = φ i) {k : Nat} (hk : 0 < k)
    (hlt : k ≤ pt.length → T.plusOne (φ (k - 1)) = φ (k - 1) + 1)
    : imgPoint err T pt k = .ok (pointOf φ k) := by
  unfold imgPoint pointOf
  rw [if_pos hk]
  split
  . next hle =>
    rw [readEntry_image (by omega), hacts, ok_bind, hlt hle]
    rfl
  . next hgt =>
    rw [← hacts, image_of_le (by omega), Nat.sub_add_cancel hk]
    rfl

theorem plusOne_of_lt {v : Nat} (h : v + 1 < 2 ^ 32) : T.plusOne v = v + 1 := by
  cases T with
  | perm2 => rfl
  | perm4 => exact Nat.mod_eq_of_lt h

end Points

section Perm

variable {w : IntSize} {p : PermBag} {σ : Equiv.Perm Nat} {tup set : IntList}

theorem permPoint_spec (hp : IsPermBag w p σ) {k : Nat} (hk : 0 < k)
    : permPoint p.tnum p.entries k = .ok (pointOf σ k) := by
  apply imgPoint_of_lt _ hp.acts hk
  intro hle
  have hlt := hp.acts.lt (show k - 1 < p.entries.length by omega)
  have hdeg := hp.deg_le
  have hmax : p.tnum.maxDeg w < 2 ^ 32 := by
    cases p.tnum <;> cases w <;> decide
  apply plusOne_of_lt
  omega

theorem mapPerm_spec (hp : IsPermBag w p σ) {l : List Nat} (hpos : ∀ k ∈ l, 0 < k)
    : mapLoop (permPoint p.tnum p.entries) l = .ok (l.map (pointOf σ)) :=
  mapLoop_spec fun k hk => permPoint_spec hp (hpos k hk)

theorem onTuplesPerm_eq
    : onTuplesPerm tup p = (do
      let entries ← mapLoop (permPoint p.tnum p.entries) (plainListCopy tup).entries
      return ⟨(plainListCopy tup).tnum.resetSsort.resetNsort, entries⟩) := by
  obtain ⟨tnum, entries, storedInv⟩ := p
  cases tnum <;> rfl

theorem onSetsPerm_eq
    : onSetsPerm set p = (do
      let entries ← mapLoop (permPoint p.tnum p.entries) (plainListCopy set).entries
      let entries ← TransImpl.sortPlistByRawObj entries
      return ⟨.cycSsort, entries⟩) := by
  obtain ⟨tnum, entries, storedInv⟩ := p
  cases tnum <;> rfl

theorem filterMap_totalPointOf (φ : Nat → Nat) (l : List Nat)
    : l.filterMap (totalPointOf φ) = l.map (pointOf φ) :=
  congrFun filterMap_eq_map l

theorem onTuplesPerm_spec (hp : IsPermBag w p σ) (htup : tup.IsTrue) (hpos : ∀ k ∈ tup.elms, 0 < k)
    : IsTupleImage (totalPointOf σ) tup (onTuplesPerm tup p) := by
  have htrue := plainListCopy_isTrue htup
  rw [onTuplesPerm_eq, plainListCopy_entries, mapPerm_spec hp hpos, ok_bind]
  refine ⟨_, rfl, (filterMap_totalPointOf σ _).symm, ?_⟩
  apply (isTrue_resetSorts_iff htrue _).mpr
  intro hhom hne
  have := (htrue.homog hhom hne).1
  rw [plainListCopy_entries] at this
  simpa using this

theorem isSetImage_cycSsort_iff {φ : Nat → Nat} {l : List Nat} (hsorted : l.Pairwise (· < ·))
    (hmem : ∀ y, y ∈ l ↔ ∃ k ∈ set.elms, totalPointOf φ k = some y)
    : IsSetImage (totalPointOf φ) set (.ok ⟨.cycSsort, l⟩) ↔ set.elms ≠ [] := by
  have hnil : l = [] ↔ set.elms = [] := by
    rw [eq_nil_iff_forall_not_mem, eq_nil_iff_forall_not_mem]
    constructor
    . exact fun h k hk => h (pointOf φ k) ((hmem _).mpr ⟨k, hk, rfl⟩)
    . intro h y hy
      obtain ⟨k, hk, _⟩ := (hmem y).mp hy
      exact h k hk
  rw [Ne, ← hnil, ← Ne, ← isTrue_cycSsort_iff hsorted]
  constructor
  . intro ⟨res, hres, _, _, htrue⟩
    rw [Except.ok.inj hres]
    exact htrue
  . exact fun htrue => ⟨_, rfl, hsorted, hmem, htrue⟩

theorem onSetsPerm_iff (hp : IsPermBag w p σ) (hset : set.elms.Pairwise (· < ·))
    (hpos : ∀ k ∈ set.elms, 0 < k)
    : IsSetImage (totalPointOf σ) set (onSetsPerm set p) ↔ set.elms ≠ [] := by
  have hinj : (set.elms.map (pointOf σ)).Nodup := by
    apply List.Nodup.map_on
    . intro x hx y hy hxy
      have hx := hpos x hx
      have hy := hpos y hy
      have := σ.injective (Nat.succ.inj hxy)
      omega
    . exact hset.imp Nat.ne_of_lt
  obtain ⟨l, hsort, hsorted, hmem⟩ := sortPlistByRawObj_spec hinj
  rw [onSetsPerm_eq, plainListCopy_entries, mapPerm_spec hp hpos, ok_bind, hsort, ok_bind]
  apply isSetImage_cycSsort_iff hsorted
  intro y
  rw [hmem, mem_map]
  simp [totalPointOf]

end Perm

section Trans

variable {f : TransBag} {φ : Nat → Nat} {tup set : IntList}

def wrapPoint (T : PermTnum) (n : Nat) (φ : Nat → Nat) (k : Nat) : Nat :=
  if k ≤ n then T.plusOne (φ (k - 1)) else k

def HasSmallPoints (f : TransBag) (φ : Nat → Nat) (l : List Nat) : Prop :=
  ∀ k ∈ l, k ≤ f.entries.length → φ (k - 1) + 1 < 2 ^ 32

variable {k : Nat}

section

variable (hf : IsTransBag f φ) (hk : 0 < k)

include hf hk

theorem transPoint_spec
    : transPoint f.tnum.dataType f.entries k
        = .ok (wrapPoint f.tnum.dataType f.entries.length φ k) := by
  unfold transPoint imgPoint wrapPoint
  rw [if_pos hk]
  split
  . next hle =>
    rw [readEntry_image (by omega), hf.acts]
    rfl
  . rfl

theorem wrapPoint_of_lt (hlt : k ≤ f.entries.length → φ (k - 1) + 1 < 2 ^ 32)
    : wrapPoint f.tnum.dataType f.entries.length φ k = pointOf φ k := by
  unfold wrapPoint pointOf
  split
  . next hle => exact plusOne_of_lt (hlt hle)
  . next hgt =>
    rw [← hf.acts, image_of_le (by omega)]
    omega

theorem wrapPoint_of_not_lt (hle : k ≤ f.entries.length) (hge : ¬φ (k - 1) + 1 < 2 ^ 32)
    : wrapPoint f.tnum.dataType f.entries.length φ k = 0 := by
  have hbits := hf.fits.lt_bits (k - 1) (by omega)
  unfold wrapPoint
  rw [if_pos hle]
  cases hT : f.tnum.dataType with
  | perm2 =>
    rw [hT] at hbits
    change φ (k - 1) < 2 ^ 16 at hbits
    omega
  | perm4 =>
    rw [hT] at hbits
    change φ (k - 1) < 2 ^ 32 at hbits
    change (φ (k - 1) + 1) % 2 ^ 32 = 0
    rw [show φ (k - 1) + 1 = 2 ^ 32 by omega]
    exact Nat.mod_self _

end

variable {l : List Nat}

section

variable (hf : IsTransBag f φ) (hpos : ∀ k ∈ l, 0 < k)

include hf hpos

theorem mapTrans_spec
    : mapLoop (transPoint f.tnum.dataType f.entries) l
        = .ok (l.map (wrapPoint f.tnum.dataType f.entries.length φ)) :=
  mapLoop_spec fun k hk => transPoint_spec hf (hpos k hk)

theorem map_wrapPoint_of_small (hsmall : HasSmallPoints f φ l)
    : l.map (wrapPoint f.tnum.dataType f.entries.length φ) = l.map (pointOf φ) :=
  map_congr_left fun k hk => wrapPoint_of_lt hf (hpos k hk) (hsmall k hk)

theorem hasSmallPoints_of_pos (h : ∀ k ∈ l, 0 < wrapPoint f.tnum.dataType f.entries.length φ k)
    : HasSmallPoints f φ l := by
  intro k hk hle
  by_contra hge
  have := h k hk
  rw [wrapPoint_of_not_lt hf (hpos k hk) hle hge] at this
  omega

end

theorem onTuplesTrans_eq
    : onTuplesTrans tup f = (do
      let entries ← mapLoop (transPoint f.tnum.dataType f.entries) (plainListCopy tup).entries
      return ⟨(plainListCopy tup).tnum.resetNsort, entries⟩) := by
  obtain ⟨tnum, img, ker, ext, entries⟩ := f
  cases tnum <;> rfl

theorem onSetsTrans_eq
    : onSetsTrans set f = (do
      let entries ← mapLoop (transPoint f.tnum.dataType f.entries) (plainListCopy set).entries
      let entries ← TransImpl.sortPlistByRawObj entries
      let entries ← removeDupsPlistIntobj entries
      return ⟨.cycSsort, entries⟩) := by
  obtain ⟨tnum, img, ker, ext, entries⟩ := f
  cases tnum <;> rfl

theorem onTuplesTrans_iff (hf : IsTransBag f φ) (htup : tup.IsTrue) (hpos : ∀ k ∈ tup.elms, 0 < k)
    : IsTupleImage (totalPointOf φ) tup (onTuplesTrans tup f)
      ↔ HasSmallPoints f φ tup.elms
        ∧ ((plainListCopy tup).tnum.isSsort = true
          → (tup.elms.map (pointOf φ)).Pairwise (· < ·)) := by
  have htrue := plainListCopy_isTrue htup
  have hnil : tup.elms.map (pointOf φ) = [] ↔ (plainListCopy tup).entries = [] := by
    rw [map_eq_nil_iff, plainListCopy_entries]
  unfold IsTupleImage
  rw [onTuplesTrans_eq, plainListCopy_entries, mapTrans_spec hf hpos, ok_bind,
    filterMap_totalPointOf, ← isTrue_resetNsort_iff htrue hnil]
  constructor
  . intro ⟨res, hres, hentries, hres'⟩
    obtain rfl := Except.ok.inj hres
    dsimp only at hentries
    have hsmall : HasSmallPoints f φ tup.elms := by
      apply hasSmallPoints_of_pos hf hpos
      intro k hk
      rw [map_inj_left.mp hentries k hk]
      exact Nat.succ_pos _
    rw [hentries] at hres'
    exact ⟨hsmall, hres'⟩
  . intro ⟨hsmall, htag⟩
    refine ⟨_, rfl, map_wrapPoint_of_small hf hpos hsmall, ?_⟩
    rw [map_wrapPoint_of_small hf hpos hsmall]
    exact htag

theorem onSetsTrans_iff (hf : IsTransBag f φ) (hpos : ∀ k ∈ set.elms, 0 < k)
    : IsSetImage (totalPointOf φ) set (onSetsTrans set f)
      ↔ HasSmallPoints f φ set.elms ∧ set.elms ≠ [] := by
  rw [onSetsTrans_eq, plainListCopy_entries, mapTrans_spec hf hpos, ok_bind]
  obtain ⟨l, hsort, hle, hmem⟩ := PlainSetImpl.sortDensePlist_spec isSetOrder_nat
    (set.elms.map (wrapPoint f.tnum.dataType f.entries.length φ))
  have hsort : TransImpl.sortPlistByRawObj _ = .ok l := hsort
  have hle : l.Pairwise (· ≤ ·) := hle.imp fun h => by
    rw [decide_eq_false_iff_not] at h
    omega
  obtain ⟨l', hdups, hlt, hmem'⟩ := removeDupsPlistIntobj_spec hle
  rw [hsort, ok_bind, hdups, ok_bind]
  have hwrap : ∀ y, y ∈ l'
      ↔ ∃ k ∈ set.elms, wrapPoint f.tnum.dataType f.entries.length φ k = y := by
    intro y
    rw [hmem', hmem, mem_map]
  constructor
  . intro h
    have hsmall : HasSmallPoints f φ set.elms := by
      obtain ⟨res, hres, _, himg, _⟩ := h
      obtain rfl := Except.ok.inj hres
      apply hasSmallPoints_of_pos hf hpos
      intro k hk
      obtain ⟨k', _, hk'⟩ := (himg _).mp ((hwrap _).mpr ⟨k, hk, rfl⟩)
      rw [← Option.some.inj hk']
      exact Nat.succ_pos _
    refine ⟨hsmall, ?_⟩
    obtain ⟨res, hres, _, himg, htrue⟩ := h
    obtain rfl := Except.ok.inj hres
    exact (isSetImage_cycSsort_iff hlt himg).mp ⟨_, rfl, hlt, himg, htrue⟩
  . intro ⟨hsmall, hne⟩
    apply (isSetImage_cycSsort_iff hlt ?_).mpr hne
    intro y
    rw [hwrap]
    constructor
    . intro ⟨k, hk, hy⟩
      rw [wrapPoint_of_lt hf (hpos k hk) (hsmall k hk)] at hy
      exact ⟨k, hk, congrArg some hy⟩
    . intro ⟨k, hk, hy⟩
      refine ⟨k, hk, ?_⟩
      rw [wrapPoint_of_lt hf (hpos k hk) (hsmall k hk)]
      exact Option.some.inj hy

end Trans

section PPerm

variable {f : PPermBag} {φ : Nat ≃. Nat} {tup set : IntList}

theorem constAddrPPerm_dataType (f : PPermBag)
    : PPermImpl.constAddrPPerm f.tnum.dataType f = .ok f.entries := by
  unfold PPermImpl.constAddrPPerm
  rw [f.tnum.ppermTnum_dataType, if_pos rfl]
  rfl

theorem onTuplesPPerm_iff (hf : IsPPermBag f φ) (htup : tup.IsTrue)
    (hpos : ∀ k ∈ tup.elms, 0 < k)
    : IsTupleImage (partialPointOf φ) tup (onTuplesPPerm tup f)
      ↔ ((plainListCopy tup).tnum.isHomog = true → (plainListCopy tup).tnum ≠ .empty
        → tup.elms.filterMap (partialPointOf φ) ≠ []) := by
  have htrue := plainListCopy_isTrue htup
  unfold onTuplesPPerm
  rw [constAddrPPerm_dataType, ok_bind, plainListCopy_entries,
    compactLoop_spec hf.images hpos, ok_bind, ← isTrue_resetSorts_iff htrue]
  constructor
  . intro ⟨res, hres, _, hres'⟩
    rw [Except.ok.inj hres]
    exact hres'
  . exact fun htag => ⟨_, rfl, rfl, htag⟩

theorem partialPointOf_inj {x y z : Nat} (hx : 0 < x) (hy : 0 < y)
    (hxz : partialPointOf φ x = some z) (hyz : partialPointOf φ y = some z) : x = y := by
  obtain ⟨v, hv, hvz⟩ := Option.map_eq_some_iff.mp hxz
  obtain ⟨u, hu, huz⟩ := Option.map_eq_some_iff.mp hyz
  have huv : u = v := by omega
  rw [huv] at hu
  have := φ.inj hv hu
  omega

theorem onSetsPPerm_spec (hf : IsPPermBag f φ) (hset : set.elms.Pairwise (· < ·))
    (hpos : ∀ k ∈ set.elms, 0 < k) : IsSetImage (partialPointOf φ) set (onSetsPPerm set f) := by
  have hnodup : (set.elms.filterMap (partialPointOf φ)).Nodup := by
    unfold Nodup
    rw [pairwise_filterMap]
    apply hset.imp_of_mem
    intro a b ha hb hab x hx y hy hxy
    rw [← hxy] at hy
    have := partialPointOf_inj (hpos a ha) (hpos b hb) hx hy
    omega
  unfold onSetsPPerm
  rw [constAddrPPerm_dataType, ok_bind, plainListCopy_entries,
    compactLoop_spec hf.images hpos, ok_bind]
  split
  . next hlen =>
    have hnil := length_eq_zero_iff.mp hlen
    refine ⟨_, rfl, ?_, ?_, ?_⟩
    . dsimp only
      rw [hnil]
      exact List.Pairwise.nil
    . intro y
      exact mem_filterMap
    . constructor
      . exact fun h => by contradiction
      . exact fun _ => hnil
      . intro _
        rw [hnil]
        exact List.Pairwise.nil
      . exact fun h => by contradiction
      . exact fun _ h => by contradiction
      . exact fun h => by contradiction
  . next hlen =>
    obtain ⟨l, hsort, hsorted, hmem⟩ := sortPlistByRawObj_spec hnodup
    rw [hsort, ok_bind]
    refine ⟨_, rfl, hsorted, ?_, ?_⟩
    . intro y
      rw [hmem, mem_filterMap]
    . apply (isTrue_cycSsort_iff hsorted).mpr
      intro hnil
      rw [hnil] at hmem
      apply hlen
      rw [length_eq_zero_iff, eq_nil_iff_forall_not_mem]
      intro x hx
      exact not_mem_nil ((hmem x).mpr hx)

end PPerm

section Objects

variable {E F : Type} {eq lt : E → E → Bool} {isMutable : E → Bool} {family : E → F}

theorem fillImages_spec (pow : Nat → E) (tuple : List Nat) {n : Nat} (hn : n ≤ tuple.length)
    {done : List (Option E)}
    : fillImages pow tuple n (replicate n none ++ done)
        = .ok ((tuple.take n).map (some ∘ pow) ++ done) := by
  induction n generalizing done with
  | zero => rfl
  | succ n ih =>
    have hget := getElem?_eq_getElem (show n < tuple.length by omega)
    have hpos : n + 1 = (replicate n (none : Option E)).length + 1 := by
      rw [length_replicate]
    have hset : setElmPlist (replicate (n + 1) none ++ done) (n + 1) (some (pow tuple[n]))
        = .ok (replicate n none ++ some (pow tuple[n]) :: done) := by
      rw [replicate_succ', append_assoc]
      conv =>
        lhs
        rw [hpos]
      apply setElmPlist_append_cons
    unfold fillImages
    rw [elmPlist_of_getElem? hget, ok_bind, hset, ok_bind, ih (by omega)]
    rw [take_succ_eq_append_getElem (by omega), map_append, append_assoc]
    rfl

theorem removeDupsLoop_fst [DecidableEq F] (fam : F) (len fuel : Nat) (list : List (Option E))
    (l i : Nat) (v : E) (isMut homog : Bool)
    : (do
        let res ← removeDupsLoop eq isMutable family fam len fuel list l i v isMut homog
        return res.1) = PlainSetImpl.removeDupsLoop eq len fuel list l i v := by
  induction fuel generalizing list l i v isMut homog with
  | zero => rfl
  | succ fuel ih =>
    unfold removeDupsLoop PlainSetImpl.removeDupsLoop
    split
    . cases elmPlist list i with
      | error err => rfl
      | ok w =>
        cases w with
        | none => rfl
        | some w =>
          rw [ok_bind, ok_bind]
          dsimp only
          split
          . cases (if l + 1 ≠ i then (do
              let list ← setElmPlist list (l + 1) (some w)
              setElmPlist list i none) else return list : Result (List (Option E))) with
            | error err => rfl
            | ok list => exact ih _ _ _ _ _ _
          . exact ih _ _ _ _ _ _
    . rfl

theorem getElem?_of_elmPlist {α : Type} {list : List α} {pos : Nat} {x : α}
    (h : elmPlist list pos = .ok x) : list[pos - 1]? = some x := by
  unfold elmPlist at h
  cases pos with
  | zero => contradiction
  | succ pos =>
    dsimp only at h
    rw [Nat.add_sub_cancel]
    cases hget : list[pos]? with
    | none =>
      rw [hget] at h
      contradiction
    | some y =>
      rw [hget] at h
      exact congrArg some (Except.ok.inj h)

theorem eq_set_of_setElmPlist {α : Type} {list list' : List α} {pos : Nat} {x : α}
    (h : setElmPlist list pos x = .ok list') : list.set (pos - 1) x = list' := by
  unfold setElmPlist at h
  split at h
  . exact Except.ok.inj h
  . contradiction

theorem mem_of_write {list list' : List (Option E)} {l i : Nat} {w : E}
    (helm : elmPlist list i = .ok (some w))
    (hrun : (if l + 1 ≠ i then (do
      let list ← setElmPlist list (l + 1) (some w)
      setElmPlist list i none) else return list : Result (List (Option E))) = .ok list')
    {x : E} (hx : some x ∈ list') : some x ∈ list := by
  split at hrun
  . obtain ⟨list₁, hset, hrun⟩ := of_bind_eq_ok hrun
    rw [← eq_set_of_setElmPlist hrun] at hx
    rw [← eq_set_of_setElmPlist hset] at hx
    cases mem_or_eq_of_mem_set hx with
    | inl hx =>
      cases mem_or_eq_of_mem_set hx with
      | inl hx => exact hx
      | inr hx =>
        rw [hx]
        exact mem_of_getElem? (getElem?_of_elmPlist helm)
    | inr hx => contradiction
  . rw [Except.ok.inj hrun]
    exact hx

theorem removeDupsLoop_imm [DecidableEq F] {fam : F} {len fuel : Nat} {list res : List (Option E)}
    {l i : Nat} {v : E} {homog isMut' homog' : Bool}
    (himm : ∀ x, some x ∈ list → isMutable x = false)
    (hrun : removeDupsLoop eq isMutable family fam len fuel list l i v false homog
      = .ok (res, isMut', homog')) : isMut' = false := by
  induction fuel generalizing list l i v homog with
  | zero => contradiction
  | succ fuel ih =>
    unfold removeDupsLoop at hrun
    split at hrun
    . obtain ⟨w, helm, hrun⟩ := of_bind_eq_ok hrun
      cases w with
      | none => contradiction
      | some w =>
        dsimp only at hrun
        have hw : isMutable w = false :=
          himm w (mem_of_getElem? (getElem?_of_elmPlist helm))
        rw [hw, Bool.or_false] at hrun
        split at hrun
        . obtain ⟨list', hwrite, hrun⟩ := of_bind_eq_ok hrun
          exact ih (fun x hx => himm x (mem_of_write helm hwrite hx)) hrun
        . exact ih himm hrun
    . cases hrun
      rfl

variable {l : List E}

theorem removeDupsDensePlist_spec [DecidableEq F] (ho : IsSetOrder eq lt) (hne : l ≠ [])
    (hsorted : l.Pairwise (fun a b => lt b a = false)) (himm : ∀ x ∈ l, isMutable x = false)
    : ∃ tnum status set, removeDupsDensePlist eq isMutable family .plist (l.map some)
          = .ok (tnum, set.map some, status)
        ∧ retypeImages tnum status = .homSsort ∧ StrictlySorted lt set
        ∧ ∀ x, memSet eq x set = memSet eq x l := by
  obtain ⟨set, hset, hstrict, hmem⟩ := PlainSetImpl.removeDupsDensePlist_spec ho l hsorted
  cases l with
  | nil => contradiction
  | cons v l =>
    have hlen : ¬((v :: l).map some).length = 0 := Nat.succ_ne_zero _
    have helm : elmPlist ((v :: l).map some) 1 = .ok (some v) := rfl
    unfold PlainSetImpl.removeDupsDensePlist at hset
    unfold removeDupsDensePlist
    rw [if_neg hlen, helm, ok_bind] at hset ⊢
    dsimp only at hset ⊢
    rw [himm v mem_cons_self]
    rw [← @removeDupsLoop_fst E F _ isMutable family _ (family v) _ _ _ _ _ _ false true] at hset
    obtain ⟨⟨res, isMut, homog⟩, hrun, hres⟩ := of_bind_eq_ok hset
    obtain rfl := Except.ok.inj hres
    have himm' : ∀ x, some x ∈ (v :: l).map some → isMutable x = false := by
      intro x hx
      apply himm
      obtain ⟨y, hy, hyx⟩ := mem_map.mp hx
      rw [← Option.some.inj hyx]
      exact hy
    rw [hrun, ok_bind, removeDupsLoop_imm himm' hrun, if_neg Bool.false_ne_true]
    cases homog with
    | false => exact ⟨_, _, set, rfl, rfl, hstrict, hmem⟩
    | true => exact ⟨_, _, set, rfl, rfl, hstrict, hmem⟩

variable {tnum : PlistKTNum}

theorem hasTrueTag_nil_iff {E' F' : Type} {r : E → E → Prop} {r' : E' → E' → Prop}
    {family' : E' → F'}
    : HasTrueTag r family tnum [] ↔ HasTrueTag r' family' tnum [] := by
  have hnil : ∀ {E F : Type} {r : E → E → Prop} {family : E → F}, HasTrueTag r family tnum []
      ↔ tnum ≠ .ndense ∧ tnum.isNsort = false ∧ (tnum.isHomog = true → tnum = .empty)
        ∧ tnum.isNhomog = false := by
    intro E F r family
    constructor
    . intro h
      refine ⟨h.dense, ?_, ?_, ?_⟩
      . rw [← Bool.not_eq_true]
        exact fun hn => h.nsort hn List.Pairwise.nil
      . intro hhom
        by_contra hne
        exact (h.homog hhom hne).1 rfl
      . rw [← Bool.not_eq_true]
        intro hn
        obtain ⟨x, hx, _⟩ := h.nhomog hn
        exact not_mem_nil hx
    . intro ⟨hdense, hn, hhom, hnhom⟩
      constructor
      . exact hdense
      . exact fun _ => rfl
      . exact fun _ => List.Pairwise.nil
      . intro h
        rw [hn] at h
        contradiction
      . exact fun h hne => absurd (hhom h) hne
      . intro h
        rw [hnhom] at h
        contradiction
  rw [hnil, hnil]

theorem isTrue_of_sorted {l : List Nat} (hl : l.Pairwise (· < ·)) (hne : l ≠ [])
    (hdense : tnum ≠ .ndense) (hempty : tnum ≠ .empty) (hn : tnum.isNsort = false)
    (hnhom : tnum.isNhomog = false) : IntPlist.IsTrue ⟨tnum, l⟩ := by
  constructor
  . exact hdense
  . exact fun h => absurd h hempty
  . exact fun _ => hl
  . intro h
    rw [hn] at h
    contradiction
  . exact fun _ _ => ⟨hne, fun _ _ _ _ => rfl⟩
  . intro h
    rw [hnhom] at h
    contradiction

theorem isSsortPlist_of_sorted {list : IntPlist} (hl : list.entries.Pairwise (· < ·))
    (hdense : tnum.setFiltList .isSsort ≠ .ndense) (hempty : tnum.setFiltList .isSsort ≠ .empty)
    (hn : (tnum.setFiltList .isSsort).isNsort = false)
    (hnhom : (tnum.setFiltList .isSsort).isNhomog = false)
    : ∃ list', TransImpl.isSsortList.isSsortPlist list tnum = (list', true)
        ∧ list'.entries = list.entries ∧ list'.IsTrue := by
  unfold TransImpl.isSsortList.isSsortPlist
  split
  . next h0 =>
    refine ⟨_, rfl, rfl, ?_⟩
    have hnil := length_eq_zero_iff.mp h0
    unfold IntPlist.IsTrue
    rw [hnil]
    constructor
    . exact fun h => by contradiction
    . exact fun _ => rfl
    . exact fun _ => List.Pairwise.nil
    . exact fun h => by contradiction
    . exact fun _ h => by contradiction
    . exact fun h => by contradiction
  . next h0 =>
    have hs : PlainSetImpl.isSSortPlist (fun a b => decide (a < b)) (list.entries.map some)
        = true := by
      rw [PlainSetImpl.isSSortPlist_iff isSetOrder_nat]
      exact ⟨list.entries, rfl, hl.imp fun h => decide_eq_true h⟩
    rw [if_pos hs]
    refine ⟨_, rfl, rfl, isTrue_of_sorted hl ?_ hdense hempty hn hnhom⟩
    intro hnil
    rw [hnil] at h0
    contradiction

theorem isSsortList_of_sorted {list : IntPlist} (htrue : list.IsTrue)
    (hl : list.entries.Pairwise (· < ·))
    : ∃ list', TransImpl.isSsortList list = (list', true) ∧ list'.entries = list.entries
        ∧ list'.IsTrue := by
  have hnhom := IntPlist.IsTrue.not_nhomog htrue
  have hdense := htrue.dense
  have hnsort := htrue.nsort
  obtain ⟨tnum, entries⟩ := list
  unfold TransImpl.isSsortList
  cases tnum with
  | ndense => contradiction
  | denseNhom | denseNhomSsort | denseNhomNsort => contradiction
  | homNsort | tabNsort | tabRectNsort | cycNsort => exact absurd hl (hnsort rfl)
  | empty | homSsort | tabSsort | tabRectSsort | cycSsort => exact ⟨_, rfl, rfl, htrue⟩
  | plist | dense | hom | tab | tabRect | cyc | ffe =>
    apply isSsortPlist_of_sorted hl
    . exact fun h => by contradiction
    . exact fun h => by contradiction
    . rfl
    . rfl

variable {set : IntList}

theorem isSsort_of_sorted (htrue : set.IsTrue) (hset : set.elms.Pairwise (· < ·))
    : ∃ set', (if hasSsortFilter set then (set, true) else isSsortIntList set) = (set', true)
        ∧ set'.elms = set.elms ∧ set'.IsTrue := by
  split
  . exact ⟨set, rfl, rfl, htrue⟩
  . next hfilter =>
    cases set with
    | plist list =>
      obtain ⟨list', heq, hentries, htrue'⟩ := isSsortList_of_sorted htrue hset
      unfold isSsortIntList
      dsimp only
      rw [heq]
      exact ⟨.plist list', rfl, hentries, htrue'⟩
    | range isSsort elms => exact absurd (htrue.mpr hset) hfilter

def IsObjSetImage (eq lt : E → E → Bool) (family : E → F) (pow : Nat → E) (set : IntList)
    (run : Result (IntList × ObjPlist E)) : Prop :=
  ∃ set' img, run = .ok (set', img) ∧ set'.elms = set.elms ∧ set'.IsTrue
    ∧ StrictlySorted lt img.entries
    ∧ (∀ y, memSet eq y img.entries = memSet eq y (set.elms.map pow))
    ∧ HasTrueTag (fun a b => lt a b = true) family img.tnum img.entries

theorem oneFamily_of_memSet (ho : IsSetOrder eq lt)
    (hfamily : ∀ a b, eq a b = true → family a = family b) {l' : List E}
    (hmem : ∀ y, memSet eq y l = memSet eq y l')
    : (∀ x ∈ l, ∀ y ∈ l, family x = family y) → ∀ x ∈ l', ∀ y ∈ l', family x = family y := by
  have hex : ∀ x ∈ l', ∃ y ∈ l, family x = family y := by
    intro x hx
    have hx' : memSet eq x l' = true := any_eq_true.mpr ⟨x, hx, ho.eq_self x⟩
    rw [← hmem] at hx'
    obtain ⟨y, hy, hxy⟩ := any_eq_true.mp hx'
    exact ⟨y, hy, hfamily x y hxy⟩
  intro h x hx y hy
  obtain ⟨x', hx', hxx⟩ := hex x hx
  obtain ⟨y', hy', hyy⟩ := hex y hy
  rw [hxx, hyy]
  exact h x' hx' y' hy'

theorem reduceOption_map_some {α : Type} (l : List α) : (l.map some).reduceOption = l := by
  unfold reduceOption
  rw [filterMap_map]
  exact filterMap_some

theorem isTrue_homSsort_iff (ho : IsSetOrder eq lt)
    (hfamily : ∀ a b, eq a b = true → family a = family b) {res : List E} (hl : l ≠ [])
    (hstrict : StrictlySorted lt res) (hmem : ∀ y, memSet eq y res = memSet eq y l)
    : HasTrueTag (fun a b => lt a b = true) family .homSsort res
      ↔ ∀ x ∈ l, ∀ y ∈ l, family x = family y := by
  constructor
  . intro htrue
    exact oneFamily_of_memSet ho hfamily hmem (htrue.homog rfl (fun h => by contradiction)).2
  . intro hone
    have hne : res ≠ [] := by
      intro hres
      obtain ⟨x, hx⟩ := exists_mem_of_ne_nil _ hl
      have hmemx : memSet eq x l = true := any_eq_true.mpr ⟨x, hx, ho.eq_self x⟩
      rw [← hmem, hres] at hmemx
      contradiction
    constructor
    . exact fun h => by contradiction
    . exact fun h => by contradiction
    . exact fun _ => hstrict
    . exact fun h => by contradiction
    . exact fun _ _ => ⟨hne, oneFamily_of_memSet ho hfamily (fun y => (hmem y).symm) hone⟩
    . exact fun h => by contradiction

theorem objImages_spec [DecidableEq E] [DecidableEq F] (ho : IsSetOrder eq lt) (hl : l ≠ [])
    (himm : ∀ x ∈ l, isMutable x = false)
    : ∃ tnum status res, (do
          let img ← PlainSetImpl.sortDensePlist lt l
          removeDupsDensePlist eq isMutable family .plist (img.map some))
            = .ok (tnum, res.map some, status)
        ∧ retypeImages tnum status = .homSsort ∧ StrictlySorted lt res
        ∧ ∀ y, memSet eq y res = memSet eq y l := by
  obtain ⟨img, hsort, hsorted, himg⟩ := PlainSetImpl.sortDensePlist_spec ho l
  have hne : img ≠ [] := by
    rw [Ne, eq_nil_iff_forall_not_mem]
    intro h
    obtain ⟨x, hx⟩ := exists_mem_of_ne_nil _ hl
    exact h x ((himg x).mpr hx)
  obtain ⟨tnum, status, res, hrun, htag, hstrict, hmem⟩ :=
    @removeDupsDensePlist_spec E F _ _ isMutable family _ _ ho hne hsorted
      fun x hx => himm x ((himg x).mp hx)
  rw [hsort, ok_bind]
  refine ⟨tnum, status, res, hrun, htag, hstrict, ?_⟩
  intro y
  rw [hmem, Bool.eq_iff_iff]
  unfold memSet
  rw [any_eq_true, any_eq_true]
  simp only [himg]

theorem isObjSetImage_nil {pow : Nat → E} {set' : IntList} {img : ObjPlist E}
    (helms : set'.elms = set.elms) (htrue : set'.IsTrue) (hnil : set.elms = [])
    (himg : img.entries = []) (htag : IntPlist.IsTrue ⟨img.tnum, []⟩)
    : IsObjSetImage eq lt family pow set (.ok (set', img)) := by
  refine ⟨set', img, rfl, helms, htrue, ?_, ?_, ?_⟩
  . rw [himg]
    exact List.Pairwise.nil
  . intro y
    rw [himg, hnil]
    rfl
  . rw [himg]
    exact hasTrueTag_nil_iff.mp htag

theorem funcOnSets_iff [DecidableEq E] [DecidableEq F] (intObj : Nat → E) (isMutableSet : Bool)
    (ho : IsSetOrder eq lt) (hfamily : ∀ a b, eq a b = true → family a = family b) {pow : Nat → E}
    (htrue : set.IsTrue) (hset : set.elms.Pairwise (· < ·))
    (himm : ∀ k ∈ set.elms, isMutable (pow k) = false)
    : IsObjSetImage eq lt family pow set
        (funcOnSets eq lt isMutable family intObj set isMutableSet (.other pow))
      ↔ ∀ x ∈ set.elms, ∀ y ∈ set.elms, family (pow x) = family (pow y) := by
  obtain ⟨set', hsort, helms, htrue'⟩ := isSsort_of_sorted htrue hset
  unfold funcOnSets
  rw [hsort]
  dsimp only
  rw [if_neg (by decide), helms]
  by_cases hnil : set.elms = []
  . have hentries : (plainListCopy set').entries = [] := by
      rw [plainListCopy_entries, helms, hnil]
    have himg := plainListCopy_isTrue htrue'
    unfold IntPlist.IsTrue at himg
    rw [hentries] at himg
    rw [if_pos (length_eq_zero_iff.mpr hnil)]
    apply iff_of_true
    . cases isMutableSet with
      | true =>
        apply isObjSetImage_nil helms htrue' hnil rfl
        exact @plainListCopy_isTrue (.range true []) (iff_of_true rfl List.Pairwise.nil)
      | false => exact isObjSetImage_nil helms htrue' hnil (by simp [toObjs, hentries]) himg
    . rw [hnil]
      exact fun x hx => absurd hx not_mem_nil
  . have hfill := @fillImages_spec E pow set.elms _ (Nat.le_refl _) []
    rw [append_nil, append_nil, take_length] at hfill
    have hl : set.elms.map pow ≠ [] := fun h => hnil (map_eq_nil_iff.mp h)
    have himm' : ∀ x ∈ set.elms.map pow, isMutable x = false := by
      intro x hx
      obtain ⟨k, hk, rfl⟩ := mem_map.mp hx
      exact himm k hk
    obtain ⟨tnum, status, res, hrun, htag, hstrict, hmem⟩ := @objImages_spec E F _ _ _ family _ _ _
      ho hl himm'
    obtain ⟨img, hsortImg, hrun⟩ := of_bind_eq_ok hrun
    have hplist : PlistKTNum.plist.resetNsort = .plist := rfl
    rw [if_neg (fun h => hnil (length_eq_zero_iff.mp h)), hfill, ok_bind, ← map_map,
      reduceOption_map_some, hsortImg, ok_bind, hplist, hrun, ok_bind]
    rw [htag, reduceOption_map_some]
    have hiff := isTrue_homSsort_iff ho hfamily hl hstrict hmem
    rw [forall_mem_map] at hiff
    simp only [forall_mem_map] at hiff
    rw [← hiff]
    constructor
    . intro ⟨_, _, heq, _, _, _, _, htrue⟩
      cases heq
      exact htrue
    . exact fun htrue => ⟨set', _, rfl, helms, htrue', hstrict, hmem, htrue⟩

end Objects

section Spec

variable {E F : Type} [DecidableEq E] [DecidableEq F] {w : IntSize} {tup set : IntList}
  {p : PermBag} {σ : Equiv.Perm Nat} {f : TransBag} {φ : Nat → Nat} {g : PPermBag} {γ : Nat ≃. Nat}
  {eq lt : E → E → Bool} {isMutable : E → Bool} {family : E → F} {intObj : Nat → E}
  {isMutableSet : Bool} {pow : Nat → E}

structure RightOnLists (tup set : IntList) (p : PermBag) (σ : Equiv.Perm Nat) (f : TransBag)
    (φ : Nat → Nat) (g : PPermBag) (γ : Nat ≃. Nat) (eq lt : E → E → Bool) (isMutable : E → Bool)
    (family : E → F) (intObj : Nat → E) (isMutableSet : Bool) (pow : Nat → E) : Prop where
  tuplesPerm : IsTupleImage (totalPointOf σ) tup (onTuplesPerm tup p)
  setsPerm : IsSetImage (totalPointOf σ) set (onSetsPerm set p)
  tuplesTrans : IsTupleImage (totalPointOf φ) tup (onTuplesTrans tup f)
  setsTrans : IsSetImage (totalPointOf φ) set (onSetsTrans set f)
  tuplesPPerm : IsTupleImage (partialPointOf γ) tup (onTuplesPPerm tup g)
  setsPPerm : IsSetImage (partialPointOf γ) set (onSetsPPerm set g)
  onSets : IsObjSetImage eq lt family pow set
    (funcOnSets eq lt isMutable family intObj set isMutableSet (.other pow))

structure HasRightTags (tup set : IntList) (f : TransBag) (φ : Nat → Nat) (γ : Nat ≃. Nat)
    (family : E → F) (pow : Nat → E) : Prop where
  nonempty : set.elms ≠ []
  smallTuple : HasSmallPoints f φ tup.elms
  smallSet : HasSmallPoints f φ set.elms
  sorted : (plainListCopy tup).tnum.isSsort = true → (tup.elms.map (pointOf φ)).Pairwise (· < ·)
  defined : (plainListCopy tup).tnum.isHomog = true → (plainListCopy tup).tnum ≠ .empty
    → tup.elms.filterMap (partialPointOf γ) ≠ []
  oneFamily : ∀ x ∈ set.elms, ∀ y ∈ set.elms, family (pow x) = family (pow y)

theorem rightOnLists_iff (hp : IsPermBag w p σ) (hf : IsTransBag f φ) (hg : IsPPermBag g γ)
    (htup : tup.IsTrue) (hposTup : ∀ k ∈ tup.elms, 0 < k) (hset : set.IsTrue)
    (hsorted : set.elms.Pairwise (· < ·)) (hposSet : ∀ k ∈ set.elms, 0 < k)
    (ho : IsSetOrder eq lt) (hfamily : ∀ a b, eq a b = true → family a = family b)
    (himm : ∀ k ∈ set.elms, isMutable (pow k) = false)
    : RightOnLists tup set p σ f φ g γ eq lt isMutable family intObj isMutableSet pow
      ↔ HasRightTags tup set f φ γ family pow := by
  have htuplesTrans := onTuplesTrans_iff hf htup hposTup
  have hsetsTrans := onSetsTrans_iff hf hposSet
  have hsetsPerm := onSetsPerm_iff hp hsorted hposSet
  have htuplesPPerm := onTuplesPPerm_iff hg htup hposTup
  have honSets := funcOnSets_iff intObj isMutableSet ho hfamily hset hsorted himm
  constructor
  . intro h
    constructor
    . exact hsetsPerm.mp h.setsPerm
    . exact (htuplesTrans.mp h.tuplesTrans).1
    . exact (hsetsTrans.mp h.setsTrans).1
    . exact (htuplesTrans.mp h.tuplesTrans).2
    . exact htuplesPPerm.mp h.tuplesPPerm
    . exact honSets.mp h.onSets
  . intro h
    constructor
    . exact onTuplesPerm_spec hp htup hposTup
    . exact hsetsPerm.mpr h.nonempty
    . exact htuplesTrans.mpr ⟨h.smallTuple, h.sorted⟩
    . exact hsetsTrans.mpr ⟨h.smallSet, h.nonempty⟩
    . exact htuplesPPerm.mpr h.defined
    . exact onSetsPPerm_spec hg hsorted hposSet
    . exact honSets.mpr h.oneFamily

end Spec

def exampleTuple : IntList :=
  .plist ⟨.cyc, [2, 1]⟩

def exampleSet : IntList :=
  .plist ⟨.cycSsort, [1, 2]⟩

def exampleTrans : TransBag :=
  newTrans .perm2 [1, 0]

def examplePPerm : PPermBag :=
  PPermImpl.newPPerm .perm2 [1] 1

theorem isTrue_exampleTuple : exampleTuple.IsTrue := by
  constructor
  . exact fun h => by contradiction
  . exact fun h => by contradiction
  . exact fun h => by contradiction
  . exact fun h => by contradiction
  . exact fun _ _ => ⟨fun h => by contradiction, fun _ _ _ _ => rfl⟩
  . exact fun h => by contradiction

theorem isTrue_exampleSet : exampleSet.IsTrue :=
  (isTrue_cycSsort_iff (by decide)).mpr (by decide)

theorem isTransBag_exampleTrans : IsTransBag exampleTrans (image exampleTrans.entries) :=
  TransOps.isTransBag_image rfl (by decide) (by decide)

theorem isPPermBag_examplePPerm : IsPPermBag examplePPerm (PEquiv.single 0 0) :=
  PPermOps.isPPermBag_single .perm2 0 0 (by decide)

theorem hasSmallPoints_example (l : List Nat)
    : HasSmallPoints exampleTrans (image exampleTrans.entries) l := by
  intro k _ _
  have himage : ∀ i, image exampleTrans.entries i < 2 ∨ image exampleTrans.entries i = i := by
    intro i
    match i with
    | 0 => exact .inl (by decide)
    | 1 => exact .inl (by decide)
    | i + 2 => exact .inr (image_of_le (Nat.le_add_left 2 i))
  have hlen : exampleTrans.entries.length = 2 := rfl
  have := himage (k - 1)
  omega

theorem rightOnLists_example
    : RightOnLists exampleTuple exampleSet PPermOps.examplePerm2 (Equiv.swap 0 1) exampleTrans
        (image exampleTrans.entries) examplePPerm (PEquiv.single 0 0)
        (fun a b : Nat => decide (a = b)) (fun a b => decide (a < b)) (fun _ => false)
        (fun _ => ()) id true (fun k => 10 - k) := by
  apply (rightOnLists_iff PPermOps.isPermBag_examplePerm2 isTransBag_exampleTrans
    isPPermBag_examplePPerm isTrue_exampleTuple (by decide) isTrue_exampleSet (by decide)
    (by decide) isSetOrder_nat (fun _ _ _ => rfl) (fun _ _ => rfl)).mpr
  constructor
  . decide
  . apply hasSmallPoints_example
  . apply hasSmallPoints_example
  . exact fun h => by contradiction
  . intro _ _
    decide
  . exact fun _ _ _ _ => rfl

/-- The image `[ 2, 1 ]` of a proper set keeps the type of a proper set. -/
theorem not_rightOnLists_trans
    : exampleSet.IsTrue ∧ IsTransBag exampleTrans (image exampleTrans.entries)
      ∧ onTuplesTrans exampleSet exampleTrans = .ok ⟨.cycSsort, [2, 1]⟩
      ∧ ¬RightOnLists exampleSet exampleSet PPermOps.examplePerm2 (Equiv.swap 0 1) exampleTrans
        (image exampleTrans.entries) examplePPerm (PEquiv.single 0 0)
        (fun a b : Nat => decide (a = b)) (fun a b => decide (a < b)) (fun _ => false)
        (fun _ => ()) id true (fun k => 10 - k) := by
  have hrun : onTuplesTrans exampleSet exampleTrans = .ok ⟨.cycSsort, [2, 1]⟩ := rfl
  refine ⟨isTrue_exampleSet, isTransBag_exampleTrans, hrun, fun h => ?_⟩
  obtain ⟨res, hres, _, htrue⟩ := h.tuplesTrans
  rw [hrun] at hres
  obtain rfl := Except.ok.inj hres
  have := htrue.ssort rfl
  exact absurd this (by decide)

end OnLists
