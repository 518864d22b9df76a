import GapKernel.Tietze.Lemmas.Spec

open CyclicWord List Nat

def SharePart (m : Nat) (u v : List Int) : Prop :=
  ∃ i j, i < u.length ∧ j < v.length ∧ (u.rotate i).take m = (v.rotate j).take m

section Congr

variable {σ : Type} {n i : Nat} {s : σ}

theorem forLoop_congr {body body' : Nat → σ → Result σ}
    (h : ∀ j s, i ≤ j → j < i + n → body j s = body' j s)
    : forLoop body n i s = forLoop body' n i s := by
  induction n generalizing i s with
  | zero => rfl
  | succ n ih =>
    unfold forLoop
    rw [h i s (Nat.le_refl i) (by omega)]
    congr 1
    funext s'
    exact ih fun j s hle hlt => h j s (by omega) (by omega)

theorem breakLoop_congr {body body' : Nat → σ → Result (σ × Bool)}
    (h : ∀ j s, i ≤ j → j < i + n → body j s = body' j s)
    : breakLoop body n i s = breakLoop body' n i s := by
  induction n generalizing i s with
  | zero => rfl
  | succ n ih =>
    unfold breakLoop
    rw [h i s (Nat.le_refl i) (by omega)]
    congr 1
    funext t
    dsimp only
    rw [ih fun j s hle hlt => h j s (by omega) (by omega)]

end Congr

namespace TzSearch

variable {w : IntSize} {a : TzSearch w} {s : TzState} {x y : Nat} {u v : List Int}

theorem searchRelator_stale (hle : a.mlen ≤ v.length) (yflag : Int)
    (stale : Nat → Nat → BitVec w.bits)
    : (a.withStale stale).searchRelator v v.length yflag s
      = a.searchRelator v v.length yflag s := by
  have hletter : ∀ j, j < v.length → (v.map (genKey w.bits)).getD j (stale s.count j)
      = (v.map (genKey w.bits)).getD j (a.stale s.count j) := by
    intro j hj
    rw [getD_eq_getElem _ _ (by rw [length_map]; exact hj),
      getD_eq_getElem _ _ (by rw [length_map]; exact hj)]
  have hfirst : firstKey (fun j => return (v.map (genKey w.bits)).getD j (stale s.count j)) a.mlen
      = firstKey (fun j => return (v.map (genKey w.bits)).getD j (a.stale s.count j)) a.mlen := by
    apply forLoop_congr
    intro j key _ hj
    dsimp only
    rw [hletter j (by omega)]
  unfold searchRelator withStale
  dsimp only
  rw [hfirst]
  congr 1
  funext key
  rw [breakLoop_congr]
  intro j t _ hj
  rw [hletter j (by omega), hletter _ (mod_lt _ (by omega))]
  rfl

structure IsGivenAt (a : TzSearch w) (x : Nat) (u : List Int) : Prop where
  pos1 : a.pos1 ≤ x
  pos2 : x ≤ a.pos2
  given : a.tietze.relators[x - 1]? = some u
  lmin : a.lmin ≤ u.length
  lmax : u.length ≤ a.lmax
  flag : entryPlist a.tietze.flags x ≤ 1

structure IsCompared (a : TzSearch w) (x y : Nat) (u v : List Int) : Prop where
  given : a.IsGivenAt x u
  lt : x < y
  current : a.tietze.relators[y - 1]? = some v
  length_le : u.length ≤ v.length
  flag : entryPlist a.tietze.flags y ≤ 1
  flags : ¬(entryPlist a.tietze.flags x = 0 ∧ entryPlist a.tietze.flags y = 0)

def SharesNothing (a : TzSearch w) (u v : List Int) : Prop :=
  ¬SharePart a.mlen u v ∧ ¬SharePart a.mlen (invWord a.tietze.inverse u) v

structure IsUnaltered (a : TzSearch w) (s : TzState) : Prop where
  round : a.IsRound s
  stack : a.stack s = a.tietze
  count : s.count = 0
  lasty : s.lasty ≤ s.y
  lmin : a.lmin ≤ s.len1
  added : ∀ x u, a.IsGivenAt x u → x < s.y → a.IsAdded s x u (entryPlist a.tietze.flags x)
  searched : ∀ x y u v, a.IsCompared x y u v → y ≤ s.y → a.SharesNothing u v

theorem not_sharePart {keys : TzKeys} {m : Nat} (hkeys : HasKeys w.bits keys m u)
    (hdiffer : ∀ j, j < v.length → keys.isMatch (wordKey w.bits ((v.rotate j).take m)) = true
      → Differs m u v j) : ¬SharePart m u v := by
  rintro ⟨i, j, hi, hj, heq⟩
  have hmatch := hkeys i hi
  rw [heq] at hmatch
  exact hdiffer j hj hmatch i hi heq

section Round

variable (hb : a.IsBounded) (hm : 0 < a.mlen) (hflags : ∀ x, 0 ≤ entryPlist a.tietze.flags x)

include hb hm hflags

theorem searchRound_unaltered (h : a.IsUnaltered s) (hy : s.y < a.tietze.numrels) {s' : TzState}
    (hrun : a.searchRound s = .ok s') (hcount : s'.count = 0)
    : a.IsUnaltered s' ∧ ∀ stale, (a.withStale stale).searchRound s = .ok s' := by
  obtain ⟨s1, v, hadds, hv, heq⟩ := searchRound_eq hb hm h.round hy
  have hstack := hadds.stack.trans h.stack
  have hrels : s1.relators = a.tietze.relators := congrArg TietzeStack.relators hstack
  have hflag : s1.flags = a.tietze.flags := congrArg TietzeStack.flags hstack
  have hrels0 : s.relators = a.tietze.relators := congrArg TietzeStack.relators h.stack
  have hflag0 : s.flags = a.tietze.flags := congrArg TietzeStack.flags h.stack
  have hlmin := hadds.lmin h.lmin
  have hlasty := h.lasty
  rw [hrels] at hv
  rw [hflag] at heq
  have hadded : ∀ x u, a.IsGivenAt x u → x < s.y + 1
      → a.IsAdded s1 x u (entryPlist a.tietze.flags x) := by
    intro x u hx hlt
    by_cases hxy : x = s.y
    . rw [hxy] at hx ⊢
      have hadd := hadds.added u
      rw [hrels0, hflag0] at hadd
      exact hadd hx.given hx.pos2 hx.lmin hx.lmax hx.flag
    . exact hadds.mono x u _ (h.added x u hx (by omega))
  have hnext (lasty : Nat) (hle : lasty ≤ s.y + 1)
      (hnew : ∀ x u, a.IsCompared x (s.y + 1) u v → a.SharesNothing u v)
      : a.IsUnaltered (atRelator s1 (s.y + 1) lasty) := by
    have hreached : a.IsReached (atRelator s1 (s.y + 1) lasty) := by
      have hstack' : a.stack (atRelator s1 (s.y + 1) lasty) = a.stack s := hadds.stack
      unfold IsReached
      rw [hstack']
      exact h.round.reached
    refine ⟨⟨hreached, succ_pos _, le_succ_of_le hadds.xmax_le⟩, hstack,
      hadds.count.trans h.count, hle, hlmin, ?_, ?_⟩
    . intro x u hx hlt
      have hadd := hadded x u hx hlt
      exact ⟨hadd.xmax, hadd.len1, hadd.flag1, hadd.keys, hadd.inverse_keys⟩
    . intro x y u v' hc hle'
      by_cases hy' : y = s.y + 1
      . have hcur := hc.current
        rw [hy', Nat.add_sub_cancel, hv, Option.some_inj] at hcur
        rw [hy', ← hcur] at hc
        rw [← hcur]
        exact hnew x u hc
      . have hle'' : y ≤ s.y + 1 := hle'
        exact h.searched x y u v' hc (by omega)
  have hself := heq a.stale
  change a.searchRound s = _ at hself
  rw [hself] at hrun
  split at hrun
  . next hskip =>
    cases hrun
    refine ⟨hnext _ (by omega) ?_, fun stale => by rw [heq stale, if_pos hskip]⟩
    -- Whatever sorts out the relator also sorts out the pair.
    intro x u hc
    have hadd := hadded x u hc.given hc.lt
    have hlen1 := hadd.len1
    have hflag1 := hadd.flag1
    have hlen := hc.length_le
    have hyflag := hc.flag
    have hx0 := hflags x
    have hy0 := hflags (s.y + 1)
    rcases hskip.2 with hlt | hlt | hzero
    . omega
    . omega
    . exact absurd ⟨by omega, by omega⟩ hc.flags
  . next hgo =>
    have hge : s1.len1 ≤ v.length := by
      by_contra hlt
      exact hgo ⟨by omega, Or.inl (by omega)⟩
    have hmlen : a.mlen ≤ v.length := Nat.le_trans (Nat.le_trans hb.lmin hlmin) hge
    have hreached : a.IsReached (atRelator s1 (s.y + 1) (s.y + 1)) := by
      have hstack' : a.stack (atRelator s1 (s.y + 1) (s.y + 1)) = a.stack s := hadds.stack
      unfold IsReached
      rw [hstack']
      exact h.round.reached
    have hv' : (atRelator s1 (s.y + 1) (s.y + 1)).relators[s.y + 1 - 1]? = some v := by
      unfold atRelator
      rw [hrels]
      exact hv
    obtain ⟨s2, hrun2, htries⟩ := searchRelator_spec hb hm hreached rfl hv'
      (lt_succ_of_le hadds.xmax_le) (entryPlist a.tietze.flags (s.y + 1))
    change a.searchRelator _ _ _ _ = _ at hrun
    rw [hrun2] at hrun
    cases hrun
    refine ⟨?_, fun stale => by rw [heq stale, if_neg hgo, searchRelator_stale hmlen, hrun2]⟩
    cases htries with
    | inr halt =>
      omega
    | inl hsame =>
      rw [hsame.1]
      apply hnext _ (Nat.le_refl _)
      intro x u hc
      have hadd := hadded x u hc.given hc.lt
      have hx0 := hflags x
      have hy0 := hflags (s.y + 1)
      have hlmin' := hc.given.lmin
      have hbound := hb.lmin
      have hgiven := hc.given.given
      rw [← hrels] at hgiven
      have hxflag := hc.given.flag
      rw [← hflag] at hxflag
      have hnonzero : entryPlist s1.flags x + entryPlist a.tietze.flags (s.y + 1) ≠ 0 := by
        rw [hflag]
        intro hzero
        exact hc.flags ⟨by omega, by omega⟩
      have htried : a.IsTried (atRelator s1 (s.y + 1) (s.y + 1)) x u v
          (entryPlist a.tietze.flags (s.y + 1)) :=
        ⟨hgiven, hadd.len1, hc.given.lmax, hc.length_le, hxflag, fun _ => hnonzero, by omega⟩
      have hdiffer := fun j hj hmatch =>
        hsame.2 hmlen j hj hmatch x u hc.given.pos1 hadd.xmax htried
      exact ⟨not_sharePart hadd.keys fun j hj hmatch => (hdiffer j hj hmatch).1,
        not_sharePart hadd.inverse_keys fun j hj hmatch => (hdiffer j hj hmatch).2⟩

theorem searchLoop_unaltered {rounds : Nat} (h : a.IsUnaltered s) (hrounds : a.left s < rounds)
    {s' : TzState} (hrun : a.searchLoop rounds s = .ok s') (hcount : s'.count = 0)
    : a.IsUnaltered s' ∧ a.tietze.numrels ≤ s'.y
      ∧ ∀ stale, (a.withStale stale).searchLoop rounds s = .ok s' := by
  induction rounds generalizing s with
  | zero => omega
  | succ rounds ih =>
    unfold searchLoop at hrun ⊢
    by_cases hy : s.y < a.tietze.numrels
    . rw [if_pos hy] at hrun
      obtain ⟨s1, hrun1, hround, hleft, _⟩ := searchRound_spec hb hm h.round hy
      rw [hrun1, ok_bind] at hrun
      obtain ⟨s2, hrun2, _, hle⟩ := searchLoop_spec hb hm hround
        (show a.left s1 < rounds by omega)
      rw [hrun2] at hrun
      cases hrun
      obtain ⟨h1, hstale⟩ := searchRound_unaltered hb hm hflags h hy hrun1 (by omega)
      obtain ⟨h2, hend, hstale2⟩ := ih h1 (by omega) hrun2
      refine ⟨h2, hend, fun stale => ?_⟩
      have hy' : s.y < (a.withStale stale).tietze.numrels := hy
      rw [if_pos hy', hstale stale, ok_bind, hstale2 stale]
    . rw [if_neg hy] at hrun
      cases hrun
      refine ⟨h, by omega, fun stale => ?_⟩
      exact if_neg hy

end Round

end TzSearch

namespace TietzeStack

variable {w : IntSize} {tietze : TietzeStack} {pos1 pos2 : Int}

structure IsFirst (tietze : TietzeStack) (pos1 pos2 : Int) (pos : Nat) : Prop where
  ge : pos1 ≤ pos
  le : pos ≤ pos2
  eligible : tietze.IsEligible pos
  least : ∀ q : Int, pos1 ≤ q → q < pos → ¬tietze.IsEligible q

/-- No relator in the range with the length `lmin` or `lmin + 1` has a long part, or the inverse of
one, in common with a later relator. -/
def HasNoMatch (tietze : TietzeStack) (pos1 pos2 : Int) (lmin : Nat) : Prop :=
  ∀ (x y : Nat) (u v : List Int), 0 < x → pos1 ≤ x → x ≤ pos2 → x < y
    → tietze.relators[x - 1]? = some u → tietze.relators[y - 1]? = some v
    → u.length = lmin ∨ u.length = lmin + 1 → u.length ≤ v.length
    → entryPlist tietze.flags x ≤ 1 → entryPlist tietze.flags y ≤ 1
    → ¬(entryPlist tietze.flags x = 0 ∧ entryPlist tietze.flags y = 0)
    → ¬SharePart (lmin / 2 + 1) u v ∧ ¬SharePart (lmin / 2 + 1) (invWord tietze.inverse u) v

theorem isUnaltered_startState (h : tietze.IsTietze) (stale : Nat → Nat → BitVec w.bits)
    {pos : Nat} (pos2 : Nat) (hpos : 0 < pos)
    : (searchOf w stale tietze pos pos2 false).IsUnaltered (startState tietze pos) := by
  refine ⟨isRound_startState stale pos2 false h hpos, rfl, rfl, Nat.zero_le _, sub_le _ _,
    ?_, ?_⟩
  . intro x u hx hlt
    exact absurd hx.pos1 (Nat.not_le.mpr hlt)
  . intro x y u v hc hle
    exact absurd hc.given.pos1 (Nat.not_le.mpr (Nat.lt_of_lt_of_le hc.lt hle))

theorem entryPlist_lengths (h : tietze.IsTietze) {x : Nat} (hx : 0 < x) {u : List Int}
    (hu : tietze.relators[x - 1]? = some u) : entryPlist tietze.lengths x = u.length := by
  obtain ⟨x, rfl⟩ : ∃ k, x = k + 1 := ⟨x - 1, by omega⟩
  have hlen : tietze.lengths[x]? = some u.length := by
    rw [h.lengths, getElem?_map]
    rw [Nat.add_sub_cancel] at hu
    rw [hu]
    rfl
  obtain ⟨hlt, hget⟩ := List.getElem?_eq_some_iff.mp hlen
  rw [entryPlist_eq_getElem hlt]
  exact hget

theorem entryPlist_nonneg (hflags : ∀ flag ∈ tietze.flags, 0 ≤ flag) (x : Nat)
    : 0 ≤ entryPlist tietze.flags x := by
  cases x with
  | zero => exact Int.le_refl 0
  | succ x =>
    by_cases hx : x < tietze.flags.length
    . rw [entryPlist_eq_getElem hx]
      apply hflags _ (getElem_mem hx)
    . rw [entryPlist_of_lt (by omega)]

theorem startSearch_unaltered (h : tietze.IsTietze) (hflags : ∀ flag ∈ tietze.flags, 0 ≤ flag)
    {stale : Nat → Nat → BitVec w.bits} {pos pos2 : Nat} (hpos : 0 < pos)
    (hle : pos ≤ tietze.numrels) (hlen : 2 ≤ entryPlist tietze.lengths pos) {new : TietzeStack}
    (hrun : startSearch w stale tietze pos pos2 false tietze.total = .ok (new, 0))
    : (∀ stale, startSearch w stale tietze pos pos2 false tietze.total = .ok (tietze, 0))
      ∧ ∀ x y u v, (searchOf w stale tietze pos pos2 false).IsCompared x y u v
        → y ≤ tietze.numrels → (searchOf w stale tietze pos pos2 false).SharesNothing u v := by
  rw [startSearch_eq stale pos2 false h hpos hle] at hrun
  obtain ⟨s, hloop, hrun⟩ := of_bind_eq_ok hrun
  have hcount : s.count = 0 := congrArg Prod.snd (Except.ok.inj hrun)
  obtain ⟨hs, hend, hstale⟩ := TzSearch.searchLoop_unaltered
    (isBounded_searchOf stale pos2 false h hpos hlen) (mlen_pos_searchOf stale pos2 false hlen)
    (entryPlist_nonneg hflags) (isUnaltered_startState h stale pos2 hpos)
    (left_startState stale pos2 false h) hloop hcount
  refine ⟨?_, fun x y u v hc hy => hs.searched x y u v hc (Nat.le_trans hy hend)⟩
  intro stale'
  rw [startSearch_eq stale' pos2 false h hpos hle]
  have hloop' : (searchOf w stale' tietze pos pos2 false).searchLoop _ _ = _ := hstale stale'
  dsimp only
  rw [hloop', ok_bind, hcount]
  exact congrArg (fun t => Except.ok (t, 0)) hs.stack

/--
Where no relator is altered, none has a match that was missed, and the result does not depend on the
words behind the end of a relator.
-/
theorem tzSearchC_unaltered (tietze : TietzeStack) (h : tietze.IsTietze)
    (hflags : ∀ flag ∈ tietze.flags, 0 ≤ flag) (stale : Nat → Nat → BitVec w.bits)
    (pos1 pos2 : Int) (new : TietzeStack)
    (hrun : tzSearchC w stale tietze pos1 pos2 false = .ok (new, 0))
    : (∀ stale, tzSearchC w stale tietze pos1 pos2 false = .ok (tietze, 0))
      ∧ ∀ first, tietze.IsFirst pos1 pos2 first → tietze.HasNoMatch pos1 pos2
          (entryPlist tietze.lengths first - entryPlist tietze.lengths first % 2) := by
  have heq := fun stale : Nat → Nat → BitVec w.bits => tzSearchC_eq h stale pos1 pos2 false
  have h1 : ¬pos1 > tietze.numrels := by
    intro hgt
    rw [heq stale, if_pos hgt] at hrun
    cases hrun
  have h2 : ¬pos2 > tietze.numrels := by
    intro hgt
    rw [heq stale, if_neg h1, if_pos hgt] at hrun
    cases hrun
  have hpos : 0 ≤ pos1 ∨ pos2 < pos1 ∨ tietze.numrels < pos2 := by
    by_contra hneg
    rw [tzSearchC_neg h stale false (by omega) (by omega) (by omega)] at hrun
    cases hrun
  obtain ⟨pos, hskip, hposge, heligible, hleast⟩ := skipRelators_of_pos h false hpos (by omega)
  have hrun' := fun stale : Nat → Nat → BitVec w.bits => heq stale
  simp only [if_neg h1, if_neg h2, hskip, ok_bind] at hrun'
  -- A relator that has the length and the flag is not skipped.
  have hfound : ∀ first, tietze.IsFirst pos1 pos2 first → ∀ (x : Nat) (u : List Int), 0 < x
      → pos1 ≤ x → tietze.relators[x - 1]? = some u
      → entryPlist tietze.lengths first - entryPlist tietze.lengths first % 2 ≤ u.length
      → entryPlist tietze.flags x ≤ 1 → pos ≤ x := by
    intro first hfirst x u hx hge hu hlen hflag
    have hlength := hfirst.eligible.length
    by_contra hlt
    refine hleast rfl x hge (by omega) ⟨by omega, ?_, hflag⟩
    rw [Int.toNat_natCast] at hlength ⊢
    rw [entryPlist_lengths h hx hu]
    omega
  rw [hrun' stale] at hrun
  split at hrun
  . next hstop =>
    refine ⟨fun stale => by rw [hrun' stale, if_pos hstop]; rfl, ?_⟩
    intro first hfirst x y u v hx hge hle hlt hu hv hlen _ hflag
    have hpos := hfound first hfirst x u hx hge hu (by omega) hflag
    have hy := (List.getElem?_eq_some_iff.mp hv).1
    have hnum := h.numrels
    omega
  . next hgo =>
    have he := heligible (by omega)
    have hpositive := he.positive
    have hposle : pos ≤ pos2 := by
      omega
    obtain ⟨hstale, hshares⟩ := startSearch_unaltered h hflags (show 0 < pos.toNat by omega)
      (by omega) he.length hrun
    refine ⟨fun stale => by rw [hrun' stale, if_neg hgo]; exact hstale stale, ?_⟩
    intro first hfirst x y u v hx hge hle hlt hu hv hlen hlen' hflag hyflag hzero
    obtain rfl : pos.toNat = first := by
      have hfirstpos := hfirst.ge
      by_contra hne
      by_cases hlt : (first : Int) < pos
      . exact hleast rfl first hfirst.ge hlt hfirst.eligible
      . exact hfirst.least pos hposge (by omega) he
    have hpos := hfound _ hfirst x u hx hge hu (by omega) hflag
    have hy := (List.getElem?_eq_some_iff.mp hv).1
    have hnum := h.numrels
    have hlmin : entryPlist tietze.lengths pos.toNat - entryPlist tietze.lengths pos.toNat % 2
      ≤ u.length := by omega
    have hlmax : u.length
      ≤ entryPlist tietze.lengths pos.toNat - entryPlist tietze.lengths pos.toNat % 2 + 1 := by omega
    have hgiven : (searchOf w stale tietze pos.toNat pos2.toNat false).IsGivenAt x u :=
      ⟨show pos.toNat ≤ x by omega, show x ≤ pos2.toNat by omega, hu, hlmin, hlmax, hflag⟩
    exact hshares x y u v ⟨hgiven, hlt, hv, hlen', hyflag, hzero⟩ (by omega)

def exampleApart : TietzeStack where
  numgens := 2
  numrels := 2
  total := 5
  inverses := [2, 1, 0, -1, -2]
  relators := [[1, 1], [2, 2, 2]]
  lengths := [2, 3]
  flags := [1, 0]

theorem isTietze_exampleApart : exampleApart.IsTietze := by
  refine ⟨rfl, rfl, rfl, rfl, rfl, ?_, ?_⟩
  . unfold IsLetter
    decide
  . intro rel hrel
    unfold exampleApart at hrel
    simp only [mem_cons, not_mem_nil, or_false] at hrel
    cases hrel with
    | inl heq =>
      rw [heq]
      exact ⟨by unfold CyclicWord.IsReduced; decide, by decide⟩
    | inr heq =>
      rw [heq]
      exact ⟨by unfold CyclicWord.IsReduced; decide, by decide⟩

theorem tzSearchC_unaltered_exampleApart : exampleApart.HasNoMatch 1 2 2 :=
  (tzSearchC_unaltered (w := .int8) exampleApart isTietze_exampleApart (by decide) (fun _ _ => 0)
    1 2 exampleApart rfl).2 1 ⟨by decide, by decide, ⟨by decide, by decide, by decide⟩, by omega⟩

end TietzeStack
