import GapKernel.RollingHash
import GapKernel.Tietze.Lemmas.Match
import Mathlib.Data.BitVec

open CyclicWord List Nat Function Option

namespace TietzeStack

variable {tietze old : TietzeStack} {newflag : Int}

theorem replace_replace (old : TietzeStack) (newflag : Int) (y : Nat) (v z z' : List Int)
    : (old.replace newflag y v z).replace newflag y z z' = old.replace newflag y v z' := by
  unfold replace
  dsimp only
  rw [set_set, set_set, set_set]
  rw [show old.total - v.length + z.length - z.length + (z'.length : Int)
    = old.total - v.length + z'.length by omega]

theorem IsSearched.replace (h : IsSearched newflag tietze old) {x y : Nat} {u v z : List Int}
    (hxy : x ≠ y) (hu : old.relators[x]? = some u) (hv : old.relators[y]? = some v)
    (hex : Relation.TransGen (tietze.Exchanges u) v z)
    : IsSearched newflag tietze (old.replace newflag y v z) := by
  induction hex with
  | single hex => exact h.tail ⟨x, y, u, v, _, hxy, hu, hv, hex, rfl⟩
  | tail _ hex ih =>
    rw [← replace_replace]
    apply ih.tail
    refine ⟨x, y, u, _, _, hxy, ?_, ?_, hex, rfl⟩
    . unfold TietzeStack.replace
      dsimp only
      rw [getElem?_set_ne hxy.symm]
      exact hu
    . unfold TietzeStack.replace
      dsimp only
      rw [getElem?_set]
      rw [if_pos rfl, if_pos (List.getElem?_eq_some_iff.mp hv).1]

end TietzeStack

namespace TzSearch

variable {w : IntSize}

structure IsBounded (a : TzSearch w) : Prop where
  tietze : a.tietze.IsTietze
  pos1 : 0 < a.pos1
  lmin : a.mlen ≤ a.lmin
  lmax : a.lmax ≤ 2 * a.mlen

def stack (a : TzSearch w) (s : TzState) : TietzeStack :=
  { a.tietze with
    relators := s.relators
    lengths := s.lengths
    flags := s.flags
    total := s.total }

abbrev IsReached (a : TzSearch w) (s : TzState) : Prop :=
  TietzeStack.IsSearched a.newflag a.tietze (a.stack s)

structure IsAltered (a : TzSearch w) (s s' : TzState) : Prop where
  altered : s'.altered = true
  reached : a.IsReached s'
  xmax : s'.xmax = s.xmax
  progress : s'.y = s.y ∧ s'.lengths.sum = s.lengths.sum
    ∨ s'.y + 1 = s.y ∧ s'.lengths.sum < s.lengths.sum

def Tries (a : TzSearch w) (s s' : TzState) (P : Prop) : Prop :=
  s' = s ∧ P ∨ a.IsAltered s s' ∧ s.count < s'.count

structure IsPair (a : TzSearch w) (s : TzState) (x : Nat) (u v : List Int) : Prop where
  reached : a.IsReached s
  altered : s.altered = false
  lt : x < s.y
  pos : 0 < x
  given : s.relators[x - 1]? = some u
  current : s.relators[s.y - 1]? = some v

variable {a : TzSearch w} {s : TzState} {x : Nat} {u v : List Int}

section

variable (h : a.IsPair s x u v)

include h

theorem IsPair.y_le : s.y ≤ s.relators.length := by
  have hlt := (List.getElem?_eq_some_iff.mp h.current).1
  omega

theorem IsPair.lengths : s.lengths = s.relators.map length :=
  h.reached.isTietze.lengths

theorem IsPair.length_flags : s.flags.length = s.relators.length := by
  have hflags := h.reached.isTietze.flags
  have hnum := h.reached.isTietze.numrels
  rw [← hnum] at hflags
  exact hflags

theorem IsPair.replace {z : List Int} (hex : Relation.TransGen (a.tietze.Exchanges u) v z)
    : TietzeStack.IsSearched a.newflag a.tietze
        ((a.stack s).replace a.newflag (s.y - 1) v z) := by
  have hlt := h.lt
  have hpos := h.pos
  apply h.reached.replace (x := x - 1) _ h.given h.current hex
  omega

end

theorem set_length_self {l : List (List Int)} {y : Nat} (h : l[y]? = some v) {z : List Int}
    (hlen : z.length = v.length) : (l.map length).set y z.length = l.map length := by
  have hy := List.getElem?_eq_some_iff.mp h
  rcases hy with ⟨hlt, heq⟩
  rw [hlen, ← heq]
  rw [← map_set]
  rw [set_getElem_self]

theorem alter_spec (h : a.IsPair s x u v) {result : TzMatch} (hmatch : a.tietze.IsMatch u v result)
    : ∃ s', a.alter s result = .ok s' ∧ a.Tries s s' (result = .none) := by
  have hy := h.y_le
  have hlt := h.lt
  have hflags := h.length_flags
  have hlens := congrArg length h.lengths
  rw [length_map] at hlens
  cases result with
  | none => exact ⟨s, rfl, Or.inl ⟨rfl, rfl⟩⟩
  | replaced z =>
    unfold alter
    dsimp only
    rw [setElmPlist_eq (by omega) hy, ok_bind]
    rw [setElmPlist_eq (by omega) (by omega), ok_bind]
    refine ⟨_, rfl, Or.inr ⟨⟨rfl, ?_, rfl, Or.inl ⟨rfl, rfl⟩⟩, lt_succ_self _⟩⟩
    have hreplace := h.replace hmatch.2
    unfold TietzeStack.replace stack at hreplace
    dsimp only at hreplace
    have hset := set_length_self h.current hmatch.1
    rw [← h.lengths] at hset
    rw [hset] at hreplace
    rw [hmatch.1] at hreplace
    rw [Int.sub_add_cancel] at hreplace
    exact hreplace
  | shortened z =>
    have hget : s.lengths[s.y - 1]? = some v.length := by
      rw [h.lengths, getElem?_map, h.current]
      rfl
    have hlen : elmPlist s.lengths s.y = .ok v.length := by
      have hget' := elmPlist_of_getElem? hget
      rw [Nat.sub_add_cancel (by omega)] at hget'
      exact hget'
    unfold alter
    dsimp only
    rw [hlen, ok_bind]
    rw [setElmPlist_eq (by omega) hy, ok_bind]
    rw [setElmPlist_eq (by omega) (by omega), ok_bind]
    rw [setElmPlist_eq (by omega) (by omega), ok_bind]
    refine ⟨_, rfl, Or.inr ⟨⟨rfl, ?_, rfl, Or.inr ⟨?_, ?_⟩⟩, lt_succ_self _⟩⟩
    . apply h.replace
      apply Relation.TransGen.single hmatch.1
    . dsimp only
      omega
    . dsimp only
      have hsum := TietzeStack.sum_set_cast hget z.length
      have hshort := hmatch.2
      omega

theorem exists_of_tries {run : Result TzState} {P Q : Prop}
    (h : ∃ s', run = .ok s' ∧ a.Tries s s' P) (hpq : P → Q)
    : ∃ s', run = .ok s' ∧ a.Tries s s' Q := by
  rcases h with ⟨s', h⟩
  refine ⟨s', h.1, ?_⟩
  cases h.2 with
  | inl heq => exact Or.inl ⟨heq.1, hpq heq.2⟩
  | inr halt => exact Or.inr halt

theorem breakLoop_tries {body : Nat → TzState → Result (TzState × Bool)} {n i : Nat}
    {P : Nat → Prop} (haltered : s.altered = false)
    (hstep : ∀ j, i ≤ j → j < i + n → ∃ s', body j s = .ok (s', s'.altered) ∧ a.Tries s s' (P j))
    : ∃ s', breakLoop body n i s = .ok s' ∧ a.Tries s s' (∀ j, i ≤ j → j < i + n → P j) := by
  apply breakLoop_of_inv (fun j t => t = s ∧ ∀ k, i ≤ k → k < j → P k)
  . exact ⟨rfl, fun k hle hlt => by omega⟩
  . intro j t hle hlt ht
    rw [ht.1]
    rcases hstep j hle hlt with ⟨s', hs'⟩
    refine ⟨s', s'.altered, hs'.1, ?_, ?_⟩
    . intro htrue
      cases hs'.2 with
      | inl heq =>
        rw [heq.1, haltered] at htrue
        cases htrue
      | inr halt => exact Or.inr halt
    . intro hfalse
      cases hs'.2 with
      | inl heq =>
        refine ⟨heq.1, ?_⟩
        intro k hle' hlt'
        by_cases hkj : k = j
        . rw [hkj]
          exact heq.2
        . apply ht.2 k hle'
          omega
      | inr halt =>
        rw [halt.1.altered] at hfalse
        cases hfalse
  . intro t ht
    exact Or.inl ht

def Differs (m : Nat) (u v : List Int) (j : Nat) : Prop :=
  ∀ i, i < u.length → (u.rotate i).take m ≠ (v.rotate j).take m

variable {j : Nat}

theorem tryPositions_spec (hb : a.IsBounded) (h : a.IsPair s x u v) (rd : Nat → TzReading)
    (inverse : Bool) {word : List Int} (hgiven : a.tietze.IsGiven u word)
    (hread : ∀ i, i < u.length → a.tietze.IsReading (rd (u.length - 1)) u i (word.rotate i))
    (hinverse : inverse = false → word = u) (hlen : u.length ≤ v.length) (hmax : u.length ≤ a.lmax)
    (hj : j < v.length)
    : ∃ s', a.tryPositions (rd (u.length - 1)) inverse u v u.length v.length j s = .ok s'
        ∧ a.Tries s s' (∀ i, 0 ≤ i → i < 0 + u.length → a.mlen ≤ u.length
          → (word.rotate i).take a.mlen ≠ (v.rotate j).take a.mlen) := by
  unfold tryPositions
  apply breakLoop_tries h.altered
  intro i _ hi
  have hlmax := hb.lmax
  have hv := mem_of_getElem? h.current
  rcases TietzeStack.tryPosition_spec hb.tietze.inverses hgiven (hread i (by omega)) hinverse
      (h.reached.isTietze.letters v hv) (h.reached.isTietze.reduced v hv) hlen (by omega) hj
      (by omega) with ⟨result, hresult⟩
  rcases alter_spec h hresult.2.1 with ⟨s', hs'⟩
  refine ⟨s', ?_, ?_⟩
  . rw [hresult.1, ok_bind, hs'.1, ok_bind]
    rfl
  . cases hs'.2 with
    | inl heq => exact Or.inl ⟨heq.1, hresult.2.2 heq.2⟩
    | inr halt => exact Or.inr halt

structure IsTried (a : TzSearch w) (s : TzState) (x : Nat) (u v : List Int) (yflag : Int)
    : Prop where
  given : s.relators[x - 1]? = some u
  len1 : s.len1 ≤ u.length
  lmax : u.length ≤ a.lmax
  length_le : u.length ≤ v.length
  xflag : entryPlist s.flags x ≤ 1
  flags : a.equal = false → entryPlist s.flags x + yflag ≠ 0
  mlen : a.mlen ≤ u.length

def AllDiffer (a : TzSearch w) (s : TzState) (v : List Int) (yflag : Int) (j : Nat) : Prop :=
  ∀ x u, a.pos1 ≤ x → x ≤ s.xmax → a.IsTried s x u v yflag
    → Differs a.mlen u v j ∧ Differs a.mlen (invWord a.tietze.inverse u) v j

variable (hb : a.IsBounded) (hs : a.IsReached s) (haltered : s.altered = false)
  (hv : s.relators[s.y - 1]? = some v) (hxmax : s.xmax < s.y) (hj : j < v.length) (yflag : Int)

include hb hs haltered hv hxmax hj yflag

theorem tryRelators_spec
    : ∃ s', a.tryRelators v v.length yflag j s = .ok s'
        ∧ a.Tries s s' (a.AllDiffer s v yflag j) := by
  unfold tryRelators
  apply exists_of_tries (breakLoop_tries (P := fun x => ∀ u, a.IsTried s x u v yflag
    → Differs a.mlen u v j ∧ Differs a.mlen (invWord a.tietze.inverse u) v j) haltered ?_)
    (fun h x u hle hlt => h x hle (by omega) u)
  intro x hle hlt
  have hpos := hb.pos1
  have hylt := (List.getElem?_eq_some_iff.mp hv).1
  have hx : x - 1 < s.relators.length := by
    omega
  have hpair : a.IsPair s x s.relators[x - 1] v :=
    ⟨hs, haltered, by omega, by omega, getElem?_eq_getElem hx, hv⟩
  generalize s.relators[x - 1] = u at hpair
  have hrel : elmPlist s.relators x = .ok u := by
    have hget := elmPlist_of_getElem? hpair.given
    rw [Nat.sub_add_cancel (by omega)] at hget
    exact hget
  have hlen : elmPlist s.lengths x = .ok u.length := by
    have hget : s.lengths[x - 1]? = some u.length := by
      rw [hpair.lengths, getElem?_map, hpair.given]
      rfl
    have hget' := elmPlist_of_getElem? hget
    rw [Nat.sub_add_cancel (by omega)] at hget'
    exact hget'
  have hflag : elmPlist s.flags x = .ok (entryPlist s.flags x) := by
    apply elmPlist_eq_entryPlist
    . omega
    . rw [hpair.length_flags]
      omega
  rw [hrel, ok_bind, hlen, ok_bind, hflag, ok_bind]
  split
  . next hskip =>
    refine ⟨s, by rw [haltered]; rfl, Or.inl ⟨rfl, ?_⟩⟩
    intro u' ht
    have hu := ht.given
    rw [hpair.given, some_inj] at hu
    rw [← hu] at ht
    have h1 := ht.len1
    have h2 := ht.lmax
    have h3 := ht.length_le
    have h4 := ht.xflag
    rcases hskip with h | h | h | h | h
    . omega
    . omega
    . omega
    . omega
    . exact absurd h.2 (ht.flags h.1)
  . next hskip =>
    have hmem := mem_of_getElem? hpair.given
    have hletters := hpair.reached.isTietze.letters u hmem
    have hred := hpair.reached.isTietze.reduced u hmem
    rcases tryPositions_spec hb hpair a.tietze.relatorReading false
        ⟨Or.inl rfl, hletters, hred⟩
        (fun i hi => TietzeStack.isReading_relator hb.tietze.inverses hletters hi)
        (fun _ => rfl) (by omega) (by omega) hj with ⟨s1, hs1⟩
    rw [hs1.1, ok_bind]
    cases hs1.2 with
    | inr halt =>
      rw [if_pos halt.1.altered]
      exact ⟨s1, by rw [halt.1.altered]; rfl, Or.inr halt⟩
    | inl heq =>
      rw [heq.1]
      rw [if_neg (by rw [haltered]; exact Bool.false_ne_true)]
      rcases tryPositions_spec hb hpair a.tietze.inverseReading true
          ⟨Or.inr rfl, hletters, hred⟩
          (fun i hi => TietzeStack.isReading_inverse hb.tietze.inverses hletters hi)
          (by intro h; cases h) (by omega) (by omega) hj with ⟨s2, hs2⟩
      rw [hs2.1, ok_bind]
      refine ⟨s2, rfl, ?_⟩
      cases hs2.2 with
      | inr halt => exact Or.inr halt
      | inl heq2 =>
        refine Or.inl ⟨heq2.1, ?_⟩
        intro u' ht
        have hu := ht.given
        rw [hpair.given, some_inj] at hu
        rw [← hu] at ht ⊢
        constructor
        . intro i hi
          apply heq.2 i (Nat.zero_le i) (by omega) ht.mlen
        . intro i hi
          rw [length_invWord] at hi
          apply heq2.2 i (Nat.zero_le i) (by omega) ht.mlen

theorem tryKey_spec (key : BitVec w.bits)
    : ∃ s', a.tryKey v v.length yflag j key s = .ok s'
        ∧ a.Tries s s' (s.keys.isMatch key = true → a.AllDiffer s v yflag j) := by
  unfold tryKey
  split
  . apply exists_of_tries (tryRelators_spec hb hs haltered hv hxmax hj yflag)
    intro h _
    exact h
  . next hmiss => exact ⟨s, rfl, Or.inl ⟨rfl, fun hkey => absurd hkey hmiss⟩⟩

end TzSearch

section Keys

variable {n : Nat}

theorem isMatch_iff {keys : TzKeys} {key : BitVec n}
    : keys.isMatch key = true ↔ keys.keys1 (TzKeys.slot key 0) ≠ 0
        ∧ keys.keys2 (TzKeys.slot key 11) &&& TzKeys.bit key 8 ≠ 0
        ∧ keys.keys3 (TzKeys.slot key 19) &&& TzKeys.bit key 16 ≠ 0 := by
  unfold TzKeys.isMatch
  simp only [Bool.and_eq_true, decide_eq_true_eq, and_assoc]

theorem and_update_ne_zero {f : Nat → Nat} {i j b c : Nat}
    (h : f i &&& b ≠ 0 ∨ i = j ∧ b = c ∧ b ≠ 0)
    : update f j (f j ||| c) i &&& b ≠ 0 := by
  by_cases hij : i = j
  . rw [hij] at h ⊢
    rw [update_self, and_or_distrib_right]
    intro hzero
    rw [or_eq_zero_iff] at hzero
    cases h with
    | inl hne => exact hne hzero.1
    | inr heq =>
      rw [← heq.2.1, Nat.and_self] at hzero
      exact heq.2.2 hzero.2
  . rw [update_of_ne hij]
    exact h.resolve_right fun heq => hij heq.1

theorem bit_ne_zero (key : BitVec n) (shift : Nat) : TzKeys.bit key shift ≠ 0 := by
  unfold TzKeys.bit
  rw [one_shiftLeft]
  apply Nat.ne_of_gt (Nat.two_pow_pos _)

theorem isMatch_add {keys : TzKeys} {key key' : BitVec n}
    (h : keys.isMatch key = true ∨ key = key') : (keys.add key').isMatch key = true := by
  rw [isMatch_iff] at h ⊢
  unfold TzKeys.add
  dsimp only
  refine ⟨?_, and_update_ne_zero ?_, and_update_ne_zero ?_⟩
  . by_cases hslot : TzKeys.slot key 0 = TzKeys.slot key' 0
    . rw [hslot, update_self]
      exact Nat.one_ne_zero
    . rw [update_of_ne hslot]
      cases h with
      | inl hmatch => exact hmatch.1
      | inr heq => exact absurd (congrArg (TzKeys.slot · 0) heq) hslot
  . apply h.imp (fun hmatch => hmatch.2.1)
    intro heq
    rw [heq]
    exact ⟨rfl, rfl, bit_ne_zero _ _⟩
  . apply h.imp (fun hmatch => hmatch.2.2)
    intro heq
    rw [heq]
    exact ⟨rfl, rfl, bit_ne_zero _ _⟩

theorem keyFactor_eq (mlen : Nat) : keyFactor n mlen = 109109 ^ mlen := by
  unfold keyFactor
  rw [mul_left_iterate]
  apply mul_one

variable {letter : Nat → Result (BitVec n)} {l : List (BitVec n)} {mlen : Nat}

theorem firstKey_spec (hle : mlen ≤ l.length)
    (h : ∀ i, i < mlen → letter i = .ok (l.getD i 0))
    : firstKey letter mlen = .ok (RollingHash.hash 109109 (l.take mlen)) := by
  unfold firstKey
  have hloop : ∃ key, forLoop (fun i key => do
      let a ← letter i
      return 109109 * key + a) mlen 0 0 = .ok key
        ∧ key = RollingHash.hash 109109 (l.take mlen) := by
    apply forLoop_of_inv (fun i key => key = RollingHash.hash 109109 (l.take i))
    . rfl
    . intro j key _ hj hkey
      rw [h j (by omega), ok_bind]
      refine ⟨_, rfl, ?_⟩
      rw [take_add_one, getElem?_eq_getElem (by omega), toList_some,
        RollingHash.hash_concat, ← getD_eq_getElem, hkey]
    . intro key hkey
      rw [Nat.zero_add] at hkey
      exact hkey
  cases hloop with
  | intro key hkey => rw [hkey.1, hkey.2]

theorem addKeys_spec (hpos : 0 < mlen) (hle : mlen ≤ l.length)
    (h : ∀ i, i < l.length → letter i = .ok (l.getD i 0)) (keys : TzKeys)
    : ∃ keys', addKeys letter mlen l.length keys = .ok keys'
        ∧ ∀ key, (keys.isMatch key = true
            ∨ ∃ i, i < l.length ∧ key = RollingHash.hash 109109 ((l.rotate i).take mlen))
          → keys'.isMatch key = true := by
  unfold addKeys
  rw [firstKey_spec hle fun i hi => h i (by omega), ok_bind]
  apply exists_bind_of (P := fun s : BitVec n × Nat × TzKeys => ∀ key, (keys.isMatch key = true
      ∨ ∃ i, i < l.length ∧ key = RollingHash.hash 109109 ((l.rotate i).take mlen))
    → s.2.2.isMatch key = true)
  . apply forLoop_of_inv (fun j (s : BitVec n × Nat × TzKeys) =>
      s.1 = RollingHash.hash 109109 ((l.rotate j).take mlen)
      ∧ s.2.1 = (if j ≤ l.length - mlen then j + mlen else j - (l.length - mlen))
      ∧ ∀ key, (keys.isMatch key = true
          ∨ ∃ i, i < j ∧ key = RollingHash.hash 109109 ((l.rotate i).take mlen))
        → s.2.2.isMatch key = true)
    . refine ⟨by rw [rotate_zero], by simp, ?_⟩
      intro key hkey
      apply hkey.resolve_right
      intro hex
      cases hex with
      | intro i hi => omega
    . intro j s _ hj hs
      rw [Nat.zero_add] at hj
      have hw : (if j = l.length - mlen then 0 else s.2.1) = (j + mlen) % l.length := by
        rw [hs.2.1]
        split
        . next heq => rw [show j + mlen = l.length by omega, mod_self]
        . split
          . rw [mod_eq_of_lt (by omega)]
          . rw [show j + mlen = j - (l.length - mlen) + l.length by omega, add_mod_right,
              mod_eq_of_lt (by omega)]
      dsimp only
      rw [hw, h j hj, ok_bind, h _ (mod_lt _ (by omega)), ok_bind]
      refine ⟨_, rfl, ?_, ?_, ?_⟩
      . rw [RollingHash.hash_rotate_succ _ hpos hle hj, ← keyFactor_eq, hs.1]
      . dsimp only
        by_cases hlt : j + 1 ≤ l.length - mlen
        . rw [if_pos hlt, mod_eq_of_lt (by omega)]
          omega
        . rw [if_neg hlt]
          by_cases heq : j + mlen = l.length
          . rw [heq, mod_self]
            omega
          . rw [show j + mlen = j - (l.length - mlen) + l.length by omega, add_mod_right,
              mod_eq_of_lt (by omega)]
            omega
      . intro key hkey
        apply isMatch_add
        cases hkey with
        | inl hmatch => exact Or.inl (hs.2.2 key (Or.inl hmatch))
        | inr hex =>
          rcases hex with ⟨i, hi⟩
          by_cases hij : i = j
          . rw [hij] at hi
            rw [hs.1]
            exact Or.inr hi.2
          . exact Or.inl (hs.2.2 key (Or.inr ⟨i, by omega, hi.2⟩))
    . intro s hs
      rw [Nat.zero_add] at hs
      exact hs.2.2
  . intro s hs
    exact ⟨s.2.2, rfl, hs⟩

def wordKey (n : Nat) (u : List Int) : BitVec n :=
  RollingHash.hash 109109 (u.map (genKey n))

def HasKeys (n : Nat) (keys : TzKeys) (m : Nat) (u : List Int) : Prop :=
  ∀ i, i < u.length → keys.isMatch (wordKey n ((u.rotate i).take m)) = true

theorem addKeys_word {u : List Int} (hpos : 0 < mlen) (hle : mlen ≤ u.length)
    (h : ∀ i gen, u[i]? = some gen → letter i = .ok (genKey n gen)) (keys : TzKeys)
    : ∃ keys', addKeys letter mlen u.length keys = .ok keys' ∧ HasKeys n keys' mlen u
        ∧ ∀ key : BitVec n, keys.isMatch key = true → keys'.isMatch key = true := by
  have hadd := @addKeys_spec n letter (u.map (genKey n)) mlen hpos
    (by rw [length_map]; exact hle) (by
      intro i hi
      rw [length_map] at hi
      rw [getD_eq_getElem _ _ (by rw [length_map]; exact hi), getElem_map]
      apply h
      apply getElem?_eq_getElem) keys
  rw [length_map] at hadd
  rcases hadd with ⟨keys', hkeys⟩
  refine ⟨keys', hkeys.1, ?_, fun key hkey => hkeys.2 key (Or.inl hkey)⟩
  intro i hi
  apply hkeys.2
  refine Or.inr ⟨i, hi, ?_⟩
  unfold wordKey
  rw [map_take, map_rotate]

end Keys

namespace TzSearch

variable {w : IntSize} {a : TzSearch w} {s : TzState} {v : List Int}

theorem searchRelator_spec (hb : a.IsBounded) (hm : 0 < a.mlen) (hs : a.IsReached s) (haltered : s.altered = false)
    (hv : s.relators[s.y - 1]? = some v) (hxmax : s.xmax < s.y) (yflag : Int)
    : ∃ s', a.searchRelator v v.length yflag s = .ok s'
        ∧ a.Tries s s' (a.mlen ≤ v.length → ∀ j, j < v.length
          → s.keys.isMatch (wordKey w.bits ((v.rotate j).take a.mlen)) = true
          → a.AllDiffer s v yflag j) := by
  unfold searchRelator
  dsimp only
  have hget : ∀ j, j < v.length → (v.map (genKey w.bits)).getD j (a.stale s.count j)
      = (v.map (genKey w.bits)).getD j 0 := by
    intro j hj
    rw [getD_eq_getElem _ _ (by rw [length_map]; exact hj),
      getD_eq_getElem _ _ (by rw [length_map]; exact hj)]
  have hkey : ∃ key, firstKey (fun j => return (v.map (genKey w.bits)).getD j (a.stale s.count j))
      a.mlen = .ok key := by
    apply exists_ok_forLoop (fun _ _ => True) _ trivial
    intro j key _ _ _
    exact ⟨_, rfl, trivial⟩
  rcases hkey with ⟨key, hkey⟩
  rw [hkey, ok_bind]
  apply exists_bind_of (P := fun t : BitVec w.bits × TzState => a.Tries s t.2 (a.mlen ≤ v.length → ∀ j, j < v.length
    → s.keys.isMatch (wordKey w.bits ((v.rotate j).take a.mlen)) = true
    → a.AllDiffer s v yflag j))
  . apply breakLoop_of_inv (fun j (t : BitVec w.bits × TzState) => t.2 = s ∧ (a.mlen ≤ v.length
      → t.1 = wordKey w.bits ((v.rotate j).take a.mlen) ∧ ∀ k, k < j
      → s.keys.isMatch (wordKey w.bits ((v.rotate k).take a.mlen)) = true
      → a.AllDiffer s v yflag k))
    . refine ⟨rfl, fun hle => ⟨?_, fun k hk => absurd hk (Nat.not_lt_zero k)⟩⟩
      have hfirst : firstKey (fun j => return (v.map (genKey w.bits)).getD j (a.stale s.count j))
          a.mlen = .ok _ := firstKey_spec (by rw [length_map]; exact hle)
        fun i hi => congrArg Except.ok (hget i (by omega))
      rw [hkey] at hfirst
      cases hfirst
      unfold wordKey
      rw [rotate_zero, map_take]
    . intro j t _ hj ht
      rw [Nat.zero_add] at hj
      rcases tryKey_spec hb hs haltered hv hxmax hj yflag t.1 with ⟨s', hs'⟩
      rw [ht.1, hs'.1, ok_bind]
      refine ⟨_, s'.altered, rfl, ?_, ?_⟩
      . intro htrue
        cases hs'.2 with
        | inl heq =>
          rw [heq.1, haltered] at htrue
          cases htrue
        | inr halt => exact Or.inr halt
      . intro hfalse
        cases hs'.2 with
        | inr halt =>
          rw [halt.1.altered] at hfalse
          cases hfalse
        | inl heq =>
          refine ⟨heq.1, fun hle => ⟨?_, ?_⟩⟩
          . dsimp only
            rw [hget j hj, hget _ (mod_lt _ (by omega)), keyFactor_eq, (ht.2 hle).1]
            unfold wordKey
            rw [map_take, map_take, map_rotate, map_rotate,
              RollingHash.hash_rotate_succ _ hm (by rw [length_map]; exact hle)
                (by rw [length_map]; exact hj), length_map]
          . intro k hk hmatch
            by_cases hkj : k = j
            . rw [hkj] at hmatch ⊢
              apply heq.2
              rw [(ht.2 hle).1]
              exact hmatch
            . apply (ht.2 hle).2 k (by omega) hmatch
    . intro t ht
      exact Or.inl ⟨ht.1, fun hle j hj => (ht.2 hle).2 j (by omega)⟩
  . intro t ht
    exact ⟨t.2, rfl, ht⟩

structure IsAdded (a : TzSearch w) (s : TzState) (x : Nat) (u : List Int) (flag : Int)
    : Prop where
  xmax : x ≤ s.xmax
  len1 : s.len1 ≤ u.length
  flag1 : flag ≤ s.flag1
  keys : HasKeys w.bits s.keys a.mlen u
  inverse_keys : HasKeys w.bits s.keys a.mlen (invWord a.tietze.inverse u)

structure Adds (a : TzSearch w) (s s' : TzState) : Prop where
  stack : a.stack s' = a.stack s
  y : s'.y = s.y
  count : s'.count = s.count
  lasty : s'.lasty = s.lasty
  xmax_le : s'.xmax ≤ s.y
  lmin : a.lmin ≤ s.len1 → a.lmin ≤ s'.len1
  mono : ∀ x u flag, a.IsAdded s x u flag → a.IsAdded s' x u flag
  added : ∀ u, s.relators[s.y - 1]? = some u → s.y ≤ a.pos2 → a.lmin ≤ u.length
    → u.length ≤ a.lmax → entryPlist s.flags s.y ≤ 1 → a.IsAdded s' s.y u (entryPlist s.flags s.y)

theorem addRelator_spec (hb : a.IsBounded) (hm : 0 < a.mlen) (hs : a.IsReached s) (hpos : 0 < s.y)
    (hy : s.y ≤ s.relators.length) (hxmax : s.xmax ≤ s.y)
    : ∃ s', a.addRelator s = .ok s' ∧ a.Adds s s' := by
  have hnum := hs.isTietze.numrels
  have hlens := congrArg length hs.isTietze.lengths
  have hflags := hs.isTietze.flags
  rw [← hnum] at hflags
  rw [length_map] at hlens
  have hlt : s.y - 1 < s.relators.length := by
    omega
  have hv : s.relators[s.y - 1]? = some s.relators[s.y - 1] := getElem?_eq_getElem hlt
  generalize s.relators[s.y - 1] = v at hv
  have hrel : elmPlist s.relators s.y = .ok v := by
    have hget := elmPlist_of_getElem? hv
    rw [Nat.sub_add_cancel hpos] at hget
    exact hget
  have hlen : elmPlist s.lengths s.y = .ok v.length := by
    have hget : s.lengths[s.y - 1]? = some v.length := by
      have hlengths : s.lengths = s.relators.map length := hs.isTietze.lengths
      rw [hlengths, getElem?_map, hv]
      rfl
    have hget' := elmPlist_of_getElem? hget
    rw [Nat.sub_add_cancel hpos] at hget'
    exact hget'
  have hflag : elmPlist s.flags s.y = .ok (entryPlist s.flags s.y) := by
    have hfl : s.flags.length = s.relators.length := hflags
    apply elmPlist_eq_entryPlist hpos
    omega
  unfold addRelator
  rw [hrel, ok_bind, hlen, ok_bind, hflag, ok_bind]
  split
  . next hadd =>
    have hlmin := hb.lmin
    have hletters := hs.isTietze.letters v (mem_of_getElem? hv)
    have hadd1 := @addKeys_word w.bits (fun i => do
        let gen ← elmPlist v (i + 1)
        return genKey w.bits gen) a.mlen v hm (by omega) (by
          intro i gen hgen
          rw [elmPlist_of_getElem? hgen, ok_bind]
          rfl) s.keys
    rcases hadd1 with ⟨keys, hkeys⟩
    rw [hkeys.1, ok_bind]
    have hadd2 := @addKeys_word w.bits (fun i => do
        let gen ← elmPlist v (v.length - i)
        let gen ← a.tietze.invGen gen
        return genKey w.bits gen) a.mlen (invWord a.tietze.inverse v) hm
          (by rw [length_invWord]; omega) (by
            intro i gen hgen
            have hi := (List.getElem?_eq_some_iff.mp hgen).1
            rw [length_invWord] at hi
            unfold invWord at hgen
            rw [getElem?_reverse (by rw [length_map]; exact hi), length_map,
              getElem?_map, map_eq_some_iff] at hgen
            rcases hgen with ⟨x, hx⟩
            have hget := elmPlist_of_getElem? hx.1
            rw [show v.length - 1 - i + 1 = v.length - i by omega] at hget
            rw [hget, ok_bind, TietzeStack.invGen_eq hb.tietze.inverses
              (hletters x (mem_of_getElem? hx.1)), ok_bind, hx.2]
            rfl) keys
    rw [length_invWord] at hadd2
    rcases hadd2 with ⟨keys', hkeys'⟩
    rw [hkeys'.1, ok_bind]
    refine ⟨_, rfl, rfl, rfl, rfl, rfl, Nat.le_refl _, ?_, ?_, ?_⟩
    . intro hle
      dsimp only
      split
      . exact hadd.2.1
      . exact hle
    . intro x u flag h
      have hmono : ∀ key, s.keys.isMatch key = true → keys'.isMatch key = true :=
        fun key hkey => hkeys'.2.2 key (hkeys.2.2 key hkey)
      have hlen1 := h.len1
      have hflag1 := h.flag1
      refine ⟨Nat.le_trans h.xmax hxmax, ?_, ?_, fun i hi => hmono _ (h.keys i hi),
        fun i hi => hmono _ (h.inverse_keys i hi)⟩
      . dsimp only
        split
        . omega
        . omega
      . dsimp only
        split
        . omega
        . omega
    . intro u hu _ _ _ _
      rw [hv, some_inj] at hu
      rw [← hu]
      refine ⟨Nat.le_refl _, ?_, ?_, fun i hi => hkeys'.2.2 _ (hkeys.2.1 i hi), hkeys'.2.1⟩
      . dsimp only
        split
        . omega
        . omega
      . dsimp only
        split
        . omega
        . omega
  . next hskip =>
    refine ⟨s, rfl, rfl, rfl, rfl, rfl, hxmax, id, fun _ _ _ h => h, ?_⟩
    intro u hu h1 h2 h3 h4
    rw [hv, some_inj] at hu
    rw [← hu] at h2 h3
    exact absurd ⟨h1, h2, h3, h4⟩ hskip

structure IsRound (a : TzSearch w) (s : TzState) : Prop where
  reached : a.IsReached s
  pos : 0 < s.y
  xmax : s.xmax ≤ s.y

def left (a : TzSearch w) (s : TzState) : Nat :=
  a.tietze.numrels - s.y + s.lengths.sum

def withStale (a : TzSearch w) (stale : Nat → Nat → BitVec w.bits) : TzSearch w :=
  { a with stale := stale }

def atRelator (s : TzState) (y lasty : Nat) : TzState :=
  { s with y := y, altered := false, lasty := lasty }

section

variable (hb : a.IsBounded) (hm : 0 < a.mlen) (h : a.IsRound s) (hy : s.y < a.tietze.numrels)

include hb hm h hy

theorem searchRound_eq
    : ∃ s1 v, a.Adds s s1 ∧ s1.relators[s.y]? = some v ∧ ∀ stale,
        (a.withStale stale).searchRound s
          = if s.lasty < s.y + 1 ∧ (v.length < s1.len1 ∨ 1 < entryPlist s1.flags (s.y + 1)
              ∨ (a.equal = false ∧ entryPlist s1.flags (s.y + 1) + s1.flag1 = 0)) then
            .ok (atRelator s1 (s.y + 1) s.lasty)
          else
            (a.withStale stale).searchRelator v v.length (entryPlist s1.flags (s.y + 1))
              (atRelator s1 (s.y + 1) (s.y + 1)) := by
  have hnum : s.relators.length = a.tietze.numrels := by
    have hnumrels := h.reached.isTietze.numrels
    exact hnumrels
  rcases addRelator_spec hb hm h.reached h.pos (by omega) h.xmax with ⟨s1, hs1⟩
  have hadds := hs1.2
  have hreached : a.IsReached s1 := by
    unfold IsReached
    rw [hadds.stack]
    exact h.reached
  have hrels : s1.relators.length = a.tietze.numrels := by
    have hnumrels := hreached.isTietze.numrels
    exact hnumrels
  have hlt : s.y < s1.relators.length := by
    omega
  have hv : s1.relators[s.y]? = some s1.relators[s.y] := getElem?_eq_getElem hlt
  generalize s1.relators[s.y] = v at hv
  refine ⟨s1, v, hadds, hv, ?_⟩
  intro stale
  have hrun : (a.withStale stale).addRelator s = .ok s1 := hs1.1
  have hlen : s1.lengths[s.y]? = some v.length := by
    have hlens : s1.lengths = s1.relators.map length := hreached.isTietze.lengths
    rw [hlens, getElem?_map, hv]
    rfl
  have hflag : elmPlist s1.flags (s.y + 1) = .ok (entryPlist s1.flags (s.y + 1)) := by
    have hfl : s1.flags.length = a.tietze.numrels := hreached.isTietze.flags
    apply elmPlist_eq_entryPlist
    . omega
    . omega
  unfold searchRound
  rw [hrun, ok_bind]
  dsimp only
  rw [hadds.y, elmPlist_of_getElem? hv, ok_bind, elmPlist_of_getElem? hlen, ok_bind, hflag,
    ok_bind, hadds.lasty]
  unfold atRelator
  split
  . next hskip => exact (if_pos hskip).symm
  . next hgo => exact (if_neg hgo).symm

theorem searchRound_spec
    : ∃ s', a.searchRound s = .ok s' ∧ a.IsRound s' ∧ a.left s' < a.left s
        ∧ s.count ≤ s'.count := by
  rcases searchRound_eq hb hm h hy with ⟨s1, v, h1⟩
  have hadds := h1.1
  have hrun := h1.2.2 a.stale
  have hxmax := hadds.xmax_le
  have hlengths : s1.lengths = s.lengths := congrArg TietzeStack.lengths hadds.stack
  have hreached (lasty : Nat) : a.IsReached (atRelator s1 (s.y + 1) lasty) := by
    have hstack : a.stack (atRelator s1 (s.y + 1) lasty) = a.stack s := hadds.stack
    unfold IsReached
    rw [hstack]
    exact h.reached
  have hnext (lasty : Nat) : a.IsRound (atRelator s1 (s.y + 1) lasty)
      ∧ a.left (atRelator s1 (s.y + 1) lasty) < a.left s
      ∧ s.count ≤ (atRelator s1 (s.y + 1) lasty).count := by
    refine ⟨⟨hreached lasty, succ_pos _, le_succ_of_le hxmax⟩, ?_,
      Nat.le_of_eq hadds.count.symm⟩
    unfold left atRelator
    dsimp only
    rw [hlengths]
    omega
  change a.searchRound s = _ at hrun
  rw [hrun]
  split
  . exact ⟨_, rfl, hnext _⟩
  . rcases searchRelator_spec hb hm (hreached (s.y + 1)) rfl h1.2.1 (lt_succ_of_le hxmax)
        (entryPlist s1.flags (s.y + 1)) with ⟨s3, hs3⟩
    refine ⟨s3, hs3.1, ?_⟩
    cases hs3.2 with
    | inl heq =>
      rw [heq.1]
      exact hnext _
    | inr halt =>
      have hprogress := halt.1.progress
      have hxmax3 := halt.1.xmax
      have hpos := h.pos
      unfold atRelator at hprogress hxmax3
      dsimp only at hprogress hxmax3
      rw [hlengths] at hprogress
      have hcount : s1.count < s3.count := halt.2
      rw [hadds.count] at hcount
      refine ⟨⟨halt.1.reached, by omega, by omega⟩, ?_, Nat.le_of_lt hcount⟩
      unfold left
      omega

end

theorem searchLoop_spec (hb : a.IsBounded) (hm : 0 < a.mlen) {rounds : Nat} (h : a.IsRound s)
    (hrounds : a.left s < rounds)
    : ∃ s', a.searchLoop rounds s = .ok s' ∧ a.IsReached s' ∧ s.count ≤ s'.count := by
  induction rounds generalizing s with
  | zero => omega
  | succ rounds ih =>
    unfold searchLoop
    by_cases hy : s.y < a.tietze.numrels
    . rw [if_pos hy]
      rcases searchRound_spec hb hm h hy with ⟨s1, hs1⟩
      rw [hs1.1, ok_bind]
      cases ih hs1.2.1 (by omega) with
      | intro s' hs' => exact ⟨s', hs'.1, hs'.2.1, Nat.le_trans hs1.2.2.2 hs'.2.2⟩
    . rw [if_neg hy]
      exact ⟨s, rfl, h.reached, Nat.le_refl _⟩

end TzSearch
