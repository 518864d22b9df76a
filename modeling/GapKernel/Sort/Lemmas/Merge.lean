import GapKernel.Sort.Lemmas.Quick
import Mathlib.Tactic.Ring

open Function

def merged {L : Type} (b1 e1 : Int) (f g : Int → L) (pos1 r : Int) : Int → L :=
  fun i =>
    if b1 ≤ i ∧ i < b1 + r - 1 then
      g (i - b1 + 1)
    else if b1 + r - 1 ≤ i ∧ i < b1 + r + e1 - pos1 then
      f (i - (b1 + r - 1) + pos1)
    else
      f i

section

variable {L : Type} {b1 e1 e2 : Int} {f g : Int → L} {pos1 r : Int}

theorem merged_start : merged b1 e1 f g b1 1 = f := by
  funext i
  unfold merged
  rw [if_neg (by omega)]
  split
  . congr 1
    omega
  . rfl

theorem merged_take_first (hr : 1 ≤ r) (hpos : pos1 ≤ e1)
    : merged b1 e1 f (update g r (f pos1)) (pos1 + 1) (r + 1)
        = merged b1 e1 f g pos1 r := by
  funext i
  unfold merged
  by_cases hi : b1 ≤ i ∧ i < b1 + r - 1
  . rw [if_pos (by omega), if_pos hi, update_of_ne (by omega)]
  . rw [if_neg hi]
    by_cases hr' : i = b1 + r - 1
    . rw [if_pos (by omega), if_pos (by omega)]
      rw [show i - b1 + 1 = r by omega, update_self]
      congr 1
      omega
    . rw [if_neg (by omega)]
      by_cases hi' : b1 + r - 1 ≤ i ∧ i < b1 + r + e1 - pos1
      . rw [if_pos (by omega), if_pos hi']
        congr 1
        omega
      . rw [if_neg (by omega), if_neg hi']

theorem merged_take_rest (hr : 1 ≤ r)
    : merged b1 e1 f (update g r (f (b1 + r - 1))) (e1 + 1) (r + 1)
        = merged b1 e1 f g (e1 + 1) r := by
  funext i
  unfold merged
  by_cases hi : b1 ≤ i ∧ i < b1 + r - 1
  . rw [if_pos (by omega), if_pos hi, update_of_ne (by omega)]
  . rw [if_neg hi]
    by_cases hr' : i = b1 + r - 1
    . subst hr'
      rw [if_pos (by omega), if_neg (by omega)]
      rw [show b1 + r - 1 - b1 + 1 = r by omega, update_self]
    . rw [if_neg (by omega), if_neg (by omega), if_neg (by omega)]

theorem merged_take_second {lt : L → L → Prop} (hr : 1 ≤ r) (hpos : pos1 ≤ e1 + 1)
    (hlt : ∀ i, pos1 ≤ i → i ≤ e1 → lt (f (b1 + r + e1 - pos1)) (f i))
    : StablyRearranged lt (b1 + r - 1) (b1 + r + e1 - pos1) (merged b1 e1 f g pos1 r)
        (merged b1 e1 f (update g r (f (b1 + r + e1 - pos1))) pos1 (r + 1)) := by
  have hhead : merged b1 e1 f g pos1 r (b1 + r + e1 - pos1) = f (b1 + r + e1 - pos1) := by
    unfold merged
    rw [if_neg (by omega), if_neg (by omega)]
  apply StablyRearranged.moveLeft (by omega)
  . rw [hhead]
    unfold merged
    rw [if_pos (by omega), show b1 + r - 1 - b1 + 1 = r by omega, update_self]
  . intro i hki hik
    unfold merged
    rw [if_neg (by omega), if_pos (by omega), if_neg (by omega), if_pos (by omega)]
    congr 1
    omega
  . intro i hi
    unfold merged
    by_cases hbuf : b1 ≤ i ∧ i < b1 + r - 1
    . rw [if_pos (by omega), if_pos hbuf, update_of_ne (by omega)]
    . rw [if_neg (by omega), if_neg hbuf, if_neg (by omega), if_neg (by omega)]
  . intro i hki hik
    rw [hhead]
    unfold merged
    rw [if_neg (by omega), if_pos (by omega)]
    apply hlt
    . omega
    . omega

def OrderedButRests (lt : L → L → Prop) (b1 e1 e2 : Int) (f g : Int → L) (pos1 r : Int) : Prop :=
  ∀ i j, b1 ≤ i → i < j → j ≤ e2 → ¬(b1 + r - 1 ≤ i ∧ i < b1 + r + e1 - pos1 ∧
    b1 + r + e1 - pos1 ≤ j) → ¬lt (merged b1 e1 f g pos1 r j) (merged b1 e1 f g pos1 r i)

end

namespace SortMacros

variable {S L B : Type} {m : SortMacros S L B} {len : Int} {Rep : S → (Int → L) → Prop}
  {BufRep : B → Int → (Int → L) → Prop} {ans : L → L → Bool → Prop}

structure SortedRanges (ans : L → L → Bool → Prop) (b1 e1 e2 : Int) (f : Int → L) : Prop where
  decides : DecidesOrder ans
  first : SortedOn (Less ans) b1 e1 f
  second : SortedOn (Less ans) (e1 + 1) e2 f

namespace SortedRanges

variable {b1 e1 e2 pos1 r : Int} {f g : Int → L} (h : SortedRanges ans b1 e1 e2 f)

include h

theorem start : OrderedButRests (Less ans) b1 e1 e2 f g b1 1 := by
  intro i j hi hij hj hrests
  rw [merged_start]
  by_cases hje : j ≤ e1
  . exact h.first i j hi hij hje
  . exact h.second i j (by omega) hij hj

theorem take_first (hr : 1 ≤ r) (hpos : b1 ≤ pos1 ∧ pos1 ≤ e1)
    (hpos2 : e1 < b1 + r + e1 - pos1)
    (hhead : ¬Less ans (f (b1 + r + e1 - pos1)) (f pos1))
    (hordered : OrderedButRests (Less ans) b1 e1 e2 f g pos1 r)
    : OrderedButRests (Less ans) b1 e1 e2 f (update g r (f pos1)) (pos1 + 1) (r + 1) := by
  intro i j hi hij hj hrests
  rw [merged_take_first hr hpos.2]
  by_cases hrests' : b1 + r - 1 ≤ i ∧ i < b1 + r + e1 - pos1 ∧ b1 + r + e1 - pos1 ≤ j
  . obtain rfl : i = b1 + r - 1 := by
      omega
    have hvi : merged b1 e1 f g pos1 r (b1 + r - 1) = f pos1 := by
      unfold merged
      rw [if_neg (by omega), if_pos (by omega)]
      congr 1
      omega
    have hvj : merged b1 e1 f g pos1 r j = f j := by
      unfold merged
      rw [if_neg (by omega), if_neg (by omega)]
    rw [hvi, hvj]
    by_cases hhead' : j = b1 + r + e1 - pos1
    . rw [hhead']
      exact hhead
    . exact h.decides.trans_not (h.second _ j (by omega) (by omega) hj) hhead
  . exact hordered i j hi hij hj hrests'

theorem less_rest (hpos : b1 ≤ pos1) (hless : Less ans (f (b1 + r + e1 - pos1)) (f pos1))
    : ∀ i, pos1 ≤ i → i ≤ e1 → Less ans (f (b1 + r + e1 - pos1)) (f i) := by
  intro i hi hi'
  by_contra hnot
  by_cases heq : i = pos1
  . rw [heq] at hnot
    exact hnot hless
  . exact h.decides.trans_not hnot (h.first pos1 i hpos (by omega) hi') hless

theorem take_second (hr : 1 ≤ r) (hpos : b1 ≤ pos1 ∧ pos1 ≤ e1)
    (hpos2 : e1 < b1 + r + e1 - pos1 ∧ b1 + r + e1 - pos1 ≤ e2)
    (hless : Less ans (f (b1 + r + e1 - pos1)) (f pos1))
    (hordered : OrderedButRests (Less ans) b1 e1 e2 f g pos1 r)
    : OrderedButRests (Less ans) b1 e1 e2 f (update g r (f (b1 + r + e1 - pos1))) pos1
        (r + 1) := by
  have hrest := h.less_rest hpos.1 hless
  intro i j hi hij hj hrests
  have hbuf (k : Int) (hk : b1 ≤ k) (hk' : k < b1 + r - 1) :
      merged b1 e1 f (update g r (f (b1 + r + e1 - pos1))) pos1 (r + 1) k
        = merged b1 e1 f g pos1 r k := by
    unfold merged
    rw [if_pos (by omega), if_pos (by omega), update_of_ne (by omega)]
  have hself : merged b1 e1 f (update g r (f (b1 + r + e1 - pos1))) pos1 (r + 1)
      (b1 + r - 1) = f (b1 + r + e1 - pos1) := by
    unfold merged
    rw [if_pos (by omega), show b1 + r - 1 - b1 + 1 = r by omega, update_self]
  have hfirst (k : Int) (hk : b1 + r - 1 < k) (hk' : k ≤ b1 + r + e1 - pos1) :
      merged b1 e1 f (update g r (f (b1 + r + e1 - pos1))) pos1 (r + 1) k
        = merged b1 e1 f g pos1 r (k - 1) := by
    unfold merged
    rw [if_neg (by omega), if_pos (by omega), if_neg (by omega), if_pos (by omega)]
    congr 1
    omega
  have hfirst' (k : Int) (hk : b1 + r - 1 < k) (hk' : k ≤ b1 + r + e1 - pos1) :
      merged b1 e1 f g pos1 r (k - 1) = f (k - (b1 + r) + pos1) := by
    unfold merged
    rw [if_neg (by omega), if_pos (by omega)]
    congr 1
    omega
  have hsecond (k : Int) (hk : b1 + r + e1 - pos1 < k) :
      merged b1 e1 f (update g r (f (b1 + r + e1 - pos1))) pos1 (r + 1) k = f k := by
    unfold merged
    rw [if_neg (by omega), if_neg (by omega)]
  have hsecond' (k : Int) (hk : b1 + r + e1 - pos1 ≤ k) : merged b1 e1 f g pos1 r k = f k := by
    unfold merged
    rw [if_neg (by omega), if_neg (by omega)]
  rcases lt_trichotomy i (b1 + r - 1) with hik | hik | hik
  . rw [hbuf i hi hik]
    rcases lt_trichotomy j (b1 + r - 1) with hjk | hjk | hjk
    . rw [hbuf j (by omega) hjk]
      exact hordered i j hi hij hj (by omega)
    . rw [hjk, hself, ← hsecond' _ (Int.le_refl _)]
      exact hordered i _ hi (by omega) (by omega) (by omega)
    . by_cases hj' : j ≤ b1 + r + e1 - pos1
      . rw [hfirst j hjk hj']
        exact hordered i (j - 1) hi (by omega) (by omega) (by omega)
      . rw [hsecond j (by omega), ← hsecond' j (by omega)]
        exact hordered i j hi hij hj (by omega)
  . rw [hik, hself]
    by_cases hj' : j ≤ b1 + r + e1 - pos1
    . rw [hfirst j (by omega) hj', hfirst' j (by omega) hj']
      apply h.decides.asymm
      exact hrest _ (by omega) (by omega)
    . rw [hsecond j (by omega)]
      exact h.second _ j (by omega) (by omega) hj
  . by_cases hi' : i ≤ b1 + r + e1 - pos1
    . have hj' : j ≤ b1 + r + e1 - pos1 := by
        omega
      rw [hfirst i hik hi', hfirst j (by omega) hj']
      exact hordered (i - 1) (j - 1) (by omega) (by omega) (by omega) (by omega)
    . rw [hsecond i (by omega), hsecond j (by omega)]
      exact h.second i j (by omega) hij hj

end SortedRanges

variable (h : m.Lawful len Rep BufRep ans)

include h

variable {s : S} {f g : Int → L} {buf : B}

theorem mergeHeads_spec (fuel : Nat) {b1 e1 e2 : Int} (pos1 r : Int) (hs : Rep s f)
    (hbuf : BufRep buf (r - 1) g) (hb : 1 ≤ b1) (he : e1 ≤ e2) (hlen : e2 ≤ len) (hr : 1 ≤ r)
    (hpos : b1 ≤ pos1 ∧ pos1 ≤ e1 + 1)
    (hpos2 : e1 < b1 + r + e1 - pos1 ∧ b1 + r + e1 - pos1 ≤ e2 + 1) (hfuel : e2 - b1 + 2 - r < fuel)
    : ∃ s' buf' pos1' r' g',
        m.mergeHeads fuel e1 e2 s buf pos1 (b1 + r + e1 - pos1) r
            = .ok (s', buf', pos1', b1 + r' + e1 - pos1', r') ∧
          Rep s' f ∧ BufRep buf' (r' - 1) g' ∧ 1 ≤ r' ∧ (b1 ≤ pos1' ∧ pos1' ≤ e1 + 1) ∧
          (e1 < b1 + r' + e1 - pos1' ∧ b1 + r' + e1 - pos1' ≤ e2 + 1) ∧
          (pos1' = e1 + 1 ∨ b1 + r' + e1 - pos1' = e2 + 1) ∧
          Rearranged b1 e2 (merged b1 e1 f g pos1 r) (merged b1 e1 f g' pos1' r') ∧
          (SortedRanges ans b1 e1 e2 f → OrderedButRests (Less ans) b1 e1 e2 f g pos1 r →
            StablyRearranged (Less ans) b1 e2 (merged b1 e1 f g pos1 r)
                (merged b1 e1 f g' pos1' r') ∧
              OrderedButRests (Less ans) b1 e1 e2 f g' pos1' r') := by
  induction fuel generalizing s buf pos1 r g with
  | zero => omega
  | succ fuel ih =>
    unfold mergeHeads
    split
    . next hrests =>
      obtain ⟨less, s₁, hcomp, hs₁, hanswer⟩ := compIndices_spec h hs
        (by omega : 1 ≤ b1 + r + e1 - pos1 ∧ b1 + r + e1 - pos1 ≤ len)
        (by omega : 1 ≤ pos1 ∧ pos1 ≤ len)
      rw [hcomp, ok_bind]
      cases less with
      | true =>
        obtain ⟨buf₁, hass, hbuf₁⟩ :=
          h.assLocalToBuf (f (b1 + r + e1 - pos1)) hbuf (by omega) (by omega)
        rw [Int.sub_add_cancel] at hass hbuf₁
        dsimp only
        rw [if_pos rfl, h.assListToLocal hs₁ (by omega) (by omega), ok_bind]
        rw [hass, ok_bind]
        rw [show b1 + r + e1 - pos1 + 1 = b1 + (r + 1) + e1 - pos1 by omega]
        obtain ⟨s', buf', pos1', r', g', hheads, hs', hbuf', hr', hpos', hpos2', hend, hrearranged,
          hsorted⟩ := ih pos1 (r + 1) hs₁ (by rwa [Int.add_sub_cancel]) (by omega) hpos
            (by omega) (by omega)
        refine ⟨s', buf', pos1', r', g', hheads, hs', hbuf', hr', hpos', hpos2', hend, ?_, ?_⟩
        . have htake : StablyRearranged (fun _ _ => True) (b1 + r - 1) (b1 + r + e1 - pos1) _ _ :=
            merged_take_second (f := f) (g := g) hr hpos.2 (fun _ _ _ => trivial)
          exact (htake.rearranged.mono (by omega) hrests.2).trans hrearranged
        . intro hranges hordered
          have htake := merged_take_second (g := g) hr hpos.2 (hranges.less_rest hpos.1 hanswer)
          obtain ⟨hstable, hordered'⟩ := hsorted hranges
            (hranges.take_second hr (by omega) (by omega) hanswer hordered)
          exact ⟨(htake.mono (by omega) hrests.2).trans hstable, hordered'⟩
      | false =>
        obtain ⟨buf₁, hass, hbuf₁⟩ := h.assLocalToBuf (f pos1) hbuf (by omega) (by omega)
        rw [Int.sub_add_cancel] at hass hbuf₁
        dsimp only
        rw [if_neg (by simp), h.assListToLocal hs₁ (by omega) (by omega), ok_bind]
        rw [hass, ok_bind]
        rw [show b1 + r + e1 - pos1 = b1 + (r + 1) + e1 - (pos1 + 1) by omega]
        obtain ⟨s', buf', pos1', r', g', hheads, hs', hbuf', hr', hpos', hpos2', hend, hrearranged,
          hsorted⟩ := ih (pos1 + 1) (r + 1) hs₁ (by rwa [Int.add_sub_cancel])
            (by omega) (by omega) (by omega) (by omega)
        rw [merged_take_first hr hrests.1] at hrearranged hsorted
        refine ⟨s', buf', pos1', r', g', hheads, hs', hbuf', hr', hpos', hpos2', hend,
          hrearranged, ?_⟩
        intro hranges hordered
        have hhead := hranges.decides.not_less hanswer
        apply hsorted hranges
        exact hranges.take_first hr (by omega) (by omega) hhead hordered
    . refine ⟨s, buf, pos1, r, g, rfl, hs, hbuf, hr, hpos, hpos2, by omega, Rearranged.refl _ _ _,
        ?_⟩
      intro _ hordered
      exact ⟨StablyRearranged.refl _ _ _, hordered⟩

theorem mergeRest_first (fuel : Nat) (b1 pos1 : Int) {e1 r : Int} (hs : Rep s f)
    (hbuf : BufRep buf (r - 1) g) (hpos : 1 ≤ pos1 ∧ pos1 ≤ e1 + 1) (hr : 1 ≤ r) (hlen : e1 ≤ len)
    (hbufLen : r + e1 - pos1 ≤ len) (hfuel : e1 - pos1 + 1 < fuel)
    : ∃ buf' g', m.mergeRest fuel e1 s buf pos1 r = .ok (buf', r + (e1 + 1 - pos1)) ∧
        BufRep buf' (r + (e1 + 1 - pos1) - 1) g' ∧
        merged b1 e1 f g' (e1 + 1) (r + (e1 + 1 - pos1)) = merged b1 e1 f g pos1 r := by
  induction fuel generalizing buf pos1 r g with
  | zero => omega
  | succ fuel ih =>
    unfold mergeRest
    split
    . next hle =>
      obtain ⟨buf₁, hass, hbuf₁⟩ := h.assLocalToBuf (f pos1) hbuf (by omega) (by omega)
      rw [Int.sub_add_cancel] at hass hbuf₁
      rw [h.assListToLocal hs hpos.1 (by omega), ok_bind]
      rw [hass, ok_bind]
      obtain ⟨buf', g', hrest, hbuf', hmerged⟩ := ih (pos1 + 1) (r := r + 1)
        (by rwa [Int.add_sub_cancel]) (by omega) (by omega) (by omega) (by omega)
      rw [show r + 1 + (e1 + 1 - (pos1 + 1)) = r + (e1 + 1 - pos1) by omega] at hrest hbuf' hmerged
      refine ⟨buf', g', hrest, hbuf', ?_⟩
      rw [hmerged, merged_take_first hr hle]
    . obtain rfl : pos1 = e1 + 1 := by
        omega
      rw [Int.sub_self, Int.add_zero]
      exact ⟨buf, g, rfl, hbuf, rfl⟩

theorem mergeRest_second (fuel : Nat) (b1 e1 : Int) {e2 r : Int} (hs : Rep s f)
    (hbuf : BufRep buf (r - 1) g) (hb : 1 ≤ b1) (hr : 1 ≤ r) (he : b1 + r - 1 ≤ e2 + 1)
    (hlen : e2 ≤ len) (hfuel : e2 - (b1 + r - 1) + 1 < fuel)
    : ∃ buf' g', m.mergeRest fuel e2 s buf (b1 + r - 1) r = .ok (buf', e2 - b1 + 2) ∧
        BufRep buf' (e2 - b1 + 1) g' ∧
        merged b1 e1 f g' (e1 + 1) (e2 - b1 + 2) = merged b1 e1 f g (e1 + 1) r := by
  induction fuel generalizing buf r g with
  | zero => omega
  | succ fuel ih =>
    unfold mergeRest
    split
    . next hle =>
      obtain ⟨buf₁, hass, hbuf₁⟩ := h.assLocalToBuf (f (b1 + r - 1)) hbuf (by omega) (by omega)
      rw [Int.sub_add_cancel] at hass hbuf₁
      rw [h.assListToLocal hs (by omega) (by omega), ok_bind]
      rw [hass, ok_bind]
      obtain ⟨buf', g', hrest, hbuf', hmerged⟩ := ih (r := r + 1) (by rwa [Int.add_sub_cancel])
        (by omega) (by omega) (by omega)
      rw [show b1 + (r + 1) - 1 = b1 + r - 1 + 1 by omega] at hrest
      refine ⟨buf', g', hrest, hbuf', ?_⟩
      rw [hmerged, merged_take_rest hr]
    . obtain rfl : r = e2 - b1 + 2 := by
        omega
      refine ⟨buf, g, rfl, ?_, rfl⟩
      rwa [show e2 - b1 + 2 - 1 = e2 - b1 + 1 by omega] at hbuf

theorem mergeBack_spec (rounds : Nat) {b1 n i : Int} (hs : Rep s f) (hbuf : BufRep buf n g)
    (hb : 1 ≤ b1) (hi : 1 ≤ i) (hn : i + rounds = n + 1) (hlen : b1 + n - 1 ≤ len)
    : ∃ s' f', m.mergeBack rounds b1 s buf i = .ok s' ∧ Rep s' f' ∧
        ∀ j, f' j = if b1 + i - 1 ≤ j ∧ j < b1 + n then g (j - b1 + 1) else f j := by
  induction rounds generalizing s i f with
  | zero =>
    refine ⟨s, f, rfl, hs, ?_⟩
    intro j
    rw [if_neg (by omega)]
  | succ rounds ih =>
    obtain ⟨s₁, hass, hs₁⟩ :=
      h.assLocalToList (g i) hs (by omega : 1 ≤ b1 + i - 1) (by omega)
    obtain ⟨s', f', hback, hs', hf'⟩ := ih hs₁ (by omega : 1 ≤ i + 1) (by omega)
    refine ⟨s', f', ?_, hs', ?_⟩
    . unfold mergeBack
      rw [h.assBufToLocal hbuf hi (by omega), ok_bind]
      rw [hass, ok_bind]
      exact hback
    . intro j
      rw [hf']
      by_cases hj : j = b1 + i - 1
      . subst hj
        rw [if_neg (by omega), if_pos (by omega), update_self]
        congr 1
        omega
      . rw [update_of_ne hj]
        split
        . rw [if_pos (by omega)]
        . rw [if_neg (by omega)]

theorem mergeRanges_spec (b1 e1 e2 : Int) (hs : Rep s f) (hbuf : BufRep buf 0 g) (hb : 1 ≤ b1)
    (hb' : b1 ≤ e1) (he : e1 ≤ e2) (hlen : e2 ≤ len)
    : ∃ s' buf' f' g', m.mergeRanges s b1 e1 e2 buf = .ok (s', buf') ∧ Rep s' f' ∧
        BufRep buf' 0 g' ∧ Rearranged b1 e2 f f' ∧
        (SortedRanges ans b1 e1 e2 f →
          StablyRearranged (Less ans) b1 e2 f f' ∧ SortedOn (Less ans) b1 e2 f') := by
  obtain ⟨s₁, buf₁, pos1, r, g₁, hheads, hs₁, hbuf₁, hr, hpos, hpos2, hend, hrearranged, hsorted⟩ :=
    mergeHeads_spec h (e2 - b1 + 2).toNat b1 1 hs hbuf hb he hlen (by omega)
      (by omega) (by omega) (by omega)
  rw [show b1 + 1 + e1 - b1 = e1 + 1 by omega] at hheads
  obtain ⟨buf₂, g₂, hrest₂, hbuf₂, hmerged₂⟩ :=
    mergeRest_first h (e1 - pos1 + 2).toNat b1 pos1 hs₁ hbuf₁ (by omega) hr
      (by omega : e1 ≤ len) (by omega) (by omega)
  obtain ⟨buf₃, g₃, hrest₃, hbuf₃, hmerged₃⟩ :=
    mergeRest_second h (e2 - (b1 + r + e1 - pos1) + 2).toNat b1 e1 hs₁ hbuf₂ hb
      (by omega) (by omega) hlen (by omega)
  rw [show b1 + (r + (e1 + 1 - pos1)) - 1 = b1 + r + e1 - pos1 by omega] at hrest₃
  obtain ⟨s', f', hback, hs', hf'⟩ :=
    mergeBack_spec h (e2 - b1 + 2 - 1).toNat (i := 1) hs₁ hbuf₃ hb (by omega) (by omega) (by omega)
  have hmerged : f' = merged b1 e1 f g₁ pos1 r := by
    rw [← hmerged₂, ← hmerged₃]
    funext j
    rw [hf']
    unfold merged
    split
    . rw [if_pos (by omega)]
    . rw [if_neg (by omega), if_neg (by omega)]
  rw [merged_start] at hrearranged hsorted
  rw [hmerged] at hs'
  refine ⟨s', buf₃, _, _, ?_, hs', h.reuse hbuf₃, hrearranged, ?_⟩
  . unfold mergeRanges
    rw [hheads, ok_bind]
    dsimp only
    rw [hrest₂, ok_bind]
    dsimp only
    rw [hrest₃, ok_bind]
    dsimp only
    rw [hback]
    rfl
  . intro hranges
    obtain ⟨hstable, hordered⟩ := hsorted hranges hranges.start
    refine ⟨hstable, ?_⟩
    intro i j hi hij hj
    exact hordered i j hi hij hj (by omega)

end SortMacros

def RunsFrom {L : Type} (lt : L → L → Prop) (w len i : Int) (f : Int → L) : Prop :=
  ∀ n : Nat, SortedOn lt (i + n * w) (min (i + n * w + w - 1) len) f

namespace RunsFrom

variable {L : Type} {lt : L → L → Prop} {w len i : Int} {f f' : Int → L}

theorem first (h : RunsFrom lt w len i f) : SortedOn lt i (min (i + w - 1) len) f := by
  simpa using h 0

theorem rest (h : RunsFrom lt w len i f) : RunsFrom lt w len (i + w) f := by
  intro n
  have hn := h (n + 1)
  rw [show i + ((n + 1 : Nat) : Int) * w = i + w + n * w by push_cast; ring] at hn
  exact hn

theorem cons (hfirst : SortedOn lt i (min (i + w - 1) len) f) (hrest : RunsFrom lt w len (i + w) f)
    : RunsFrom lt w len i f := by
  intro n
  cases n with
  | zero => simpa using hfirst
  | succ n =>
    have hn := hrest n
    rw [show i + w + n * w = i + ((n + 1 : Nat) : Int) * w by push_cast; ring] at hn
    exact hn

theorem last (hw : 0 ≤ w) (hi : len < i + w) (h : SortedOn lt i len f)
    : RunsFrom lt w len i f := by
  apply cons
  . intro j k hj hjk hk
    exact h j k hj hjk (by omega)
  . intro n j k hj hjk hk
    have := Int.mul_nonneg (Int.natCast_nonneg n) hw
    omega

theorem congr (hw : 0 ≤ w) (h : RunsFrom lt w len i f) (heq : ∀ j, i ≤ j → f' j = f j)
    : RunsFrom lt w len i f' := by
  intro n
  apply (h n).congr
  intro j hj _
  have := Int.mul_nonneg (Int.natCast_nonneg n) hw
  exact heq j (by omega)

end RunsFrom

namespace SortMacros

variable {S L B : Type} {m : SortMacros S L B} {len : Int} {Rep : S → (Int → L) → Prop}
  {BufRep : B → Int → (Int → L) → Prop} {ans : L → L → Bool → Prop}
  (h : m.Lawful len Rep BufRep ans)

include h

variable {s : S} {f : Int → L}

theorem insertionSteps_spec (fuel : Nat) {stepsize i : Int} (hs : Rep s f) (hstep : 0 < stepsize)
    (hi : 1 ≤ i) (hfuel : len + 1 - i < fuel) (hpos : 0 < fuel)
    : ∃ s' i' f', m.insertionSteps fuel stepsize len s i = .ok (s', i') ∧ Rep s' f' ∧ i ≤ i' ∧
        len < i' + stepsize ∧ StablyRearranged (Less ans) i len f f' ∧
        (DecidesOrder ans → ∀ f'', Rearranged i' len f' f'' →
          RunsFrom (Less ans) stepsize len i' f'' → RunsFrom (Less ans) stepsize len i f'') := by
  induction fuel generalizing s i f with
  | zero => omega
  | succ fuel ih =>
    unfold insertionSteps
    split
    . next hle =>
      obtain ⟨s₁, f₁, hinsertion, hs₁, hrearranged₁, hsorted₁⟩ :=
        insertion_spec h hs hi (by omega : i + stepsize - 1 ≤ len)
      rw [hinsertion, ok_bind]
      obtain ⟨s', i', f', hsteps, hs', hle', hlen', hrearranged, hruns⟩ :=
        ih hs₁ (by omega : 1 ≤ i + stepsize) (by omega) (by omega)
      refine ⟨s', i', f', hsteps, hs', by omega, hlen', ?_, ?_⟩
      . apply (hrearranged₁.mono (Int.le_refl _) (by omega)).trans
        exact hrearranged.mono (by omega) (Int.le_refl _)
      . intro hans f'' hf'' hruns''
        apply RunsFrom.cons _ (hruns hans f'' hf'' hruns'')
        intro j k hj hjk hk
        have hsorted : SortedOn (Less ans) i (i + stepsize - 1) f'' := by
          apply (hsorted₁ hans).congr
          intro j' hj' hj''
          rw [hf''.outside (by omega)]
          exact hrearranged.rearranged.outside (by omega)
        exact hsorted j k hj hjk (by omega)
    . next hle =>
      refine ⟨s, i, f, rfl, hs, Int.le_refl i, by omega, StablyRearranged.refl _ _ _, ?_⟩
      intro _ f'' _ hruns
      exact hruns

variable {w : Int} {g : Int → L} {buf : B}

theorem mergeSteps_spec (fuel : Nat) {i : Int} (hs : Rep s f) (hbuf : BufRep buf 0 g) (hw : 0 < w)
    (hi : 1 ≤ i) (hfuel : len + 1 - i < fuel) (hpos : 0 < fuel)
    : ∃ s' buf' i' f' g', m.mergeSteps fuel w len s buf i = .ok (s', buf', i') ∧ Rep s' f' ∧
        BufRep buf' 0 g' ∧ i ≤ i' ∧ len < i' + w * 2 ∧ Rearranged i len f f' ∧
        (DecidesOrder ans → RunsFrom (Less ans) w len i f →
          StablyRearranged (Less ans) i len f f' ∧ RunsFrom (Less ans) w len i' f' ∧
          ∀ f'', Rearranged i' len f' f'' →
            RunsFrom (Less ans) (w * 2) len i' f'' → RunsFrom (Less ans) (w * 2) len i f'') := by
  induction fuel generalizing s buf i f g with
  | zero => omega
  | succ fuel ih =>
    unfold mergeSteps
    split
    . next hle =>
      obtain ⟨s₁, buf₁, f₁, g₁, hmerge, hs₁, hbuf₁, hrearranged₁, hsorted₁⟩ :=
        mergeRanges_spec h i (i + w - 1) (i + w * 2 - 1) hs hbuf hi (by omega)
          (by omega) (by omega)
      rw [hmerge, ok_bind]
      obtain ⟨s', buf', i', f', g', hsteps, hs', hbuf', hle', hlen', hrearranged, hruns⟩ :=
        ih hs₁ hbuf₁ (by omega : 1 ≤ i + w * 2) (by omega) (by omega)
      refine ⟨s', buf', i', f', g', hsteps, hs', hbuf', by omega, hlen', ?_, ?_⟩
      . apply (hrearranged₁.mono (Int.le_refl _) (by omega)).trans
        exact hrearranged.mono (by omega) (Int.le_refl _)
      . intro hans hruns₀
        have hranges : SortedRanges ans i (i + w - 1) (i + w * 2 - 1) f := by
          refine ⟨hans, ?_, ?_⟩
          . intro j k hj hjk hk
            exact hruns₀.first j k hj hjk (by omega)
          . intro j k hj hjk hk
            exact hruns₀.rest.first j k (by omega) hjk (by omega)
        obtain ⟨hstable₁, hsorted₁⟩ := hsorted₁ hranges
        have hruns₁ : RunsFrom (Less ans) w len (i + w * 2) f₁ := by
          rw [show i + w * 2 = i + w + w by omega]
          apply hruns₀.rest.rest.congr (by omega)
          intro j hj
          exact hrearranged₁.outside (by omega)
        obtain ⟨hstable, hruns', hcons⟩ := hruns hans hruns₁
        refine ⟨?_, hruns', ?_⟩
        . apply (hstable₁.mono (Int.le_refl _) (by omega)).trans
          exact hstable.mono (by omega) (Int.le_refl _)
        . intro f'' hf'' hruns''
          apply RunsFrom.cons _ (hcons f'' hf'' hruns'')
          intro j k hj hjk hk
          have hsorted : SortedOn (Less ans) i (i + w * 2 - 1) f'' := by
            apply hsorted₁.congr
            intro j' hj' hj''
            rw [hf''.outside (by omega)]
            exact hrearranged.outside (by omega)
          exact hsorted j k hj hjk (by omega)
    . next hle =>
      refine ⟨s, buf, i, f, g, rfl, hs, hbuf, Int.le_refl i, by omega, Rearranged.refl _ _ _, ?_⟩
      intro _ hruns
      refine ⟨StablyRearranged.refl _ _ _, hruns, ?_⟩
      intro f'' _ hruns''
      exact hruns''

theorem mergeRound_spec (hs : Rep s f) (hbuf : BufRep buf 0 g) (hw : 0 < w) (hlen : 0 ≤ len)
    : ∃ s₁ buf₁ i, m.mergeSteps (len + 1).toNat w len s buf 1 = .ok (s₁, buf₁, i) ∧
        ∃ s' buf' f' g',
          (if i + w ≤ len then m.mergeRanges s₁ i (i + w - 1) len buf₁ else .ok (s₁, buf₁))
              = .ok (s', buf') ∧
            Rep s' f' ∧ BufRep buf' 0 g' ∧ Rearranged 1 len f f' ∧
            (DecidesOrder ans → RunsFrom (Less ans) w len 1 f →
              StablyRearranged (Less ans) 1 len f f' ∧ RunsFrom (Less ans) (w * 2) len 1 f') := by
  obtain ⟨s₁, buf₁, i, f₁, g₁, hsteps, hs₁, hbuf₁, hi, hi', hrearranged₁, hruns₁⟩ :=
    mergeSteps_spec h (len + 1).toNat hs hbuf hw (Int.le_refl 1) (by omega) (by omega)
  refine ⟨s₁, buf₁, i, hsteps, ?_⟩
  split
  . next hle =>
    obtain ⟨s', buf', f', g', hmerge, hs', hbuf', hrearranged, hsorted⟩ :=
      mergeRanges_spec h i (i + w - 1) len hs₁ hbuf₁ hi (by omega) (by omega)
        (Int.le_refl len)
    refine ⟨s', buf', f', g', hmerge, hs', hbuf', ?_, ?_⟩
    . exact hrearranged₁.trans (hrearranged.mono hi (Int.le_refl _))
    . intro hans hruns
      obtain ⟨hstable₁, hruns₁, hcons⟩ := hruns₁ hans hruns
      have hranges : SortedRanges ans i (i + w - 1) len f₁ := by
        refine ⟨hans, ?_, ?_⟩
        . intro j k hj hjk hk
          exact hruns₁.first j k hj hjk (by omega)
        . intro j k hj hjk hk
          exact hruns₁.rest.first j k (by omega) hjk (by omega)
      obtain ⟨hstable, hsorted⟩ := hsorted hranges
      refine ⟨hstable₁.trans (hstable.mono hi (Int.le_refl _)), ?_⟩
      exact hcons f' hrearranged (RunsFrom.last (by omega) hi' hsorted)
  . next hle =>
    refine ⟨s₁, buf₁, f₁, g₁, rfl, hs₁, hbuf₁, hrearranged₁, ?_⟩
    intro hans hruns
    obtain ⟨hstable₁, hruns₁, hcons⟩ := hruns₁ hans hruns
    refine ⟨hstable₁, hcons f₁ (Rearranged.refl _ _ _) (RunsFrom.last (by omega) hi' ?_)⟩
    intro j k hj hjk hk
    exact hruns₁.first j k hj hjk (by omega)

theorem mergeLoop_spec (fuel : Nat) (hs : Rep s f) (hbuf : BufRep buf 0 g) (hw : 0 < w)
    (hlen : 0 ≤ len) (hfuel : len - w < fuel) (hpos : 0 < fuel)
    : ∃ s' f', m.mergeLoop fuel len s buf w = .ok s' ∧ Rep s' f' ∧ Rearranged 1 len f f' ∧
        (DecidesOrder ans → RunsFrom (Less ans) w len 1 f →
          StablyRearranged (Less ans) 1 len f f' ∧ SortedOn (Less ans) 1 len f') := by
  induction fuel generalizing s buf w f g with
  | zero => omega
  | succ fuel ih =>
    unfold mergeLoop
    split
    . next hlt =>
      obtain ⟨s₁, buf₁, i, hsteps, s₂, buf₂, f₂, g₂, hround, hs₂, hbuf₂, hrearranged₂, hruns₂⟩ :=
        mergeRound_spec h hs hbuf hw hlen
      obtain ⟨s', f', hloop, hs', hrearranged, hsorted⟩ :=
        ih hs₂ hbuf₂ (by omega : 0 < w * 2) (by omega) (by omega)
      refine ⟨s', f', ?_, hs', hrearranged₂.trans hrearranged, ?_⟩
      . rw [hsteps, ok_bind]
        dsimp only
        by_cases hle : i + w ≤ len
        . rw [if_pos hle] at hround ⊢
          rw [hround, ok_bind]
          exact hloop
        . rw [if_neg hle] at hround ⊢
          cases hround
          exact hloop
      . intro hans hruns
        obtain ⟨hstable₂, hruns₂⟩ := hruns₂ hans hruns
        obtain ⟨hstable, hsorted⟩ := hsorted hans hruns₂
        exact ⟨hstable₂.trans hstable, hsorted⟩
    . next hlt =>
      refine ⟨s, f, rfl, hs, Rearranged.refl _ _ _, ?_⟩
      intro _ hruns
      refine ⟨StablyRearranged.refl _ _ _, ?_⟩
      intro j k hj hjk hk
      exact hruns.first j k hj hjk (by omega)

theorem merge_spec (hs : Rep s f) (hlen : 0 ≤ len)
    : ∃ s' f', m.merge s = .ok s' ∧ Rep s' f' ∧ Rearranged 1 len f f' ∧
        (DecidesOrder ans →
          StablyRearranged (Less ans) 1 len f f' ∧ SortedOn (Less ans) 1 len f') := by
  obtain ⟨s₁, i, f₁, hsteps, hs₁, hi, hi', hstable₁, hruns₁⟩ :=
    insertionSteps_spec h (len + 1).toNat hs (by omega : (0 : Int) < 24) (Int.le_refl 1) (by omega)
      (by omega)
  have hlast : ∃ s₂ f₂, (if i < len then m.insertion s₁ i len else return s₁ : Result S) = .ok s₂ ∧
      Rep s₂ f₂ ∧ StablyRearranged (Less ans) i len f₁ f₂ ∧
      (DecidesOrder ans → SortedOn (Less ans) i len f₂) := by
    split
    . exact insertion_spec h hs₁ hi (Int.le_refl len)
    . refine ⟨s₁, f₁, rfl, hs₁, StablyRearranged.refl _ _ _, ?_⟩
      intro _ j k hj hjk hk
      omega
  obtain ⟨s₂, f₂, hlast, hs₂, hstable₂, hsorted₂⟩ := hlast
  have hstable := hstable₁.trans (hstable₂.mono hi (Int.le_refl _))
  obtain ⟨s', f', hloop, hs', hrearranged, hsorted⟩ :=
    mergeLoop_spec h (len + 1).toNat hs₂ (h.createTempBuffer f) (by omega : (0 : Int) < 24) hlen
      (by omega) (by omega)
  refine ⟨s', f', ?_, hs', hstable.rearranged.trans hrearranged, ?_⟩
  . unfold merge
    dsimp only
    rw [h.lenList hs, hsteps, ok_bind]
    dsimp only
    rw [hlast, ok_bind]
    exact hloop
  . intro hans
    have hruns := hruns₁ hans f₂ hstable₂.rearranged
      (RunsFrom.last (by omega) hi' (hsorted₂ hans))
    obtain ⟨hstable', hsorted'⟩ := hsorted hans hruns
    exact ⟨hstable.trans hstable', hsorted'⟩

end SortMacros
