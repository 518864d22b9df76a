import Mathlib.Algebra.Group.Subgroup.Basic
import Mathlib.Data.List.Rotate
import Mathlib.GroupTheory.FreeGroup.CyclicallyReduced

/-!
This module contains words over letters with inverses that are read around a cycle, and the
conjugacy problem in free groups: a cyclically reduced word is a rotation of every other one that is
conjugate to it.
-/

open List Nat

namespace CyclicWord

variable {α : Type*}

def invWord (inv : α → α) (w : List α) : List α :=
  (w.map inv).reverse

def IsReduced (inv : α → α) (w : List α) : Prop :=
  w.IsChain fun a b => b ≠ inv a

structure IsCyclicallyReduced (inv : α → α) (w : List α) : Prop where
  reduced : IsReduced inv w
  -- A word of one letter does not get shorter, also when the letter is its own inverse.
  ends : 2 ≤ w.length → ∀ a ∈ w.getLast?, ∀ b ∈ w.head?, b ≠ inv a

variable {inv : α → α}

@[simp]
theorem length_invWord (w : List α) : (invWord inv w).length = w.length := by
  simp [invWord]

theorem invWord_append (u v : List α) : invWord inv (u ++ v) = invWord inv v ++ invWord inv u := by
  simp [invWord]

@[simp]
theorem invWord_eq_nil_iff {w : List α} : invWord inv w = [] ↔ w = [] := by
  simp [invWord]

variable {u v : List α}

theorem isRotated_invWord (h : u ~r v) : invWord inv u ~r invWord inv v := by
  apply List.IsRotated.reverse
  apply h.map

theorem head?_invWord (w : List α) : (invWord inv w).head? = w.getLast?.map inv := by
  unfold invWord
  rw [head?_reverse]
  rw [getLast?_map]

theorem getLast?_invWord (w : List α) : (invWord inv w).getLast? = w.head?.map inv := by
  unfold invWord
  rw [getLast?_reverse]
  rw [head?_map]

theorem isReduced_append
    : IsReduced inv (u ++ v) ↔ IsReduced inv u ∧ IsReduced inv v
        ∧ ∀ a ∈ u.getLast?, ∀ b ∈ v.head?, b ≠ inv a := by
  unfold IsReduced
  rw [isChain_append]

theorem IsCyclicallyReduced.comm (h : IsCyclicallyReduced inv (u ++ v))
    : IsCyclicallyReduced inv (v ++ u) := by
  cases hu : u with
  | nil =>
    rw [hu] at h
    rw [append_nil]
    exact h
  | cons a u' =>
    cases hv : v with
    | nil =>
      rw [hv] at h
      rw [append_nil] at h
      rw [hu] at h
      exact h
    | cons b v' =>
      rw [← hu, ← hv]
      have hune : u ≠ [] := by simp [hu]
      have hvne : v ≠ [] := by simp [hv]
      have hlen : 2 ≤ (u ++ v).length := by
        simp [hu, hv]
        omega
      have hred := isReduced_append.mp h.reduced
      have hends := h.ends hlen
      rw [getLast?_append_of_ne_nil _ hvne] at hends
      rw [head?_append_of_ne_nil _ hune] at hends
      constructor
      . rw [isReduced_append]
        exact ⟨hred.2.1, hred.1, hends⟩
      . intro _
        rw [getLast?_append_of_ne_nil _ hune]
        rw [head?_append_of_ne_nil _ hvne]
        exact hred.2.2

theorem IsCyclicallyReduced.of_isRotated {w w' : List α} (h : IsCyclicallyReduced inv w)
    (hrot : w ~r w') : IsCyclicallyReduced inv w' := by
  rcases hrot with ⟨n, hn⟩
  rw [← hn]
  rw [← rotate_mod]
  cases Nat.eq_zero_or_pos w.length with
  | inl hzero =>
    rw [length_eq_zero_iff.mp hzero] at h
    rw [length_eq_zero_iff.mp hzero]
    simpa using h
  | inr hpos =>
    have hle := Nat.le_of_lt (mod_lt n hpos)
    rw [rotate_eq_drop_append_take hle]
    apply IsCyclicallyReduced.comm
    rw [take_append_drop]
    exact h

section Letters

variable {L : Set α}

variable {w : List α}

theorem invWord_mem (hmaps : Set.MapsTo inv L L) (hw : ∀ a ∈ w, a ∈ L)
    : ∀ a ∈ invWord inv w, a ∈ L := by
  intro a ha
  unfold invWord at ha
  rw [mem_reverse] at ha
  rw [mem_map] at ha
  rcases ha with ⟨b, hb⟩
  rw [← hb.2]
  exact hmaps (hw b hb.1)

section

variable (hinv : Set.LeftInvOn inv inv L) (hw : ∀ a ∈ w, a ∈ L)

include hinv hw

theorem invWord_invWord
    : invWord inv (invWord inv w) = w := by
  unfold invWord
  rw [map_reverse]
  rw [reverse_reverse]
  rw [map_map]
  conv =>
    rhs
    rw [← map_id w]
  apply map_congr_left
  intro a ha
  exact hinv (hw a ha)

theorem IsReduced.invWord (h : IsReduced inv w) : IsReduced inv (invWord inv w) := by
  unfold IsReduced CyclicWord.invWord
  rw [isChain_reverse]
  rw [isChain_map]
  apply List.IsChain.imp_of_mem_imp _ h
  intro a b ha hb hab heq
  rw [hinv (hw b hb)] at heq
  exact hab heq.symm

theorem IsCyclicallyReduced.invWord (h : IsCyclicallyReduced inv w)
    : IsCyclicallyReduced inv (invWord inv w) := by
  constructor
  . apply IsReduced.invWord hinv hw h.reduced
  . intro hlen a ha b hb heq
    rw [length_invWord] at hlen
    rw [getLast?_invWord] at ha
    rw [head?_invWord] at hb
    rw [Option.mem_map] at ha hb
    rcases ha with ⟨a', ha'⟩
    rcases hb with ⟨b', hb'⟩
    apply h.ends hlen b' hb'.1 a' ha'.1
    rw [← ha'.2, ← hb'.2] at heq
    rw [hinv (hw a' (mem_of_head? ha'.1))] at heq
    exact heq.symm

end

theorem IsCyclicallyReduced.exchange (hinv : Set.LeftInvOn inv inv L) {u v r : List α}
    (hv : ∀ a ∈ v, a ∈ L) (hr : ∀ a ∈ r, a ∈ L) (hx : IsCyclicallyReduced inv (u ++ v))
    (hy : IsCyclicallyReduced inv (u ++ r)) (hvne : v ≠ []) (hrne : r ≠ [])
    (hhead : v.head? ≠ r.head?) (hlast : v.getLast? ≠ r.getLast?)
    : IsCyclicallyReduced inv (CyclicWord.invWord inv v ++ r) := by
  have hvne' : CyclicWord.invWord inv v ≠ [] := by
    intro h
    exact hvne (invWord_eq_nil_iff.mp h)
  constructor
  . rw [isReduced_append]
    refine ⟨?_, (isReduced_append.mp hy.reduced).2.1, ?_⟩
    . apply IsReduced.invWord hinv hv
      apply (isReduced_append.mp hx.reduced).2.1
    . intro a ha b hb heq
      rw [getLast?_invWord] at ha
      rw [Option.mem_map] at ha
      rcases ha with ⟨a', ha'⟩
      rw [← ha'.2] at heq
      rw [hinv (hv a' (mem_of_head? ha'.1))] at heq
      apply hhead
      rw [ha'.1, hb, heq]
  . intro _ a ha b hb heq
    rw [getLast?_append_of_ne_nil _ hrne] at ha
    rw [head?_append_of_ne_nil _ hvne'] at hb
    rw [head?_invWord] at hb
    rw [Option.mem_map] at hb
    rcases hb with ⟨b', hb'⟩
    rw [← hb'.2] at heq
    have heq' : b' = a := by
      rw [← hinv (hv b' (mem_of_getLast? hb'.1))]
      rw [heq]
      rw [hinv (hr a (mem_of_getLast? ha))]
    apply hlast
    rw [hb'.1, ha, heq']

variable {G : Type*} [Group G] {f : α → G}

theorem prod_invWord (hf : ∀ a ∈ L, f (inv a) = (f a)⁻¹) (hw : ∀ a ∈ w, a ∈ L)
    : ((invWord inv w).map f).prod = ((w.map f).prod)⁻¹ := by
  rw [prod_inv_reverse]
  unfold invWord
  rw [map_reverse]
  rw [map_map]
  rw [map_map]
  congr 2
  apply map_congr_left
  intro a ha
  apply hf a (hw a ha)

end Letters

section Group

variable {G : Type*} [Group G] {f : α → G}

theorem isConj_of_isRotated {w w' : List α} (h : w ~r w')
    : IsConj (w.map f).prod (w'.map f).prod := by
  rcases h with ⟨n, hn⟩
  rw [← hn]
  rw [← rotate_mod]
  cases Nat.eq_zero_or_pos w.length with
  | inl hzero =>
    rw [hzero]
    rw [mod_zero]
    rw [length_eq_zero_iff.mp hzero]
    simp
  | inr hpos =>
    have hle := Nat.le_of_lt (mod_lt n hpos)
    rw [rotate_eq_drop_append_take hle]
    generalize n % w.length = m
    rw [isConj_iff]
    have hw : (w.map f).prod = ((w.take m).map f).prod * ((w.drop m).map f).prod := by
      rw [← prod_append]
      rw [← map_append]
      rw [take_append_drop]
    rw [hw]
    rw [map_append]
    rw [prod_append]
    refine ⟨((w.take m).map f).prod⁻¹, ?_⟩
    group

/-- `z` is `y` with a part of it exchanged by what a conjugate of `x` says it is equal to. -/
def IsExchange (x y z : G) : Prop :=
  ∃ a, IsConj (y * (a * x * a⁻¹)) z

variable {x y z : G}

theorem isExchange_of_isConj {u v r : G} (hx : IsConj x (u * v)) (hy : IsConj y (u * r))
    (hz : IsConj (v⁻¹ * r) z) : IsExchange x⁻¹ y z := by
  rw [isConj_iff] at hx hy
  rcases hx with ⟨b, hb⟩
  rcases hy with ⟨a, ha⟩
  refine ⟨a⁻¹ * b, ?_⟩
  apply IsConj.trans _ hz
  rw [isConj_iff]
  have hx' : x = b⁻¹ * (u * v) * b := by
    rw [← hb]
    group
  have hy' : y = a⁻¹ * (u * r) * a := by
    rw [← ha]
    group
  refine ⟨v⁻¹ * u⁻¹ * a, ?_⟩
  rw [hx', hy']
  group

theorem mem_iff_of_isConj (h : IsConj y z) {N : Subgroup G} (hN : N.Normal)
    : z ∈ N ↔ y ∈ N := by
  rw [isConj_iff] at h
  rcases h with ⟨a, ha⟩
  rw [← ha]
  constructor
  . intro hz
    have hy := hN.conj_mem _ hz a⁻¹
    rw [show a⁻¹ * (a * y * a⁻¹) * a⁻¹⁻¹ = y by group] at hy
    exact hy
  . intro hy
    apply hN.conj_mem y hy

theorem IsExchange.mem_iff (h : IsExchange x y z) {N : Subgroup G} (hN : N.Normal) (hx : x ∈ N)
    : z ∈ N ↔ y ∈ N := by
  rcases h with ⟨a, ha⟩
  rw [mem_iff_of_isConj ha hN]
  have hconj := hN.conj_mem x hx a
  rw [Subgroup.mul_mem_cancel_right N hconj]

theorem normalClosure_exchange {R : Set G} (h : IsExchange x y z)
    (hx : x ∈ Subgroup.normalClosure R)
    : Subgroup.normalClosure (insert z R) = Subgroup.normalClosure (insert y R) := by
  have hsub : ∀ a, Subgroup.normalClosure R ≤ Subgroup.normalClosure (insert a R) := by
    intro a
    apply Subgroup.normalClosure_mono
    apply Set.subset_insert
  apply le_antisymm
  . apply Subgroup.normalClosure_le_normal
    rw [Set.insert_subset_iff]
    constructor
    . rw [SetLike.mem_coe]
      rw [h.mem_iff Subgroup.normalClosure_normal (hsub y hx)]
      apply Subgroup.subset_normalClosure
      apply Set.mem_insert
    . apply Set.Subset.trans Subgroup.subset_normalClosure
      apply hsub
  . apply Subgroup.normalClosure_le_normal
    rw [Set.insert_subset_iff]
    constructor
    . rw [SetLike.mem_coe]
      rw [← h.mem_iff Subgroup.normalClosure_normal (hsub z hx)]
      apply Subgroup.subset_normalClosure
      apply Set.mem_insert
    . apply Set.Subset.trans Subgroup.subset_normalClosure
      apply hsub

end Group

end CyclicWord

namespace LastRotation

variable {α : Type*} [LinearOrder α] {u v : List α}

theorem compares_cons {o : Ordering} {l r : List α} (a : α) (h : o.Compares l r)
    : o.Compares (a :: l) (a :: r) := by
  cases o with
  | lt => exact List.Lex.cons h
  | eq => exact congrArg (a :: ·) h
  | gt => exact List.Lex.cons h

theorem compares_head {o : Ordering} {a b : α} (h : o.Compares a b) (hne : o ≠ .eq) (l r : List α)
    : o.Compares (a :: l) (b :: r) := by
  cases o with
  | lt => exact List.Lex.rel h
  | eq => exact absurd rfl hne
  | gt => exact List.Lex.rel h

omit [LinearOrder α] in
theorem rotate_eq_cons {m : Nat} (hm : m < v.length)
    : v.rotate m = v[m] :: (v.drop (m + 1) ++ v.take m) := by
  rw [rotate_eq_drop_append_take (Nat.le_of_lt hm), drop_eq_getElem_cons hm,
    cons_append]

theorem rotate_lt_rotate {m n : Nat} (hm : m < u.length) (hn : n < v.length) (h : u[m] < v[n])
    : u.rotate m < v.rotate n := by
  rw [rotate_eq_cons hm, rotate_eq_cons hn]
  exact List.Lex.rel h

omit [LinearOrder α] in
theorem rotate_add_of_eq {s t : Nat} (h : v.rotate s = v.rotate t) (x : Nat)
    : v.rotate (s + x) = v.rotate (t + x) := by
  rw [← rotate_rotate, h, rotate_rotate]

theorem le_of_period {c r k : Nat} (hr : r < k)
    (hbest : ∀ t, t < k → v.rotate (c + t) ≤ v.rotate (c + r))
    (heq : v.rotate (c + k) = v.rotate (c + r)) (t : Nat)
    : v.rotate (c + t) ≤ v.rotate (c + r) := by
  induction t using Nat.strong_induction_on with
  | h t ih =>
    by_cases ht : t < k
    . exact hbest t ht
    . have hback := rotate_add_of_eq heq (t - k)
      rw [show c + k + (t - k) = c + t by omega] at hback
      rw [hback, Nat.add_assoc]
      apply ih
      omega

def IsLast (v : List α) (i : Nat) : Prop :=
  i < v.length ∧ ∀ m, m < v.length → v.rotate m ≤ v.rotate i

theorem isLast_of_first {c r len : Nat} (hlen : c + len + 1 = v.length) (hr : r ≤ len)
    (hfirst : ∀ m (hm : m < c), v[m] < v[c])
    (hbest : ∀ t, t ≤ len → v.rotate (c + t) ≤ v.rotate (c + r)) : IsLast v (c + r) := by
  refine ⟨by omega, fun m hm => ?_⟩
  by_cases hlt : m < c
  . have hc := hbest 0 (Nat.zero_le len)
    rw [Nat.add_zero] at hc
    exact le_trans (le_of_lt (rotate_lt_rotate hm (by omega) (hfirst m hlt))) hc
  . have ht := hbest (m - c) (by omega)
    rw [Nat.add_sub_cancel' (Nat.le_of_not_lt hlt)] at ht
    exact ht

variable {i : Nat}

theorem IsLast.le (h : IsLast v i) {x : List α} (hx : x ~r v) : x ≤ v.rotate i := by
  obtain ⟨m, hm⟩ := hx.symm
  rw [← hm, ← rotate_mod]
  exact h.2 _ (mod_lt m (Nat.lt_of_le_of_lt (Nat.zero_le i) h.1))

theorem IsLast.le_of_letter {n : Nat} (h : IsLast v i) (hn : n < v.length)
    (hletter : ∀ m (hm : m < u.length), u[m] < v[n]) (hu : u ≠ []) {x : List α} (hx : x ~r u)
    : x ≤ v.rotate i := by
  obtain ⟨m, hm⟩ := hx.symm
  have hlt := mod_lt m (length_pos_iff.mpr hu)
  rw [← hm, ← rotate_mod]
  exact le_trans (le_of_lt (rotate_lt_rotate hlt hn (hletter _ hlt))) (h.2 n hn)

theorem isGreatest_of_isLast {w : List α} (h : IsLast v i) (hother : ∀ x, x ~r w → x ≤ v.rotate i)
    : IsGreatest {x | x ~r v ∨ x ~r w} (v.rotate i) := by
  constructor
  . exact Or.inl (List.IsRotated.symm ⟨i, rfl⟩)
  . rintro x (hx | hx)
    . exact h.le hx
    . exact hother x hx

end LastRotation

namespace FreeGroup

variable {α : Type*} {L L1 L2 G : List (α × Bool)} {x : α × Bool}

theorem IsCyclicallyReduced.cons_to_concat (h : IsCyclicallyReduced (x :: L))
    : IsCyclicallyReduced (L ++ [x]) := by
  cases L with
  | nil => exact h
  | cons y L =>
    obtain ⟨hred, hends⟩ := h
    constructor
    . unfold IsReduced
      rw [isChain_append]
      refine ⟨(isReduced_cons_cons.mp hred).2, isChain_singleton x, ?_⟩
      rw [getLast?_cons_cons] at hends
      exact hends
    . intro a ha b hb
      rw [getLast?_concat] at ha
      cases ha
      cases hb
      exact (isReduced_cons_cons.mp hred).1

theorem IsCyclicallyReduced.concat_to_cons (h : IsCyclicallyReduced (L ++ [x]))
    : IsCyclicallyReduced (x :: L) := by
  cases L with
  | nil => exact h
  | cons y L =>
    obtain ⟨hred, hends⟩ := h
    unfold IsReduced at hred
    rw [isChain_append] at hred
    constructor
    . apply isReduced_cons_cons.mpr
      refine ⟨?_, hred.1⟩
      apply hends
      . rw [getLast?_concat]
        rfl
      . rfl
    . rw [getLast?_cons_cons]
      intro a ha b hb
      cases hb
      exact hred.2.2 a ha x rfl

theorem not_isCyclicallyReduced_conj (hne : G ≠ [])
    : ¬IsCyclicallyReduced (G ++ L ++ invRev G) := by
  intro h
  cases G with
  | nil => exact hne rfl
  | cons y G =>
    have hlast : ((y :: G) ++ L ++ invRev (y :: G)).getLast? = some (y.1, !y.2) := by
      rw [invRev_cons, ← append_assoc]
      exact getLast?_concat
    have hbad := h.2 (y.1, !y.2) hlast y rfl rfl
    exact Bool.not_ne_self y.2 hbad

theorem mk_conj (G L : List (α × Bool)) : mk (G ++ L ++ invRev G) = mk G * mk L * (mk G)⁻¹ := by
  rw [← mul_mk, ← mul_mk, inv_mk]

theorem mk_cons (x : α × Bool) (L : List (α × Bool)) : mk (x :: L) = mk [x] * mk L := by
  rw [mul_mk, singleton_append]

theorem mk_inv (x : α × Bool) : mk [(x.1, !x.2)] = (mk [x])⁻¹ := by
  rw [inv_mk]
  rfl

theorem eq_of_isReduced [DecidableEq α] (h1 : IsReduced L1) (h2 : IsReduced L2)
    (h : mk L1 = mk L2) : L1 = L2 := by
  rw [← h1.reduce_eq, ← h2.reduce_eq]
  exact reduce.sound h

variable [DecidableEq α] (h1 : IsCyclicallyReduced L1) (h2 : IsCyclicallyReduced L2)

include h1 h2

theorem isRotated_of_conj (hG : IsReduced G) (h : mk G * mk L1 * (mk G)⁻¹ = mk L2)
    : L1 ~r L2 := by
  induction G using List.reverseRecOn generalizing L1 with
  | nil =>
    rw [← one_eq_mk, one_mul, inv_one, mul_one] at h
    rw [eq_of_isReduced h1.1 h2.1 h]
  | append_singleton G x ih =>
    have hG' : IsReduced G := (isChain_append.mp hG).1
    -- One letter of the conjugator is moved to the other end of the word, if it cancels.
    rw [← mul_mk] at h
    by_cases hhead : L1.head? = some (x.1, !x.2)
    . obtain ⟨t, rfl⟩ : ∃ t, L1 = (x.1, !x.2) :: t := by
        cases L1 with
        | nil => cases hhead
        | cons y t =>
          cases hhead
          exact ⟨t, rfl⟩
      have hrot : ((x.1, !x.2) :: t) ~r (t ++ [(x.1, !x.2)]) := ⟨1, by simp⟩
      apply hrot.trans
      apply ih h1.cons_to_concat hG'
      rw [← h, ← mul_mk, mk_cons _ t, mk_inv]
      group
    . by_cases hlast : L1.getLast? = some x
      . obtain ⟨t, rfl⟩ : ∃ t, L1 = t ++ [x] := by
          rcases eq_nil_or_concat L1 with rfl | ⟨t, y, rfl⟩
          . cases hlast
          . rw [concat_eq_append, getLast?_concat] at hlast
            cases hlast
            exact ⟨t, concat_eq_append⟩
        have hrot : (t ++ [x]) ~r (x :: t) := List.IsRotated.symm ⟨1, by simp⟩
        apply hrot.trans
        apply ih h1.concat_to_cons hG'
        rw [← h, ← mul_mk, mk_cons x t]
        group
      . by_cases hnil : L1 = []
        . subst hnil
          rw [← one_eq_mk, mul_one, mul_inv_cancel, one_eq_mk] at h
          rw [eq_of_isReduced IsReduced.nil h2.1 h]
        . -- Otherwise the conjugate is reduced.
          have hleft : IsReduced (G ++ [x] ++ L1) := by
            apply isChain_append.mpr
            refine ⟨hG, h1.1, ?_⟩
            intro a ha b hb heq
            rw [getLast?_concat] at ha
            cases ha
            by_contra hne
            apply hhead
            rw [hb]
            exact congrArg some (Prod.ext heq.symm (Bool.eq_not.mpr (Ne.symm hne)))
          have hright : IsReduced (L1 ++ invRev (G ++ [x])) := by
            rw [invRev_append]
            apply isChain_append.mpr
            refine ⟨h1.1, ?_, ?_⟩
            . rw [← invRev_append]
              apply IsReduced.of_reduce_eq
              rw [reduce_invRev, hG.reduce_eq]
            . intro a ha b hb heq
              cases hb
              by_contra hne
              apply hlast
              rw [ha]
              exact congrArg some (Prod.ext heq (by simpa using hne))
          have hred : IsReduced (G ++ [x] ++ L1 ++ invRev (G ++ [x])) :=
            hleft.append_overlap hright hnil
          have heq : G ++ [x] ++ L1 ++ invRev (G ++ [x]) = L2 := by
            apply eq_of_isReduced hred h2.1
            rw [mk_conj, ← mul_mk, h]
          rw [← heq] at h2
          exact absurd h2 (not_isCyclicallyReduced_conj (by simp))

theorem isRotated_of_isConj (h : IsConj (mk L1) (mk L2)) : L1 ~r L2 := by
  obtain ⟨g, hg⟩ := isConj_iff.mp h
  apply isRotated_of_conj h1 h2 (isReduced_toWord (x := g))
  rw [mk_toWord]
  exact hg

end FreeGroup
