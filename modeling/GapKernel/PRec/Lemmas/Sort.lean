import GapKernel.PRec.Impl
import GapKernel.AssocList

open List

namespace IntSize

variable {w : IntSize}

theorem asUInt_of_nonneg {x : Int} (h0 : 0 ≤ x) (hlt : x.natAbs < 2 ^ (w.bits - 1))
    : w.asUInt x = x.natAbs := by
  unfold asUInt
  cases w with
  | int4 =>
    simp only [bits] at *
    omega
  | int8 =>
    simp only [bits] at *
    omega

theorem asUInt_of_neg {x : Int} (h0 : x < 0) (hlt : x.natAbs < 2 ^ (w.bits - 1))
    : w.asUInt x = 2 ^ w.bits - x.natAbs := by
  unfold asUInt
  cases w with
  | int4 =>
    simp only [bits] at *
    omega
  | int8 =>
    simp only [bits] at *
    omega

theorem lt_two_pow_bits {n : Nat} (h : n < 2 ^ (w.bits - 1)) : 2 * n < 2 ^ w.bits := by
  cases w with
  | int4 =>
    simp only [bits] at *
    omega
  | int8 =>
    simp only [bits] at *
    omega

end IntSize

namespace PRec

variable {V : Type} {w : IntSize} {rec : PRec V}

def bindings (rec : PRec V) : List (Nat × V) :=
  rec.entries.map (fun entry => (entry.1.natAbs, entry.2))

structure Parts (part tail : List (Int × V)) : Prop where
  neg : ∀ entry ∈ part, entry.1 < 0
  pos : ∀ entry ∈ tail, 0 < entry.1
  sorted : part.Pairwise (fun a b => -a.1 < -b.1)

structure Wf (w : IntSize) (rec : PRec V) : Prop where
  parts : ∃ part tail, rec.entries = part ++ tail ∧ Parts part tail
  nodup : (rec.bindings.map Prod.fst).Nodup
  bound : ∀ entry ∈ rec.entries, entry.1.natAbs < 2 ^ (w.bits - 1)

structure Clean (w : IntSize) (rec : PRec V) : Prop where
  wf : rec.Wf w
  parts : Parts rec.entries []

theorem bindings_fst (rec : PRec V)
    : rec.bindings.map Prod.fst = rec.entries.map (fun entry => entry.1.natAbs) := by
  unfold bindings
  rw [map_map]
  rfl

section

variable (part tail : List (Int × V)) {entry : Int × V} (h : rec.entries = part ++ entry :: tail)

include part tail h

theorem getRNam_append_cons
    : rec.getRNam (part.length + 1) = .ok entry.1 := by
  unfold getRNam
  rw [h, elmPlist_append_cons]
  rfl

theorem getElm_append_cons
    : rec.getElm (part.length + 1) = .ok entry.2 := by
  unfold getElm
  rw [h, elmPlist_append_cons]
  rfl

end

variable {part : List (Int × V)}

theorem unsortedPart_spec (hpart : ∀ entry ∈ part, entry.1 < 0) {u : List (Int × V)}
    (hu : ∀ entry ∈ u, 0 < entry.1)
    : ∀ (next : Int × V) (rest : List (Int × V)) (issorted : Bool),
      rec.entries = part ++ u ++ next :: rest → next :: rest ≠ []
      → ∃ b, rec.unsortedPart (part.length + u.length) issorted = .ok (part.length, b)
        ∧ (b = true → issorted = true ∧ (u ++ [next]).IsChain (fun a b => a.1 ≤ b.1)) := by
  induction u using reverseRecOn with
  | nil =>
    intro next rest issorted h _
    cases part using reverseRecOn with
    | nil => exact ⟨issorted, rfl, fun hb => ⟨hb, by simp⟩⟩
    | append_singleton part entry =>
      have hneg := hpart entry (by simp)
      have hget : rec.getRNam (part.length + 1) = .ok entry.1 := by
        apply getRNam_append_cons part (next :: rest)
        rw [h]
        simp
      have hlen : (part ++ [entry]).length + ([] : List (Int × V)).length = part.length + 1 := by
        simp
      have hlen' : (part ++ [entry]).length = part.length + 1 := by
        simp
      rw [hlen, hlen']
      unfold unsortedPart
      rw [hget, ok_bind]
      rw [if_neg (by omega)]
      exact ⟨issorted, rfl, fun hb => ⟨hb, by simp⟩⟩
  | append_singleton u cur ih =>
    intro next rest issorted h _
    have hcur := hu cur (by simp)
    have hget : rec.getRNam (part.length + u.length + 1) = .ok cur.1 := by
      rw [← length_append]
      apply getRNam_append_cons (part ++ u) (next :: rest)
      rw [h]
      simp
    have hget' : rec.getRNam (part.length + u.length + 2) = .ok next.1 := by
      have hpos : part.length + u.length + 2 = (part ++ (u ++ [cur])).length + 1 := by
        simp
        omega
      rw [hpos]
      apply getRNam_append_cons (part ++ (u ++ [cur])) rest
      rw [h]
    have hlen : part.length + (u ++ [cur]).length = part.length + u.length + 1 := by
      simp
      omega
    rw [hlen]
    unfold unsortedPart
    rw [hget, ok_bind]
    rw [if_pos hcur]
    rw [hget', ok_bind]
    obtain ⟨b, hrun, hb⟩ := ih (fun entry he => hu entry (by simp [he])) cur (next :: rest)
      (issorted && !decide (next.1 < cur.1)) (by rw [h]; simp) (by simp)
    refine ⟨b, hrun, ?_⟩
    intro hbt
    have := hb hbt
    simp at this
    apply And.intro this.1.1
    rw [isChain_append]
    refine ⟨this.2, by simp, ?_⟩
    intro x hx y hy
    simp at hx hy
    rw [← hx, ← hy]
    exact this.1.2

theorem negate_fst (entry : Int × V) : (negate entry).1 = -entry.1 :=
  rfl

theorem mergeParts_perm (part tail : List (Int × V))
    : (mergeParts part tail).Perm (part ++ tail.map negate) := by
  induction part, tail using mergeParts.induct with
  | case1 tail =>
    unfold mergeParts
    simp
  | case2 entry part =>
    unfold mergeParts
    simp
  | case3 entry part next tail h ih =>
    unfold mergeParts
    rw [if_pos h]
    exact ih.cons entry
  | case4 entry part next tail h ih =>
    unfold mergeParts
    rw [if_neg h]
    apply (ih.cons (negate next)).trans
    rw [map_cons]
    exact perm_middle.symm

theorem mergeParts_sorted {tail : List (Int × V)} (hpart : part.Pairwise (fun a b => -a.1 < -b.1))
    (htail : tail.Pairwise (fun a b => a.1 < b.1)) (hne : ∀ a ∈ part, ∀ b ∈ tail, -a.1 ≠ b.1)
    : (mergeParts part tail).Pairwise (fun a b => -a.1 < -b.1) := by
  induction part, tail using mergeParts.induct with
  | case1 tail =>
    unfold mergeParts
    rw [pairwise_map]
    apply htail.imp
    intro a b hab
    rw [negate_fst, negate_fst]
    omega
  | case2 entry part =>
    unfold mergeParts
    exact hpart
  | case3 entry part next tail h ih =>
    rw [pairwise_cons] at hpart
    have htail' := pairwise_cons.mp htail
    unfold mergeParts
    rw [if_pos h]
    rw [pairwise_cons]
    constructor
    . intro x hx
      rw [(mergeParts_perm part (next :: tail)).mem_iff, mem_append, mem_map] at hx
      cases hx with
      | inl hx => exact hpart.1 x hx
      | inr hx =>
        obtain ⟨y, hy, rfl⟩ := hx
        rw [negate_fst]
        rw [mem_cons] at hy
        cases hy with
        | inl hy =>
          rw [hy]
          omega
        | inr hy =>
          have := htail'.1 y hy
          omega
    . apply ih hpart.2 htail
      intro a ha b hb
      exact hne a (by simp [ha]) b hb
  | case4 entry part next tail h ih =>
    have hpart' := pairwise_cons.mp hpart
    rw [pairwise_cons] at htail
    have hgt : next.1 < -entry.1 := by
      have := hne entry (by simp) next (by simp)
      omega
    unfold mergeParts
    rw [if_neg h]
    rw [pairwise_cons]
    constructor
    . intro x hx
      rw [(mergeParts_perm (entry :: part) tail).mem_iff, mem_append, mem_map] at hx
      rw [negate_fst]
      cases hx with
      | inl hx =>
        rw [mem_cons] at hx
        cases hx with
        | inl hx =>
          rw [hx]
          omega
        | inr hx =>
          have := hpart'.1 x hx
          omega
      | inr hx =>
        obtain ⟨y, hy, rfl⟩ := hx
        have := htail.1 y hy
        rw [negate_fst]
        omega
    . apply ih hpart htail.2
      intro a ha b hb
      exact hne a ha b (by simp [hb])

theorem bindings_negate (tail : List (Int × V))
    : (tail.map negate).map (fun entry => (entry.1.natAbs, entry.2))
        = tail.map (fun entry => (entry.1.natAbs, entry.2)) := by
  rw [map_map]
  apply map_congr_left
  intro entry _
  rw [Function.comp_apply, negate_fst, Int.natAbs_neg]
  rfl

structure SortedFrom (w : IntSize) (rec rec' : PRec V) : Prop where
  immutable : rec'.immutable = rec.immutable
  clean : rec'.Clean w
  perm : rec'.bindings.Perm rec.bindings

theorem SortedFrom.of_pairwise (h : rec.Wf w) {entries : List (Int × V)}
    (hneg : ∀ entry ∈ entries, entry.1 < 0) (hsorted : entries.Pairwise (fun a b => -a.1 < -b.1))
    (hperm : (entries.map (fun entry => (entry.1.natAbs, entry.2))).Perm rec.bindings)
    : SortedFrom w rec { rec with entries := entries } := by
  have hparts : Parts entries [] := by
    constructor
    . exact hneg
    . simp
    . exact hsorted
  have hnodup := (hperm.map Prod.fst).nodup_iff.mpr h.nodup
  constructor
  . rfl
  . constructor
    . constructor
      . exact ⟨entries, [], by simp, hparts⟩
      . exact hnodup
      . intro entry hentry
        have hmem : (entry.1.natAbs, entry.2) ∈ rec.bindings := by
          apply hperm.mem_iff.mp
          exact mem_map.mpr ⟨entry, hentry, rfl⟩
        unfold bindings at hmem
        rw [mem_map] at hmem
        obtain ⟨entry', hentry', heq⟩ := hmem
        rw [Prod.mk.injEq] at heq
        rw [← heq.1]
        exact h.bound entry' hentry'
    . exact hparts
  . exact hperm

theorem precComparer_le_iff {a b : Int × V} (ha : 0 < a.1 ∧ a.1.natAbs < 2 ^ (w.bits - 1))
    (hb : 0 < b.1 ∧ b.1.natAbs < 2 ^ (w.bits - 1))
    : precComparer w a b ≤ 0 ↔ a.1 ≤ b.1 := by
  unfold precComparer
  rw [IntSize.asUInt_of_nonneg (by omega) ha.2, IntSize.asUInt_of_nonneg (by omega) hb.2]
  split
  . omega
  . split
    . omega
    . omega

theorem precComparer_trans (a b x : Int × V) (hab : decide (precComparer w a b ≤ 0) = true)
    (hbx : decide (precComparer w b x ≤ 0) = true) : decide (precComparer w a x ≤ 0) = true := by
  unfold precComparer at *
  grind

theorem precComparer_total (a b : Int × V)
    : (decide (precComparer w a b ≤ 0) || decide (precComparer w b a ≤ 0)) = true := by
  unfold precComparer
  grind

theorem sortTail_spec {u : List (Int × V)} {next : Int × V} {b : Bool} {n : Nat}
    (hpos : ∀ entry ∈ u ++ [next], 0 < entry.1 ∧ entry.1.natAbs < 2 ^ (w.bits - 1))
    (hnodup : ((u ++ [next]).map (fun entry => entry.1.natAbs)).Nodup)
    (hb : b = true → (u ++ [next]).IsChain (fun a b => a.1 ≤ b.1)) (hn : n = u.length + 1)
    : (if ¬b ∧ n > 1 then
        (u ++ [next]).mergeSort (fun a b => precComparer w a b ≤ 0)
      else
        u ++ [next]).Perm (u ++ [next])
      ∧ (if ¬b ∧ n > 1 then
          (u ++ [next]).mergeSort (fun a b => precComparer w a b ≤ 0)
        else
          u ++ [next]).Pairwise (fun a b => a.1 < b.1) := by
  have hstrict : ∀ l : List (Int × V), l.Perm (u ++ [next]) → l.Pairwise (fun a b => a.1 ≤ b.1)
      → l.Pairwise (fun a b => a.1 < b.1) := by
    intro l hp hle
    have hd : l.Pairwise (fun a b => a.1.natAbs ≠ b.1.natAbs) := by
      have := (hp.map (fun entry => entry.1.natAbs)).nodup_iff.mpr hnodup
      rw [Nodup, pairwise_map] at this
      exact this
    apply (pairwise_and_iff.mpr ⟨hle, hd⟩).imp
    intro a b hab
    have hne : a.1 ≠ b.1 := by
      intro heq
      rw [heq] at hab
      exact hab.2 rfl
    omega
  split
  . have hp := mergeSort_perm (u ++ [next]) (fun a b => decide (precComparer w a b ≤ 0))
    apply And.intro hp
    apply hstrict _ hp
    have hsorted : ((u ++ [next]).mergeSort (fun a b => decide (precComparer w a b ≤ 0))).Pairwise
        (fun a b => decide (precComparer w a b ≤ 0) = true) := by
      apply pairwise_mergeSort
      . exact precComparer_trans
      . exact precComparer_total
    apply hsorted.imp_of_mem
    intro a b ha hb hab
    rw [decide_eq_true_eq] at hab
    rw [precComparer_le_iff (hpos a (hp.mem_iff.mp ha)) (hpos b (hp.mem_iff.mp hb))] at hab
    exact hab
  . next hcond =>
    apply And.intro (List.Perm.refl _)
    apply hstrict _ (List.Perm.refl _)
    cases b with
    | true =>
      have := hb rfl
      rw [isChain_iff_pairwise] at this
      exact this
    | false =>
      have : u = [] := by
        apply eq_nil_of_length_eq_zero
        simp at hcond
        omega
      rw [this]
      simp

theorem Wf.names_nodup (h : rec.Wf w) : (rec.entries.map (fun entry => entry.1.natAbs)).Nodup := by
  have := h.nodup
  rw [bindings_fst] at this
  exact this

theorem sortedFrom_of_parts (h : rec.Wf w) {tail tail' : List (Int × V)}
    (hrec : rec.entries = part ++ tail) (hparts : Parts part tail) (hperm : tail'.Perm tail)
    (hsorted : tail'.Pairwise (fun a b => a.1 < b.1))
    : SortedFrom w rec { rec with entries := mergeParts part tail' }
      ∧ ((∀ a ∈ part, ∀ b ∈ tail', -a.1 < b.1)
        → SortedFrom w rec { rec with entries := part ++ tail'.map negate }) := by
  have hb : ((part ++ tail'.map negate).map (fun entry => (entry.1.natAbs, entry.2))).Perm
      rec.bindings := by
    unfold bindings
    rw [hrec, map_append, map_append, bindings_negate]
    exact (hperm.map _).append_left _
  have hneg : ∀ entry ∈ part ++ tail'.map negate, entry.1 < 0 := by
    intro entry hentry
    rw [mem_append, mem_map] at hentry
    cases hentry with
    | inl hentry => exact hparts.neg entry hentry
    | inr hentry =>
      obtain ⟨next, hnext, rfl⟩ := hentry
      have := hparts.pos next (hperm.mem_iff.mp hnext)
      rw [negate_fst]
      omega
  have hne : ∀ a ∈ part, ∀ b ∈ tail', -a.1 ≠ b.1 := by
    intro a ha b hb heq
    have hnodup := h.names_nodup
    rw [hrec, map_append, nodup_append] at hnodup
    apply hnodup.2.2 a.1.natAbs (mem_map.mpr ⟨a, ha, rfl⟩) b.1.natAbs
      (mem_map.mpr ⟨b, hperm.mem_iff.mp hb, rfl⟩)
    omega
  have hmerge := mergeParts_perm part tail'
  constructor
  . apply SortedFrom.of_pairwise h
    . intro entry hentry
      exact hneg entry (hmerge.mem_iff.mp hentry)
    . exact mergeParts_sorted hparts.sorted hsorted hne
    . exact (hmerge.map _).trans hb
  . intro hlt
    apply SortedFrom.of_pairwise h hneg
    . rw [pairwise_append, pairwise_map]
      refine ⟨hparts.sorted, ?_, ?_⟩
      . apply hsorted.imp
        intro a b hab
        rw [negate_fst, negate_fst]
        omega
      . intro a ha b hb
        rw [mem_map] at hb
        obtain ⟨b, hb, rfl⟩ := hb
        have := hlt a ha b hb
        rw [negate_fst]
        omega
    . exact hb

theorem sortedFrom_self (h : rec.Wf w) (hrec : rec.entries = part) (hparts : Parts part [])
    : SortedFrom w rec rec := by
  constructor
  . rfl
  . constructor
    . exact h
    . rw [hrec]
      exact hparts
  . exact List.Perm.refl _

theorem lt_of_last {prev : Int × V} {x : Int}
    (hpart : (part ++ [prev]).Pairwise (fun a b => -a.1 < -b.1)) (hlt : -prev.1 < x)
    : ∀ a ∈ part ++ [prev], -a.1 < x := by
  intro a ha
  rw [pairwise_append] at hpart
  rw [mem_append, mem_singleton] at ha
  cases ha with
  | inl ha =>
    have := hpart.2.2 a ha prev (by simp)
    omega
  | inr ha =>
    rw [ha]
    exact hlt

theorem sortPRecRNam_spec (h : rec.Wf w)
    : ∃ rec', rec.sortPRecRNam w = .ok rec' ∧ SortedFrom w rec rec' := by
  obtain ⟨part, tail, hrec, hparts⟩ := h.parts
  unfold sortPRecRNam len
  cases eq_nil_or_concat tail with
  | inl htail =>
    subst htail
    rw [append_nil] at hrec
    have hself := sortedFrom_self h hrec hparts
    cases eq_nil_or_concat part with
    | inl hpart =>
      subst hpart
      rw [hrec]
      exact ⟨rec, rfl, hself⟩
    | inr hpart =>
      obtain ⟨part, last, rfl⟩ := hpart
      rw [concat_eq_append] at hrec hparts
      have hget : rec.getRNam rec.entries.length = .ok last.1 := by
        have hlen : rec.entries.length = part.length + 1 := by
          rw [hrec]
          simp
        rw [hlen]
        exact getRNam_append_cons part [] hrec
      have hneg := hparts.neg last (by simp)
      rw [if_neg (by rw [hrec]; simp)]
      rw [hget, ok_bind]
      rw [if_pos hneg]
      exact ⟨rec, rfl, hself⟩
  | inr htail =>
    obtain ⟨u, next, rfl⟩ := htail
    rw [concat_eq_append] at hrec hparts
    have hlen : rec.entries.length = part.length + u.length + 1 := by
      rw [hrec]
      simp
      omega
    have hget : rec.getRNam rec.entries.length = .ok next.1 := by
      rw [hlen, ← length_append]
      apply getRNam_append_cons (part ++ u) []
      rw [hrec]
      simp
    have hpos := hparts.pos next (by simp)
    rw [if_neg (by omega)]
    rw [hget, ok_bind]
    rw [if_neg (by omega)]
    have hsub : rec.entries.length - 1 = part.length + u.length := by
      omega
    obtain ⟨b, hrun, hb⟩ := unsortedPart_spec hparts.neg (u := u)
      (fun entry he => hparts.pos entry (by simp [he])) next [] true (by rw [hrec]; simp) (by simp)
    rw [hsub, hrun, ok_bind]
    dsimp only
    rw [Nat.add_sub_cancel, hrec]
    rw [take_left, drop_left]
    have hbound : ∀ entry ∈ u ++ [next], 0 < entry.1 ∧ entry.1.natAbs < 2 ^ (w.bits - 1) := by
      intro entry hentry
      exact ⟨hparts.pos entry hentry, h.bound entry (by rw [hrec]; simp at hentry ⊢; tauto)⟩
    have hnodup : ((u ++ [next]).map (fun entry => entry.1.natAbs)).Nodup := by
      have := h.names_nodup
      rw [hrec, map_append, nodup_append] at this
      exact this.2.1
    have htail := sortTail_spec (n := (part ++ (u ++ [next])).length - (part.length + 1) + 1)
      hbound hnodup (fun ht => (hb ht).2) (by simp; omega)
    generalize (if ¬b ∧ (part ++ (u ++ [next])).length - (part.length + 1) + 1 > 1 then
        (u ++ [next]).mergeSort (fun a b => decide (precComparer w a b ≤ 0))
      else
        u ++ [next]) = tail' at htail ⊢
    obtain ⟨hmerge, hnegate⟩ := sortedFrom_of_parts h hrec hparts htail.1 htail.2
    cases eq_nil_or_concat part with
    | inl hpart =>
      subst hpart
      rw [if_pos (by simp)]
      exact ⟨_, rfl, hnegate (by simp)⟩
    | inr hpart =>
      obtain ⟨part, prev, rfl⟩ := hpart
      rw [concat_eq_append] at hrec hparts hmerge hnegate ⊢
      rw [if_neg (by simp)]
      cases tail' with
      | nil =>
        have := htail.1.length_eq
        simp at this
      | cons cur tail' =>
        have hprev : getRNam ⟨rec.immutable, part ++ [prev] ++ cur :: tail'⟩ (part ++ [prev]).length
            = .ok prev.1 := by
          rw [length_append, length_singleton]
          apply getRNam_append_cons part (cur :: tail')
          simp
        have hcur : getRNam ⟨rec.immutable, part ++ [prev] ++ cur :: tail'⟩
            ((part ++ [prev]).length + 1) = .ok cur.1 := by
          apply getRNam_append_cons (part ++ [prev]) tail'
          rfl
        rw [hprev, ok_bind, hcur, ok_bind]
        split
        . next hlt =>
          apply Exists.intro _
          apply And.intro rfl
          apply hnegate
          intro a ha b hb
          have hab := lt_of_last hparts.sorted hlt a ha
          rw [mem_cons] at hb
          cases hb with
          | inl hb =>
            rw [hb]
            exact hab
          | inr hb =>
            have := (pairwise_cons.mp htail.2).1 b hb
            omega
        . exact ⟨_, rfl, hmerge⟩

end PRec
