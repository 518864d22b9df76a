import GapKernel.CosetTable.Lemmas.Standardize
import Mathlib.Order.Interval.Finset.Nat
import Mathlib.Tactic.IntervalCases

open StandardOrder List Nat

namespace CosetTable

section Columns

variable {n : Nat} {σ : Equiv.Perm Nat} {stan : Int} {table table' : List (ColPair Nat)}

def columns (table : List (ColPair Nat)) : List (List Nat) :=
  table.flatMap fun p => [p.fst, p.snd]

def scanned (stan : Int) (table : List (ColPair Nat)) : List (List Nat) :=
  if stan = 1 then table.map ColPair.fst else columns table

def functions (cols : List (List Nat)) : List (Nat → Nat) :=
  cols.map fun g => entryPlist g

theorem columns_cons (p : ColPair Nat) (table : List (ColPair Nat))
    : columns (p :: table) = p.fst :: p.snd :: columns table := by
  unfold columns
  rw [flatMap_cons]
  rfl

theorem length_columns (table : List (ColPair Nat))
    : (columns table).length = table.length * 2 := by
  induction table with
  | nil => rfl
  | cons p table ih =>
    rw [columns_cons, length_cons, length_cons, length_cons, ih]
    omega

theorem getElem?_columns (table : List (ColPair Nat)) (j : Nat)
    : (columns table)[j]? = table[j / 2]?.map fun p => if j % 2 = 0 then p.fst else p.snd := by
  induction table generalizing j with
  | nil => rfl
  | cons p table ih =>
    rw [columns_cons]
    match j with
    | 0 => rfl
    | 1 => rfl
    | j + 2 =>
      rw [getElem?_cons_succ, getElem?_cons_succ, ih, add_div_right j (by omega),
        getElem?_cons_succ, add_mod_right]

theorem columnAt_of_getElem? {k : Nat} {p : ColPair Nat} (h : table[(k - 1) / 2]? = some p)
    (hk : 0 < k) : columnAt table k = .ok (if k % 2 = 1 then p.fst else p.snd) := by
  unfold columnAt
  rw [show (k + 1) / 2 = (k - 1) / 2 + 1 by omega, elmPlist_of_getElem? h]
  rfl

def nrLoop (stan : Int) (nrgen : Nat) : Nat :=
  if stan = 1 then nrgen else nrgen * 2

theorem length_scanned (stan : Int) (table : List (ColPair Nat))
    : (scanned stan table).length = nrLoop stan table.length := by
  unfold scanned nrLoop
  split
  . rw [length_map]
  . rw [length_columns]

variable {g : List Nat}

theorem columnAt_scanned {j : Nat} (h : (scanned stan table)[j]? = some g)
    : columnAt table (if nrLoop stan table.length = table.length then 2 * (j + 1) - 1 else j + 1)
        = .ok g := by
  have hlt : j < nrLoop stan table.length := by
    rw [← length_scanned]
    exact (List.getElem?_eq_some_iff.mp h).1
  unfold scanned at h
  unfold nrLoop at hlt ⊢
  by_cases hstan : stan = 1
  . rw [if_pos hstan] at h hlt ⊢
    rw [getElem?_map, Option.map_eq_some_iff] at h
    obtain ⟨p, hp, rfl⟩ := h
    rw [if_pos rfl, columnAt_of_getElem? (p := p) _ (by omega), if_pos (by omega)]
    rw [show (2 * (j + 1) - 1 - 1) / 2 = j by omega]
    exact hp
  . rw [if_neg hstan] at h hlt ⊢
    rw [getElem?_columns, Option.map_eq_some_iff] at h
    obtain ⟨p, hp, rfl⟩ := h
    rw [if_neg (by omega), columnAt_of_getElem? (p := p) hp (by omega)]
    by_cases heven : j % 2 = 0
    . rw [if_pos heven, if_pos (by omega)]
    . rw [if_neg heven, if_neg (by omega)]

theorem forall₂_columns {R : List Nat → List Nat → Prop}
    (h : Forall₂ (fun p p' => R p.fst p'.fst ∧ R p.snd p'.snd) table table')
    : Forall₂ R (columns table) (columns table')
        ∧ Forall₂ R (table.map ColPair.fst) (table'.map ColPair.fst) := by
  induction h with
  | nil => exact ⟨List.Forall₂.nil, List.Forall₂.nil⟩
  | cons hd _ ih =>
    rw [columns_cons, columns_cons]
    exact ⟨.cons hd.1 (.cons hd.2 ih.1), .cons hd.1 ih.2⟩

theorem IsRenumbering.columns (h : IsRenumbering n σ table table')
    : Forall₂ (IsRenumbered n σ) (columns table) (columns table')
        ∧ Forall₂ (IsRenumbered n σ) (table.map ColPair.fst) (table'.map ColPair.fst) :=
  forall₂_columns (h.pairs.imp fun _ _ hp => ⟨hp.fst, hp.snd⟩)

theorem IsRenumbering.intertwines (h : IsRenumbering n σ table table')
    : Intertwines n σ (functions (scanned stan table)) (functions (scanned stan table')) := by
  unfold Intertwines functions
  rw [forall₂_map_left_iff, forall₂_map_right_iff]
  unfold scanned
  split
  . exact h.columns.2
  . exact h.columns.1

theorem mem_scanned (hg : g ∈ scanned stan table) : g ∈ columns table := by
  unfold scanned at hg
  split at hg
  . obtain ⟨p, hp, rfl⟩ := mem_map.mp hg
    exact mem_flatMap.mpr ⟨p, hp, mem_cons_self⟩
  . exact hg

theorem IsTable.range (h : IsTable n table) (hg : g ∈ columns table) {c : Nat} (h0 : 0 < c)
    (hc : c ≤ n) : 0 < entryPlist g c ∧ entryPlist g c ≤ n := by
  obtain ⟨p, hp, hmem⟩ := mem_flatMap.mp hg
  rw [mem_cons, mem_singleton] at hmem
  rcases hmem with rfl | rfl
  . exact (h p hp).range_left c h0 hc
  . exact (h p hp).range_right c h0 hc

theorem IsTable.length_column (h : IsTable n table) (hg : g ∈ columns table)
    : g.length = n := by
  obtain ⟨p, hp, hmem⟩ := mem_flatMap.mp hg
  rw [mem_cons, mem_singleton] at hmem
  rcases hmem with rfl | rfl
  . exact (h p hp).length_left
  . exact (h p hp).length_right

end Columns

section Transitive

variable {n : Nat} {σ : Equiv.Perm Nat} {stan : Int} {table table' : List (ColPair Nat)}

def IsTransitive (n : Nat) (table : List (ColPair Nat)) : Prop :=
  ∀ c, 0 < c → c ≤ n
    → Relation.ReflTransGen (fun a b => ∃ g ∈ columns table, entryPlist g a = b) 1 c

theorem exists_of_forall₂ {β γ : Type} {R : β → γ → Prop} {l : List β} {l' : List γ}
    (h : Forall₂ R l l') {a : β} (ha : a ∈ l) : ∃ b ∈ l', R a b := by
  induction h with
  | nil => cases ha
  | cons hd _ ih =>
    rcases mem_cons.mp ha with rfl | ha
    . exact ⟨_, mem_cons_self, hd⟩
    . obtain ⟨b, hb, hab⟩ := ih ha
      exact ⟨b, mem_cons_of_mem _ hb, hab⟩

theorem IsTransitive.of_isRenumbering (h : IsTransitive n table) (htable : IsTable n table)
    (hn : 0 < n) (hren : IsRenumbering n σ table table') : IsTransitive n table' := by
  have hpath {c : Nat}
      (hc : Relation.ReflTransGen (fun a b => ∃ g ∈ columns table, entryPlist g a = b) 1 c)
      : (0 < c ∧ c ≤ n)
        ∧ Relation.ReflTransGen (fun a b => ∃ g ∈ columns table', entryPlist g a = b) 1 (σ c) := by
    induction hc with
    | refl =>
      rw [hren.one]
      exact ⟨⟨Nat.zero_lt_one, hn⟩, .refl⟩
    | @tail a b _ hstep ih =>
      obtain ⟨g, hg, rfl⟩ := hstep
      obtain ⟨g', hg', hgg⟩ := exists_of_forall₂ hren.columns.1 hg
      exact ⟨htable.range hg ih.1.1 ih.1.2, ih.2.tail ⟨g', hg', hgg a ih.1.1 ih.1.2⟩⟩
  intro c h0 hc
  have hb := (hren.range (σ.symm c)).mpr (by rw [Equiv.apply_symm_apply]; exact ⟨h0, hc⟩)
  have hp := (hpath (h _ hb.1 hb.2)).2
  rw [Equiv.apply_symm_apply] at hp
  exact hp

theorem IsInverse.closed {h i : List Nat} (hi : IsInverse n h i) {m : Nat} (hm : m ≤ n)
    (hclosed : ∀ c, 0 < c → c ≤ m → entryPlist h c ≤ m) {c : Nat} (h0 : 0 < c) (hc : c ≤ m)
    : entryPlist i c ≤ m := by
  have hmaps : Set.MapsTo (entryPlist h) (Finset.Icc 1 m) (Finset.Icc 1 m) := by
    intro x hx
    rw [Finset.mem_coe, Finset.mem_Icc] at hx ⊢
    exact ⟨(hi.range_left x hx.1 (by omega)).1, hclosed x hx.1 hx.2⟩
  have hinj : Set.InjOn (entryPlist h) (Finset.Icc 1 m) := by
    intro x hx y hy heq
    rw [Finset.mem_coe, Finset.mem_Icc] at hx hy
    rw [← hi.right_left x hx.1 (by omega), heq, hi.right_left y hy.1 (by omega)]
  have hsurj := Finset.surjOn_of_injOn_of_card_le _ hmaps hinj (Nat.le_refl _)
  obtain ⟨b, hb, rfl⟩ := hsurj (Finset.mem_coe.mpr (Finset.mem_Icc.mpr ⟨h0, hc⟩))
  rw [Finset.mem_coe, Finset.mem_Icc] at hb
  rw [hi.right_left b hb.1 (by omega)]
  exact hb.2

theorem leavesSegments (htable : IsTable n table) (h : IsTransitive n table)
    : LeavesSegments n (functions (scanned stan table)) := by
  intro m h0 hm
  by_contra hnot
  have hscanned (g : List Nat) (hg : g ∈ scanned stan table) (c : Nat) (hc0 : 0 < c) (hc : c ≤ m)
      : entryPlist g c ≤ m := by
    by_contra hlt
    exact hnot ⟨c, hc0, hc, entryPlist g, mem_map.mpr ⟨g, hg, rfl⟩, Nat.lt_of_not_le hlt⟩
  have hclosed (g : List Nat) (hg : g ∈ columns table) (c : Nat) (hc0 : 0 < c) (hc : c ≤ m)
      : entryPlist g c ≤ m := by
    obtain ⟨p, hp, hmem⟩ := mem_flatMap.mp hg
    have hfst : p.fst ∈ scanned stan table := by
      unfold scanned
      split
      . exact mem_map.mpr ⟨p, hp, rfl⟩
      . exact mem_flatMap.mpr ⟨p, hp, mem_cons_self⟩
    rw [mem_cons, mem_singleton] at hmem
    rcases hmem with rfl | rfl
    . exact hscanned _ hfst c hc0 hc
    . exact (htable p hp).closed (by omega) (fun c => hscanned _ hfst c) hc0 hc
  have hreach {c : Nat}
      (hc : Relation.ReflTransGen (fun a b => ∃ g ∈ columns table, entryPlist g a = b) 1 c)
      : 0 < c ∧ c ≤ m := by
    induction hc with
    | refl => exact ⟨Nat.zero_lt_one, h0⟩
    | @tail a b _ hstep ih =>
      obtain ⟨g, hg, rfl⟩ := hstep
      exact ⟨(htable.range hg ih.1 (by omega)).1, hclosed g hg a ih.1 ih.2⟩
  have hlast := hreach (h (m + 1) (succ_pos m) hm)
  omega

end Transitive

section Scan

variable {α : Type} {n acos : Nat} {σ τ : Equiv.Perm Nat} {stan : Int}
  {table table' : List (ColPair Nat)} {o : Option (List (ColPair α))} {s : StanState α}

def seenWord (stan : Int) (table : List (ColPair Nat)) (acos j : Nat) : List Nat :=
  scanWord (functions (scanned stan table)) (acos - 1)
    ++ ((scanned stan table).take j).map fun g => entryPlist g acos

theorem seenWord_zero (table : List (ColPair Nat)) (acos : Nat)
    : seenWord stan table (acos + 1) 0 = scanWord (functions (scanned stan table)) acos := by
  unfold seenWord
  rw [take_zero, map_nil, append_nil, Nat.add_sub_cancel]

variable {j : Nat}

theorem seenWord_succ {g : List Nat} (hg : (scanned stan table)[j]? = some g)
    : seenWord stan table acos (j + 1) = seenWord stan table acos j ++ [entryPlist g acos] := by
  unfold seenWord
  rw [take_add_one, hg, map_append, append_assoc]
  rfl

theorem seenWord_length (table : List (ColPair Nat)) (h0 : 0 < acos)
    : seenWord stan table acos (nrLoop stan table.length)
        = scanWord (functions (scanned stan table)) acos := by
  obtain ⟨a, rfl⟩ : ∃ a, acos = a + 1 := ⟨acos - 1, by omega⟩
  unfold seenWord
  rw [← length_scanned, take_length, Nat.add_sub_cancel, scanWord_succ]
  unfold functions
  rw [map_map]
  rfl

structure Found (n : Nat) (word : List Nat) (lcos : Nat) : Prop where
  inOrder : InOrder word
  le : ∀ x ∈ word, x ≤ lcos
  all : ∀ y, 1 < y → y ≤ lcos → y ∈ word
  pos : 0 < lcos
  lcos_le : lcos ≤ n

theorem row_renumbered {cols cols' : List (List Nat)}
    (h : Forall₂ (IsRenumbered n τ) cols cols') (h0 : 0 < acos) (ha : acos ≤ n)
    (hfix : τ acos = acos)
    : (cols'.map fun g => entryPlist g acos) = (cols.map fun g => entryPlist g acos).map τ := by
  induction h with
  | nil => rfl
  | cons hd _ ih =>
    have hrow := hd acos h0 ha
    rw [hfix] at hrow
    rw [map_cons, map_cons, map_cons, ih, hrow]

variable {lcos : Nat}

theorem seenWord_renumbered (h : IsRenumbering n τ table table')
    (hfix : ∀ c, 0 < c → c ≤ lcos → τ c = c) (h0 : 0 < acos) (ha : acos ≤ lcos) (hn : lcos ≤ n)
    : seenWord stan table' acos j = (seenWord stan table acos j).map τ := by
  have hint := @IsRenumbering.intertwines n τ stan table table' h
  unfold seenWord
  rw [map_append]
  congr 1
  . exact hint.scanWord_eq (by omega) (fun c hc0 hc => hfix c hc0 (by omega))
  . have hcols : Forall₂ (IsRenumbered n τ) ((scanned stan table).take j)
        ((scanned stan table').take j) := by
      apply forall₂_take
      unfold scanned
      split
      . exact h.columns.2
      . exact h.columns.1
    exact row_renumbered hcols h0 (by omega) (hfix acos h0 ha)

variable {word : List Nat}

theorem Found.map_eq (h : Found n word lcos) (hpos : ∀ x ∈ word, 0 < x)
    (hfix : ∀ c, 0 < c → c ≤ lcos → τ c = c) : word.map τ = word := by
  conv_rhs => rw [← map_id word]
  apply map_congr_left
  intro x hx
  exact hfix x (hpos x hx) (h.le x hx)

theorem Found.concat {x : Nat} (h : Found n word lcos) (hx : x ≤ lcos)
    : Found n (word ++ [x]) lcos := by
  refine ⟨h.inOrder.concat (fun y h1 hy => h.all y h1 (by omega)), ?_, ?_, h.pos, h.lcos_le⟩
  . intro y hy
    rcases mem_append.mp hy with hy | hy
    . exact h.le y hy
    . rw [mem_singleton.mp hy]
      exact hx
  . exact fun y h1 hy => mem_append_left _ (h.all y h1 hy)

theorem Found.next (h : Found n word lcos) (hn : lcos + 1 ≤ n)
    : Found n (word ++ [lcos + 1]) (lcos + 1) := by
  refine ⟨h.inOrder.concat (fun y h1 hy => h.all y h1 (by omega)), ?_, ?_, succ_pos _, hn⟩
  . intro y hy
    rcases mem_append.mp hy with hy | hy
    . exact le_succ_of_le (h.le y hy)
    . exact Nat.le_of_eq (mem_singleton.mp hy)
  . intro y h1 hy
    rcases le_succ_iff.mp hy with hle | rfl
    . exact mem_append_left _ (h.all y h1 hle)
    . exact mem_append_right _ (mem_singleton.mpr rfl)

theorem pos_of_mem_seenWord (h : IsTable n table) (h0 : 0 < acos) (ha : acos ≤ n)
    : ∀ x ∈ seenWord stan table acos j, 0 < x := by
  intro x hx
  rcases mem_append.mp hx with hx | hx
  . obtain ⟨a, ha0, haa, g, hg, rfl⟩ := mem_scanWord.mp hx
    obtain ⟨g', hg', rfl⟩ := mem_map.mp hg
    exact (h.range (mem_scanned hg') ha0 (by omega)).1
  . obtain ⟨g, hg, rfl⟩ := mem_map.mp hx
    exact (h.range (mem_scanned (mem_of_mem_take hg)) h0 ha).1

theorem visitEntry_spec (h : Reaches n table o σ s) (hj : j < nrLoop stan table.length)
    (hf : Found n (seenWord stan s.table acos j) s.lcos) (h0 : 0 < acos) (ha : acos ≤ s.lcos)
    : ∃ s' σ', visitEntry acos
          (if nrLoop stan table.length = table.length then 2 * (j + 1) - 1 else j + 1) s = .ok s'
        ∧ Reaches n table o σ' s' ∧ s.lcos ≤ s'.lcos
        ∧ Found n (seenWord stan s'.table acos (j + 1)) s'.lcos := by
  have hlen : s.table.length = table.length := h.renumbering.pairs.length_eq.symm
  have hn := hf.lcos_le
  obtain ⟨g, hg⟩ : ∃ g, (scanned stan s.table)[j]? = some g :=
    ⟨_, getElem?_eq_getElem (by rw [length_scanned, hlen]; exact hj)⟩
  have hmem : g ∈ columns s.table := mem_scanned (mem_of_getElem? hg)
  have hrange := h.isTable.range hmem h0 (by omega)
  have hcol := columnAt_scanned hg
  rw [hlen] at hcol
  have hgl := h.isTable.length_column hmem
  unfold visitEntry
  rw [hcol, ok_bind, elmPlist_eq_entryPlist h0 (by omega), ok_bind]
  by_cases hnew : s.lcos + 1 < entryPlist g acos
  . rw [if_pos hnew]
    have hpos := hf.pos
    obtain ⟨s', hrun, hlcos, hreaches, hren⟩ := swapRows_spec h
      (show 1 < s.lcos + 1 ∧ s.lcos + 1 ≤ n by omega)
      (show 1 < entryPlist g acos ∧ entryPlist g acos ≤ n by omega)
    refine ⟨s', _, hrun, hreaches, by omega, ?_⟩
    -- The rows that have been seen keep their numbers.
    have hfix : ∀ c, 0 < c → c ≤ s.lcos → Equiv.swap (s.lcos + 1) (entryPlist g acos) c = c :=
      fun c _ hc => Equiv.swap_apply_of_ne_of_ne (by omega) (by omega)
    rw [seenWord_renumbered hren hfix h0 ha hn, seenWord_succ hg, map_append,
      hf.map_eq (pos_of_mem_seenWord h.isTable h0 (by omega)) hfix, map_singleton,
      Equiv.swap_apply_right, hlcos]
    exact hf.next (by omega)
  . rw [if_neg hnew]
    by_cases hnext : s.lcos < entryPlist g acos
    . rw [if_pos hnext]
      refine ⟨_, σ, rfl, ⟨h.isTable, h.renumbering, h.shape, h.moved, h.factor⟩, le_succ _, ?_⟩
      rw [seenWord_succ hg, show entryPlist g acos = s.lcos + 1 by omega]
      exact hf.next (by omega)
    . rw [if_neg hnext]
      refine ⟨s, σ, rfl, h, Nat.le_refl _, ?_⟩
      rw [seenWord_succ hg]
      exact hf.concat (Nat.le_of_not_lt hnext)

variable (h : Reaches n table o σ s) (hf : Found n (seenWord stan s.table acos 0) s.lcos)
  (h0 : 0 < acos)

include h hf h0

theorem scanRow_spec (ha : acos ≤ s.lcos)
    : ∃ s' σ', scanRow table.length (nrLoop stan table.length) acos s = .ok s'
        ∧ Reaches n table o σ' s' ∧ s.lcos ≤ s'.lcos
        ∧ Found n (seenWord stan s'.table (acos + 1) 0) s'.lcos := by
  unfold scanRow
  suffices hloop : ∃ s', forLoop (fun j s => visitEntry acos
        (if nrLoop stan table.length = table.length then 2 * j - 1 else j) s)
        (nrLoop stan table.length) 1 s = .ok s'
      ∧ ∃ σ', Reaches n table o σ' s' ∧ s.lcos ≤ s'.lcos
        ∧ Found n (seenWord stan s'.table (acos + 1) 0) s'.lcos by
    obtain ⟨s', hrun, σ', hs'⟩ := hloop
    exact ⟨s', σ', hrun, hs'⟩
  apply forLoop_of_inv (fun j s' => ∃ σ', Reaches n table o σ' s' ∧ s.lcos ≤ s'.lcos
    ∧ Found n (seenWord stan s'.table acos (j - 1)) s'.lcos) ⟨σ, h, Nat.le_refl _, hf⟩
  . rintro j s1 h1 hj ⟨σ1, hr1, hle1, hf1⟩
    obtain ⟨i, rfl⟩ : ∃ i, j = i + 1 := ⟨j - 1, by omega⟩
    obtain ⟨s2, σ2, hrun, hr2, hle2, hf2⟩ :=
      visitEntry_spec hr1 (show i < nrLoop stan table.length by omega) hf1 h0 (by omega)
    exact ⟨s2, hrun, σ2, hr2, by omega, hf2⟩
  . rintro s1 ⟨σ1, hr1, hle1, hf1⟩
    refine ⟨σ1, hr1, hle1, ?_⟩
    have hlen : table.length = s1.table.length := hr1.renumbering.pairs.length_eq
    rw [Nat.add_sub_cancel_left, hlen, seenWord_length _ h0] at hf1
    rw [seenWord_zero]
    exact hf1

theorem standardizeLoop_spec (ha : acos ≤ s.lcos + 1) {rounds : Nat}
    (hrounds : n + 1 < rounds + acos)
    : ∃ s' σ', standardizeLoop table.length (nrLoop stan table.length) rounds acos s = .ok s'
        ∧ Reaches n table o σ' s'
        ∧ Found n (scanWord (functions (scanned stan s'.table)) s'.lcos) s'.lcos := by
  induction rounds generalizing acos s σ with
  | zero =>
    have hn := hf.lcos_le
    omega
  | succ rounds ih =>
    unfold standardizeLoop
    by_cases hle : acos ≤ s.lcos
    . obtain ⟨s1, σ1, hrun, hr1, hle1, hf1⟩ := scanRow_spec h hf h0 hle
      rw [if_pos hle, hrun, ok_bind]
      exact ih hr1 hf1 (succ_pos acos) (by omega) (by omega)
    . obtain rfl : acos = s.lcos + 1 := by
        omega
      rw [if_neg hle]
      rw [seenWord_zero] at hf
      exact ⟨s, σ, rfl, h, hf⟩

end Scan

section Unique

variable {α : Type} {n : Nat} {σ τ : Equiv.Perm Nat} {stan : Int}
  {table table' : List (ColPair Nat)} {table2 table2' : List (ColPair α)}

structure IsStandard (n : Nat) (stan : Int) (table : List (ColPair Nat)) : Prop where
  inOrder : InOrder (scanWord (functions (scanned stan table)) n)
  occurs : ∀ c, 1 < c → c ≤ n → c ∈ scanWord (functions (scanned stan table)) n

theorem forall₂_symm {β γ : Type} {R : β → γ → Prop} {S : γ → β → Prop}
    {l : List β} {l' : List γ} (h : Forall₂ R l l') (hRS : ∀ a b, R a b → S b a)
    : Forall₂ S l' l := by
  induction h with
  | nil => exact .nil
  | cons hd _ ih => exact .cons (hRS _ _ hd) ih

theorem IsRenumbered.symm (hσ : ∀ c, 0 < c ∧ c ≤ n ↔ 0 < σ c ∧ σ c ≤ n) {h h' : List Nat}
    (hr : IsRenumbered n σ h h') : IsRenumbered n σ.symm h' h := by
  intro c h0 hc
  have hb := (hσ (σ.symm c)).mpr (by rw [Equiv.apply_symm_apply]; exact ⟨h0, hc⟩)
  have heq := hr _ hb.1 hb.2
  rw [Equiv.apply_symm_apply] at heq
  rw [heq, Equiv.symm_apply_apply]

theorem IsRenumbering.symm (h : IsRenumbering n σ table table')
    : IsRenumbering n σ.symm table' table := by
  refine ⟨?_, ?_, forall₂_symm h.pairs fun p p' hp => ⟨hp.fst.symm h.range, hp.snd.symm h.range⟩⟩
  . rw [Equiv.symm_apply_eq, h.one]
  . intro c
    rw [h.range (σ.symm c), Equiv.apply_symm_apply]

section

variable (hσ : ∀ c, 0 < c ∧ c ≤ n ↔ 0 < σ c ∧ σ c ≤ n)

include hσ

theorem IsColumnMoved.symm {h h' : List α} (hlen : h.length = n) (hm : IsColumnMoved n σ h h')
    : IsColumnMoved n σ.symm h' h := by
  refine ⟨hlen, fun c h0 hc => ?_⟩
  have hb := (hσ (σ.symm c)).mpr (by rw [Equiv.apply_symm_apply]; exact ⟨h0, hc⟩)
  have heq := hm.2 _ hb.1 hb.2
  rw [Equiv.apply_symm_apply] at heq
  exact heq.symm

theorem IsMoved.symm (hfactor : IsFactorTable n table table2) (h : IsMoved n σ table2 table2')
    : IsMoved n σ.symm table2' table2 := by
  induction hfactor generalizing table2' with
  | nil =>
    cases h
    exact .nil
  | cons hd _ ih =>
    cases h with
    | cons hm hms =>
      refine .cons ⟨hm.fst.symm hσ hd.2.1, hm.snd.symm hσ hd.2.2, hm.isTwo_eq.symm⟩ (ih hms)

end

theorem getElem?_ext_of_length {β : Type} {h h' : List β} (hlen : h.length = n)
    (hlen' : h'.length = n) (heq : ∀ c, 0 < c → c ≤ n → h'[c - 1]? = h[c - 1]?) : h' = h := by
  apply ext_getElem?
  intro i
  by_cases hi : i < n
  . exact heq (i + 1) (succ_pos i) hi
  . rw [getElem?_eq_none (by omega), getElem?_eq_none (by omega)]

theorem IsRenumbered.eq (hfix : ∀ c, 0 < c → c ≤ n → σ c = c) {h h' : List Nat}
    (hlen : h.length = n) (hlen' : h'.length = n)
    (hrange : ∀ c, 0 < c → c ≤ n → 0 < entryPlist h c ∧ entryPlist h c ≤ n)
    (hr : IsRenumbered n σ h h') : h' = h := by
  apply getElem?_ext_of_length hlen hlen'
  intro c h0 hc
  have heq := hr c h0 hc
  have hrc := hrange c h0 hc
  rw [hfix c h0 hc, hfix _ hrc.1 hrc.2, entryPlist_pos h0, entryPlist_pos h0,
    getElem?_eq_getElem (by omega), getElem?_eq_getElem (by omega)] at heq
  rw [getElem?_eq_getElem (by omega), getElem?_eq_getElem (by omega)]
  exact congrArg some heq

theorem IsRenumbering.columns_eq (h : IsRenumbering n σ table table') (htable : IsTable n table)
    (htable' : IsTable n table') (hfix : ∀ c, 0 < c → c ≤ n → σ c = c)
    : CosetTable.columns table' = CosetTable.columns table := by
  obtain ⟨-, -, hpairs⟩ := h
  induction hpairs with
  | nil => rfl
  | cons hd _ ih =>
    obtain ⟨hp, hps⟩ := forall_mem_cons.mp htable
    obtain ⟨hp', hps'⟩ := forall_mem_cons.mp htable'
    rw [columns_cons, columns_cons, ih hps hps',
      hd.fst.eq hfix hp.length_left hp'.length_left hp.range_left,
      hd.snd.eq hfix hp.length_right hp'.length_right hp.range_right]

theorem ColPair.ext_of_isTwo {β : Type} {p p' : ColPair β} (hfst : p.fst = p'.fst)
    (hsnd : p.snd = p'.snd) (htwo : p.isTwo = p'.isTwo) : p = p' := by
  cases p <;> cases p' <;> simp_all [ColPair.fst, ColPair.snd, ColPair.isTwo]

theorem eq_of_columns_eq (h : columns table = columns table')
    (hshape : table.map ColPair.isTwo = table'.map ColPair.isTwo) : table = table' := by
  induction table generalizing table' with
  | nil =>
    rw [map_nil, eq_comm, map_eq_nil_iff] at hshape
    exact hshape.symm
  | cons p table ih =>
    cases table' with
    | nil => cases hshape
    | cons p' table' =>
      rw [map_cons, map_cons, List.cons.injEq] at hshape
      rw [columns_cons, columns_cons, List.cons.injEq, List.cons.injEq] at h
      rw [ColPair.ext_of_isTwo h.1 h.2.1 hshape.1, ih h.2.2 hshape.2]

theorem IsMoved.eq (hfix : ∀ c, 0 < c → c ≤ n → σ c = c) (hfactor : IsFactorTable n table table2)
    (h : IsMoved n σ table2 table2') : table2' = table2 := by
  have hcol {h h' : List α} (hlen : h.length = n) (hm : IsColumnMoved n σ h h') : h' = h := by
    apply getElem?_ext_of_length hlen hm.1
    intro c h0 hc
    have heq := hm.2 c h0 hc
    rw [hfix c h0 hc] at heq
    exact heq
  induction hfactor generalizing table2' with
  | nil =>
    cases h
    rfl
  | cons hd _ ih =>
    cases h with
    | cons hm hms =>
      rw [ih hms,
        ColPair.ext_of_isTwo (hcol hd.2.1 hm.fst) (hcol hd.2.2 hm.snd) hm.isTwo_eq]

theorem IsStandard.fixes (h : IsStandard n stan table) (h' : IsStandard n stan table')
    (hren : IsRenumbering n σ table table') (htable : IsTable n table)
    (htrans : IsTransitive n table) : ∀ c, 0 < c → c ≤ n → σ c = c := by
  intro c h0 hc
  apply eq_of_inOrder (@IsRenumbering.intertwines n σ stan table table' hren)
    (leavesSegments htable htrans) _ hren.one _ _ h.inOrder h'.inOrder h0 hc
  . intro x hx
    obtain ⟨a, ha0, ha, g, hg, rfl⟩ := mem_scanWord.mp hx
    obtain ⟨g', hg', rfl⟩ := mem_map.mp hg
    exact (htable.range (mem_scanned hg') ha0 ha).1
  . exact σ.injective.injOn
  . exact fun c hc => (hren.range c).mp hc

end Unique

section Run

variable {α : Type} {n : Nat} {σ τ : Equiv.Perm Nat} {stan : Int}
  {table other : List (ColPair Nat)} {o : Option (List (ColPair α))}

section

variable (h : IsTable n table) (htrans : IsTransitive n table) (h0 : 0 < n)

include h htrans h0

theorem IsTable.nrRows
    : n ≤ nrRows table + 1 := by
  cases table with
  | nil =>
    have hpath := htrans n h0 (Nat.le_refl n)
    rcases Relation.ReflTransGen.cases_tail hpath with hone | ⟨b, _, g, hg, _⟩
    . omega
    . cases hg
  | cons p table =>
    have hlen := (h p mem_cons_self).length_left
    show n ≤ p.fst.length + 1
    omega

theorem standardize_run (hfactor : ∀ t, o = some t → IsFactorTable n table t)
    : ∃ s σ, standardize table o stan = .ok s ∧ Reaches n table o σ s ∧ s.lcos = n
        ∧ IsStandard n stan s.table := by
  have hstart : Reaches n table o 1 { table := table, table2 := o, lcos := 1 } := by
    refine ⟨h, isRenumbering_refl n table, rfl, ?_, hfactor⟩
    cases o with
    | none => exact .none
    | some t => exact .some (isMoved_refl (hfactor t rfl))
  have hfound : Found n (seenWord stan table 1 0) 1 := by
    rw [seenWord_zero]
    exact ⟨inOrder_nil, fun x hx => (nomatch hx), fun y h1 hy => absurd h1 (by omega),
      Nat.zero_lt_one, h0⟩
  have hrows := h.nrRows htrans h0
  obtain ⟨s, σ, hrun, hr, hf⟩ := standardizeLoop_spec hstart hfound Nat.zero_lt_one (by omega)
    (show n + 1 < nrRows table + 2 + 1 by omega)
  -- The cosets that have been found are closed.
  have hlcos : s.lcos = n := by
    by_contra hne
    have hle := hf.lcos_le
    have htrans' := htrans.of_isRenumbering h h0 hr.renumbering
    obtain ⟨a, ha0, ha, g, hg, hlt⟩ :=
      @leavesSegments n stan s.table hr.isTable htrans' s.lcos hf.pos (by omega)
    have hmem := hf.le (g a) (mem_scanWord.mpr ⟨a, ha0, ha, g, hg, rfl⟩)
    omega
  refine ⟨s, σ, hrun, hr, hlcos, ?_⟩
  rw [hlcos] at hf
  exact ⟨hf.inOrder, hf.all⟩

end

theorem shrink_eq {β : Type} {t : List (ColPair β)} {k : Nat}
    (h : ∀ p ∈ t, p.fst.length = n ∧ p.snd.length = n) : shrink t k n = t := by
  have hmap : (t.take k).map (fun p => p.map fun h => h.take n) = t.take k := by
    conv_rhs => rw [← map_id (t.take k)]
    apply map_congr_left
    intro p hp
    have hlen := h p (mem_of_mem_take hp)
    cases p with
    | two g i =>
      obtain ⟨hfst, hsnd⟩ : g.length = n ∧ i.length = n := hlen
      show ColPair.two (g.take n) (i.take n) = .two g i
      rw [take_of_length_le (Nat.le_of_eq hfst), take_of_length_le (Nat.le_of_eq hsnd)]
    | one g =>
      have hfst : g.length = n := hlen.1
      show ColPair.one (g.take n) = .one g
      rw [take_of_length_le (Nat.le_of_eq hfst)]
  unfold shrink
  rw [hmap, take_append_drop]

theorem IsTable.shrink_eq (h : IsTable n table) (k : Nat) : shrink table k n = table :=
  CosetTable.shrink_eq fun p hp => ⟨(h p hp).length_left, (h p hp).length_right⟩

theorem IsFactorTable.shrink_eq {t : List (ColPair α)} (h : IsFactorTable n table t) (k : Nat)
    : shrink t k n = t := by
  apply CosetTable.shrink_eq
  induction h with
  | nil => exact fun p hp => nomatch hp
  | cons hd _ ih => exact forall_mem_cons.mpr ⟨hd.2, ih⟩

theorem Reaches.columns_eq {β : Type} {u : Option (List (ColPair β))} {s : StanState α}
    {s' : StanState β} {σ' : Equiv.Perm Nat} (h : IsTable n table) (htrans : IsTransitive n table)
    (h0 : 0 < n) (hr : Reaches n table o σ s) (hr' : Reaches n other u σ' s')
    (hs : IsStandard n stan s.table) (hs' : IsStandard n stan s'.table)
    (hren : IsRenumbering n τ table other)
    : (∀ c, 0 < c → c ≤ n → (σ' * τ * σ.symm) c = c)
        ∧ columns s'.table = columns s.table := by
  have hback := hr.renumbering.symm.trans (hren.trans hr'.renumbering)
  have hfix := hs.fixes hs' hback hr.isTable (htrans.of_isRenumbering h h0 hr.renumbering)
  exact ⟨hfix, hback.columns_eq hr.isTable hr'.isTable hfix⟩

theorem funcStandardizeTableC_run (h : IsTable n table) (htrans : IsTransitive n table) (h0 : 0 < n)
    (stan : Int)
    : ∃ s : StanState Nat, ∃ σ, funcStandardizeTableC table stan = .ok s.table
        ∧ Reaches n table none σ s ∧ IsStandard n stan s.table := by
  obtain ⟨s, σ, hrun, hr, hlcos, hs⟩ :=
    @standardize_run Nat n stan table none h htrans h0 (fun t ht => nomatch ht)
  refine ⟨s, σ, ?_, hr, hs⟩
  unfold funcStandardizeTableC
  rw [hrun, ok_bind, hlcos, hr.isTable.shrink_eq]
  rfl

variable {table2 : List (ColPair α)}

theorem funcStandardizeTable2C_run (h : IsTable n table) (htrans : IsTransitive n table)
    (h0 : 0 < n) (hfactor : IsFactorTable n table table2) (stan : Int)
    : ∃ s σ table2', funcStandardizeTable2C table table2 stan = .ok (s.table, table2')
        ∧ Reaches n table (some table2) σ s ∧ IsStandard n stan s.table
        ∧ IsMoved n σ table2 table2' ∧ IsFactorTable n s.table table2' := by
  obtain ⟨s, σ, hrun, hr, hlcos, hs⟩ :=
    @standardize_run α n stan table (some table2) h htrans h0 (by rintro t ⟨⟩; exact hfactor)
  obtain ⟨table2', htable2, hmoved⟩ : ∃ t, s.table2 = some t ∧ IsMoved n σ table2 t := by
    have hmoved := hr.moved
    revert hmoved
    generalize s.table2 = t
    intro hmoved
    cases hmoved with
    | some hm => exact ⟨_, rfl, hm⟩
  have hf := hr.factor _ htable2
  refine ⟨s, σ, table2', ?_, hr, hs, hmoved, hf⟩
  unfold funcStandardizeTable2C
  rw [hrun, ok_bind, hlcos, hr.isTable.shrink_eq, htable2, Option.getD_some, hf.shrink_eq]
  rfl

theorem IsFactorTable.shape_eq (h : IsFactorTable n table table2)
    : table2.map ColPair.isTwo = table.map ColPair.isTwo := by
  induction h with
  | nil => rfl
  | cons hd _ ih => rw [map_cons, map_cons, hd.1, ih]

theorem IsMoved.shape_eq {table2' : List (ColPair α)} (h : IsMoved n σ table2 table2')
    : table2'.map ColPair.isTwo = table2.map ColPair.isTwo := by
  induction h with
  | nil => rfl
  | cons hd _ ih => rw [map_cons, map_cons, hd.isTwo_eq, ih]

theorem Reaches.table_eq {β : Type} {u : Option (List (ColPair β))} {s : StanState α}
    {s' : StanState β} (hr : Reaches n table o σ s) (hr' : Reaches n other u τ s')
    (hshape : other.map ColPair.isTwo = table.map ColPair.isTwo)
    (h : columns s'.table = columns s.table) : s'.table = s.table := by
  apply eq_of_columns_eq h
  rw [hr'.shape, hshape, hr.shape]

end Run

section Spec

theorem standardizeTable_spec {n : Nat} {table : List (ColPair Nat)} (h0 : 0 < n)
    (h : IsTable n table) (htrans : IsTransitive n table) (stan : Int)
    : ∃ table', funcStandardizeTableC table stan = .ok table'
        ∧ IsTable n table'
        ∧ IsStandard n stan table'
        ∧ table'.map ColPair.isTwo = table.map ColPair.isTwo
        ∧ (∃ σ, IsRenumbering n σ table table')
        ∧ funcStandardizeTableC table' stan = .ok table'
        ∧ (∀ τ other, IsTable n other → IsRenumbering n τ table other
          → ∃ other', funcStandardizeTableC other stan = .ok other'
            ∧ columns other' = columns table')
        ∧ ∀ (α : Type) (table2 : List (ColPair α)), IsFactorTable n table table2
          → ∃ σ table2', funcStandardizeTable2C table table2 stan = .ok (table', table2')
            ∧ IsRenumbering n σ table table'
            ∧ IsMoved n σ table2 table2'
            ∧ funcStandardizeTable2C table' table2' stan = .ok (table', table2')
            ∧ ∀ τ other other2, IsTable n other → IsFactorTable n other other2
              → IsRenumbering n τ table other → IsMoved n τ table2 other2
              → funcStandardizeTable2C other other2 stan = .ok (table', table2') := by
  obtain ⟨s, σ, hrun, hr, hs⟩ := funcStandardizeTableC_run h htrans h0 stan
  have hothers (τ : Equiv.Perm Nat) (other : List (ColPair Nat)) (hother : IsTable n other)
      (hren : IsRenumbering n τ table other)
      : ∃ t, funcStandardizeTableC other stan = .ok t ∧ columns t = columns s.table
        ∧ (other.map ColPair.isTwo = table.map ColPair.isTwo → t = s.table) := by
    obtain ⟨s', σ', hrun', hr', hs'⟩ :=
      funcStandardizeTableC_run hother (htrans.of_isRenumbering h h0 hren) h0 stan
    have heq := (hr.columns_eq h htrans h0 hr' hs hs' hren).2
    exact ⟨s'.table, hrun', heq, fun hshape => hr.table_eq hr' hshape heq⟩
  refine ⟨s.table, hrun, hr.isTable, hs, hr.shape, ⟨σ, hr.renumbering⟩, ?_, ?_, ?_⟩
  . obtain ⟨t, ht, -, heq⟩ := hothers σ s.table hr.isTable hr.renumbering
    rw [ht, heq hr.shape]
  . intro τ other hother hren
    obtain ⟨t, ht, heq, -⟩ := hothers τ other hother hren
    exact ⟨t, ht, heq⟩
  . intro α table2 hfactor
    obtain ⟨s2, σ2, table2', hrun2, hr2, hs2, hmoved2, hf2⟩ :=
      funcStandardizeTable2C_run h htrans h0 hfactor stan
    have htable : s2.table = s.table := by
      apply hr.table_eq hr2 rfl
      exact (hr.columns_eq h htrans h0 hr2 hs hs2 (isRenumbering_refl n table)).2
    have hothers2 (τ : Equiv.Perm Nat) (other : List (ColPair Nat)) (other2 : List (ColPair α))
        (hother : IsTable n other) (hfother : IsFactorTable n other other2)
        (hren : IsRenumbering n τ table other) (hm : IsMoved n τ table2 other2)
        : funcStandardizeTable2C other other2 stan = .ok (s2.table, table2') := by
      obtain ⟨s3, σ3, table3, hrun3, hr3, hs3, hmoved3, -⟩ :=
        funcStandardizeTable2C_run hother (htrans.of_isRenumbering h h0 hren) h0 hfother stan
      obtain ⟨hfix, heq⟩ := hr2.columns_eq h htrans h0 hr3 hs2 hs3 hren
      have hshape : other.map ColPair.isTwo = table.map ColPair.isTwo := by
        rw [← hfother.shape_eq, hm.shape_eq, hfactor.shape_eq]
      have hchain := (hmoved2.symm hr2.renumbering.range hfactor).trans
        hr2.renumbering.symm.range (hm.trans hren.range hmoved3)
      rw [hrun3, hr2.table_eq hr3 hshape heq, hchain.eq hfix hf2]
    rw [← htable]
    exact ⟨σ2, table2', hrun2, hr2.renumbering, hmoved2,
      hothers2 σ2 s2.table table2' hr2.isTable hf2 hr2.renumbering hmoved2, hothers2⟩

theorem standardizeTable_spec_three
    : ∃ table', funcStandardizeTableC [.two [3, 1, 2] [2, 3, 1], .one [1, 3, 2]] 0 = .ok table'
        ∧ IsStandard 3 0 table' := by
  have htable : IsTable 3 [.two [3, 1, 2] [2, 3, 1], .one [1, 3, 2]] := by
    refine List.forall_mem_cons.mpr ⟨?_, List.forall_mem_singleton.mpr ?_⟩
    . refine ⟨rfl, rfl, ?_, ?_, ?_, ?_⟩ <;> intro c h0 hc <;> interval_cases c <;> decide
    . refine ⟨rfl, rfl, ?_, ?_, ?_, ?_⟩ <;> intro c h0 hc <;> interval_cases c <;> decide
  have htrans : IsTransitive 3 [.two [3, 1, 2] [2, 3, 1], .one [1, 3, 2]] := by
    intro c h0 hc
    interval_cases c
    . exact .refl
    . exact .single ⟨[2, 3, 1], by decide, by decide⟩
    . exact .single ⟨[3, 1, 2], by decide, by decide⟩
  obtain ⟨table', hrun, -, hs, -⟩ :=
    standardizeTable_spec (show 0 < 3 by decide) htable htrans 0
  exact ⟨table', hrun, hs⟩

end Spec

end CosetTable
