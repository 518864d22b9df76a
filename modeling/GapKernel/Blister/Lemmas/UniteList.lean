import GapKernel.Blister.Lemmas.UniteRange
import GapKernel.PlainSet.Lemmas.SetList

open List Nat

namespace BlistImpl

open Blist BitBlocks PlainSetImpl PlistHeap

variable {w : Nat} {E : Type} {f : ObjFuncs E}

def foundAt (f : ObjFuncs E) (elems sub : List E) (i : Nat) : Bool :=
  elems[i]?.any (fun x => memSet f.eq x sub)

def uniteList (f : ObjFuncs E) (l : List Bool) (elems sub : List E) : List Bool :=
  List.zipWith (fun b x => b || memSet f.eq x sub) l elems

variable {l : List Bool} {elems : List E}

theorem uniteList_getD (hlen : elems.length = l.length) (sub : List E) (i : Nat)
    : (uniteList f l elems sub).getD i false = (l.getD i false || foundAt f elems sub i) := by
  unfold uniteList foundAt
  simp only [getD_eq_getElem?_getD, getElem?_zipWith]
  by_cases hi : i < l.length
  . rw [getElem?_eq_getElem hi, getElem?_eq_getElem (by omega)]
    rfl
  . rw [getElem?_eq_none (by omega), getElem?_eq_none (by omega)]
    rfl

theorem foundAt_congr {S S' : List E} (h : ∀ x, memSet f.eq x S = memSet f.eq x S')
    : foundAt f elems S = foundAt f elems S' := by
  unfold foundAt
  funext i
  simp only [h]

theorem length_uniteList (hlen : elems.length = l.length) (sub : List E)
    : (uniteList f l elems sub).length = l.length := by
  unfold uniteList
  rw [length_zipWith, hlen, Nat.min_self]

theorem SetsBits.represents_unite {blocks blocks' : List (BitVec w)} {sub : List E}
    (h : SetsBits blocks blocks' (foundAt f elems sub)) (hrep : Represents blocks l)
    (hlen : elems.length = l.length)
    : Represents blocks' (uniteList f l elems sub) := by
  apply h.represents hrep
  . exact length_uniteList hlen sub
  . exact uniteList_getD hlen sub

section

variable (ho : IsSetOrder f.eq f.lt)

include ho

variable {l r : List E} {x : E}

theorem memSet_of_split (hsorted : StrictlySorted f.lt (l ++ r)) (hl : ∀ y ∈ l, f.lt y x = true)
    (hr : ∀ y ∈ r, f.lt y x = false)
    : memSet f.eq x (l ++ r) = match r with
      | [] => false
      | y :: _ => f.eq y x := by
  rw [memSet_append, ho.memSet_of_lt hl, Bool.false_or]
  cases r with
  | nil => rfl
  | cons y r =>
    have hr' := StrictlySorted.cons_iff.mp (StrictlySorted.append_iff.mp hsorted).2.1
    rw [memSet_cons, ho.eq_comm x y]
    rw [ho.memSet_of_gt, Bool.or_false]
    intro z hz
    by_cases hyx : f.eq y x = true
    . rw [ho.eq_comm] at hyx
      exact ho.lt_of_eq_of_lt hyx (hr'.1 z hz)
    . rw [Bool.not_eq_true] at hyx
      exact ho.lt_trans (ho.lt_of_not_eq hyx (hr y mem_cons_self)) (hr'.1 z hz)

variable {h : PlistHeap E} {list : Nat}

theorem testFound_spec {k len : Nat} (hr : Reading h list l r len k)
    (hsorted : StrictlySorted f.lt (l ++ r)) (hl : ∀ y ∈ l, f.lt y x = true)
    (hge : ∀ y ∈ r, f.lt y x = false)
    : (if k ≤ len then do
        let e ← h.elm list k
        return f.eq e x
      else
        return false : Result Bool) = .ok (memSet f.eq x (l ++ r)) := by
  rw [memSet_of_split ho hsorted hl hge]
  cases r with
  | nil =>
    rw [if_neg hr.not_le]
    rfl
  | cons y r =>
    rw [if_pos hr.le, hr.elm]
    rfl

theorem eqAt_of_split (hsorted : StrictlySorted f.lt (l ++ r)) (hl : ∀ y ∈ l, f.lt y x = true)
    (hr : ∀ y ∈ r, f.lt y x = false) (i : Nat)
    : (l ++ r)[i]?.any (fun y => f.eq y x) = (i == l.length && memSet f.eq x (l ++ r)) := by
  rw [memSet_of_split ho hsorted hl hr, getElem?_append]
  by_cases hi : i < l.length
  . rw [if_pos hi, getElem?_eq_getElem hi]
    have hne : (i == l.length) = false := by
      rw [beq_eq_false_iff_ne]
      omega
    rw [hne, Bool.false_and]
    exact ho.eq_of_lt (hl _ (getElem_mem hi))
  . rw [if_neg hi]
    cases r with
    | nil => simp
    | cons y r =>
      by_cases heq : i = l.length
      . simp [heq]
      . have hne : (i == l.length) = false := by
          rw [beq_eq_false_iff_ne]
          exact heq
        obtain ⟨k, hk⟩ : ∃ k, i - l.length = k + 1 := ⟨i - l.length - 1, by omega⟩
        rw [hne, Bool.false_and, hk, getElem?_cons_succ]
        cases hz : r[k]? with
        | none => rfl
        | some z =>
          have hyz := (StrictlySorted.cons_iff.mp (StrictlySorted.append_iff.mp hsorted).2.1).1 z
            (mem_of_getElem? hz)
          apply ho.eq_of_gt
          exact ho.lt_of_not_lt_of_lt (hr y mem_cons_self) hyz

theorem positionLoop_reading {S : List E} (hlist : h.Holds list S) (hsorted : StrictlySorted f.lt S)
    (x : E)
    : ∃ l r, S = l ++ r ∧ (∀ y ∈ l, f.lt y x = true) ∧ (∀ y ∈ r, f.lt y x = false)
        ∧ positionLoop f.lt h list x (S.length + 1) 0 (S.length + 1) = .ok (l.length + 1)
        ∧ Reading h list l r S.length (l.length + 1) := by
  obtain ⟨l, r, hsplit, hl, hr, hsearch⟩ := positionLoop_spec ho x [] S [] (by simpa using hlist)
    (by simpa using hsorted) (by simp) (by simp) (lt_succ_self S.length)
  rw [nil_append, append_nil] at hsplit
  rw [length_nil, Nat.zero_add] at hsearch
  refine ⟨l, r, hsplit, hl, hr, hsearch, ?_⟩
  have hstart := Reading.start hlist
  rw [hsplit] at hstart
  have hskip := hstart.skip
  rw [nil_append, length_nil, Nat.zero_add, ← hsplit] at hskip
  exact hskip

omit ho in
theorem setBit_setsBits (hw : 0 < w) {b : Blist w} {i : Nat} (hi : i < b.blocks.length * w)
    : ∃ blocks, b.setBit (i + 1) = .ok { b with blocks := blocks }
        ∧ SetsBits b.blocks blocks (fun j => j == i) := by
  obtain ⟨blocks, hrun, hset⟩ := orBit_spec hw hi
  refine ⟨blocks, ?_, hset⟩
  unfold orBit at hrun
  unfold setBit
  rw [Nat.add_sub_cancel, maskPos_succ]
  rw [elmBlock_eq (div_lt_of_lt hw hi)] at *
  rw [ok_bind] at *
  rw [hrun]
  rfl

theorem uniteSearch_spec (hw : 0 < w) {elems : List E} (hlist : h.Holds list elems)
    (hsorted : StrictlySorted f.lt elems) (sub : List (Option E)) {b : Blist w}
    (hlen : elems.length ≤ b.blocks.length * w)
    : ∃ blocks, uniteSearch f h list elems.length sub b = .ok { b with blocks := blocks }
        ∧ SetsBits b.blocks blocks (foundAt f elems sub.reduceOption) := by
  induction sub generalizing b with
  | nil =>
    refine ⟨b.blocks, rfl, ?_⟩
    apply SetsBits.refl
    intro i
    simp [foundAt, reduceOption, memSet]
  | cons entry sub ih =>
    cases entry with
    | none => exact ih hlen
    | some x =>
      obtain ⟨l, r, hsplit, hl, hr, hsearch, hread⟩ := positionLoop_reading ho hlist hsorted x
      have hsorted' := hsorted
      rw [hsplit] at hsorted'
      unfold uniteSearch
      rw [hsearch]
      rw [ok_bind]
      rw [testFound_spec ho hread hsorted' hl hr, ← hsplit]
      rw [ok_bind]
      have hat := eqAt_of_split ho hsorted' hl hr
      rw [← hsplit] at hat
      rw [reduceOption_cons_of_some]
      have hfound : ∀ i, foundAt f elems (x :: sub.reduceOption) i
          = ((i == l.length && memSet f.eq x elems) || foundAt f elems sub.reduceOption i) := by
        intro i
        rw [← hat]
        unfold foundAt
        cases elems[i]? with
        | none => rfl
        | some y => rfl
      split
      next hmem =>
        have hlt : l.length < b.blocks.length * w := by
          rw [hsplit, memSet_of_split ho hsorted' hl hr] at hmem
          cases r with
          | nil => cases hmem
          | cons y r =>
            rw [hsplit, length_append, length_cons] at hlen
            omega
        obtain ⟨blocks1, hrun1, hset1⟩ := setBit_setsBits hw hlt
        rw [hrun1]
        rw [ok_bind]
        obtain ⟨blocks, hrun, hset⟩ := ih
          (by rw [hset1.length_eq]; exact hlen
            : elems.length ≤ { b with blocks := blocks1 }.blocks.length * w)
        refine ⟨blocks, hrun, ?_⟩
        apply hset1.trans hset
        intro i
        rw [hfound, hmem, Bool.and_true]
      next hmem =>
        rw [Bool.not_eq_true] at hmem
        obtain ⟨blocks, hrun, hset⟩ := ih hlen
        refine ⟨blocks, hrun, hset.length_eq, ?_⟩
        intro i
        rw [hset.bits, hfound, hmem, Bool.and_false, Bool.false_or]

theorem advanceLoop_spec {sub lenSub k fuel : Nat} {pre post : List E}
    (hr : Reading h sub pre post lenSub k) (hsorted : StrictlySorted f.lt post)
    (hpre : ∀ y ∈ pre, f.lt y x = true) (hfuel : post.length < fuel)
    : ∃ pre' post' k', advanceLoop f h sub lenSub x fuel k = .ok k'
        ∧ Reading h sub pre' post' lenSub k' ∧ pre' ++ post' = pre ++ post
        ∧ (∀ y ∈ pre', f.lt y x = true) ∧ ∀ y ∈ post', f.lt y x = false := by
  induction fuel generalizing pre post k with
  | zero => omega
  | succ fuel ih =>
    unfold advanceLoop
    cases post with
    | nil =>
      rw [if_neg hr.not_le]
      exact ⟨pre, [], k, rfl, hr, rfl, hpre, by simp⟩
    | cons y post =>
      rw [if_pos hr.le]
      rw [hr.elm]
      rw [ok_bind]
      have hsorted' := StrictlySorted.cons_iff.mp hsorted
      split
      next hlt =>
        have hpre' : ∀ z ∈ pre ++ [y], f.lt z x = true := by
          intro z hz
          rcases mem_append.mp hz with hz | hz
          . exact hpre z hz
          . rw [mem_singleton.mp hz]
            exact hlt
        obtain ⟨pre', post', k', hrun, hr', hsplit, hl, hge⟩ := ih hr.next hsorted'.2 hpre'
          (by simp only [length_cons] at hfuel; omega)
        refine ⟨pre', post', k', hrun, hr', ?_, hl, hge⟩
        rw [hsplit]
        simp
      next hlt =>
        rw [Bool.not_eq_true] at hlt
        refine ⟨pre, y :: post, k, rfl, hr, rfl, hpre, ?_⟩
        intro z hz
        rcases mem_cons.mp hz with rfl | hz
        . exact hlt
        . rw [← Bool.not_eq_true]
          intro hzx
          have := ho.lt_trans (hsorted'.1 z hz) hzx
          rw [hlt] at this
          cases this

end

def pendingAt (blocks : List (BitVec w)) (k : Nat) (block : BitVec w) (x : Nat) : Bool :=
  bitAt blocks x || (x / w == k && block.getLsbD (x % w))

theorem pendingAt_zero (blocks : List (BitVec w)) (k x : Nat)
    : pendingAt blocks k 0#w x = bitAt blocks x := by
  simp [pendingAt]

theorem pendingAt_or_bit (hw : 0 < w) (blocks : List (BitVec w)) (block : BitVec w) (i x : Nat)
    : pendingAt blocks (i / w) (block ||| 1#w <<< (i % w)) x
        = (pendingAt blocks (i / w) block x || x == i) := by
  unfold pendingAt
  rw [BitVec.getLsbD_or, getLsbD_mask (mod_lt x hw), Bool.eq_iff_iff]
  simp only [Bool.or_eq_true, Bool.and_eq_true, beq_iff_eq, decide_eq_true_eq]
  constructor
  . rintro (h | ⟨hdiv, h | hmod⟩)
    . exact Or.inl (Or.inl h)
    . exact Or.inl (Or.inr ⟨hdiv, h⟩)
    . exact Or.inr (eq_of_div_eq hdiv hmod)
  . rintro ((h | ⟨hdiv, h⟩) | heq)
    . exact Or.inl h
    . exact Or.inr ⟨hdiv, Or.inl h⟩
    . rw [heq]
      exact Or.inr ⟨rfl, Or.inr rfl⟩

theorem bitAt_flush {blocks : List (BitVec w)} {k : Nat} (hk : k < blocks.length)
    (block : BitVec w) (x : Nat)
    : bitAt (blocks.set k (blocks.getD k 0#w ||| block)) x = pendingAt blocks k block x := by
  rw [bitAt_set hk]
  unfold pendingAt bitAt
  by_cases hx : x / w = k
  . rw [if_pos hx, BitVec.getLsbD_or, hx]
    simp
  . rw [if_neg hx]
    simp [hx]

theorem shiftLeft_one_eq_zero_iff {n : Nat} : 1#w <<< n = 0#w ↔ w ≤ n := by
  constructor
  . intro h
    by_contra hlt
    have := congrArg (fun v => v.getLsbD n) h
    simp only [getLsbD_mask (by omega : n < w)] at this
    simp at this
  . intro h
    apply BitVec.eq_of_getLsbD_eq
    intro k hk
    rw [getLsbD_mask hk]
    simp
    omega

section

variable (ho : IsSetOrder f.eq f.lt)

include ho

variable {h : PlistHeap E} {sub lenSub k : Nat} {pre post : List E} {x : E}

theorem searchNext_spec {isSet : Bool} {prev : Option E} (hr : Reading h sub pre post lenSub k)
    (hsorted : StrictlySorted f.lt (pre ++ post)) (hnone : prev = none → pre = [])
    (hprev : ∀ p, prev = some p → (∀ y ∈ pre, f.lt p y = false) ∧ (isSet = true → f.lt p x = true))
    : ∃ pre' post' k',
        (if isSet || prev.all (fun prev => f.lt prev x) then
          advanceLoop f h sub lenSub x (lenSub + 1) k
        else
          positionLoop f.lt h sub x (lenSub + 1) 0 (lenSub + 1)) = .ok k'
        ∧ Reading h sub pre' post' lenSub k' ∧ pre' ++ post' = pre ++ post
        ∧ (∀ y ∈ pre', f.lt y x = true) ∧ ∀ y ∈ post', f.lt y x = false := by
  split
  next hgo =>
    apply advanceLoop_spec ho hr (StrictlySorted.append_iff.mp hsorted).2.1
    . intro y hy
      cases hp : prev with
      | none =>
        rw [hnone hp] at hy
        cases hy
      | some p =>
        have hpx : f.lt p x = true := by
          rw [hp, Option.all_some, Bool.or_eq_true] at hgo
          rcases hgo with hset | hlt
          . exact (hprev p hp).2 hset
          . exact hlt
        exact ho.lt_of_not_lt_of_lt ((hprev p hp).1 y hy) hpx
    . have := hr.len_eq
      omega
  next =>
    have hlen : lenSub = (pre ++ post).length := by
      rw [hr.len_eq, length_append]
    obtain ⟨l, r, hsplit, hl, hge, hsearch, hread⟩ := positionLoop_reading ho hr.holds hsorted x
    rw [hlen]
    exact ⟨l, r, l.length + 1, hsearch, hread, hsplit.symm, hl, hge⟩

theorem afterFound_spec (hr : Reading h sub pre post lenSub k)
    (hsorted : StrictlySorted f.lt (pre ++ post)) (hl : ∀ y ∈ pre, f.lt y x = true)
    (hge : ∀ y ∈ post, f.lt y x = false)
    : ∃ pre' post',
        Reading h sub pre' post' lenSub (if memSet f.eq x (pre ++ post) then k + 1 else k)
        ∧ pre' ++ post' = pre ++ post ∧ ∀ y ∈ pre', f.lt x y = false := by
  have hpre : ∀ y ∈ pre, f.lt x y = false := fun y hy => ho.lt_asymm (hl y hy)
  split
  next hmem =>
    rw [memSet_of_split ho hsorted hl hge] at hmem
    cases post with
    | nil => cases hmem
    | cons z post =>
      refine ⟨pre ++ [z], post, hr.next, by simp, ?_⟩
      intro y hy
      rcases mem_append.mp hy with hy | hy
      . exact hpre y hy
      . rw [mem_singleton.mp hy]
        exact ((ho.eq_iff z x).mp hmem).2
  next => exact ⟨pre, post, hr, rfl, hpre⟩

omit ho in
theorem pendingAt_step (hw : 0 < w) {blocks0 blocks : List (BitVec w)} {block bit : BitVec w}
    {done rest S : List E} (hbit : bit = 1#w <<< (done.length % w))
    (hpending : ∀ y, pendingAt blocks (done.length / w) block y
      = (bitAt blocks0 y || (decide (y < done.length) && foundAt f (done ++ x :: rest) S y)))
    (y : Nat)
    : pendingAt blocks (done.length / w) (if memSet f.eq x S then block ||| bit else block) y
        = (bitAt blocks0 y
          || (decide (y < (done ++ [x]).length) && foundAt f (done ++ x :: rest) S y)) := by
  have hat : foundAt f (done ++ x :: rest) S done.length = memSet f.eq x S := by
    simp [foundAt]
  have hlt : y < (done ++ [x]).length ↔ y < done.length ∨ y = done.length := by
    rw [length_append, length_singleton]
    omega
  split
  next hmem =>
    rw [hbit, pendingAt_or_bit hw, hpending, Bool.or_assoc]
    congr 1
    rw [Bool.eq_iff_iff]
    simp only [Bool.or_eq_true, Bool.and_eq_true, decide_eq_true_eq, beq_iff_eq, hlt]
    constructor
    . rintro (⟨hy, hf⟩ | heq)
      . exact ⟨Or.inl hy, hf⟩
      . rw [heq, hat]
        exact ⟨Or.inr rfl, hmem⟩
    . rintro ⟨hy | heq, hf⟩
      . exact Or.inl ⟨hy, hf⟩
      . exact Or.inr heq
  next hmem =>
    rw [hpending]
    congr 1
    rw [Bool.eq_iff_iff]
    simp only [Bool.and_eq_true, decide_eq_true_eq, hlt]
    constructor
    . rintro ⟨hy, hf⟩
      exact ⟨Or.inl hy, hf⟩
    . rintro ⟨hy | heq, hf⟩
      . exact ⟨hy, hf⟩
      . rw [heq, hat] at hf
        exact absurd hf hmem

theorem uniteListLoop_spec (hw : 0 < w) {isSet : Bool} {list lenList l fuel : Nat}
    {done rest : List E} {blocks0 blocks : List (BitVec w)} {block bit : BitVec w} {prev : Option E}
    (hlist : Reading h list done rest lenList l) (hsub : Reading h sub pre post lenSub k)
    (hsorted : StrictlySorted f.lt (pre ++ post)) (hset : isSet = true → StrictlySorted f.lt rest)
    (hnone : prev = none → pre = []) (hprev : ∀ p, prev = some p → (∀ y ∈ pre, f.lt p y = false)
      ∧ (isSet = true → ∀ y ∈ rest, f.lt p y = true)) (hblocks : blocks.length = blocks0.length)
    (hlen : lenList ≤ blocks0.length * w) (hbit : rest ≠ [] → bit = 1#w <<< (done.length % w))
    (hblock : rest = [] → block = 0#w) (hpending : ∀ x, pendingAt blocks (done.length / w) block x
      = (bitAt blocks0 x || (decide (x < done.length) && foundAt f (done ++ rest) (pre ++ post) x)))
    (hfuel : rest.length < fuel)
    : ∃ blocks', uniteListLoop f isSet h list sub lenList lenSub fuel blocks l k block bit prev
          = .ok blocks'
        ∧ SetsBits blocks0 blocks' (foundAt f (done ++ rest) (pre ++ post)) := by
  induction fuel generalizing done rest pre post blocks l k block bit prev with
  | zero => omega
  | succ fuel ih =>
    unfold uniteListLoop
    cases rest with
    | nil =>
      rw [if_neg hlist.not_le]
      refine ⟨blocks, rfl, hblocks, ?_⟩
      intro x
      have := hpending x
      rw [hblock rfl, pendingAt_zero] at this
      rw [this]
      by_cases hx : x < done.length
      . simp [hx]
      . have hout : foundAt f (done ++ []) (pre ++ post) x = false := by
          unfold foundAt
          rw [append_nil, getElem?_eq_none (by omega)]
          rfl
        rw [hout, Bool.and_false]
    | cons x rest =>
      have hpos := hlist.pos_eq
      have hlenList := hlist.len_eq
      simp only [length_cons] at hfuel hlenList
      rw [if_pos hlist.le]
      rw [hlist.elm]
      rw [ok_bind]
      obtain ⟨pre', post', k', hsearch, hread, hsplit, hl, hge⟩ := searchNext_spec ho hsub hsorted
        hnone (fun p hp => ⟨(hprev p hp).1, fun hs => (hprev p hp).2 hs x mem_cons_self⟩)
      have hsorted' := hsorted
      rw [← hsplit] at hsorted'
      rw [hsearch]
      rw [ok_bind]
      rw [testFound_spec ho hread hsorted' hl hge]
      rw [ok_bind]
      dsimp only
      obtain ⟨pre'', post'', hread', hsplit', hle⟩ := afterFound_spec ho hread hsorted' hl hge
      have hpend := pendingAt_step hw (hbit (by simp)) hpending
      rw [← hsplit] at hpend
      have hdiv : done.length / w < blocks.length := by
        rw [hblocks]
        exact div_lt_of_lt hw (by omega)
      have hset' : isSet = true → StrictlySorted f.lt rest :=
        fun hs => (StrictlySorted.cons_iff.mp (hset hs)).2
      have hprev' : ∀ p, some x = some p → (∀ y ∈ pre'', f.lt p y = false)
          ∧ (isSet = true → ∀ y ∈ rest, f.lt p y = true) := by
        intro p hp
        rw [Option.some.injEq] at hp
        rw [← hp]
        exact ⟨hle, fun hs => (StrictlySorted.cons_iff.mp (hset hs)).1⟩
      have hS : pre'' ++ post'' = pre ++ post := by
        rw [hsplit', hsplit]
      have helems : (done ++ [x]) ++ rest = done ++ x :: rest := by
        simp
      rw [← hS, ← helems]
      have hlast : l - 1 = done.length := by
        omega
      rw [hbit (by simp)] at hpend
      rw [hlast, hbit (by simp), ← BitVec.shiftLeft_add]
      have hmod := mod_lt done.length hw
      split
      next hflush =>
        rw [elmBlock_eq hdiv]
        rw [ok_bind]
        rw [setBlock_eq hdiv]
        rw [ok_bind]
        apply ih hlist.next hread' (by rw [hS]; exact hsorted) hset' (by simp) hprev'
          (by rw [length_set]; exact hblocks) _ (fun _ => rfl) _ (by omega)
        . intro hrest
          have hpos' : 0 < rest.length := length_pos_iff.mpr hrest
          rcases hflush with hzero | hend
          . rw [shiftLeft_one_eq_zero_iff] at hzero
            rw [length_append, length_singleton, succ_mod_of_eq (by omega)]
            rw [BitVec.shiftLeft_zero]
          . omega
        . intro y
          rw [pendingAt_zero, bitAt_flush hdiv]
          rw [hS, helems, ← hsplit]
          exact hpend y
      next hkeep =>
        rw [not_or, shiftLeft_one_eq_zero_iff] at hkeep
        have hlt : done.length % w + 1 < w := by
          omega
        apply ih hlist.next hread' (by rw [hS]; exact hsorted) hset' (by simp) hprev' hblocks _ _ _
          (by omega)
        . intro _
          rw [length_append, length_singleton, succ_mod_of_lt hlt]
        . intro hrest
          rw [hrest, length_nil] at hlenList
          omega
        . intro y
          have := hpend y
          rw [length_append, length_singleton] at *
          rw [succ_div_of_lt hlt, hS, helems, ← hsplit]
          exact this

end

section

variable (hf : IsObjFuncs f)

include hf

theorem memSet_ofInt (n : Int) (l : List E)
    : memSet f.eq (f.ofInt n) l = l.any (fun x => f.toInt x == some n) := by
  unfold memSet
  congr 1
  funext x
  rw [Bool.eq_iff_iff, hf.eq_ofInt, beq_iff_eq]

theorem foundAt_range (s : Int) (len : Nat) (sub : List E) (i : Nat)
    : foundAt f ((List.range len).map (fun i : Nat => f.ofInt (s + i * 1))) sub i
        = (decide (i < len) && sub.any (fun x => f.toInt x == some (s + i))) := by
  unfold foundAt
  rw [getElem?_map]
  by_cases hi : i < len
  . rw [getElem?_range hi, Option.map_some, Option.any_some, memSet_ofInt hf, Int.mul_one]
    simp [hi]
  . rw [getElem?_eq_none (by simp; omega)]
    simp [hi]

theorem any_range (t n : Int) (len : Nat)
    : ((List.range len).map (fun i : Nat => f.ofInt (t + i * 1))).any
        (fun x => f.toInt x == some n) = decide (t ≤ n ∧ n < t + len) := by
  rw [Bool.eq_iff_iff, any_map, any_eq_true, decide_eq_true_iff]
  constructor
  . rintro ⟨i, hi, heq⟩
    rw [Function.comp_apply, hf.toInt_ofInt, beq_iff_eq, Option.some.injEq] at heq
    rw [mem_range] at hi
    omega
  . rintro ⟨hle, hlt⟩
    refine ⟨(n - t).toNat, ?_, ?_⟩
    . rw [mem_range]
      omega
    . rw [Function.comp_apply, hf.toInt_ofInt, beq_iff_eq, Option.some.injEq]
      omega

end

end BlistImpl

namespace ListArg

open BlistImpl Blist BitBlocks PlainSetImpl

variable {w : Nat} {E : Type} {f : ObjFuncs E}

def contents (f : ObjFuncs E) (l : List Bool) (list : ListArg E) : List (Option E) :=
  match list with
  | plist entries => entries
  | range low inc len => (List.range len).map (fun i : Nat => some (f.ofInt (low + i * inc)))
  | other entries => entries
  | .blist => l.map (fun b => some (f.ofBool b))

section

variable (hw : 0 < w) {b : Blist w} {l : List Bool} (hb : Refines b l)

include hw hb

theorem plainLoop_spec {n : Nat} (hn : n ≤ l.length)
    : plainLoop b n ((l.drop n).map some) = .ok (l.map some) := by
  induction n with
  | zero =>
    rw [drop_zero]
    rfl
  | succ n ih =>
    unfold plainLoop
    rw [testBit_spec hw hb.represents (by omega : n < l.length)]
    rw [ok_bind]
    rw [← ih (by omega), ← map_cons, getElem_cons_drop]

theorem entries_spec (list : ListArg E) : list.entries f b = .ok (list.contents f l) := by
  cases list with
  | plist entries => rfl
  | range low inc len => rfl
  | other entries => rfl
  | blist =>
    have hplain : plainBlist b = .ok (l.map some) := by
      unfold plainBlist
      rw [hb.len_eq, ← plainLoop_spec hw hb (Nat.le_refl l.length), drop_length]
      rfl
    unfold entries contents
    rw [hplain]
    rw [ok_bind]
    rw [map_map]
    rfl

omit hw hb in
theorem isSSort_frame (list : ListArg E) {b' : Blist w} {isSet : Bool}
    (h : list.isSSort f b = .ok (b', isSet)) : b'.blocks = b.blocks ∧ b'.len = b.len := by
  have hsame : ∀ isSort : Bool, (.ok (b, isSort) : Result _) = .ok (b', isSet) →
      b'.blocks = b.blocks ∧ b'.len = b.len := by
    intro isSort heq
    rw [Except.ok.injEq, Prod.mk.injEq] at heq
    rw [← heq.1]
    exact ⟨rfl, rfl⟩
  have hfilt : ∀ filter : BlistFilter, (b.setFiltList filter).blocks = b.blocks
      ∧ (b.setFiltList filter).len = b.len := by
    intro filter
    unfold setFiltList
    split
    . exact ⟨rfl, rfl⟩
    . exact ⟨rfl, rfl⟩
  cases list with
  | plist entries => exact hsame _ h
  | range low inc len => exact hsame _ h
  | other entries => exact hsame _ h
  | blist =>
    unfold isSSort isSSortList at h
    dsimp only at h
    split at h
    . unfold isSSortBlist at h
      obtain ⟨isSort, -, hret⟩ := of_bind_eq_ok h
      injection hret with hret
      rw [Prod.mk.injEq] at hret
      rw [← hret.1]
      apply hfilt
    . exact hsame _ h
    . exact hsame _ h

theorem isSSort_spec (hf : IsObjFuncs f) (ht : Truthful b l) (list : ListArg E) {elems : List E}
    (helems : list.contents f l = elems.map some)
    : ∃ b' isSet, list.isSSort f b = .ok (b', isSet) ∧ Refines b' l ∧ Truthful b' l
        ∧ (isSet = true → StrictlySorted f.lt elems) ∧ (list ≠ .blist → b' = b)
        ∧ (list = .blist → b'.tnum ≠ .blist) := by
  have hsome : ∀ l' : List E, elems.map some = l'.map some → elems = l' := by
    intro l' heq
    exact (List.map_inj_right (fun _ _ => Option.some.inj)).mp heq
  have hentries : ∀ entries : List (Option E), entries = elems.map some →
      isSSortPlist f.lt entries = true → StrictlySorted f.lt elems := by
    intro entries heq hsorted
    obtain ⟨l', hl', hsorted'⟩ := (isSSortPlist_iff hf.order entries).mp hsorted
    rw [hsome l' (heq.symm.trans hl')]
    exact hsorted'
  cases list with
  | plist entries =>
    exact ⟨b, _, rfl, hb, ht, hentries entries helems, fun _ => rfl, fun h => nomatch h⟩
  | other entries =>
    exact ⟨b, _, rfl, hb, ht, hentries entries helems, fun _ => rfl, fun h => nomatch h⟩
  | range low inc len =>
    refine ⟨b, _, rfl, hb, ht, ?_, fun _ => rfl, fun h => nomatch h⟩
    intro hinc
    rw [decide_eq_true_iff] at hinc
    have := hsome ((List.range len).map (fun i : Nat => f.ofInt (low + i * inc))) (by
      rw [← helems]
      unfold contents
      rw [map_map]
      rfl)
    rw [this]
    unfold StrictlySorted
    rw [pairwise_map]
    apply List.Pairwise.imp _ pairwise_lt_range
    intro i j hij
    rw [hf.lt_ofInt, decide_eq_true_iff]
    have : (i : Int) * inc < j * inc := Int.mul_lt_mul_of_pos_right (by omega) hinc
    omega
  | blist =>
    obtain ⟨b', isSort, hrun, hb', ht', hiff, hrec⟩ := isSSortList_spec hw hb ht
    refine ⟨b', isSort, hrun, hb', ht', ?_, fun h => absurd rfl h, fun _ => hrec⟩
    intro hsort
    have := hsome (l.map f.ofBool) (by
      rw [← helems]
      unfold contents
      rw [map_map]
      rfl)
    rw [this]
    have hl := hiff.mp hsort
    unfold StrictlySorted at *
    rw [pairwise_map]
    apply List.Pairwise.imp _ hl
    intro x y hxy
    rw [hf.lt_ofBool]
    exact hxy

end

end ListArg

namespace BlistImpl

open Blist BitBlocks PlainSetImpl PlistHeap ListArg

variable {w : Nat} {E : Type} [DecidableEq E] {f : ObjFuncs E}

theorem subAsSet_spec (ho : IsSetOrder f.eq f.lt) (sub : ListArg E) (entries : List (Option E))
    : ∃ S, subAsSet f sub entries = .ok (S.map some) ∧ StrictlySorted f.lt S
        ∧ ∀ x, memSet f.eq x S = memSet f.eq x entries.reduceOption := by
  have hset := setList_spec ho entries
  unfold subAsSet
  cases sub with
  | plist _ =>
    dsimp only
    split
    next hsorted =>
      obtain ⟨S, hS, hSsorted⟩ := (isSSortPlist_iff ho entries).mp hsorted
      refine ⟨S, by rw [hS]; rfl, hSsorted, ?_⟩
      intro x
      rw [hS]
      simp [reduceOption]
    next => exact hset
  | range low inc len => exact hset
  | other _ => exact hset
  | blist => exact hset

section

variable (hw : 0 < w) {b : Blist w} {l : List Bool} (hb : Refines b l) (hf : IsObjFuncs f)

include hw hb hf

variable {elems : List E}

theorem uniteGeneral_spec (sub : ListArg E) (subEntries : List (Option E)) {isSet : Bool}
    (hset : isSet = true → StrictlySorted f.lt elems) (hlen : elems.length = l.length)
    : ∃ blocks,
        (if isSet && bitLength w elems.length * subEntries.length < 2 * elems.length then
          uniteSearch f ⟨[⟨true, elems.map some⟩]⟩ 0 elems.length subEntries b
        else do
          let subEntries ← subAsSet f sub subEntries
          let blocks ← uniteListLoop f isSet ⟨[⟨true, elems.map some⟩, ⟨true, subEntries⟩]⟩ 0 1
            elems.length subEntries.length (elems.length + 1) b.blocks 1 1 0#w 1#w none
          return { b with blocks := blocks }) = .ok { b with blocks := blocks }
        ∧ SetsBits b.blocks blocks (foundAt f elems subEntries.reduceOption) := by
  have henough : elems.length ≤ b.blocks.length * w := by
    rw [hlen]
    exact hb.represents.enough
  split
  next hsearch =>
    rw [Bool.and_eq_true] at hsearch
    have hlist : (⟨[⟨true, elems.map some⟩]⟩ : PlistHeap E).Holds 0 elems := rfl
    obtain ⟨blocks, hrun, hbits⟩ := uniteSearch_spec hf.order hw hlist (hset hsearch.1) subEntries
      henough
    exact ⟨blocks, hrun, hbits⟩
  next hsearch =>
    obtain ⟨S, hS, hSsorted, hSmem⟩ := subAsSet_spec hf.order sub subEntries
    rw [hS]
    rw [ok_bind]
    have hlist : (⟨[⟨true, elems.map some⟩, ⟨true, S.map some⟩]⟩ : PlistHeap E).Holds 0 elems := rfl
    have hsub : (⟨[⟨true, elems.map some⟩, ⟨true, S.map some⟩]⟩ : PlistHeap E).Holds 1 S := rfl
    obtain ⟨blocks, hrun, hbits⟩ : ∃ blocks, uniteListLoop f isSet
        ⟨[⟨true, elems.map some⟩, ⟨true, S.map some⟩]⟩ 0 1 elems.length S.length (elems.length + 1)
        b.blocks 1 1 0#w 1#w none = .ok blocks
          ∧ SetsBits b.blocks blocks (foundAt f ([] ++ elems) ([] ++ S)) := by
      apply uniteListLoop_spec hf.order hw (Reading.start hlist) (Reading.start hsub) hSsorted hset
      . intro _
        rfl
      . simp
      . rfl
      . exact henough
      . simp
      . intro _
        rfl
      . simp [pendingAt_zero]
      . exact lt_succ_self elems.length
    rw [length_map, hrun]
    rw [ok_bind]
    rw [nil_append, nil_append, foundAt_congr hSmem] at hbits
    exact ⟨blocks, rfl, hbits⟩

omit hw hb hf [DecidableEq E] in
theorem foundAt_nil {sub : List E} (hempty : elems = [] ∨ sub = []) (i : Nat)
    : foundAt f elems sub i = false := by
  unfold foundAt
  rcases hempty with h | h
  . rw [h]
    rfl
  . rw [h]
    cases elems[i]? with
    | none => rfl
    | some x => rfl

omit hw hb hf [DecidableEq E] in
theorem length_of_range {s : Int} {len : Nat}
    (helems : contents f l (.range s 1 len) = elems.map some) : elems.length = len := by
  have hlen := congrArg length helems
  rw [length_map] at hlen
  rw [← hlen]
  simp [contents]

omit hb [DecidableEq E] hw in
theorem SetsBits.of_range {blocks blocks' : List (BitVec w)} {sub : List E} {s : Int} {len : Nat}
    (helems : contents f l (.range s 1 len) = elems.map some) (h : SetsBits blocks blocks'
      (fun i => decide (i < len) && sub.any (fun x => f.toInt x == some (s + i))))
    : SetsBits blocks blocks' (foundAt f elems sub) := by
  have heq : elems = (List.range len).map (fun i : Nat => f.ofInt (s + i * 1)) := by
    apply (List.map_inj_right (fun _ _ => Option.some.inj)).mp
    rw [← helems, map_map]
    rfl
  refine ⟨h.length_eq, ?_⟩
  intro i
  rw [h.bits, heq, foundAt_range hf]

variable (ht : Truthful b l) (list sub : ListArg E) (helems : list.contents f l = elems.map some)
  (hlen : elems.length = l.length)

include ht list sub helems hlen

theorem uniteBlistList_bits
    : ∃ b', uniteBlistList f list b sub = .ok b' ∧ b'.len = b.len
        ∧ SetsBits b.blocks b'.blocks (foundAt f elems (sub.contents f l).reduceOption)
        ∧ Truthful b' l ∧ (list ≠ .blist → b'.tnum = b.tnum)
        ∧ (b'.tnum ≠ .blist ↔ b.tnum ≠ .blist
          ∨ list = .blist ∧ elems ≠ [] ∧ sub.contents f l ≠ []) := by
  have hrange : elems.length ≤ b.blocks.length * w := by
    rw [hlen]
    exact hb.represents.enough
  unfold uniteBlistList
  rw [ListArg.entries_spec hw hb list]
  rw [ok_bind]
  rw [ListArg.entries_spec hw hb sub]
  rw [ok_bind]
  rw [helems]
  unfold requireSameLength
  rw [length_map, if_neg (by rw [hb.len_eq, hlen]; simp)]
  rw [pure_bind]
  dsimp only
  split
  next hempty =>
    rw [length_eq_zero_iff, length_eq_zero_iff] at hempty
    refine ⟨b, rfl, rfl, SetsBits.refl (foundAt_nil ?_), ht, fun _ => rfl, ?_⟩
    . rcases hempty with h | h
      . exact Or.inl h
      . rw [h]
        exact Or.inr rfl
    . tauto
  next hempty =>
    rw [length_eq_zero_iff, length_eq_zero_iff, not_or] at hempty
    split
    next s len t len' =>
      have hsub : contents f l (.range t 1 len')
          = ((List.range len').map (fun i : Nat => f.ofInt (t + i * 1))).map some := by
        rw [map_map]
        rfl
      obtain ⟨blocks, hrun, hbits⟩ := uniteRangeRange_spec hw hrange (s := s) (t := t)
      rw [hrun]
      rw [ok_bind]
      refine ⟨_, rfl, rfl, ?_, ⟨ht.ssort, ht.nsort⟩, fun _ => rfl, by simp⟩
      rw [length_of_range helems] at hbits
      apply SetsBits.of_range hf helems
      refine ⟨hbits.length_eq, ?_⟩
      intro i
      rw [hbits.bits, hsub, length_map, length_map, length_range]
      have hreduce (l : List E) : (l.map some).reduceOption = l := by
        simp [reduceOption]
      rw [hreduce, any_range hf, Bool.decide_and]
    next s len entries =>
      obtain ⟨blocks, hrun, hbits⟩ := uniteRangePlist_spec f hw entries hrange (s := s)
      rw [hrun]
      rw [ok_bind]
      rw [length_of_range helems] at hbits
      exact ⟨_, rfl, rfl, SetsBits.of_range hf helems hbits, ⟨ht.ssort, ht.nsort⟩, fun _ => rfl,
        by simp⟩
    next =>
      obtain ⟨b1, isSet, hsort, hb1, ht1, hset, hsame, hrec⟩ :=
        ListArg.isSSort_spec hw hb hf ht list helems
      have hframe := ListArg.isSSort_frame list hsort
      obtain ⟨blocks, hrun, hbits⟩ := uniteGeneral_spec hw hb1 hf sub (contents f l sub) hset hlen
      rw [hframe.1] at hbits
      rw [hsort]
      rw [ok_bind]
      refine ⟨_, hrun, hframe.2, hbits, ⟨ht1.ssort, ht1.nsort⟩, ?_, ?_⟩
      . intro hlist
        rw [hsame hlist]
      . by_cases hlist : list = .blist
        . tauto
        . rw [hsame hlist]
          tauto

theorem uniteBlistList_spec
    : ∃ b', uniteBlistList f list b sub = .ok b'
        ∧ Refines b' (uniteList f l elems (sub.contents f l).reduceOption) ∧ Truthful b' l
        ∧ (b'.tnum ≠ .blist ↔ b.tnum ≠ .blist
          ∨ list = .blist ∧ elems ≠ [] ∧ sub.contents f l ≠ []) := by
  obtain ⟨b', hrun, hlen', hbits, ht', -, hrec⟩ :=
    uniteBlistList_bits hw hb hf ht list sub helems hlen
  refine ⟨b', hrun, ⟨?_, hbits.represents_unite hb.represents hlen⟩, ht', hrec⟩
  rw [hlen', length_uniteList hlen]
  exact hb.len_eq

end

def intBoolFuncs : ObjFuncs (Int ⊕ Bool) where
  eq a b := decide (a = b)
  lt a b :=
    match a, b with
    | .inl m, .inl n => decide (m < n)
    | .inl _, .inr _ => true
    | .inr _, .inl _ => false
    | .inr x, .inr y => ltBool x y
  ofInt n := .inl n
  toInt a :=
    match a with
    | .inl n => some n
    | .inr _ => none
  ofBool b := .inr b

theorem isObjFuncs_intBoolFuncs : IsObjFuncs intBoolFuncs := by
  have heq : ∀ a b : Int ⊕ Bool, intBoolFuncs.eq a b = true
      ↔ intBoolFuncs.lt a b = false ∧ intBoolFuncs.lt b a = false := by
    rintro (m | x) (n | y)
    . simp [intBoolFuncs]
      omega
    . simp [intBoolFuncs]
    . simp [intBoolFuncs]
    . revert x y
      decide
  constructor
  . constructor
    . refine { irrefl := ?_, trans := ?_, incomp_trans := ?_ }
      . rintro (m | x)
        . simp [intBoolFuncs]
        . revert x
          decide
      . rintro (m | x) (n | y) (k | z)
        . simp [intBoolFuncs]
          omega
        . simp [intBoolFuncs]
        . simp [intBoolFuncs]
        . simp [intBoolFuncs]
        . simp [intBoolFuncs]
        . simp [intBoolFuncs]
        . simp [intBoolFuncs]
        . revert x y z
          decide
      . intro a b e hab hbe
        simp only [Bool.not_eq_true] at *
        rw [← heq] at *
        simp only [intBoolFuncs, decide_eq_true_eq] at *
        rw [hab, hbe]
    . exact heq
  . rintro n (m | x)
    . simp only [intBoolFuncs, decide_eq_true_eq, Sum.inl.injEq, Option.some.injEq]
      exact eq_comm
    . simp [intBoolFuncs]
  . intro n
    rfl
  . intro m n
    rfl
  . intro a b
    rfl

theorem refines_true_false : Refines (⟨.blist, 2, [1#64]⟩ : Blist 64) [true, false] := by
  refine ⟨rfl, by simp, ?_⟩
  intro i
  by_cases hi : i = 0
  . rw [hi]
    rfl
  . have hzero : ([true, false] : List Bool).getD i false = false := by
      match i with
      | 0 => exact absurd rfl hi
      | 1 => rfl
      | i + 2 => rfl
    unfold bitAt
    rw [hzero]
    by_cases hdiv : i / 64 = 0
    . rw [hdiv]
      have hmod : i % 64 ≠ 0 := by
        omega
      simp [hmod]
    . obtain ⟨k, hk⟩ := exists_eq_succ_of_ne_zero hdiv
      simp [hk]

section

variable (hw : 0 < w) {b : Blist w} {l : List Bool} (hb : Refines b l) (hf : IsObjFuncs f)

include hw hb hf

theorem uniteBlistList_entries (ht : Truthful b l) (list sub : ListArg E) {elems : List E}
    (helems : list.contents f l = elems.map some) (hlen : elems.length = l.length)
    : ∃ b', uniteBlistList f list b sub = .ok b' ∧ b'.len = b.len
        ∧ b'.blocks.length = b.blocks.length ∧ (list ≠ .blist → b'.tnum = b.tnum)
        ∧ ∀ i, bitAt b'.blocks i = true ↔ bitAt b.blocks i = true
          ∨ ∃ x y, elems[i]? = some x ∧ some y ∈ sub.contents f l ∧ f.eq x y = true := by
  obtain ⟨b', hrun, hlen', hbits, -, htnum, -⟩ :=
    uniteBlistList_bits hw hb hf ht list sub helems hlen
  refine ⟨b', hrun, hlen', hbits.length_eq, htnum, ?_⟩
  intro i
  rw [hbits.bits, Bool.or_eq_true]
  unfold foundAt memSet
  rw [Option.any_eq_true]
  simp only [List.any_eq_true, List.reduceOption_mem_iff]
  constructor
  . rintro (h | ⟨x, hx, y, hy, heq⟩)
    . exact Or.inl h
    . exact Or.inr ⟨x, y, hx, hy, heq⟩
  . rintro (h | ⟨x, y, hx, hy, heq⟩)
    . exact Or.inl h
    . exact Or.inr ⟨x, hx, y, hy, heq⟩

end

theorem uniteBlistList_entries_two
    : ∃ b', uniteBlistList intBoolFuncs (.plist [some (.inl 3), some (.inr true)])
          (⟨.blist, 2, [1#64]⟩ : Blist 64) (.plist [some (.inr true), none, some (.inr true)])
        = .ok b' ∧ b'.len = 2 ∧ b'.blocks.length = 1
        ∧ ((.plist [some (.inl 3), some (.inr true)] : ListArg (Int ⊕ Bool)) ≠ .blist →
            b'.tnum = .blist)
        ∧ ∀ i, bitAt b'.blocks i = true ↔ bitAt [1#64] i = true
          ∨ ∃ x y, ([.inl 3, .inr true] : List (Int ⊕ Bool))[i]? = some x
            ∧ some y ∈ ListArg.contents intBoolFuncs [true, false]
              (.plist [some (.inr true), none, some (.inr true)])
            ∧ intBoolFuncs.eq x y = true :=
  uniteBlistList_entries (by decide) refines_true_false isObjFuncs_intBoolFuncs
    ⟨(fun h => nomatch h), (fun h => nomatch h)⟩ _ _ rfl rfl

end BlistImpl
