import GapKernel.PRec.Lemmas.Compare

open List

abbrev AbsHeap (V : Type) := List (AbsRec V)

namespace AbsHeap

variable {V : Type} {w : IntSize}

def OnRecord (a : AbsHeap V) (rec : Nat) (P : AbsRec V → AbsRec V → Result (PRecOut V) → Prop)
    (a' : AbsHeap V) (out : Result (PRecOut V)) : Prop :=
  match a[rec]? with
  | none => a' = a ∧ out = .error .access
  | some r => ∃ r', P r r' out ∧ a' = a.set rec r'

def OnTwo (a : AbsHeap V) (left right : Nat) (P : AbsRec V → AbsRec V → Bool → Prop)
    (a' : AbsHeap V) (out : Result (PRecOut V)) : Prop :=
  a' = a ∧
    match a[left]?, a[right]? with
    | some l, some r => ∃ b, P l r b ∧ out = .ok (.bool b)
    | _, _ => out = .error .access

def IsLt (EQ LT : V → V → Bool) (ltName : Nat → Nat → Bool) (l r : AbsRec V) (b : Bool) : Prop :=
  ∃ bl br, Binds bl l.map ∧ KeySorted bl ∧ Binds br r.map ∧ KeySorted br
    ∧ b = ltLists (eqBinding EQ) (ltBinding LT ltName) bl br

def IsEq (EQ : V → V → Bool) (l r : AbsRec V) (b : Bool) : Prop :=
  b = true ↔ ∀ rnam, Option.Rel (fun x y => EQ x y = true) (l.map rnam) (r.map rnam)

def IsStep (a : AbsHeap V) : PRecOp w V → AbsHeap V → Result (PRecOut V) → Prop
  | .new, a', out =>
    a' = a ++ [{ immutable := false, map := fun _ => none }] ∧ out = .ok (.ref a.length)
  | .ass rec rnam val, a', out =>
    OnRecord a rec (fun r r' out =>
      if r.immutable then
        r' = r ∧ out = .error (.quit "Record Assignment: <rec> must be a mutable record" 0 0)
      else
        r' = AbsRec.assign r rnam.val val ∧ out = .ok .done) a' out
  | .unb rec rnam, a', out =>
    OnRecord a rec (fun r r' out =>
      if r.immutable then
        r' = r ∧ out = .error (.quit "Record Unbind: <rec> must be a mutable record" 0 0)
      else
        r' = AbsRec.unbind r rnam.val ∧ out = .ok .done) a' out
  | .isb rec rnam, a', out =>
    OnRecord a rec (fun r r' out => r' = r ∧ out = .ok (.bool (r.map rnam.val).isSome)) a' out
  | .elm rec rnam, a', out =>
    OnRecord a rec (fun r r' out => r' = r ∧ out = (r.map rnam.val).elim
      (.error (PRec.unboundError rnam.val)) (fun val => .ok (.val val))) a' out
  | .names rec, a', out =>
    OnRecord a rec (fun r r' out => r' = r ∧ ∃ rnams, out = .ok (.names rnams)
      ∧ rnams.Pairwise (fun m n => m < n)
      ∧ ∀ rnam, rnam ∈ rnams ↔ (r.map rnam).isSome = true) a' out
  | .eq left right EQ, a', out => OnTwo a left right (IsEq EQ) a' out
  | .lt left right EQ LT ltName, a', out => OnTwo a left right (IsLt EQ LT ltName) a' out
  | .sort rec, a', out => OnRecord a rec (fun r r' out => r' = r ∧ out = .ok .done) a' out
  | .makeImmutable rec, a', out =>
    OnRecord a rec (fun r r' out => r' = { r with immutable := true } ∧ out = .ok .done) a' out
  | .copy rec isMut copyObj, a', out =>
    match a[rec]? with
    | none => a' = a ∧ out = .error .access
    | some r =>
      if r.immutable then
        a' = a ∧ out = .ok (.ref rec)
      else
        a' = a ++ [{ immutable := !isMut, map := fun rnam => (r.map rnam).map copyObj }]
          ∧ out = .ok (.ref a.length)

def IsRun (a : AbsHeap V) : List (PRecOp w V) → AbsHeap V → List (Result (PRecOut V)) → Prop
  | [], a', outs => a' = a ∧ outs = []
  | op :: ops, a', outs => ∃ a1 out outs1,
      IsStep a op a1 out ∧ IsRun a1 ops a' outs1 ∧ outs = out :: outs1

end AbsHeap

namespace PRecHeap

variable {V : Type} {w : IntSize} {h : PRecHeap V} {a : AbsHeap V}

structure Agrees (w : IntSize) (h : PRecHeap V) (a : AbsHeap V) : Prop where
  length : h.length = a.length
  refines : ∀ (i : Nat) (bag : PRec V) (r : AbsRec V), h[i]? = some bag → a[i]? = some r → bag.Refines w r

theorem Agrees.cases (hag : Agrees w h a) (rec : Nat)
    : (get h rec = .error .access ∧ a[rec]? = none)
      ∨ ∃ bag r, h[rec]? = some bag ∧ get h rec = .ok bag ∧ a[rec]? = some r
          ∧ bag.Refines w r := by
  unfold get
  cases hbag : h[rec]? with
  | none =>
    left
    rw [List.getElem?_eq_none_iff, hag.length] at hbag
    exact ⟨rfl, getElem?_eq_none hbag⟩
  | some bag =>
    right
    have hlt : rec < a.length := by
      rw [← hag.length]
      exact (List.getElem?_eq_some_iff.mp hbag).1
    have hr := getElem?_eq_getElem hlt
    exact ⟨bag, a[rec], rfl, rfl, hr, hag.refines rec bag _ hbag hr⟩

variable {rec : Nat} {bag : PRec V} {r : AbsRec V}

section

variable (hag : Agrees w h a)

include hag

theorem Agrees.set (hr : bag.Refines w r)
    : Agrees w (h.set rec bag) (a.set rec r) := by
  constructor
  . rw [length_set, length_set]
    exact hag.length
  . intro i bag' r' hbag hr'
    rw [getElem?_set] at hbag hr'
    split at hbag
    . next heq =>
      rw [if_pos heq] at hr'
      split at hbag
      . split at hr'
        . cases hbag
          cases hr'
          exact hr
        . cases hr'
      . cases hbag
    . next hne =>
      rw [if_neg hne] at hr'
      exact hag.refines i bag' r' hbag hr'

theorem Agrees.set_same (ha : a[rec]? = some r) (hr : bag.Refines w r)
    : Agrees w (h.set rec bag) a := by
  have : Agrees w (h.set rec bag) (a.set rec r) := hag.set hr
  rw [List.getElem?_eq_some_iff] at ha
  rcases ha with ⟨hlt, heq⟩
  rw [← heq, set_getElem_self] at this
  exact this

theorem Agrees.append (hr : bag.Refines w r)
    : Agrees w (h ++ [bag]) (a ++ [r]) := by
  constructor
  . simp [hag.length]
  . intro i bag' r' hbag hr'
    rw [getElem?_append] at hbag hr'
    rw [← hag.length] at hr'
    split at hbag
    . next hlt =>
      rw [if_pos hlt] at hr'
      exact hag.refines i bag' r' hbag hr'
    . next hge =>
      rw [if_neg hge] at hr'
      rw [getElem?_singleton] at hbag hr'
      split at hbag
      . next heq =>
        rw [if_pos heq] at hr'
        cases hbag
        cases hr'
        exact hr
      . cases hbag

theorem Agrees.step_onRecord (op : PRecOp w V) (rec : Nat)
    {f : PRec V → Result (PRec V × Result (PRecOut V))} (hstep : stepOk h op = onRecord h rec f)
    {P : AbsRec V → AbsRec V → Result (PRecOut V) → Prop}
    (hP : ∀ a' out, AbsHeap.OnRecord a rec P a' out → AbsHeap.IsStep a op a' out)
    (hf : ∀ bag r, bag.Refines w r → (∃ bag' r' out, f bag = .ok (bag', out) ∧ bag'.Refines w r' ∧ P r r' out) ∨ ∃ e, f bag = .error e ∧ P r r (.error e))
    : ∃ a', AbsHeap.IsStep a op a' (step h op).2 ∧ Agrees w (step h op).1 a' := by
  unfold step
  rw [hstep]
  unfold onRecord
  unfold AbsHeap.OnRecord at hP
  cases hag.cases rec with
  | inl hnone =>
    rw [hnone.2] at hP
    rw [hnone.1]
    exact ⟨a, hP _ _ ⟨rfl, rfl⟩, hag⟩
  | inr hsome =>
    obtain ⟨bag, r, hbag, hget, hr, href⟩ := hsome
    rw [hr] at hP
    rw [hget, ok_bind]
    cases hf bag r href with
    | inl hok =>
      obtain ⟨bag', r', out, hrun, href', hrr⟩ := hok
      rw [hrun, ok_bind]
      exact ⟨a.set rec r', hP _ _ ⟨r', hrr, rfl⟩, hag.set href'⟩
    | inr herr =>
      obtain ⟨e, hrun, hrr⟩ := herr
      rw [hrun]
      refine ⟨a, hP _ _ ⟨r, hrr, ?_⟩, hag⟩
      rw [List.getElem?_eq_some_iff] at hr
      cases hr with
      | intro hlt heq => rw [← heq, set_getElem_self]

theorem sortPRecRNam_agrees (hget : get h rec = .ok bag) (hr : a[rec]? = some r)
    (href : bag.Refines w r)
    : ∃ bag', sortPRecRNam w h rec = .ok (h.set rec bag') ∧ Agrees w (h.set rec bag') a
        ∧ bag'.Refines w r ∧ bag'.Clean w := by
  obtain ⟨bag', hrun, hsorted⟩ := PRec.sortPRecRNam_spec href.wf
  have href' := hsorted.keeps.refines href
  unfold sortPRecRNam
  rw [hget, ok_bind, hrun, ok_bind]
  exact ⟨bag', rfl, hag.set_same hr href', href', hsorted.clean⟩

end

theorem get_set_self (hlt : rec < h.length) (bag : PRec V)
    : get (h.set rec bag) rec = .ok bag := by
  unfold get
  rw [getElem?_set_self hlt]
  rfl

theorem get_lt (hget : get h rec = .ok bag) : rec < h.length := by
  unfold get at hget
  split at hget
  . next heq => exact (List.getElem?_eq_some_iff.mp heq).1
  . cases hget

variable {left right : Nat} {bagL bagR : PRec V} {l : AbsRec V}

theorem sort_both (hag : Agrees w h a) (hgetL : get h left = .ok bagL) (hl : a[left]? = some l)
    (hrefL : bagL.Refines w l) (hgetR : get h right = .ok bagR) (hr : a[right]? = some r)
    (hrefR : bagR.Refines w r)
    : ∃ h1 h2 bagL' bagR', sortPRecRNam w h left = .ok h1 ∧ sortPRecRNam w h1 right = .ok h2
        ∧ get h2 left = .ok bagL' ∧ get h2 right = .ok bagR' ∧ Agrees w h2 a
        ∧ bagL'.Refines w l ∧ bagL'.Clean w ∧ bagR'.Refines w r ∧ bagR'.Clean w := by
  obtain ⟨bagL', hsortL, hagL, hrefL', hcleanL⟩ := sortPRecRNam_agrees hag hgetL hl hrefL
  have hltL := get_lt hgetL
  have hltR := get_lt hgetR
  by_cases heq : left = right
  . subst heq
    have hgetR' := get_set_self hltL bagL'
    obtain ⟨bagR', hsortR, hagR, hrefR', hcleanR⟩ :=
      sortPRecRNam_agrees hagL hgetR' hl hrefL'
    rw [hl] at hr
    cases hr
    have hget : get ((h.set left bagL').set left bagR') left = .ok bagR' :=
      get_set_self (by simpa using hltL) bagR'
    exact ⟨_, _, bagR', bagR', hsortL, hsortR, hget, hget, hagR, hrefR', hcleanR, hrefR', hcleanR⟩
  . have hgetR' : get (h.set left bagL') right = .ok bagR := by
      unfold get
      rw [getElem?_set_ne heq]
      exact hgetR
    obtain ⟨bagR', hsortR, hagR, hrefR', hcleanR⟩ :=
      sortPRecRNam_agrees hagL hgetR' hr hrefR
    have hget : get ((h.set left bagL').set right bagR') right = .ok bagR' :=
      get_set_self (by simpa using hltR) bagR'
    have hgetL' : get ((h.set left bagL').set right bagR') left = .ok bagL' := by
      unfold get
      rw [getElem?_set_ne (Ne.symm heq)]
      exact get_set_self hltL bagL'
    exact ⟨_, _, bagL', bagR', hsortL, hsortR, hgetL', hget, hagR, hrefL', hcleanL, hrefR', hcleanR⟩

variable {bl br : List (Nat × V)}

theorem eqPRec_spec (hag : Agrees w h a) (EQ : V → V → Bool) (hgetL : get h left = .ok bagL)
    (hl : a[left]? = some l) (hrefL : bagL.Refines w l) (hgetR : get h right = .ok bagR)
    (hr : a[right]? = some r) (hrefR : bagR.Refines w r) (hbl : Binds bl l.map) (hsl : KeySorted bl)
    (hbr : Binds br r.map) (hsr : KeySorted br)
    : ∃ h', eqPRec w EQ h left right = .ok (h', eqLists (eqBinding EQ) bl br)
        ∧ Agrees w h' a := by
  have hlenL : bagL.len = bl.length := by
    rw [← (hrefL.binds.perm_of_binds hbl).length_eq]
    exact (length_map _).symm
  have hlenR : bagR.len = br.length := by
    rw [← (hrefR.binds.perm_of_binds hbr).length_eq]
    exact (length_map _).symm
  unfold eqPRec
  rw [hgetL, ok_bind, hgetR, ok_bind]
  split
  . next hne =>
    have hfalse : eqLists (eqBinding EQ) bl br = false := by
      rw [← Bool.not_eq_true, eqLists_iff]
      intro hall
      have := hall.length_eq
      omega
    rw [hfalse]
    exact ⟨h, rfl, hag⟩
  . next hlen =>
    obtain ⟨h1, h2, bagL', bagR', hsort1, hsort2, hgetL', hgetR', hag', hrefL', hcleanL, hrefR',
      hcleanR⟩ := sort_both hag hgetL hl hrefL hgetR hr hrefR
    rw [hsort1, ok_bind, hsort2, ok_bind, hgetL', ok_bind, hgetR', ok_bind]
    have hbindL := hbl.sorted_unique hrefL'.binds hsl hcleanL.keySorted
    have hbindR := hbr.sorted_unique hrefR'.binds hsr hcleanR.keySorted
    have hlen' : bagL'.entries.length = bagR'.entries.length := by
      rw [hbindL] at hlenL
      rw [hbindR] at hlenR
      unfold PRec.bindings at hlenL hlenR
      rw [length_map] at hlenL hlenR
      omega
    have := PRec.eqComponents_spec EQ bagR'.entries [] [] rfl rfl rfl hlen' hcleanL.parts.neg
      hcleanR.parts.neg
    unfold PRec.len
    rw [length_nil] at this
    rw [this, ok_bind, hbindL, hbindR]
    exact ⟨h2, rfl, hag'⟩

theorem ltPRec_spec (hag : Agrees w h a) (EQ LT : V → V → Bool) (ltName : Nat → Nat → Bool)
    (hgetL : get h left = .ok bagL) (hl : a[left]? = some l) (hrefL : bagL.Refines w l)
    (hgetR : get h right = .ok bagR) (hr : a[right]? = some r) (hrefR : bagR.Refines w r)
    (hbl : Binds bl l.map) (hsl : KeySorted bl) (hbr : Binds br r.map) (hsr : KeySorted br)
    : ∃ h', ltPRec w EQ LT ltName h left right
          = .ok (h', ltLists (eqBinding EQ) (ltBinding LT ltName) bl br)
        ∧ Agrees w h' a := by
  obtain ⟨h1, h2, bagL', bagR', hsort1, hsort2, hgetL', hgetR', hag', hrefL', hcleanL, hrefR',
    hcleanR⟩ := sort_both hag hgetL hl hrefL hgetR hr hrefR
  unfold ltPRec
  rw [hsort1, ok_bind, hsort2, ok_bind, hgetL', ok_bind, hgetR', ok_bind]
  have hbindL := hbl.sorted_unique hrefL'.binds hsl hcleanL.keySorted
  have hbindR := hbr.sorted_unique hrefR'.binds hsr hcleanR.keySorted
  have := PRec.ltComponents_spec EQ LT ltName bagL'.entries [] [] rfl rfl rfl
    (fun entry he => ⟨hcleanL.parts.neg entry he, hcleanL.wf.bound entry he⟩)
    (fun entry he => ⟨hcleanR.parts.neg entry he, hcleanR.wf.bound entry he⟩)
  unfold PRec.len
  rw [length_nil] at this
  rw [this, ok_bind, hbindL, hbindR]
  exact ⟨h2, rfl, hag'⟩

theorem isEq_eqLists {EQ : V → V → Bool} (hbl : Binds bl l.map) (hsl : KeySorted bl)
    (hbr : Binds br r.map) (hsr : KeySorted br)
    : AbsHeap.IsEq EQ l r (eqLists (eqBinding EQ) bl br) := by
  unfold AbsHeap.IsEq
  rw [forall_rel_iff _ hbl hbr hsl hsr, eqLists_iff]
  unfold eqBinding
  simp

theorem exists_sorted (href : bag.Refines w r)
    : ∃ b, Binds b r.map ∧ KeySorted b := by
  obtain ⟨bag', _, hsorted⟩ := PRec.sortPRecRNam_spec href.wf
  exact ⟨bag'.bindings, (hsorted.keeps.refines href).binds, hsorted.clean.keySorted⟩

theorem Agrees.step_onTwo (hag : Agrees w h a) (op : PRecOp w V) (left right : Nat)
    {f : Result (PRecHeap V × Bool)} (hstep : stepOk h op = (do
      let (h, b) ← f
      return (h, .ok (.bool b))))
    {P : AbsRec V → AbsRec V → Bool → Prop}
    (hP : ∀ a' out, AbsHeap.OnTwo a left right P a' out → AbsHeap.IsStep a op a' out)
    (hL : get h left = .error .access → f = .error .access)
    (hR : ∀ bagL l, get h left = .ok bagL → a[left]? = some l → bagL.Refines w l
      → get h right = .error .access → f = .error .access)
    (hf : ∀ bagL bagR l r, get h left = .ok bagL → a[left]? = some l → bagL.Refines w l
      → get h right = .ok bagR → a[right]? = some r → bagR.Refines w r
      → ∃ h' b, f = .ok (h', b) ∧ Agrees w h' a ∧ P l r b)
    : ∃ a', AbsHeap.IsStep a op a' (step h op).2 ∧ Agrees w (step h op).1 a' := by
  unfold step
  rw [hstep]
  unfold AbsHeap.OnTwo at hP
  cases hag.cases left with
  | inl hnone =>
    rw [hnone.2] at hP
    rw [hL hnone.1]
    exact ⟨a, hP _ _ ⟨rfl, rfl⟩, hag⟩
  | inr hsome =>
    obtain ⟨bagL, l, _, hgetL, hl, hrefL⟩ := hsome
    rw [hl] at hP
    cases hag.cases right with
    | inl hnone =>
      rw [hnone.2] at hP
      rw [hR bagL l hgetL hl hrefL hnone.1]
      exact ⟨a, hP _ _ ⟨rfl, rfl⟩, hag⟩
    | inr hsome =>
      obtain ⟨bagR, r, _, hgetR, hr, hrefR⟩ := hsome
      rw [hr] at hP
      obtain ⟨h', b, hrun, hag', hlr⟩ := hf bagL bagR l r hgetL hl hrefL hgetR hr hrefR
      rw [hrun, ok_bind]
      exact ⟨a, hP _ _ ⟨rfl, b, hlr, rfl⟩, hag'⟩

theorem step_spec (hag : Agrees w h a) (op : PRecOp w V)
    : ∃ a', AbsHeap.IsStep a op a' (step h op).2 ∧ Agrees w (step h op).1 a' := by
  cases op with
  | new =>
    refine ⟨_, ⟨rfl, ?_⟩, hag.append ?_⟩
    . rw [← hag.length]
      rfl
    . constructor
      . rfl
      . constructor
        . exact ⟨[], [], rfl, by simp, by simp, by simp⟩
        . simp [PRec.bindings]
        . simp
      . exact Binds.nil
  | isb rec rnam =>
    apply hag.step_onRecord (.isb rec rnam) rec rfl (fun _ _ h => h)
    intro bag r href
    obtain ⟨bag', hrun, href'⟩ := PRec.isbPRec_spec href rnam
    left
    rw [hrun]
    exact ⟨bag', r, _, rfl, href', rfl, rfl⟩
  | elm rec rnam =>
    apply hag.step_onRecord (.elm rec rnam) rec rfl (fun _ _ h => h)
    intro bag r href
    obtain ⟨bag', hrun, href'⟩ := PRec.elmPRec_spec href rnam
    left
    rw [hrun]
    refine ⟨bag', r, _, rfl, href', rfl, ?_⟩
    cases r.map rnam.val with
    | none => rfl
    | some val => rfl
  | names rec =>
    apply hag.step_onRecord (.names rec) rec rfl (fun _ _ h => h)
    intro bag r href
    obtain ⟨bag', rnams, hrun, href', hsorted, hmem⟩ := PRec.recNames_spec href
    left
    rw [hrun]
    exact ⟨bag', r, _, rfl, href', rfl, rnams, rfl, hsorted, hmem⟩
  | ass rec rnam val =>
    apply hag.step_onRecord (.ass rec rnam val) rec rfl (fun _ _ h => h)
    intro bag r href
    cases hmut : r.immutable with
    | true =>
      right
      unfold PRec.assPRec
      rw [href.immutable, hmut]
      exact ⟨_, rfl, rfl, rfl⟩
    | false =>
      obtain ⟨bag', hrun, href'⟩ := PRec.assPRec_spec href hmut rnam val
      left
      rw [hrun]
      exact ⟨bag', _, _, rfl, href', rfl, rfl⟩
  | unb rec rnam =>
    apply hag.step_onRecord (.unb rec rnam) rec rfl (fun _ _ h => h)
    intro bag r href
    cases hmut : r.immutable with
    | true =>
      right
      unfold PRec.unbPRec
      rw [href.immutable, hmut]
      exact ⟨_, rfl, rfl, rfl⟩
    | false =>
      obtain ⟨bag', hrun, href'⟩ := PRec.unbPRec_spec href hmut rnam
      left
      rw [hrun]
      exact ⟨bag', _, _, rfl, href', rfl, rfl⟩
  | sort rec =>
    apply hag.step_onRecord (.sort rec) rec (f := fun bag => do
      let bag ← bag.sortPRecRNam w
      return (bag, .ok .done)) _ (fun _ _ h => h)
    . intro bag r href
      obtain ⟨bag', hrun, hsorted⟩ := PRec.sortPRecRNam_spec href.wf
      left
      rw [hrun]
      exact ⟨bag', r, _, rfl, hsorted.keeps.refines href, rfl, rfl⟩
    . unfold stepOk sortPRecRNam onRecord
      simp
  | makeImmutable rec =>
    apply hag.step_onRecord (.makeImmutable rec) rec (f := fun bag => do
      let bag ← PRec.sortPRecRNam w { bag with immutable := true }
      return (bag, .ok .done)) _ (fun _ _ h => h)
    . intro bag r href
      have href' : PRec.Refines w { bag with immutable := true } { r with immutable := true } :=
        { immutable := rfl
          wf := href.wf.of_names rfl
          binds := href.binds }
      obtain ⟨bag', hrun, hsorted⟩ := PRec.sortPRecRNam_spec href'.wf
      left
      rw [hrun]
      exact ⟨bag', _, _, rfl, hsorted.keeps.refines href', rfl, rfl⟩
    . unfold stepOk makeImmutablePRec onRecord
      dsimp only
      cases hget : get h rec with
      | error e => rfl
      | ok bag =>
        rw [ok_bind]
        unfold sortPRecRNam
        rw [get_set_self (get_lt hget), ok_bind]
        simp [ok_bind]
  | copy rec isMut copyObj =>
    unfold AbsHeap.IsStep
    unfold step stepOk copyPRec
    dsimp only
    cases hag.cases rec with
    | inl hnone =>
      rw [hnone.1, hnone.2]
      exact ⟨a, ⟨rfl, rfl⟩, hag⟩
    | inr hsome =>
      obtain ⟨bag, r, hbag, hget, hr, href⟩ := hsome
      rw [hget, hr, ok_bind, href.immutable]
      dsimp only
      cases hmut : r.immutable with
      | true => exact ⟨a, ⟨rfl, rfl⟩, hag⟩
      | false =>
        refine ⟨_, ⟨rfl, ?_⟩, hag.append ?_⟩
        . rw [← hag.length]
          rfl
        . constructor
          . rfl
          . apply href.wf.of_names
            simp
          . have := href.binds.mapValues copyObj
            unfold PRec.bindings at this ⊢
            rw [map_map] at this ⊢
            exact this
  | eq left right EQ =>
    apply hag.step_onTwo (.eq left right EQ) left right rfl (fun _ _ h => h)
    . intro hL
      unfold eqPRec
      rw [hL]
      rfl
    . intro bagL l hgetL hl hrefL hR
      unfold eqPRec
      rw [hgetL, ok_bind, hR]
      rfl
    . intro bagL bagR l r hgetL hl hrefL hgetR hr hrefR
      obtain ⟨bl, hbl, hsl⟩ := exists_sorted hrefL
      obtain ⟨br, hbr, hsr⟩ := exists_sorted hrefR
      obtain ⟨h', hrun, hag'⟩ :=
        eqPRec_spec hag EQ hgetL hl hrefL hgetR hr hrefR hbl hsl hbr hsr
      exact ⟨h', _, hrun, hag', isEq_eqLists hbl hsl hbr hsr⟩
  | lt left right EQ LT ltName =>
    apply hag.step_onTwo (.lt left right EQ LT ltName) left right rfl (fun _ _ h => h)
    . intro hL
      unfold ltPRec sortPRecRNam
      rw [hL]
      rfl
    . intro bagL l hgetL hl hrefL hR
      obtain ⟨bag', hsort, hag', _, _⟩ := sortPRecRNam_agrees hag hgetL hl hrefL
      have hR' : get (h.set left bag') right = .error .access := by
        cases hag'.cases right with
        | inl hnone => exact hnone.1
        | inr hsome =>
          obtain ⟨_, r, _, _, hr, _⟩ := hsome
          cases hag.cases right with
          | inl hnone =>
            rw [hnone.2] at hr
            cases hr
          | inr hsome =>
            obtain ⟨_, _, _, hget, _, _⟩ := hsome
            rw [hR] at hget
            cases hget
      unfold ltPRec
      rw [hsort, ok_bind]
      unfold sortPRecRNam
      rw [hR']
      rfl
    . intro bagL bagR l r hgetL hl hrefL hgetR hr hrefR
      obtain ⟨bl, hbl, hsl⟩ := exists_sorted hrefL
      obtain ⟨br, hbr, hsr⟩ := exists_sorted hrefR
      obtain ⟨h', hrun, hag'⟩ :=
        ltPRec_spec hag EQ LT ltName hgetL hl hrefL hgetR hr hrefR hbl hsl hbr hsr
      exact ⟨h', _, hrun, hag', bl, br, hbl, hsl, hbr, hsr, rfl⟩

theorem run_agrees (ops : List (PRecOp w V)) : ∀ {h : PRecHeap V} {a : AbsHeap V}, Agrees w h a
    → ∃ a', AbsHeap.IsRun a ops a' (run h ops).2 ∧ Agrees w (run h ops).1 a' := by
  induction ops with
  | nil =>
    intro h a hag
    exact ⟨a, ⟨rfl, rfl⟩, hag⟩
  | cons op ops ih =>
    intro h a hag
    obtain ⟨a1, hstep, hag1⟩ := step_spec hag op
    obtain ⟨a2, hrun, hag2⟩ := ih hag1
    exact ⟨a2, ⟨a1, _, _, hstep, hrun, rfl⟩, hag2⟩

theorem isSetOrder_comap {A B : Type} {eq lt : B → B → Bool} (ho : IsSetOrder eq lt) (f : A → B)
    : IsSetOrder (fun x y => eq (f x) (f y)) (fun x y => lt (f x) (f y)) where
  order :=
    { irrefl := fun x h => by
        rw [ho.lt_self] at h
        cases h
      trans := fun _ _ _ hxy hyz => ho.lt_trans hxy hyz
      incomp_trans := by
        intro x y z hxy hyz
        simp only [Bool.not_eq_true] at *
        rw [← ho.eq_iff] at *
        exact ho.eq_trans hxy hyz }
  eq_iff := fun x y => ho.eq_iff (f x) (f y)

theorem agrees_nil : Agrees w ([] : PRecHeap V) [] := by
  constructor
  . rfl
  . intro i bag r h
    cases h

theorem Agrees.order (hag : Agrees w h a) {EQ LT : V → V → Bool} {ltName : Nat → Nat → Bool}
    (ho : IsSetOrder EQ LT) (hn : IsNameOrder ltName)
    : ∃ eq lt : Fin h.length → Fin h.length → Bool, IsSetOrder eq lt
      ∧ (∀ i j : Fin h.length, ∃ h', eqPRec w EQ h i j = .ok (h', eq i j))
      ∧ (∀ i j : Fin h.length, ∃ h', ltPRec w EQ LT ltName h i j = .ok (h', lt i j))
      ∧ ∀ (i j : Fin h.length) l r, a[i.val]? = some l → a[j.val]? = some r
        → AbsHeap.IsEq EQ l r (eq i j) := by
  have hsorted : ∀ i : Fin h.length, ∃ b, ∃ bag r, get h i = .ok bag ∧ a[i.val]? = some r
      ∧ bag.Refines w r ∧ Binds b r.map ∧ KeySorted b := by
    intro i
    cases hag.cases i with
    | inl hnone =>
      have := hnone.2
      rw [List.getElem?_eq_none_iff, ← hag.length] at this
      omega
    | inr hsome =>
      obtain ⟨bag, r, _, hget, hr, href⟩ := hsome
      obtain ⟨b, hb, hs⟩ := exists_sorted href
      exact ⟨b, bag, r, hget, hr, href, hb, hs⟩
  choose b hb using hsorted
  apply Exists.intro (fun i j => eqLists (eqBinding EQ) (b i) (b j))
  apply Exists.intro (fun i j => ltLists (eqBinding EQ) (ltBinding LT ltName) (b i) (b j))
  refine ⟨isSetOrder_comap (isSetOrder_binding ho hn).lists b, ?_, ?_, ?_⟩
  . intro i j
    obtain ⟨bagL, l, hgetL, hl, hrefL, hbl, hsl⟩ := hb i
    obtain ⟨bagR, r, hgetR, hr, hrefR, hbr, hsr⟩ := hb j
    obtain ⟨h', hrun, _⟩ := eqPRec_spec hag EQ hgetL hl hrefL hgetR hr hrefR hbl hsl hbr hsr
    exact ⟨h', hrun⟩
  . intro i j
    obtain ⟨bagL, l, hgetL, hl, hrefL, hbl, hsl⟩ := hb i
    obtain ⟨bagR, r, hgetR, hr, hrefR, hbr, hsr⟩ := hb j
    obtain ⟨h', hrun, _⟩ :=
      ltPRec_spec hag EQ LT ltName hgetL hl hrefL hgetR hr hrefR hbl hsl hbr hsr
    exact ⟨h', hrun⟩
  . intro i j l r hl hr
    obtain ⟨bagL, l', hgetL, hl', hrefL, hbl, hsl⟩ := hb i
    obtain ⟨bagR, r', hgetR, hr', hrefR, hbr, hsr⟩ := hb j
    rw [hl] at hl'
    rw [hr] at hr'
    cases hl'
    cases hr'
    exact isEq_eqLists hbl hsl hbr hsr

/--
Every run of operations on plain records, from the empty heap, does the same as a run on finite
maps. All records keep the invariant, a name is found exactly if it is bound, sorting does not
change the map, and the comparisons are those of a total order.
-/
theorem run_refines (ops : List (PRecOp w V))
    : ∃ a, AbsHeap.IsRun [] ops a (run [] ops).2 ∧ (run [] ops).1.length = a.length
      ∧ (∀ (i : Nat) (bag : PRec V) (r : AbsRec V), (run [] ops).1[i]? = some bag → a[i]? = some r
        → bag.Refines w r
          ∧ (∀ (rnam : RNam w) (cleanup : Bool), ∃ bag' i,
            bag.positionPRec w rnam.val cleanup = .ok (bag', i)
              ∧ PRec.IsPosition bag'.entries rnam.val i ∧ bag'.Refines w r
              ∧ (i ≠ 0 ↔ (r.map rnam.val).isSome = true))
          ∧ ∃ bag', bag.sortPRecRNam w = .ok bag' ∧ bag'.Refines w r)
      ∧ ∀ (EQ LT : V → V → Bool) (ltName : Nat → Nat → Bool), IsSetOrder EQ LT
        → IsNameOrder ltName
        → ∃ eq lt : Fin (run [] ops).1.length → Fin (run [] ops).1.length → Bool, IsSetOrder eq lt
          ∧ (∀ i j : Fin (run [] ops).1.length,
            ∃ h', eqPRec w EQ (run [] ops).1 i j = .ok (h', eq i j))
          ∧ (∀ i j : Fin (run [] ops).1.length,
            ∃ h', ltPRec w EQ LT ltName (run [] ops).1 i j = .ok (h', lt i j))
          ∧ ∀ (i j : Fin (run [] ops).1.length) l r, a[i.val]? = some l → a[j.val]? = some r
            → AbsHeap.IsEq EQ l r (eq i j) := by
  obtain ⟨a, hrun, hag⟩ := run_agrees ops (agrees_nil (w := w) (V := V))
  refine ⟨a, hrun, hag.length, ?_, ?_⟩
  . intro i bag r hbag hr
    have href := hag.refines i bag r hbag hr
    refine ⟨href, ?_, ?_⟩
    . intro rnam cleanup
      obtain ⟨bag', i, hpos, hkeeps, _, _, hi⟩ := PRec.positionPRec_spec href.wf rnam cleanup
      have href' := hkeeps.refines href
      exact ⟨bag', i, hpos, hi, href', href'.position_ne_zero_iff hi⟩
    . obtain ⟨bag', hsort, hsorted⟩ := PRec.sortPRecRNam_spec href.wf
      exact ⟨bag', hsort, hsorted.keeps.refines href⟩
  . intro EQ LT ltName ho hn
    exact hag.order ho hn

end PRecHeap
