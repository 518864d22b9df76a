import GapKernel.Scanner.Lemmas.GetString

open List Nat

namespace TypInputFile

open Scanner

def atEnd : TypInputFile :=
  { line := [eofChar], more := [] }

/--
`input i` is the input after `i` calls of `GetNextChar`. The characters from the current one on are
those of `cs`, and then the one for the end of the input again and again.
-/
structure IsStream (input : Nat → TypInputFile) (cs : List UInt8) : Prop where
  next (i : Nat) : (input i).getNextChar = .ok (input (i + 1))
  current_eq (i : Nat) : (input i).current = cs.getD i eofChar
  noEof : eofChar ∉ cs

theorem settle_length (line : List UInt8) (more : List (List UInt8))
    : settle line more = atEnd
        ∨ (settle line more).text.length ≤ (line ++ more.flatten).length := by
  fun_induction settle line more with
  | case1 => exact .inl rfl
  | case2 line more ih => exact ih
  | case3 more => exact .inr (Nat.le_refl _)
  | case4 more rest ih =>
    apply ih.imp_right
    intro hle
    exact le_succ_of_le (le_succ_of_le hle)
  | case5 more d rest hnewline hreturn ih =>
    apply ih.imp_right
    intro hle
    simp only [length_append, length_cons, length_tail] at hle ⊢
    omega
  | case6 more d rest hnewline hreturn => exact .inr (Nat.le_refl _)
  | case7 more c rest hback => exact .inr (Nat.le_refl _)

variable {input : Nat → TypInputFile} {cs : List UInt8}

theorem IsStream.drop (h : IsStream input cs) (k : Nat)
    : IsStream (fun i => input (k + i)) (cs.drop k) where
  next i := h.next (k + i)
  current_eq i := by
    rw [h.current_eq]
    simp only [getD_eq_getElem?_getD, getElem?_drop]
  noEof hmem := h.noEof (mem_of_mem_drop hmem)

theorem IsStream.length_le (h : IsStream input cs) : cs.length ≤ (input 0).text.length := by
  induction cs generalizing input with
  | nil => exact Nat.zero_le _
  | cons c cs ih =>
    have htail := h.drop 1
    have hle := ih htail
    have hnext := h.next 0
    unfold getNextChar at hnext
    split at hnext
    . cases hnext
    . next a line hline =>
      have hlen : (input 0).text.length = (line ++ (input 0).more.flatten).length + 1 := by
        unfold text
        rw [hline]
        rfl
      rw [hlen]
      rcases settle_length line (input 0).more with hend | hsettle
      . cases cs with
        | nil => exact succ_le_succ (Nat.zero_le _)
        | cons d cs =>
          have hcurrent := htail.current_eq 0
          rw [← Except.ok.inj hnext, hend] at hcurrent
          apply absurd _ htail.noEof
          rw [show eofChar = d from hcurrent]
          exact mem_cons_self
      . rw [← Except.ok.inj hnext] at hle
        exact succ_le_succ (Nat.le_trans hle hsettle)

end TypInputFile

namespace Scanner

open TypInputFile StringObj

variable {w : IntSize} {input : Nat → TypInputFile} {cs : List UInt8}

theorem getNext_stream (h : IsStream input cs) (i : Nat) (errors : List String) (v : List UInt8)
    : getNext ⟨input i, errors, v⟩
        = .ok (cs.getD (i + 1) eofChar, ⟨input (i + 1), errors, v⟩) := by
  unfold getNext
  rw [h.next i, ok_bind, h.current_eq]
  rfl

section Escape

def isOctal (c : UInt8) : Bool :=
  '0'.toUInt8 ≤ c ∧ c ≤ '7'.toUInt8

/--
The character for the escape sequence at the backslash that `cs` starts with, and the text behind
it. The first component is 1 if the second one of three digits is no octal digit, there is no such
sequence among the documented ones.
-/
def escape (cs : List UInt8) : Option (Nat × UInt8 × List UInt8) :=
  let c := fun i => cs.getD i eofChar
  if isOctal (c 1) then
    if c 1 = '0'.toUInt8 ∧ c 2 = 'x'.toUInt8 then
      if isxdigit (c 3) ∧ isxdigit (c 4) then
        some (0, 16 * charHexDigit.hexValue (c 3) + charHexDigit.hexValue (c 4), cs.drop 5)
      else
        none
    else if isOctal (c 3) ∧ (isOctal (c 2) ∨ c 1 ≠ '0'.toUInt8) then
      some (if isOctal (c 2) then 0 else 1,
        64 * (c 1 - '0'.toUInt8) + (8 * (c 2 - '0'.toUInt8) + (c 3 - '0'.toUInt8)), cs.drop 4)
    else
      none
  else
    some (0, (simpleEscape (c 1)).getD (c 1), cs.drop 2)

variable {c : UInt8}

theorem isOctal_iff : isOctal c = true ↔ c = '0'.toUInt8 ∨ c ≥ '1'.toUInt8 ∧ c ≤ '7'.toUInt8 := by
  have hall : ∀ n < 256, isOctal (UInt8.ofNat n) = true
      ↔ UInt8.ofNat n = '0'.toUInt8
        ∨ UInt8.ofNat n ≥ '1'.toUInt8 ∧ UInt8.ofNat n ≤ '7'.toUInt8 := by
    decide +kernel
  have hc := hall c.toNat c.toNat_lt
  rw [UInt8.ofNat_toNat] at hc
  exact hc

def expect (ok : Bool) (msg : String) : List String :=
  if ok then [] else [msg]

theorem getOctalDigits_stream (h : IsStream input cs) (i : Nat) (errors : List String)
    (v : List UInt8) (c : UInt8)
    : getOctalDigits ⟨input i, errors, v⟩ c
        = .ok (8 * (c - '0'.toUInt8) + (cs.getD (i + 1) eofChar - '0'.toUInt8),
            ⟨input (i + 1),
              errors ++ expect (isOctal (cs.getD (i + 1) eofChar)) "Expecting octal digit",
              v⟩) := by
  have hiff : ∀ d : UInt8, (d < '0'.toUInt8 ∨ d > '7'.toUInt8) ↔ ¬isOctal d = true := by
    intro d
    unfold isOctal
    rw [decide_eq_true_eq, not_and_or, UInt8.not_le, UInt8.not_le]
  unfold getOctalDigits
  dsimp only
  rw [getNext_stream h, ok_bind]
  simp only [hiff]
  cases isOctal (cs.getD (i + 1) eofChar) with
  | true => rw [show expect true _ = [] from rfl, append_nil]; rfl
  | false => rfl

theorem charHexDigit_stream (h : IsStream input cs) (i : Nat) (errors : List String)
    (v : List UInt8)
    : charHexDigit ⟨input i, errors, v⟩
        = .ok (charHexDigit.hexValue (cs.getD (i + 1) eofChar),
            ⟨input (i + 1),
              errors ++ expect (isxdigit (cs.getD (i + 1) eofChar)) "Expecting hexadecimal digit",
              v⟩) := by
  unfold charHexDigit
  rw [getNext_stream h, ok_bind]
  dsimp only
  cases isxdigit (cs.getD (i + 1) eofChar) with
  | true => rw [show expect true _ = [] from rfl, append_nil]; rfl
  | false => rfl

theorem getEscapedChar_stream (h : IsStream input cs) (errors : List String) (v : List UInt8)
    : ∃ k a i errs, getEscapedChar ⟨input 0, errors, v⟩ = .ok (a, ⟨input i, errors ++ errs, v⟩)
        ∧ escape cs = if errs = [] then some (k, a, cs.drop (i + 1)) else none := by
  unfold getEscapedChar getEscapedChar.zeroEscape getEscapedChar.hexEscape
    getEscapedChar.octalEscape escape
  simp only [getNext_stream h, getOctalDigits_stream h, charHexDigit_stream h, ok_bind,
    Nat.zero_add, reduceAdd, append_assoc]
  cases hsimple : simpleEscape (cs.getD 1 eofChar) with
  | some a =>
    refine ⟨0, a, 1, [], by rw [append_nil]; rfl, ?_⟩
    rw [if_neg]
    . rfl
    . intro hoctal
      rw [simpleEscape_digit (of_decide_eq_true hoctal)] at hsimple
      cases hsimple
  | none =>
    dsimp only
    by_cases hzero : cs.getD 1 eofChar = '0'.toUInt8
    . rw [if_pos hzero, if_pos (isOctal_iff.2 (.inl hzero))]
      by_cases hx : cs.getD 2 eofChar = 'x'.toUInt8
      . rw [if_pos hx, if_pos ⟨hzero, hx⟩]
        refine ⟨0, _, 4, _, rfl, ?_⟩
        cases isxdigit (cs.getD 3 eofChar) <;> cases isxdigit (cs.getD 4 eofChar) <;> rfl
      . have hboth : ¬(cs.getD 1 eofChar = '0'.toUInt8 ∧ cs.getD 2 eofChar = 'x'.toUInt8) :=
          fun hboth => hx hboth.2
        rw [if_neg hx, if_neg hboth]
        split
        . next hle =>
          have hsecond : isOctal (cs.getD 2 eofChar) = true := decide_eq_true hle
          refine ⟨0, _, 3, _, rfl, ?_⟩
          rw [hsecond, hzero, UInt8.sub_self, UInt8.mul_zero, UInt8.zero_add]
          cases isOctal (cs.getD 3 eofChar) <;> rfl
        . next hnot =>
          refine ⟨0, 0, 2, _, rfl, ?_⟩
          rw [if_neg]
          . rfl
          . exact fun h => h.2.elim (fun hsecond => hnot (of_decide_eq_true hsecond))
              (fun hne => hne hzero)
    . rw [if_neg hzero]
      by_cases hoctal : isOctal (cs.getD 1 eofChar) = true
      . have hboth : ¬(cs.getD 1 eofChar = '0'.toUInt8 ∧ cs.getD 2 eofChar = 'x'.toUInt8) :=
          fun hboth => hzero hboth.1
        rw [if_pos ((isOctal_iff.1 hoctal).resolve_left hzero), if_pos hoctal, if_neg hboth]
        refine ⟨if isOctal (cs.getD 2 eofChar) then 0 else 1, _, 3, _, rfl, ?_⟩
        cases isOctal (cs.getD 3 eofChar) with
        | true =>
          rw [if_pos ⟨rfl, .inr hzero⟩]
          rfl
        | false => rfl
      . rw [if_neg (fun hor => hoctal (isOctal_iff.2 (.inr hor))), if_neg hoctal]
        exact ⟨0, _, 1, [], by rw [append_nil]; rfl, rfl⟩

end Escape

section Grammar

/--
The text behind an opening quote starts with the rest of a string constant with the value `v` and
its closing quote. `n` is the number of the escape sequences with a wrong second digit.
-/
inductive Body : Nat → List UInt8 → List UInt8 → Prop where
  | close (rest : List UInt8) : Body 0 (quote :: rest) []
  | plain (c : UInt8) {n : Nat} {cs v : List UInt8} (hquote : c ≠ quote) (hnewline : c ≠ newline)
    (heof : c ≠ eofChar) (hback : c ≠ backslash) (h : Body n cs v) : Body n (c :: cs) (c :: v)
  | escaped {k n : Nat} {a : UInt8} {cs rest v : List UInt8}
    (hescape : escape (backslash :: cs) = some (k, a, rest)) (h : Body n rest v)
    : Body (k + n) (backslash :: cs) (a :: v)

-- The text before the first three quotes
def Triple (t v : List UInt8) : Prop :=
  (∃ rest, t = v ++ quote :: quote :: quote :: rest)
    ∧ ¬[quote, quote, quote] <:+: v ++ [quote, quote]

inductive Token : Nat → List UInt8 → List UInt8 → Prop where
  | single {n : Nat} {cs v : List UInt8} (h : Body n cs v) (hnot : ¬[quote, quote] <+: cs)
    : Token n (quote :: cs) v
  | triple {cs v : List UInt8} (h : Triple cs v) : Token 0 (quote :: quote :: quote :: cs) v

variable {n n' : Nat} {t v v' : List UInt8} {c : UInt8}

theorem Body.unique (h : Body n t v) (h' : Body n' t v') : n = n' := by
  induction h generalizing n' v' with
  | close rest =>
    cases h' with
    | close => rfl
    | plain _ hquote => contradiction
  | plain c hquote _ _ hback _ ih =>
    cases h' with
    | close => contradiction
    | plain _ _ _ _ _ h' => exact ih h'
    | escaped => contradiction
  | escaped hescape _ ih =>
    cases h' with
    | plain _ _ _ _ hback => contradiction
    | escaped hescape' h' =>
      rw [hescape'] at hescape
      cases hescape
      rw [ih h']

theorem Token.unique (h : Token n t v) (h' : Token n' t v') : n = n' := by
  cases h with
  | single h hnot =>
    cases h' with
    | single h' _ => exact h.unique h'
    | triple => exact absurd ⟨_, rfl⟩ hnot
  | triple =>
    cases h' with
    | single _ hnot => exact absurd ⟨_, rfl⟩ hnot
    | triple => rfl

theorem Triple.length_le (h : Triple t v) : 3 ≤ t.length := by
  rcases h.1 with ⟨rest, hrest⟩
  rw [hrest, length_append]
  dsimp only [length_cons]
  omega

theorem triple_cons (h : ¬[quote, quote, quote] <+: c :: t)
    : Triple (c :: t) v ↔ ∃ v', v = c :: v' ∧ Triple t v' := by
  constructor
  . rintro ⟨⟨rest, hrest⟩, hsub⟩
    cases v with
    | nil =>
      rw [hrest] at h
      exact absurd ⟨rest, rfl⟩ h
    | cons b v =>
      rw [cons_append, List.cons.injEq] at hrest
      rw [hrest.1]
      refine ⟨v, rfl, ⟨rest, hrest.2⟩, ?_⟩
      intro hsub'
      exact hsub (infix_cons hsub')
  . rintro ⟨v', hv, ⟨rest, hrest⟩, hsub⟩
    rw [hv]
    refine ⟨⟨rest, by rw [hrest]; rfl⟩, ?_⟩
    rw [cons_append, infix_cons_iff]
    rintro (hpre | hsub')
    . apply h
      apply hpre.trans
      rw [hrest]
      exact ⟨quote :: rest, by simp⟩
    . exact hsub hsub'

theorem not_triple_replicate (hn : n ≤ 2) (hc : c ≠ quote)
    : ¬[quote, quote, quote] <+: replicate n quote ++ c :: t := by
  rcases (show n = 0 ∨ n = 1 ∨ n = 2 by omega) with rfl | rfl | rfl
  all_goals simp [replicate_succ, cons_prefix_cons, hc.symm]

-- One or two quotes do not end the text when another character is behind them.
theorem triple_quotes (hn : n ≤ 2) (hc : t.getD 0 eofChar ≠ quote)
    : Triple (replicate n quote ++ t) v
        ↔ ∃ v', v = replicate n quote ++ t.getD 0 eofChar :: v' ∧ Triple (t.drop 1) v' := by
  cases t with
  | nil =>
    constructor
    . intro h
      have hle := h.length_le
      rw [append_nil, length_replicate] at hle
      omega
    . rintro ⟨v', _, h⟩
      cases h.length_le
  | cons b t =>
    change b ≠ quote at hc
    change Triple _ v ↔ ∃ v', v = replicate n quote ++ b :: v' ∧ Triple t v'
    induction n generalizing v with
    | zero => exact triple_cons (not_triple_replicate (n := 0) (by omega) hc)
    | succ n ih =>
      have hpre := not_triple_replicate (t := t) hn hc
      rw [replicate_succ, cons_append] at hpre ⊢
      rw [triple_cons hpre]
      constructor
      . rintro ⟨v1, hv, h⟩
        rcases (ih (by omega)).1 h with ⟨v', hv', h'⟩
        exact ⟨v', by rw [hv, hv']; rfl, h'⟩
      . rintro ⟨v', hv, h⟩
        exact ⟨_, hv, (ih (by omega)).2 ⟨v', rfl, h⟩⟩

end Grammar

section Loop

/--
The loop `r` ends at one of the characters in `ends`, and at the quote without a new error iff `G`
holds for the number of wrong digits and for what has been added to the text `before`.
-/
def Scans (w : IntSize) (ends : List UInt8)
    (r : Result (UInt8 × ScannerState × Option (List UInt8) × List UInt8))
    (input : Nat → TypInputFile) (errors : List String) (v before : List UInt8)
    (G : Nat → List UInt8 → Prop) : Prop :=
  ∃ c i errs string buf, r = .ok (c, ⟨input i, errors ++ errs, v⟩, string, buf)
    ∧ c ∈ ends ∧ Fits w (collected string buf)
    ∧ (c = quote → errs = [] → ∃ n added, collected string buf = before ++ added ∧ G n added)
    ∧ ∀ n added, G n added → c = quote ∧ errs = []

variable {ends v before p : List UInt8} {errors errs : List String} {G G1 : Nat → List UInt8 → Prop}
  {r : Result (UInt8 × ScannerState × Option (List UInt8) × List UInt8)}

-- One round of a loop
theorem Scans.step (i k : Nat) (errs : List String)
    (h : Scans w ends r (fun j => input (i + j)) (errors ++ errs) v (before ++ p) G1)
    (hG : ∀ n v, G n v ↔ errs = [] ∧ ∃ n' v', n = k + n' ∧ v = p ++ v' ∧ G1 n' v')
    : Scans w ends r input errors v before G := by
  rcases h with ⟨c, j, errs', string, buf, hr, hends, hfits, hsound, hcomplete⟩
  refine ⟨c, i + j, errs ++ errs', string, buf, by rw [hr, append_assoc], hends, hfits, ?_, ?_⟩
  . intro hquote hnil
    rw [append_eq_nil_iff] at hnil
    rcases hsound hquote hnil.2 with ⟨n, added, hadded, hG1⟩
    exact ⟨k + n, p ++ added, by rw [hadded, append_assoc],
      (hG _ _).2 ⟨hnil.1, n, added, rfl, rfl, hG1⟩⟩
  . intro n added hadded
    rcases (hG n added).1 hadded with ⟨hnil, n', v', _, _, hG1⟩
    rw [hnil]
    exact hcomplete n' v' hG1

theorem getD_drop_zero (k : Nat) : (cs.drop k).getD 0 eofChar = cs.getD k eofChar := by
  rw [getD_eq_getElem?_getD, getElem?_drop, Nat.add_zero, ← getD_eq_getElem?_getD]

-- The `if` in the loop of `GetStr`, `k` is the number of wrong digits.
theorem unescape_stream {c : UInt8} (h : IsStream input (c :: cs)) (hquote : c ≠ quote)
    (hnewline : c ≠ newline) (heof : c ≠ eofChar) (errors : List String) (v : List UInt8)
    : ∃ k a i errs, unescape ⟨input 0, errors, v⟩ c = .ok (a, ⟨input i, errors ++ errs, v⟩)
        ∧ ∀ n v, Body n (c :: cs) v ↔ errs = []
          ∧ ∃ n' v', n = k + n' ∧ v = [a] ++ v' ∧ Body n' ((c :: cs).drop (i + 1)) v' := by
  unfold unescape
  by_cases hback : c = backslash
  . rw [if_pos hback]
    rcases getEscapedChar_stream h errors v with ⟨k, a, i, errs, hescaped, hescape⟩
    rw [hback] at hescape ⊢
    refine ⟨k, a, i, errs, hescaped, ?_⟩
    intro n v
    constructor
    . intro hbody
      cases hbody with
      | plain _ _ _ _ hplain => contradiction
      | escaped hescape' hbody =>
        rw [hescape'] at hescape
        split at hescape
        . next hnil =>
          cases hescape
          exact ⟨hnil, _, _, rfl, rfl, hbody⟩
        . cases hescape
    . rintro ⟨hnil, n', v', hn, hv, hbody⟩
      rw [if_pos hnil] at hescape
      rw [hn, hv]
      exact .escaped hescape hbody
  . rw [if_neg hback]
    refine ⟨0, c, 0, [], by rw [append_nil]; rfl, ?_⟩
    intro n v
    constructor
    . intro hbody
      cases hbody with
      | close => contradiction
      | plain _ _ _ _ _ hbody => exact ⟨rfl, _, _, (Nat.zero_add _).symm, rfl, hbody⟩
      | escaped => contradiction
    . rintro ⟨_, n', v', hn, hv, hbody⟩
      rw [hn, hv, Nat.zero_add]
      exact .plain c hquote hnewline heof hback hbody

theorem getStrLoop_stream (fuel : Nat) (h : IsStream input cs) (errors : List String)
    (v : List UInt8) (string : Option (List UInt8)) (buf : List UInt8)
    (hfits : ((collected string buf).length + cs.length : Int) < w.intIntobjMax)
    (hfuel : cs.length < fuel)
    : Scans w [quote, newline, eofChar]
        (getStrLoop w fuel ⟨input 0, errors, v⟩ (cs.getD 0 eofChar) string buf) input errors v
        (collected string buf) (fun n v => Body n cs v) := by
  induction fuel generalizing input cs errors string buf with
  | zero => omega
  | succ fuel ih =>
    have hbefore : Fits w (collected string buf) := by
      unfold Fits
      omega
    unfold getStrLoop
    split
    . next hchar =>
      cases cs with
      | nil => exact absurd rfl hchar.2.2
      | cons c cs =>
        rcases unescape_stream h hchar.1 hchar.2.1 hchar.2.2 errors v with
            ⟨k, a, i, errs, hunescape, hbody⟩
        rcases addCharToBuf_spec a hbefore with ⟨string1, buf1, hadd, hcollected⟩
        have hsize := congrArg length hcollected
        rw [length_append, length_singleton] at hsize
        have hlen : ((c :: cs).drop (i + 1)).length ≤ cs.length := by
          rw [length_drop, length_cons]
          omega
        rw [length_cons] at hfits hfuel
        have hrec := ih (h.drop (i + 1)) (errors ++ errs) string1 buf1 (by omega) (by omega)
        rw [hcollected, getD_drop_zero] at hrec
        rw [getD_cons_zero, hunescape, ok_bind]
        dsimp only
        rw [hadd, ok_bind]
        dsimp only
        rw [getNext_stream h, ok_bind]
        exact hrec.step (i + 1) k _ hbody
    . next hchar =>
      refine ⟨_, 0, [], string, buf, by rw [append_nil]; rfl, ?_, hbefore, ?_, ?_⟩
      . simp only [mem_cons, not_mem_nil, or_false]
        by_contra hmem
        rw [not_or, not_or] at hmem
        exact hchar hmem
      . intro hquote _
        cases cs with
        | nil => exact absurd hquote (by decide)
        | cons c cs =>
          rw [show c = quote from hquote]
          exact ⟨0, [], (append_nil _).symm, .close _⟩
      . intro n added hbody
        refine ⟨?_, rfl⟩
        cases hbody with
        | close => rfl
        | plain b hquote hnewline heof => exact absurd ⟨hquote, hnewline, heof⟩ hchar
        | escaped =>
          have hback : backslash ≠ quote ∧ backslash ≠ newline ∧ backslash ≠ eofChar := by decide
          exact absurd hback hchar

theorem addQuotes_spec (n : Nat) (string : Option (List UInt8)) (buf : List UInt8)
    (hfits : ((collected string buf).length + n : Int) ≤ w.intIntobjMax)
    : ∃ string' buf', addQuotes w n string buf = .ok (string', buf')
        ∧ collected string' buf' = collected string buf ++ replicate n quote := by
  induction n generalizing string buf with
  | zero => exact ⟨string, buf, rfl, (append_nil _).symm⟩
  | succ n ih =>
    have hbefore : Fits w (collected string buf) := by
      unfold Fits
      omega
    rcases addCharToBuf_spec quote hbefore with ⟨string1, buf1, hadd, hcollected⟩
    have hsize := congrArg length hcollected
    rw [length_append, length_singleton] at hsize
    rcases ih string1 buf1 (by omega) with ⟨string', buf', hquotes, hcollected'⟩
    refine ⟨string', buf', ?_, ?_⟩
    . unfold addQuotes
      rw [hadd]
      exact hquotes
    . rw [hcollected', hcollected, append_assoc]
      rfl

theorem drop_eq_cons {c : UInt8} (k : Nat) (hc : cs.getD k eofChar = c) (hne : c ≠ eofChar)
    : cs.drop k = c :: cs.drop (k + 1) := by
  rw [getD_eq_getElem?_getD] at hc
  by_cases hlt : k < cs.length
  . rw [getElem?_eq_getElem hlt] at hc
    rw [drop_eq_getElem_cons hlt, ← hc]
    rfl
  . rw [getElem?_eq_none (by omega)] at hc
    exact absurd hc.symm hne

theorem readQuotes_stream (h : IsStream input cs) (errors : List String) (v : List UInt8)
    : ∃ n, readQuotes ⟨input 0, errors, v⟩ (cs.getD 0 eofChar)
          = .ok (if cs.getD n eofChar = quote then 3 else n, cs.getD n eofChar,
              ⟨input n, errors, v⟩)
        ∧ cs = replicate n quote ++ cs.drop n ∧ n ≤ 2
        ∧ (cs.getD n eofChar = quote → n = 2) := by
  unfold readQuotes
  by_cases hfirst : cs.getD 0 eofChar = quote
  . have hcs := drop_eq_cons 0 hfirst (by decide)
    rw [if_pos hfirst, getNext_stream h, ok_bind]
    dsimp only
    by_cases hsecond : cs.getD 1 eofChar = quote
    . have hcs1 := drop_eq_cons 1 hsecond (by decide)
      rw [if_pos hsecond, getNext_stream h]
      refine ⟨2, rfl, ?_, Nat.le_refl _, fun _ => rfl⟩
      rw [hcs1] at hcs
      exact hcs
    . rw [if_neg hsecond]
      refine ⟨1, ?_, hcs, by omega, fun heq => absurd heq hsecond⟩
      rw [if_neg hsecond]
      rfl
  . rw [if_neg hfirst]
    refine ⟨0, ?_, rfl, by omega, fun heq => absurd heq hfirst⟩
    rw [if_neg hfirst]
    rfl

-- Behind one or two quotes the end of the input is added to the text, then the loop ends.
theorem getTripStrLoop_stream (fuel : Nat) (h : IsStream input cs) (errors : List String)
    (v : List UInt8) (string : Option (List UInt8)) (buf : List UInt8)
    (hbefore : Fits w (collected string buf))
    (hfits : cs ≠ [] → ((collected string buf).length + cs.length : Int) < w.intIntobjMax)
    (hfuel : cs.length < fuel)
    : Scans w [quote, eofChar]
        (getTripStrLoop w fuel ⟨input 0, errors, v⟩ (cs.getD 0 eofChar) string buf) input errors v
        (collected string buf) (fun n v => n = 0 ∧ Triple cs v) := by
  induction fuel generalizing input cs string buf with
  | zero => omega
  | succ fuel ih =>
    unfold getTripStrLoop
    split
    . next heof =>
      have hne : cs ≠ [] := by
        rintro rfl
        exact heof rfl
      have hsize := hfits hne
      have hpos := length_pos_iff.2 hne
      rcases readQuotes_stream h errors v with ⟨n, hquotes, hcs, hn, hthree⟩
      have hlen := congrArg length hcs
      rw [length_append, length_replicate, length_drop] at hlen
      rw [hquotes, ok_bind]
      dsimp only
      by_cases hend : cs.getD n eofChar = quote
      . rw [if_pos hend, if_pos rfl]
        refine ⟨_, n, [], string, buf, by rw [append_nil]; rfl, ?_, hbefore, ?_,
          fun _ _ _ => ⟨hend, rfl⟩⟩
        . rw [hend]
          exact mem_cons_self
        . intro _ _
          refine ⟨0, [], (append_nil _).symm, rfl, ⟨cs.drop (n + 1), ?_⟩, by decide⟩
          rw [drop_eq_cons n hend (by decide), hthree hend] at hcs
          rw [hthree hend]
          exact hcs
      . rw [if_neg hend, if_neg (by omega)]
        rcases addQuotes_spec (w := w) n string buf (by omega) with
            ⟨string1, buf1, hadd, hcollected⟩
        have hcount := congrArg length hcollected
        rw [length_append, length_replicate] at hcount
        have hbefore1 : Fits w (collected string1 buf1) := by
          unfold Fits
          omega
        rcases addCharToBuf_spec (cs.getD n eofChar) hbefore1 with
            ⟨string2, buf2, hadd2, hcollected2⟩
        have hcount2 := congrArg length hcollected2
        rw [length_append, length_singleton] at hcount2
        have hfits2 : cs.drop (n + 1) ≠ []
            → ((collected string2 buf2).length + (cs.drop (n + 1)).length : Int)
              < w.intIntobjMax := by
          intro hne2
          have hpos2 := length_pos_iff.2 hne2
          rw [length_drop] at hpos2 ⊢
          omega
        have hrec := ih (h.drop (n + 1)) string2 buf2 (by unfold Fits; omega) hfits2
          (by rw [length_drop]; omega)
        rw [hcollected2, hcollected, append_assoc, getD_drop_zero] at hrec
        rw [hadd, ok_bind]
        dsimp only
        rw [hadd2, ok_bind]
        dsimp only
        rw [getNext_stream h, ok_bind]
        apply Scans.step (n + 1) 0 [] (by rw [append_nil]; exact hrec)
        intro m added
        have hiff := triple_quotes (v := added) hn (by rw [getD_drop_zero]; exact hend)
        rw [← hcs, getD_drop_zero, drop_drop] at hiff
        rw [hiff]
        constructor
        . rintro ⟨hm, v', hv, htriple⟩
          exact ⟨rfl, 0, v', hm, by rw [hv, append_assoc]; rfl, rfl, htriple⟩
        . rintro ⟨_, n', v', hm, hv, hn', htriple⟩
          exact ⟨by omega, v', by rw [hv, append_assoc]; rfl, htriple⟩
    . next heof =>
      have hnil : cs = [] := by
        cases cs with
        | nil => rfl
        | cons c cs =>
          rw [not_not] at heof
          rw [show c = eofChar from heof] at h
          exact absurd mem_cons_self h.noEof
      rw [hnil]
      refine ⟨_, 0, [], string, buf, by rw [append_nil]; rfl, by decide, hbefore, ?_, ?_⟩
      . exact fun hquote => absurd hquote (by decide)
      . rintro n added ⟨_, htriple⟩
        cases htriple.length_le

end Loop

section Token

variable {s s' : ScannerState} {errors errs : List String} {t v before : List UInt8}
  {G : Nat → List UInt8 → Prop}

-- There is no new error iff `G` holds, which is then true of the value.
def Decides (errors : List String) (G : Nat → List UInt8 → Prop) (s' : ScannerState) : Prop :=
  (s'.errors = errors → ∃ n, G n s'.valueObj) ∧ ∀ n v, G n v → s'.errors = errors

theorem decides_quote {input : TypInputFile}
    (hsound : errs = [] → ∃ n added, v = [] ++ added ∧ G n added)
    (hcomplete : ∀ n added, G n added → errs = [])
    : Decides errors G ⟨input, errors ++ errs, v⟩ := by
  unfold Decides
  dsimp only
  rw [append_right_eq_self]
  refine ⟨?_, hcomplete⟩
  intro hnil
  rcases hsound hnil with ⟨n, added, hv, hG⟩
  rw [hv]
  exact ⟨n, hG⟩

theorem decides_error {input : TypInputFile} (msg : String) (hno : ∀ n added, ¬G n added)
    : Decides errors G ⟨input, errors ++ errs ++ [msg], v⟩ := by
  refine ⟨?_, fun n added hG => absurd hG (hno n added)⟩
  intro heq
  dsimp only at heq
  rw [append_assoc, append_right_eq_self, append_eq_nil_iff] at heq
  cases heq.2

theorem getStr_stream (h : IsStream input cs) (errors : List String) (v : List UInt8)
    (hfits : (cs.length : Int) < w.intIntobjMax)
    {fuel : Nat} (hfuel : cs.length < fuel)
    : ∃ c s', getStr w fuel ⟨input 0, errors, v⟩ (cs.getD 0 eofChar) = .ok (c, s')
        ∧ (c = quote → ∃ i, s'.input = input i)
        ∧ Decides errors (fun n v => Body n cs v) s' := by
  have hnil : ((collected none []).length + cs.length : Int) < w.intIntobjMax := by
    rw [show (collected none []).length = 0 from rfl]
    omega
  rcases getStrLoop_stream fuel h errors v none [] hnil hfuel with
      ⟨c, i, errs, string, buf, hloop, hends, hvalue, hsound, hcomplete⟩
  have hno : c ≠ quote → ∀ n added, ¬Body n cs added :=
    fun hne n added hbody => hne (hcomplete n added hbody).1
  unfold getStr
  rw [hloop, ok_bind]
  dsimp only
  rw [appendBufToString_spec hvalue, ok_bind]
  split
  . next hc => exact ⟨_, _, rfl, fun _ => ⟨i, rfl⟩, decides_error _ (hno (by rw [hc]; decide))⟩
  . next hnewline =>
    split
    . next hc =>
      have hne : c ≠ quote := by
        rw [hc]
        decide
      exact ⟨_, _, rfl, fun hquote => absurd hquote hne, decides_error _ (hno hne)⟩
    . next heof =>
      simp only [mem_cons, hnewline, heof, not_mem_nil, or_false] at hends
      exact ⟨_, _, rfl, fun _ => ⟨i, rfl⟩,
        decides_quote (hsound hends) (fun n added hbody => (hcomplete n added hbody).2)⟩

theorem getTripStr_stream (h : IsStream input cs) (errors : List String) (v : List UInt8)
    (hfits : (cs.length : Int) < w.intIntobjMax)
    {fuel : Nat} (hfuel : cs.length < fuel)
    : ∃ c s', getTripStr w fuel ⟨input 0, errors, v⟩ (cs.getD 0 eofChar) = .ok (c, s')
        ∧ (c = quote → ∃ i, s'.input = input i)
        ∧ Decides errors (fun n v => n = 0 ∧ Triple cs v) s' := by
  have hnil : Fits w (collected none []) := by
    unfold Fits
    rw [show (collected none []).length = 0 from rfl]
    omega
  have hfits' : cs ≠ [] → ((collected none []).length + cs.length : Int) < w.intIntobjMax := by
    rw [show (collected none []).length = 0 from rfl]
    omega
  rcases getTripStrLoop_stream fuel h errors v none [] hnil hfits' hfuel with
      ⟨c, i, errs, string, buf, hloop, hends, hvalue, hsound, hcomplete⟩
  unfold getTripStr
  rw [hloop, ok_bind]
  dsimp only
  rw [appendBufToString_spec hvalue, ok_bind]
  split
  . next hc =>
    have hne : c ≠ quote := by
      rw [hc]
      decide
    exact ⟨_, _, rfl, fun hquote => absurd hquote hne,
      decides_error _ (fun n added htriple => hne (hcomplete n added htriple).1)⟩
  . next heof =>
    simp only [mem_cons, heof, not_mem_nil, or_false] at hends
    exact ⟨_, _, rfl, fun _ => ⟨i, rfl⟩,
      decides_quote (hsound hends) (fun n added htriple => (hcomplete n added htriple).2)⟩

theorem skipQuote_stream {c : UInt8} (h : IsStream input cs)
    (hinput : c = quote → ∃ i, s.input = input i)
    : ∃ input', getString.skipQuote s c = .ok { s with input := input' } := by
  unfold getString.skipQuote
  split
  . next hquote =>
    rcases hinput hquote with ⟨i, hi⟩
    have hnext := getNext_stream h i s.errors s.valueObj
    rw [← hi] at hnext
    rw [hnext]
    exact ⟨_, rfl⟩
  . exact ⟨s.input, rfl⟩

theorem token_single {n : Nat} (h : ¬[quote, quote] <+: cs)
    : Token n (quote :: cs) v ↔ Body n cs v := by
  constructor
  . intro htoken
    cases htoken with
    | single hbody => exact hbody
    | triple => exact absurd ⟨_, rfl⟩ h
  . intro hbody
    exact .single hbody h

theorem token_triple {n : Nat}
    : Token n (quote :: quote :: quote :: cs) v ↔ n = 0 ∧ Triple cs v := by
  constructor
  . intro htoken
    cases htoken with
    | single _ hnot => exact absurd ⟨_, rfl⟩ hnot
    | triple htriple => exact ⟨rfl, htriple⟩
  . rintro ⟨hn, htriple⟩
    rw [hn]
    exact .triple htriple

theorem getString_stream (h : IsStream input (quote :: cs)) (errors : List String)
    (v : List UInt8) (hfits : Fits w (quote :: cs))
    : ∃ s', getString w ⟨input 0, errors, v⟩ = .ok s'
        ∧ Decides errors (fun n v => Token n (quote :: cs) v) s' := by
  have hlen := h.length_le
  unfold Fits at hfits
  rw [length_cons] at hfits hlen
  have h1 : IsStream (fun i => input (1 + i)) cs := h.drop 1
  unfold getString
  dsimp only
  rw [getNext_stream h, ok_bind]
  dsimp only
  rw [getD_cons_succ]
  by_cases hc1 : cs.getD 0 eofChar = quote
  . have hcs := drop_eq_cons 0 hc1 (by decide)
    rw [drop_zero] at hcs
    rw [if_pos hc1, getNext_stream h, ok_bind]
    dsimp only
    rw [getD_cons_succ]
    by_cases hc2 : cs.getD 1 eofChar = quote
    . have hcs1 := drop_eq_cons 1 hc2 (by decide)
      rw [hcs1] at hcs
      have h3 : IsStream (fun i => input (3 + i)) (cs.drop 2) := h.drop 3
      have hle : (cs.drop 2).length ≤ cs.length := by
        rw [length_drop]
        omega
      rcases getTripStr_stream (w := w) h3 errors v (by omega)
          (show _ < (input 0).text.length + 2 by omega) with ⟨c, s', hstr, hinput, hdecides⟩
      rcases skipQuote_stream h3 hinput with ⟨input', hskip⟩
      rw [getD_drop_zero] at hstr
      rw [if_pos hc2, getNext_stream h, ok_bind]
      dsimp only
      rw [getD_cons_succ, hstr, ok_bind]
      refine ⟨_, hskip, ?_⟩
      rw [hcs]
      simp only [token_triple]
      exact hdecides
    . rw [if_neg hc2]
      refine ⟨_, rfl, fun _ => ⟨0, ?_⟩, fun _ _ _ => rfl⟩
      rw [hcs]
      apply Token.single (.close _)
      rw [cons_prefix_cons]
      rintro ⟨_, t, ht⟩
      rw [hcs, ← ht] at hc2
      exact hc2 rfl
  . have hnot : ¬[quote, quote] <+: cs := by
      rintro ⟨t, ht⟩
      rw [← ht] at hc1
      exact hc1 rfl
    rcases getStr_stream (w := w) h1 errors v (by omega)
        (show _ < (input 0).text.length + 2 by omega) with ⟨c, s', hstr, hinput, hdecides⟩
    rcases skipQuote_stream h1 hinput with ⟨input', hskip⟩
    rw [if_neg hc1, hstr, ok_bind]
    refine ⟨_, hskip, ?_⟩
    simp only [token_single hnot]
    exact hdecides

/--
No syntax error is raised iff the text starts with a string constant of the documented form, and
the value is that of the constant.
-/
def ScansToken (s : ScannerState) (t : List UInt8) (s' : ScannerState) : Prop :=
  (s'.errors = s.errors ↔ ∃ v, Token 0 t v) ∧ (s'.errors = s.errors → Token 0 t s'.valueObj)

theorem Decides.scansToken_iff (h : Decides s.errors (fun n v => Token n t v) s')
    : ScansToken s t s' ↔ ∀ n v, Token n t v → n = 0 := by
  constructor
  . intro hscans n v htoken
    exact htoken.unique (hscans.2 (h.2 n v htoken))
  . intro hall
    have hzero : s'.errors = s.errors → Token 0 t s'.valueObj := by
      intro hno
      rcases h.1 hno with ⟨n, htoken⟩
      rw [hall n _ htoken] at htoken
      exact htoken
    refine ⟨⟨fun hno => ⟨_, hzero hno⟩, ?_⟩, hzero⟩
    rintro ⟨v, htoken⟩
    exact h.2 0 v htoken

/--
A string constant is scanned as documented iff none of its escape sequences is a digit from 1 to 7,
another character than an octal digit, and an octal digit.
-/
theorem getString_scansToken_iff (h : IsStream input (quote :: cs)) (hfits : Fits w (quote :: cs))
    (hs : s.input = input 0)
    : ∃ s', getString w s = .ok s'
        ∧ (ScansToken s (quote :: cs) s' ↔ ∀ n v, Token n (quote :: cs) v → n = 0) := by
  rcases getString_stream h s.errors s.valueObj hfits with ⟨s', hstring, hdecides⟩
  rw [← hs] at hstring
  exact ⟨s', hstring, hdecides.scansToken_iff⟩

-- `"\197"`
def wrongDigit : ScannerState :=
  { input := { line := [34, 92, 49, 57, 55, 34], more := [] }, errors := [], valueObj := [] }

def wrongDigitStream (i : Nat) : TypInputFile :=
  if i < 6 then { line := wrongDigit.input.line.drop i, more := [] } else atEnd

theorem isStream_wrongDigit : IsStream wrongDigitStream [34, 92, 49, 57, 55, 34] where
  next i := by
    match i with
    | 0 | 1 | 2 | 3 | 4 | 5 =>
      simp [wrongDigitStream, wrongDigit, getNextChar, settle, atEnd, backslash, newline,
        carriageReturn]
      rfl
    | i + 6 =>
      simp [wrongDigitStream, getNextChar, atEnd, settle]
      rfl
  current_eq i := by
    match i with
    | 0 | 1 | 2 | 3 | 4 | 5 => rfl
    | i + 6 =>
      simp [wrongDigitStream, current, atEnd]
  noEof := by decide

theorem getString_scansToken_iff_wrongDigit
    : ∃ s', getString .int8 wrongDigit = .ok s'
        ∧ (ScansToken wrongDigit [34, 92, 49, 57, 55, 34] s'
          ↔ ∀ n v, Token n [34, 92, 49, 57, 55, 34] v → n = 0) :=
  getString_scansToken_iff isStream_wrongDigit (by decide) rfl

-- The digit `9` is accepted, the value is the character 143.
theorem not_scansToken_wrongDigit
    : ¬∃ s', getString .int8 wrongDigit = .ok s'
        ∧ ScansToken wrongDigit [34, 92, 49, 57, 55, 34] s' := by
  rintro ⟨s', hstring, hscans⟩
  rcases getString_stream (w := .int8) isStream_wrongDigit [] [] (by decide) with
      ⟨s1, hstring1, hdecides⟩
  rw [show getString .int8 wrongDigit = .ok s1 from hstring1] at hstring
  cases hstring
  have htoken : Token 1 [34, 92, 49, 57, 55, 34] [143] := by
    apply Token.single _ (by decide)
    exact .escaped (k := 1) (n := 0) rfl (.close [])
  cases (Decides.scansToken_iff (s := wrongDigit) hdecides).1 hscans 1 [143] htoken

end Token

end Scanner
