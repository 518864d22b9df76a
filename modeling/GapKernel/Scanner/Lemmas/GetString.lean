import GapKernel.Scanner.Impl

open List

namespace StringObj

open Scanner

variable {w : IntSize}

theorem length_outputChar_le (c : UInt8) : (outputChar c).length ≤ 4 := by
  unfold outputChar
  repeat' split
  all_goals simp

theorem foldlM_putChar (cs buf : List UInt8) (h : buf.length + cs.length ≤ prStrBufSize)
    : cs.foldlM putChar buf = .ok (buf ++ cs) := by
  induction cs generalizing buf with
  | nil =>
    rw [append_nil]
    rfl
  | cons c cs ih =>
    rw [length_cons] at h
    rw [foldlM_cons]
    have hput : putChar buf c = .ok (buf ++ [c]) := by
      unfold putChar
      rw [if_pos (by omega)]
      rfl
    rw [hput]
    rw [ok_bind]
    rw [ih]
    . rw [append_assoc]
      rfl
    . rw [length_append]
      rw [length_singleton]
      omega

-- A round starts with at most 9999 characters in the buffer and adds at most four.
theorem fillPrStrBuf_spec (c : UInt8) (rest buf : List UInt8) (h : buf.length < 10000)
    : ∃ printed rest', c :: rest = printed ++ rest' ∧ printed ≠ []
        ∧ fillPrStrBuf (c :: rest) buf = .ok (buf ++ printed.flatMap outputChar, rest') := by
  induction rest generalizing c buf with
  | nil =>
    refine ⟨[c], [], by simp, by simp, ?_⟩
    have hlen := length_outputChar_le c
    unfold fillPrStrBuf
    rw [foldlM_putChar _ _ (by unfold prStrBufSize; omega)]
    rw [ok_bind]
    rw [if_neg (by simp)]
    rw [flatMap_singleton]
    rfl
  | cons d rest ih =>
    have hlen := length_outputChar_le c
    unfold fillPrStrBuf
    rw [foldlM_putChar _ _ (by unfold prStrBufSize; omega)]
    rw [ok_bind]
    by_cases hmore : (buf ++ outputChar c).length < 10000
    . rcases ih d (buf ++ outputChar c) hmore with ⟨printed, rest', hrest⟩
      refine ⟨c :: printed, rest', ?_, by simp, ?_⟩
      . rw [hrest.1]
        rfl
      . rw [if_pos ⟨by simp, hmore⟩]
        rw [hrest.2.2]
        rw [flatMap_cons]
        rw [append_assoc]
    . refine ⟨[c], d :: rest, rfl, by simp, ?_⟩
      rw [if_neg]
      . rw [flatMap_singleton]
        rfl
      . intro hboth
        exact hmore hboth.2

def Fits (w : IntSize) (str : List UInt8) : Prop :=
  (str.length : Int) ≤ w.intIntobjMax

instance (str : List UInt8) : Decidable (Fits w str) :=
  inferInstanceAs (Decidable (_ ≤ _))

theorem appendCStr_eq (str buf : List UInt8)
    : appendCStr w str buf
        = if Fits w (str ++ buf) then .ok (str ++ buf) else .error lengthFault := by
  have hlen : (str ++ buf).length = str.length + buf.length := length_append
  unfold appendCStr
  split
  . next hlong =>
    rw [if_neg]
    . rfl
    . unfold Fits
      omega
  . next hshort =>
    rw [if_pos]
    . rfl
    . unfold Fits
      omega

theorem outputBlocks_eq (fuel : Nat) (list data : List UInt8) (hfuel : list.length ≤ fuel)
    (hdata : Fits w data)
    : outputBlocks (appendCStr w) fuel list data
        = if Fits w (data ++ list.flatMap outputChar) then
            .ok (data ++ list.flatMap outputChar)
          else
            .error lengthFault := by
  induction fuel generalizing list data with
  | zero =>
    cases list with
    | nil =>
      unfold outputBlocks
      rw [flatMap_nil]
      rw [append_nil]
      rw [if_pos hdata]
      rfl
    | cons c rest =>
      rw [length_cons] at hfuel
      omega
  | succ fuel ih =>
    cases list with
    | nil =>
      unfold outputBlocks
      rw [flatMap_nil]
      rw [append_nil]
      rw [if_pos hdata]
      rfl
    | cons c rest =>
      rcases fillPrStrBuf_spec c rest [] (by simp) with ⟨printed, rest', hrest⟩
      have hlen : (c :: rest).length = printed.length + rest'.length := by
        rw [hrest.1]
        rw [length_append]
      have hpos := length_pos_iff.2 hrest.2.1
      unfold outputBlocks
      rw [hrest.2.2]
      rw [ok_bind]
      dsimp only
      rw [nil_append]
      rw [appendCStr_eq]
      rw [hrest.1]
      rw [flatMap_append]
      rw [← append_assoc]
      split
      . next hfits =>
        rw [ok_bind]
        apply ih
        . omega
        . exact hfits
      . next hlong =>
        rw [if_neg]
        . rfl
        . unfold Fits at hlong ⊢
          rw [length_append]
          omega

def stringConstant (string : List UInt8) : List UInt8 :=
  quote :: (string.flatMap outputChar ++ [quote])

theorem viewStringForString_eq (string : List UInt8)
    : viewStringForString w string
        = if Fits w (stringConstant string) then
            .ok (stringConstant string)
          else
            .error lengthFault := by
  have hquote : putChar [] quote = .ok [quote] := by
    rfl
  have hone : Fits w [quote] := by
    cases w <;> decide
  unfold viewStringForString outputStringGeneric
  rw [hquote]
  rw [ok_bind]
  rw [appendCStr_eq]
  rw [nil_append]
  rw [if_pos hone]
  rw [ok_bind]
  rw [outputBlocks_eq _ _ _ (Nat.le_refl _) hone]
  split
  . next hfits =>
    rw [ok_bind]
    rw [ok_bind]
    rw [appendCStr_eq]
    unfold stringConstant
    rw [append_assoc]
    rfl
  . next hlong =>
    rw [if_neg]
    . rfl
    . unfold Fits stringConstant at *
      rw [length_append] at hlong
      rw [length_cons]
      rw [length_append]
      rw [length_singleton] at *
      omega

end StringObj

namespace Scanner

open TypInputFile

def NoContinuation (c : UInt8) (rest : List UInt8) : Prop :=
  c = backslash → ∀ d ∈ rest.head?, d ≠ newline ∧ d ≠ carriageReturn

structure IsAt (input : TypInputFile) (text : List UInt8) : Prop where
  line_ne : input.line ≠ []
  text_eq : input.text = text

section Next

variable {c : UInt8}

theorem settle_cons {line : List UInt8} {more : List (List UInt8)}
    (hcont : NoContinuation c (line ++ more.flatten))
    : settle (c :: line) more = { line := c :: line, more := more } := by
  unfold settle
  split
  . next hc =>
    cases line with
    | nil =>
      dsimp only
    | cons d line =>
      have hd := hcont hc d (by simp)
      dsimp only
      rw [if_neg hd.1]
      rw [if_neg]
      intro hboth
      exact hd.2 hboth.1
  . rfl

variable {rest : List UInt8}

theorem settle_spec {line : List UInt8} {more : List (List UInt8)}
    (htext : line ++ more.flatten = c :: rest) (hcont : NoContinuation c rest)
    : IsAt (settle line more) (c :: rest) ∧ (settle line more).current = c := by
  induction more generalizing line with
  | nil =>
    rw [flatten_nil] at htext
    rw [append_nil] at htext
    rw [htext]
    rw [settle_cons (by simpa using hcont)]
    refine ⟨⟨by simp, ?_⟩, rfl⟩
    unfold text
    simp
  | cons next more ih =>
    cases line with
    | nil =>
      unfold settle
      dsimp only
      apply ih
      exact htext
    | cons a line =>
      rw [cons_append] at htext
      rw [List.cons.injEq] at htext
      rw [htext.1]
      rw [settle_cons (by rw [htext.2]; exact hcont)]
      refine ⟨⟨by simp, ?_⟩, rfl⟩
      unfold text
      dsimp only
      rw [cons_append]
      rw [htext.2]

theorem getNext_spec {s : ScannerState} {a : UInt8} (hat : IsAt s.input (a :: c :: rest))
    (hcont : NoContinuation c rest)
    : ∃ input, getNext s = .ok (c, { s with input := input }) ∧ IsAt input (c :: rest) := by
  unfold getNext getNextChar
  have htext := hat.text_eq
  unfold text at htext
  cases hline : s.input.line with
  | nil => exact absurd hline hat.line_ne
  | cons a' line =>
    rw [hline] at htext
    rw [cons_append] at htext
    rw [List.cons.injEq] at htext
    have hsettle := settle_spec htext.2 hcont
    refine ⟨settle line s.input.more, ?_, hsettle.1⟩
    dsimp only [pure, Except.pure]
    rw [ok_bind]
    rw [hsettle.2]

theorem getNext_last {s : ScannerState} {a : UInt8} (hat : IsAt s.input (a :: rest))
    : ∃ line more, line ++ more.flatten = rest
        ∧ getNext s = .ok ((settle line more).current, { s with input := settle line more }) := by
  unfold getNext getNextChar
  have htext := hat.text_eq
  unfold text at htext
  cases hline : s.input.line with
  | nil => exact absurd hline hat.line_ne
  | cons a' line =>
    rw [hline] at htext
    rw [cons_append] at htext
    rw [List.cons.injEq] at htext
    exact ⟨line, s.input.more, htext.2, rfl⟩

end Next

section Escape

inductive Prints : UInt8 → List UInt8 → Prop where
  | plain (c : UInt8) (hquote : c ≠ quote) (hback : c ≠ backslash) (hprint : 32 ≤ c ∧ c ≤ 126)
    : Prints c [c]
  | simple (c x : UInt8) (hx : simpleEscape x = some c) (hprint : 32 ≤ x ∧ x ≤ 126)
    : Prints c [backslash, x]
  | octal (c d1 d2 d3 : UInt8)
    (h1 : '0'.toUInt8 ≤ d1 ∧ d1 ≤ '3'.toUInt8) (h2 : '0'.toUInt8 ≤ d2 ∧ d2 ≤ '7'.toUInt8)
    (h3 : '0'.toUInt8 ≤ d3 ∧ d3 ≤ '7'.toUInt8)
    (hval : 64 * (d1 - '0'.toUInt8) + (8 * (d2 - '0'.toUInt8) + (d3 - '0'.toUInt8)) = c)
    : Prints c [backslash, d1, d2, d3]

def printsTest (c : UInt8) (l : List UInt8) : Bool :=
  match l with
  | [c'] => c' = c ∧ c ≠ quote ∧ c ≠ backslash ∧ 32 ≤ c ∧ c ≤ 126
  | [b, x] => b = backslash ∧ simpleEscape x = some c ∧ 32 ≤ x ∧ x ≤ 126
  | [b, d1, d2, d3] =>
    b = backslash ∧ ('0'.toUInt8 ≤ d1 ∧ d1 ≤ '3'.toUInt8) ∧ ('0'.toUInt8 ≤ d2 ∧ d2 ≤ '7'.toUInt8)
      ∧ ('0'.toUInt8 ≤ d3 ∧ d3 ≤ '7'.toUInt8)
      ∧ 64 * (d1 - '0'.toUInt8) + (8 * (d2 - '0'.toUInt8) + (d3 - '0'.toUInt8)) = c
  | _ => false

variable {c : UInt8}

theorem prints_of_printsTest {l : List UInt8} (h : printsTest c l = true)
    : Prints c l := by
  unfold printsTest at h
  split at h
  . next c' =>
    rw [decide_eq_true_eq] at h
    rw [h.1]
    exact .plain c h.2.1 h.2.2.1 h.2.2.2
  . next b x =>
    rw [decide_eq_true_eq] at h
    rw [h.1]
    exact .simple c x h.2.1 h.2.2
  . next b d1 d2 d3 =>
    rw [decide_eq_true_eq] at h
    rw [h.1]
    exact .octal c d1 d2 d3 h.2.1 h.2.2.1 h.2.2.2.1 h.2.2.2.2
  . contradiction

theorem prints_outputChar (c : UInt8) : Prints c (StringObj.outputChar c) := by
  apply prints_of_printsTest
  have hall : ∀ n < 256,
      printsTest (UInt8.ofNat n) (StringObj.outputChar (UInt8.ofNat n)) = true := by
    decide +kernel
  have hc := hall c.toNat c.toNat_lt
  rw [UInt8.ofNat_toNat] at hc
  exact hc

theorem noContinuation_of_le {rest : List UInt8} (h : ∀ d ∈ rest.head?, 32 ≤ d)
    : NoContinuation c rest := by
  intro _ d hd
  have hle := h d hd
  rw [UInt8.le_iff_toNat_le] at hle
  constructor
  . intro heq
    rw [heq] at hle
    contradiction
  . intro heq
    rw [heq] at hle
    contradiction

theorem noContinuation_of_ne {rest : List UInt8} (h : c ≠ backslash)
    : NoContinuation c rest := by
  intro heq
  contradiction

variable {d : UInt8}

theorem le_of_digit (h : '0'.toUInt8 ≤ d) : 32 ≤ d := by
  rw [UInt8.le_iff_toNat_le] at h ⊢
  have h48 : ('0'.toUInt8).toNat = 48 := by decide
  have h32 : (32 : UInt8).toNat = 32 := by decide
  omega

theorem digit_ne_backslash (h : d ≤ '7'.toUInt8) : d ≠ backslash := by
  intro heq
  rw [heq] at h
  contradiction

-- No digit is the second character of an escape sequence of two characters.
theorem simpleEscape_digit (h : '0'.toUInt8 ≤ d ∧ d ≤ '7'.toUInt8)
    : simpleEscape d = none := by
  have hall : ∀ n < 256, '0'.toUInt8 ≤ UInt8.ofNat n ∧ UInt8.ofNat n ≤ '7'.toUInt8
      → simpleEscape (UInt8.ofNat n) = none := by
    decide +kernel
  have hd := hall d.toNat d.toNat_lt
  rw [UInt8.ofNat_toNat] at hd
  exact hd h

variable {s : ScannerState} {rest : List UInt8}

theorem getOctalDigits_spec {d2 d3 : UInt8} (hat : IsAt s.input (d2 :: d3 :: rest))
    (h3 : '0'.toUInt8 ≤ d3 ∧ d3 ≤ '7'.toUInt8)
    : ∃ input, getOctalDigits s d2
          = .ok (8 * (d2 - '0'.toUInt8) + (d3 - '0'.toUInt8), { s with input := input })
        ∧ IsAt input (d3 :: rest) := by
  rcases getNext_spec hat (noContinuation_of_ne (digit_ne_backslash h3.2)) with ⟨input, hnext⟩
  refine ⟨input, ?_, hnext.2⟩
  unfold getOctalDigits
  dsimp only
  rw [hnext.1]
  rw [ok_bind]
  dsimp only
  rw [if_neg]
  . rfl
  . rw [not_or]
    rw [UInt8.not_lt]
    rw [UInt8.not_lt]
    exact h3

theorem getEscapedChar_simple {x : UInt8} (hx : simpleEscape x = some c)
    (hat : IsAt s.input (backslash :: x :: rest)) (hcont : NoContinuation x rest)
    : ∃ input, getEscapedChar s = .ok (c, { s with input := input }) ∧ IsAt input (x :: rest) := by
  rcases getNext_spec hat hcont with ⟨input, hnext⟩
  refine ⟨input, ?_, hnext.2⟩
  unfold getEscapedChar
  rw [hnext.1]
  rw [ok_bind]
  dsimp only
  rw [hx]
  rfl

theorem getEscapedChar_octal {d1 d2 d3 : UInt8} (h1 : '0'.toUInt8 ≤ d1 ∧ d1 ≤ '3'.toUInt8)
    (h2 : '0'.toUInt8 ≤ d2 ∧ d2 ≤ '7'.toUInt8) (h3 : '0'.toUInt8 ≤ d3 ∧ d3 ≤ '7'.toUInt8)
    (hval : 64 * (d1 - '0'.toUInt8) + (8 * (d2 - '0'.toUInt8) + (d3 - '0'.toUInt8)) = c)
    (hat : IsAt s.input (backslash :: d1 :: d2 :: d3 :: rest))
    : ∃ input, getEscapedChar s = .ok (c, { s with input := input })
        ∧ IsAt input (d3 :: rest) := by
  have h17 : d1 ≤ '7'.toUInt8 := UInt8.le_trans h1.2 (by decide)
  rcases getNext_spec hat (noContinuation_of_ne (digit_ne_backslash h17)) with ⟨input1, hnext1⟩
  rcases getNext_spec (s := { s with input := input1 }) hnext1.2
      (noContinuation_of_ne (digit_ne_backslash h2.2)) with ⟨input2, hnext2⟩
  rcases getOctalDigits_spec (s := { s with input := input2 }) hnext2.2 h3 with
      ⟨input3, hdigits⟩
  refine ⟨input3, ?_, hdigits.2⟩
  unfold getEscapedChar
  rw [hnext1.1]
  rw [ok_bind]
  dsimp only
  rw [simpleEscape_digit ⟨h1.1, h17⟩]
  dsimp only
  split
  . next hzero =>
    unfold getEscapedChar.zeroEscape
    rw [hnext2.1]
    rw [ok_bind]
    dsimp only
    rw [if_neg]
    . rw [if_pos h2]
      rw [hdigits.1]
      rw [← hval]
      rw [hzero]
      rw [UInt8.sub_self]
      rw [UInt8.mul_zero]
      rw [UInt8.zero_add]
    . intro hx
      rw [hx] at h2
      contradiction
  . next hne =>
    rw [if_pos]
    . unfold getEscapedChar.octalEscape
      dsimp only
      rw [hnext2.1]
      rw [ok_bind]
      dsimp only
      rw [hdigits.1]
      rw [ok_bind]
      dsimp only
      rw [hval]
      rfl
    . refine ⟨?_, h17⟩
      have h0 := h1.1
      rw [ge_iff_le]
      rw [UInt8.le_iff_toNat_le] at h0 ⊢
      have hne' : d1.toNat ≠ ('0'.toUInt8).toNat := by
        intro heq
        exact hne (UInt8.toNat_inj.1 heq)
      have h48 : ('0'.toUInt8).toNat = 48 := by decide
      have h49 : ('1'.toUInt8).toNat = 49 := by decide
      omega

-- One round of `GetStr`: the current character starts what is printed for `c`.
theorem readChar_spec {h : UInt8} {t : List UInt8} (hprints : Prints c (h :: t))
    (hat : IsAt s.input (h :: t ++ rest)) (hhead : ∀ d ∈ rest.head?, 32 ≤ d)
    : (h ≠ quote ∧ h ≠ newline ∧ h ≠ eofChar)
        ∧ ∃ input z, unescape s h = .ok (c, { s with input := input })
          ∧ IsAt input (z :: rest) := by
  cases hprints with
  | plain hquote hback hprint =>
    constructor
    . refine ⟨hquote, ?_, ?_⟩
      . intro heq
        rw [heq] at hprint
        exact absurd hprint (by decide)
      . intro heq
        rw [heq] at hprint
        exact absurd hprint (by decide)
    . refine ⟨s.input, c, ?_, hat⟩
      unfold unescape
      rw [if_neg hback]
      rfl
  | simple x hx hprint =>
    constructor
    . decide
    . unfold unescape
      rw [if_pos rfl]
      cases getEscapedChar_simple hx hat (noContinuation_of_le hhead) with
      | intro input hinput => exact ⟨input, x, hinput.1, hinput.2⟩
  | octal d1 d2 d3 h1 h2 h3 hval =>
    constructor
    . decide
    . unfold unescape
      rw [if_pos rfl]
      cases getEscapedChar_octal h1 h2 h3 hval hat with
      | intro input hinput => exact ⟨input, d3, hinput.1, hinput.2⟩

end Escape

section Constant

def body (string rest : List UInt8) : List UInt8 :=
  string.flatMap StringObj.outputChar ++ quote :: rest

theorem body_cons (c : UInt8) (string rest : List UInt8)
    : body (c :: string) rest = StringObj.outputChar c ++ body string rest := by
  unfold body
  rw [flatMap_cons]
  rw [append_assoc]

theorem prints_cons (c : UInt8) : ∃ h t, StringObj.outputChar c = h :: t ∧ Prints c (h :: t) := by
  have hprints := prints_outputChar c
  cases hl : StringObj.outputChar c with
  | nil =>
    rw [hl] at hprints
    cases hprints
  | cons h t =>
    rw [hl] at hprints
    exact ⟨h, t, rfl, hprints⟩

-- Every part of the constant starts with a printable character, and with no line continuation.
theorem head_body (string rest : List UInt8)
    : ∃ h t, body string rest = h :: t ∧ 32 ≤ h ∧ NoContinuation h t := by
  cases string with
  | nil => exact ⟨quote, rest, rfl, by decide, noContinuation_of_ne (by decide)⟩
  | cons c string =>
    rw [body_cons]
    have hprints := prints_outputChar c
    generalize StringObj.outputChar c = l at hprints
    cases hprints with
    | plain hquote hback hprint =>
      exact ⟨c, _, rfl, hprint.1, noContinuation_of_ne hback⟩
    | simple x hx hprint =>
      refine ⟨backslash, _, rfl, by decide, noContinuation_of_le ?_⟩
      intro d hd
      cases hd
      exact hprint.1
    | octal d1 d2 d3 h1 h2 h3 hval =>
      refine ⟨backslash, _, rfl, by decide, noContinuation_of_le ?_⟩
      intro d hd
      cases hd
      exact le_of_digit h1.1

theorem le_of_mem_head?_body {string rest : List UInt8} {d : UInt8}
    (hd : d ∈ (body string rest).head?) : 32 ≤ d := by
  rcases head_body string rest with ⟨h, t, ht⟩
  rw [ht.1] at hd
  cases hd
  exact ht.2.1

end Constant

end Scanner

namespace Scanner

open TypInputFile StringObj

variable {w : IntSize} {s : ScannerState}

section Buffer

def collected (string : Option (List UInt8)) (buf : List UInt8) : List UInt8 :=
  string.getD [] ++ buf

theorem appendBufToString_spec {string : Option (List UInt8)} {buf : List UInt8}
    (hfits : Fits w (collected string buf))
    : appendBufToString w string buf = .ok (collected string buf) := by
  cases string with
  | none => rfl
  | some str =>
    unfold appendBufToString collected at *
    dsimp only [Option.getD_some] at *
    rw [appendCStr_eq]
    rw [if_pos hfits]

theorem addCharToBuf_spec {string : Option (List UInt8)} {buf : List UInt8} (c : UInt8)
    (hfits : Fits w (collected string buf))
    : ∃ string' buf', addCharToBuf w string buf strBufSize c = .ok (string', buf')
        ∧ collected string' buf' = collected string buf ++ [c] := by
  unfold addCharToBuf
  split
  . rw [appendBufToString_spec hfits]
    rw [ok_bind]
    unfold addCharToBuf.write
    rw [if_pos (by unfold strBufSize; decide)]
    exact ⟨some (collected string buf), [c], rfl, rfl⟩
  . next hlt =>
    unfold addCharToBuf.write
    rw [if_pos (by omega)]
    refine ⟨string, buf ++ [c], rfl, ?_⟩
    unfold collected
    rw [append_assoc]

theorem fits_of_append {str str' : List UInt8} (h : Fits w (str ++ str')) : Fits w str := by
  unfold Fits at *
  rw [length_append] at h
  omega

end Buffer

section Loop

-- The characters of `string` that are left are appended to what has been collected.
theorem getStrLoop_spec (string rest : List UInt8) (fuel : Nat) (str : Option (List UInt8))
    (buf : List UInt8) (c : UInt8) (hat : IsAt s.input (body string rest))
    (hc : (body string rest).head? = some c)
    (hfits : Fits w (collected str buf ++ string)) (hfuel : string.length < fuel)
    : ∃ input str' buf', getStrLoop w fuel s c str buf
          = .ok (quote, { s with input := input }, str', buf')
        ∧ collected str' buf' = collected str buf ++ string
        ∧ IsAt input (quote :: rest) := by
  induction string generalizing s fuel str buf c with
  | nil =>
    cases fuel with
    | zero => omega
    | succ fuel =>
      have hquote : quote = c := by
        rw [show body [] rest = quote :: rest by rfl] at hc
        rw [head?_cons] at hc
        rw [Option.some.injEq] at hc
        exact hc
      refine ⟨s.input, str, buf, ?_, ?_, hat⟩
      . unfold getStrLoop
        rw [if_neg]
        . rw [← hquote]
          rfl
        . intro hand
          exact hand.1 hquote.symm
      . rw [append_nil]
  | cons a string ih =>
    cases fuel with
    | zero => omega
    | succ fuel =>
      rcases prints_cons a with ⟨h, t, ht⟩
      rw [body_cons] at hat hc
      rw [ht.1] at hat hc
      rw [cons_append] at hc
      rw [head?_cons] at hc
      rw [Option.some.injEq] at hc
      have hread := readChar_spec ht.2 hat (fun d hd => le_of_mem_head?_body hd)
      rw [hc] at hread
      rcases hread.2 with ⟨input1, z, hz⟩
      rcases head_body string rest with ⟨d, more, hmore⟩
      rw [append_cons] at hfits
      rcases addCharToBuf_spec (w := w) a
          (fits_of_append (fits_of_append hfits)) with ⟨str1, buf1, hadd⟩
      have hat1 := hz.2
      rw [hmore.1] at hat1
      rcases getNext_spec (s := { s with input := input1 }) hat1 hmore.2.2 with
          ⟨input2, hnext⟩
      have hat2 := hnext.2
      rw [← hmore.1] at hat2
      have hrec := ih (s := { s with input := input2 }) fuel str1 buf1 d hat2
        (by rw [hmore.1]; rfl) (by rw [hadd.2]; exact hfits)
        (by rw [length_cons] at hfuel; omega)
      unfold getStrLoop
      rw [if_pos hread.1]
      rw [hz.1]
      rw [ok_bind]
      dsimp only
      rw [hadd.1]
      rw [ok_bind]
      dsimp only
      rw [hnext.1]
      rw [ok_bind]
      dsimp only
      rw [append_cons]
      rw [← hadd.2]
      exact hrec

end Loop

section Constant

def NotQuote (rest : List UInt8) : Prop :=
  ∀ line more, line ++ more.flatten = rest → (settle line more).current ≠ quote

def ReadsBack (w : IntSize) (s : ScannerState) (rest string : List UInt8) : Prop :=
  ∃ line more, line ++ more.flatten = rest
    ∧ getString w s = .ok { s with input := settle line more, valueObj := string }

theorem length_le_body (string rest : List UInt8) : string.length < (body string rest).length := by
  induction string with
  | nil =>
    rw [show body [] rest = quote :: rest by rfl]
    rw [length_cons]
    exact Nat.succ_pos _
  | cons c string ih =>
    rcases prints_cons c with ⟨h, t, ht⟩
    rw [body_cons]
    rw [ht.1]
    rw [length_append]
    rw [length_cons]
    rw [length_cons]
    omega

variable {rest : List UInt8}

theorem readsBack_nil (hat : IsAt s.input (quote :: quote :: rest)) (hnot : NotQuote rest)
    : ReadsBack w s rest [] := by
  rcases getNext_spec hat (noContinuation_of_ne (by decide)) with ⟨input, hnext⟩
  rcases getNext_last (s := { s with input := input }) hnext.2 with ⟨line, more, hmore⟩
  refine ⟨line, more, hmore.1, ?_⟩
  unfold getString
  dsimp only
  rw [hnext.1]
  rw [ok_bind]
  dsimp only
  rw [if_pos rfl]
  rw [hmore.2]
  rw [ok_bind]
  dsimp only
  rw [if_neg (hnot line more hmore.1)]
  rfl

theorem readsBack_cons {string : List UInt8} {a : UInt8}
    (hat : IsAt s.input (quote :: body (a :: string) rest)) (hfits : Fits w (a :: string))
    : ReadsBack w s rest (a :: string) := by
  rcases head_body (a :: string) rest with ⟨h, t, ht⟩
  have hat0 := hat
  rw [ht.1] at hat0
  rcases getNext_spec hat0 ht.2.2 with ⟨input, hnext⟩
  have hat1 := hnext.2
  rw [← ht.1] at hat1
  have hh : (body (a :: string) rest).head? = some h := by
    rw [ht.1]
    rfl
  have hquote : h ≠ quote := by
    rcases prints_cons a with ⟨h', t', ht'⟩
    rw [body_cons] at hh hat1
    rw [ht'.1] at hh hat1
    have hread := readChar_spec (s := { s with input := input }) ht'.2 hat1
      (fun d hd => le_of_mem_head?_body hd)
    rw [cons_append] at hh
    rw [head?_cons] at hh
    rw [Option.some.injEq] at hh
    rw [← hh]
    exact hread.1.1
  have hfuel : (a :: string).length < s.input.text.length + 2 := by
    have := length_le_body (a :: string) rest
    rw [hat.text_eq]
    have hcons : (quote :: body (a :: string) rest).length
        = (body (a :: string) rest).length + 1 := length_cons
    omega
  have hloop := getStrLoop_spec (w := w) (s := { s with input := input }) (a :: string) rest
    (s.input.text.length + 2) none [] h hat1 hh hfits hfuel
  rcases hloop with ⟨input1, str, buf, hstr⟩
  have hvalue : collected str buf = a :: string := hstr.2.1
  have happend : appendBufToString w str buf = .ok (a :: string) := by
    rw [appendBufToString_spec]
    . rw [hvalue]
    . rw [hvalue]
      exact hfits
  rcases getNext_last
      (s := { s with input := input1, valueObj := a :: string }) hstr.2.2 with
      ⟨line, more, hmore⟩
  refine ⟨line, more, hmore.1, ?_⟩
  unfold getString
  dsimp only
  rw [hnext.1]
  rw [ok_bind]
  dsimp only
  rw [if_neg hquote]
  unfold getStr
  rw [hstr.1]
  rw [ok_bind]
  dsimp only
  rw [happend]
  rw [ok_bind]
  rw [if_neg (by decide)]
  rw [if_neg (by decide)]
  rw [show ∀ p : UInt8 × ScannerState, (pure p : Result _) = .ok p by
    intro p; rfl]
  rw [ok_bind]
  unfold getString.skipQuote
  rw [if_pos rfl]
  rw [hmore.2]
  rfl

/--
Printing a string fails only when the string constant would be too long for a string, and the
scanner reads a string constant back: there is no new error, and the input is behind the constant.
-/
theorem getString_viewStringForString (string : List UInt8)
    : (∀ e, viewStringForString w string = .error e →
          e = lengthFault ∧ w.intIntobjMax < 4 * string.length + 2)
        ∧ ∀ out, viewStringForString w string = .ok out → ∀ (s : ScannerState) (rest : List UInt8),
          s.input.line ≠ [] → s.input.text = out ++ rest → NotQuote rest →
            ReadsBack w s rest string := by
  rw [viewStringForString_eq]
  constructor
  . intro e he
    split at he
    . contradiction
    . next hlong =>
      rw [Except.error.injEq] at he
      refine ⟨he.symm, ?_⟩
      have hlen : (string.flatMap outputChar).length ≤ 4 * string.length := by
        clear hlong
        induction string with
        | nil => simp
        | cons c string ih =>
          have := length_outputChar_le c
          rw [List.flatMap_cons]
          rw [List.length_append]
          rw [List.length_cons]
          omega
      unfold Fits stringConstant at hlong
      rw [List.length_cons] at hlong
      rw [List.length_append] at hlong
      rw [List.length_singleton] at hlong
      omega
  . intro out hout s rest hline htext hnot
    split at hout
    . next hfits =>
      rw [Except.ok.injEq] at hout
      have hconstant : out ++ rest = quote :: body string rest := by
        rw [← hout]
        unfold stringConstant body
        rw [List.cons_append]
        rw [List.append_assoc]
        rfl
      have hat : IsAt s.input (quote :: body string rest) := by
        constructor
        . exact hline
        . rw [htext]
          exact hconstant
      cases string with
      | nil => exact readsBack_nil hat hnot
      | cons a string =>
        apply readsBack_cons hat
        have hlen := length_le_body (a :: string) []
        unfold body at hlen
        unfold Fits stringConstant at *
        have hcons : (quote :: ((a :: string).flatMap outputChar ++ [quote])).length
            = ((a :: string).flatMap outputChar ++ [quote]).length + 1 := List.length_cons
        omega
    . contradiction

theorem notQuote_of_ne {c : UInt8} (hquote : c ≠ quote) (hback : c ≠ backslash)
    : NotQuote (c :: rest) := by
  intro line more htext
  rw [(settle_spec htext (noContinuation_of_ne hback)).2]
  exact hquote

-- The bytes 255, newline and double quote, with a semicolon behind them.
theorem getString_viewStringForString_three
    : ReadsBack .int8
        { input := { line := stringConstant [255, 10, 34], more := [[59]] }, errors := [],
          valueObj := [] }
        [59] [255, 10, 34] := by
  apply (getString_viewStringForString [255, 10, 34]).2 (stringConstant [255, 10, 34])
  . rw [viewStringForString_eq]
    rw [if_pos (by decide)]
  . decide
  . decide
  . apply notQuote_of_ne
    . decide
    . decide

end Constant

end Scanner
