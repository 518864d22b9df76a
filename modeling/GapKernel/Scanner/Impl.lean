import GapKernel.Fault
import GapKernel.IntObj

/-!
This module contains the characters of the kernel and the input of the scanner. A character is a
byte, the order of two of them is only used to tell digits and letters from the other characters.
-/

namespace Scanner

def quote : UInt8 := 34

def apostrophe : UInt8 := 39

def backslash : UInt8 := 92

def newline : UInt8 := 10

def carriageReturn : UInt8 := 13

-- The character for the end of the input, which a string may contain as well.
def eofChar : UInt8 := 255

end Scanner

/--
The rest of the line buffer from the current character on, without the null byte at its end, and
what the next calls of `GetLine` store there.
-/
structure TypInputFile where
  line : List UInt8
  more : List (List UInt8)
  deriving DecidableEq, Repr

namespace TypInputFile

def text (input : TypInputFile) : List UInt8 :=
  input.line ++ input.more.flatten

def settle (line : List UInt8) (more : List (List UInt8)) : TypInputFile :=
  match line with
  | [] =>
    match more with
    | [] => { line := [Scanner.eofChar], more := [] }
    | line :: more => settle line more
  | c :: rest =>
    if c = Scanner.backslash then
      match rest with
      | [] => { line := [c], more := more }
      | d :: rest' =>
        if d = Scanner.newline then
          settle rest' more
        else if d = Scanner.carriageReturn ∧ rest'.head? = some Scanner.newline then
          settle rest'.tail more
        else
          { line := c :: d :: rest', more := more }
    else
      { line := c :: rest, more := more }
termination_by (more.length, line.length)
decreasing_by
  all_goals simp_wf
  all_goals omega

def current (input : TypInputFile) : UInt8 :=
  input.line.headD 0

def getNextChar (input : TypInputFile) : Result TypInputFile :=
  match input.line with
  | [] => throw .access
  | _ :: line => return settle line input.more

def flushRestOfInputLine (input : TypInputFile) : TypInputFile :=
  { input with line := [] }

end TypInputFile

namespace StringObj

open Scanner

-- The size of `PrStrBuf`
def prStrBufSize : Nat := 10007

def putChar (buf : List UInt8) (c : UInt8) : Result (List UInt8) :=
  if buf.length < prStrBufSize then return buf ++ [c] else throw .access

/--
What the `switch` of `OutputStringGeneric` writes for one character.
-/
def outputChar (c : UInt8) : List UInt8 :=
  if c = backslash then [backslash, backslash]
  else if c = quote then [backslash, quote]
  else if c = newline then [backslash, 'n'.toUInt8]
  else if c = '\t'.toUInt8 then [backslash, 't'.toUInt8]
  else if c = carriageReturn then [backslash, 'r'.toUInt8]
  else if c = 8 then [backslash, 'b'.toUInt8]
  else if c = 1 then [backslash, '>'.toUInt8]
  else if c = 2 then [backslash, '<'.toUInt8]
  else if c = 3 then [backslash, 'c'.toUInt8]
  else if c < 32 ∨ c > 126 then
    let n := c / 64
    let c := c - n * 64
    let m := c / 8
    let c := c - m * 8
    [backslash, n + '0'.toUInt8, m + '0'.toUInt8, c + '0'.toUInt8]
  else [c]

-- The inner loop, it returns the buffer and the rest of the string.
def fillPrStrBuf : List UInt8 → List UInt8 → Result (List UInt8 × List UInt8)
  | [], buf => return (buf, [])
  | c :: rest, buf => do
    let buf ← (outputChar c).foldlM putChar buf
    if rest ≠ [] ∧ buf.length < 10000 then fillPrStrBuf rest buf else return (buf, rest)

variable {σ : Type}

def outputBlocks (func : σ → List UInt8 → Result σ) : Nat → List UInt8 → σ → Result σ
  | _, [], data => return data
  | 0, _ :: _, _ => throw .fuel
  | fuel + 1, c :: rest, data => do
    let (buf, rest) ← fillPrStrBuf (c :: rest) []
    let data ← func data buf
    outputBlocks func fuel rest data

def outputStringGeneric (func : σ → List UInt8 → Result σ) (data : σ) (list : List UInt8)
    : Result σ := do
  let buf ← putChar [] quote
  let data ← func data buf
  let data ← outputBlocks func list.length list data
  let buf ← putChar [] quote
  func data buf

-- `GrowString`
def lengthFault : Fault :=
  .quit "GrowString: string length too large" 0 0

-- A string has at most `INT_INTOBJ_MAX` characters.
def appendCStr (w : IntSize) (str buf : List UInt8) : Result (List UInt8) :=
  if ((str.length + buf.length : Nat) : Int) > w.intIntobjMax then
    throw lengthFault
  else
    return str ++ buf

def viewStringForString (w : IntSize) (string : List UInt8) : Result (List UInt8) :=
  outputStringGeneric (appendCStr w) [] string

end StringObj

structure ScannerState where
  input : TypInputFile
  -- The messages of the syntax errors so far
  errors : List String
  valueObj : List UInt8
  deriving DecidableEq, Repr

namespace Scanner

def syntaxError (s : ScannerState) (msg : String) : ScannerState :=
  { s with errors := s.errors ++ [msg] }

-- `GET_NEXT_CHAR`
def getNext (s : ScannerState) : Result (UInt8 × ScannerState) := do
  let input ← s.input.getNextChar
  return (input.current, { s with input := input })

def getOctalDigits (s : ScannerState) (c : UInt8) : Result (UInt8 × ScannerState) := do
  let result := 8 * (c - '0'.toUInt8)
  let (c, s) ← getNext s
  let s := if c < '0'.toUInt8 ∨ c > '7'.toUInt8 then syntaxError s "Expecting octal digit" else s
  return (result + (c - '0'.toUInt8), s)

def isxdigit (c : UInt8) : Bool :=
  ('0'.toUInt8 ≤ c ∧ c ≤ '9'.toUInt8) ∨ ('A'.toUInt8 ≤ c ∧ c ≤ 'F'.toUInt8)
    ∨ ('a'.toUInt8 ≤ c ∧ c ≤ 'f'.toUInt8)

def charHexDigit (s : ScannerState) : Result (UInt8 × ScannerState) := do
  let (c, s) ← getNext s
  let s := if !isxdigit c then syntaxError s "Expecting hexadecimal digit" else s
  return (hexValue c, s)
where
  hexValue (c : UInt8) : UInt8 :=
    if c ≥ 'a'.toUInt8 then
      c - 'a'.toUInt8 + 10
    else if c ≥ 'A'.toUInt8 then
      c - 'A'.toUInt8 + 10
    else
      c - '0'.toUInt8

def simpleEscape (c : UInt8) : Option UInt8 :=
  if c = 'n'.toUInt8 then some newline
  else if c = 't'.toUInt8 then some '\t'.toUInt8
  else if c = 'r'.toUInt8 then some carriageReturn
  else if c = 'b'.toUInt8 then some 8
  else if c = '>'.toUInt8 then some 1
  else if c = '<'.toUInt8 then some 2
  else if c = 'c'.toUInt8 then some 3
  else if c = quote then some quote
  else if c = backslash then some backslash
  else if c = apostrophe then some apostrophe
  else none

def getEscapedChar (s : ScannerState) : Result (UInt8 × ScannerState) := do
  let (c, s) ← getNext s
  match simpleEscape c with
  | some result => return (result, s)
  | none =>
    if c = '0'.toUInt8 then
      zeroEscape s
    else if c ≥ '1'.toUInt8 ∧ c ≤ '7'.toUInt8 then
      octalEscape s c
    else
      return (c, s)
where
  -- A hex escape or three digit octal numbers
  zeroEscape (s : ScannerState) : Result (UInt8 × ScannerState) := do
    let (c, s) ← getNext s
    if c = 'x'.toUInt8 then
      hexEscape s
    else if c ≥ '0'.toUInt8 ∧ c ≤ '7'.toUInt8 then
      getOctalDigits s c
    else
      return (0, syntaxError s "Expecting hexadecimal escape, or two more octal digits")
  hexEscape (s : ScannerState) : Result (UInt8 × ScannerState) := do
    let (high, s) ← charHexDigit s
    let (low, s) ← charHexDigit s
    return (16 * high + low, s)
  octalEscape (s : ScannerState) (c : UInt8) : Result (UInt8 × ScannerState) := do
    let result := 64 * (c - '0'.toUInt8)
    let (c, s) ← getNext s
    let (digits, s) ← getOctalDigits s c
    return (result + digits, s)

/--
`AppendBufToString`, `none` is the null pointer.
-/
def appendBufToString (w : IntSize) (string : Option (List UInt8)) (buf : List UInt8)
    : Result (List UInt8) :=
  match string with
  | none => return buf
  | some str => StringObj.appendCStr w str buf

def addCharToBuf (w : IntSize) (string : Option (List UInt8)) (buf : List UInt8) (bufsize : Nat)
    (c : UInt8) : Result (Option (List UInt8) × List UInt8) :=
  if buf.length ≥ bufsize then do
    let str ← appendBufToString w string buf
    write (some str) []
  else
    write string buf
where
  write (string : Option (List UInt8)) (buf : List UInt8)
      : Result (Option (List UInt8) × List UInt8) :=
    if buf.length < bufsize then return (string, buf ++ [c]) else throw .access

def strBufSize : Nat := 1024

-- The `if` in the loop of `GetStr`
def unescape (s : ScannerState) (c : UInt8) : Result (UInt8 × ScannerState) :=
  if c = backslash then getEscapedChar s else return (c, s)

-- The loop of `GetStr`
def getStrLoop (w : IntSize)
    : Nat → ScannerState → UInt8 → Option (List UInt8) → List UInt8
      → Result (UInt8 × ScannerState × Option (List UInt8) × List UInt8)
  | 0, _, _, _, _ => throw .fuel
  | fuel + 1, s, c, string, buf =>
    if c ≠ quote ∧ c ≠ newline ∧ c ≠ eofChar then do
      let (c, s) ← unescape s c
      let (string, buf) ← addCharToBuf w string buf strBufSize c
      let (c, s) ← getNext s
      getStrLoop w fuel s c string buf
    else
      return (c, s, string, buf)

def getStr (w : IntSize) (fuel : Nat) (s : ScannerState) (c : UInt8)
    : Result (UInt8 × ScannerState) := do
  let (c, s, string, buf) ← getStrLoop w fuel s c none []
  let value ← appendBufToString w string buf
  let s := { s with valueObj := value }
  if c = newline then
    return (c, syntaxError s "String must not include <newline>")
  else if c = eofChar then
    return (c, syntaxError { s with input := s.input.flushRestOfInputLine }
      "String must end with \" before end of file")
  else
    return (c, s)

-- What is added for one or two quotes that do not end the string
def addQuotes (w : IntSize) (n : Nat) (string : Option (List UInt8)) (buf : List UInt8)
    : Result (Option (List UInt8) × List UInt8) :=
  match n with
  | 0 => return (string, buf)
  | n + 1 => do
    let (string, buf) ← addCharToBuf w string buf strBufSize quote
    addQuotes w n string buf

-- The quotes at the current character, at most three of them are read.
def readQuotes (s : ScannerState) (c : UInt8) : Result (Nat × UInt8 × ScannerState) :=
  if c = quote then do
    let (c, s) ← getNext s
    if c = quote then do
      let (c, s) ← getNext s
      return (if c = quote then 3 else 2, c, s)
    else
      return (1, c, s)
  else
    return (0, c, s)

-- The loop of `GetTripStr`
def getTripStrLoop (w : IntSize)
    : Nat → ScannerState → UInt8 → Option (List UInt8) → List UInt8
      → Result (UInt8 × ScannerState × Option (List UInt8) × List UInt8)
  | 0, _, _, _, _ => throw .fuel
  | fuel + 1, s, c, string, buf =>
    if c ≠ eofChar then do
      let (n, c, s) ← readQuotes s c
      if n = 3 then
        return (c, s, string, buf)
      else do
        let (string, buf) ← addQuotes w n string buf
        let (string, buf) ← addCharToBuf w string buf strBufSize c
        let (c, s) ← getNext s
        getTripStrLoop w fuel s c string buf
    else
      return (c, s, string, buf)

def getTripStr (w : IntSize) (fuel : Nat) (s : ScannerState) (c : UInt8)
    : Result (UInt8 × ScannerState) := do
  let (c, s, string, buf) ← getTripStrLoop w fuel s c none []
  let value ← appendBufToString w string buf
  let s := { s with valueObj := value }
  if c = eofChar then
    return (c, syntaxError { s with input := s.input.flushRestOfInputLine }
      "String must end with \"\"\" before end of file")
  else
    return (c, s)

-- Every round of the loops reads one character at least.
def getString (w : IntSize) (s : ScannerState) : Result ScannerState := do
  let fuel := s.input.text.length + 2
  let (c, s) ← getNext s
  if c = quote then do
    let (c, s) ← getNext s
    if c = quote then do
      let (c, s) ← getNext s
      let (c, s) ← getTripStr w fuel s c
      skipQuote s c
    else
      return { s with valueObj := [] }
  else do
    let (c, s) ← getStr w fuel s c
    skipQuote s c
where
  skipQuote (s : ScannerState) (c : UInt8) : Result ScannerState :=
    if c = quote then do
      let (_, s) ← getNext s
      return s
    else
      return s

end Scanner
