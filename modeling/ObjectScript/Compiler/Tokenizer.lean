import Mathlib.Data.List.Basic
import ObjectScript.Core.DoubleNumber
/-!
# The tokenizer

`parseLines` runs over the lines of a text.  A line is a C string, the cursor `str` is what is left of it, and the byte behind
its end is zero.  Reading at the cursor stays inside of the line; every other place is read through `peek`, `looksLike`,
`memcmp` and `advance`, and a line through `nextLine`: these have no result outside.

Each turn of a loop of `parseLines` is a turn here, and `Mode` says which loop it is in.
-/
namespace ObjectScript
namespace Compiler
namespace Tokenizer

/-! ## Reading -/

/-- `*str` -/
def head (s : List Nat) : Nat := s.headD 0

/-- `str[k]` -/
def peek (s : List Nat) (k : Nat) : Option Nat := if k ≤ s.length then some (s.getD k 0) else none

/-- `str[k] == c && str[k + 1] == d && ...` -/
def looksLike (s : List Nat) : Nat → List Nat → Option Bool
  | _, [] => some true
  | k, c :: cs =>
    match peek s k with
    | none => none
    | some d => if d = c then looksLike s (k + 1) cs else some false

/-- `str += k` -/
def advance (s : List Nat) (k : Nat) : Option (List Nat) := if k ≤ s.length then some (s.drop k) else none

/-- `OS_MEMCMP(str, mark, len) == 0`; the zero behind the line is part of it. -/
def memcmp (s mark : List Nat) : Option Bool :=
  if mark.length ≤ s.length + 1 then some (mark.isPrefixOf (s ++ [0])) else none

/-- What a C function sees of the rest of a line. -/
def cstr (s : List Nat) : List Nat := s.takeWhile (· ≠ 0)

/-- `OS_STRSTR`: what stands before the mark, and the rest from the mark on. -/
def strstr (mark : List Nat) : List Nat → Option (List Nat × List Nat)
  | [] => none
  | c :: s =>
    if mark.isPrefixOf (c :: s) then some ([], c :: s)
    else if c = 0 then none
    else (strstr mark s).map fun r => (c :: r.1, r.2)

/-- `OS_IS_SPACE` of a signed character -/
def isSpace (c : Nat) : Bool := 0 < c && c ≤ 32

/-- `parseSpaces` -/
def skipSpaces (s : List Nat) : List Nat := s.dropWhile isSpace

/-! ## Numbers -/

def isDigit (c : Nat) : Bool := 48 ≤ c && c ≤ 57

def decDigit (c : Nat) : Option Nat := if isDigit c then some (c - 48) else none
def octDigit (c : Nat) : Option Nat := if 48 ≤ c ∧ c ≤ 55 then some (c - 48) else none
def binDigit (c : Nat) : Option Nat := if 48 ≤ c ∧ c ≤ 49 then some (c - 48) else none
def hexDigit (c : Nat) : Option Nat :=
  if isDigit c then some (c - 48)
  else if 97 ≤ c ∧ c ≤ 102 then some (c - 87)
  else if 65 ≤ c ∧ c ≤ 70 then some (c - 55)
  else none

/-- `OS_UINT` and `int` -/
def wrapUInt (v : Int) : Int := v % 18446744073709551616
def wrapInt (v : Int) : Int := (v + 2147483648) % 4294967296 - 2147483648

/-- The loop of `parseSimpleHex`, `parseSimpleBin`, `parseSimpleOctal` and `parseSimpleDec`; it fails when the value drops. -/
def simpleLoop (digit : Nat → Option Nat) (base : Int) (wrap : Int → Int) : Int → List Nat → Option (Int × List Nat)
  | val, [] => some (val, [])
  | val, c :: s =>
    match digit c with
    | none => some (val, c :: s)
    | some d =>
      let next := wrap (val * base + d)
      if next < val then none else simpleLoop digit base wrap next s

def parseSimple (digit : Nat → Option Nat) (base : Int) (wrap : Int → Int) (s : List Nat) : Option (Int × List Nat) :=
  match simpleLoop digit base wrap 0 s with
  | none => none
  | some (val, rest) => if rest.length < s.length then some (val, rest) else none

def parseSimpleHex (wrap : Int → Int) (s : List Nat) : Option (Int × List Nat) := parseSimple hexDigit 16 wrap s
def parseSimpleBin (wrap : Int → Int) (s : List Nat) : Option (Int × List Nat) := parseSimple binDigit 2 wrap s
def parseSimpleOctal (wrap : Int → Int) (s : List Nat) : Option (Int × List Nat) := parseSimple octDigit 8 wrap s
def parseSimpleDec (wrap : Int → Int) (s : List Nat) : Option (Int × List Nat) := parseSimple decDigit 10 wrap s

/-- The characters that `isValidCharAfterNumber` looks for, "!@#$%^&*()-+={}[]\|;:'",<.>/?`~". -/
def afterNumber : List Nat :=
  [33, 64, 35, 36, 37, 94, 38, 42, 40, 41, 45, 43, 61, 123, 125, 91, 93, 92, 124, 59, 58, 39, 34, 44, 60, 46, 62, 47, 63, 96, 126]

def isValidCharAfterNumber (s : List Nat) : Bool := head s == 0 || isSpace (head s) || afterNumber.contains (head s)

def specials : List (List Nat) := [[73, 78, 70], [73, 78, 68], [81, 78, 65, 78]]

/-- The loop over `spec` behind `1.#`; a name that is not followed by the end of a number leaves `str` behind it. -/
def parseSpecial : List (List Nat) → List Nat → Option (Option (List Nat))
  | [], _ => some none
  | spec :: specs, s =>
    match advance s 2 with
    | none => none
    | some r =>
      match memcmp r spec with
      | none => none
      | some false => parseSpecial specs s
      | some true =>
        match advance s (spec.length + 2) with
        | none => none
        | some s => if isValidCharAfterNumber s then some (some s) else parseSpecial specs s

/-- The exponent behind a fraction, and the letter `f` behind that. -/
def parseExponent (s : List Nat) : Option (List Nat) :=
  if head s = 101 ∨ head s = 69 then
    let s := s.tail
    let s := if head s = 45 ∨ head s = 43 then s.tail else s
    (parseSimpleDec wrapInt s).map Prod.snd
  else some s

def parseSuffix (s : List Nat) : List Nat := if head s = 102 ∧ isValidCharAfterNumber s.tail then s.tail else s

/-- A number that starts with a digit other than the zero of another radix. -/
def parseDecimal (positive : Bool) (start : List Nat) : Option (Option (List Nat)) :=
  let s := start.dropWhile isDigit
  if s.length = start.length then some none
  else if head s = 46 then
    match peek s 1 with
    | none => none
    | some d =>
      if d = 46 then some (some s)
      else if positive = true ∧ s.length + 1 = start.length ∧ head start = 49 ∧ d = 35 then parseSpecial specials s
      else
        match parseExponent (s.tail.dropWhile isDigit) with
        | none => some none
        | some s => some (some (parseSuffix s))
  else some (some s)

/-- An integer that is another one as a number is no literal. -/
def exactNumber (r : Option (Int × List Nat)) : Option (List Nat) :=
  match r with
  | some (v, rest) => if Core.Double.toUInt64 (Core.Double.ofInt64 v) = v then some rest else none
  | none => none

/-- `0x`, `0b` or an octal number. -/
def parseRadix (start : List Nat) (c : Nat) : Option (Option (List Nat)) :=
  if c = 120 then (advance start 2).map fun s => exactNumber (parseSimpleHex wrapUInt s)
  else if c = 98 then (advance start 2).map fun s => exactNumber (parseSimpleBin wrapUInt s)
  else some (exactNumber (parseSimpleOctal wrapUInt start))

/-- `Utils::parseFloat` of a token: what is behind the number. -/
def parseFloat (s : List Nat) : Option (Option (List Nat)) :=
  let start := if head s = 45 ∨ head s = 43 then s.tail else s
  if head start = 48 then
    match peek start 1 with
    | none => none
    | some c => if c ≠ 46 then parseRadix start c else parseDecimal (head s != 45) start
  else parseDecimal (head s != 45) start

/-- The last point of what was read, from the place `i` back; the first character does not count. -/
def backToPoint (s : List Nat) : Nat → Option (List Nat)
  | 0 => none
  | i + 1 => if s.getD (i + 1) 0 = 46 then some (s.drop (i + 1)) else backToPoint s i

/-- `Tokenizer::parseFloat`: what is behind the number and the spaces after it. -/
def parseNumber (s : List Nat) : Option (Option (List Nat)) :=
  match parseFloat s with
  | none => none
  | some none => some none
  | some (some rest) =>
    if isValidCharAfterNumber rest then some (some (skipSpaces rest))
    else
      match backToPoint s (s.length - rest.length - 1) with
      | some r => some (some r)
      | none => if head rest = 102 ∧ isValidCharAfterNumber rest.tail then some (some (skipSpaces rest.tail)) else some none

/-! ## Tokens -/

/-- The types of tokens; that of an operator is given by its text. -/
inductive TokenType where
  | outputString | outputNextValue | string | beforeInjectVar | afterInjectVar | beginBracketBlock | endBracketBlock
  | commentLine | commentMultiLine | name | number | operator
deriving DecidableEq, Repr

structure Token where
  text : List Nat
  type : TokenType
  line : Nat
  pos : Nat
deriving DecidableEq, Repr

/-- `operator_desc`, the longest ones first. -/
def operators : List (List Nat) :=
  -- three characters
  [[46, 46, 46], [61, 61, 61], [33, 61, 61], [60, 61, 62], [60, 60, 61], [62, 62, 61], [42, 42, 61],
  -- two characters
   [45, 62], [58, 58], [38, 38], [124, 124], [61, 61], [33, 61], [62, 61], [60, 61], [43, 43], [45, 45], [46, 46], [60, 60],
   [62, 62], [42, 42], [38, 61], [124, 61], [94, 61], [126, 61], [43, 61], [45, 61], [42, 61], [47, 61], [37, 61],
  -- one character
   [46], [64], [62], [60], [33], [63], [58], [35], [38], [124], [94], [126], [43], [45], [42], [47], [37], [61], [123], [125],
   [40], [41], [91], [93], [59], [44]]

/-- `EStringType` -/
inductive StringType where
  | notString | simple | quote | multiSimple | multiQuote
deriving DecidableEq, Repr

inductive ErrorType where
  | errorMultiLineComment | errorConstString | errorConstStringEscapeChar | errorSyntax
deriving DecidableEq, Repr

/-- The loop that `parseLines` is in, with its variables. -/
inductive Mode where
  /-- the turns over the tokens of a line -/
  | code
  /-- a string of several lines -/
  | multi (buf tokenStart : List Nat)
  /-- a string -/
  | string (buf tokenStart : List Nat)
  /-- a comment of several lines -/
  | comment (text : List Nat) (startLine startPos : Nat)
  /-- the text between the sections of a template -/
  | template (buf : List Nat)
deriving DecidableEq, Repr

/-- The tokenizer with the variables of `parseLines`; `below` are the lines behind the current one. -/
structure Scanner where
  count : Nat
  saveComments : Bool
  curLine : Nat
  lineStart : List Nat
  str : List Nat
  below : List (List Nat)
  templateEnabled : Bool
  isTemplate : Bool
  stringType : StringType
  stringTypeStack : List StringType
  varInString : Nat
  multiStringId : List Nat
  mode : Mode
  tokens : List Token

inductive Outcome where
  | next (s : Scanner)
  /-- true is returned -/
  | done (s : Scanner)
  /-- false is returned, with the error and `cur_pos` -/
  | fail (error : ErrorType) (pos : Nat)

namespace Scanner

variable (s : Scanner)

/-- `p - line_start` -/
def pos (p : List Nat) : Nat := s.lineStart.length - p.length

def addToken (text : List Nat) (type : TokenType) (pos : Nat) : Scanner :=
  { s with tokens := s.tokens ++ [⟨text, type, s.curLine, pos⟩] }

/-- `str = line_start = text_data->lines[++cur_line].toChar()` -/
def nextLine : Option Scanner :=
  match s.below with
  | [] => none
  | l :: ls => some { s with curLine := s.curLine + 1, lineStart := l, str := l, below := ls }

/-- The end of the loop over a line, and the head of the loop over the lines. -/
def endLine : Outcome :=
  match s.below with
  | [] => .done s
  | l :: ls => .next { s with curLine := s.curLine + 1, lineStart := l, str := l, below := ls, mode := .code }

def templateTurn (buf : List Nat) : Option Outcome :=
  match strstr [60, 37] s.str with
  | some (before, tag) =>
    let buf := buf ++ before
    let t := if buf ≠ [] then s.addToken buf .outputString (s.pos s.str) else s
    match advance tag 2 with
    | none => none
    | some str =>
      let t := { t with str := str, isTemplate := false, mode := .code }
      if head str = 61 then
        some (.next { t.addToken [61] .outputNextValue (s.str.length - str.length) with str := str.tail })
      else some (.next t)
  | none =>
    let buf := buf ++ cstr s.str ++ [10]
    match s.nextLine with
    | none => some (.done (s.addToken buf .outputString 0))
    | some t => some (.next { t with mode := .template buf })

/-- The tokens of `${` in a string. -/
def inject (buf tokenStart str : List Nat) : Scanner :=
  let s := { s with varInString := 1, stringTypeStack := s.stringType :: s.stringTypeStack, stringType := .notString, str := str }
  let s := s.addToken buf .string (s.pos tokenStart)
  let s := s.addToken [36, 123] .beforeInjectVar (s.pos str - 2)
  { s.addToken [40] .beginBracketBlock (s.pos str - 2) with mode := .code }

/-- The line end in front of the mark goes away; in front of a line end alone the buffer is read behind its start. -/
def trimLineEnd (buf : List Nat) : Option (List Nat) :=
  let buf := if buf.getLast? = some 10 then buf.dropLast else buf
  match buf.getLast? with
  | none => none
  | some c => some (if c = 13 then buf.dropLast else buf)

def multiTurn (buf tokenStart : List Nat) : Option Outcome :=
  if head s.str = 0 then
    match s.nextLine with
    | none => some (.fail .errorConstString (s.pos s.str))
    | some t => some (.next { t with mode := .multi (buf ++ [10]) t.str })
  else
    match memcmp s.str s.multiStringId with
    | none => none
    | some true =>
      if s.varInString ≠ 0 then some (.fail .errorSyntax (s.pos s.str))
      else
        match advance s.str s.multiStringId.length with
        | none => none
        | some str =>
          match if s.str.length = s.lineStart.length ∧ buf ≠ [] then trimLineEnd buf else some buf with
          | none => none
          | some buf =>
            let t := { s with stringType := .notString, str := str, mode := .code }
            some (.next (t.addToken buf .string (s.pos tokenStart)))
    | some false =>
      let c := head s.str
      let str := s.str.tail
      if s.stringType = .multiQuote ∧ c = 36 ∧ head str = 123 then
        if s.varInString ≠ 0 then some (.fail .errorSyntax (s.pos str))
        else some (.next (s.inject buf tokenStart str.tail))
      else if s.stringType = .multiQuote ∧ c = 92 ∧ head str = 36 then
        some (.next { s with str := str.tail, mode := .multi (buf ++ [36]) tokenStart })
      else some (.next { s with str := str, mode := .multi (buf ++ [c]) tokenStart })

/-- The character that a value of an escape stands for. -/
def escapeValue (v : Int) : Nat := if v ≤ 255 then v.toNat else 255

/-- What a backslash in a string stands for, and what is behind it; none where the value is no number. -/
def escape (str : List Nat) : Option (Nat × List Nat) :=
  match head str with
  | 114 => some (13, str.tail)
  | 110 => some (10, str.tail)
  | 116 => some (9, str.tail)
  | 118 => some (11, str.tail)
  | 98 => some (8, str.tail)
  | 102 => some (12, str.tail)
  | 34 => some (34, str.tail)
  | 92 => some (92, str.tail)
  | 36 => some (36, str.tail)
  | 120 => (parseSimpleHex wrapInt str.tail).map fun r => (escapeValue r.1, r.2)
  | 48 => (parseSimpleOctal wrapInt str).map fun r => (escapeValue r.1, r.2)
  | c => if 49 ≤ c ∧ c ≤ 57 then (parseSimpleDec wrapInt str).map fun r => (escapeValue r.1, r.2) else some (92, str)

def stringTurn (buf tokenStart : List Nat) : Option Outcome :=
  let closeChar := if s.stringType = .simple then 39 else 34
  if head s.str = 0 then some (.fail .errorConstString (s.pos s.str))
  else if head s.str = closeChar then
    let t := { s with stringType := .notString, str := s.str.tail, mode := .code }
    some (.next (t.addToken buf .string (s.pos tokenStart)))
  else
    let c := head s.str
    let str := s.str.tail
    if c = 36 ∧ s.stringType ≠ .simple ∧ head str = 123 then
      if s.varInString ≠ 0 then some (.fail .errorSyntax (s.pos str))
      else some (.next (s.inject buf tokenStart str.tail))
    else if c = 92 then
      if s.stringType = .simple then
        if head str = 39 ∨ head str = 92 then
          some (.next { s with str := str.tail, mode := .string (buf ++ [head str]) tokenStart })
        else some (.next { s with str := str, mode := .string (buf ++ [c]) tokenStart })
      else
        match escape str with
        | none => some (.fail .errorConstStringEscapeChar (s.pos (if head str = 120 then str.tail else str)))
        | some (c, str) => some (.next { s with str := str, mode := .string (buf ++ [c]) tokenStart })
    else some (.next { s with str := str, mode := .string (buf ++ [c]) tokenStart })

def commentTurn (text : List Nat) (startLine startPos : Nat) : Option Outcome :=
  match strstr [42, 47] s.str with
  | some (before, mark) =>
    match advance mark 2 with
    | none => none
    | some str =>
      let t := { s with str := str, mode := .code }
      if s.saveComments then
        let token : Token := ⟨text ++ before ++ [42, 47], .commentMultiLine, startLine, startPos⟩
        some (.next { t with tokens := s.tokens ++ [token] })
      else some (.next t)
  | none =>
    if s.count ≤ s.curLine then some (.fail .errorMultiLineComment (s.pos s.str))
    else
      let text := if s.saveComments then text ++ cstr s.str ++ [10] else text
      s.nextLine.map fun t => .next { t with mode := .comment text startLine startPos }

def isNameStart (c : Nat) : Bool := c == 95 || c == 36 || (97 ≤ c && c ≤ 122) || (65 ≤ c && c ≤ 90)
def isNameChar (c : Nat) : Bool := isNameStart c || c == 64 || isDigit c

def operator (op : List Nat) : Option Outcome :=
  match advance s.str op.length with
  | none => none
  | some str =>
    let t := { s.addToken op .operator (s.pos s.str) with str := str }
    if s.varInString ≠ 0 ∧ op = [123] then some (.next { t with varInString := s.varInString + 1 })
    else if s.varInString ≠ 0 ∧ op = [125] then
      if s.varInString - 1 = 0 then some (.fail .errorSyntax (s.pos s.str))
      else some (.next { t with varInString := s.varInString - 1 })
    else some (.next t)

/-- Behind the strings: a comment, a name, an operator or a number.  An error at a number is at its first character here; in
the source it is where `parseFloat` left `str`. -/
def plain : Option Outcome :=
  match looksLike s.str 0 [47, 47], looksLike s.str 0 [47, 42] with
  | some true, _ =>
    let t := if s.saveComments then s.addToken (cstr s.str) .commentLine (s.pos s.str) else s
    some t.endLine
  | some false, some true =>
    (advance s.str 2).map fun str => .next { s with str := str, mode := .comment [47, 42] s.curLine (s.pos s.str) }
  | some false, some false =>
    if isNameStart (head s.str) then
      let str := s.str.tail.dropWhile isNameChar
      some (.next { s.addToken (s.str.take (s.str.length - str.length)) .name (s.pos s.str) with str := str })
    else
      match operators.find? fun op => op.isPrefixOf s.str with
      | some op => s.operator op
      | none =>
        match parseNumber s.str with
        | none => none
        | some none => some (.fail .errorSyntax (s.pos s.str))
        | some (some str) =>
          let text := (s.str.take (s.str.length - str.length)).reverse.dropWhile isSpace |>.reverse
          some (.next { s.addToken text .number (s.pos s.str) with str := str })
  | _, _ => none

/-- What follows once `string_type` is set. -/
def enter : Option Outcome :=
  match s.stringType with
  | .notString => s.plain
  | .multiSimple | .multiQuote =>
    if s.varInString ≠ 0 then some (.fail .errorSyntax (s.pos s.str))
    else some (.next { s with mode := .multi [] s.str })
  | _ => (advance s.str 1).map fun str => .next { s with str := str, mode := .string [] s.str }

def closeInject : Option Outcome :=
  let t := { s with varInString := 0 }.addToken [41] .endBracketBlock (s.pos s.str)
  let t := t.addToken [125] .afterInjectVar (s.pos s.str)
  match s.stringTypeStack with
  | [] => none
  | top :: stack =>
    let t := { t with stringType := top, stringTypeStack := stack }
    if top = .multiQuote then
      match advance s.str 1 with
      | none => none
      | some str => { t with str := str }.enter
    else t.enter

def rawString : Option Outcome :=
  match strstr [96] s.str.tail with
  | none => some (.fail .errorConstString (cstr s.lineStart).length)
  | some (text, mark) =>
    (advance mark 1).map fun str => .next ({ s with str := str }.addToken text .string (s.pos s.str))

/-- What `(signed char)c <= ' '` lets through. -/
def isLow (c : Nat) : Bool := c != 0 && (c ≤ 32 || 128 ≤ c)

/-- The mark of a string of several lines, up to the quote. -/
def markId (start : List Nat) : List Nat := start.takeWhile fun c => c ≠ 0 ∧ c ≠ 39 ∧ c ≠ 34

/-- `<<<` and the mark of a string of several lines. -/
def beginMulti : Option Outcome :=
  if s.varInString ≠ 0 then some (.fail .errorSyntax (s.pos s.str))
  else
    match advance s.str 3 with
    | none => none
    | some start =>
      let id := markId start
      let str := start.drop id.length
      if head str = 0 ∨ id.length < 2 then some (.fail .errorConstString (s.pos str))
      else
        let t := { s with
          multiStringId := id, stringType := if head str = 39 then .multiSimple else .multiQuote, str := str.tail }
        if head (str.tail.dropWhile isLow) ≠ 0 then t.enter
        else
          match t.nextLine with
          | none => some (.fail .errorConstString (s.pos (str.tail.dropWhile isLow)))
          | some t => t.enter

def tokenTurn : Option Outcome :=
  if head s.str = 0 then some s.endLine
  else
    match if s.templateEnabled && !s.isTemplate then looksLike s.str 0 [37, 62] else some false with
    | none => none
    | some true => (advance s.str 2).map fun str => .next { s with str := str, isTemplate := true }
    | some false =>
      if s.varInString = 1 ∧ head s.str = 125 then s.closeInject
      else if head s.str = 96 then s.rawString
      else if head s.str = 34 then { s with stringType := .quote }.enter
      else if head s.str = 39 then { s with stringType := .simple }.enter
      else
        match looksLike s.str 0 [60, 60, 60] with
        | none => none
        | some true => s.beginMulti
        | some false => { s with stringType := .notString }.enter

def codeTurn : Option Outcome := { s with str := skipSpaces s.str }.tokenTurn

/-- The text between the sections of a template is read. -/
def between : Bool := s.templateEnabled && s.isTemplate

/-- A turn of the loop that the tokenizer is in. -/
def turn : Option Outcome :=
  match s.mode with
  | .code => if s.between then s.templateTurn [] else s.codeTurn
  | .multi buf tokenStart => s.multiTurn buf tokenStart
  | .string buf tokenStart => s.stringTurn buf tokenStart
  | .comment text startLine startPos => s.commentTurn text startLine startPos
  | .template buf => s.templateTurn buf

end Scanner

/-- `OS_ESourceCodeType` -/
inductive SourceCodeType where
  | auto | plain | template
deriving DecidableEq, Repr

/-- The lines of `parseText`. -/
def splitLines : List Nat → List (List Nat)
  | [] => []
  | 10 :: text => [] :: splitLines text
  | c :: text =>
    match splitLines text with
    | [] => [[c]]
    | l :: ls => (c :: l) :: ls

/-- What `parseLines` does before the first turn; none on an empty text, for which true is returned. -/
def begin (saveComments : Bool) (type : SourceCodeType) (checkUtf8Bom : Bool) (lines : List (List Nat)) :
    Option (Option Scanner) :=
  match lines with
  | [] => some none
  | line :: below =>
    match if checkUtf8Bom then looksLike line 0 [239, 187, 191] else some false with
    | none => none
    | some bom =>
      match if bom then advance line 3 else some line with
      | none => none
      | some lineStart =>
        match if type = .auto then looksLike lineStart 0 [60, 37] else some false with
        | none => none
        | some tag =>
          match if tag then advance lineStart 2 else some lineStart with
          | none => none
          | some str =>
            some (some
              { count := lines.length, saveComments := saveComments, curLine := 0, lineStart := lineStart, str := str,
                below := below, templateEnabled := tag || type == .template, isTemplate := type == .template,
                stringType := .notString, stringTypeStack := [], varInString := 0, multiStringId := [], mode := .code,
                tokens := [] })

end Tokenizer
end Compiler
end ObjectScript
