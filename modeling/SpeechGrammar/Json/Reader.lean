import SpeechGrammar.Decimal.Binary
import SpeechGrammar.Json.Writer

/-!
# Reading JSON

A text is read as one value with nothing but white space around it.  Arrays
and objects nest at most 127 deep, and a number must be within the range of
double precision.  Positions in error messages count bytes.
-/

namespace SpeechGrammar.Json

/-- Why a text is no JSON value. -/
inductive Cause where
  | endOfValue
  | endOfArray
  | endOfObject
  | endOfString
  | expectedValue
  | expectedWord
  | expectedColon
  | expectedArrayEnd
  | expectedObjectEnd
  | expectedKey
  | trailingComma
  | trailingText
  | invalidNumber
  | numberOutOfRange
  | invalidEscape
  | loneSurrogate
  | cutSurrogatePair
  | controlCharacter
  | nestedTooDeep
  deriving DecidableEq, Repr

def Cause.isEndOfText : Cause → Bool
  | .endOfValue | .endOfArray | .endOfObject | .endOfString => true
  | _ => false

def Cause.message : Cause → String
  | .endOfValue => "EOF while parsing a value"
  | .endOfArray => "EOF while parsing a list"
  | .endOfObject => "EOF while parsing an object"
  | .endOfString => "EOF while parsing a string"
  | .expectedValue => "expected value"
  | .expectedWord => "expected ident"
  | .expectedColon => "expected `:`"
  | .expectedArrayEnd => "expected `,` or `]`"
  | .expectedObjectEnd => "expected `,` or `\x7d`"
  | .expectedKey => "key must be a string"
  | .trailingComma => "trailing comma"
  | .trailingText => "trailing characters"
  | .invalidNumber => "invalid number"
  | .numberOutOfRange => "number out of range"
  | .invalidEscape => "invalid escape"
  | .loneSurrogate => "lone leading surrogate in hex escape"
  | .cutSurrogatePair => "unexpected end of hex escape"
  | .controlCharacter =>
      "control character (\\u0000-\\u001F) found while parsing a string"
  | .nestedTooDeep => "recursion limit exceeded"

/-- A cause, and the number of bytes left where it arose. -/
structure Failure where
  remaining : Nat
  cause : Cause
  deriving DecidableEq, Repr

/-- A cause with the line and the byte column where it arose. -/
structure ReadError where
  line : Nat
  column : Nat
  cause : Cause
  deriving DecidableEq, Repr

/-- The text of an error, place last. -/
def ReadError.message (error : ReadError) : String :=
  error.cause.message ++ " at line " ++ toString error.line ++ " column " ++
    toString error.column

def byteLength (text : List Char) : Nat := (text.map (·.utf8Size)).foldr (· + ·) 0

/-- The line and the column of the place a number of bytes ahead. -/
def placeAt (line column : Nat) : Nat → List Char → Nat × Nat
  | ahead, [] => (line, column + ahead)
  | ahead, char :: rest =>
      if ahead < char.utf8Size then (line, column + ahead)
      else if char = '\n' then placeAt (line + 1) 0 (ahead - 1) rest
      else placeAt line (column + char.utf8Size) (ahead - char.utf8Size) rest

def Failure.locate (text : List Char) (failure : Failure) : ReadError :=
  let (line, column) := placeAt 1 0 (byteLength text - failure.remaining) text
  ⟨line, column, failure.cause⟩

def failAt {α : Type} (text : List Char) (cause : Cause) : Except Failure α :=
  .error ⟨byteLength text, cause⟩

def failBehind {α : Type} (text : List Char) (cause : Cause) : Except Failure α :=
  .error ⟨byteLength text - 1, cause⟩

def isSpace (char : Char) : Bool :=
  char == ' ' || char == '\n' || char == '\t' || char == '\r'

def skipSpace (text : List Char) : List Char := text.dropWhile isSpace

namespace Reader

def word : List Char → List Char → Except Failure (List Char)
  | [], text => .ok text
  | _ :: _, [] => failAt [] .endOfValue
  | wanted :: letters, char :: rest =>
      if char = wanted then word letters rest else failAt rest .expectedWord

def hexValue? (char : Char) : Option Nat :=
  if char.isDigit then some (char.toNat - 48)
  else if 'a' ≤ char ∧ char ≤ 'f' then some (char.toNat - 87)
  else if 'A' ≤ char ∧ char ≤ 'F' then some (char.toNat - 55)
  else none

def hexValueOf? (first second third fourth : Char) : Option Nat := do
  let a ← hexValue? first
  let b ← hexValue? second
  let c ← hexValue? third
  let d ← hexValue? fourth
  return ((a * 16 + b) * 16 + c) * 16 + d

def failOnDigits {α : Type} (text : List Char) : Except Failure α :=
  if byteLength text < 4 then .error ⟨0, .endOfString⟩
  else .error ⟨byteLength text - 4, .invalidEscape⟩

/-- The character that a letter behind a backslash stands for. -/
def escaped? : Char → Option Char
  | '"' => some '"'
  | '\\' => some '\\'
  | '/' => some '/'
  | 'b' => some '\x08'
  | 'f' => some '\x0c'
  | 'n' => some '\n'
  | 'r' => some '\r'
  | 't' => some '\t'
  | _ => none

def isHighSurrogate (code : Nat) : Bool := 0xD800 ≤ code && code ≤ 0xDBFF

def isLowSurrogate (code : Nat) : Bool := 0xDC00 ≤ code && code ≤ 0xDFFF

def joinSurrogates (high low : Nat) : Char :=
  Char.ofNat (0x10000 + (high - 0xD800) * 0x400 + (low - 0xDC00))

def ahead (char : Char) (read : Except Failure (List Char × List Char)) :
    Except Failure (List Char × List Char) :=
  read.map fun (chars, rest) => (char :: chars, rest)

/-- Take the rest of a string, up to its closing quote. -/
def stringRest : List Char → Except Failure (List Char × List Char)
  | [] => failAt [] .endOfString
  | '"' :: rest => .ok ([], rest)
  | '\\' :: 'u' :: a :: b :: c :: d :: rest =>
      match hexValueOf? a b c d with
      | none => failOnDigits (a :: b :: c :: d :: rest)
      | some code =>
          if isLowSurrogate code then
            failAt rest .loneSurrogate
          else if isHighSurrogate code then
            match rest with
            | '\\' :: 'u' :: e :: f :: g :: h :: rest =>
                match hexValueOf? e f g h with
                | none => failOnDigits (e :: f :: g :: h :: rest)
                | some low =>
                    if isLowSurrogate low then
                      ahead (joinSurrogates code low) (stringRest rest)
                    else
                      failAt rest .loneSurrogate
            | '\\' :: 'u' :: rest => failOnDigits rest
            | ['\\'] => failAt [] .endOfString
            | '\\' :: rest => failBehind rest .cutSurrogatePair
            | [] => failAt [] .endOfString
            | rest => failBehind rest .cutSurrogatePair
          else
            ahead (Char.ofNat code) (stringRest rest)
  | '\\' :: 'u' :: rest => failOnDigits rest
  | ['\\'] => failAt [] .endOfString
  | '\\' :: letter :: rest =>
      match escaped? letter with
      | some char => ahead char (stringRest rest)
      | none => .error ⟨byteLength (letter :: rest) - 1, .invalidEscape⟩
  | char :: rest =>
      if char.toNat < 32 then failAt rest .controlCharacter
      else ahead char (stringRest rest)

/-- The number `significand * 10 ^ exponent`. -/
structure Scaled where
  significand : Nat
  exponent : Int
  deriving DecidableEq, Repr

/-- Write digits behind a number while it stays below `2 ^ 64`; the others are left. -/
def gather : Nat → List Char → Nat × List Char
  | written, [] => (written, [])
  | written, digit :: rest =>
      let longer := 10 * written + Numeral.digitValue digit
      if longer < Nat.pow 2 64 then gather longer rest else (written, digit :: rest)

/--
The number that digits before a point, digits behind it and an exponent write.
Digits that the significand has no room for count as zeros before the point
and are left out behind it.
-/
def scaled (whole fraction : List Char) (exponent : Int) : Scaled :=
  let (significand, zeros) := gather 0 whole
  let (significand, ignored) := gather significand fraction
  let places := fraction.length - ignored.length
  ⟨significand, exponent + zeros.length - places⟩

/--
Whether a number is too large for double precision.  The significand and the
power of ten are each rounded before they are multiplied, and the product is
rounded again, so the largest numbers of double precision count as too large
when the roundings add up.
-/
def Scaled.isOutOfRange (size : Scaled) : Bool :=
  match size.exponent with
  | .negSucc _ => false
  | .ofNat power =>
      size.significand != 0 &&
        (308 < power ||
          Binary64.isTooLarge
            (Binary64.nearest size.significand * Binary64.nearest (Nat.pow 10 power)))

/-- Take the digits of a whole number, none before others being zero. -/
def wholeDigits : List Char → Except Failure (List Char × List Char)
  | [] => failAt [] .endOfValue
  | '0' :: rest =>
      match rest with
      | [] => .ok (['0'], [])
      | next :: _ => if next.isDigit then failBehind rest .invalidNumber else .ok (['0'], rest)
  | char :: rest =>
      if char.isDigit then .ok (Numeral.takeDigits (char :: rest))
      else failAt rest .invalidNumber

/-- Take the digits behind a point, if a point comes next. -/
def fractionDigits : List Char → Except Failure (List Char × List Char)
  | '.' :: rest =>
      match Numeral.takeDigits rest with
      | ([], []) => failAt [] .endOfValue
      | ([], after) => failBehind after .invalidNumber
      | taken => .ok taken
  | text => .ok ([], text)

def exponentDigits : List Char → Except Failure (Int × List Char)
  | [] => .ok (0, [])
  | mark :: rest =>
      if mark == 'e' || mark == 'E' then
        let (negative, digits) := Numeral.takeSign rest
        match Numeral.takeDigits digits with
        | ([], []) => failAt [] .endOfValue
        | ([], _ :: after) => failAt after .invalidNumber
        | (taken, after) =>
            let size : Int := Numeral.valueOf taken
            .ok (if negative then -size else size, after)
      else
        .ok (0, mark :: rest)

/-- Take a minus sign, if one comes next. -/
def minus : List Char → Bool × List Char
  | '-' :: rest => (true, rest)
  | text => (false, text)

/-- Take a number, as whether it is negative and how large it is. -/
def magnitude (text : List Char) : Except Failure ((Bool × Scaled) × List Char) := do
  let (negative, unsigned) := minus text
  let (whole, rest) ← wholeDigits unsigned
  let (fraction, rest) ← fractionDigits rest
  let (exponent, rest) ← exponentDigits rest
  return ((negative, scaled whole fraction exponent), rest)

def number (text : List Char) : Except Failure (Json × List Char) := do
  let ((_, size), rest) ← magnitude text
  if size.isOutOfRange then
    failAt rest .numberOutOfRange
  else
    return (.number (String.ofList (text.take (text.length - rest.length))), rest)

mutual

/-- Take a value that nests no deeper than a limit. -/
def value : Nat → Nat → List Char → Except Failure (Json × List Char)
  | 0, _, text => failAt text .nestedTooDeep
  | allowance + 1, limit, text =>
      match skipSpace text with
      | [] => failAt [] .endOfValue
      | 'n' :: rest => do
          let rest ← word "ull".toList rest
          return (.null, rest)
      | 't' :: rest => do
          let rest ← word "rue".toList rest
          return (.boolean true, rest)
      | 'f' :: rest => do
          let rest ← word "alse".toList rest
          return (.boolean false, rest)
      | '"' :: rest => do
          let (chars, rest) ← stringRest rest
          return (.string (String.ofList chars), rest)
      | '[' :: rest =>
          match limit with
          | 0 => failBehind ('[' :: rest) .nestedTooDeep
          | limit + 1 => do
              let (list, rest) ← array allowance limit rest
              return (.array list, rest)
      | '{' :: rest =>
          match limit with
          | 0 => failBehind ('{' :: rest) .nestedTooDeep
          | limit + 1 => do
              let (list, rest) ← object allowance limit rest
              return (.object list, rest)
      | char :: rest =>
          if char == '-' || char.isDigit then number (char :: rest)
          else failBehind (char :: rest) .expectedValue

def array : Nat → Nat → List Char → Except Failure (List Json × List Char)
  | 0, _, text => failAt text .nestedTooDeep
  | allowance + 1, limit, text =>
      match skipSpace text with
      | [] => failAt [] .endOfArray
      | ']' :: rest => .ok ([], rest)
      | text => items allowance limit text

def items : Nat → Nat → List Char → Except Failure (List Json × List Char)
  | 0, _, text => failAt text .nestedTooDeep
  | allowance + 1, limit, text => do
      let (first, text) ← value allowance limit text
      match skipSpace text with
      | [] => failAt [] .endOfArray
      | ']' :: rest => return ([first], rest)
      | ',' :: rest =>
          match skipSpace rest with
          | [] => failAt [] .endOfValue
          | ']' :: rest => failBehind (']' :: rest) .trailingComma
          | rest => do
              let (others, rest) ← items allowance limit rest
              return (first :: others, rest)
      | text => failBehind text .expectedArrayEnd

def object : Nat → Nat → List Char → Except Failure (List (String × Json) × List Char)
  | 0, _, text => failAt text .nestedTooDeep
  | allowance + 1, limit, text =>
      match skipSpace text with
      | [] => failAt [] .endOfObject
      | '}' :: rest => .ok ([], rest)
      | '"' :: rest => members allowance limit rest
      | text => failBehind text .expectedKey

def members : Nat → Nat → List Char → Except Failure (List (String × Json) × List Char)
  | 0, _, text => failAt text .nestedTooDeep
  | allowance + 1, limit, text => do
      let (key, text) ← stringRest text
      let text ←
        match skipSpace text with
        | [] => failAt [] .endOfObject
        | ':' :: rest => .ok rest
        | text => failBehind text .expectedColon
      let (found, text) ← value allowance limit text
      let first := (String.ofList key, found)
      match skipSpace text with
      | [] => failAt [] .endOfObject
      | '}' :: rest => return ([first], rest)
      | ',' :: rest =>
          match skipSpace rest with
          | [] => failAt [] .endOfValue
          | '"' :: rest => do
              let (others, rest) ← members allowance limit rest
              return (first :: others, rest)
          | '}' :: rest => failBehind ('}' :: rest) .trailingComma
          | rest => failBehind rest .expectedKey
      | text => failBehind text .expectedObjectEnd

end

end Reader

/-- How deep arrays and objects may nest. -/
def nestingLimit : Nat := 127

/--
Take the value at the front of a text.  Each of its characters is passed after
at most three calls, so the allowance never runs out.
-/
def readValue (text : List Char) : Except ReadError (Json × List Char) :=
  (Reader.value (3 * text.length + 3) nestingLimit text).mapError (Failure.locate text)

def readEnd (text rest : List Char) : Except ReadError Unit :=
  match skipSpace rest with
  | [] => .ok ()
  | rest => .error (Failure.locate text ⟨byteLength rest - 1, .trailingText⟩)

end SpeechGrammar.Json
