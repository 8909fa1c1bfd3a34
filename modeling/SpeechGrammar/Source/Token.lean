import SpeechGrammar.Source.Failure
import SpeechGrammar.Tag
import SpeechGrammar.Text.WordCharacter
import SpeechGrammar.Weight.Basic

/-!
# Tokens of a grammar text

Each reader takes one token off the front of a text.  Blanks and comments may
stand between any two tokens: `//` starts a comment that ends with its line,
and a comment in the other style counts only if it is closed.
-/

namespace SpeechGrammar.Source

mutual

/-- Drop the blanks and comments at the front. -/
def skipBlanks : List Char → List Char
  | [] => []
  | '/' :: '/' :: rest => skipLine rest
  | '/' :: '*' :: rest => (skipComment? rest).getD ('/' :: '*' :: rest)
  | char :: rest => if Text.isBlank char then skipBlanks rest else char :: rest

/-- Drop the rest of a comment that ends with its line, and the blanks behind it. -/
def skipLine : List Char → List Char
  | [] => []
  | char :: rest => if char = '\n' then skipBlanks rest else skipLine rest

/-- Drop the rest of a comment that must be closed, and the blanks behind it. -/
def skipComment? : List Char → Option (List Char)
  | [] => none
  | '*' :: '/' :: rest => some (skipBlanks rest)
  | _ :: rest => skipComment? rest

end

def character (wanted : Char) (text : List Char) : Except Failure (List Char) :=
  match text with
  | char :: rest =>
      if char = wanted then .ok rest
      else failAt text (.expectedCharacter wanted (some char))
  | [] => failAt text (.expectedCharacter wanted none)

def dropStart? : List Char → List Char → Option (List Char)
  | [], text => some text
  | _ :: _, [] => none
  | wanted :: start, char :: rest => if char = wanted then dropStart? start rest else none

/-- The text behind a keyword, if it starts with the keyword and not with a longer word. -/
def keyword? (word : List Char) (text : List Char) : Option (List Char) :=
  match dropStart? word text with
  | some (char :: rest) => if Text.isWordCharacter char then none else some (char :: rest)
  | after? => after?

def run (holds : Char → Bool) (reason : Option Char → Reason) (text : List Char) :
    Except Failure (Taken (List Char)) :=
  match text.takeWhile holds with
  | [] => failAt text (reason text.head?)
  | taken => .ok (taken, text.dropWhile holds)

def isGrammarNameCharacter (char : Char) : Bool :=
  (char.toNat < 128 && char.isAlphanum) || char == '_' || char == '-' || char == '.' ||
    char == '$'

def isRuleNameCharacter (char : Char) : Bool :=
  !(char == '<' || char == '>' || char == ';' || Text.isBlank char)

def wordStops : List Char :=
  [';', '=', '|', '*', '+', '?', '(', ')', '[', ']', '{', '}', '<', '>', '/', '"']

def isBareCharacter (char : Char) : Bool := !(wordStops.contains char || Text.isBlank char)

def grammarName : List Char → Except Failure (Taken (List Char)) :=
  run isGrammarNameCharacter .expectedGrammarName

def bareWord : List Char → Except Failure (Taken (List Char)) := run isBareCharacter .expectedWord

def bracketedName (text : List Char) : Except Failure (Taken (List Char)) := do
  let text ← character '<' text
  let (name, text) ← run isRuleNameCharacter .expectedRuleName text
  let text ← character '>' text
  return (name, text)

/-- The text up to a closing character and what follows it; a backslash takes the next as it is. -/
def delimited? (close : Char) : List Char → Option (List Char × List Char)
  | [] => none
  | ['\\'] => none
  | '\\' :: escaped :: rest =>
      (delimited? close rest).map fun (inside, after) => (escaped :: inside, after)
  | char :: rest =>
      if char = close then
        some ([], rest)
      else
        (delimited? close rest).map fun (inside, after) => (char :: inside, after)

def quoted (text afterQuote : List Char) : Except Failure (Taken (List Char)) :=
  match delimited? '"' afterQuote with
  | none => failAt text .unterminatedString
  | some (inside, rest) =>
      if Text.allBlank inside then failAt text .blankString else .ok (inside, rest)

def tag (text afterBrace : List Char) : Except Failure (Taken Tag) :=
  match delimited? '}' afterBrace with
  | none => failAt text .unterminatedTag
  | some (inside, rest) =>
      if Text.allBlank inside then
        failAt text .blankTag
      else
        .ok (Tag.ofText (String.ofList inside), rest)

/-- The number and the rest behind a closing slash, given what follows the opening one. -/
def weightAfterSlash? {P : Type} [BranchWeight P] (text : List Char) : Option (P × List Char) :=
  match Numeral.takeUnsigned? (Text.trimStart text) with
  | none => none
  | some (digits, exponent, rest) =>
      match Text.trimStart rest with
      | '/' :: rest => some (BranchWeight.ofDecimal digits exponent, rest)
      | _ => none

def weight? {P : Type} [BranchWeight P] (text : List Char) : Except Failure (Taken (Option P)) :=
  match text with
  | '/' :: afterSlash =>
      match weightAfterSlash? afterSlash with
      | some (weight, rest) => .ok (some weight, rest)
      | none => failAt text (.expectedWeight (some '/'))
  | text => .ok (none, text)

end SpeechGrammar.Source
