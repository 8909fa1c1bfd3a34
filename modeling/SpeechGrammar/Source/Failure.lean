import SpeechGrammar.Text.Blank

/-!
# Failures of reading a grammar text

A failure says why reading stopped and how much text was left at that point.
Against the whole text it becomes a syntax error with a line and a column, found
by counting characters or by cutting the text at bytes.
-/

namespace SpeechGrammar.Source

inductive Reason where
  | expectedCharacter (wanted : Char) (found? : Option Char)
  | expectedHeaderEnd (found? : Option Char)
  | expectedGrammarName (found? : Option Char)
  | expectedRuleName (found? : Option Char)
  | expectedWeight (found? : Option Char)
  | expectedWord (found? : Option Char)
  | reservedName (name : String)
  | duplicateRule (name : String)
  | emptyExpansion (found? : Option Char)
  | openParenthesis (found? : Option Char)
  | openBracket (found? : Option Char)
  | strayParenthesis
  | strayBracket
  | strayTag
  | strayWeight
  | unterminatedComment
  | unterminatedString
  | unterminatedTag
  | blankString
  | blankTag
  /-- The allowance for nested expansions was too small; a whole text's own length is enough. -/
  | nestedTooDeep
  deriving DecidableEq, Repr

/-- How a message names the character that was found. -/
def describe : Option Char → String
  | none => "end of input"
  | some char => "'" ++ String.singleton char ++ "'"

def Reason.message : Reason → String
  | .expectedCharacter wanted found? =>
      "expected '" ++ String.singleton wanted ++ "', found " ++ describe found?
  | .expectedHeaderEnd found? =>
      "expected ';' ending the #JSGF header, found " ++ describe found?
  | .expectedGrammarName found? => "expected grammar name, found " ++ describe found?
  | .expectedRuleName found? => "expected rule name, found " ++ describe found?
  | .expectedWeight found? => "expected a /weight/, found " ++ describe found?
  | .expectedWord found? => "expected a token, found " ++ describe found?
  | .reservedName name => "<" ++ name ++ "> is reserved and can't be redefined"
  | .duplicateRule name => "duplicate rule <" ++ name ++ ">"
  | .emptyExpansion found? => "empty expansion before " ++ describe found?
  | .openParenthesis found? => "unbalanced '(': expected ')', found " ++ describe found?
  | .openBracket found? => "unbalanced '[': expected ']', found " ++ describe found?
  | .strayParenthesis => "unbalanced ')'"
  | .strayBracket => "unbalanced ']'"
  | .strayTag => "tag without an expansion to attach to"
  | .strayWeight => "a weight may only start an alternative"
  | .unterminatedComment => "unterminated comment"
  | .unterminatedString => "unterminated string"
  | .unterminatedTag => "unterminated tag"
  | .blankString => "empty quoted token"
  | .blankTag => "empty tag"
  | .nestedTooDeep => "expansions nested too deep"

/-- A reason, and the number of characters left where it arose. -/
structure Failure where
  remaining : Nat
  reason : Reason
  deriving DecidableEq, Repr

/-- Something taken off the front of a text, and the rest. -/
abbrev Taken (α : Type) := α × List Char

def failAt {α : Type} (text : List Char) (reason : Reason) : Except Failure α :=
  .error ⟨text.length, reason⟩

/-- A reason to reject a grammar text, with the place where it arises. -/
structure SyntaxError where
  line : Nat
  column : Nat
  reason : Reason
  deriving DecidableEq, Repr

/-- The text of a syntax error, place first. -/
def SyntaxError.message (error : SyntaxError) : String :=
  toString error.line ++ ":" ++ toString error.column ++ ": syntax error: " ++
    error.reason.message

def lineAfter (before : List Char) : Nat := before.count '\n' + 1

/-- The column that the end of a text is at, counted in characters from one. -/
def columnAfter (before : List Char) : Nat :=
  (before.reverse.takeWhile (· != '\n')).length + 1

def Failure.locate (text : List Char) (failure : Failure) : SyntaxError :=
  let before := text.take (text.length - failure.remaining)
  ⟨lineAfter before, columnAfter before, failure.reason⟩

theorem locate_failure (before after : List Char) (reason : Reason) :
    Failure.locate (before ++ after) ⟨after.length, reason⟩ =
      ⟨lineAfter before, columnAfter before, reason⟩ := by
  simp [Failure.locate]

/-- The two parts of a text that is cut behind a number of bytes, if a character ends there. -/
def cutAt? (text : String) (bytes : Nat) : Option (String × String) :=
  if hvalid : (⟨bytes⟩ : String.Pos.Raw).IsValid text then
    let place : text.Pos := ⟨⟨bytes⟩, hvalid⟩
    some ((text.sliceTo place).copy, (text.sliceFrom place).copy)
  else
    none

def locateInBytes? (source : String) (bytesLeft : Nat) (reason : Reason) : Option SyntaxError := do
  let (before, _) ← cutAt? source (source.utf8ByteSize - bytesLeft)
  let line := before.toList.count '\n' + 1
  match Text.cutLast? '\n' before.toList with
  | some (lines, _) =>
      let lineFeed := (String.ofList lines).utf8ByteSize
      let (_, last) ← cutAt? before (lineFeed + 1)
      return ⟨line, last.length + 1, reason⟩
  | none => return ⟨line, before.length + 1, reason⟩

end SpeechGrammar.Source
