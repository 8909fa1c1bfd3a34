import SpeechGrammar.Expansion.Basic
import SpeechGrammar.Source.Token

/-!
# Reading rule bodies

A body is an alternation of sequences of units, up to a semicolon.  A unit is
an atom with marks behind it: `*`, `+`, `?` and tags, applied from left to
right.  An alternation of one branch without weight is that branch, and a
sequence of one unit is that unit.

Every reader takes an allowance, which each call lowers by one.  The length of
the text bounds how deep calls can go, so `body` hides the allowance.
-/

namespace SpeechGrammar.Source

variable {P : Type}

/-- An alternation of branches, which is its branch when there is only one and it has no weight. -/
def joinBranches : List (Branch P (Expansion P)) → Expansion P
  | [⟨none, _, body⟩] => body
  | branches => .alternation branches

def joinUnits : List (Expansion P) → Expansion P
  | [unit] => unit
  | units => .sequence units

def attach (unit : Expansion P) (tag : Tag) : Expansion P :=
  match unit with
  | .tagged body tags => .tagged body (tags ++ [tag])
  | unit => .tagged unit [tag]

def named (name : List Char) : Expansion P :=
  if name = "NULL".toList then .null
  else if name = "VOID".toList then .void
  else .reference ⟨String.ofList name, none⟩

/-- Whether an alternative ends in front of a text. -/
def endsAlternative : List Char → Bool
  | [] => true
  | char :: _ => char == ';' || char == '|' || char == ')' || char == ']'

variable [BranchWeight P]

mutual

def branches : Nat → List Char → Except Failure (Taken (List (Branch P (Expansion P))))
  | 0, text => failAt text .nestedTooDeep
  | allowance + 1, text => do
      let (weight?, text) ← weight? (skipBlanks text)
      let (body, text) ← sequence allowance text
      let first : Branch P (Expansion P) := ⟨weight?, 1, body⟩
      match skipBlanks text with
      | '|' :: rest => do
          let (others, text) ← branches allowance rest
          return (first :: others, text)
      | rest => return ([first], rest)

def alternation : Nat → List Char → Except Failure (Taken (Expansion P))
  | 0, text => failAt text .nestedTooDeep
  | allowance + 1, text => do
      let (list, text) ← branches allowance text
      return (joinBranches list, text)

def sequence : Nat → List Char → Except Failure (Taken (Expansion P))
  | 0, text => failAt text .nestedTooDeep
  | allowance + 1, text => do
      match ← units allowance text with
      | ([], rest) => failAt rest (.emptyExpansion rest.head?)
      | (list, rest) => return (joinUnits list, rest)

def units : Nat → List Char → Except Failure (Taken (List (Expansion P)))
  | 0, text => failAt text .nestedTooDeep
  | allowance + 1, text => do
      let text := skipBlanks text
      if endsAlternative text then
        return ([], text)
      else
        let (first, text) ← unit allowance text
        let (others, text) ← units allowance text
        return (first :: others, text)

def unit : Nat → List Char → Except Failure (Taken (Expansion P))
  | 0, text => failAt text .nestedTooDeep
  | allowance + 1, text => do
      let (atom, text) ← atom allowance text
      marks allowance atom text

def marks : Nat → Expansion P → List Char → Except Failure (Taken (Expansion P))
  | 0, _, text => failAt text .nestedTooDeep
  | allowance + 1, unit, text =>
      match skipBlanks text with
      | '*' :: rest => marks allowance unit.star rest
      | '+' :: rest => marks allowance unit.plus rest
      | '?' :: rest => marks allowance (.optional unit) rest
      | '{' :: rest => do
          let (tag, rest) ← tag ('{' :: rest) rest
          marks allowance (attach unit tag) rest
      | _ => .ok (unit, text)

/-- Take an atom: a group, an optional group, a name or a word. -/
def atom : Nat → List Char → Except Failure (Taken (Expansion P))
  | 0, text => failAt text .nestedTooDeep
  | allowance + 1, text =>
      match text with
      | '(' :: rest => do
          let (body, rest) ← alternation allowance rest
          match skipBlanks rest with
          | ')' :: rest => return (body, rest)
          | rest => failAt rest (.openParenthesis rest.head?)
      | '[' :: rest => do
          let (body, rest) ← alternation allowance rest
          match skipBlanks rest with
          | ']' :: rest => return (.optional body, rest)
          | rest => failAt rest (.openBracket rest.head?)
      | '<' :: _ => do
          let (name, rest) ← bracketedName text
          return (named name, rest)
      | '"' :: rest => do
          let (word, rest) ← quoted text rest
          return (.literal (String.ofList word), rest)
      | '{' :: _ => failAt text .strayTag
      | '/' :: '*' :: _ => failAt text .unterminatedComment
      | '/' :: _ => failAt text .strayWeight
      | _ => do
          let (word, rest) ← bareWord text
          return (.literal (String.ofList word), rest)

end

/-- Enough for every text of a given length: a character is passed after at most six calls. -/
def allowanceFor (text : List Char) : Nat := 6 * text.length + 6

/-- Take a rule body and the semicolon behind it. -/
def body (text : List Char) : Except Failure (Taken (Expansion P)) := do
  let (expansion, text) ← alternation (allowanceFor text) text
  match skipBlanks text with
  | ';' :: rest => return (expansion, rest)
  | ')' :: rest => failAt (')' :: rest) .strayParenthesis
  | ']' :: rest => failAt (']' :: rest) .strayBracket
  | rest => failAt rest (.expectedCharacter ';' rest.head?)

end SpeechGrammar.Source
