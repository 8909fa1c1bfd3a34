import SpeechGrammar.Json.Reader
import SpeechGrammar.Tag

/-!
# Tags assigned from outside

Tags can be given along with an utterance, each for the whole of it or for a
span of its tokens.  They are written in JSON as a list of objects with a
label and, if wanted, a value and a span, or as one object that maps labels to
values.
-/

namespace SpeechGrammar

/-- A tag, for the whole utterance or for the tokens from `span?`'s first up to its second. -/
structure Assignment where
  tag : Tag
  span? : Option (Nat × Nat) := none
  deriving DecidableEq, Repr

namespace Assignment

def within (assignment : Assignment) (span : Nat × Nat) : Bool :=
  match assignment.span? with
  | none => true
  | some (first, last) => first ≤ last && span.1 ≤ first && last ≤ span.2

def valuesOf (key : String) (members : List (String × Json)) : List Json :=
  (members.filter (·.1 == key)).map (·.2)

/-- The natural number below `2 ^ 64` that a value is. -/
def natural? : Json → Option Nat
  | .number text =>
      let digits := text.toList
      let value := Numeral.valueOf digits
      if digits.all Char.isDigit && value < Nat.pow 2 64 then some value else none
  | _ => none

/-- The label among the values given for it: exactly one string. -/
def label? : List Json → Option String
  | [.string label] => some label
  | _ => none

/-- The value of a tag among the values given for it: at most one, a string or null. -/
def tagValue? : List Json → Option (Option String)
  | [] => some none
  | [.null] => some none
  | [.string value] => some (some value)
  | _ => none

/-- The span among the values given for it: at most one, two natural numbers or null. -/
def spanValue? : List Json → Option (Option (Nat × Nat))
  | [] => some none
  | [.null] => some none
  | [.array [first, last]] =>
      match natural? first, natural? last with
      | some first, some last => some (some (first, last))
      | _, _ => none
  | _ => none

def ofJson? : Json → Option Assignment
  | .object members => do
      let label ← label? (valuesOf "label" members)
      let value? ← tagValue? (valuesOf "value" members)
      let span? ← spanValue? (valuesOf "span" members)
      return ⟨⟨label, value?⟩, span?⟩
  | _ => none

/-- Put a value under a key at its place in a list ordered by key, replacing what is there. -/
def place (key : String) (value? : Option String) :
    List (String × Option String) → List (String × Option String)
  | [] => [(key, value?)]
  | (other, kept?) :: rest =>
      match compare key other with
      | .lt => (key, value?) :: (other, kept?) :: rest
      | .eq => (key, value?) :: rest
      | .gt => (other, kept?) :: place key value? rest

def entry? (member : String × Json) : Option (String × Option String) :=
  (tagValue? [member.2]).map fun value? => (member.1, value?)

/-- The assignments that an object maps labels to, by label, the last of each label counting. -/
def ofMembers? (members : List (String × Json)) : Option (List Assignment) :=
  (members.mapM entry?).map fun entries =>
    (entries.foldl (fun sorted (label, value?) => place label value? sorted) []).map
      fun (label, value?) => ⟨⟨label, value?⟩, none⟩

def listOfJson? : Json → Option (List Assignment)
  | .array items => items.mapM ofJson?
  | .object members => ofMembers? members
  | _ => none

inductive ListError where
  | notJson (error : Json.ReadError)
  | wrongShape
  deriving DecidableEq, Repr

def ListError.message : ListError → String
  | .notJson error => "malformed tag list: " ++ error.message
  | .wrongShape =>
      "malformed tag list: data did not match any variant of untagged enum TagList"

/-- The assignments that a text describes.  The value must be right before the text may go on. -/
def parseList (text : String) : Except ListError (List Assignment) := do
  let chars := text.toList
  let (value, rest) ← (Json.readValue chars).mapError .notJson
  match listOfJson? value with
  | none => .error .wrongShape
  | some assignments => do
      (Json.readEnd chars rest).mapError .notJson
      return assignments

end Assignment

end SpeechGrammar
