import SpeechGrammar.Decimal.Numeral

/-!
# JSON values and how they are written

A number is kept as the text it is written with.  Values are written without
any space between tokens.  In strings only what must be escaped is: quotes,
backslashes and the control characters.
-/

namespace SpeechGrammar

inductive Json where
  | null
  | boolean (value : Bool)
  | number (text : String)
  | string (text : String)
  | array (items : List Json)
  | object (members : List (String × Json))
  deriving Repr, Inhabited

namespace Json

def ofNat (value : Nat) : Json := .number (String.ofList (Numeral.digitsOf value))

def hexDigit (value : Nat) : Char :=
  if value < 10 then Char.ofNat (48 + value) else Char.ofNat (87 + value)

def escape (char : Char) : List Char :=
  if char = '"' then ['\\', '"']
  else if char = '\\' then ['\\', '\\']
  else if char = '\x08' then ['\\', 'b']
  else if char = '\x0c' then ['\\', 'f']
  else if char = '\n' then ['\\', 'n']
  else if char = '\r' then ['\\', 'r']
  else if char = '\t' then ['\\', 't']
  else if char.toNat < 32 then
    ['\\', 'u', '0', '0', hexDigit (char.toNat / 16), hexDigit (char.toNat % 16)]
  else [char]

def writeString (text : String) : List Char :=
  '"' :: text.toList.flatMap escape ++ ['"']

mutual

def write : Json → List Char
  | .null => "null".toList
  | .boolean true => "true".toList
  | .boolean false => "false".toList
  | .number text => text.toList
  | .string text => writeString text
  | .array [] => ['[', ']']
  | .array (item :: items) => '[' :: item.write ++ writeItems items ++ [']']
  | .object [] => ['{', '}']
  | .object ((name, value) :: members) =>
      '{' :: writeString name ++ ':' :: value.write ++ writeMembers members ++ ['}']

/-- The later items of an array, each with a comma before. -/
def writeItems : List Json → List Char
  | [] => []
  | item :: items => ',' :: item.write ++ writeItems items

def writeMembers : List (String × Json) → List Char
  | [] => []
  | (name, value) :: members =>
      ',' :: writeString name ++ ':' :: value.write ++ writeMembers members

end

def text (value : Json) : String := String.ofList value.write

end Json

end SpeechGrammar
