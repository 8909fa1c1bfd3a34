import SpeechGrammar.Expansion.Basic

/-!
# Printing expansions

An expansion is printed in the notation of grammar texts, with parentheses
around every sequence and every alternation.  Words with blanks stand between
quotes; nothing is escaped.
-/

namespace SpeechGrammar.Expansion

/-- The text of a word, between quotes when it holds a blank. -/
def printLiteral (text : String) : List Char :=
  if text.toList.any Text.isBlank then '"' :: text.toList ++ ['"'] else text.toList

def printName (name : String) : List Char := '<' :: name.toList ++ ['>']

/-- The mark behind a repeated expansion. -/
def printBounds : Nat → Option Nat → List Char
  | 0, none => ['*']
  | 1, none => ['+']
  | least, none => '<' :: Numeral.digitsOf least ++ ['-', '>']
  | least, some most =>
      '<' :: Numeral.digitsOf least ++ '-' :: Numeral.digitsOf most ++ ['>']

/-- Tags, each between braces with a space before. -/
def printTags : List Tag → List Char
  | [] => []
  | tag :: tags => ' ' :: '{' :: tag.text.toList ++ '}' :: printTags tags

def printWeight {P : Type} [BranchWeight P] : Option P → List Char
  | none => []
  | some weight => '/' :: (BranchWeight.text weight).toList ++ ['/', ' ']

variable {P : Type} [BranchWeight P]

mutual

def print : Expansion P → List Char
  | .literal text => printLiteral text
  | .reference link => printName link.name
  | .sequence [] => "<NULL>".toList
  | .sequence (item :: items) => '(' :: item.print ++ printItems items ++ [')']
  | .alternation [] => "<VOID>".toList
  | .alternation (⟨weight?, _, body⟩ :: branches) =>
      '(' :: printWeight weight? ++ body.print ++ printBranches branches ++ [')']
  | .repetition body least most? => body.print ++ printBounds least most?
  | .optional body => '[' :: body.print ++ [']']
  | .tagged body tags => body.print ++ printTags tags

def printItems : List (Expansion P) → List Char
  | [] => []
  | item :: items => ' ' :: item.print ++ printItems items

def printBranches : List (Branch P (Expansion P)) → List Char
  | [] => []
  | ⟨weight?, _, body⟩ :: branches =>
      ' ' :: '|' :: ' ' :: printWeight weight? ++ body.print ++ printBranches branches

end

def text (expansion : Expansion P) : String := String.ofList expansion.print

end SpeechGrammar.Expansion
