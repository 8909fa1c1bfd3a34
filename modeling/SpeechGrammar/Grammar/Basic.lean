import SpeechGrammar.Expansion.Printer
import SpeechGrammar.Source.Failure
import SpeechGrammar.Text.LowerCase
import Std.Data.ExtTreeMap

/-!
# Rules, grammars and scopes

A grammar is a list of rules and an index of their places by name, beside a
name, imports and a vocabulary.  The index is kept along with the list: adding a
rule extends both, and names are looked up in the index alone.  A scope is a
grammar together with the grammars it inherits from, nearest first; names are
looked up and bound references are followed in a scope.

Building an automaton for a rule and matching an utterance against a rule are
refused for the same few reasons.

A vocabulary can be loaded from a dictionary, which lists one word per line,
followed by how it is pronounced.  Lines that are blank or start with `#` or
`;;` are skipped, and a number in parentheses behind a word marks another
pronunciation of the same word.

Places of rules and identities of grammars are natural numbers here.  They have
32 bits where they are stored, so that a grammar of more than `2 ^ 32` rules and
more than `2 ^ 32` grammars at a time are outside the model.
-/

namespace SpeechGrammar

structure Rule (P : Type) where
  name : String
  isPublic : Bool
  body : Expansion P
  /-- The names in the body that no rule was found for. -/
  unresolved : List String := []
  /-- Why the body could not be read; the body then matches nothing. -/
  defect? : Option Source.SyntaxError := none
  /-- Whether the rule's references lead back to it inside its grammar. -/
  isRecursive : Bool := false

/-- Why a rule cannot be used. -/
inductive Unusable where
  | broken (rule : String) (defect : Source.SyntaxError)
  | unbound (rule reference : String)
  deriving DecidableEq, Repr

def Unusable.message : Unusable → String
  | .broken rule defect => "rule <" ++ rule ++ "> cannot be used: " ++ defect.message
  | .unbound rule reference =>
      "rule <" ++ rule ++ "> cannot be used: reference <" ++ reference ++ "> is unbound"

/-- Why a rule is not built or matched. -/
inductive Refusal (P : Type) where
  | noPublicRule (name : String)
  | unusable (reason : Unusable)
  | languageWeight (weight : P)
  deriving DecidableEq, Repr

def Refusal.message {P : Type} [BranchWeight P] : Refusal P → String
  | .noPublicRule name => "no public rule named <" ++ name ++ ">"
  | .unusable reason => reason.message
  | .languageWeight weight =>
      "language weight must be finite and positive, got " ++ BranchWeight.text weight

namespace Rule

variable {P : Type}

/-- Why a rule cannot be used, if so: a body that was not read comes first. -/
def unusable? (rule : Rule P) : Option Unusable :=
  match rule.defect?, rule.unresolved with
  | some defect, _ => some (.broken rule.name defect)
  | none, reference :: _ => some (.unbound rule.name reference)
  | none, [] => none

def isBroken (rule : Rule P) : Bool := rule.unusable?.isSome

def print [BranchWeight P] (rule : Rule P) : List Char :=
  (if rule.isPublic then "public ".toList else []) ++ Expansion.printName rule.name ++
    ' ' :: '=' :: ' ' :: rule.body.print ++ [';']

def text [BranchWeight P] (rule : Rule P) : String := String.ofList rule.print

end Rule

structure Grammar (P : Type) where
  id : GrammarId
  name? : Option String := none
  imports : List String := []
  rules : List (Rule P) := []
  /-- The place in `rules` of the rule with a name. -/
  byName : Std.ExtTreeMap String Nat := ∅
  vocabulary : SortedSet String := .empty

namespace Grammar

variable {P : Type}

def ruleIndex? (grammar : Grammar P) (name : String) : Option Nat :=
  grammar.byName[name]?

def rule? (grammar : Grammar P) (name : String) : Option (Rule P) :=
  match grammar.ruleIndex? name with
  | none => none
  | some index => grammar.rules[index]?

/-- Put a rule at the end, where its name is then found. -/
def push (grammar : Grammar P) (rule : Rule P) : Grammar P :=
  { grammar with
    rules := grammar.rules ++ [rule]
    byName := grammar.byName.insert rule.name grammar.rules.length }

/-- Add a rule at the end, unless its name is taken. -/
def add? (grammar : Grammar P) (rule : Rule P) : Option (Grammar P) :=
  match grammar.ruleIndex? rule.name with
  | some _ => none
  | none => some (grammar.push rule)

def publicRule? (grammar : Grammar P) (name : String) : Option (Nat × Rule P) :=
  match grammar.ruleIndex? name with
  | none => none
  | some index =>
      match grammar.rules[index]? with
      | none => none
      | some rule => if rule.isPublic then some (index, rule) else none

def firstPublic? (grammar : Grammar P) : Option (Rule P) := grammar.rules.find? (·.isPublic)

def addWord (grammar : Grammar P) (word : String) : Grammar P :=
  { grammar with vocabulary := grammar.vocabulary.insert (Text.lowerCase word) }

def printRules [BranchWeight P] : List (Rule P) → List Char
  | [] => []
  | rule :: rules => rule.print ++ '\n' :: printRules rules

def printImports : List String → List Char
  | [] => []
  | name :: names =>
      "import ".toList ++ Expansion.printName name ++ ';' :: '\n' :: printImports names

def printGrammarName : Option String → List Char
  | none => []
  | some name => "grammar ".toList ++ name.toList ++ [';', '\n']

def print [BranchWeight P] (grammar : Grammar P) : List Char :=
  "#JSGF V1.0;\n".toList ++ printGrammarName grammar.name? ++ printImports grammar.imports ++
    printRules grammar.rules

def text [BranchWeight P] (grammar : Grammar P) : String := String.ofList grammar.print

end Grammar

/-- The public rule with a name as a target, and the rule itself. -/
def Grammar.public {P : Type} (grammar : Grammar P) (name : String) :
    Except (Refusal P) (Target × Rule P) :=
  match grammar.publicRule? name with
  | some (index, rule) => .ok (⟨grammar.id, index⟩, rule)
  | none => .error (.noPublicRule name)

namespace Vocabulary

/-- A word without the mark of another pronunciation. -/
def baseWord (word : List Char) : List Char :=
  match Text.cutFirst? '(' word with
  | some ([], _) => word
  | some (base, _) => if word.getLast? == some ')' then base else word
  | none => word

def wordOfLine? (line : List Char) : Option (List Char) :=
  match Text.trim line with
  | '#' :: _ => none
  | ';' :: ';' :: _ => none
  | trimmed => (Text.words trimmed).head?.map baseWord

def wordsOf (dictionary : String) : List String :=
  ((Text.lines dictionary.toList).filterMap wordOfLine?).map String.ofList

/-- A grammar that knows the words of a dictionary too, and how many of them are new. -/
def load {P : Type} (grammar : Grammar P) (dictionary : String) : Grammar P × Nat :=
  let loaded := (wordsOf dictionary).foldl Grammar.addWord grammar
  (loaded, loaded.vocabulary.size - grammar.vocabulary.size)

end Vocabulary

/-- A grammar and the grammars it inherits from, nearest first. -/
structure Scope (P : Type) where
  grammar : Grammar P
  parents : List (Grammar P) := []

namespace Scope

variable {P : Type}

def chain (scope : Scope P) : List (Grammar P) := scope.grammar :: scope.parents

def grammarWith? (scope : Scope P) (id : GrammarId) : Option (Grammar P) :=
  scope.chain.find? (·.id == id)

def follow? (scope : Scope P) (target : Target) : Option (Rule P) :=
  match scope.grammarWith? target.grammar with
  | none => none
  | some grammar => grammar.rules[target.index]?

def ruleCount (scope : Scope P) : Nat := (scope.chain.flatMap (·.rules)).length

def child (id : GrammarId) (parent? : Option (Scope P)) : Scope P :=
  ⟨{ id }, match parent? with | none => [] | some parent => parent.chain⟩

end Scope

end SpeechGrammar
