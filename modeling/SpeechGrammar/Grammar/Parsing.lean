import SpeechGrammar.Grammar.Binding
import SpeechGrammar.Source.Document

/-!
# From texts to grammars

A grammar text is read strictly, where the first syntax error is the result,
or leniently, where every readable rule is kept and all errors are collected.
Either way references are bound and probabilities computed at the end.  A rule
whose body cannot be read is kept with a body that matches nothing, so that
references to it can still be bound.
-/

namespace SpeechGrammar

variable {P : Type}

/-- A grammar so far, and the syntax errors met on the way. -/
structure Draft (P : Type) where
  grammar : Grammar P
  errors : List Source.SyntaxError := []

/-- Add a rule to a draft, reporting a name that is taken. -/
def Draft.define (draft : Draft P) (rule : Rule P) (duplicate : Source.SyntaxError) : Draft P :=
  match draft.grammar.add? rule with
  | some grammar => { draft with grammar }
  | none => { draft with errors := draft.errors ++ [duplicate] }

def Draft.take (text : List Char) (draft : Draft P) : Source.Statement P → Draft P
  | .malformed failure => { draft with errors := draft.errors ++ [failure.locate text] }
  | .definition remaining head body =>
      let duplicate := Source.Failure.locate text ⟨remaining, .duplicateRule head.name⟩
      match body with
      | .ok expansion =>
          draft.define ⟨head.name, head.isPublic, expansion, [], none, false⟩ duplicate
      | .error failure =>
          let defect := failure.locate text
          let draft :=
            draft.define ⟨head.name, head.isPublic, .void, [], some defect, false⟩ duplicate
          { draft with errors := draft.errors ++ [defect] }

variable [BranchWeight P]

def Draft.ofText (empty : Grammar P) (text : List Char) : Draft P :=
  match Source.document text with
  | .error failure => ⟨empty, [failure.locate text]⟩
  | .ok document =>
      document.statements.foldl (Draft.take text)
        ⟨{ empty with name? := document.header.name?, imports := document.header.imports }, []⟩

namespace Scope

def parseLenient (id : GrammarId) (text : String) (parent? : Option (Scope P)) :
    Scope P × List Source.SyntaxError :=
  let empty := child id parent?
  let draft := Draft.ofText empty.grammar text.toList
  (({ empty with grammar := draft.grammar } : Scope P).resolve.normalize, draft.errors)

def parse (id : GrammarId) (text : String) (parent? : Option (Scope P)) :
    Except Source.SyntaxError (Scope P) :=
  match parseLenient id text parent? with
  | (scope, []) => .ok scope
  | (_, error :: _) => .error error

end Scope

end SpeechGrammar
