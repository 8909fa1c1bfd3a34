import SpeechGrammar.Graph
import SpeechGrammar.Grammar.Basic

/-!
# Binding references and computing probabilities

Binding looks up every reference of a grammar in its scope.  A name without a
dot means the rule of that name in the nearest grammar that has one; a name
with a dot names the grammar too, either in full or by its last segment.
Binding also records in each rule which names were not found, and whether the
rule lies on a cycle of references within its grammar.

Without weights the branches of an alternation are equally likely.  Otherwise
the weights given are scaled to sum to one and a branch without a weight has
probability zero; but if the weights sum to nothing, the branches are equally
likely after all.
-/

namespace SpeechGrammar

/-- The part of a grammar name behind its last dot. -/
def lastSegment (name : String) : String :=
  match Text.cutLast? '.' name.toList with
  | some (_, last) => String.ofList last
  | none => name

def answersTo (name wanted : String) : Bool :=
  name == wanted || lastSegment name == lastSegment wanted

/-- A reference that no rule was found for, and the rule it stands in. -/
structure Unresolved where
  rule : String
  reference : String
  deriving DecidableEq, Repr

def Unresolved.message (unresolved : Unresolved) : String :=
  "rule <" ++ unresolved.rule ++ "> references undefined rule <" ++ unresolved.reference ++ ">"

def distinct {α : Type} [DecidableEq α] (values : List α) : List α :=
  values.foldl (fun kept value => if value ∈ kept then kept else kept ++ [value]) []

variable {P : Type}

/-- Whether a grammar may hold the rule that a name means. -/
def Grammar.admits (grammar : Grammar P) (grammarName? : Option String) : Bool :=
  match grammarName?, grammar.name? with
  | none, _ => true
  | some _, none => false
  | some wanted, some name => answersTo name wanted

def Grammar.targetOf? (grammar : Grammar P) (name : String) : Option Target :=
  (grammar.ruleIndex? name).map fun index => ⟨grammar.id, index⟩

/-- The rule that a reference means. -/
def Scope.lookup? (scope : Scope P) (reference : Reference) : Option Target :=
  (scope.chain.filter (·.admits (reference.qualified?.map Prod.fst))).findSome?
    (·.targetOf? reference.ruleName)

def Scope.bindReference (scope : Scope P) (reference : Reference) : Reference :=
  { reference with target? := scope.lookup? reference }

def Expansion.unboundNames (expansion : Expansion P) : List String :=
  distinct ((expansion.references.filter (·.target?.isNone)).map (·.name))

def Scope.bindRule (scope : Scope P) (rule : Rule P) : Rule P :=
  let body := rule.body.mapReferences scope.bindReference
  { rule with body, unresolved := body.unboundNames }

/-- The places of a grammar's own rules that the rule at a place refers to. -/
def Grammar.localSuccessors (grammar : Grammar P) (index : Nat) : List Nat :=
  match grammar.rules[index]? with
  | none => []
  | some rule =>
      (rule.body.references.filterMap (·.target?)).filterMap fun target =>
        if target.grammar = grammar.id then some target.index else none

/-- The places of the rules whose references lead back to them within the grammar. -/
def Grammar.cyclicRules (grammar : Grammar P) : List Nat :=
  Graph.cyclic grammar.localSuccessors (grammar.rules.length + 1)
    (List.range grammar.rules.length)

def Grammar.markRecursive (grammar : Grammar P) : Grammar P :=
  let cyclic := grammar.cyclicRules
  { grammar with
    rules := grammar.rules.mapIdx fun index rule =>
      { rule with isRecursive := cyclic.contains index } }

def Grammar.unresolved (grammar : Grammar P) : List Unresolved :=
  grammar.rules.flatMap fun rule => rule.unresolved.map fun name => ⟨rule.name, name⟩

def Scope.resolve (scope : Scope P) : Scope P :=
  let bound := { scope.grammar with rules := scope.grammar.rules.map scope.bindRule }
  { scope with grammar := bound.markRecursive }

/--
A separate grammar with the same rules: it has an identity of its own, and
references to the copied grammar's rules mean the copies.
-/
def Grammar.copy (grammar : Grammar P) (id : GrammarId) : Grammar P :=
  let rebind (reference : Reference) : Reference :=
    { reference with
      target? := reference.target?.map fun target =>
        if target.grammar = grammar.id then { target with grammar := id } else target }
  { grammar with
    id
    rules := grammar.rules.map fun rule => { rule with body := rule.body.mapReferences rebind } }

def Scope.copy (scope : Scope P) (id : GrammarId) : Scope P :=
  { scope with grammar := scope.grammar.copy id }

variable [BranchWeight P]

/-- The probability of a branch, from the weights of its alternation and its own. -/
def shareOf (weights : List (Option P)) (own? : Option P) : P :=
  let given := weights.filterMap id
  let sum := BranchWeight.total given
  if given.isEmpty ∨ sum ≤ 0 then
    1 / BranchWeight.ofCount weights.length
  else
    own?.getD 0 / sum

def Rule.normalize (rule : Rule P) : Rule P :=
  { rule with body := rule.body.withProbabilities shareOf }

def Grammar.normalize (grammar : Grammar P) : Grammar P :=
  { grammar with rules := grammar.rules.map Rule.normalize }

def Scope.normalize (scope : Scope P) : Scope P :=
  { scope with grammar := scope.grammar.normalize }

end SpeechGrammar
