import SpeechGrammar.Deduction.Search

/-!
# Deductions

A deduction lists the derivations of an utterance: the complete matches, each
with the tags collected on the way and those assigned from outside.  Of
derivations with the same tags only the first is kept.  That there is none is
no error.
-/

namespace SpeechGrammar

structure Derivation (W : Type) where
  /-- The tokens matched, from the first up to the second. -/
  span : Nat × Nat
  tags : TagSet
  /-- The sum of the log probabilities of the branches taken. -/
  score : W

/-- The derivations of an utterance, and how many of them have been rendered. -/
structure Deduction (W : Type) where
  derivations : List (Derivation W)
  rendered : Nat := 0

namespace Derivation

variable {W : Type}

/-- The derivations whose span and tags no derivation before them has. -/
def firsts (derivations : List (Derivation W)) : List (Derivation W) :=
  (derivations.foldl
    (fun kept (found : Derivation W) =>
      if kept.any fun earlier => earlier.span == found.span && decide (earlier.tags = found.tags)
      then kept else found :: kept) []).reverse

/-- A tag as a JSON value, without a member for a value it does not have. -/
def jsonOfTag (tag : Tag) : Json :=
  .object (("label", .string tag.label) ::
    (match tag.value? with
     | some value => [("value", .string value)]
     | none => []))

def jsonOfScore [LogWeight W] (score : W) : Json :=
  match (LogWeight.numeral score).exchange? with
  | some text => .number text
  | none => .null

def toJson [LogWeight W] (derivation : Derivation W) : Json :=
  .object
    [("span", .array [.ofNat derivation.span.1, .ofNat derivation.span.2]),
      ("tags", .array (derivation.tags.toList.map jsonOfTag)),
      ("score", jsonOfScore derivation.score)]

end Derivation

namespace Deduction

variable {W : Type} [LogWeight W]

/-- The text of the next derivation, if one is left, and the deduction behind it. -/
def next (deduction : Deduction W) : Option String × Deduction W :=
  match deduction.derivations[deduction.rendered]? with
  | some derivation =>
      (some derivation.toJson.text, { deduction with rendered := deduction.rendered + 1 })
  | none => (none, deduction)

end Deduction

namespace Scope

variable {P W : Type} [BranchWeight P] [LogWeight W] [Logarithm P W]

/-- The complete matches among matches in progress, with the tags assigned from outside. -/
def complete (count : Nat) (assignments : List Assignment) (partials : List (Partial W)) :
    List (Derivation W) :=
  let assigned := (assignments.filter (·.within (0, count))).map (·.tag)
  (partials.filter (·.consumed == count)).map fun found =>
    ⟨(0, count), found.tags.insertAll assigned, found.score⟩

def deduce (scope : Scope P) (rule : String) (tokens : List String)
    (assignments : List Assignment) (policy : MatchPolicy) :
    Except (Refusal P) (Deduction W) := do
  let (target, top) ← scope.grammar.public rule
  match scope.unusableBelow? target with
  | some reason => .error (.unusable reason)
  | none =>
      let query : Query := ⟨tokens, policy, scope.grammar.vocabulary⟩
      let room := scope.ruleCount * (tokens.length + 1)
      let partials : List (Partial W) :=
        top.body.extend query (scope.followReference query room [(target, 0)]) .start
      return { derivations := Derivation.firsts (complete tokens.length assignments partials) }

def deduceText (scope : Scope P) (rule utterance : String) (assignments : List Assignment) :
    Except (Refusal P) (Deduction W) :=
  scope.deduce rule (Text.wordsOf utterance) assignments {}

end Scope

end SpeechGrammar
