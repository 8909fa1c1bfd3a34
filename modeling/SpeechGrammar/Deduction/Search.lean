import SpeechGrammar.Assignment
import SpeechGrammar.Graph
import SpeechGrammar.Grammar.Basic
import SpeechGrammar.Weight.Basic

/-!
# Searching for derivations

An utterance is matched against a rule from left to right.  A match in
progress knows how many tokens it has consumed, which tags it has collected
and how likely the branches are that it took; every expansion carries it on in
a number of ways.  Ways are listed in the order of a leftmost search: branches
as written, repetitions with most iterations first.  Of two ways that stand at
the same token with the same tags only the first is kept.

A rule is not entered again at the token where it is being matched already,
and an iteration that consumes nothing counts only towards the least number of
iterations.
-/

namespace SpeechGrammar

/-- How words of a grammar are compared with tokens. -/
structure MatchPolicy where
  caseSensitive : Bool := false
  /-- Refuse tokens that the vocabulary, unless it is empty, does not hold. -/
  checkVocabulary : Bool := true
  deriving DecidableEq, Repr

/-- A match in progress. -/
structure Partial (W : Type) where
  consumed : Nat
  tags : TagSet
  score : W

/-- What a search is for. -/
structure Query where
  tokens : List String
  policy : MatchPolicy
  vocabulary : SortedSet String

namespace Query

def admits (query : Query) (token : String) : Bool :=
  !query.policy.checkVocabulary || query.vocabulary.isEmpty ||
    query.vocabulary.contains (Text.lowerCase token)

def wordMatches (query : Query) (word token : String) : Bool :=
  (if query.policy.caseSensitive then word == token
   else Text.lowerCase word == Text.lowerCase token) && query.admits token

def wordsMatch (query : Query) : List String → List String → Bool
  | [], _ => true
  | _ :: _, [] => false
  | word :: words, token :: tokens => query.wordMatches word token && query.wordsMatch words tokens

end Query

namespace Partial

variable {W : Type}

/-- Whether two matches stand at the same token with the same tags. -/
def agrees (first second : Partial W) : Bool :=
  first.consumed == second.consumed && decide (first.tags = second.tags)

/-- The matches that agree with none before them. -/
def firsts (partials : List (Partial W)) : List (Partial W) :=
  (partials.foldl
    (fun kept found => if kept.any (agrees found) then kept else found :: kept) []).reverse

def start [LogWeight W] : Partial W := ⟨0, .empty, 0⟩

/--
All ways to go on with iterations of a step, those with most iterations first.
`count` iterations have been made.  The allowance bounds how many more can be:
every one beyond the least number consumes a token.
-/
def iterations (step : Partial W → List (Partial W)) (least : Nat) (most? : Option Nat) :
    Nat → Nat → List (Partial W) → List (Partial W)
  | 0, count, current => if least ≤ count then current else []
  | allowance + 1, count, current =>
      let here := if least ≤ count then current else []
      if most?.any (· ≤ count) then
        here
      else
        let next := firsts (current.flatMap fun found =>
          (step found).filter fun later => count < least || found.consumed < later.consumed)
        if next.isEmpty then here
        else iterations step least most? allowance (count + 1) next ++ here

/-- All ways to go on with between `least` and `most?` iterations of a step. -/
def repeated (query : Query) (step : Partial W → List (Partial W)) (least : Nat)
    (most? : Option Nat) (found : Partial W) : List (Partial W) :=
  firsts (iterations step least most? (least + (query.tokens.length - found.consumed) + 1) 0
    [found])

end Partial

namespace Expansion

variable {P W : Type} [BranchWeight P] [LogWeight W] [Logarithm P W]

mutual

/-- All ways in which an expansion carries a match on, given how references do. -/
def extend (query : Query) (follow : Reference → Partial W → List (Partial W)) :
    Expansion P → Partial W → List (Partial W)
  | .literal text, found =>
      let words := Text.wordsOf text
      if query.wordsMatch words (query.tokens.drop found.consumed) then
        [{ found with consumed := found.consumed + words.length }]
      else
        []
  | .reference link, found => follow link found
  | .sequence items, found => extendItems query follow items [found]
  | .alternation branches, found => Partial.firsts (extendBranches query follow branches found)
  | .repetition body least most?, found =>
      Partial.repeated query (body.extend query follow) least most? found
  | .optional body, found => Partial.repeated query (body.extend query follow) 0 (some 1) found
  | .tagged body tags, found =>
      body.extend query follow { found with tags := found.tags.insertAll tags }

def extendItems (query : Query) (follow : Reference → Partial W → List (Partial W)) :
    List (Expansion P) → List (Partial W) → List (Partial W)
  | [], partials => partials
  | item :: items, partials =>
      extendItems query follow items (Partial.firsts (partials.flatMap (item.extend query follow)))

/-- All ways in which the branches that can be taken carry a match on, branch by branch. -/
def extendBranches (query : Query) (follow : Reference → Partial W → List (Partial W)) :
    List (Branch P (Expansion P)) → Partial W → List (Partial W)
  | [], _ => []
  | ⟨_, probability, body⟩ :: branches, found =>
      (if BranchWeight.isPositive probability then
        body.extend query follow
          { found with score := found.score + Logarithm.ln probability }
       else
        []) ++
        extendBranches query follow branches found

end

end Expansion

namespace Scope

variable {P W : Type} [BranchWeight P] [LogWeight W] [Logarithm P W]

/--
All ways in which a reference carries a match on.  `active` lists the rules
being matched, each with the token it was entered at; `room` is how many more
such pairs there can be.
-/
def followReference (scope : Scope P) (query : Query) :
    Nat → List (Target × Nat) → Reference → Partial W → List (Partial W)
  | room, active, link, found =>
      match link.target? with
      | none => []
      | some target =>
          if (target, found.consumed) ∈ active then
            []
          else
            match scope.follow? target, room with
            | none, _ => []
            | some _, 0 => []
            | some rule, room + 1 =>
                rule.body.extend query
                  (scope.followReference query room ((target, found.consumed) :: active)) found

/-- The rules that a rule's references are bound to, last reference first. -/
def successors (scope : Scope P) (target : Target) : List Target :=
  match scope.follow? target with
  | none => []
  | some rule => (rule.body.references.filterMap (·.target?)).reverse

/-- Why the first rule in the search below a rule that cannot be used cannot be used. -/
def unusableBelow? (scope : Scope P) (target : Target) : Option Unusable :=
  (Graph.reachable scope.successors (scope.ruleCount + 2) [target]).findSome? fun reached =>
    (scope.follow? reached).bind Rule.unusable?

end Scope

end SpeechGrammar
