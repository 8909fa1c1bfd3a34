import SpeechGrammar.Automaton.Basic
import SpeechGrammar.Graph

/-!
# Closing automata

Closing an automaton makes an equivalent one without epsilon transitions.
From every state a best-first search finds the best epsilon path to each state
that epsilon transitions lead to; the words read from there are then read from
the state itself.  What cannot take part in an accepting path is removed.
-/

namespace SpeechGrammar

/-- A state found by the search, with the weight and the tags of the path to it. -/
structure Reached (W : Type) where
  state : Nat
  weight : W
  tags : TagSet

namespace Automaton

variable {P W : Type} [LogWeight W]

/-- Whether the search prefers one candidate to another: by weight, then by the lower state. -/
def prefers (first second : Reached W) : Bool :=
  match LogWeight.order first.weight second.weight with
  | .gt => true
  | .eq => first.state < second.state
  | .lt => false

/-- The candidate that the search settles next, the earliest among equals. -/
def best? : List (Reached W) → Option (Reached W)
  | [] => none
  | first :: rest =>
      some (rest.foldl (fun best other => if prefers other best then other else best) first)

/-- What one epsilon transition more leads to from a settled state. -/
def Reached.extend (settled : Reached W) (transition : Transition W) : Reached W :=
  ⟨transition.target, settled.weight + transition.weight,
    settled.tags.union transition.tags⟩

def isSettled (settled : List (Reached W)) (state : Nat) : Bool :=
  settled.any (·.state == state)

/--
Settle candidates, best first, no more of them than an allowance.  Candidates
for a state that is settled are dropped.
-/
def settle (automaton : Automaton P W) :
    Nat → List (Reached W) → List (Reached W) → List (Reached W)
  | 0, settled, _ => settled
  | allowance + 1, settled, pending =>
      match best? pending with
      | none => settled
      | some found =>
          let settled := settled ++ [found]
          let epsilons := (automaton.leaving found.state).filter (·.isEpsilon)
          let fresh := (epsilons.map (Reached.extend found)).filter fun candidate =>
            !isSettled settled candidate.state
          automaton.settle allowance settled
            (pending.filter (·.state != found.state) ++ fresh)

def epsilonClosure (automaton : Automaton P W) (state : Nat) : List (Reached W) :=
  automaton.settle automaton.stateCount [] [⟨state, 0, .empty⟩]

/-- Whether two transitions lead from and to the same states reading the same. -/
def isParallel (first second : Transition W) : Bool :=
  first.source == second.source && first.target == second.target &&
    first.word? == second.word?

/-- Add a transition, or put it in the place of a parallel one that is worse. -/
def addBest (transition : Transition W) : List (Transition W) → List (Transition W)
  | [] => [transition]
  | other :: rest =>
      if isParallel other transition then
        (if transition.weight ≤ other.weight then other else transition) :: rest
      else
        other :: addBest transition rest

/-- The transition that reads from a state what a transition reads behind an epsilon path. -/
def bypass (state : Nat) (reached : Reached W) (transition : Transition W) : Transition W :=
  ⟨state, transition.target, transition.word?, reached.weight + transition.weight,
    reached.tags.union transition.tags⟩

def bypasses (automaton : Automaton P W) (state : Nat) : List (Transition W) :=
  ((automaton.epsilonClosure state).flatMap fun reached =>
      ((automaton.leaving reached.state).filter (!·.isEpsilon)).map (bypass state reached)).foldl
    (fun kept transition => addBest transition kept) []

def leadsToFinal (automaton : Automaton P W) (state : Nat) : Bool :=
  (automaton.epsilonClosure state).any fun reached => automaton.isFinal reached.state

def withoutEpsilons (automaton : Automaton P W) : Automaton P W :=
  let states := List.range automaton.stateCount
  { automaton with
    finals := SortedSet.ofList (states.filter automaton.leadsToFinal)
    transitions := states.flatMap automaton.bypasses }

def fromStart (automaton : Automaton P W) : List Nat :=
  Graph.reachable (fun state => (automaton.leaving state).map (·.target))
    (automaton.stateCount + 1) [automaton.start]

/-- The states that lead to a final state. -/
def toFinal (automaton : Automaton P W) : List Nat :=
  Graph.reachable
    (fun state => (automaton.transitions.filter (·.target == state)).map (·.source))
    (automaton.stateCount + 1) automaton.finals.toList

def isDead (automaton : Automaton P W) : Bool :=
  !automaton.toFinal.contains automaton.start

/-- The start and the states on a path from the start to a final state, in order. -/
def useful (automaton : Automaton P W) : List Nat :=
  let ahead := automaton.fromStart
  let back := automaton.toFinal
  (List.range automaton.stateCount).filter fun state =>
    state == automaton.start || (ahead.contains state && back.contains state)

/-- A transition between the places of its states in a list, if both are in it. -/
def renumber? (kept : List Nat) (transition : Transition W) : Option (Transition W) := do
  let source ← kept.idxOf? transition.source
  let target ← kept.idxOf? transition.target
  return { transition with source, target }

/-- The automaton on its useful states only, numbered anew in the same order. -/
def prune (automaton : Automaton P W) : Automaton P W :=
  let kept := automaton.useful
  { automaton with
    stateCount := kept.length
    start := (kept.idxOf? automaton.start).getD 0
    finals := SortedSet.ofList (automaton.finals.toList.filterMap kept.idxOf?)
    transitions := automaton.transitions.filterMap (renumber? kept) }

def close (automaton : Automaton P W) : Automaton P W := automaton.withoutEpsilons.prune

/-- Whether an automaton accepts nothing, as is found out when it is closed. -/
def acceptsNothing (automaton : Automaton P W) : Bool := automaton.withoutEpsilons.isDead

end Automaton

end SpeechGrammar
