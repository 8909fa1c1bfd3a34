import SpeechGrammar.Automaton.Basic

/-!
# Scoring token sequences

The score of a token sequence is the greatest weight of a path from the start
to a final state that reads it.  Each state carries the best weight known for
it; reading a token moves the weights along the transitions that read it, and
epsilon transitions are followed until no label gets better.  Where log weights
are not positive, that takes no more rounds than there are states.

A state that is reached only with the least weight counts as reached, but
nothing is followed from it unless it was reached by the token itself.
-/

namespace SpeechGrammar

/-- The best weight known for each state, where it is reached at all. -/
abbrev Labels (W : Type) := Array (Option W)

namespace Labels

variable {W : Type}

def weight? (labels : Labels W) (state : Nat) : Option W := (labels[state]?).join

def isEmpty (labels : Labels W) : Bool := labels.all (·.isNone)

variable [LogWeight W]

/-- Reach a state with a weight, which counts if it is above the least one and the one known. -/
def improve (labels : Labels W) (state : Nat) (weight : W) : Labels W :=
  let known := (labels.weight? state).getD LogWeight.floor
  labels.setIfInBounds state (some (if known < weight then weight else known))

end Labels

namespace Automaton

variable {P W : Type} [LogWeight W]

def noLabels (automaton : Automaton P W) : Labels W := Array.replicate automaton.stateCount none

/-- Whether a state with a label was reached by the last token or has been improved since. -/
def isOpen (given labels : Labels W) (state : Nat) : Bool :=
  (given.weight? state).isSome ||
    (labels.weight? state).any fun weight => decide (LogWeight.floor < weight)

/-- Whether following an epsilon transition labels its target anew or better. -/
def improvesAlong (given labels : Labels W) (transition : Transition W) : Bool :=
  match transition.word?, labels.weight? transition.source, labels[transition.target]? with
  | none, some weight, some known? =>
      isOpen given labels transition.source &&
        known?.all fun known => decide (known < weight + transition.weight)
  | _, _, _ => false

def followEpsilon (given labels : Labels W) (transition : Transition W) : Labels W :=
  match transition.word?, labels.weight? transition.source with
  | none, some weight =>
      if isOpen given labels transition.source then
        labels.improve transition.target (weight + transition.weight)
      else
        labels
  | _, _ => labels

/-- Follow all epsilon transitions until no label gets better, in no more rounds than allowed. -/
def settleLabels (automaton : Automaton P W) (given : Labels W) : Nat → Labels W → Labels W
  | 0, labels => labels
  | rounds + 1, labels =>
      if automaton.transitions.any (improvesAlong given labels) then
        automaton.settleLabels given rounds
          (automaton.transitions.foldl (followEpsilon given) labels)
      else
        labels

/--
Enough rounds for a number of states: when no log weight is positive, the
number itself is enough, and weights of single precision cannot grow more than
`2 ^ 32` times per state whatever their sign.
-/
def roundsFor (stateCount : Nat) : Nat := stateCount * Nat.pow 2 32

/-- Follow epsilon transitions from the states that were reached by the last token. -/
def spread (automaton : Automaton P W) (given : Labels W) : Labels W :=
  automaton.settleLabels given (roundsFor automaton.stateCount) given

def followWord (token : String) (given labels : Labels W) (transition : Transition W) :
    Labels W :=
  match given.weight? transition.source with
  | some weight =>
      if transition.word? = some token then
        labels.improve transition.target (weight + transition.weight)
      else
        labels
  | none => labels

def step (automaton : Automaton P W) (labels : Labels W) (token : String) : Labels W :=
  automaton.spread
    (automaton.transitions.foldl (followWord token labels) automaton.noLabels)

def startLabels (automaton : Automaton P W) : Labels W :=
  automaton.spread (automaton.noLabels.setIfInBounds automaton.start (some 0))

/-- The greatest weight of a path that reads the tokens, if there is such a path. -/
def score? (automaton : Automaton P W) (tokens : List String) : Option W :=
  let labels := tokens.foldl automaton.step automaton.startLabels
  LogWeight.greatest?
    (((List.range automaton.stateCount).filter automaton.isFinal).filterMap labels.weight?)

def accepts (automaton : Automaton P W) (tokens : List String) : Bool :=
  (automaton.score? tokens).isSome

end Automaton

end SpeechGrammar
