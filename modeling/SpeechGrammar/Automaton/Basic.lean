import SpeechGrammar.SortedSet
import SpeechGrammar.Tag
import SpeechGrammar.Weight.Basic

/-!
# Weighted automata

An automaton has numbered states, one of which is its start, some of which are
final, and transitions between them.  A transition reads a word or, being an
epsilon transition, nothing; it has a log weight and tags.

States are natural numbers here.  They have 32 bits where they are stored, so
that automata of more than `2 ^ 32` states are outside the model.
-/

namespace SpeechGrammar

structure Transition (W : Type) where
  source : Nat
  target : Nat
  /-- The word that is read, if any. -/
  word? : Option String
  weight : W
  tags : TagSet

def Transition.isEpsilon {W : Type} (transition : Transition W) : Bool :=
  transition.word?.isNone

/-- An automaton, and the language weight that scaled its log weights. -/
structure Automaton (P W : Type) where
  name : String
  stateCount : Nat
  start : Nat
  finals : SortedSet Nat
  transitions : List (Transition W)
  languageWeight : P

namespace Automaton

variable {P W : Type}

def isFinal (automaton : Automaton P W) (state : Nat) : Bool := automaton.finals.contains state

def hasEpsilons (automaton : Automaton P W) : Bool := automaton.transitions.any (·.isEpsilon)

def leaving (automaton : Automaton P W) (state : Nat) : List (Transition W) :=
  automaton.transitions.filter (·.source == state)

def words (automaton : Automaton P W) : SortedSet String :=
  SortedSet.ofList (automaton.transitions.filterMap (·.word?))

/-- The text of a transition, with the probability it stands for. -/
def transitionLine [BranchWeight P] [LogWeight W] [Logarithm P W] (languageWeight : P)
    (transition : Transition W) : String :=
  let probability := Logarithm.likelihood languageWeight transition.weight
  "TRANSITION " ++ toString transition.source ++ " " ++ toString transition.target ++ " " ++
    BranchWeight.sixPlaces probability ++
    (match transition.word? with
     | some word => " " ++ word
     | none => "")

def linesOf [BranchWeight P] [LogWeight W] [Logarithm P W] (automaton : Automaton P W) :
    List String :=
  ["FSG_BEGIN " ++ automaton.name, "NUM_STATES " ++ toString automaton.stateCount,
    "START_STATE " ++ toString automaton.start] ++
    automaton.finals.toList.map (fun state => "FINAL_STATE " ++ toString state) ++
    automaton.transitions.map (transitionLine automaton.languageWeight) ++ ["FSG_END"]

def text [BranchWeight P] [LogWeight W] [Logarithm P W] (automaton : Automaton P W) : String :=
  String.join (automaton.linesOf.map (· ++ "\n"))

end Automaton

end SpeechGrammar
