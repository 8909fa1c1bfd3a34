import SpeechGrammar.Decimal.Numeral

/-!
# Weights

A branch of an alternation may be given a weight, and every branch has a
probability computed from the weights.  The weight of a path is the sum of the
log weights of its steps, and the best path is the one of greatest weight.  The
classes say what arithmetic that takes, so that a grammar can be kept over
machine numbers as well as over exact ones: one for weights and probabilities,
one for log weights, and one that relates log weights to the probabilities they
are logarithms of.
-/

namespace SpeechGrammar

/-- Numbers that serve as weights and probabilities of branches. -/
class BranchWeight (P : Type) extends Zero P, One P, Add P, Div P, LT P, LE P where
  /-- Whether one weight is less than another. -/
  decideLess : DecidableLT P
  /-- Whether one weight is at most another. -/
  decideAtMost : DecidableLE P
  /-- The number of branches, as a weight. -/
  ofCount : Nat → P
  /-- Whether a weight is an ordinary number, neither infinite nor undefined. -/
  isFinite : P → Bool
  /-- The weight nearest to what a numeral says. -/
  ofNumeral : Numeral → P
  /-- A numeral that reads back as the weight. -/
  numeral : P → Numeral
  /-- The numeral with the given number of decimal places nearest to the weight. -/
  rounded : Nat → P → Numeral

namespace BranchWeight

instance {P : Type} [BranchWeight P] : DecidableLT P := decideLess

instance {P : Type} [BranchWeight P] : DecidableLE P := decideAtMost

variable {P : Type} [BranchWeight P]

def isPositive (weight : P) : Bool := decide (0 < weight)

def ofDecimal (digits : Nat) (exponent : Int) : P := ofNumeral (.finite false digits exponent)

def total (weights : List P) : P := weights.foldl (· + ·) 0

def text (weight : P) : String := (numeral weight).plain

def sixPlaces (weight : P) : String := (rounded 6 weight).plain

end BranchWeight

/-- Weights that add up along a path and are compared between paths. -/
class LogWeight (W : Type) extends Zero W, Add W, LT W, LE W where
  /-- Whether one weight is less than another. -/
  decideLess : DecidableLT W
  /-- Whether one weight is at most another. -/
  decideAtMost : DecidableLE W
  /-- The least weight, with which a state counts as reached but not yet by any better path. -/
  floor : W
  /-- The order in which a best-first search prefers weights. -/
  order : W → W → Ordering
  /-- A numeral that reads back as the weight. -/
  numeral : W → Numeral

namespace LogWeight

instance {W : Type} [LogWeight W] : DecidableLT W := decideLess

instance {W : Type} [LogWeight W] : DecidableLE W := decideAtMost

variable {W : Type} [LogWeight W]

def greater (first second : W) : W := if first < second then second else first

def greatest? : List W → Option W
  | [] => none
  | first :: rest => some (rest.foldl greater first)

end LogWeight

/-- Logarithms of branch probabilities, scaled by a language weight. -/
class Logarithm (P W : Type) [BranchWeight P] [LogWeight W] where
  /-- The natural logarithm of a probability. -/
  ln : P → W
  /-- A log weight multiplied by a language weight. -/
  scale : P → W → W
  /-- The probability whose logarithm, multiplied by a language weight, is a log weight. -/
  likelihood : P → W → P

end SpeechGrammar
