import SpeechGrammar.Decimal.Binary
import SpeechGrammar.Weight.Basic

/-!
# Weights of single precision

Programs run with weights, probabilities and log weights of single precision.
A written weight has the fewest digits that read back, an exact half between
two such numerals going up; a log weight has the fewest digits too, a half
going to the even neighbour.
-/

namespace SpeechGrammar

instance : BranchWeight Float32 where
  zero := 0
  one := 1
  decideLess := inferInstance
  decideAtMost := inferInstance
  ofCount := Float32.ofNat
  isFinite := Float32.isFinite
  ofNumeral := Binary32.ofNumeral
  numeral := Binary32.shortest .up
  rounded := Binary32.rounded

/-- A log weight of single precision, and where it is ordered if it is undefined. -/
structure SingleLog where
  number : Float32
  /-- Whether an undefined weight comes after all others instead of before them. -/
  isLast : Bool := false

namespace SingleLog

/-- The sum of two log weights; an undefined one keeps its place in the order. -/
def add (first second : SingleLog) : SingleLog :=
  let sum := first.number + second.number
  let isLast :=
    if first.number.isNaN then first.isLast
    else if second.number.isNaN then second.isLast
    else sum.isNaN
  ⟨sum, isLast⟩

def order (first second : SingleLog) : Ordering :=
  let isLow (weight : SingleLog) : Bool := weight.number.isNaN && weight.isLast
  match isLow first, isLow second with
  | true, true => .eq
  | true, false => .lt
  | false, true => .gt
  | false, false => compare (Binary32.rank first.number) (Binary32.rank second.number)

end SingleLog

instance : LogWeight SingleLog where
  zero := ⟨0, false⟩
  add := SingleLog.add
  lt first second := first.number < second.number
  le first second := first.number ≤ second.number
  decideLess first second := inferInstanceAs (Decidable (first.number < second.number))
  decideAtMost first second := inferInstanceAs (Decidable (first.number ≤ second.number))
  floor := ⟨Float32.ofBits 0xFF800000, false⟩
  order := SingleLog.order
  numeral weight := Binary32.shortest .toEven weight.number

instance : Logarithm Float32 SingleLog where
  ln probability := ⟨Float32.log probability, false⟩
  scale languageWeight weight := ⟨weight.number * languageWeight, weight.isLast⟩
  likelihood languageWeight weight := Float32.exp (weight.number / languageWeight)

end SpeechGrammar
