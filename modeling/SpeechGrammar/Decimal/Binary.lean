import SpeechGrammar.Decimal.Numeral

/-!
# Binary numbers in decimal

A quotient of natural numbers is rounded to the nearest natural number.  An
exact half lies between two neighbours equally near, and a rule says which of
them it goes to.

A finite number of single precision is `m * 2 ^ q` for natural `m` below
`2 ^ 24` and an integer `q`.  This module finds the nearest such number to a
decimal one, the shortest decimal that reads back as a given number, and the
nearest decimal with a given number of places.  A number of double precision
has 53 significant bits, and only the whole ones among them are needed.  All of
it is exact arithmetic on natural numbers.
-/

namespace SpeechGrammar

/-- Which of two neighbours an exact half goes to. -/
inductive Tie where
  | toEven
  | up
  deriving DecidableEq, Repr

/-- Whether a remainder of a division moves the quotient up to the next number. -/
def roundsUp (tie : Tie) (quotient remainder denominator : Nat) : Bool :=
  if 2 * remainder = denominator then
    match tie with
    | .toEven => quotient % 2 == 1
    | .up => true
  else
    denominator < 2 * remainder

/-- The natural number nearest to a quotient. -/
def roundQuotient (tie : Tie) (numerator denominator : Nat) : Nat :=
  let quotient := numerator / denominator
  if roundsUp tie quotient (numerator % denominator) denominator then quotient + 1 else quotient

namespace Binary64

/-- The number with 53 significant bits that is nearest to a natural number. -/
def nearest (number : Nat) : Nat :=
  let unit := Nat.pow 2 (number.log2 - 52)
  roundQuotient .toEven number unit * unit

def isTooLarge (number : Nat) : Bool := Nat.pow 2 1024 - Nat.pow 2 970 ≤ number

end Binary64

namespace Binary32

inductive Parts where
  | notANumber
  | infinite (negative : Bool)
  /-- The number `significand * 2 ^ exponent`, or its opposite. -/
  | finite (negative : Bool) (significand : Nat) (exponent : Int)
  deriving DecidableEq, Repr

def partsOfBits (bits : Nat) : Parts :=
  let negative := bits / Nat.pow 2 31 % 2 == 1
  let field : Nat := bits / Nat.pow 2 23 % Nat.pow 2 8
  let fraction : Nat := bits % Nat.pow 2 23
  if field = 255 then
    if fraction = 0 then .infinite negative else .notANumber
  else if field = 0 then
    .finite negative fraction (-149)
  else
    .finite negative (Nat.pow 2 23 + fraction) ((field : Int) - 150)

def parts (number : Float32) : Parts := partsOfBits number.toBits.toNat

/-- The power of two with a natural exponent, one for a negative exponent. -/
def scaleUp (base : Nat) (exponent : Int) : Nat := Nat.pow base exponent.toNat

/-- The bit pattern of the number nearest to a positive quotient, infinite if that is too large. -/
def bitsOfQuotient (numerator denominator : Nat) : Nat :=
  let guess : Int := max ((numerator.log2 : Int) - denominator.log2 - 24) (-149)
  let quotientAt (exponent : Int) : Nat × Nat :=
    (numerator * scaleUp 2 (-exponent), denominator * scaleUp 2 exponent)
  let (topGuess, bottomGuess) := quotientAt guess
  let exponent := if topGuess / bottomGuess < Nat.pow 2 24 then guess else guess + 1
  let (top, bottom) := quotientAt exponent
  let significand := roundQuotient .toEven top bottom
  let bits :=
    if significand < Nat.pow 2 23 then
      significand
    else
      (exponent + 149).toNat * Nat.pow 2 23 + significand
  min bits (255 * Nat.pow 2 23)

/--
The number nearest to `digits * 10 ^ exponent`.  Exponents far outside the
range of single precision are settled without computing the power.
-/
def ofDecimal (digits : Nat) (exponent : Int) : Float32 :=
  let length : Int := (Numeral.digitsOf digits).length
  let bits :=
    if digits = 0 ∨ exponent + length < -50 then
      0
    else if 50 < exponent then
      255 * Nat.pow 2 23
    else
      bitsOfQuotient (digits * scaleUp 10 exponent) (scaleUp 10 (-exponent))
  Float32.ofBits (UInt32.ofNat bits)

def ofNumeral : Numeral → Float32
  | .notANumber => Float32.ofBits 0x7FC00000
  | .infinite negative => Float32.ofBits (if negative then 0xFF800000 else 0x7F800000)
  | .finite negative digits exponent =>
      if negative then -(ofDecimal digits exponent) else ofDecimal digits exponent

/-- The decimal numbers that read back as one number: bounds and value over one denominator. -/
structure Interval where
  lower : Nat
  value : Nat
  upper : Nat
  denominator : Nat
  closed : Bool

/-- Whether a point of the grid lies between the bounds. -/
def Interval.holds (interval : Interval) (point : Nat) : Bool :=
  let scaled := point * interval.denominator
  if interval.closed then
    interval.lower ≤ scaled && scaled ≤ interval.upper
  else
    interval.lower < scaled && scaled < interval.upper

/--
The reals that round to `significand * 2 ^ exponent`, in units of ten to the
given power.  The gap below a power of two is half the gap above it; the
bounds themselves belong to the interval when the significand is even.
-/
def intervalAt (significand : Nat) (exponent power : Int) : Interval :=
  let scale := scaleUp 2 (exponent - 2) * scaleUp 10 (-power)
  let below := if significand = Nat.pow 2 23 ∧ -149 < exponent then 1 else 2
  { lower := (4 * significand - below) * scale
    value := 4 * significand * scale
    upper := (4 * significand + 2) * scale
    denominator := scaleUp 2 (2 - exponent) * scaleUp 10 power
    closed := significand % 2 == 0 }

/-- The grid point in the interval that is nearest to the value, if any lies in it. -/
def Interval.nearest? (tie : Tie) (interval : Interval) : Option Nat :=
  let floor := interval.value / interval.denominator
  match interval.holds floor, interval.holds (floor + 1) with
  | true, true => some (roundQuotient tie interval.value interval.denominator)
  | true, false => some floor
  | false, true => some (floor + 1)
  | false, false => none

/-- The first grid with a point in the interval, going from coarse to fine. -/
def shortestFrom (tie : Tie) (significand : Nat) (exponent : Int) : Nat → Int → Nat × Int
  | 0, _ => (0, 0)
  | steps + 1, power =>
      match (intervalAt significand exponent power).nearest? tie with
      | some digits => (digits, power)
      | none => shortestFrom tie significand exponent steps (power - 1)

/-- The fewest digits that read back as a positive number, and their power of ten. -/
def shortestDigits (tie : Tie) (significand : Nat) (exponent : Int) : Nat × Int :=
  if significand = 0 then (0, 0) else shortestFrom tie significand exponent 90 39

def shortest (tie : Tie) (number : Float32) : Numeral :=
  match parts number with
  | .notANumber => .notANumber
  | .infinite negative => .infinite negative
  | .finite negative significand exponent =>
      let (digits, power) := shortestDigits tie significand exponent
      .finite negative digits power

/-- The numeral with a given number of decimal places nearest to a number, a half going to even. -/
def rounded (places : Nat) (number : Float32) : Numeral :=
  match parts number with
  | .notANumber => .notANumber
  | .infinite negative => .infinite negative
  | .finite negative significand exponent =>
      .finite negative
        (roundQuotient .toEven (significand * scaleUp 2 exponent * Nat.pow 10 places)
          (scaleUp 2 (-exponent)))
        (-(places : Int))

/--
A rank that orders the numbers by size, the negative zero below the positive
one and the values that are no number beyond the infinities.
-/
def rank (number : Float32) : Int :=
  let bits := number.toBits.toNat
  if bits < Nat.pow 2 31 then (bits : Int) else (Nat.pow 2 31 : Int) - bits - 1

end Binary32

end SpeechGrammar
