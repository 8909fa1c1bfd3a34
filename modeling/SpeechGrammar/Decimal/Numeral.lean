/-!
# Numerals

A numeral is what a text can say of a machine number: a sign, decimal digits
and a power of ten, or that it is infinite or no number at all.  The layouts
turn a numeral into text; the reader of unsigned numerals takes one off the
front of a text.
-/

namespace SpeechGrammar

/-- A decimal number, an infinity or the value that is no number. -/
inductive Numeral where
  | notANumber
  | infinite (negative : Bool)
  /-- The number `digits * 10 ^ exponent`, or its opposite. -/
  | finite (negative : Bool) (digits : Nat) (exponent : Int)
  deriving DecidableEq, Repr, Inhabited

namespace Numeral

def digitsOf (value : Nat) : List Char := Nat.toDigits 10 value

def padded (width : Nat) (digits : List Char) : List Char :=
  List.replicate (width - digits.length) '0' ++ digits

/-- Digits with a point before the last `places` of them. -/
def pointed (places : Nat) (digits : List Char) : List Char :=
  let digits := padded (places + 1) digits
  digits.take (digits.length - places) ++ '.' :: digits.drop (digits.length - places)

def signOf (negative : Bool) : List Char := if negative then ['-'] else []

/-- Digits without an exponent, with a point only before a fraction. -/
def plainDigits (digits : Nat) : Int → List Char
  | .ofNat zeros => if digits = 0 then ['0'] else digitsOf digits ++ List.replicate zeros '0'
  | .negSucc places => pointed (places + 1) (digitsOf digits)

/-- The text with all digits written out, such as `0.25`, `10000000000`, `inf` and `NaN`. -/
def plain : Numeral → String
  | .notANumber => "NaN"
  | .infinite negative => String.ofList (signOf negative ++ ['i', 'n', 'f'])
  | .finite negative digits exponent =>
      String.ofList (signOf negative ++ plainDigits digits exponent)

/-- The digits of a number below ten to the given power, and the point behind the first of them. -/
def scientificDigits (digits : List Char) (exponent : Int) : List Char :=
  let power := exponent + digits.length - 1
  let mantissa :=
    match digits with
    | [] => []
    | [digit] => [digit]
    | first :: rest => first :: '.' :: rest
  mantissa ++ 'e' :: (signOf (power < 0) ++ digitsOf power.natAbs)

/--
The text of a number in a data exchange format: from `0.000001` up to below
`10000000000000` all digits and at least one decimal place, outside that range
an exponent.  Infinities and the value that is no number have none.
-/
def exchange? : Numeral → Option String
  | .notANumber => none
  | .infinite _ => none
  | .finite negative digits exponent =>
      let written := digitsOf digits
      let magnitude := exponent + written.length
      let body :=
        if digits = 0 then
          ['0', '.', '0']
        else if -6 < magnitude ∧ magnitude ≤ 13 then
          match exponent with
          | .ofNat zeros => written ++ List.replicate zeros '0' ++ ['.', '0']
          | .negSucc places => pointed (places + 1) written
        else
          scientificDigits written exponent
      some (String.ofList (signOf negative ++ body))

def digitValue (char : Char) : Nat := char.toNat - '0'.toNat

def valueOf (digits : List Char) : Nat :=
  digits.foldl (fun value digit => 10 * value + digitValue digit) 0

def takeDigits (text : List Char) : List Char × List Char :=
  (text.takeWhile Char.isDigit, text.dropWhile Char.isDigit)

def takeSign : List Char → Bool × List Char
  | '-' :: rest => (true, rest)
  | '+' :: rest => (false, rest)
  | text => (false, text)

/-- The power of ten after an exponent mark, if one stands at the front of a text. -/
def takeExponent : List Char → Int × List Char
  | [] => (0, [])
  | mark :: text =>
      if mark == 'e' || mark == 'E' then
        let (negative, signed) := takeSign text
        match takeDigits signed with
        | ([], _) => (0, mark :: text)
        | (digits, rest) =>
            (if negative then -(valueOf digits : Int) else (valueOf digits : Int), rest)
      else
        (0, mark :: text)

/--
An unsigned numeral at the front of a text, as its digits read as one number
and the power of ten that scales them, and the rest.  A point must have a
digit behind it.
-/
def takeUnsigned? (text : List Char) : Option (Nat × Int × List Char) :=
  let (whole, afterWhole) := takeDigits text
  let pointed? :=
    match afterWhole with
    | '.' :: tail =>
        match takeDigits tail with
        | ([], _) => none
        | (fraction, rest) => some (fraction, rest)
    | _ => none
  match pointed?, whole with
  | some (fraction, afterFraction), _ =>
      let (power, rest) := takeExponent afterFraction
      some (valueOf (whole ++ fraction), power - fraction.length, rest)
  | none, [] => none
  | none, _ =>
      let (power, rest) := takeExponent afterWhole
      some (valueOf whole, power, rest)

/-- The words for infinity and for the value that is no number, in any case. -/
def ofWord? (negative : Bool) (text : List Char) : Option Numeral :=
  let word := String.ofList (text.map Char.toLower)
  if word = "inf" ∨ word = "infinity" then some (.infinite negative)
  else if word = "nan" then some .notANumber
  else none

/--
The numeral that a whole text writes.  A sign may come first, and a point needs
a digit on one side only.
-/
def ofText? (text : List Char) : Option Numeral :=
  let (negative, unsigned) := takeSign text
  let (whole, afterWhole) := takeDigits unsigned
  let (fraction, rest) :=
    match afterWhole with
    | '.' :: tail => takeDigits tail
    | _ => ([], afterWhole)
  let digits := whole ++ fraction
  match digits, takeExponent rest with
  | [], _ => ofWord? negative unsigned
  | _, (power, []) => some (.finite negative (valueOf digits) (power - fraction.length))
  | _, _ => none

theorem takeDigits_append (text : List Char) :
    (takeDigits text).1 ++ (takeDigits text).2 = text :=
  List.takeWhile_append_dropWhile

end Numeral

end SpeechGrammar
