import RingLwe.Decimal.Shortest

/-!
# How floats are written

A layout says which way ties between two shortest decimals go, which decimal
exponents are written positionally, whether a whole number keeps a fraction
digit, and how the values that are not numbers are spelled.  The digits are
always those of the shortest decimal.
-/

set_option autoImplicit false

namespace RingLwe.Decimal

/-- The decisions of a written form of floats. -/
structure Layout where
  /-- Which of two shortest decimals that are equally near is written. -/
  tie : Tie
  /-- Whether a number whose first digit has the given decimal exponent is written positionally. -/
  positional : Int → Bool
  /-- What is written after the digits of a whole number. -/
  wholeSuffix : String
  notANumber : String
  positiveInfinity : String
  negativeInfinity : String

/-- The digits of a decimal without trailing zeros, and the decimal exponent of the first one. -/
def significant (decimal : Decimal) : List Char × Int :=
  let digits := Nat.toDigits 10 decimal.coefficient
  let kept := (digits.reverse.dropWhile (· == '0')).reverse
  (kept, decimal.exponent + digits.length - 1)

/-- Digits with a point after the one whose place is the units. -/
def writePositional (layout : Layout) (digits : List Char) (leading : Int) : String :=
  if leading < 0 then
    "0." ++ String.ofList (List.replicate (-leading - 1).toNat '0' ++ digits)
  else
    let whole := leading.toNat + 1
    if digits.length ≤ whole then
      String.ofList (digits ++ List.replicate (whole - digits.length) '0') ++ layout.wholeSuffix
    else
      String.ofList (digits.take whole) ++ "." ++ String.ofList (digits.drop whole)

/-- Digits with a point after the first one, and the decimal exponent of that one. -/
def writeScientific (digits : List Char) (leading : Int) : String :=
  let fraction := if digits.length ≤ 1 then "" else "." ++ String.ofList (digits.drop 1)
  let sign := if leading < 0 then "e-" else "e+"
  String.ofList (digits.take 1) ++ fraction ++ sign ++ toString leading.natAbs

/-- The text of the magnitude of a finite float. -/
def Layout.writeMagnitude (layout : Layout) (magnitude : Magnitude) : String :=
  if magnitude.mantissa = 0 then
    writePositional layout ['0'] 0
  else
    let (digits, leading) := (magnitude.shortest layout.tie).significant
    if layout.positional leading then
      writePositional layout digits leading
    else
      writeScientific digits leading

/-- The text of a float. -/
def Layout.write (layout : Layout) (number : Float) : String :=
  let negative := number.toBits ≥ 0x8000000000000000
  if number.isNaN then
    layout.notANumber
  else if number.isInf then
    if negative then layout.negativeInfinity else layout.positiveInfinity
  else
    (if negative then "-" else "") ++ layout.writeMagnitude (Magnitude.ofBits number.toBits)

end RingLwe.Decimal
