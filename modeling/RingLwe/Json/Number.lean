/-!
# Numbers of a JSON text

A number is kept as it is written: its sign, its digits, and its exponent.
It is read as a natural number only if it has neither sign, fraction nor
exponent and fits one word.

It is read as a float from a word-sized significand and a power of ten.  The
significand takes digits for as long as it fits a word; later digits before
the point count for the power, later digits after the point do not count.  The
significand is then multiplied or divided by the power, so the result can
differ from the nearest float in the last place.  A number too large for a
float has no reading.
-/

set_option autoImplicit false

namespace RingLwe.Json

/-- A number as it is written. -/
structure Number where
  negative : Bool
  /-- The digits before the point. -/
  whole : List Nat
  /-- The digits after the point, if there is one. -/
  fraction : Option (List Nat)
  /-- Whether the exponent is negative, and its digits, if there is one. -/
  exponent : Option (Bool × List Nat)
deriving DecidableEq, Repr

namespace Number

/-- The number of decimal digits. -/
def ofDigits (digits : List Nat) : Nat :=
  digits.foldl (fun number digit => number * 10 + digit) 0

/-- The number, if it is written as a natural number of one word. -/
def word? (number : Number) : Option UInt64 :=
  if number.negative || number.fraction.isSome || number.exponent.isSome then
    none
  else
    let value := ofDigits number.whole
    if value < UInt64.size then some value.toUInt64 else none

/-! ## Reading as a float -/

/-- A significand of one word and a power of ten. -/
structure Scaled where
  significand : UInt64
  power : Int
deriving DecidableEq, Repr

/-- The significand with one more digit, if that fits a word. -/
def Scaled.append? (significand : UInt64) (digit : Nat) : Option UInt64 :=
  let longer := significand.toNat * 10 + digit
  if longer < UInt64.size then some longer.toUInt64 else none

/-- Takes in the digits before the point.  From the first digit that does not fit on, each one
counts for the power. -/
def Scaled.takeWhole : UInt64 → List Nat → Scaled
  | significand, [] => ⟨significand, 0⟩
  | significand, digit :: digits =>
    match append? significand digit with
    | some longer => takeWhole longer digits
    | none => ⟨significand, (digits.length : Int) + 1⟩

/-- Takes in the digits after the point, up to the first one that does not fit. -/
def Scaled.takeFraction : Scaled → List Nat → Scaled
  | scaled, [] => scaled
  | scaled, digit :: digits =>
    match append? scaled.significand digit with
    | some longer => takeFraction ⟨longer, scaled.power - 1⟩ digits
    | none => scaled

/-- The significand and power of a number without its exponent. -/
def scaled (number : Number) : Scaled :=
  (Scaled.takeWhole 0 number.whole).takeFraction (number.fraction.getD [])

/-- The written exponent. -/
def signedExponent (number : Number) : Int :=
  match number.exponent with
  | none => 0
  | some (negative, digits) =>
    if negative then -(ofDigits digits : Int) else (ofDigits digits : Int)

/-- A power of ten as a float, for exponents up to 308. -/
def powerOfTen (exponent : Nat) : Float :=
  Float.ofScientific 1 false exponent

/-- Multiplies a float by a power of ten, in steps of 308 while the exponent is below `-308`.  There
is no answer if the result is too large. -/
def scale? : (steps : Nat) → (value : Float) → (exponent : Int) → Option Float
  | 0, value, _ => some value
  | steps + 1, value, exponent =>
    if exponent.natAbs ≤ 308 then
      if 0 ≤ exponent then
        let product := value * powerOfTen exponent.natAbs
        if product.isInf then none else some product
      else
        some (value / powerOfTen exponent.natAbs)
    else if value == 0.0 then
      some value
    else if 0 ≤ exponent then
      none
    else
      scale? steps (value / powerOfTen 308) (exponent + 308)

/-- The largest exponent that is taken at its value. -/
def exponentLimit : Nat :=
  2147483647

/-- The magnitude of a number as a float. -/
def magnitude? (number : Number) : Option Float :=
  let scaled := number.scaled
  let exponent := number.signedExponent
  if number.fraction.isNone && number.exponent.isNone && scaled.power == 0 then
    some scaled.significand.toFloat
  else if exponentLimit < exponent.natAbs then
    if 0 < exponent && scaled.significand != 0 then none else some 0.0
  else
    let total := scaled.power + exponent
    scale? (total.natAbs / 308 + 2) scaled.significand.toFloat total

/-- The number as a float. -/
def float? (number : Number) : Option Float :=
  number.magnitude?.map fun magnitude => if number.negative then -magnitude else magnitude

end Number

end RingLwe.Json
