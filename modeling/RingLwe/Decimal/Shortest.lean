import RingLwe.Decimal.Magnitude

/-!
# The shortest decimal of a float

A positive finite float stands for every real number that rounds to it: an
interval around its value, with its ends exactly when the mantissa is even.
The shortest decimal of the float is the decimal with the fewest digits inside
that interval, and of those the nearest to the value.  Two of them can be
equally near; a rule for ties chooses between them.

A decimal grid is the set of multiples of a power of ten.  If any point of a
grid lies in the interval, one of the two neighbours of the value on the grid
does, so it is enough to look at those, from the coarsest grid on.  Everything
is computed in natural numbers.
-/

set_option autoImplicit false

namespace RingLwe

/-- The number `coefficient · 10^exponent`. -/
structure Decimal where
  coefficient : Nat
  exponent : Int
deriving DecidableEq, Repr

/-- Which of two neighbours on a grid is taken if both are equally near. -/
inductive Tie where
  /-- The even neighbour. -/
  | toEven
  /-- The neighbour of the larger magnitude. -/
  | awayFromZero
deriving DecidableEq, Repr

/-- The neighbour that is taken, of a natural number and the next one. -/
def Tie.choose (tie : Tie) (below : Nat) : Nat :=
  match tie with
  | .toEven => if below % 2 = 0 then below else below + 1
  | .awayFromZero => below + 1

namespace Magnitude

variable (magnitude : Magnitude)

/-- Four times the mantissa: the value in quarters of a unit of the last binary place. -/
def quarters : Nat :=
  4 * magnitude.mantissa

/-- The numerator by which quarters count on the grid of a power of ten. -/
def gridNumerator (power : Int) : Nat :=
  Nat.pow 10 (-power).toNat <<< (magnitude.exponent - 2).toNat

/-- The denominator by which quarters count on the grid of a power of ten. -/
def gridDenominator (power : Int) : Nat :=
  Nat.pow 10 power.toNat <<< (2 - magnitude.exponent).toNat

/-- Whether a point of the grid of a power of ten rounds to the float. -/
def rounds (power : Int) (point : Nat) : Bool :=
  let numerator := magnitude.gridNumerator power
  let lower := (magnitude.quarters - (if magnitude.narrowBelow then 1 else 2)) * numerator
  let upper := (magnitude.quarters + 2) * numerator
  let scaled := point * magnitude.gridDenominator power
  if magnitude.mantissa % 2 = 0 then
    lower ≤ scaled && scaled ≤ upper
  else
    lower < scaled && scaled < upper

/-- The point of the grid of a power of ten that rounds to the float and is nearest to it. -/
def nearestOnGrid? (tie : Tie) (power : Int) : Option Nat :=
  let scaled := magnitude.quarters * magnitude.gridNumerator power
  let denominator := magnitude.gridDenominator power
  let below := scaled / denominator
  match magnitude.rounds power below, magnitude.rounds power (below + 1) with
  | true, true =>
    match compare (2 * scaled) ((2 * below + 1) * denominator) with
    | .lt => some below
    | .gt => some (below + 1)
    | .eq => some (tie.choose below)
  | true, false => some below
  | false, true => some (below + 1)
  | false, false => none

/-- The number of decimal digits of a natural number. -/
def digitCount (number : Nat) : Nat :=
  (Nat.toDigits 10 number).length

/-- The exponent of the largest power of ten that is at most the value of a positive magnitude. -/
def leadingPower : Int :=
  let numerator := magnitude.quarters * magnitude.gridNumerator 0
  let denominator := magnitude.gridDenominator 0
  if denominator ≤ numerator then
    (digitCount (numerator / denominator) : Int) - 1
  else
    let count := digitCount (denominator / numerator)
    if denominator ≤ numerator * Nat.pow 10 (count - 1) then 1 - (count : Int) else -(count : Int)

/-- The shortest decimal of a positive float: seventeen digits are always enough. -/
def shortest (tie : Tie) : Decimal :=
  let leading := magnitude.leadingPower
  let onGrid (places : Nat) : Option Decimal :=
    (magnitude.nearestOnGrid? tie (leading - places)).map fun point => ⟨point, leading - places⟩
  let found := (List.range 17).findSome? onGrid
  found.getD ⟨0, 0⟩

end Magnitude

end RingLwe
