/-!
# The magnitude of a float

The absolute value of a finite float is a natural number times a power of two.
Both are read off its bits, and whole numbers near it are found exactly, in
natural numbers.
-/

set_option autoImplicit false

namespace RingLwe

/-- The magnitude `mantissa · 2^exponent` of a finite float. -/
structure Magnitude where
  mantissa : Nat
  exponent : Int
  /-- Whether the next smaller float is only half as far away as the next larger one. -/
  narrowBelow : Bool
deriving DecidableEq, Repr

namespace Magnitude

/-- The magnitude of the finite float with the given bits. -/
def ofBits (bits : UInt64) : Magnitude :=
  let fraction : Nat := bits.toNat % 1 <<< 52
  let field : Nat := bits.toNat >>> 52 % 1 <<< 11
  if field = 0 then
    ⟨fraction, -1074, false⟩
  else
    ⟨1 <<< 52 + fraction, Int.ofNat field - 1075, fraction = 0 ∧ 1 < field⟩

/-- The least natural number that is not below the magnitude. -/
def ceiling (magnitude : Magnitude) : Nat :=
  match magnitude.exponent with
  | .ofNat places => magnitude.mantissa <<< places
  | .negSucc places => (magnitude.mantissa + (1 <<< (places + 1) - 1)) >>> (places + 1)

end Magnitude

end RingLwe
