import RingLwe.Word.Wide

/-!
# Montgomery arithmetic

Multiplication modulo an odd word `q` without division.  The Montgomery form
of a residue `a` is `a · 2^64` modulo `q`; the Montgomery product of two words
is their product divided by `2^64` modulo `q`, so the product of two forms is
the form of the product.

The constants are `-q⁻¹` modulo `2^64`, which makes the low word of
`a b + (a b · (-q⁻¹) mod 2^64) q` vanish, and `2^128` modulo `q`, by which a
multiplication enters the form.  A multiplication by one leaves it.
-/

set_option autoImplicit false

namespace RingLwe

/-- A modulus with its constants for Montgomery multiplication. -/
structure Montgomery where
  modulus : UInt64
  /-- The negative of the inverse of the modulus modulo `2^64`. -/
  negInverse : UInt64
  /-- The square of the radix `2^64` modulo the modulus. -/
  radixSquared : UInt64
deriving DecidableEq, Repr

namespace Montgomery

/-- Settles one more bit of the inverse of `q` modulo a power of two. -/
def inverseBit (q inverse : UInt64) (position : Nat) : UInt64 :=
  inverse ||| ((inverse * q) &&& (1 <<< position.toUInt64))

/-- The negative of the inverse of an odd word modulo `2^64`, found bit by bit. -/
def negInverseOf (q : UInt64) : UInt64 :=
  -((List.range' 1 63).foldl (inverseBit q) 1)

/-- The square of the radix modulo a word. -/
def radixSquaredOf (q : UInt64) : UInt64 :=
  let radix := UInt64.size % q.toNat
  (radix * radix % q.toNat).toUInt64

/-- The constants of a modulus. -/
def ofModulus (q : UInt64) : Montgomery where
  modulus := q
  negInverse := negInverseOf q
  radixSquared := radixSquaredOf q

variable (arithmetic : Montgomery)

/-- The product of two words divided by the radix, with at most one subtraction of the modulus. -/
@[inline]
def mul (left right : UInt64) : UInt64 :=
  let product := Wide.mul left right
  let quotient := (product.add (Wide.mul (product.low * arithmetic.negInverse) arithmetic.modulus)).high
  if arithmetic.modulus ≤ quotient then quotient - arithmetic.modulus else quotient

/-- The Montgomery form of a word. -/
@[inline]
def enter (word : UInt64) : UInt64 :=
  arithmetic.mul word arithmetic.radixSquared

/-- The residue whose Montgomery form is a word. -/
@[inline]
def leave (word : UInt64) : UInt64 :=
  arithmetic.mul word 1

end Montgomery

end RingLwe
