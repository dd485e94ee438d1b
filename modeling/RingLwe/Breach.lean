/-!
# Calls outside an operation's domain

Most operations of this library are total.  A few make no sense on some
arguments: a division by the modulus zero, a draw from an empty range, a
transform of a buffer of the wrong length.  Their checked forms answer with a
`Breach`, which names the condition that the caller failed to keep.  A breach
is not an error of the data: errors of the data are values of `Failure`.
-/

set_option autoImplicit false

namespace RingLwe

/-- A condition that a caller failed to keep. -/
inductive Breach where
  /-- An operation divided by the modulus zero. -/
  | zeroModulus
  /-- A value was to be drawn from a range with no elements. -/
  | emptyRange
  /-- A buffer does not have the length that its transform or basis asks for. -/
  | wrongLength
  /-- A buffer would be too long to exist. -/
  | tooLong
  /-- A component, coefficient or row was named that does not exist. -/
  | outOfRange
  /-- A polynomial is not in the domain that the operation works on. -/
  | wrongDomain
  /-- The size of a transform is not a power of two. -/
  | sizeNotPowerOfTwo
  /-- A transform was asked for without any modulus. -/
  | noModulus
  /-- A modulus is not one more than a multiple of twice the size of the transform. -/
  | modulusNotCongruent
  /-- A modulus has no root of unity of the order that the transform needs. -/
  | noRootOfUnity
deriving DecidableEq, Repr, Inhabited

/-- An answer of the checked form of an operation. -/
abbrev Checked (α : Type) : Type :=
  Except Breach α

/-- The answer, unless the condition fails. -/
def Checked.unless {α : Type} (condition : Bool) (breach : Breach) (answer : α) : Checked α :=
  if condition then .error breach else .ok answer

/-- The number of bytes from which on a buffer is too long to exist. -/
def bufferLimit : Nat :=
  UInt64.size / 2

/-- The answer that needs a buffer of the given number of bytes, unless no buffer is that long. -/
def Checked.inBuffer {α : Type} (bytes : Nat) (answer : Unit → α) : Checked α :=
  if bytes < bufferLimit then .ok (answer ()) else .error .tooLong

end RingLwe
