import RingLwe.Context

/-!
# Plaintexts

A plaintext holds as many values modulo `p` as the ring has coefficients: the
values that were given, reduced, and zeros behind them.
-/

set_option autoImplicit false

namespace RingLwe

/-- A list of values modulo the plaintext modulus, padded with zeros. -/
structure Plaintext where
  context : Context
  values : List UInt64
  /-- The number of values that were given. -/
  length : Nat

namespace Plaintext

/-- The plaintext without values. -/
def empty (context : Context) : Plaintext :=
  ⟨context, List.replicate context.dimension 0, 0⟩

/-- The given values reduced and padded. -/
def padded (context : Context) (values : List UInt64) : List UInt64 :=
  values.map (· % context.plaintextModulus) ++
    List.replicate (context.dimension - values.length) 0

/-- The plaintext of the given values, which must not be more than the ring has coefficients. -/
def ofValues (context : Context) (values : List UInt64) : Except Failure Plaintext :=
  if context.dimension < values.length then
    .error (.plaintextTooLong values.length context.dimension)
  else
    .ok ⟨context, padded context values, values.length⟩

/-- Replaces the values of a plaintext. -/
def set (plaintext : Plaintext) (values : List UInt64) : Except Failure Plaintext :=
  ofValues plaintext.context values

/-- Whether no values were given. -/
def isEmpty (plaintext : Plaintext) : Bool :=
  plaintext.length == 0

end Plaintext

end RingLwe
