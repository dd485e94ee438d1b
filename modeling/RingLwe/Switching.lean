import RingLwe.Components
import RingLwe.Context

/-!
# Modulus switching

Values given by their residues switch to words of the hybrid modulus `Q`, for
a context that has switching tables of the width.  Words are also rounded to
plaintext values, `b ↦ ⌊(b · p + Q / 2) / Q⌋ mod p`, and plaintext values lifted
to words, `b ↦ ⌊(b · Q + ⌊p / 2⌋) / p⌋` modulo `Q`.
-/

set_option autoImplicit false

namespace RingLwe.Switching

/-- Switches the first `samples` values of runs of residues, one run for each prime. -/
def switchRuns (tables : SwitchTables) (width : Width) (samples : Nat) (runs : List (List UInt64)) :
    List (LweWord width) :=
  (columns samples runs).map (tables.switch width)

/-- Switches the first `samples` values of a component-major list with the given stride. -/
def switch (context : Context) (width : Width) (values : List UInt64) (stride samples : Nat) :
    Except Failure (List (LweWord width)) := do
  let tables ← context.switchTables width
  let expected := stride * context.primeCount
  if UInt64.size ≤ expected then
    .error (.invalidParameters (.strideOverflow stride))
  else if values.length ≠ expected then
    .error (.dimensionMismatch expected values.length)
  else if stride < samples then
    .error (.dimensionMismatch stride samples)
  else
    return switchRuns tables width samples (components stride context.primeCount values)

/-- The plaintext value nearest to a word. -/
def roundWord {width : Width} (p : Nat) (word : LweWord width) : LweWord width :=
  LweWord.ofNat width ((word.toNat * p + width.modulus / 2) / width.modulus % p)

/-- The word nearest to a plaintext value. -/
def liftWord {width : Width} (p : Nat) (word : LweWord width) : LweWord width :=
  LweWord.ofNat width ((word.toNat * width.modulus + p / 2) / p)

/-- Rounds words to plaintext values. -/
def round (context : Context) {width : Width} (words : List (LweWord width)) :
    Except Failure (List (LweWord width)) := do
  let _ ← context.switchTables width
  return words.map (roundWord context.plaintextModulus.toNat)

/-- Lifts plaintext values to words. -/
def lift (context : Context) {width : Width} (words : List (LweWord width)) :
    Except Failure (List (LweWord width)) := do
  let _ ← context.switchTables width
  return words.map (liftWord context.plaintextModulus.toNat)

end RingLwe.Switching
