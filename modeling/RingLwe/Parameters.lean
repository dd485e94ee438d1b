import RingLwe.Failure
import RingLwe.Modular.Prime
import RingLwe.Random.Gaussian

/-!
# Ring parameters

A parameter set fixes the ring dimension, the plaintext modulus, the width of
the hybrid modulus, whether modulus switching is prepared, and the standard
deviation of secrets and noise.  The width also fixes the sizes of the primes
of the residue number system.

`Parameters.validate` checks what does not depend on the chosen primes.  With
modulus switching the plaintext modulus is at most half of the hybrid modulus,
so that each plaintext step covers at least two words.
-/

set_option autoImplicit false

namespace RingLwe

namespace Width

/-- The bit sizes of the primes of a width: runs of one size, with their lengths. -/
def primeRuns : Width → List (Nat × Nat)
  | bits32 => [(33, 1)]
  | bits64 => [(32, 1), (33, 2)]

/-- The bit sizes of the primes of a width in order. -/
def primeSizes (width : Width) : List Nat :=
  width.primeRuns.flatMap fun (size, count) => List.replicate count size

/-- The ring dimension of the preset of a width. -/
def presetDimension : Width → Nat
  | bits32 => 2048
  | bits64 => 4096

/-- The plaintext modulus of the preset of a width. -/
def presetPlaintextModulus : Width → UInt64
  | bits32 => 128
  | bits64 => 32768

/-- The width of a number of bits, or the failure that it is not supported. -/
def ofBits (bits : Nat) : Except Failure Width :=
  match ofBits? bits with
  | some width => .ok width
  | none => .error (.unsupportedModulus bits)

end Width

/-- The standard deviation of parameters that do not give one. -/
def defaultSigma : Float :=
  3.2

/-- A parameter set. -/
structure Parameters where
  ringDimension : Nat
  plaintextModulus : UInt64
  width : Width
  /-- Whether modulus switching is prepared. -/
  switching : Bool
  sigma : Float

namespace Parameters

/-- The smallest supported ring dimension. -/
def leastDimension : Nat :=
  1024

/-- The largest supported ring dimension. -/
def greatestDimension : Nat :=
  32768

/-- The preset of a width. -/
def preset (width : Width) : Parameters where
  ringDimension := width.presetDimension
  plaintextModulus := width.presetPlaintextModulus
  width := width
  switching := true
  sigma := defaultSigma

/-- The preset used when no width is given. -/
def default : Parameters :=
  preset .bits32

/-- Whether a ring dimension is supported. -/
def supportedDimension (dimension : Nat) : Bool :=
  isPowerOfTwo dimension && leastDimension ≤ dimension && dimension ≤ greatestDimension

/-- The parameters, if they are usable as far as that does not depend on the primes. -/
def validate (parameters : Parameters) : Except Failure Parameters :=
  let modulus := parameters.plaintextModulus
  if !supportedDimension parameters.ringDimension then
    .error (.invalidParameters
      (.ringDimension parameters.ringDimension leastDimension greatestDimension))
  else if modulus < 2 then
    .error (.invalidParameters (.plaintextModulusTooSmall modulus))
  else if parameters.switching && parameters.width.modulus / 2 < modulus.toNat then
    .error (.invalidParameters (.plaintextModulusTooLarge modulus parameters.width))
  else if !Gaussian.usable parameters.sigma then
    .error (.invalidParameters (.deviation parameters.sigma))
  else
    .ok parameters

/-- The valid parameters with the given numbers and the default deviation. -/
def ofNumbers (plaintextModulus : UInt64) (ringDimension bits : Nat) (switching : Bool) :
    Except Failure Parameters := do
  validate ⟨ringDimension, plaintextModulus, ← Width.ofBits bits, switching, defaultSigma⟩

end Parameters

end RingLwe
