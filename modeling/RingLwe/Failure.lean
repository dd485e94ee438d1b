import RingLwe.Breach
import RingLwe.Decimal.Layout
import RingLwe.Wire.Kind
import RingLwe.Word.Lwe

/-!
# Errors of the data

A failure names the cause for which an operation refuses its data.  Unusable
parameters and undecodable bytes have causes of their own.  The texts of all
causes are in `ParameterFault.message`, `DecodeFault.message` and
`Failure.message`.
-/

set_option autoImplicit false

namespace RingLwe

/-! ## Causes -/

/-- Why parameters, or numbers that must go together, are unusable. -/
inductive ParameterFault where
  | ringDimension (dimension least greatest : Nat)
  | plaintextModulusTooSmall (modulus : UInt64)
  | plaintextModulusTooLarge (modulus : UInt64) (width : Width)
  | plaintextModulusNotBelowPrimes (modulus smallest : UInt64)
  | deviation (sigma : Float)
  | noPrimes (bits dimension : Nat)
  | moduliNotCoprime
  /-- No transform exists for the chosen moduli. -/
  | noTransform (breach : Breach)
  | strideOverflow (stride : Nat)
  | matrixOverflow (rows columns : Nat)
  | accumulatorHeadroom (seeds headroom : Nat)

/-- Why bytes are not an object of the expected kind. -/
inductive DecodeFault where
  | shorterThanHeader (length : Nat)
  | badMagic (found : List UInt8)
  | unsupportedVersion (found : UInt8)
  | wrongKind (expected found : Wire.Kind)
  | unknownKind (found : UInt8)
  | unsupportedCompression (found : UInt8)
  /-- The bytes end inside the header or a field. -/
  | truncated
  | fewerWordBytes (needed found : Nat)
  | trailingBytes (count : Nat)
  | fingerprint (found expected : UInt64)
  | ringDimension (found expected : Nat)
  | moduliCount (found expected : Nat)
  | coefficientCount (found dimension : Nat)
  | keyShape (dimension moduli expectedDimension expectedModuli : Nat)
  | residueNotReduced (position prime : Nat)
deriving DecidableEq, Repr

/-- Why an operation refuses its data. -/
inductive Failure where
  | unsupportedModulus (bits : Nat)
  | invalidParameters (fault : ParameterFault)
  | switchingDisabled
  | widthMismatch (expected found : Width)
  | contextMismatch
  | dimensionMismatch (expected found : Nat)
  | plaintextTooLong (length dimension : Nat)
  | secretNotSmall (index : Nat)
  | truncationOutOfRange (requested available : Nat)
  | bufferTooSmall (needed found : Nat)
  | undecodable (fault : DecodeFault)
  | transposed

/-! ## Texts -/

/-- How floats are written in messages: positionally, whole numbers without a point, and of two
equally near decimals the one of the larger magnitude. -/
def messageLayout : Decimal.Layout where
  tie := .awayFromZero
  positional := fun _ => true
  wholeSuffix := ""
  notANumber := "NaN"
  positiveInfinity := "inf"
  negativeInfinity := "-inf"

/-- A number in hexadecimal with at least the given number of digits. -/
def hexadecimal (digits number : Nat) : String :=
  let shortest := Nat.toDigits 16 number
  String.ofList (List.replicate (digits - shortest.length) '0' ++ shortest)

/-- The text of a fingerprint. -/
def fingerprintText (fingerprint : UInt64) : String :=
  hexadecimal 16 fingerprint.toNat

/-- The text of a list of bytes. -/
def bytesText (bytes : List UInt8) : String :=
  "[" ++ String.intercalate ", " (bytes.map fun byte => hexadecimal 2 byte.toNat) ++ "]"

/-- The text of a fault of the parameters. -/
def ParameterFault.message : ParameterFault → String
  | ringDimension dimension least greatest =>
    s!"ring_dim must be a power of two in [{least}, {greatest}], got {dimension}"
  | plaintextModulusTooSmall modulus => s!"plaintext modulus must be at least 2, got {modulus}"
  | plaintextModulusTooLarge modulus width =>
    s!"plaintext modulus {modulus} is too large for modulus switching to 2^{width.bits}"
  | plaintextModulusNotBelowPrimes modulus smallest =>
    s!"plaintext modulus {modulus} must be smaller than every RNS prime (min {smallest})"
  | deviation sigma => "sigma must be positive, got " ++ messageLayout.write sigma
  | noPrimes bits dimension => s!"no {bits}-bit NTT primes for n = {dimension}"
  | moduliNotCoprime => "RNS moduli are not coprime"
  | noTransform _ => "RNS moduli have no transform"
  | strideOverflow stride => s!"stride {stride} overflows"
  | matrixOverflow rows columns => s!"{rows} x {columns} matrix overflows"
  | accumulatorHeadroom seeds headroom =>
    s!"{seeds} seeds exceed the accumulator headroom of {headroom}"

/-- The text of a fault of the bytes. -/
def DecodeFault.message : DecodeFault → String
  | shorterThanHeader length => s!"input shorter than header ({length} bytes)"
  | badMagic found => "bad magic " ++ bytesText found
  | unsupportedVersion found => s!"unsupported version {found}"
  | wrongKind expected found => s!"expected {expected.name}, found {found.name}"
  | unknownKind found => s!"unknown object kind {found}"
  | unsupportedCompression found => s!"unsupported compression {found}"
  | truncated => "truncated input: failed to fill whole buffer"
  | fewerWordBytes needed found => s!"expected {needed} bytes of data, found {found}"
  | trailingBytes count => s!"{count} trailing bytes"
  | fingerprint found expected =>
    "parms_id " ++ fingerprintText found ++ " does not match context " ++ fingerprintText expected
  | ringDimension found expected => s!"ring dimension {found} != {expected}"
  | moduliCount found expected => s!"moduli count {found} != {expected}"
  | coefficientCount found dimension =>
    s!"coefficient count {found} exceeds ring dimension {dimension}"
  | keyShape dimension moduli expectedDimension expectedModuli =>
    s!"key shape {dimension}x{moduli} does not match context {expectedDimension}x{expectedModuli}"
  | residueNotReduced position prime => s!"residue {position} of prime {prime} is not reduced"

/-- The text of a failure. -/
def Failure.message : Failure → String
  | unsupportedModulus bits =>
    s!"unsupported ciphertext modulus: log_q = {bits} (expected 32 or 64)"
  | invalidParameters fault => "invalid parameters: " ++ fault.message
  | switchingDisabled => "modulus switching is not enabled for this context"
  | widthMismatch expected found =>
    s!"word width mismatch: context uses {expected.bits}-bit words, got {found.bits}-bit"
  | contextMismatch => "object belongs to a different context"
  | dimensionMismatch expected found => s!"dimension mismatch: expected {expected}, got {found}"
  | plaintextTooLong length dimension =>
    s!"plaintext has {length} values but the ring holds {dimension}"
  | secretNotSmall index => s!"secret key coefficient {index} is not a small signed value"
  | truncationOutOfRange requested available =>
    s!"cannot truncate to {requested} coefficients, only {available} available"
  | bufferTooSmall needed found => s!"buffer too small: need {needed} bytes, got {found}"
  | undecodable fault => "deserialization failed: " ++ fault.message
  | transposed => "public polynomial is transposed"

end RingLwe
