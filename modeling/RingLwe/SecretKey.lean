import RingLwe.Context
import RingLwe.ResiduePoly
import RingLwe.Wire.Reader
import RingLwe.Wire.Storage

/-!
# Secret keys

A secret is a polynomial with small coefficients.  It is kept in both domains:
transformed for encryption and decryption, in coefficients for extraction.

The written form holds the transformed residues; loading recovers the
coefficients.  Extraction reads each coefficient as a small integer on which
all primes agree, and refuses the key at the first coefficient that is none.
-/

set_option autoImplicit false

namespace RingLwe

/-- A secret key of a context. -/
structure SecretKey where
  context : Context
  transformed : ResiduePoly
  coefficients : ResiduePoly

namespace SecretKey

/-! ## Construction -/

/-- The key of a polynomial in the coefficient domain. -/
def ofCoefficients (context : Context) (poly : ResiduePoly) : SecretKey :=
  ⟨context, poly.toTransformed context.transform, poly⟩

/-- The key of a polynomial in the transformed domain. -/
def ofTransformed (context : Context) (poly : ResiduePoly) : SecretKey :=
  ⟨context, poly, poly.toCoefficient context.transform⟩

/-- The key with the given integer coefficients. -/
def ofIntegers (context : Context) (coefficients : List Int) : SecretKey :=
  ofCoefficients context (ResiduePoly.ofIntegers coefficients context.moduli)

/-- Draws a key. -/
def generate (context : Context) : Draw SecretKey := do
  return ofIntegers context (← context.gaussian.samples context.dimension)

/-! ## Views -/

variable (key : SecretKey)

/-- The modulus of the first prime. -/
def firstModulus : UInt64 :=
  key.context.moduli.headD 0

/-- The coefficients as integers, read from the first prime. -/
def signedCoefficients : List Int :=
  (key.coefficients.component 0).map (Residue.toInt · key.firstModulus)

/-! ## The written form -/

/-- The length of the written form. -/
def size : Nat :=
  Wire.objectLength .secretKey key.transformed.residues.length

/-- The written form of a key. -/
def encode : List UInt8 :=
  Wire.header .secretKey ++ Bytes.ofWord64 key.context.fingerprint ++
    Bytes.ofNat 4 key.context.dimension ++ Bytes.ofNat 4 key.context.primeCount ++
    Wire.wordBytes key.transformed.residues

/-- Stores a key in a buffer. -/
def store (buffer : List UInt8) : Except Failure Wire.Stored :=
  Wire.storeObject key.size key.encode buffer

/-- The bytes of a key. -/
def toBytes : List UInt8 :=
  Wire.filled key.size key.store

/-- Reads the residues of a written key of a context. -/
def decode (context : Context) (bytes : List UInt8) : Except DecodeFault (List UInt64) := do
  let rest ← Wire.readHeader .secretKey bytes
  let (fingerprint, rest) ← Wire.readNumber 8 rest
  Wire.ensure (fingerprint == context.fingerprint.toNat)
    (.fingerprint fingerprint.toUInt64 context.fingerprint)
  let (dimension, rest) ← Wire.readNumber 4 rest
  let (count, rest) ← Wire.readNumber 4 rest
  Wire.ensure (dimension == context.dimension && count == context.primeCount)
    (.keyShape dimension count context.dimension context.primeCount)
  let (words, rest) ← Wire.readWords (dimension * count) rest
  Wire.finish rest
  Wire.checkReduced dimension 0 context.moduli words
  return words

/-- Loads a written key of a context. -/
def load (context : Context) (bytes : List UInt8) : Except Failure SecretKey :=
  match decode context bytes with
  | .ok words => .ok (ofTransformed context ⟨words, context.dimension, .transformed⟩)
  | .error fault => .error (.undecodable fault)

/-- Loads a written key of the context of a key. -/
def reload (bytes : List UInt8) : Except Failure SecretKey :=
  load key.context bytes

/-! ## Extraction -/

/-- The largest absolute value of a coefficient that extraction accepts. -/
def normBound : Nat :=
  1 <<< 20

/-- The small integer with the given residues, if there is one. -/
def smallInteger? : (moduli residues : List UInt64) → Option Int
  | q :: moduli, residue :: residues =>
    let integer := Residue.toInt residue q
    if integer.natAbs ≤ normBound &&
        (moduli.zip residues).all fun (q, residue) => residue == Residue.ofInt integer q then
      some integer
    else
      none
  | _, _ => none

/-- The coefficients as integers, if all of them are small. -/
def smallCoefficients : Except Failure (List Int) :=
  let runs := components key.context.dimension key.context.primeCount key.coefficients.residues
  (columns key.context.dimension runs).zipIdx.mapM fun (residues, index) =>
    match smallInteger? key.context.moduli residues with
    | some integer => .ok integer
    | none => .error (.secretNotSmall index)

/-- The secret as words modulo the hybrid modulus, for a context with switching tables. -/
def extract (width : Width) : Except Failure (List (LweWord width)) := do
  let _ ← key.context.switchTables width
  return (← key.smallCoefficients).map (BitVec.ofInt width.bits)

end SecretKey

end RingLwe
