import RingLwe.Context
import RingLwe.ResiduePoly
import RingLwe.Wire.Reader
import RingLwe.Wire.Storage

/-!
# Ciphertexts

A ciphertext holds the residues of `b = a · s + e + round (q · m / p)` for its
first coefficients, in the component-major layout with the number of
coefficients as stride.  The polynomial `a` is not part of it.

There are two written forms: the full object, with the fingerprint of the
context, and the bare data.  Reading checks the number of primes, that there
are no more coefficients than the ring has, and that every residue is reduced.

Truncation keeps the first coefficients.
-/

set_option autoImplicit false

namespace RingLwe

/-- The part of an encryption that does not depend on the plaintext: `a · s + e` in the coefficient
domain. -/
structure PartialCiphertext where
  context : Context
  poly : ResiduePoly

/-- A ciphertext. -/
structure Ciphertext where
  context : Context
  /-- The number of coefficients. -/
  count : Nat
  /-- The residues; the residue of coefficient `i` modulo prime `j` is at `j · count + i`. -/
  residues : List UInt64

namespace Ciphertext

/-- The ciphertext of all coefficients of a polynomial. -/
def ofPoly (context : Context) (poly : ResiduePoly) : Ciphertext :=
  ⟨context, poly.size, poly.residues⟩

/-! ## Sizes -/

/-- The length of the written data of the given number of coefficients. -/
def dataSizeFor (context : Context) (count : Nat) : Nat :=
  Wire.objectLength .ciphertextData (count * context.primeCount)

variable (ciphertext : Ciphertext)

/-- The length of the full object. -/
def size : Nat :=
  Wire.objectLength .ciphertext ciphertext.residues.length

/-- The length of the written data. -/
def dataSize : Nat :=
  dataSizeFor ciphertext.context ciphertext.count

/-! ## Writing -/

/-- The full object of a ciphertext. -/
def encode : List UInt8 :=
  Wire.header .ciphertext ++ Bytes.ofWord64 ciphertext.context.fingerprint ++
    Bytes.ofNat 4 ciphertext.context.dimension ++ Bytes.ofNat 4 ciphertext.count ++
    Bytes.ofNat 4 ciphertext.context.primeCount ++ Bytes.ofNat 4 0 ++
    Wire.wordBytes ciphertext.residues

/-- Stores the full object of a ciphertext in a buffer. -/
def store (buffer : List UInt8) : Except Failure Wire.Stored :=
  Wire.storeObject ciphertext.size ciphertext.encode buffer

/-- The bytes of the full object. -/
def toBytes : List UInt8 :=
  Wire.filled ciphertext.size ciphertext.store

/-- The data of the given residues. -/
def encodeData (count primes : Nat) (residues : List UInt64) : List UInt8 :=
  Wire.header .ciphertextData ++ Bytes.ofNat 4 count ++ Bytes.ofNat 4 primes ++
    Wire.wordBytes residues

/-- Stores the data of the given residues in a buffer. -/
def storeResidues (count primes : Nat) (residues : List UInt64) (buffer : List UInt8) :
    Except Failure Wire.Stored :=
  Wire.storeObject (Wire.objectLength .ciphertextData residues.length)
    (encodeData count primes residues) buffer

/-- Stores the data of a ciphertext in a buffer. -/
def storeData (buffer : List UInt8) : Except Failure Wire.Stored :=
  storeResidues ciphertext.count ciphertext.context.primeCount ciphertext.residues buffer

/-- The bytes of the data. -/
def dataBytes : List UInt8 :=
  Wire.filled ciphertext.dataSize ciphertext.storeData

/-! ## Reading -/

/-- Reads the residues of the given number of coefficients and primes. -/
def decodeBody (context : Context) (count primes : Nat) (bytes : List UInt8) :
    Except DecodeFault (List UInt64 × List UInt8) := do
  Wire.ensure (primes == context.primeCount) (.moduliCount primes context.primeCount)
  Wire.ensure (count ≤ context.dimension) (.coefficientCount count context.dimension)
  let (words, rest) ← Wire.readWords (count * primes) bytes
  Wire.checkReduced count 0 context.moduli words
  return (words, rest)

/-- Reads a full object: its number of coefficients and its residues. -/
def decode (context : Context) (bytes : List UInt8) : Except DecodeFault (Nat × List UInt64) := do
  let rest ← Wire.readHeader .ciphertext bytes
  let (fingerprint, rest) ← Wire.readNumber 8 rest
  Wire.ensure (fingerprint == context.fingerprint.toNat)
    (.fingerprint fingerprint.toUInt64 context.fingerprint)
  let (dimension, rest) ← Wire.readNumber 4 rest
  Wire.ensure (dimension == context.dimension) (.ringDimension dimension context.dimension)
  let (count, rest) ← Wire.readNumber 4 rest
  let (primes, rest) ← Wire.readNumber 4 rest
  let (_, rest) ← Wire.readNumber 4 rest
  let (words, rest) ← decodeBody context count primes rest
  Wire.finish rest
  return (count, words)

/-- Reads bare data: its number of coefficients and its residues. -/
def decodeData (context : Context) (bytes : List UInt8) :
    Except DecodeFault (Nat × List UInt64) := do
  let rest ← Wire.readHeader .ciphertextData bytes
  let (count, rest) ← Wire.readNumber 4 rest
  let (primes, rest) ← Wire.readNumber 4 rest
  let (words, rest) ← decodeBody context count primes rest
  Wire.finish rest
  return (count, words)

/-- The ciphertext of a decoded number of coefficients with their residues. -/
def ofDecoded (context : Context) : Except DecodeFault (Nat × List UInt64) → Except Failure Ciphertext
  | .ok (count, words) => .ok ⟨context, count, words⟩
  | .error fault => .error (.undecodable fault)

/-- Loads a full object. -/
def load (context : Context) (bytes : List UInt8) : Except Failure Ciphertext :=
  ofDecoded context (decode context bytes)

/-- Loads bare data. -/
def loadData (context : Context) (bytes : List UInt8) : Except Failure Ciphertext :=
  ofDecoded context (decodeData context bytes)

/-! ## Truncation -/

/-- The ciphertext of the first coefficients. -/
def truncate (count : Nat) : Except Failure Ciphertext :=
  if ciphertext.count < count then
    .error (.truncationOutOfRange count ciphertext.count)
  else
    let runs := components ciphertext.count ciphertext.context.primeCount ciphertext.residues
    .ok { ciphertext with count, residues := runs.flatMap (·.take count) }

end Ciphertext

end RingLwe
