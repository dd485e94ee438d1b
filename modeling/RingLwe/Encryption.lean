import RingLwe.Ciphertext
import RingLwe.Plaintext
import RingLwe.PublicPoly
import RingLwe.SecretKey

/-!
# Encryption and decryption

Encryption has two phases.  The first computes `a · s + e` with fresh noise and
does not need the plaintext; the second adds the scaled message to every
coefficient.  One first phase serves any number of messages.

Decryption subtracts `a · s` and descales what is left.  Both refuse a public
polynomial of another context and one that has been transposed.
-/

set_option autoImplicit false

namespace RingLwe.SecretKey

variable (key : SecretKey)

/-- Checks that a public polynomial belongs to the context and has not been transposed. -/
def checkPublic (a : PublicPoly) : Except Failure Unit := do
  key.context.checkFingerprint a.context.fingerprint
  if a.transposed then .error .transposed else .ok ()

/-- The product of a public polynomial with the secret, in the coefficient domain. -/
def mulPublic (a : PublicPoly) : ResiduePoly :=
  (a.poly.mul key.context.transform key.transformed).toCoefficient key.context.transform

/-! ## Encryption -/

/-- The first phase with the given noise. -/
def preprocessWith (a : PublicPoly) (noise : List Int) : PartialCiphertext :=
  let moduli := key.context.moduli
  ⟨key.context, (key.mulPublic a).add moduli (ResiduePoly.ofIntegers noise moduli)⟩

/-- The first phase with noise drawn from a stream. -/
def preprocess (a : PublicPoly) : Except Failure (Draw PartialCiphertext) := do
  key.checkPublic a
  return do
    let noise ← key.context.gaussian.samples key.context.dimension
    return key.preprocessWith a noise

/-- The sum of the residues modulo one prime with the scaled values of a message. -/
def addScaledRun (context : Context) (values : List UInt64) (q delta : UInt64)
    (residues : List UInt64) : List UInt64 :=
  List.zipWith (fun residue value => Residue.add residue (context.scaleResidue q delta value) q)
    residues values

/-- The sum of a polynomial with the scaled values of a message. -/
def addScaled (context : Context) (poly : ResiduePoly) (values : List UInt64) : ResiduePoly :=
  let runs := components poly.size context.primeCount poly.residues
  { poly with
    residues :=
      (List.zipWith (fun (q, delta) run => addScaledRun context values q delta run)
        (context.moduli.zip context.delta) runs).flatten }

/-- The second phase: adds the scaled plaintext to a partial ciphertext. -/
def finalize (plaintext : Plaintext) (part : PartialCiphertext) : Except Failure Ciphertext := do
  key.context.checkFingerprint plaintext.context.fingerprint
  key.context.checkFingerprint part.context.fingerprint
  return Ciphertext.ofPoly key.context (addScaled key.context part.poly plaintext.values)

/-- Encrypts values on top of a partial ciphertext.  The ciphertext has as many coefficients as
there are values. -/
def encryptPreprocessed (values : List UInt64) (part : PartialCiphertext) :
    Except Failure Ciphertext := do
  let plaintext ← Plaintext.ofValues key.context values
  let ciphertext ← key.finalize plaintext part
  if values.length < key.context.dimension then
    ciphertext.truncate values.length
  else
    return ciphertext

/-- Both phases at once. -/
def encrypt (plaintext : Plaintext) (a : PublicPoly) :
    Except Failure (Draw (Except Failure Ciphertext)) := do
  let draw ← key.preprocess a
  return do
    let part ← draw
    return key.finalize plaintext part

/-! ## Decryption -/

/-- The residues of `b - a · s` for each coefficient of a ciphertext. -/
def phases (a : PublicPoly) (ciphertext : Ciphertext) : List (List UInt64) :=
  let context := key.context
  let product := components context.dimension context.primeCount (key.mulPublic a).residues
  let runs := components ciphertext.count context.primeCount ciphertext.residues
  let differences := List.zipWith
    (fun q (pair : List UInt64 × List UInt64) => List.zipWith (Residue.sub · · q) pair.1 pair.2)
    context.moduli (runs.zip product)
  columns ciphertext.count differences

/-- Decrypts the coefficients of a ciphertext. -/
def decrypt (a : PublicPoly) (ciphertext : Ciphertext) : Except Failure (List UInt64) := do
  key.checkPublic a
  key.context.checkFingerprint ciphertext.context.fingerprint
  return (key.phases a ciphertext).map key.context.descale

end RingLwe.SecretKey
