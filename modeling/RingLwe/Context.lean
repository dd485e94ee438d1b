import RingLwe.Parameters
import RingLwe.Random.Blake3
import RingLwe.Switching.Tables
import RingLwe.Transform

/-!
# Ring contexts

A context holds what one parameter set prepares once: the primes with their
residue number system and transform, the Gaussian, the constants by which
plaintexts are scaled, and the switching tables if they are wanted.  Keys,
ciphertexts and public polynomials carry their context; contexts of equal
fingerprint have the same ring.

Scaling takes a plaintext value `m` to the residues of `q · m / p`, rounded,
computed as `⌊q / p⌋ · m` plus the rounded `(q mod p) · m / p`.  Descaling takes
the residues of `x` to `p · x / q`, rounded, modulo `p`.
-/

set_option autoImplicit false

namespace RingLwe

/-- A parameter set with its precomputed tables. -/
structure Context where
  parameters : Parameters
  basis : Basis
  transform : Transform
  gaussian : Gaussian
  /-- The fingerprint of ring dimension, plaintext modulus and primes. -/
  fingerprint : UInt64
  /-- The residues of `⌊q / p⌋`. -/
  delta : List UInt64
  /-- The remainder of `q` by `p`. -/
  remainder : Nat
  switching : Option SwitchTables

namespace Context

/-! ## Construction -/

/-- The primes of a width for a ring dimension: for each run of equal sizes, the largest ones. -/
def selectModuli (width : Width) (dimension : Nat) : Except Failure (List UInt64) := do
  let runs ← width.primeRuns.mapM fun (size, count) =>
    match largestPrimes? size count dimension with
    | some primes => Except.ok primes
    | none => .error (.invalidParameters (.noPrimes size dimension))
  return runs.flatten

/-- The text with which the hashed description of a ring starts. -/
def fingerprintLabel : String :=
  "hybrid-rlwe parms"

/-- The first word of the hash of the description of a ring. -/
def fingerprintOf (dimension : Nat) (plaintextModulus : UInt64) (moduli : List UInt64) : UInt64 :=
  let description := fingerprintLabel.toUTF8.toList ++ Bytes.ofNat 8 dimension ++
    Bytes.ofWord64 plaintextModulus ++ moduli.flatMap Bytes.ofWord64
  let hash := Blake3.hash description
  ((hash.getD 1 0).toUInt64 <<< 32) ||| (hash.getD 0 0).toUInt64

/-- The value that must exist, or the fault of its absence. -/
def require {α : Type} (fault : ParameterFault) : Option α → Except Failure α
  | some value => .ok value
  | none => .error (.invalidParameters fault)

/-- The context of a parameter set. -/
def ofParameters (unchecked : Parameters) : Except Failure Context := do
  let parameters ← unchecked.validate
  let dimension := parameters.ringDimension
  let modulus := parameters.plaintextModulus
  let moduli ← selectModuli parameters.width dimension
  let basis ← require .moduliNotCoprime (Basis.ofModuli? moduli)
  if basis.minModulus ≤ modulus then
    .error (.invalidParameters (.plaintextModulusNotBelowPrimes modulus basis.minModulus))
  else
    let transform ← match Transform.ofModuli dimension moduli with
      | .ok transform => Except.ok transform
      | .error breach => .error (.invalidParameters (.noTransform breach))
    let gaussian ← require (.deviation parameters.sigma) (Gaussian.ofSigma? parameters.sigma)
    return {
      parameters, basis, transform, gaussian
      fingerprint := fingerprintOf dimension modulus moduli
      delta := basis.decompose (basis.modulus / modulus.toNat)
      remainder := basis.modulus % modulus.toNat
      switching :=
        if parameters.switching then some (SwitchTables.ofBasis parameters.width basis) else none }

/-- The context of the given numbers with the default deviation. -/
def ofNumbers (plaintextModulus : UInt64) (dimension bits : Nat) (switching : Bool) :
    Except Failure Context := do
  ofParameters (← Parameters.ofNumbers plaintextModulus dimension bits switching)

/-- The checked form of `ofParameters`: no context has a Gaussian whose table fits no buffer. -/
def checkedOfParameters (parameters : Parameters) : Checked (Except Failure Context) :=
  match ofParameters parameters with
  | .ok context => Checked.inBuffer context.gaussian.tableBytes fun _ => .ok context
  | .error failure => .ok (.error failure)

/-! ## Views -/

variable (context : Context)

/-- The ring dimension. -/
def dimension : Nat :=
  context.parameters.ringDimension

/-- The plaintext modulus. -/
def plaintextModulus : UInt64 :=
  context.parameters.plaintextModulus

/-- The width of the hybrid modulus. -/
def width : Width :=
  context.parameters.width

/-- The primes in order. -/
def moduli : List UInt64 :=
  context.basis.moduli

/-- The number of primes. -/
def primeCount : Nat :=
  context.basis.size

/-- Whether another fingerprint is that of the context. -/
def checkFingerprint (fingerprint : UInt64) : Except Failure Unit :=
  if fingerprint = context.fingerprint then .ok () else .error .contextMismatch

/-- The switching tables, if they were prepared and for the given width. -/
def switchTables (width : Width) : Except Failure SwitchTables :=
  match context.switching with
  | none => .error .switchingDisabled
  | some tables =>
    if width = context.width then .ok tables else .error (.widthMismatch context.width width)

/-! ## Scaling -/

/-- What the remainder of `q` by `p` adds to the scaled value of `m`. -/
def scaleCarry (m : UInt64) : UInt64 :=
  let p := context.plaintextModulus.toNat
  ((context.remainder * m.toNat + p / 2) / p).toUInt64

/-- The residue of the scaled value of `m` modulo a prime, from the residue of `⌊q / p⌋`. -/
def scaleResidue (q delta m : UInt64) : UInt64 :=
  Residue.add (Residue.mul delta (m % q) q) (context.scaleCarry m % q) q

/-- The residues of the scaled value of `m`. -/
def scale (m : UInt64) : List UInt64 :=
  List.zipWith (context.scaleResidue · · m) context.moduli context.delta

/-- The plaintext value nearest to the number with the given residues. -/
def descale (residues : List UInt64) : UInt64 :=
  let p := context.plaintextModulus.toNat
  let q := context.basis.modulus
  ((context.basis.compose residues * p + q / 2) / q % p).toUInt64

end Context

end RingLwe
