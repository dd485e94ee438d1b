import RingLwe.Components
import RingLwe.Modular.Prime
import RingLwe.Transform.Network
import RingLwe.Transform.Root
import RingLwe.Transform.Twiddle

/-!
# The negacyclic transform

A transform turns polynomials modulo `X^n + 1`, with residues for several
primes, into their values at the odd powers of a root of `-1`, where
multiplication is pointwise.  It is a list of channels, one for each prime,
and works on component-major buffers.

Values in the transformed domain are in Montgomery form.  Entering is part of
the forward transform, leaving is part of the inverse.  The conversion is
linear, so sums of transformed values may be taken before the inverse; the
pointwise products may even be added up without reduction, as long as
`reduce` runs before the inverse and the sums fit a word.

The checked forms refuse buffers of the wrong length.
-/

set_option autoImplicit false

namespace RingLwe

/-! ## One prime -/

/-- The tables of a transform for one prime. -/
structure Channel where
  /-- The prime and its Montgomery constants. -/
  arithmetic : Montgomery
  /-- The root of `-1` whose odd powers are the points of evaluation. -/
  root : UInt64
  /-- The powers of the root, in bit-reversed order and Montgomery form. -/
  twiddles : Array UInt64
  /-- The powers of the inverse of the root, in bit-reversed order and Montgomery form. -/
  inverseTwiddles : Array UInt64
  /-- The inverse of the size of the transform, in Montgomery form. -/
  sizeInverse : UInt64
deriving DecidableEq, Repr

namespace Channel

/-- The modulus of a channel. -/
def modulus (channel : Channel) : UInt64 :=
  channel.arithmetic.modulus

/-- The inverse of a residue modulo a prime `q`, as its power with exponent `q - 2`. -/
def fermatInverse (residue q : UInt64) : UInt64 :=
  Residue.powAboveOne residue (q - 2) q

/-- The channel of size `2^depth` for a modulus and a root of `-1`. -/
def ofRoot (depth : Nat) (q root : UInt64) : Channel :=
  let arithmetic := Montgomery.ofModulus q
  { arithmetic
    root
    twiddles := Twiddle.table arithmetic depth (arithmetic.enter root)
    inverseTwiddles := Twiddle.table arithmetic depth (arithmetic.enter (fermatInverse root q))
    sizeInverse := arithmetic.enter (fermatInverse (1 <<< depth : Nat).toUInt64 q) }

/-- The channel of size `2^depth` for a modulus. -/
def ofModulus (depth : Nat) (q : UInt64) : Checked Channel :=
  if q.toNat % (2 * 1 <<< depth) = 1 then
    match Root.primitive? (2 * 1 <<< depth : Nat).toUInt64 q with
    | some root => .ok (ofRoot depth q root)
    | none => .error .noRootOfUnity
  else
    .error .modulusNotCongruent

variable (channel : Channel)

/-- The forward transform of `2^depth` residues. -/
def forward (depth : Nat) (residues : List UInt64) : List UInt64 :=
  let arithmetic := channel.arithmetic
  Network.forward (Residue.addReduced · · arithmetic.modulus) (Residue.sub · · arithmetic.modulus)
    arithmetic.mul (channel.twiddles.getD · 0) depth 1 (residues.map arithmetic.enter)

/-- The inverse transform of `2^depth` residues. -/
def inverse (depth : Nat) (residues : List UInt64) : List UInt64 :=
  let arithmetic := channel.arithmetic
  let values := Network.inverse (Residue.addReduced · · arithmetic.modulus)
    (Residue.sub · · arithmetic.modulus) arithmetic.mul (channel.inverseTwiddles.getD · 0) depth 1
    residues
  values.map fun value => arithmetic.leave (arithmetic.mul value channel.sizeInverse)

/-- The products of transformed values. -/
def pointwise (left right : List UInt64) : List UInt64 :=
  List.zipWith channel.arithmetic.mul left right

end Channel

/-! ## All primes -/

/-- A transform of size `2^depth`, with a channel for each prime. -/
structure Transform where
  depth : Nat
  channels : List Channel
deriving DecidableEq, Repr

namespace Transform

/-- The transform of size `n` for a list of moduli. -/
def ofModuli (n : Nat) (moduli : List UInt64) : Checked Transform :=
  if !isPowerOfTwo n then
    .error .sizeNotPowerOfTwo
  else if moduli.isEmpty then
    .error .noModulus
  else
    (moduli.mapM (Channel.ofModulus n.log2)).map (Transform.mk n.log2)

variable (transform : Transform)

/-- The size of the transform: the number of coefficients of a polynomial. -/
def size : Nat :=
  1 <<< transform.depth

/-- The number of primes. -/
def count : Nat :=
  transform.channels.length

/-- The primes in order. -/
def moduli : List UInt64 :=
  transform.channels.map Channel.modulus

/-- The length of a buffer with residues for every prime. -/
def bufferLength : Nat :=
  transform.size * transform.count

/-- Applies an operation of the channels to the runs of a buffer. -/
def onComponents (operation : Channel → List UInt64 → List UInt64) (buffer : List UInt64) :
    List UInt64 :=
  (List.zipWith operation transform.channels
    (components transform.size transform.count buffer)).flatten

/-- The forward transform of a buffer. -/
def forward (buffer : List UInt64) : List UInt64 :=
  transform.onComponents (·.forward transform.depth) buffer

/-- The inverse transform of a buffer. -/
def inverse (buffer : List UInt64) : List UInt64 :=
  transform.onComponents (·.inverse transform.depth) buffer

/-- The pointwise product of two transformed buffers. -/
def pointwise (left right : List UInt64) : List UInt64 :=
  (List.zipWith (fun channel pair => channel.pointwise pair.1 pair.2) transform.channels
    ((components transform.size transform.count left).zip
      (components transform.size transform.count right))).flatten

/-- Adds the pointwise product of two transformed buffers to a buffer, without reduction. -/
def accumulate (sums left right : List UInt64) : List UInt64 :=
  List.zipWith (· + ·) sums (transform.pointwise left right)

/-- Reduces the runs of a buffer modulo the given moduli.  What does not fill a run, or lies beyond
the last modulus, stays as it is. -/
def reduceRuns (size : Nat) : (moduli : List UInt64) → List UInt64 → List UInt64
  | [], rest => rest
  | q :: moduli, rest =>
    if rest.length < size then
      rest
    else
      (rest.take size).map (· % q) ++ reduceRuns size moduli (rest.drop size)

/-- Reduces every residue of a buffer modulo its prime. -/
def reduce (buffer : List UInt64) : List UInt64 :=
  reduceRuns transform.size transform.moduli buffer

/-! ## Checked forms -/

/-- An answer about buffers that must all have the full length. -/
def checked {α : Type} (buffers : List (List UInt64)) (answer : Unit → α) : Checked α :=
  if buffers.all (·.length == transform.bufferLength) then
    .ok (answer ())
  else
    .error .wrongLength

/-- The checked form of `forward`. -/
def checkedForward (buffer : List UInt64) : Checked (List UInt64) :=
  transform.checked [buffer] fun _ => transform.forward buffer

/-- The checked form of `inverse`. -/
def checkedInverse (buffer : List UInt64) : Checked (List UInt64) :=
  transform.checked [buffer] fun _ => transform.inverse buffer

/-- The checked form of `pointwise`, for an output buffer of the given length. -/
def checkedPointwise (left right output : List UInt64) : Checked (List UInt64) :=
  transform.checked [left, right, output] fun _ => transform.pointwise left right

/-- The checked form of `accumulate`. -/
def checkedAccumulate (sums left right : List UInt64) : Checked (List UInt64) :=
  transform.checked [left, right, sums] fun _ => transform.accumulate sums left right

end Transform

end RingLwe
