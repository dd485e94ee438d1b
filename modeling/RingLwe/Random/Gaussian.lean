import RingLwe.Decimal.Magnitude
import RingLwe.Random.Stream

/-!
# Discrete Gaussian sampling

Secret keys and noise are drawn from the discrete Gaussian over the integers,
cut off at six standard deviations.  A sample `x` is drawn uniformly between
the cuts and accepted with probability `exp(-x² / 2σ²)`.

Whatever the stream holds, a sample is at most the tail cut in absolute value.

The probabilities of acceptance are a table of floats, which a wide Gaussian
makes longer than any buffer.  The checked forms refuse such a table, and as
many samples as no buffer holds.
-/

set_option autoImplicit false

namespace RingLwe

/-- A discrete Gaussian with a finite positive standard deviation. -/
structure Gaussian where
  sigma : Float
  /-- The largest absolute value of a sample. -/
  tailCut : Nat

namespace Gaussian

/-- Whether a float is usable as a standard deviation: finite and positive. -/
def usable (sigma : Float) : Bool :=
  sigma.isFinite && !(sigma ≤ 0.0)

/-- The tail cut of a positive standard deviation: six times the deviation, rounded up, and at most
the largest signed word. -/
def tailCutOf (sigma : Float) : Nat :=
  min (Magnitude.ofBits (sigma * 6.0).toBits).ceiling (UInt64.size / 2 - 1)

/-- The Gaussian of a standard deviation, if it is usable. -/
def ofSigma? (sigma : Float) : Option Gaussian :=
  if usable sigma then some ⟨sigma, tailCutOf sigma⟩ else none

/-- The probability with which a value of the given size is accepted. -/
def acceptance (gaussian : Gaussian) (size : Nat) : Float :=
  Float.exp (-(Float.ofNat (size * size)) / (2.0 * gaussian.sigma * gaussian.sigma))

/-- How often a sample is tried.  If the trials ran out, the sample would settle for zero. -/
def trials : Nat :=
  1 <<< 20

/-- Draws a sample in at most the given number of trials. -/
def sampleFrom (gaussian : Gaussian) : (trials : Nat) → Draw Int
  | 0 => return 0
  | trials + 1 => do
    let value ← Stream.within gaussian.tailCut
    let threshold ← Stream.unitFloat
    if threshold < gaussian.acceptance value.natAbs then
      return value
    else
      sampleFrom gaussian trials

/-- Draws a sample. -/
def sample (gaussian : Gaussian) : Draw Int :=
  gaussian.sampleFrom trials

/-- Draws the given number of samples. -/
def samples (gaussian : Gaussian) (count : Nat) : Draw (List Int) :=
  Stream.times count gaussian.sample

/-! ## Checked forms -/

/-- The number of bytes of the table of probabilities. -/
def tableBytes (gaussian : Gaussian) : Nat :=
  8 * (gaussian.tailCut + 1)

/-- The checked form of `ofSigma?`. -/
def checkedOfSigma? (sigma : Float) : Checked (Option Gaussian) :=
  match ofSigma? sigma with
  | some gaussian => Checked.inBuffer gaussian.tableBytes fun _ => some gaussian
  | none => .ok none

/-- The checked form of `samples`. -/
def checkedSamples (gaussian : Gaussian) (count : Nat) : Checked (Draw (List Int)) :=
  Checked.inBuffer (8 * count) fun _ => gaussian.samples count

end Gaussian

end RingLwe
