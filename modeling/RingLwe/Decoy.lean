import RingLwe.Ciphertext
import RingLwe.PublicPoly

/-!
# Decoy ciphertext data

A decoy has the written form of ciphertext data and uniform residues.  Decoys
come from a sampler, a seeded stream that is never reset, so successive calls
go on where the last one stopped.
-/

set_option autoImplicit false

namespace RingLwe

/-- A seeded source of decoys. -/
structure DecoySampler where
  context : Context
  stream : Stream

namespace Decoy

/-- The string under which the streams of decoys are derived. -/
def label : String :=
  "hybrid-rlwe 2024 dummy ciphertext data"

/-- The length of a decoy with all coefficients of the ring. -/
def fullSize (context : Context) : Nat :=
  Ciphertext.dataSizeFor context context.dimension

/-- Draws a decoy of the given number of coefficients, its residues prime by prime. -/
def blob (context : Context) (count : Nat) : Draw (List UInt8) := do
  let poly ← ResiduePoly.uniform count context.moduli
  return Wire.filled (Ciphertext.dataSizeFor context count)
    (Ciphertext.storeResidues count context.primeCount poly.residues)

/-- The numbers of coefficients of the decoys that together have the given number: full ones, and
one for what is left. -/
def blobCounts (dimension samples : Nat) : List Nat :=
  List.replicate (samples / dimension) dimension ++
    (if samples % dimension = 0 then [] else [samples % dimension])

/-- Draws decoys of the given numbers of coefficients in order. -/
def blobs (context : Context) (counts : List Nat) : Draw (List (List UInt8)) :=
  counts.mapM (blob context)

end Decoy

namespace DecoySampler

/-- The sampler of a seed. -/
def ofSeed (context : Context) (seed : Seed) : DecoySampler :=
  ⟨context, seed.stream Decoy.label⟩

/-- Runs a draw on the stream of a sampler. -/
def run {α : Type} (sampler : DecoySampler) (draw : Draw α) : α × DecoySampler :=
  let (value, stream) := draw.run sampler.stream
  (value, { sampler with stream })

/-- The next full decoys, and the sampler after them. -/
def sample (sampler : DecoySampler) (count : Nat) : List (List UInt8) × DecoySampler :=
  let context := sampler.context
  sampler.run (Decoy.blobs context (List.replicate count context.dimension))

/-- Decoys for exactly the given number of coefficients, and the sampler after them. -/
def sampleCoefficients (sampler : DecoySampler) (samples : Nat) :
    List (List UInt8) × DecoySampler :=
  let context := sampler.context
  sampler.run (Decoy.blobs context (Decoy.blobCounts context.dimension samples))

end DecoySampler

/-- The decoys of a seed for exactly the given number of coefficients. -/
def Decoy.ofSeed (context : Context) (seed : Seed) (samples : Nat) : List (List UInt8) :=
  ((DecoySampler.ofSeed context seed).sampleCoefficients samples).1

end RingLwe
