import RingLwe.Context
import RingLwe.ResiduePoly

/-!
# Public polynomials

The public polynomial `a` of a ciphertext is a function of a seed and a
context, so only the seed travels.  It is kept in the transformed domain.

The transpose of `a` is the polynomial whose matrix of multiplication modulo
`X^n + 1` is the transpose of the matrix of `a`: the constant coefficient stays,
and coefficient `i` becomes the negative of coefficient `n - i`.  A flag says
whether a polynomial has been transposed.
-/

set_option autoImplicit false

namespace RingLwe

/-- The seed of a random stream: 512 bits. -/
abbrev Seed : Type :=
  Vector UInt64 8

/-- The stream that a context string derives from a seed. -/
def Seed.stream (label : String) (seed : Seed) : Stream :=
  Stream.ofKey (Blake3.deriveKey label (seed.toList.flatMap Bytes.ofWord64))

/-- A public polynomial. -/
structure PublicPoly where
  context : Context
  /-- The residues in the transformed domain. -/
  poly : ResiduePoly
  transposed : Bool

namespace PublicPoly

/-- The string under which public polynomials are derived. -/
def label : String :=
  "hybrid-rlwe 2024 public polynomial a"

/-- The public polynomial of a seed: uniform residues prime by prime, then transformed. -/
def derive (context : Context) (seed : Seed) : PublicPoly :=
  let uniform := (ResiduePoly.uniform context.dimension context.moduli).run (seed.stream label)
  ⟨context, uniform.1.toTransformed context.transform, false⟩

/-- The polynomial in the coefficient domain. -/
def coefficients (a : PublicPoly) : ResiduePoly :=
  a.poly.toCoefficient a.context.transform

/-- The coefficients of the transpose modulo one prime. -/
def transposeRun (q : UInt64) : List UInt64 → List UInt64
  | [] => []
  | constant :: others => constant :: others.reverse.map (Residue.neg · q)

/-- The transpose of a polynomial in the coefficient domain. -/
def transposeCoefficients (moduli : List UInt64) (poly : ResiduePoly) : ResiduePoly :=
  { poly with
    residues :=
      (List.zipWith transposeRun moduli
        (components poly.size moduli.length poly.residues)).flatten }

/-- The transpose of a public polynomial. -/
def transpose (a : PublicPoly) : PublicPoly :=
  let transposed := transposeCoefficients a.context.moduli a.coefficients
  { a with
    poly := transposed.toTransformed a.context.transform
    transposed := !a.transposed }

end PublicPoly

end RingLwe
