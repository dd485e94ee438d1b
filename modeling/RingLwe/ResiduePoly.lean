import RingLwe.Random.Stream
import RingLwe.Transform

/-!
# Polynomials with residues

A polynomial modulo `X^n + 1` is kept as its residues for several primes, in
the component-major layout.  It is either in the coefficient domain or in the
transformed domain of a `Transform`, and the domain is kept beside the data.

Conversions to a domain in which a polynomial already is do nothing.  Sums and
differences are taken run by run; what lies beyond the last modulus is that of
the left operand.
-/

set_option autoImplicit false

namespace RingLwe

/-- The two domains of a polynomial. -/
inductive Domain where
  | coefficient
  | transformed
deriving DecidableEq, Repr, Inhabited

/-- A polynomial with residues for several primes. -/
structure ResiduePoly where
  /-- The residues; the residue of coefficient `i` modulo prime `j` is at `j · size + i`. -/
  residues : List UInt64
  /-- The number of coefficients. -/
  size : Nat
  domain : Domain
deriving DecidableEq, Repr

namespace ResiduePoly

/-! ## Construction -/

/-- The zero polynomial in the coefficient domain. -/
def zero (size count : Nat) : ResiduePoly :=
  ⟨List.replicate (size * count) 0, size, .coefficient⟩

/-- The checked form of `zero`. -/
def checkedZero (size count : Nat) : Checked ResiduePoly :=
  Checked.inBuffer (8 * (size * count)) fun _ => zero size count

/-- The polynomial with the given residues; their number must be a multiple of the size. -/
def ofResidues (residues : List UInt64) (size : Nat) (domain : Domain) : Checked ResiduePoly :=
  Checked.unless (size == 0 || residues.length % size != 0) .wrongLength ⟨residues, size, domain⟩

/-- The polynomial of small integer coefficients. -/
def ofIntegers (coefficients : List Int) (moduli : List UInt64) : ResiduePoly :=
  ⟨moduli.flatMap fun q => coefficients.map (Residue.ofInt · q), coefficients.length, .coefficient⟩

/-- The checked form of `ofIntegers`. -/
def checkedOfIntegers (coefficients : List Int) (moduli : List UInt64) : Checked ResiduePoly :=
  Checked.unless (moduli.contains 0 && !coefficients.isEmpty) .zeroModulus
    (ofIntegers coefficients moduli)

/-- Draws a polynomial with uniform residues, prime by prime. -/
def uniform (size : Nat) (moduli : List UInt64) : Draw ResiduePoly := do
  let components ← moduli.mapM fun q => Stream.times size (Stream.below q)
  return ⟨components.flatten, size, .coefficient⟩

/-- The checked form of `uniform`. -/
def checkedUniform (size : Nat) (moduli : List UInt64) : Checked (Draw ResiduePoly) :=
  if moduli.contains 0 && size != 0 then
    .error .emptyRange
  else
    Checked.inBuffer (8 * (size * moduli.length)) fun _ => uniform size moduli

/-! ## Views -/

/-- The number of primes for which there are residues. -/
def count (poly : ResiduePoly) : Nat :=
  poly.residues.length / poly.size

/-- The checked form of `count`. -/
def checkedCount (poly : ResiduePoly) : Checked Nat :=
  Checked.unless (poly.size == 0) .zeroModulus poly.count

/-- The residues modulo the prime of the given number. -/
def component (poly : ResiduePoly) (index : Nat) : List UInt64 :=
  (poly.residues.drop (index * poly.size)).take poly.size

/-- Whether a polynomial has residues for the prime of the given number. -/
def hasComponent (poly : ResiduePoly) (index : Nat) : Bool :=
  (index + 1) * poly.size ≤ poly.residues.length

/-- The checked form of `component`. -/
def checkedComponent (poly : ResiduePoly) (index : Nat) : Checked (List UInt64) :=
  Checked.unless (!poly.hasComponent index) .outOfRange (poly.component index)

/-- Replaces the residue of a coefficient modulo the prime of the given number. -/
def set (poly : ResiduePoly) (index coefficient : Nat) (residue : UInt64) : ResiduePoly :=
  { poly with residues := poly.residues.set (index * poly.size + coefficient) residue }

/-- The checked form of `set`. -/
def checkedSet (poly : ResiduePoly) (index coefficient : Nat) (residue : UInt64) :
    Checked ResiduePoly :=
  Checked.unless (!poly.hasComponent index || poly.size ≤ coefficient) .outOfRange
    (poly.set index coefficient residue)

/-! ## Domains -/

/-- The polynomial in the transformed domain. -/
def toTransformed (transform : Transform) (poly : ResiduePoly) : ResiduePoly :=
  match poly.domain with
  | .coefficient =>
    { poly with residues := transform.forward poly.residues, domain := .transformed }
  | .transformed => poly

/-- The polynomial in the coefficient domain. -/
def toCoefficient (transform : Transform) (poly : ResiduePoly) : ResiduePoly :=
  match poly.domain with
  | .coefficient => poly
  | .transformed =>
    { poly with residues := transform.inverse poly.residues, domain := .coefficient }

/-- The checked form of `toTransformed`. -/
def checkedToTransformed (transform : Transform) (poly : ResiduePoly) : Checked ResiduePoly :=
  match poly.domain with
  | .coefficient => transform.checked [poly.residues] fun _ => poly.toTransformed transform
  | .transformed => .ok poly

/-- The checked form of `toCoefficient`. -/
def checkedToCoefficient (transform : Transform) (poly : ResiduePoly) : Checked ResiduePoly :=
  match poly.domain with
  | .coefficient => .ok poly
  | .transformed => transform.checked [poly.residues] fun _ => poly.toCoefficient transform

/-! ## Arithmetic -/

/-- The product of two transformed polynomials. -/
def mul (transform : Transform) (left right : ResiduePoly) : ResiduePoly :=
  ⟨transform.pointwise left.residues right.residues, left.size, .transformed⟩

/-- The checked form of `mul`. -/
def checkedMul (transform : Transform) (left right : ResiduePoly) : Checked ResiduePoly :=
  if left.domain = .transformed ∧ right.domain = .transformed then
    transform.checked [left.residues, right.residues] fun _ => left.mul transform right
  else
    .error .wrongDomain

/-- Combines the runs of two residue lists prime by prime; the rest is that of the left list. -/
def combineRuns (operation : UInt64 → UInt64 → UInt64 → UInt64) (size : Nat) :
    (moduli : List UInt64) → (left right : List UInt64) → List UInt64
  | [], left, _ => left
  | q :: moduli, left, right =>
    List.zipWith (operation · · q) (left.take size) (right.take size) ++
      combineRuns operation size moduli (left.drop size) (right.drop size)

/-- Combines two polynomials coefficient by coefficient. -/
def combine (operation : UInt64 → UInt64 → UInt64 → UInt64) (moduli : List UInt64)
    (left right : ResiduePoly) : ResiduePoly :=
  { left with residues := combineRuns operation left.size moduli left.residues right.residues }

/-- The sum of two polynomials of one domain. -/
def add (moduli : List UInt64) (left right : ResiduePoly) : ResiduePoly :=
  combine Residue.add moduli left right

/-- The difference of two polynomials of one domain. -/
def sub (moduli : List UInt64) (left right : ResiduePoly) : ResiduePoly :=
  combine Residue.sub moduli left right

/-- An answer about two polynomials of one domain with residues for every modulus. -/
def checkedCombine (combination : List UInt64 → ResiduePoly → ResiduePoly → ResiduePoly)
    (moduli : List UInt64) (left right : ResiduePoly) : Checked ResiduePoly :=
  let needed := moduli.length * left.size
  if left.domain ≠ right.domain then
    .error .wrongDomain
  else if left.residues.length < needed || right.residues.length < needed then
    .error .outOfRange
  else
    .ok (combination moduli left right)

/-- The checked form of `add`. -/
def checkedAdd (moduli : List UInt64) (left right : ResiduePoly) : Checked ResiduePoly :=
  if moduli.contains 0 && left.size != 0 then
    .error .zeroModulus
  else
    checkedCombine add moduli left right

/-- The checked form of `sub`. -/
def checkedSub (moduli : List UInt64) (left right : ResiduePoly) : Checked ResiduePoly :=
  checkedCombine sub moduli left right

end ResiduePoly

end RingLwe
