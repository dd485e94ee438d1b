import RingLwe.Modular.Residue

/-!
# Residue number systems

A basis is a list of pairwise coprime moduli.  A number below their product
`q` is represented by its residues, and recovered from them by the Chinese
remainder theorem: with `q_j` the moduli,

`x = Σ_j ((x_j · (q / q_j)⁻¹) mod q_j) · (q / q_j)` modulo `q`.

`Basis.ofModuli?` prepares the quotients `q / q_j` and their inverses, and
refuses a list of moduli that has none.  `Basis.compose` and
`Basis.decompose` go between residues and numbers.
-/

set_option autoImplicit false

namespace RingLwe

/-- One modulus of a basis, with what the product of the other moduli is in it. -/
structure Basis.Limb where
  modulus : UInt64
  /-- The product of the other moduli. -/
  punctured : Nat
  /-- The inverse of the punctured product modulo the modulus. -/
  puncturedInverse : UInt64
deriving DecidableEq, Repr

/-- A list of pairwise coprime moduli, prepared for composition. -/
structure Basis where
  limbs : List Basis.Limb
  /-- The product of the moduli. -/
  modulus : Nat
deriving DecidableEq, Repr

namespace Basis

/-- The moduli of a basis in order. -/
def moduli (basis : Basis) : List UInt64 :=
  basis.limbs.map Limb.modulus

/-- The number of moduli. -/
def size (basis : Basis) : Nat :=
  basis.limbs.length

/-- The product of a list of moduli. -/
def product (moduli : List UInt64) : Nat :=
  moduli.foldr (fun modulus product => modulus.toNat * product) 1

/-- One modulus of a list whose product is `whole`, if the quotient is invertible in it. -/
def Limb.ofModulus? (whole : Nat) (modulus : UInt64) : Option Limb :=
  let punctured := whole / modulus.toNat
  (Residue.inverse? (punctured % modulus.toNat).toUInt64 modulus).map
    (Limb.mk modulus punctured)

/-- The basis of a list of moduli.  There is none if the list is empty, a modulus is below two, or
a quotient `q / q_j` has no inverse modulo `q_j`. -/
def ofModuli? (moduli : List UInt64) : Option Basis :=
  if moduli.isEmpty || moduli.any (· < 2) then
    none
  else
    (moduli.mapM (Limb.ofModulus? (product moduli))).map fun limbs => ⟨limbs, product moduli⟩

/-- The smallest modulus. -/
def minModulus (basis : Basis) : UInt64 :=
  (basis.moduli.min?).getD 0

/-- The largest modulus. -/
def maxModulus (basis : Basis) : UInt64 :=
  (basis.moduli.max?).getD 0

/-- The number below the product of the moduli that has the given residues. -/
def compose (basis : Basis) (residues : List UInt64) : Nat :=
  (basis.limbs.zip residues).foldr
    (fun (limb, residue) sum =>
      limb.punctured * (Residue.mul residue limb.puncturedInverse limb.modulus).toNat + sum) 0
    % basis.modulus

/-- The checked form of `compose`: one residue for each modulus. -/
def checkedCompose (basis : Basis) (residues : List UInt64) : Checked Nat :=
  Checked.unless (residues.length != basis.size) .wrongLength (basis.compose residues)

/-- The residues of a number. -/
def decompose (basis : Basis) (number : Nat) : List UInt64 :=
  basis.moduli.map fun modulus => (number % modulus.toNat).toUInt64

end Basis

end RingLwe
