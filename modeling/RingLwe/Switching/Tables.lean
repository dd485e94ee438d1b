import RingLwe.Modular.Basis
import RingLwe.Word.Lwe

/-!
# Switching one value to the hybrid modulus

Let `x` be a number below the product `q` of the primes `q_j`, with residues
`x_j`, and let `Q` be the hybrid modulus.  With
`t_j = x_j · (q / q_j)⁻¹ mod q_j` the sum `Σ_j t_j · Q / q_j` differs from
`Q · x / q` by a multiple of `Q`.  So the sum of its rounded terms, taken
modulo `Q`, is `Q · x / q` up to half a unit for each prime.

The tables keep each ratio exactly, as `Q = quotient · q_j + remainder`; a term
is then `t · quotient + ⌊(2 · t · remainder + q_j) / (2 · q_j)⌋`.
-/

set_option autoImplicit false

namespace RingLwe

/-- The constants of one prime for switching to a hybrid modulus. -/
structure SwitchLimb where
  modulus : UInt64
  /-- The inverse of the product of the other primes. -/
  puncturedInverse : UInt64
  /-- The quotient of the hybrid modulus by the prime. -/
  quotient : UInt64
  /-- The remainder of the hybrid modulus by the prime. -/
  remainder : UInt64
deriving DecidableEq, Repr

namespace SwitchLimb

/-- The constants of one prime of a basis. -/
def ofLimb (width : Width) (limb : Basis.Limb) : SwitchLimb where
  modulus := limb.modulus
  puncturedInverse := limb.puncturedInverse
  quotient := (width.modulus / limb.modulus.toNat).toUInt64
  remainder := (width.modulus % limb.modulus.toNat).toUInt64

/-- The rounded term of a residue. -/
def term (limb : SwitchLimb) (residue : UInt64) : Nat :=
  let q := limb.modulus.toNat
  let scaled := residue.toNat * limb.puncturedInverse.toNat % q
  scaled * limb.quotient.toNat + (2 * scaled * limb.remainder.toNat + q) / (2 * q)

end SwitchLimb

/-- The constants of all primes for switching to the hybrid modulus of a width. -/
structure SwitchTables where
  width : Width
  limbs : List SwitchLimb
deriving DecidableEq, Repr

namespace SwitchTables

/-- The tables of a basis. -/
def ofBasis (width : Width) (basis : Basis) : SwitchTables :=
  ⟨width, basis.limbs.map (SwitchLimb.ofLimb width)⟩

/-- The word to which a value switches, from its residues in order. -/
def switch (tables : SwitchTables) (width : Width) (residues : List UInt64) : LweWord width :=
  LweWord.ofNat width ((List.zipWith SwitchLimb.term tables.limbs residues).foldr (· + ·) 0)

end SwitchTables

end RingLwe
