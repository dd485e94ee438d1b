import RingLwe.Modular.Residue

/-!
# Roots of unity

A transform of size `n` needs an element of order `2 n` modulo each prime.
The search tries the bases 2, 3, … in turn and raises each to the power
`(q - 1) / order`; the first result whose order is the wanted one is the root.
The order is wanted to be a power of two, so it is enough to look at one power
and its half.
-/

set_option autoImplicit false

namespace RingLwe.Root

/-- Whether a residue has the given order, a power of two. -/
def hasOrder (order q residue : UInt64) : Bool :=
  Residue.powAboveOne residue order q == 1 && Residue.powAboveOne residue (order / 2) q != 1

/-- Tries the given number of bases, starting from `base`. -/
def searchFrom (order q : UInt64) : (tries : Nat) → (base : UInt64) → Option UInt64
  | 0, _ => none
  | tries + 1, base =>
    let candidate := Residue.powAboveOne base ((q - 1) / order) q
    if hasOrder order q candidate then
      some candidate
    else
      searchFrom order q tries (base + 1)

/-- The root of unity of the given order modulo `q` that comes from the smallest base. -/
def primitive? (order q : UInt64) : Option UInt64 :=
  searchFrom order q (q.toNat - 2) 2

end RingLwe.Root
