import RingLwe.Transform.Montgomery

/-!
# Twiddle factors

The butterflies of a transform of size `2^depth` use the powers of a root in
bit-reversed order: entry `k` is the root to the power of the reversal of the
`depth` bits of `k`.  Reversal is additive over disjoint bits, so the table
doubles: the entries from `2^i` on are the earlier entries times the entry of
`2^i`, which is the root to the power `2^(depth - 1 - i)`.
-/

set_option autoImplicit false

namespace RingLwe.Twiddle

variable (arithmetic : Montgomery)

/-- The repeated squares of a root in front of the given list, the last square first. -/
def squares : (count : Nat) → (root : UInt64) → List UInt64 → List UInt64
  | 0, _, found => found
  | count + 1, root, found => squares count (arithmetic.mul root root) (root :: found)

/-- Doubles a table: its entries again, times a factor. -/
def double (table : Array UInt64) (factor : UInt64) : Array UInt64 :=
  table ++ table.map (arithmetic.mul · factor)

/-- The powers of a root in bit-reversed order.  The root and the entries are in Montgomery form. -/
def table (depth : Nat) (root : UInt64) : Array UInt64 :=
  (squares arithmetic depth root []).foldl (double arithmetic) #[arithmetic.enter 1]

end RingLwe.Twiddle
