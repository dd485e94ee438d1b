/-!
# Butterfly networks

The shape of a fast negacyclic transform of size `2^depth`, over any carrier
with an addition, a subtraction and a multiplication.  The butterflies form a
binary tree.  Node 1 is the whole transform, the children of a node `i` are
`2 i` and `2 i + 1`, and every butterfly of a node uses the twiddle factor of
its number.

The forward network splits its values into halves `low` and `high`, scales
`high`, and goes on with `low + high` and `low - high`.  The inverse network
goes the other way: it combines the results of the children into their sum
and their scaled difference.
-/

set_option autoImplicit false

namespace RingLwe.Network

variable {α : Type}

/-- The forward network below a node, on `2^depth` values. -/
@[specialize]
def forward (add sub mul : α → α → α) (twiddle : Nat → α) :
    (depth node : Nat) → List α → List α
  | 0, _, values => values
  | depth + 1, node, values =>
    let factor := twiddle node
    let low := values.take (1 <<< depth)
    let high := (values.drop (1 <<< depth)).map (mul · factor)
    forward add sub mul twiddle depth (2 * node) (List.zipWith add low high) ++
      forward add sub mul twiddle depth (2 * node + 1) (List.zipWith sub low high)

/-- The inverse network below a node, on `2^depth` values. -/
@[specialize]
def inverse (add sub mul : α → α → α) (twiddle : Nat → α) :
    (depth node : Nat) → List α → List α
  | 0, _, values => values
  | depth + 1, node, values =>
    let factor := twiddle node
    let low := inverse add sub mul twiddle depth (2 * node) (values.take (1 <<< depth))
    let high := inverse add sub mul twiddle depth (2 * node + 1) (values.drop (1 <<< depth))
    List.zipWith add low high ++ (List.zipWith sub low high).map (mul · factor)

end RingLwe.Network
