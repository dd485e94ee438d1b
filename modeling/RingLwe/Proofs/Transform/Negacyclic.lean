import RingLwe.Proofs.Layout
import RingLwe.Proofs.Transform.Network

/-!
# Multiplication modulo `X^n + 1`

The matrix of multiplication by a polynomial `a` modulo `X^n + 1` has the
entries `a_{i-k}` on and below the diagonal and `-a_{n+i-k}` above it (`entry`).
At a root of `-1` the product of two polynomials has the product of their
values (`evaluate_product`), and the matrix of the transpose of `a` is the
transposed matrix (`entry_transpose`).

A forward network whose twiddle factors are square roots of each other
evaluates polynomials at the `leaves` of its tree (`ringForward_eq_map_evaluate`),
so that it takes products modulo `X^n + 1` to pointwise products
(`ringForward_product`).
-/

set_option autoImplicit false

namespace RingLwe.Negacyclic

variable {R : Type} [CommRing R]

/-! ## Polynomials as lists of coefficients -/

/-- The value of the polynomial with the given coefficients at a point. -/
def evaluate (coefficients : List R) (point : R) : R :=
  coefficients.foldr (fun coefficient rest => coefficient + point * rest) 0

theorem evaluate_append (low high : List R) (point : R) :
    evaluate (low ++ high) point = evaluate low point + point ^ low.length * evaluate high point := by
  induction low with
  | nil => simp [evaluate]
  | cons coefficient low ih =>
    simp only [evaluate, List.cons_append, List.foldr_cons, List.length_cons] at ih ⊢
    rw [ih, pow_succ]
    ring

/-- The value of a combination of two polynomials of one length. -/
theorem evaluate_zipWith (factor point : R) {low high : List R} (even : low.length = high.length) :
    evaluate (List.zipWith (fun left right => left + right * factor) low high) point =
      evaluate low point + factor * evaluate high point := by
  induction low generalizing high with
  | nil =>
    rw [List.length_eq_zero_iff.mp even.symm]
    simp [evaluate]
  | cons left low ih =>
    cases high with
    | nil => cases even
    | cons right high =>
      have rest := ih (Nat.succ.inj even)
      simp only [evaluate, List.zipWith_cons_cons, List.foldr_cons] at rest ⊢
      rw [rest]
      ring

/-- The value of a polynomial whose coefficients are given by position. -/
theorem evaluate_map_range (coefficient : Nat → R) (count : Nat) (point : R) :
    evaluate ((List.range count).map coefficient) point =
      ∑ position ∈ Finset.range count, point ^ position * coefficient position := by
  induction count with
  | zero => rfl
  | succ count ih =>
    rw [List.range_succ, List.map_append, evaluate_append, ih, Finset.sum_range_succ,
      List.length_map, List.length_range]
    simp [evaluate]

theorem eq_map_getD {α : Type} (items : List α) (default : α) :
    items = (List.range items.length).map fun index => items.getD index default := by
  refine List.ext_getElem (by simp) ?_
  intro index inside _
  rw [List.getElem_map, List.getElem_range, List.getD_eq_getElem _ _ inside]

/-! ## The matrix of multiplication -/

/-- The entry of the matrix of multiplication by a polynomial modulo `X^n + 1`. -/
def entry (n : Nat) (coefficients : List R) (row column : Nat) : R :=
  if column ≤ row then coefficients.getD (row - column) 0
  else -coefficients.getD (n + row - column) 0

/-- Coefficient `row` of the product of two polynomials modulo `X^n + 1`. -/
def productAt (n : Nat) (left right : List R) (row : Nat) : R :=
  ∑ column ∈ Finset.range n, entry n left row column * right.getD column 0

/-- The product of two polynomials modulo `X^n + 1`. -/
def product (n : Nat) (left right : List R) : List R :=
  (List.range n).map (productAt n left right)

theorem length_product (n : Nat) (left right : List R) : (product n left right).length = n := by
  rw [product, List.length_map, List.length_range]

theorem getD_product {n row : Nat} (left right : List R) (inside : row < n) :
    (product n left right).getD row 0 = productAt n left right row :=
  getD_map_range _ inside 0

theorem getD_map_hom {S : Type} [CommRing S] (hom : R →+* S) (coefficients : List R)
    (position : Nat) : (coefficients.map hom).getD position 0 = hom (coefficients.getD position 0) := by
  have mapped := List.getD_map (l := coefficients) (d := 0) (n := position) hom
  rwa [map_zero] at mapped

theorem entry_map {S : Type} [CommRing S] (hom : R →+* S) (n : Nat) (coefficients : List R)
    (row column : Nat) :
    entry n (coefficients.map hom) row column = hom (entry n coefficients row column) := by
  unfold entry
  split
  · exact getD_map_hom hom _ _
  · rw [getD_map_hom, map_neg]

theorem productAt_map {S : Type} [CommRing S] (hom : R →+* S) (n : Nat) (left right : List R)
    (row : Nat) : productAt n (left.map hom) (right.map hom) row = hom (productAt n left right row) := by
  simp only [productAt, map_sum, map_mul, entry_map, getD_map_hom]

theorem product_map {S : Type} [CommRing S] (hom : R →+* S) (n : Nat) (left right : List R) :
    product n (left.map hom) (right.map hom) = (product n left right).map hom := by
  rw [product, product, List.map_map]
  exact List.map_congr_left fun row _ => productAt_map hom n left right row

/-- A column of the matrix, as a polynomial, is the polynomial times a power of `X`. -/
theorem sum_pow_mul_entry {n column : Nat} (coefficients : List R) {point : R}
    (root : point ^ n = -1) (inside : column < n) :
    ∑ row ∈ Finset.range n, point ^ row * entry n coefficients row column =
      point ^ column *
        ∑ position ∈ Finset.range n, point ^ position * coefficients.getD position 0 := by
  obtain ⟨rest, rfl⟩ := Nat.exists_eq_add_of_le (Nat.le_of_lt inside)
  have above : ∀ row ∈ Finset.range column,
      point ^ row * entry (column + rest) coefficients row column =
        point ^ column * (point ^ (rest + row) * coefficients.getD (rest + row) 0) := by
    intro row member
    have early := Finset.mem_range.mp member
    have wrapped : column + rest + row - column = rest + row := by omega
    rw [entry, if_neg (by omega), wrapped]
    rw [pow_add] at root ⊢
    linear_combination (-point ^ row * coefficients.getD (rest + row) 0) * root
  have below : ∀ position ∈ Finset.range rest,
      point ^ (column + position) * entry (column + rest) coefficients (column + position) column =
        point ^ column * (point ^ position * coefficients.getD position 0) := by
    intro position _
    rw [entry, if_pos (Nat.le_add_right _ _), Nat.add_sub_cancel_left, pow_add, mul_assoc]
  rw [Finset.sum_range_add, Finset.sum_congr rfl above, Finset.sum_congr rfl below,
    ← Finset.mul_sum, ← Finset.mul_sum, ← mul_add, Nat.add_comm column rest,
    Finset.sum_range_add, add_comm]

/-- At a root of `-1` the value of a product is the product of the values. -/
theorem evaluate_product {n : Nat} {left right : List R} (leftFull : left.length = n)
    (rightFull : right.length = n) {point : R} (root : point ^ n = -1) :
    evaluate (product n left right) point = evaluate left point * evaluate right point := by
  have leftValue : evaluate left point =
      ∑ position ∈ Finset.range n, point ^ position * left.getD position 0 := by
    conv_lhs => rw [eq_map_getD left 0, leftFull]
    exact evaluate_map_range _ n point
  have rightValue : evaluate right point =
      ∑ column ∈ Finset.range n, point ^ column * right.getD column 0 := by
    conv_lhs => rw [eq_map_getD right 0, rightFull]
    exact evaluate_map_range _ n point
  calc evaluate (product n left right) point
      = ∑ row ∈ Finset.range n, ∑ column ∈ Finset.range n,
          point ^ row * entry n left row column * right.getD column 0 := by
        rw [product, evaluate_map_range]
        refine Finset.sum_congr rfl ?_
        intro row _
        rw [productAt, Finset.mul_sum]
        exact Finset.sum_congr rfl fun column _ => (mul_assoc _ _ _).symm
    _ = ∑ column ∈ Finset.range n,
          evaluate left point * (point ^ column * right.getD column 0) := by
        rw [Finset.sum_comm]
        refine Finset.sum_congr rfl ?_
        intro column member
        rw [← Finset.sum_mul, sum_pow_mul_entry left root (Finset.mem_range.mp member), leftValue]
        ring
    _ = evaluate left point * evaluate right point := by rw [rightValue, Finset.mul_sum]

/-- The matrix of a polynomial whose coefficients are those of another backwards and negated is the
transposed matrix. -/
theorem entry_transpose {n row column : Nat} {coefficients transposed : List R}
    (constant : transposed.getD 0 0 = coefficients.getD 0 0)
    (others : ∀ position, 0 < position → position < n →
      transposed.getD position 0 = -coefficients.getD (n - position) 0)
    (rowInside : row < n) (columnInside : column < n) :
    entry n transposed row column = entry n coefficients column row := by
  rcases Nat.lt_trichotomy row column with above | diagonal | below
  · have flipped : n - (n + row - column) = column - row := by omega
    rw [entry, if_neg (by omega), entry, if_pos (by omega),
      others _ (by omega) (by omega), neg_neg, flipped]
  · rw [diagonal, entry, entry, if_pos (Nat.le_refl _), if_pos (Nat.le_refl _), Nat.sub_self,
      constant]
  · have flipped : n - (row - column) = n + column - row := by omega
    rw [entry, if_pos (by omega), entry, if_neg (by omega), others _ (by omega) (by omega), flipped]

/-! ## The points of a network -/

/-- The points below a node of a network, where the given constant is that of the node. -/
def leaves (twiddle : Nat → R) : (depth node : Nat) → (constant : R) → List R
  | 0, _, constant => [constant]
  | depth + 1, node, _ =>
    leaves twiddle depth (2 * node) (twiddle node) ++
      leaves twiddle depth (2 * node + 1) (-twiddle node)

/-- Twiddle factors whose squares are the constants of their nodes, for nodes below a bound. -/
def SquareRoots (twiddle : Nat → R) (bound : Nat) : Prop :=
  ∀ node, 0 < node → 2 * node < bound →
    twiddle (2 * node) ^ 2 = twiddle node ∧ twiddle (2 * node + 1) ^ 2 = -twiddle node

section Leaves

variable {twiddle : Nat → R} {bound : Nat} (roots : SquareRoots twiddle bound)
include roots

/-- The squares of the factors of the children of a node. -/
theorem SquareRoots.children {depth node : Nat} (present : 0 < node)
    (inside : (node + 1) * 2 ^ (depth + 1) ≤ 2 * bound) :
    (0 < depth → twiddle (2 * node) ^ 2 = twiddle node) ∧
      (0 < depth → twiddle (2 * node + 1) ^ 2 = -twiddle node) := by
  have split : 0 < depth → 2 * node < bound := by
    intro more
    obtain ⟨less, rfl⟩ := Nat.exists_eq_succ_of_ne_zero (Nat.pos_iff_ne_zero.mp more)
    have further := (Network.children_inside inside).2.1
    exact (Network.children_inside further).1
  exact ⟨fun more => (roots node present (split more)).1,
    fun more => (roots node present (split more)).2⟩

/-- The points below a node are roots of its constant. -/
theorem pow_of_mem_leaves (depth : Nat) {node : Nat} {constant : R} (present : 0 < node)
    (inside : (node + 1) * 2 ^ depth ≤ 2 * bound)
    (square : 0 < depth → twiddle node ^ 2 = constant) {point : R}
    (member : point ∈ leaves twiddle depth node constant) : point ^ 2 ^ depth = constant := by
  induction depth generalizing node constant with
  | zero =>
    rw [List.mem_singleton.mp member, pow_zero, pow_one]
  | succ depth ih =>
    obtain ⟨_, first, second⟩ := Network.children_inside inside
    obtain ⟨firstSquare, secondSquare⟩ := roots.children present inside
    rw [pow_succ, pow_mul]
    rcases List.mem_append.mp member with left | right
    · rw [ih (by omega) first firstSquare left, square (Nat.succ_pos _)]
    · rw [ih (by omega) second secondSquare right, neg_sq, square (Nat.succ_pos _)]

/-- The forward network evaluates a polynomial at the points below its node. -/
theorem ringForward_eq_map_evaluate (depth : Nat) {node : Nat} (constant : R) (present : 0 < node)
    (inside : (node + 1) * 2 ^ depth ≤ 2 * bound) {values : List R}
    (full : values.length = 2 ^ depth) :
    Network.ringForward twiddle depth node values =
      (leaves twiddle depth node constant).map (evaluate values) := by
  induction depth generalizing node constant values with
  | zero =>
    obtain ⟨value, rfl⟩ := List.length_eq_one_iff.mp full
    simp [Network.ringForward, Network.forward, leaves, evaluate]
  | succ depth ih =>
    obtain ⟨_, first, second⟩ := Network.children_inside inside
    obtain ⟨firstSquare, secondSquare⟩ := roots.children present inside
    obtain ⟨low, high, rfl, lowFull, highFull⟩ := Network.halves full
    have even : low.length = high.length := lowFull.trans highFull.symm
    have negated : (fun left right : R => left - right * twiddle node) =
        fun left right => left + right * -twiddle node := by
      funext left right
      ring
    have length : ∀ factor : R,
        (List.zipWith (fun left right => left + right * factor) low high).length = 2 ^ depth :=
      fun factor => by rw [List.length_zipWith, ← even, Nat.min_self, lowFull]
    have value : ∀ factor point : R, point ^ 2 ^ depth = factor →
        evaluate (List.zipWith (fun left right => left + right * factor) low high) point =
          evaluate (low ++ high) point := by
      intro factor point power
      rw [evaluate_zipWith _ _ even, evaluate_append, lowFull, power]
    rw [Network.ringForward_append twiddle node high lowFull, negated,
      ih (twiddle node) (by omega) first (length _),
      ih (-twiddle node) (by omega) second (length _), leaves, List.map_append]
    congr 1
    · refine List.map_congr_left fun point member => value _ _ ?_
      exact pow_of_mem_leaves roots depth (by omega) first firstSquare member
    · refine List.map_congr_left fun point member => value _ _ ?_
      exact pow_of_mem_leaves roots depth (by omega) second secondSquare member

end Leaves

/-! ## Products through a network -/

section Whole

variable {twiddle : Nat → R} {depth : Nat} (roots : SquareRoots twiddle (2 ^ depth))
include roots

theorem ringForward_eq_leaves {values : List R} (full : values.length = 2 ^ depth) :
    Network.ringForward twiddle depth 1 values =
      (leaves twiddle depth 1 (-1)).map (evaluate values) :=
  ringForward_eq_map_evaluate roots depth (-1) Nat.one_pos (Nat.le_refl _) full

/-- The network takes linear combinations to linear combinations. -/
theorem ringForward_combine (factor : R) {left right : List R} (leftFull : left.length = 2 ^ depth)
    (rightFull : right.length = 2 ^ depth) :
    Network.ringForward twiddle depth 1 (List.zipWith (fun low high => low + high * factor) left right) =
      List.zipWith (fun low high => low + high * factor) (Network.ringForward twiddle depth 1 left)
        (Network.ringForward twiddle depth 1 right) := by
  have even : left.length = right.length := leftFull.trans rightFull.symm
  have full : (List.zipWith (fun low high => low + high * factor) left right).length =
      2 ^ depth := by
    rw [List.length_zipWith, ← even, Nat.min_self, leftFull]
  rw [ringForward_eq_leaves roots full, ringForward_eq_leaves roots leftFull,
    ringForward_eq_leaves roots rightFull, List.zipWith_map, List.zipWith_self]
  refine List.map_congr_left ?_
  intro point _
  rw [evaluate_zipWith factor point even, mul_comm factor]

theorem ringForward_add {left right : List R} (leftFull : left.length = 2 ^ depth)
    (rightFull : right.length = 2 ^ depth) :
    Network.ringForward twiddle depth 1 (List.zipWith (· + ·) left right) =
      List.zipWith (· + ·) (Network.ringForward twiddle depth 1 left)
        (Network.ringForward twiddle depth 1 right) := by
  simpa only [mul_one] using ringForward_combine roots 1 leftFull rightFull

omit roots in
/-- The network takes zeros to zeros. -/
theorem ringForward_zero (twiddle : Nat → R) (depth node : Nat) :
    Network.ringForward twiddle depth node (List.replicate (2 ^ depth) 0) =
      List.replicate (2 ^ depth) 0 := by
  have zeros : ∀ count : Nat, (List.replicate count (0 : R)).map (0 * ·) = List.replicate count 0 :=
    fun count => by rw [List.map_replicate, zero_mul]
  have full : (List.replicate (2 ^ depth) (0 : R)).length = 2 ^ depth := List.length_replicate
  have scaled := Network.ringForward_scale twiddle 0 depth node _ full
  rw [zeros] at scaled
  rw [scaled]
  refine List.ext_getElem ?_ fun index _ _ => ?_
  · rw [List.length_map, Network.length_ringForward twiddle node full, List.length_replicate]
  · rw [List.getElem_map, zero_mul, List.getElem_replicate]

/-- The network takes products modulo `X^n + 1` to pointwise products. -/
theorem ringForward_product (square : 0 < depth → twiddle 1 ^ 2 = -1) {left right : List R}
    (leftFull : left.length = 2 ^ depth) (rightFull : right.length = 2 ^ depth) :
    Network.ringForward twiddle depth 1 (product (2 ^ depth) left right) =
      List.zipWith (· * ·) (Network.ringForward twiddle depth 1 left)
        (Network.ringForward twiddle depth 1 right) := by
  rw [ringForward_eq_leaves roots (length_product _ _ _), ringForward_eq_leaves roots leftFull,
    ringForward_eq_leaves roots rightFull, List.zipWith_map, List.zipWith_self]
  refine List.map_congr_left fun point member => evaluate_product leftFull rightFull ?_
  exact pow_of_mem_leaves roots depth Nat.one_pos (Nat.le_refl _) square member

end Whole

end RingLwe.Negacyclic
