import RingLwe.Proofs.Transform.Montgomery
import RingLwe.Proofs.Transform.Negacyclic
import RingLwe.Transform.Twiddle

/-!
# The table of twiddle factors

A table is doubled once for each bit of its numbers: the entry of `2^i + k`,
for `k` below `2^i`, is the entry of `k` times the factor of bit `i`
(`foldl_double`).  What the entries denote is therefore a product over the
bits of their number (`Powers`).

In the table of a root of `-1` the squares of the entries of `2 k` and
`2 k + 1` are the entry of `k` and its negative (`Powers.squareRoots`), and the
entries of the table of the inverse root are the inverses
(`Powers.mul_eq_one`).
-/

set_option autoImplicit false

namespace RingLwe.Twiddle

open Residue Montgomery

/-! ## Powers by bits -/

/-- Powers of a root in bit-reversed order: bit `i` of a number stands for the power with exponent
`2^(depth - 1 - i)`. -/
structure Powers {R : Type} [CommRing R] (entries : Nat → R) (root : R) (depth : Nat) : Prop where
  first : entries 0 = 1
  bit : ∀ position number, position < depth → number < 2 ^ position →
    entries (2 ^ position + number) = entries number * root ^ 2 ^ (depth - 1 - position)

/-- Induction over the bits of a number, from the lowest numbers up. -/
theorem bitwise_induction {motive : Nat → Prop} (depth : Nat) (zero : motive 0)
    (bit : ∀ position number, position < depth → number < 2 ^ position → motive number →
      motive (2 ^ position + number)) :
    ∀ number, number < 2 ^ depth → motive number := by
  induction depth with
  | zero =>
    intro number below
    have none : number = 0 := by omega
    rw [none]
    exact zero
  | succ depth ih =>
    have lower := ih fun position number inside => bit position number (Nat.lt_succ_of_lt inside)
    intro number below
    rcases Nat.lt_or_ge number (2 ^ depth) with small | large
    · exact lower number small
    · obtain ⟨rest, rfl⟩ := Nat.exists_eq_add_of_le large
      rw [Nat.pow_succ] at below
      exact bit depth rest (Nat.lt_succ_self _) (by omega) (lower rest (by omega))

namespace Powers

variable {R : Type} [CommRing R] {entries : Nat → R} {root : R} {depth : Nat}

/-- The entries of inverse roots are inverse to each other. -/
theorem mul_eq_one {inverseEntries : Nat → R} {inverseRoot : R} (powers : Powers entries root depth)
    (inversePowers : Powers inverseEntries inverseRoot depth) (unit : root * inverseRoot = 1)
    {number : Nat} (below : number < 2 ^ depth) : entries number * inverseEntries number = 1 := by
  refine bitwise_induction depth (motive := fun number => entries number * inverseEntries number = 1)
    ?_ ?_ number below
  · rw [powers.first, inversePowers.first, mul_one]
  · intro position number inside small ih
    have power : root ^ 2 ^ (depth - 1 - position) * inverseRoot ^ 2 ^ (depth - 1 - position) = 1 := by
      rw [← mul_pow, unit, one_pow]
    rw [powers.bit position number inside small, inversePowers.bit position number inside small]
    linear_combination inverseRoot ^ 2 ^ (depth - 1 - position) *
      root ^ 2 ^ (depth - 1 - position) * ih + power

section Root

variable (powers : Powers entries root depth) (negative : root ^ 2 ^ depth = -1)
include powers negative

/-- The first butterfly uses a square root of `-1`. -/
theorem sq_first (nonempty : 0 < depth) : entries 1 ^ 2 = -1 := by
  have factor : entries (2 ^ 0 + 0) = entries 0 * root ^ 2 ^ (depth - 1 - 0) :=
    powers.bit 0 0 nonempty (by decide)
  have exponent : 2 ^ (depth - 1 - 0) * 2 = 2 ^ depth := by
    rw [← pow_succ]
    congr 1
    omega
  rw [pow_zero, powers.first, one_mul] at factor
  rw [factor, ← pow_mul, exponent, negative]

/-- The squares of the entries of `2 k` and `2 k + 1` are the entry of `k` and its negative. -/
theorem sq_children {number : Nat} (below : number < 2 ^ (depth - 1)) (nonempty : 0 < depth) :
    entries (2 * number) ^ 2 = entries number ∧ entries (2 * number + 1) ^ 2 = -entries number := by
  refine bitwise_induction (depth - 1)
    (motive := fun number => entries (2 * number) ^ 2 = entries number ∧
      entries (2 * number + 1) ^ 2 = -entries number) ?_ ?_ number below
  · rw [Nat.mul_zero, Nat.zero_add, powers.sq_first negative nonempty, powers.first, one_pow]
    exact ⟨rfl, rfl⟩
  · rintro position number inside small ⟨even, odd⟩
    have doubled : 2 ^ (position + 1) = 2 * 2 ^ position := by rw [pow_succ, mul_comm]
    have here := powers.bit position number (by omega) small
    have left := powers.bit (position + 1) (2 * number) (by omega) (by omega)
    have right := powers.bit (position + 1) (2 * number + 1) (by omega) (by omega)
    have square : (root ^ 2 ^ (depth - 1 - (position + 1))) ^ 2 =
        root ^ 2 ^ (depth - 1 - position) := by
      rw [← pow_mul, ← pow_succ]
      congr 2
      omega
    rw [doubled, ← Nat.mul_add] at left
    rw [doubled, ← Nat.add_assoc, ← Nat.mul_add] at right
    rw [left, right, here, mul_pow, mul_pow, square, even, odd]
    exact ⟨rfl, neg_mul _ _⟩

theorem squareRoots : Negacyclic.SquareRoots entries (2 ^ depth) := by
  intro node present inside
  cases depth with
  | zero => omega
  | succ depth =>
    rw [pow_succ] at inside
    exact powers.sq_children negative (by simpa using (by omega : node < 2 ^ depth))
      (Nat.succ_pos _)

end Root

end Powers

/-! ## The table -/

section Table

variable (arithmetic : Montgomery)

theorem squares_append (count : Nat) (root : UInt64) (found : List UInt64) :
    squares arithmetic count root found = squares arithmetic count root [] ++ found := by
  induction count generalizing root found with
  | zero => rfl
  | succ count ih =>
    rw [squares, ih, squares, ih _ [root], List.append_assoc]
    rfl

@[simp]
theorem length_squares (count : Nat) (root : UInt64) :
    (squares arithmetic count root []).length = count := by
  induction count generalizing root with
  | zero => rfl
  | succ count ih =>
    rw [squares, squares_append, List.length_append, ih]
    rfl

theorem size_double (table : Array UInt64) (factor : UInt64) :
    (double arithmetic table factor).size = 2 * table.size := by
  rw [double, Array.size_append, Array.size_map]
  omega

theorem size_foldl_double (factors : List UInt64) (table : Array UInt64) :
    (factors.foldl (double arithmetic) table).size = 2 ^ factors.length * table.size := by
  induction factors generalizing table with
  | nil => exact (Nat.one_mul _).symm
  | cons factor factors ih =>
    rw [List.foldl_cons, ih, size_double, List.length_cons, pow_succ, Nat.mul_assoc]

theorem size_table (depth : Nat) (root : UInt64) : (table arithmetic depth root).size = 2 ^ depth := by
  rw [table, size_foldl_double, length_squares]
  exact Nat.mul_one _

theorem getD_double_low {table : Array UInt64} (factor : UInt64) {number : Nat}
    (inside : number < table.size) :
    (double arithmetic table factor).getD number 0 = table.getD number 0 := by
  simp [double, Array.getD_eq_getD_getElem?, Array.getElem?_append, inside]

theorem getD_double_high {table : Array UInt64} (factor : UInt64) {number : Nat}
    (inside : number < table.size) :
    (double arithmetic table factor).getD (table.size + number) 0 =
      arithmetic.mul (table.getD number 0) factor := by
  simp [double, Array.getD_eq_getD_getElem?, inside]

/-- Doubling a table once for each factor keeps its entries, and every new entry is an entry with a
lower number times the factor of the highest bit. -/
theorem foldl_double (factors : List UInt64) {table : Array UInt64} {depth : Nat}
    (full : table.size = 2 ^ depth) :
    (∀ number < 2 ^ depth,
      (factors.foldl (double arithmetic) table).getD number 0 = table.getD number 0) ∧
    ∀ index number, index < factors.length → number < 2 ^ (depth + index) →
      (factors.foldl (double arithmetic) table).getD (2 ^ (depth + index) + number) 0 =
        arithmetic.mul ((factors.foldl (double arithmetic) table).getD number 0)
          (factors.getD index 0) := by
  induction factors generalizing table depth with
  | nil => exact ⟨fun _ _ => rfl, fun _ _ impossible => absurd impossible (Nat.not_lt_zero _)⟩
  | cons factor factors ih =>
    have doubled : (double arithmetic table factor).size = 2 ^ (depth + 1) := by
      rw [size_double, full, pow_succ, Nat.mul_comm]
    obtain ⟨kept, made⟩ := ih doubled
    rw [List.foldl_cons]
    constructor
    · intro number below
      rw [kept number (by rw [pow_succ]; omega), getD_double_low arithmetic factor (full ▸ below)]
    · intro index number inside below
      cases index with
      | zero =>
        rw [Nat.add_zero] at below ⊢
        rw [kept _ (by rw [pow_succ]; omega), kept _ (by rw [pow_succ]; omega), ← full,
          getD_double_high arithmetic factor (full ▸ below),
          getD_double_low arithmetic factor (full ▸ below), List.getD_cons_zero]
      | succ index =>
        have shift : depth + (index + 1) = depth + 1 + index := by omega
        rw [shift] at below ⊢
        rw [made index number (Nat.lt_of_succ_lt_succ inside) below, List.getD_cons_succ]

end Table

/-! ## What the table denotes -/

section Denotation

variable {q : UInt64} (odd : q.toNat % 2 = 1) (half : 2 * q.toNat < UInt64.size)
include odd half

theorem squares_spec (count : Nat) {root : UInt64} (reduced : root < q) {index : Nat}
    (inside : index < count) :
    (squares (ofModulus q) count root []).getD index 0 < q ∧
      decode q ((squares (ofModulus q) count root []).getD index 0) =
        decode q root ^ 2 ^ (count - 1 - index) := by
  induction count generalizing root with
  | zero => exact absurd inside (Nat.not_lt_zero _)
  | succ count ih =>
    have bound := mul_bound root reduced
    rw [squares, squares_append]
    rcases Nat.lt_or_ge index count with early | last
    · rw [List.getD_append _ _ _ _ (by rw [length_squares]; exact early)]
      obtain ⟨below, value⟩ := ih (mul_lt odd half bound) early
      refine ⟨below, ?_⟩
      rw [value, decode_mul odd half bound, ← sq, ← pow_mul, ← pow_succ']
      congr 2
      omega
    · have same : index = count := by omega
      rw [List.getD_append_right _ _ _ _ (by rw [length_squares]; exact last), length_squares,
        same, Nat.sub_self, List.getD_cons_zero, Nat.add_sub_cancel, Nat.sub_self, pow_zero,
        pow_one]
      exact ⟨reduced, rfl⟩

theorem squares_reduced (count : Nat) {root : UInt64} (reduced : root < q) :
    ∀ factor ∈ squares (ofModulus q) count root [], factor < q := by
  intro factor member
  obtain ⟨index, inside, rfl⟩ := List.getElem_of_mem member
  have spec := squares_spec odd half count reduced (by simpa using inside : index < count)
  rw [List.getD_eq_getElem _ _ inside] at spec
  exact spec.1

/-- Doubling by reduced factors keeps the entries reduced. -/
theorem foldl_double_reduced {factors : List UInt64} (factorsReduced : ∀ factor ∈ factors, factor < q)
    {table : Array UInt64} (tableReduced : ∀ number, table.getD number 0 < q) (number : Nat) :
    (factors.foldl (double (ofModulus q)) table).getD number 0 < q := by
  induction factors generalizing table with
  | nil => exact tableReduced number
  | cons factor factors ih =>
    obtain ⟨factorReduced, others⟩ := List.forall_mem_cons.mp factorsReduced
    refine ih others ?_
    intro number
    rcases Nat.lt_or_ge number table.size with low | high
    · rw [getD_double_low _ factor low]
      exact tableReduced number
    · obtain ⟨rest, rfl⟩ := Nat.exists_eq_add_of_le high
      rcases Nat.lt_or_ge rest table.size with inside | outside
      · rw [getD_double_high _ factor inside]
        exact mul_lt odd half (mul_bound _ factorReduced)
      · have beyond : (double (ofModulus q) table factor).size ≤ table.size + rest := by
          rw [size_double]
          omega
        rw [Array.getD_eq_getD_getElem?, Array.getElem?_eq_none beyond]
        exact UInt64.lt_iff_toNat_lt.mpr (by rw [Option.getD_none, UInt64.toNat_zero]; omega)

theorem getD_table_lt (depth : Nat) {root : UInt64} (reduced : root < q) (number : Nat) :
    (table (ofModulus q) depth root).getD number 0 < q := by
  refine foldl_double_reduced odd half (squares_reduced odd half depth reduced) (fun number => ?_) number
  cases number with
  | zero => exact (enter_spec odd half 1).1
  | succ number => exact UInt64.lt_iff_toNat_lt.mpr (by simp; omega)

/-- The entries of a table denote the powers of what the root denotes. -/
theorem powers_table (depth : Nat) {root : UInt64} (reduced : root < q) :
    Powers (fun number => decode q ((table (ofModulus q) depth root).getD number 0))
      (decode q root) depth := by
  obtain ⟨kept, made⟩ := @foldl_double (ofModulus q) (squares (ofModulus q) depth root [])
    #[(ofModulus q).enter 1] 0 rfl
  constructor
  · rw [table, kept 0 (by decide)]
    exact (enter_spec odd half 1).2.trans classOf_one
  · intro position number inside below
    obtain ⟨factorReduced, factor⟩ := squares_spec odd half depth reduced inside
    have entry := made position number (by simpa using inside) (by simpa using below)
    rw [Nat.zero_add] at entry
    rw [table, entry, decode_mul odd half (mul_bound _ factorReduced), factor]

end Denotation

end RingLwe.Twiddle
