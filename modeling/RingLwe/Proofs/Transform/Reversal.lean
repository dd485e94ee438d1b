import RingLwe.Proofs.Transform.Twiddle

/-!
# Bit-reversed order

The reversal of the `width` lowest bits of a number (`bitReverse`) has every
bit at the same distance from the other end (`testBit_bitReverse`).  A new
lowest bit of the number becomes the highest bit of the reversal
(`bitReverse_two_mul_add`), a new highest bit becomes a low one
(`bitReverse_two_pow_add`), and numbers without a common bit are reversed one by
one (`bitReverse_add_of_disjoint`).

The twiddle factors of a root are its powers with reversed exponents
(`Twiddle.Powers.eq_pow_bitReverse`).  So the points at which the forward
network evaluates are the odd powers of the root of `-1` in bit-reversed order
(`Twiddle.Powers.leaves_eq`).
-/

set_option autoImplicit false

namespace RingLwe

/-! ## Reversal of bits -/

/-- The number whose bits are the lowest bits of another number in reverse. -/
def bitReverse : (width number : Nat) → Nat
  | 0, _ => 0
  | width + 1, number => number % 2 * 2 ^ width + bitReverse width (number / 2)

@[simp]
theorem bitReverse_zero (width : Nat) : bitReverse width 0 = 0 := by
  induction width with
  | zero => rfl
  | succ width ih => rw [bitReverse, Nat.zero_mod, Nat.zero_mul, Nat.zero_div, ih]

theorem bitReverse_lt (width number : Nat) : bitReverse width number < 2 ^ width := by
  induction width generalizing number with
  | zero => exact Nat.one_pos
  | succ width ih =>
    have rest := ih (number / 2)
    have bit : number % 2 * 2 ^ width ≤ 1 * 2 ^ width := Nat.mul_le_mul_right _ (by omega)
    rw [bitReverse, pow_succ]
    omega

/-- Bit `position` of a reversed number is the bit at the same distance from the other end. -/
theorem testBit_bitReverse {width position : Nat} (number : Nat) (inside : position < width) :
    (bitReverse width number).testBit position = number.testBit (width - 1 - position) := by
  induction width generalizing number with
  | zero => cases inside
  | succ width ih =>
    have small := bitReverse_lt width (number / 2)
    rw [bitReverse, Nat.mul_comm, Nat.testBit_two_pow_mul_add _ small]
    rcases Nat.lt_succ_iff_lt_or_eq.mp inside with lower | rfl
    · rw [if_pos lower, ih _ lower, Nat.testBit_div_two]
      congr 1
      omega
    · rw [if_neg (Nat.lt_irrefl _), Nat.sub_self, Nat.add_sub_cancel, Nat.sub_self,
        Nat.testBit_zero, Nat.testBit_zero, Nat.mod_mod]

/-- A new lowest bit of a number is a new highest bit of its reversal. -/
theorem bitReverse_two_mul_add {width : Nat} (number : Nat) {bit : Nat} (small : bit < 2) :
    bitReverse (width + 1) (2 * number + bit) = bit * 2 ^ width + bitReverse width number := by
  have parity : (2 * number + bit) % 2 = bit := by omega
  have half : (2 * number + bit) / 2 = number := by omega
  rw [bitReverse, parity, half]

/-- The reversal of a number among more bits is shifted up by their number. -/
theorem bitReverse_add (extra : Nat) {width number : Nat} (small : number < 2 ^ width) :
    bitReverse (width + extra) number = 2 ^ extra * bitReverse width number := by
  induction width generalizing number with
  | zero =>
    have none : number = 0 := by omega
    rw [none, bitReverse_zero, bitReverse_zero, Nat.mul_zero]
  | succ width ih =>
    rw [pow_succ] at small
    rw [Nat.succ_add, bitReverse, bitReverse, ih (by omega), Nat.mul_add, pow_add]
    congr 1
    ring

/-- A new highest bit of a number is a new low bit of its reversal. -/
theorem bitReverse_two_pow_add {width position number : Nat} (inside : position < width)
    (small : number < 2 ^ position) :
    bitReverse width (2 ^ position + number) =
      2 ^ (width - 1 - position) + bitReverse width number := by
  induction width generalizing position number with
  | zero => cases inside
  | succ width ih =>
    cases position with
    | zero =>
      have none : number = 0 := by omega
      rw [none, bitReverse, pow_zero, bitReverse_zero]
      simp
    | succ position =>
      rw [pow_succ] at small
      have parity : (2 ^ (position + 1) + number) % 2 = number % 2 := by
        rw [pow_succ]
        omega
      have half : (2 ^ (position + 1) + number) / 2 = 2 ^ position + number / 2 := by
        rw [pow_succ]
        omega
      have distance : width + 1 - 1 - (position + 1) = width - 1 - position := by omega
      rw [bitReverse, bitReverse, parity, half, distance,
        ih (Nat.lt_of_succ_lt_succ inside) (by omega)]
      omega

/-- Reversal is additive over disjoint bits. -/
theorem bitReverse_add_of_disjoint (width : Nat) {left right : Nat} (disjoint : left &&& right = 0) :
    bitReverse width (left + right) = bitReverse width left + bitReverse width right := by
  induction width generalizing left right with
  | zero => rfl
  | succ width ih =>
    have apart : ¬(left % 2 = 1 ∧ right % 2 = 1) := by
      rw [← Nat.and_mod_two_eq_one, disjoint]
      decide
    have halves : left / 2 &&& right / 2 = 0 := by rw [← Nat.and_div_two, disjoint]
    have parity : (left + right) % 2 = left % 2 + right % 2 := by omega
    have half : (left + right) / 2 = left / 2 + right / 2 := by omega
    rw [bitReverse, bitReverse, bitReverse, parity, half, ih halves]
    ring

/-! ## Powers in bit-reversed order -/

namespace Twiddle.Powers

variable {R : Type} [CommRing R] {entries : Nat → R} {root : R} {total : Nat}
  (powers : Powers entries root total)
include powers

/-- The entries are the powers of the root with reversed exponents. -/
theorem eq_pow_bitReverse {number : Nat} (below : number < 2 ^ total) :
    entries number = root ^ bitReverse total number := by
  refine bitwise_induction total (motive := fun number => entries number =
    root ^ bitReverse total number) ?_ ?_ number below
  · rw [powers.first, bitReverse_zero, pow_zero]
  · intro position number inside small ih
    rw [powers.bit position number inside small, ih, bitReverse_two_pow_add inside small, pow_add,
      mul_comm]

/-- The entry of a node, by its level and its index on the level. -/
theorem entry_of_level {level depth index : Nat} (levels : level + (depth + 1) = total)
    (inside : index < 2 ^ level) :
    entries (2 ^ level + index) = root ^ (2 ^ depth * (2 * bitReverse level index + 1)) := by
  have first : 2 ^ level + index < 2 ^ total := by
    have larger : 2 ^ (level + 1) ≤ 2 ^ total := Nat.pow_le_pow_right (by decide) (by omega)
    rw [pow_succ] at larger
    omega
  have distance : total - 1 - level = depth := by omega
  have reversed : bitReverse total index = 2 ^ (depth + 1) * bitReverse level index := by
    rw [← levels, bitReverse_add _ inside]
  rw [powers.eq_pow_bitReverse first, bitReverse_two_pow_add (by omega) inside, distance, reversed]
  congr 1
  ring

variable (negative : root ^ 2 ^ total = -1)
include negative

/-- The points below a node are odd powers of the root, in bit-reversed order. -/
theorem leaves_of_level (depth : Nat) {level index : Nat} (levels : level + depth = total)
    (inside : index < 2 ^ level) :
    Negacyclic.leaves entries depth (2 ^ level + index)
        (root ^ (2 ^ depth * (2 * bitReverse level index + 1))) =
      (List.range (2 ^ depth)).map fun position =>
        root ^ (2 * bitReverse total (2 ^ depth * index + position) + 1) := by
  induction depth generalizing level index with
  | zero =>
    rw [Nat.add_zero] at levels
    rw [Negacyclic.leaves, levels]
    simp
  | succ depth ih =>
    have here := powers.entry_of_level levels inside
    have deeper : level + 1 + depth = total := by omega
    have left := @ih (level + 1) (2 * index + 0) deeper (by rw [pow_succ]; omega)
    have right := @ih (level + 1) (2 * index + 1) deeper (by rw [pow_succ]; omega)
    have leftNode : 2 ^ (level + 1) + (2 * index + 0) = 2 * (2 ^ level + index) := by ring
    have rightNode : 2 ^ (level + 1) + (2 * index + 1) = 2 * (2 ^ level + index) + 1 := by ring
    have leftConstant : root ^ (2 ^ depth * (2 * bitReverse (level + 1) (2 * index + 0) + 1)) =
        entries (2 ^ level + index) := by
      rw [here, bitReverse_two_mul_add _ (by decide), Nat.zero_mul, Nat.zero_add]
    have rightConstant : root ^ (2 ^ depth * (2 * bitReverse (level + 1) (2 * index + 1) + 1)) =
        -entries (2 ^ level + index) := by
      have exponent : 2 ^ depth * (2 * (1 * 2 ^ level + bitReverse level index) + 1) =
          2 ^ total + 2 ^ depth * (2 * bitReverse level index + 1) := by
        rw [← deeper]
        ring
      rw [here, bitReverse_two_mul_add _ (by decide), exponent, pow_add, negative, neg_one_mul]
    rw [leftNode, leftConstant] at left
    rw [rightNode, rightConstant] at right
    rw [Negacyclic.leaves, left, right, pow_succ, Nat.mul_two, List.range_add, List.map_append,
      List.map_map]
    congr 1
    · refine List.map_congr_left fun position _ => ?_
      congr 4
      ring
    · refine List.map_congr_left fun position _ => ?_
      rw [Function.comp_apply]
      congr 4
      ring

/-- The points of the whole network are the odd powers of the root, in bit-reversed order. -/
theorem leaves_eq : Negacyclic.leaves entries total 1 (-1) =
    (List.range (2 ^ total)).map fun position => root ^ (2 * bitReverse total position + 1) := by
  have whole := powers.leaves_of_level negative total (Nat.zero_add total)
    (Nat.one_pos : 0 < 2 ^ 0)
  rw [bitReverse_zero, Nat.mul_zero, Nat.zero_add, Nat.mul_one, negative, Nat.mul_zero, pow_zero,
    Nat.add_zero] at whole
  rw [whole]
  simp only [Nat.zero_add]

end Twiddle.Powers

end RingLwe
