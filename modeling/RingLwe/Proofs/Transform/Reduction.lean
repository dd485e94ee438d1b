import RingLwe.Proofs.Modular.Ranges
import RingLwe.Proofs.Transform.Montgomery

/-!
# Montgomery reduction with its ranges

The constants and the product of Montgomery arithmetic on natural numbers.
Products and sums are refused when they leave two words, the division by the
radix when the number is not a multiple of it, and the conversion to a word when
the number is none (`reduce?`, `radixSquared?`).  Only the product with the
negative inverse wraps.

For an odd modulus below half of the radix, nothing is refused for any two words
whose product is below `q · 2^64`, and the answer is the reduced word of the
product divided by the radix (`reduces_exactly`).  The multiple of the modulus
that is added clears the low word of the sum, and keeps the sum below twice
`q · 2^64` (`quotient_spec`).
-/

set_option autoImplicit false

namespace RingLwe

namespace Exact

/-- A number divided by the radix, unless bits are lost. -/
def shift (number : Nat) : Option Nat :=
  if number % UInt64.size = 0 then some (number / UInt64.size) else none

theorem shift_mul_size (number : Nat) : shift (number * UInt64.size) = some number := by
  rw [shift, if_pos (Nat.mul_mod_left _ _), Nat.mul_div_cancel _ (by decide)]

end Exact

namespace Montgomery

open Residue

/-! ## Operations -/

/-- The square of the radix modulo a word, with its ranges. -/
def radixSquared? (q : UInt64) : Option UInt64 := do
  let radix ← Exact.double UInt64.size
  let square ← Exact.double (radix % q.toNat * (radix % q.toNat))
  Exact.narrow (square % q.toNat)

/-- The Montgomery product on natural numbers, with its ranges. -/
def reduce? (arithmetic : Montgomery) (left right : UInt64) : Option UInt64 := do
  let product ← Exact.double (left.toNat * right.toNat)
  let multiplier := product.toUInt64 * arithmetic.negInverse
  let multiple ← Exact.double (multiplier.toNat * arithmetic.modulus.toNat)
  let sum ← Exact.double (product + multiple)
  let quotient ← Exact.narrow (← Exact.shift sum)
  if arithmetic.modulus ≤ quotient then Exact.sub quotient arithmetic.modulus else some quotient

variable {q : UInt64}

/-- The square of a remainder by a word is in two words. -/
theorem radixSquared?_eq (positive : 0 < q.toNat) :
    radixSquared? q = some (radixSquaredOf q) := by
  have below : UInt64.size % q.toNat < UInt64.size :=
    Nat.lt_trans (Nat.mod_lt _ positive) q.toNat_lt
  have radix : Exact.double UInt64.size = some UInt64.size := if_pos (by decide)
  have square : Exact.double (UInt64.size % q.toNat * (UInt64.size % q.toNat)) =
      some (UInt64.size % q.toNat * (UInt64.size % q.toNat)) :=
    if_pos (Nat.mul_lt_mul'' below below)
  rw [radixSquared?, radix, Option.bind_eq_bind, Option.bind_some, square, Option.bind_some,
    Exact.narrow_mod positive, radixSquaredOf]

section Product

variable (odd : q.toNat % 2 = 1) (half : 2 * q.toNat < UInt64.size)
include odd half

/-- The sum with the cleared low word is in two words, and its high word loses nothing. -/
theorem reduce?_eq {left right : UInt64}
    (bound : left.toNat * right.toNat < q.toNat * UInt64.size) :
    (ofModulus q).reduce? left right = some ((ofModulus q).mul left right) := by
  obtain ⟨shifted, -⟩ := quotient_spec odd half bound
  have low : (left.toNat * right.toNat).toUInt64 = (Wide.mul left right).low := by
    rw [Nat.toUInt64_eq, UInt64.ofNat_mul, UInt64.ofNat_toNat, UInt64.ofNat_toNat]
    rfl
  have sum : Exact.double (left.toNat * right.toNat +
        ((Wide.mul left right).low * negInverseOf q).toNat * q.toNat) =
      some (left.toNat * right.toNat +
        ((Wide.mul left right).low * negInverseOf q).toNat * q.toNat) :=
    if_pos (sum_lt_size half bound _)
  simp only [reduce?, ofModulus, Option.bind_eq_bind, Exact.double_mul, Option.bind_some, low, sum,
    mul]
  rw [← shifted, Exact.shift_mul_size, Option.bind_some, Exact.narrow_toNat, Option.bind_some]
  exact Exact.sub_of_le_or_self _ q

/-- The Montgomery product has the class of the product divided by the radix. -/
theorem classOf_mul_eq {left right : UInt64}
    (bound : left.toNat * right.toNat < q.toNat * UInt64.size) :
    classOf q ((ofModulus q).mul left right) =
      classOf q left * classOf q right * (UInt64.size : ZMod q.toNat)⁻¹ := by
  rw [← classOf_mul_size odd half bound, mul_assoc, size_mul_inv odd, mul_one]

omit half in
/-- A reduced word that denotes a number is the Montgomery form of the number: its product with the
radix, reduced. -/
theorem toNat_of_decode_eq {word : UInt64} {number : Nat} (reduced : word < q)
    (denoted : decode q word = number) : word.toNat = number * UInt64.size % q.toNat := by
  have unit := size_mul_inv odd
  refine toNat_eq_mod_of_classOf_eq reduced ?_
  rw [Nat.cast_mul, ← denoted, decode]
  linear_combination -classOf q word * unit

omit half in
theorem decode_of_toNat_eq {word : UInt64} {number : Nat}
    (form : word.toNat = number * UInt64.size % q.toNat) : decode q word = number := by
  rw [decode, classOf_of_toNat_eq_mod form, Nat.cast_mul, mul_assoc, size_mul_inv odd, mul_one]

theorem toNat_enter (word : UInt64) :
    ((ofModulus q).enter word).toNat = word.toNat * UInt64.size % q.toNat := by
  obtain ⟨reduced, denoted⟩ := enter_spec odd half word
  exact toNat_of_decode_eq odd reduced denoted

end Product

/-! ## Correctness -/

/-- For an odd modulus the constant times the modulus is minus one in words.  If the modulus is below
half of the radix, the radix is invertible, and the product of two words loses and overflows nothing
whenever it is below `q · 2^64`, which it is if one of them is reduced.  The answer is then reduced, and
is the product divided by the radix.  So the square of the radix takes every word to its Montgomery
form. -/
theorem reduces_exactly (odd : q.toNat % 2 = 1) :
    negInverseOf q * q = -1 ∧
    (q.toNat < 2 ^ 63 →
      (UInt64.size : ZMod q.toNat) * (UInt64.size : ZMod q.toNat)⁻¹ = 1 ∧
      (∀ left right : UInt64, left.toNat * right.toNat < q.toNat * UInt64.size →
        (ofModulus q).reduce? left right = some ((ofModulus q).mul left right) ∧
        (ofModulus q).mul left right < q ∧
        classOf q ((ofModulus q).mul left right) =
          classOf q left * classOf q right * (UInt64.size : ZMod q.toNat)⁻¹) ∧
      (∀ left right : UInt64, right < q → left.toNat * right.toNat < q.toNat * UInt64.size) ∧
      radixSquared? q = some (radixSquaredOf q) ∧
      ∀ word : UInt64,
        (ofModulus q).reduce? word (radixSquaredOf q) = some ((ofModulus q).enter word) ∧
        ((ofModulus q).enter word).toNat = word.toNat * UInt64.size % q.toNat) := by
  refine ⟨negInverseOf_mul odd, fun small => ?_⟩
  have positive : 0 < q.toNat := by omega
  have half : 2 * q.toNat < UInt64.size := by
    simp only [UInt64.size]
    omega
  refine ⟨size_mul_inv odd, fun left right bound => ?_, fun left _ reduced => mul_bound left reduced,
    radixSquared?_eq positive, fun word => ?_⟩
  · exact ⟨reduce?_eq odd half bound, mul_lt odd half bound, classOf_mul_eq odd half bound⟩
  · have bound := mul_bound word (radixSquaredOf_spec positive).1
    exact ⟨reduce?_eq odd half bound, toNat_enter odd half word⟩

/-- The greatest modulus below half of the radix is composite.  The radix leaves two, so that the form
of a word is its double; the product of the greatest word with the unreduced modulus is zero. -/
theorem reduces_greatest :
    (∃ word, (ofModulus 9223372036854775807).reduce? 18446744073709551615 9223372036854775807 =
      some word ∧ word < 9223372036854775807 ∧ classOf 9223372036854775807 word = 0) ∧
    ((ofModulus 9223372036854775807).enter 3).toNat = 6 := by
  have odd : (9223372036854775807 : UInt64).toNat % 2 = 1 := by decide
  obtain ⟨_, _, products, _, _, forms⟩ := (reduces_exactly odd).imp_right (· (by decide))
  obtain ⟨answers, reduced, denoted⟩ :=
    products 18446744073709551615 9223372036854775807 (by decide)
  have zero : classOf 9223372036854775807 9223372036854775807 = 0 := ZMod.natCast_self _
  refine ⟨⟨_, answers, reduced, ?_⟩, ?_⟩
  · rw [denoted, zero, mul_zero, zero_mul]
  · rw [(forms 3).2]
    decide

end Montgomery

end RingLwe
