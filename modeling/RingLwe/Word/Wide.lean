/-!
# Two-word numbers

The product of two words needs two words.  A wide number is a high and a low
word, read as `high · 2^64 + low`; the multiplication below splits each factor
into 32-bit halves, so that every partial product fits one word.

The natural number that a wide number denotes is `Wide.toNat`.  Multiplication
is exact for all words (`toNat_mul`); addition wraps at `2^128` (`toNat_add`).
-/

set_option autoImplicit false

namespace RingLwe

/-- A number of two words, the high one first. -/
structure Wide where
  high : UInt64
  low : UInt64
deriving DecidableEq, Repr, Inhabited

namespace Wide

/-- The natural number denoted by a wide number. -/
def toNat (number : Wide) : Nat :=
  number.high.toNat * UInt64.size + number.low.toNat

/-- Addition with carry from the low to the high word. -/
@[inline]
def add (left right : Wide) : Wide :=
  let low := left.low + right.low
  ⟨left.high + right.high + (if low < left.low then 1 else 0), low⟩

/-- The low 32 bits of a word. -/
@[inline]
def lowHalf (word : UInt64) : UInt64 :=
  word &&& 0xFFFFFFFF

/-- The high 32 bits of a word. -/
@[inline]
def highHalf (word : UInt64) : UInt64 :=
  word >>> 32

/-- The sum of what the three lower partial products leave for the middle of a product. -/
@[inline]
def middle (left right : UInt64) : UInt64 :=
  highHalf (lowHalf left * lowHalf right) + lowHalf (lowHalf left * highHalf right) +
    lowHalf (highHalf left * lowHalf right)

/-- The full product of two words. -/
@[inline]
def mul (left right : UInt64) : Wide where
  high := highHalf left * highHalf right + highHalf (lowHalf left * highHalf right) +
    highHalf (highHalf left * lowHalf right) + highHalf (middle left right)
  low := left * right

/-! ## What the operations denote -/

theorem toNat_lowHalf (word : UInt64) : (lowHalf word).toNat = word.toNat % UInt32.size := by
  rw [lowHalf, UInt64.toNat_and]
  exact Nat.and_two_pow_sub_one_eq_mod word.toNat 32

theorem toNat_highHalf (word : UInt64) : (highHalf word).toNat = word.toNat / UInt32.size := by
  rw [highHalf, UInt64.toNat_shiftRight]
  exact Nat.shiftRight_eq_div_pow word.toNat 32

theorem toNat_lowHalf_lt (word : UInt64) : (lowHalf word).toNat < UInt32.size := by
  rw [toNat_lowHalf]
  exact Nat.mod_lt _ (by decide)

theorem toNat_highHalf_lt (word : UInt64) : (highHalf word).toNat < UInt32.size := by
  rw [toNat_highHalf]
  exact Nat.div_lt_of_lt_mul word.toNat_lt

/-- Halves of words multiply without leaving the word. -/
theorem toNat_mul_of_half (left right : UInt64) (leftHalf : left.toNat < UInt32.size)
    (rightHalf : right.toNat < UInt32.size) :
    (left * right).toNat = left.toNat * right.toNat ∧
      left.toNat * right.toNat ≤ (UInt32.size - 1) * (UInt32.size - 1) := by
  have bound : left.toNat * right.toNat ≤ (UInt32.size - 1) * (UInt32.size - 1) :=
    Nat.mul_le_mul (Nat.le_sub_one_of_lt leftHalf) (Nat.le_sub_one_of_lt rightHalf)
  refine ⟨?_, bound⟩
  rw [UInt64.toNat_mul]
  simp only [UInt32.size] at bound
  exact Nat.mod_eq_of_lt (by omega)

/-- Addition of wide numbers is addition modulo `2^128`. -/
theorem toNat_add (left right : Wide) :
    (left.add right).toNat = (left.toNat + right.toNat) % (UInt64.size * UInt64.size) := by
  have leftHigh := left.high.toNat_lt
  have leftLow := left.low.toNat_lt
  have rightHigh := right.high.toNat_lt
  have rightLow := right.low.toNat_lt
  simp only [add, toNat, UInt64.toNat_add, UInt64.size]
  by_cases carry : left.low + right.low < left.low
  · have carried := UInt64.lt_iff_toNat_lt.mp carry
    rw [UInt64.toNat_add] at carried
    simp only [carry, if_true, UInt64.toNat_one]
    omega
  · have kept : ¬ (left.low + right.low).toNat < left.low.toNat :=
      fun less => carry (UInt64.lt_iff_toNat_lt.mpr less)
    rw [UInt64.toNat_add] at kept
    simp only [carry, if_false, UInt64.toNat_zero]
    omega

/-- Multiplication of words is exact in two words. -/
theorem toNat_mul (left right : UInt64) :
    (mul left right).toNat = left.toNat * right.toNat := by
  have leftLow := toNat_lowHalf left
  have leftHigh := toNat_highHalf left
  have rightLow := toNat_lowHalf right
  have rightHigh := toNat_highHalf right
  have leftBound := left.toNat_lt
  have rightBound := right.toNat_lt
  obtain ⟨lowLow, lowLowBound⟩ :=
    toNat_mul_of_half _ _ (toNat_lowHalf_lt left) (toNat_lowHalf_lt right)
  obtain ⟨lowHigh, lowHighBound⟩ :=
    toNat_mul_of_half _ _ (toNat_lowHalf_lt left) (toNat_highHalf_lt right)
  obtain ⟨highLow, highLowBound⟩ :=
    toNat_mul_of_half _ _ (toNat_highHalf_lt left) (toNat_lowHalf_lt right)
  obtain ⟨highHigh, highHighBound⟩ :=
    toNat_mul_of_half _ _ (toNat_highHalf_lt left) (toNat_highHalf_lt right)
  simp only [UInt32.size] at leftLow leftHigh rightLow rightHigh
  simp only [UInt32.size] at lowLowBound lowHighBound highLowBound highHighBound
  have expand : left.toNat * right.toNat =
      (highHalf left).toNat * (highHalf right).toNat * 18446744073709551616 +
        ((lowHalf left).toNat * (highHalf right).toNat +
          (highHalf left).toNat * (lowHalf right).toNat) * 4294967296 +
        (lowHalf left).toNat * (lowHalf right).toNat := by
    have splitLeft : left.toNat = (highHalf left).toNat * 4294967296 + (lowHalf left).toNat := by
      omega
    have splitRight : right.toNat = (highHalf right).toNat * 4294967296 + (lowHalf right).toNat := by
      omega
    rw [splitLeft, splitRight]
    grind
  simp only [mul, toNat, middle, UInt64.toNat_add, UInt64.toNat_mul left right,
    toNat_lowHalf (_ * _), toNat_highHalf (_ * _), toNat_highHalf (_ + _), lowLow, lowHigh,
    highLow, highHigh, UInt32.size, UInt64.size]
  rw [expand]
  omega

end Wide

end RingLwe
