import RingLwe.Proofs.Modular.Classes
import RingLwe.Transform.Montgomery

/-!
# What Montgomery words denote

The Montgomery product of two words whose product is below `q · 2^64` is
reduced, and times the radix it is their product (`mul_spec`).  So a word in
Montgomery form denotes its class divided by the radix, `decode`, and the
Montgomery product denotes the product (`decode_mul`).  Entering and leaving
the form go between a word's class and what it denotes (`enter_spec`,
`leave_spec`).
-/

set_option autoImplicit false

namespace RingLwe.Montgomery

open Residue

/-! ## The inverse modulo the radix -/

section NegInverse

variable {q : UInt64} (odd : q.toNat % 2 = 1)
include odd

/-- Adding a bit to a word whose lower bits are an inverse. -/
theorem bit_mul_mod {low position : Nat} (settled : low * q.toNat % 2 ^ position = 1) :
    (low + 2 ^ position * (low * q.toNat / 2 ^ position % 2)) * q.toNat % 2 ^ (position + 1) =
      1 := by
  have parts := Nat.mod_pow_succ (x := low * q.toNat) (b := 2) (k := position)
  rw [settled] at parts
  obtain ⟨half, halves⟩ : ∃ half, q.toNat = 2 * half + 1 := ⟨q.toNat / 2, by omega⟩
  generalize low * q.toNat / 2 ^ position % 2 = bit at parts ⊢
  have shifted : (low + 2 ^ position * bit) * q.toNat =
      low * q.toNat + 2 ^ position * bit + 2 ^ (position + 1) * (bit * half) := by
    rw [halves]
    ring
  have above : 1 < 2 ^ (position + 1) := Nat.one_lt_two_pow (Nat.succ_ne_zero _)
  calc (low + 2 ^ position * bit) * q.toNat % 2 ^ (position + 1)
      = (low * q.toNat % 2 ^ (position + 1) + 2 ^ position * bit) % 2 ^ (position + 1) := by
        rw [shifted, Nat.add_mul_mod_self_left, Nat.mod_add_mod]
    _ = (1 + 2 ^ (position + 1) * bit) % 2 ^ (position + 1) := by
        rw [parts]
        congr 1
        ring
    _ = 1 := by rw [Nat.add_mul_mod_self_left, Nat.mod_eq_of_lt above]

omit odd in
/-- Settling one more bit. -/
theorem toNat_inverseBit {inverse : UInt64} {position : Nat} (inside : position < 64)
    (small : inverse.toNat < 2 ^ position) :
    (inverseBit q inverse position).toNat =
      inverse.toNat + 2 ^ position * (inverse.toNat * q.toNat / 2 ^ position % 2) := by
  have word : position.toUInt64.toNat = position :=
    UInt64.toNat_ofNat_of_lt' (by simp only [UInt64.size]; omega)
  have mask : ((1 : UInt64) <<< position.toUInt64).toNat = 2 ^ position := by
    rw [UInt64.toNat_shiftLeft, word, Nat.mod_eq_of_lt inside, UInt64.toNat_one,
      Nat.one_shiftLeft]
    exact Nat.mod_eq_of_lt (Nat.pow_lt_pow_right (by decide) inside)
  have bit : (inverse.toNat * q.toNat % 2 ^ 64).testBit position =
      (inverse.toNat * q.toNat).testBit position := by
    rw [Nat.testBit_mod_two_pow]
    simp [inside]
  rw [inverseBit, UInt64.toNat_or, UInt64.toNat_and, UInt64.toNat_mul, mask, Nat.and_two_pow, bit,
    Nat.testBit_eq_decide_div_mod_eq, Nat.or_comm, Nat.mul_comm _ (2 ^ position),
    ← Nat.two_pow_add_eq_or_of_lt small, Nat.add_comm]
  congr 2
  rcases Nat.mod_two_eq_zero_or_one (inverse.toNat * q.toNat / 2 ^ position) with even | odd
  · simp [even]
  · simp [odd]

/-- Settling bit after bit keeps an inverse modulo the power of two of the settled bits. -/
theorem foldl_inverseBit (count : Nat) {start : Nat} {inverse : UInt64} (inside : start + count ≤ 64)
    (small : inverse.toNat < 2 ^ start) (settled : inverse.toNat * q.toNat % 2 ^ start = 1) :
    ((List.range' start count).foldl (inverseBit q) inverse).toNat * q.toNat %
      2 ^ (start + count) = 1 := by
  induction count generalizing start inverse with
  | zero => exact settled
  | succ count ih =>
    have value := toNat_inverseBit (q := q) (by omega : start < 64) small
    have exponent : start + (count + 1) = start + 1 + count := by omega
    rw [List.range'_succ, List.foldl_cons, exponent]
    refine @ih (start + 1) _ (by omega) ?_ ?_
    · have bit : inverse.toNat * q.toNat / 2 ^ start % 2 ≤ 1 := by omega
      have scaled := Nat.mul_le_mul_left (2 ^ start) bit
      rw [value, Nat.pow_succ]
      omega
    · rw [value]
      exact bit_mul_mod odd settled

/-- The constant is the negative of the inverse modulo the radix. -/
theorem negInverseOf_mul : negInverseOf q * q = -1 := by
  have unit : ((List.range' 1 63).foldl (inverseBit q) 1).toNat * q.toNat % 2 ^ (1 + 63) = 1 :=
    foldl_inverseBit odd 63 (by decide) (by decide)
      (by rw [UInt64.toNat_one, one_mul, pow_one, odd])
  have product : (List.range' 1 63).foldl (inverseBit q) 1 * q = 1 :=
    UInt64.toNat_inj.mp (by rw [UInt64.toNat_mul, UInt64.toNat_one]; exact unit)
  rw [negInverseOf, UInt64.neg_mul, product]

end NegInverse

/-! ## Products -/

theorem high_mul_size_of_low_eq_zero (number : Wide) (zero : number.low = 0) :
    number.high.toNat * UInt64.size = number.toNat := by
  rw [Wide.toNat, zero, UInt64.toNat_zero, Nat.add_zero]

section Product

variable {q : UInt64} (odd : q.toNat % 2 = 1) (half : 2 * q.toNat < UInt64.size)
include odd half

omit odd in
/-- The product of two words and a multiple of the modulus by a word add up to two words. -/
theorem sum_lt_size {left right : UInt64}
    (bound : left.toNat * right.toNat < q.toNat * UInt64.size) (multiple : UInt64) :
    left.toNat * right.toNat + multiple.toNat * q.toNat < UInt64.size * UInt64.size := by
  have small : multiple.toNat ≤ UInt64.size := Nat.le_of_lt multiple.toNat_lt
  have scaled := Nat.mul_le_mul_right q.toNat small
  have doubled := Nat.mul_lt_mul_of_pos_right half (by decide : 0 < UInt64.size)
  rw [Nat.mul_comm q.toNat] at bound
  rw [Nat.mul_assoc, Nat.mul_comm q.toNat] at doubled
  omega

/-- The high word of the product of two words with the multiple of the modulus that clears its low
word: times the radix it is that sum, and it is below twice the modulus. -/
theorem quotient_spec {left right : UInt64}
    (bound : left.toNat * right.toNat < q.toNat * UInt64.size) :
    ((Wide.mul left right).add
        (Wide.mul ((Wide.mul left right).low * negInverseOf q) q)).high.toNat * UInt64.size =
      left.toNat * right.toNat +
        ((Wide.mul left right).low * negInverseOf q).toNat * q.toNat ∧
    ((Wide.mul left right).add
        (Wide.mul ((Wide.mul left right).low * negInverseOf q) q)).high.toNat < 2 * q.toNat := by
  have cleared : ((Wide.mul left right).add
      (Wide.mul ((Wide.mul left right).low * negInverseOf q) q)).low = 0 := by
    change left * right + left * right * negInverseOf q * q = 0
    rw [UInt64.mul_assoc (left * right), negInverseOf_mul odd]
    grind
  generalize (Wide.mul left right).low * negInverseOf q = multiple at cleared ⊢
  have small : multiple.toNat < UInt64.size := multiple.toNat_lt
  have scaled : multiple.toNat * q.toNat < UInt64.size * q.toNat :=
    Nat.mul_lt_mul_of_pos_right small (by omega)
  have whole : (Wide.add (Wide.mul left right) (Wide.mul multiple q)).toNat =
      left.toNat * right.toNat + multiple.toNat * q.toNat := by
    rw [Wide.toNat_add, Wide.toNat_mul, Wide.toNat_mul]
    exact Nat.mod_eq_of_lt (sum_lt_size half bound multiple)
  have shifted := high_mul_size_of_low_eq_zero _ cleared
  rw [whole] at shifted
  refine ⟨shifted, ?_⟩
  refine Nat.lt_of_mul_lt_mul_right (a := UInt64.size) ?_
  rw [shifted, Nat.mul_assoc, Nat.mul_comm q.toNat UInt64.size]
  rw [Nat.mul_comm q.toNat] at bound
  omega

/-- The Montgomery product is reduced, and times the radix it is the product. -/
theorem mul_spec {left right : UInt64}
    (bound : left.toNat * right.toNat < q.toNat * UInt64.size) :
    (ofModulus q).mul left right < q ∧
      ((ofModulus q).mul left right).toNat * UInt64.size ≡ left.toNat * right.toNat
        [MOD q.toNat] := by
  obtain ⟨shifted, small⟩ := quotient_spec odd half bound
  have unfolded : (ofModulus q).mul left right =
      (if q ≤ ((Wide.mul left right).add
          (Wide.mul ((Wide.mul left right).low * negInverseOf q) q)).high
        then ((Wide.mul left right).add
          (Wide.mul ((Wide.mul left right).low * negInverseOf q) q)).high - q
        else ((Wide.mul left right).add
          (Wide.mul ((Wide.mul left right).low * negInverseOf q) q)).high) := rfl
  rw [unfolded]
  generalize ((Wide.mul left right).add
    (Wide.mul ((Wide.mul left right).low * negInverseOf q) q)).high = quotient at shifted small ⊢
  have congruent : quotient.toNat * UInt64.size ≡ left.toNat * right.toNat [MOD q.toNat] := by
    rw [shifted]
    exact Nat.add_mul_modulus_modEq_iff.mpr (Nat.ModEq.refl _)
  split
  next above =>
    have order := UInt64.le_iff_toNat_le.mp above
    have difference := UInt64.toNat_sub_of_le _ _ above
    refine ⟨UInt64.lt_iff_toNat_lt.mpr (by omega), ?_⟩
    have restored : quotient.toNat = (quotient - q).toNat + q.toNat := by omega
    rw [restored, Nat.add_mul] at congruent
    exact (Nat.add_modulus_mul_modEq_iff.mpr (Nat.ModEq.refl _)).symm.trans congruent
  next below => exact ⟨UInt64.not_le.mp below, congruent⟩

theorem mul_lt {left right : UInt64} (bound : left.toNat * right.toNat < q.toNat * UInt64.size) :
    (ofModulus q).mul left right < q :=
  (mul_spec odd half bound).1

omit odd half in
theorem mul_bound {right : UInt64} (left : UInt64) (reduced : right < q) :
    left.toNat * right.toNat < q.toNat * UInt64.size := by
  have small : left.toNat < UInt64.size := left.toNat_lt
  have below := UInt64.lt_iff_toNat_lt.mp reduced
  rw [Nat.mul_comm q.toNat]
  exact Nat.mul_lt_mul'' small below

theorem classOf_mul_size {left right : UInt64}
    (bound : left.toNat * right.toNat < q.toNat * UInt64.size) :
    classOf q ((ofModulus q).mul left right) * (UInt64.size : ZMod q.toNat) =
      classOf q left * classOf q right := by
  have congruent := (ZMod.natCast_eq_natCast_iff _ _ _).mpr (mul_spec odd half bound).2
  rw [Nat.cast_mul, Nat.cast_mul] at congruent
  exact congruent

end Product

/-! ## Montgomery form -/

/-- The class that a word in Montgomery form denotes. -/
def decode (q word : UInt64) : ZMod q.toNat :=
  classOf q word * (UInt64.size : ZMod q.toNat)⁻¹

variable {q : UInt64}

theorem decode_addReduced {left right : UInt64} (leftReduced : left < q) (rightReduced : right < q)
    (half : 2 * q.toNat < UInt64.size) :
    decode q (addReduced left right q) = decode q left + decode q right := by
  rw [decode, classOf_addReduced leftReduced rightReduced half, add_mul, decode, decode]

theorem decode_sub {left right : UInt64} (leftReduced : left < q) (rightReduced : right < q) :
    decode q (sub left right q) = decode q left - decode q right := by
  rw [decode, classOf_sub leftReduced rightReduced, sub_mul, decode, decode]

theorem radixSquaredOf_spec (positive : 0 < q.toNat) :
    radixSquaredOf q < q ∧
      classOf q (radixSquaredOf q) = (UInt64.size : ZMod q.toNat) * UInt64.size := by
  have value : (radixSquaredOf q).toNat =
      UInt64.size % q.toNat * (UInt64.size % q.toNat) % q.toNat :=
    toNat_toUInt64_of_lt (Nat.mod_lt _ positive)
  refine ⟨lt_of_toNat_eq_mod positive value, ?_⟩
  rw [classOf_of_toNat_eq_mod value, Nat.cast_mul, ZMod.natCast_mod]

section Form

variable (odd : q.toNat % 2 = 1)
include odd

theorem size_mul_inv : (UInt64.size : ZMod q.toNat) * (UInt64.size : ZMod q.toNat)⁻¹ = 1 := by
  refine ZMod.coe_mul_inv_eq_one _ ?_
  have coprime : Nat.Coprime (2 ^ 64) q.toNat :=
    Nat.Coprime.pow_left 64 (Nat.coprime_two_left.mpr (Nat.odd_iff.mpr odd))
  exact coprime

variable (half : 2 * q.toNat < UInt64.size)
include half

/-- The Montgomery product denotes the product. -/
theorem decode_mul {left right : UInt64}
    (bound : left.toNat * right.toNat < q.toNat * UInt64.size) :
    decode q ((ofModulus q).mul left right) = decode q left * decode q right := by
  have product := classOf_mul_size odd half bound
  have unit := size_mul_inv odd
  simp only [decode]
  linear_combination (UInt64.size : ZMod q.toNat)⁻¹ ^ 2 * product -
    (UInt64.size : ZMod q.toNat)⁻¹ * classOf q ((ofModulus q).mul left right) * unit

/-- Entering takes any word to a reduced word that denotes its class. -/
theorem enter_spec (word : UInt64) :
    (ofModulus q).enter word < q ∧ decode q ((ofModulus q).enter word) = classOf q word := by
  obtain ⟨reduced, square⟩ := radixSquaredOf_spec (q := q) (by omega)
  have bound := mul_bound word reduced
  refine ⟨mul_lt odd half bound, ?_⟩
  have unit := size_mul_inv odd
  change decode q ((ofModulus q).mul word (radixSquaredOf q)) = _
  rw [decode_mul odd half bound]
  simp only [decode, square]
  linear_combination classOf q word *
    ((UInt64.size : ZMod q.toNat) * (UInt64.size : ZMod q.toNat)⁻¹ + 1) * unit

omit odd half in
theorem leave_bound (positive : 0 < q.toNat) (word : UInt64) :
    word.toNat * (1 : UInt64).toNat < q.toNat * UInt64.size := by
  have small : word.toNat < UInt64.size := word.toNat_lt
  rw [UInt64.toNat_one, Nat.mul_one]
  exact Nat.lt_of_lt_of_le small (Nat.le_mul_of_pos_left _ positive)

/-- Leaving takes any word to the reduced word of what it denotes. -/
theorem leave_spec (word : UInt64) :
    (ofModulus q).leave word < q ∧ classOf q ((ofModulus q).leave word) = decode q word := by
  have bound := leave_bound (by omega : 0 < q.toNat) word
  refine ⟨mul_lt odd half bound, ?_⟩
  have product := classOf_mul_size odd half bound
  have unit := size_mul_inv odd
  rw [classOf_one, mul_one] at product
  change classOf q ((ofModulus q).mul word 1) = _
  simp only [decode]
  linear_combination (UInt64.size : ZMod q.toNat)⁻¹ * product -
    classOf q ((ofModulus q).mul word 1) * unit

end Form

end RingLwe.Montgomery
