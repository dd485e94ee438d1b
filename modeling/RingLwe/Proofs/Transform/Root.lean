import RingLwe.Proofs.Modular.Power
import RingLwe.Transform.Root

/-!
# The search for a root of unity

The search for a root of unity tries one base after the other until the power
of a base has the wanted order.  Modulo an odd prime the power of a base has it
exactly if the base is no square (`hasOrder_iff_not_isSquare`), and some number
below the prime is no square (`exists_isLeast_nonsquare`).  So the search stops
at the least number that is no square (`exists_primitive?`).

The test looks at the power with the order and at the power with half of it.  If
the first is one and the second is not, the second is minus one
(`pow_of_hasOrder`).  Where the order is a power of two this is enough for the
exact order (`finds_primitive`); for other even orders it is not.
-/

set_option autoImplicit false

namespace RingLwe.Root

open Residue

/-! ## Bases that are no squares -/

/-- The least number that is no square modulo an odd prime is below the prime, and neither zero nor
one. -/
theorem exists_isLeast_nonsquare {q : Nat} (prime : q.Prime) (odd : q % 2 = 1) :
    ∃ base, IsLeast {number : Nat | ¬IsSquare (number : ZMod q)} base ∧ 2 ≤ base ∧ base < q := by
  classical
  have fact : Fact q.Prime := ⟨prime⟩
  have characteristic : ringChar (ZMod q) ≠ 2 := by
    rw [ZMod.ringChar_zmod_n]
    omega
  obtain ⟨residue, nonsquare⟩ := FiniteField.exists_nonsquare characteristic
  rw [← ZMod.natCast_zmod_val residue] at nonsquare
  have present : ∃ number : Nat, ¬IsSquare (number : ZMod q) := ⟨residue.val, nonsquare⟩
  refine ⟨Nat.find present, Nat.isLeast_find present,
    (Nat.le_find_iff present 2).mpr fun small less => not_not_intro ?_,
    Nat.lt_of_le_of_lt (Nat.find_min' present nonsquare) (ZMod.val_lt residue)⟩
  have few : small = 0 ∨ small = 1 := by omega
  rcases few with rfl | rfl
  · rw [Nat.cast_zero]
    exact IsSquare.zero
  · rw [Nat.cast_one]
    exact IsSquare.one

/-! ## The test -/

section Test

variable {order q : UInt64} (prime : Nat.Prime q.toNat) (even : order.toNat % 2 = 0)
include prime even

/-- A residue that passes is a root of unity of the order, and its power with half of the order is minus
one. -/
theorem pow_of_hasOrder {residue : UInt64} (ordered : hasOrder order q residue = true) :
    classOf q residue ^ order.toNat = 1 ∧ classOf q residue ^ (order.toNat / 2) = -1 := by
  have fact : Fact q.toNat.Prime := ⟨prime⟩
  have halved : (order / 2).toNat = order.toNat / 2 := UInt64.toNat_div order 2
  simp only [hasOrder, Bool.and_eq_true, beq_iff_eq, bne_iff_ne, ne_eq,
    powAboveOne_eq_one_iff prime.two_le, halved] at ordered
  obtain ⟨whole, half⟩ := ordered
  refine ⟨whole, (sq_eq_one_iff.mp ?_).resolve_left half⟩
  rw [← pow_mul, Nat.div_mul_cancel (Nat.dvd_of_mod_eq_zero even), whole]

variable (congruent : q.toNat % order.toNat = 1)
include congruent

omit prime in
theorem odd_of_congruent : q.toNat % 2 = 1 := by
  rw [← Nat.mod_mod_of_dvd q.toNat (Nat.dvd_of_mod_eq_zero even), congruent]

omit even in
theorem exponent_spec : ((q - 1) / order).toNat = (q.toNat - 1) / order.toNat ∧
    (q.toNat - 1) / order.toNat * order.toNat = q.toNat - 1 := by
  have above := prime.two_le
  refine ⟨by rw [UInt64.toNat_div, toNat_sub_one prime.pos], Nat.div_mul_cancel ?_⟩
  exact (Nat.modEq_iff_dvd' (by omega)).mp (congruent ▸ (Nat.mod_modEq _ _))

/-- The power of a base has the order for which it is taken exactly if the base is no square. -/
theorem hasOrder_iff_not_isSquare (base : UInt64) :
    hasOrder order q (powAboveOne base ((q - 1) / order) q) = true ↔
      ¬IsSquare (classOf q base) := by
  have fact : Fact q.toNat.Prime := ⟨prime⟩
  have above := prime.two_le
  have odd := odd_of_congruent even congruent
  obtain ⟨exponent, whole⟩ := exponent_spec prime congruent
  have halved : (order / 2).toNat = order.toNat / 2 := UInt64.toNat_div order 2
  have half : (q.toNat - 1) / order.toNat * (order.toNat / 2) = q.toNat / 2 := by
    rw [← Nat.mul_div_assoc _ (Nat.dvd_of_mod_eq_zero even), whole]
    omega
  simp only [hasOrder, Bool.and_eq_true, beq_iff_eq, bne_iff_ne, ne_eq,
    powAboveOne_eq_one_iff above, classOf_powAboveOne above, exponent, ← pow_mul, halved, half,
    whole]
  by_cases zero : classOf q base = 0
  · have never : ¬(0 : ZMod q.toNat) ^ (q.toNat - 1) = 1 := by
      rw [zero_pow (by omega)]
      exact zero_ne_one
    rw [zero]
    exact iff_of_false (fun both => never both.1) (not_not_intro IsSquare.zero)
  · rw [ZMod.euler_criterion q.toNat zero]
    exact and_iff_right (ZMod.pow_card_sub_one_eq_one zero)

end Test

/-! ## The search -/

/-- The search stops at the first base that gives the order. -/
theorem searchFrom_eq_some {order q : UInt64} {tries offset : Nat} {base : UInt64}
    (tried : offset < tries)
    (found : hasOrder order q (powAboveOne (base + offset.toUInt64) ((q - 1) / order) q) = true)
    (refused : ∀ earlier < offset,
      ¬hasOrder order q (powAboveOne (base + earlier.toUInt64) ((q - 1) / order) q) = true) :
    searchFrom order q tries base =
      some (powAboveOne (base + offset.toUInt64) ((q - 1) / order) q) := by
  induction tries generalizing base offset with
  | zero => cases tried
  | succ tries ih =>
    have start : base + (0 : Nat).toUInt64 = base := UInt64.add_zero base
    rw [searchFrom]
    cases offset with
    | zero =>
      rw [start] at found ⊢
      rw [if_pos found]
    | succ offset =>
      have next (number : Nat) :
          base + (number + 1 : Nat).toUInt64 = base + 1 + number.toUInt64 := by
        rw [Nat.toUInt64_eq, Nat.toUInt64_eq, UInt64.ofNat_add, UInt64.add_assoc,
          UInt64.add_comm (UInt64.ofNat number)]
        rfl
      have first := refused 0 (Nat.succ_pos offset)
      rw [start] at first
      rw [next] at found ⊢
      rw [if_neg first]
      refine ih (Nat.lt_of_succ_lt_succ tried) found fun earlier before => ?_
      rw [← next]
      exact refused (earlier + 1) (Nat.succ_lt_succ before)

section Search

variable {order q : UInt64} (prime : Nat.Prime q.toNat) (even : order.toNat % 2 = 0)
  (congruent : q.toNat % order.toNat = 1)
include prime even congruent

/-- Modulo a prime that is one more than a multiple of an even order, the search finds the power of the
least base that is no square. -/
theorem exists_primitive? :
    ∃ base root, IsLeast {number : Nat | ¬IsSquare (number : ZMod q.toNat)} base ∧ 2 ≤ base ∧
      base < q.toNat ∧ primitive? order q = some root ∧ root < q ∧
      root.toNat = base ^ ((q.toNat - 1) / order.toNat) % q.toNat ∧
      hasOrder order q root = true := by
  obtain ⟨base, least, atLeast, below⟩ :=
    exists_isLeast_nonsquare prime (odd_of_congruent even congruent)
  have above := prime.two_le
  have small := q.toNat_lt
  have value (number : Nat) (less : number < q.toNat - 2) :
      (2 + number.toUInt64).toNat = 2 + number := by
    have two : (2 : UInt64).toNat = 2 := rfl
    rw [UInt64.toNat_add, two, Nat.toUInt64_eq, UInt64.toNat_ofNat', Nat.mod_eq_of_lt (by omega),
      Nat.mod_eq_of_lt (by omega)]
  have reached : (2 + (base - 2 : Nat).toUInt64).toNat = base := by
    rw [value _ (by omega)]
    omega
  have found := (hasOrder_iff_not_isSquare prime even congruent (2 + (base - 2 : Nat).toUInt64)).mpr
    (by rw [classOf, reached]; exact least.1)
  refine ⟨base, powAboveOne (2 + (base - 2 : Nat).toUInt64) ((q - 1) / order) q, least, atLeast,
    below, ?_, powAboveOne_lt above _ _, ?_, found⟩
  · refine searchFrom_eq_some (by omega) found fun earlier before => ?_
    rw [hasOrder_iff_not_isSquare prime even congruent, classOf, value _ (by omega)]
    intro nonsquare
    have bound : base ≤ 2 + earlier := least.2 nonsquare
    omega
  · rw [toNat_powAboveOne above, reached, (exponent_spec prime congruent).1]

end Search

/-- Modulo a prime that is one more than a multiple of a power of two above one, the search ends before
the bases are exhausted, at the least base that is no square.  It gives a reduced root of unity whose
power with half of the order is minus one, and which has therefore exactly the order. -/
theorem finds_primitive {order q : UInt64} {depth : Nat} (power : order.toNat = 2 ^ (depth + 1))
    (prime : Nat.Prime q.toNat) (congruent : q.toNat % order.toNat = 1) :
    ∃ base root, IsLeast {number : Nat | ¬IsSquare (number : ZMod q.toNat)} base ∧ 2 ≤ base ∧
      base < q.toNat ∧ primitive? order q = some root ∧ root < q ∧
      root.toNat = base ^ ((q.toNat - 1) / order.toNat) % q.toNat ∧
      classOf q root ^ order.toNat = 1 ∧ classOf q root ^ (order.toNat / 2) = -1 ∧
      orderOf (classOf q root) = order.toNat := by
  have fact : Fact (2 < q.toNat) := ⟨by
    have odd := odd_of_congruent (by rw [power, pow_succ, Nat.mul_mod_left]) congruent
    have above := prime.two_le
    omega⟩
  have even : order.toNat % 2 = 0 := by rw [power, pow_succ, Nat.mul_mod_left]
  have halved : order.toNat / 2 = 2 ^ depth := by
    rw [power, pow_succ, Nat.mul_div_cancel _ (by decide)]
  obtain ⟨base, root, least, atLeast, below, found, reduced, value, ordered⟩ :=
    exists_primitive? prime even congruent
  obtain ⟨whole, half⟩ := pow_of_hasOrder prime even ordered
  refine ⟨base, root, least, atLeast, below, found, reduced, value, whole, half, ?_⟩
  rw [halved] at half
  rw [power] at whole ⊢
  refine orderOf_eq_prime_pow ?_ whole
  rw [half]
  exact ZMod.neg_one_ne_one

/-- Modulo three the search for minus one takes the only base there is.  Modulo 17 the search for a square
root of minus one takes the power of three. -/
theorem finds_primitive_small :
    (primitive? 2 3 = some 2 ∧ orderOf (classOf 3 2) = 2) ∧
      primitive? 4 17 = some 13 ∧ classOf 17 13 ^ 2 = -1 ∧ orderOf (classOf 17 13) = 4 := by
  have three : Nat.Prime (3 : UInt64).toNat := Nat.prime_three
  have seventeen : Nat.Prime (17 : UInt64).toNat := by
    change Nat.Prime 17
    norm_num
  have negative : primitive? 2 3 = some 2 := by decide
  have imaginary : primitive? 4 17 = some 13 := by decide
  obtain ⟨_, last, _, _, _, found, _, _, _, _, order⟩ :=
    @finds_primitive 2 3 0 rfl three (by decide)
  obtain ⟨_, root, _, _, _, found', _, _, _, half, order'⟩ :=
    @finds_primitive 4 17 1 rfl seventeen (by decide)
  cases negative.symm.trans found
  cases imaginary.symm.trans found'
  exact ⟨⟨negative, order⟩, imaginary, half, order'⟩

-- The test does not settle other even orders: modulo 43 it takes minus one for a root of order six.
example : primitive? 6 43 = some 42 ∧ pow 42 2 43 = 1 := by decide

end RingLwe.Root
