import RingLwe.Proofs.Modular.Classes

/-!
# Powers of residues

Repeated squaring keeps the product of the result so far with the power that
is still to be taken (`classOf_powFrom`), so its answer is the power modulo `q`
(`toNat_pow`, `toNat_powAboveOne`).  Modulo a prime, the power with the exponent
`q - 2` is the inverse (`classOf_mul_powAboveOne`).
-/

set_option autoImplicit false

namespace RingLwe.Residue

variable {q : UInt64}

theorem toNat_and_one (word : UInt64) : (word &&& 1).toNat = word.toNat % 2 := by
  rw [UInt64.toNat_and]
  exact Nat.and_one_is_mod word.toNat

theorem toNat_shiftRight_one (word : UInt64) : (word >>> 1).toNat = word.toNat / 2 := by
  rw [UInt64.toNat_shiftRight]
  exact Nat.shiftRight_eq_div_pow word.toNat 1

/-- Repeated squaring multiplies the result by the power that is still to be taken. -/
theorem classOf_powFrom (positive : 0 < q.toNat) (bits : Nat) (result base exponent : UInt64)
    (fits : exponent.toNat < 2 ^ bits) :
    classOf q (powFrom q bits result base exponent) =
      classOf q result * classOf q base ^ exponent.toNat := by
  induction bits generalizing result base exponent with
  | zero =>
    have none : exponent.toNat = 0 := by omega
    rw [powFrom, none, pow_zero, mul_one]
  | succ bits ih =>
    unfold powFrom
    split
    next zero => rw [zero, UInt64.toNat_zero, pow_zero, mul_one]
    next nonzero =>
      have half : (exponent >>> 1).toNat = exponent.toNat / 2 := toNat_shiftRight_one exponent
      have shorter : (exponent >>> 1).toNat < 2 ^ bits := by
        rw [half]
        rw [pow_succ] at fits
        omega
      have square : classOf q (mul base base q) ^ (exponent.toNat / 2) =
          classOf q base ^ (2 * (exponent.toNat / 2)) := by
        rw [classOf_mul positive, pow_mul, sq]
      rw [ih _ _ _ shorter, half, square]
      split
      next odd =>
        have parity : exponent.toNat % 2 = 1 := by
          rw [← toNat_and_one, odd, UInt64.toNat_one]
        have halves : exponent.toNat = 2 * (exponent.toNat / 2) + 1 := by omega
        rw [classOf_mul positive, mul_assoc, ← pow_succ', ← halves]
      next even =>
        have parity : exponent.toNat % 2 ≠ 1 := by
          intro odd
          refine even (UInt64.toNat_inj.mp ?_)
          rw [toNat_and_one, odd, UInt64.toNat_one]
        have halves : exponent.toNat = 2 * (exponent.toNat / 2) := by omega
        rw [← halves]

/-- Repeated squaring keeps a reduced result reduced. -/
theorem powFrom_lt (bits : Nat) (result base exponent : UInt64) (reduced : result < q) :
    powFrom q bits result base exponent < q := by
  induction bits generalizing result base exponent with
  | zero => exact reduced
  | succ bits ih =>
    unfold powFrom
    split
    · exact reduced
    · refine ih _ _ _ ?_
      split
      · exact mul_lt (pos_of_lt reduced) _ _
      · exact reduced

theorem pow_lt (positive : 0 < q.toNat) (base exponent : UInt64) : pow base exponent q < q :=
  powFrom_lt 64 (1 % q) (base % q) exponent (UInt64.mod_lt 1 (UInt64.lt_iff_toNat_lt.mpr positive))

theorem classOf_pow (positive : 0 < q.toNat) (base exponent : UInt64) :
    classOf q (pow base exponent q) = classOf q base ^ exponent.toNat := by
  rw [pow, classOf_powFrom positive 64 _ _ _ exponent.toNat_lt, classOf_mod, classOf_one, one_mul,
    classOf_mod]

theorem toNat_pow (positive : 0 < q.toNat) (base exponent : UInt64) :
    (pow base exponent q).toNat = base.toNat ^ exponent.toNat % q.toNat := by
  refine toNat_eq_mod_of_classOf_eq (pow_lt positive _ _) ?_
  rw [classOf_pow positive, Nat.cast_pow, classOf]

theorem powAboveOne_lt (above : 2 ≤ q.toNat) (base exponent : UInt64) :
    powAboveOne base exponent q < q :=
  powFrom_lt 64 1 (base % q) exponent (UInt64.lt_iff_toNat_lt.mpr above)

theorem classOf_powAboveOne (above : 2 ≤ q.toNat) (base exponent : UInt64) :
    classOf q (powAboveOne base exponent q) = classOf q base ^ exponent.toNat := by
  rw [powAboveOne, classOf_powFrom (by omega) 64 _ _ _ exponent.toNat_lt, classOf_one, one_mul,
    classOf_mod]

theorem toNat_powAboveOne (above : 2 ≤ q.toNat) (base exponent : UInt64) :
    (powAboveOne base exponent q).toNat = base.toNat ^ exponent.toNat % q.toNat := by
  refine toNat_eq_mod_of_classOf_eq (powAboveOne_lt above _ _) ?_
  rw [classOf_powAboveOne above, Nat.cast_pow, classOf]

theorem eq_one_iff (above : 2 ≤ q.toNat) {word : UInt64} (reduced : word < q) :
    word = 1 ↔ classOf q word = 1 := by
  constructor
  · rintro rfl
    exact classOf_one
  · intro one
    exact eq_of_classOf_eq reduced (UInt64.lt_iff_toNat_lt.mpr above) (one.trans classOf_one.symm)

theorem powAboveOne_eq_one_iff (above : 2 ≤ q.toNat) (base exponent : UInt64) :
    powAboveOne base exponent q = 1 ↔ classOf q base ^ exponent.toNat = 1 := by
  rw [eq_one_iff above (powAboveOne_lt above _ _), classOf_powAboveOne above]

/-- Modulo a prime, the power with the exponent `q - 2` is the inverse of every class but zero. -/
theorem classOf_mul_powAboveOne (prime : q.toNat.Prime) {word : UInt64}
    (nonzero : classOf q word ≠ 0) :
    classOf q word * classOf q (powAboveOne word (q - 2) q) = 1 := by
  have above := prime.two_le
  have fact : Fact q.toNat.Prime := ⟨prime⟩
  have two : (2 : UInt64).toNat = 2 := rfl
  have exponent : (q - 2).toNat + 1 = q.toNat - 1 := by
    rw [UInt64.toNat_sub_of_le _ _ (UInt64.le_iff_toNat_le.mpr (two ▸ above)), two]
    omega
  rw [classOf_powAboveOne above, ← pow_succ', exponent]
  exact ZMod.pow_card_sub_one_eq_one nonzero

end RingLwe.Residue
