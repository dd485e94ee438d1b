import RingLwe.Proofs.Modular.Inverse
import RingLwe.Proofs.Modular.Power

/-!
# Repeated squaring with its ranges

The loop behind the powers goes on for as long as something is left of the
exponent.  Every product stays in two words and every remainder in one, or the
loop is refused (`powLoop?`).  It is the recursion over the bits of the exponent
(`powLoop?_eq`), which keeps the product of the result so far with the power that
is still to be taken.

So both powers are the remainders of the power on natural numbers, and agree on
every modulus above one (`powers_exact`).  Modulo one they do not: the power that
starts from the word one leaves it unreduced when there is nothing to multiply.
With the exponent `q - 2` they give the inverse modulo a prime, which is the one
that the extended division algorithm finds.
-/

set_option autoImplicit false

namespace RingLwe.Residue

/-! ## The loop -/

theorem toNat_shiftRight_one_lt {word : UInt64} (positive : 0 < word) :
    (word >>> 1).toNat < word.toNat := by
  have present := UInt64.lt_iff_toNat_lt.mp positive
  rw [UInt64.toNat_zero] at present
  rw [toNat_shiftRight_one]
  exact Nat.div_lt_self present (by decide)

/-- Multiplies the result by the base if the exponent is odd. -/
def takeBit? (q result base exponent : UInt64) : Option UInt64 :=
  if exponent &&& 1 = 1 then mul? result base q else some result

/-- Takes the lowest bit of the exponent into the result, squares the base and halves the exponent,
until nothing is left of it.  The products have their ranges. -/
def powLoop? (q result base exponent : UInt64) : Option UInt64 :=
  if _ : 0 < exponent then do
    let product ← takeBit? q result base exponent
    let square ← mul? base base q
    powLoop? q product square (exponent >>> 1)
  else
    some result
termination_by exponent.toNat
decreasing_by exact toNat_shiftRight_one_lt (by assumption)

/-- The power of a word modulo `q`, with its ranges. -/
def pow? (base exponent q : UInt64) : Option UInt64 :=
  powLoop? q (1 % q) (base % q) exponent

/-- The power of a word modulo a word above one, with its ranges. -/
def powAboveOne? (base exponent q : UInt64) : Option UInt64 :=
  powLoop? q 1 (base % q) exponent

variable {q : UInt64}

section Loop

variable (positive : 0 < q.toNat)
include positive

theorem takeBit?_eq (result base exponent : UInt64) : takeBit? q result base exponent =
    some (if exponent &&& 1 = 1 then mul result base q else result) := by
  rw [takeBit?]
  split
  next => exact mul?_eq positive result base
  next => rfl

/-- No product leaves its range, and the loop takes a step for each bit of the exponent up to the
highest one. -/
theorem powLoop?_eq (bits : Nat) (result base exponent : UInt64)
    (fits : exponent.toNat < 2 ^ bits) :
    powLoop? q result base exponent = some (powFrom q bits result base exponent) := by
  induction bits generalizing result base exponent with
  | zero =>
    have none : ¬0 < exponent := by
      rw [UInt64.lt_iff_toNat_lt, UInt64.toNat_zero]
      omega
    rw [powLoop?, dif_neg none, powFrom]
  | succ bits ih =>
    have shorter : (exponent >>> 1).toNat < 2 ^ bits := by
      rw [toNat_shiftRight_one]
      rw [pow_succ] at fits
      omega
    rw [powLoop?, powFrom]
    by_cases zero : exponent = 0
    · have none : ¬0 < exponent := by
        rw [zero]
        exact UInt64.lt_irrefl 0
      rw [dif_neg none, if_pos zero]
    · have more : 0 < exponent := UInt64.pos_iff_ne_zero.mpr zero
      rw [dif_pos more, if_neg zero, takeBit?_eq positive, mul?_eq positive, Option.bind_eq_bind,
        Option.bind_some, Option.bind_some, ih _ _ _ shorter]

theorem pow?_eq (base exponent : UInt64) : pow? base exponent q = some (pow base exponent q) :=
  powLoop?_eq positive 64 _ _ exponent exponent.toNat_lt

theorem powAboveOne?_eq (base exponent : UInt64) :
    powAboveOne? base exponent q = some (powAboveOne base exponent q) :=
  powLoop?_eq positive 64 _ _ exponent exponent.toNat_lt

end Loop

/-! ## Correctness -/

/-- The powers of a word lose and overflow nothing.  The power modulo a positive word is the remainder of
the power on natural numbers, and so is the power modulo a word above one that starts from the word
one.  Modulo a prime that does not divide the word, its power with the exponent `q - 2` is the inverse,
and the one that the extended division algorithm finds. -/
theorem powers_exact (base : UInt64) :
    (∀ exponent q : UInt64, 0 < q.toNat →
      pow? base exponent q = some (pow base exponent q) ∧
      (pow base exponent q).toNat = base.toNat ^ exponent.toNat % q.toNat) ∧
    (∀ exponent q : UInt64, 2 ≤ q.toNat →
      powAboveOne? base exponent q = some (powAboveOne base exponent q) ∧
      (powAboveOne base exponent q).toNat = base.toNat ^ exponent.toNat % q.toNat ∧
      powAboveOne base exponent q = pow base exponent q) ∧
    ∀ q : UInt64, q.toNat.Prime → ¬q.toNat ∣ base.toNat →
      Exact.sub q 2 = some (q - 2) ∧
      powAboveOne base (q - 2) q < q ∧
      base.toNat * (powAboveOne base (q - 2) q).toNat ≡ 1 [MOD q.toNat] ∧
      inverse? base q = some (powAboveOne base (q - 2) q) := by
  refine ⟨fun exponent q positive => ?_, fun exponent q above => ?_, fun q prime coprime => ?_⟩
  · exact ⟨pow?_eq positive base exponent, toNat_pow positive base exponent⟩
  · have positive : 0 < q.toNat := by omega
    have value := toNat_powAboveOne above base exponent
    refine ⟨powAboveOne?_eq positive base exponent, value, UInt64.toNat_inj.mp ?_⟩
    rw [value, toNat_pow positive]
  · have nonzero : classOf q base ≠ 0 := fun zero =>
      coprime ((ZMod.natCast_eq_zero_iff base.toNat q.toNat).mp zero)
    have reduced := powAboveOne_lt prime.two_le base (q - 2)
    have unit : base.toNat * (powAboveOne base (q - 2) q).toNat ≡ 1 [MOD q.toNat] := by
      rw [← ZMod.natCast_eq_natCast_iff, Nat.cast_mul, Nat.cast_one]
      exact classOf_mul_powAboveOne prime nonzero
    have order : 2 ≤ q := UInt64.le_iff_toNat_le.mpr prime.two_le
    exact ⟨if_pos order, reduced, unit, (inverse?_eq_some_iff prime.pos).mpr ⟨reduced, unit⟩⟩

/-- Modulo the greatest word the cube of minus one is minus one.  Modulo one every power is zero.
Modulo two the power with exponent zero is the inverse. -/
theorem powers_greatest :
    powAboveOne? 18446744073709551614 3 18446744073709551615 = some 18446744073709551614 ∧
      pow? 7 0 1 = some 0 ∧ inverse? 5 2 = some (powAboveOne 5 0 2) := by
  obtain ⟨_, above, _⟩ := powers_exact 18446744073709551614
  obtain ⟨answers, value, _⟩ := above 3 18446744073709551615 (by decide)
  obtain ⟨positive, _⟩ := powers_exact 7
  obtain ⟨trivial, zero⟩ := positive 0 1 (by decide)
  obtain ⟨_, _, inverses⟩ := powers_exact 5
  obtain ⟨_, _, _, inverse⟩ := inverses 2 Nat.prime_two (by decide)
  refine ⟨?_, ?_, inverse⟩
  · rw [answers]
    exact congrArg some (UInt64.toNat_inj.mp (value.trans (by decide)))
  · rw [trivial]
    exact congrArg some (UInt64.toNat_inj.mp (zero.trans (by decide)))

-- Modulo one, the power that starts from the word one is not reduced for the exponent zero.
example : powAboveOne 7 0 1 = 1 ∧ pow 7 0 1 = 0 := by decide

end RingLwe.Residue
