import Mathlib
import RingLwe.Modular.Prime

/-!
# The search for primes

The search counts an index down and keeps the candidates `index · step + 1`
that pass the primality test.  So what it finds is such a candidate above the
lower bound (`mem_primesBelow`), and what it finds decreases
(`pairwise_primesBelow`).

For a usable bit size the search starts below the next power of two.  The
primes that are found have exactly that many bits and are one more than a
multiple of `2 n` (`largestPrimes?_spec`).
-/

set_option autoImplicit false

namespace RingLwe

theorem isPowerOfTwo_iff {number : Nat} :
    isPowerOfTwo number = true ↔ ∃ exponent, number = 2 ^ exponent := by
  rw [isPowerOfTwo, beq_iff_eq, Nat.one_shiftLeft]
  constructor
  · intro power
    exact ⟨number.log2, power⟩
  · rintro ⟨exponent, rfl⟩
    rw [Nat.log2_two_pow]

/-! ## Candidates -/

section Candidates

variable {step lower : Nat}

theorem primesBelow_zero (index : Nat) : primesBelow step lower 0 index = [] := by
  cases index <;> rfl

/-- One step of the search: it ends at the lower bound, and before that it keeps a candidate that
passes the test. -/
theorem primesBelow_succ (count index : Nat) :
    primesBelow step lower (count + 1) (index + 1) =
      if lower < (index + 1) * step + 1 then
        if isPrime ((index + 1) * step + 1).toUInt64 then
          ((index + 1) * step + 1).toUInt64 :: primesBelow step lower count index
        else
          primesBelow step lower (count + 1) index
      else
        [] := by
  rw [primesBelow]

/-- What the search finds is a candidate above the lower bound that passes the test. -/
theorem mem_primesBelow {count index : Nat} {q : UInt64}
    (member : q ∈ primesBelow step lower count index) :
    isPrime q = true ∧ ∃ multiple ≤ index, lower < multiple * step + 1 ∧
      q = (multiple * step + 1).toUInt64 := by
  induction index generalizing count with
  | zero => cases count <;> cases member
  | succ index ih =>
    have later : ∀ {count}, q ∈ primesBelow step lower count index →
        isPrime q = true ∧ ∃ multiple ≤ index + 1, lower < multiple * step + 1 ∧
          q = (multiple * step + 1).toUInt64 := by
      intro count member
      obtain ⟨passed, multiple, bound, rest⟩ := ih member
      exact ⟨passed, multiple, Nat.le_succ_of_le bound, rest⟩
    cases count with
    | zero => cases member
    | succ count =>
      rw [primesBelow_succ] at member
      split at member
      next above =>
        split at member
        next passed =>
          rcases List.mem_cons.mp member with rfl | deeper
          · exact ⟨passed, index + 1, Nat.le_refl _, above, rfl⟩
          · exact later deeper
        next => exact later member
      next => cases member

/-- The search finds decreasing words, as long as its candidates are words. -/
theorem pairwise_primesBelow (positive : 0 < step) {count index : Nat}
    (fits : index * step + 1 < UInt64.size) :
    (primesBelow step lower count index).Pairwise fun left right => right < left := by
  induction index generalizing count with
  | zero => cases count <;> exact .nil
  | succ index ih =>
    have shorter : index * step + 1 < (index + 1) * step + 1 := by
      rw [Nat.succ_mul]
      omega
    cases count with
    | zero => exact .nil
    | succ count =>
      rw [primesBelow_succ]
      split
      next =>
        split
        next =>
          refine .cons (fun q member => ?_) (ih (by omega))
          obtain ⟨_, multiple, bound, _, rfl⟩ := mem_primesBelow member
          have smaller : multiple * step ≤ index * step := Nat.mul_le_mul_right _ bound
          rw [UInt64.lt_iff_toNat_lt, Nat.toUInt64_eq, Nat.toUInt64_eq,
            UInt64.toNat_ofNat_of_lt' fits, UInt64.toNat_ofNat_of_lt' (by omega)]
          omega
        next => exact ih (by omega)
      next => exact .nil

end Candidates

/-! ## Primes of one size -/

/-- The primes that the search for a bit size finds, whether they are enough or not. -/
def foundPrimes (bits count n : Nat) : List UInt64 :=
  primesBelow (2 * n) (2 ^ (bits - 1)) count (2 ^ bits / (2 * n) - 1)

theorem largestPrimes?_of_usable {bits n : Nat} (usable : usablePrimeSize bits n = true)
    (count : Nat) : largestPrimes? bits count n =
      if (foundPrimes bits count n).length = count then some (foundPrimes bits count n)
      else none := by
  rw [largestPrimes?, if_pos usable, Nat.one_shiftLeft, Nat.one_shiftLeft]
  rfl

theorem largestPrimes?_of_not_usable {bits n : Nat} (unusable : ¬usablePrimeSize bits n = true)
    (count : Nat) : largestPrimes? bits count n = none :=
  if_neg unusable

/-- For a power of two it depends on the range of the bit size and on the double of the power whether
primes are searched for. -/
theorem usablePrimeSize_two_pow {bits exponent : Nat} :
    usablePrimeSize bits (2 ^ exponent) = true ↔
      (2 ≤ bits ∧ bits ≤ 62) ∧ 2 * 2 ^ exponent < 2 ^ (bits - 1) := by
  have power : isPowerOfTwo (2 ^ exponent) = true := isPowerOfTwo_iff.mpr ⟨exponent, rfl⟩
  simp only [usablePrimeSize, power, Nat.one_shiftLeft, decide_eq_true_eq, true_and, and_assoc]

theorem exponent_lt_of_room {bits exponent : Nat} (room : 2 * 2 ^ exponent < 2 ^ (bits - 1)) :
    exponent + 1 < bits := by
  rw [← pow_succ'] at room
  have := (Nat.pow_lt_pow_iff_right (by decide : 1 < 2)).mp room
  omega

theorem one_lt_double (exponent : Nat) : 1 < 2 * 2 ^ exponent := by
  have := Nat.two_pow_pos exponent
  omega

theorem firstCandidate_lt {bits step : Nat} (least : 2 ≤ bits) (positive : 1 < step) :
    (2 ^ bits / step - 1) * step + 1 < 2 ^ bits := by
  have whole := Nat.div_mul_le_self (2 ^ bits) step
  have large : 2 ^ 1 < 2 ^ bits := Nat.pow_lt_pow_right (by decide) (by omega)
  rw [Nat.sub_mul, Nat.one_mul]
  omega

/-- The primes that are found are decreasing, pass the test, are one more than a multiple of `2 n`
and have exactly the wanted number of bits. -/
theorem largestPrimes?_spec {bits count n : Nat} {primes : List UInt64}
    (found : largestPrimes? bits count n = some primes) :
    primes.length = count ∧ primes.Pairwise (fun left right => right < left) ∧
      ∀ q ∈ primes, isPrime q = true ∧ q.toNat % (2 * n) = 1 ∧
        2 ^ (bits - 1) < q.toNat ∧ q.toNat < 2 ^ bits := by
  by_cases usable : usablePrimeSize bits n = true
  · rw [largestPrimes?_of_usable usable, Option.ite_none_right_eq_some] at found
    obtain ⟨enough, same⟩ := found
    cases same
    obtain ⟨exponent, rfl⟩ : ∃ exponent, n = 2 ^ exponent := by
      simp only [usablePrimeSize, decide_eq_true_eq] at usable
      exact isPowerOfTwo_iff.mp usable.2.2.1
    obtain ⟨⟨least, greatest⟩, room⟩ := usablePrimeSize_two_pow.mp usable
    have step := one_lt_double exponent
    have start := firstCandidate_lt least step
    have word : 2 ^ bits < UInt64.size :=
      Nat.pow_lt_pow_right (by decide : 1 < 2) (by omega : bits < 64)
    refine ⟨enough, pairwise_primesBelow (by omega) (by omega), ?_⟩
    intro q member
    obtain ⟨passed, multiple, bound, above, rfl⟩ := mem_primesBelow member
    have smaller := Nat.mul_le_mul_right (2 * 2 ^ exponent) bound
    have number : (multiple * (2 * 2 ^ exponent) + 1).toUInt64.toNat =
        multiple * (2 * 2 ^ exponent) + 1 := UInt64.toNat_ofNat_of_lt' (by omega)
    rw [number]
    refine ⟨passed, ?_, above, by omega⟩
    rw [Nat.mul_add_mod_self_right, Nat.mod_eq_of_lt step]
  · rw [largestPrimes?_of_not_usable usable] at found
    cases found

end RingLwe
