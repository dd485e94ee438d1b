import RingLwe.Proofs.Modular.Ranges
import RingLwe.Proofs.Modular.Search

/-!
# The search over words

The search holds a candidate in a word and goes down by the step until enough
primes are found or the lower bound is reached (`PrimeSearch.searchDown`).  It
ends because the step is positive.  Its sums and differences have their ranges.

The step is below the lower bound, so no difference is negative, and the search
gives the primes that are found by counting an index down
(`PrimeSearch.searchDown_eq`).  For the transform sizes whose double is a word, the
whole search answers, and with the listed primes (`PrimeSearch.searched?_eq`).  Where it
also asks for the buffer of its list, it gives the answer of the checked form
(`PrimeSearch.checkedSearch?_eq`).
-/

set_option autoImplicit false

namespace RingLwe

namespace PrimeSearch

/-- Takes the step off a candidate again and again, until enough words are found or the candidate is
no longer above the lower bound, and puts the candidates that pass the test behind the words found
already.  There is no answer if a difference is negative. -/
def searchDown (step lower : UInt64) (positive : 0 < step) (count : Nat) (candidate : UInt64)
    (found : List UInt64) : Option (List UInt64) :=
  if found.length < count ∧ lower < candidate then
    match _ : Exact.sub candidate step with
    | some next =>
      searchDown step lower positive count next
        (if isPrime candidate then found ++ [candidate] else found)
    | none => none
  else
    some found
termination_by candidate.toNat
decreasing_by exact Exact.toNat_lt_of_sub positive (by assumption)

/-- The candidate one step below an upper bound that is a multiple of the step. -/
def firstCandidate? (step upper : UInt64) : Option UInt64 := do
  let above ← Exact.add upper 1
  Exact.sub above step

/-- The search between two bounds: none if the step reaches the lower one, and none if too few primes
are found.  Outside of that answer stands an operation that leaves its range, or a search that does
not end. -/
def searchBetween (step lower upper : UInt64) (count : Nat) : Option (Option (List UInt64)) :=
  if lower ≤ step then
    return none
  else do
    let first ← firstCandidate? step upper
    if positive : 0 < step then
      let primes ← searchDown step lower positive count first []
      return if primes.length = count then some primes else none
    else
      none

/-- The search between two bounds with the buffer for its list, which it asks for after the comparison
with the lower bound and before the first candidate. -/
def searchInBuffer (step lower upper : UInt64) (count : Nat) :
    Option (Checked (Option (List UInt64))) :=
  if lower ≤ step then
    return .ok none
  else if 8 * count < bufferLimit then do
    return .ok (← searchBetween step lower upper count)
  else
    return .error .tooLong

/-- What is found with the step of a size and the two bounds of a bit size as words, or the given
answer if there is no search. -/
def withBounds? {α : Type} (bits n : Nat) (refused : α)
    (between : (step lower upper : UInt64) → Option α) : Option α :=
  if 2 ≤ bits ∧ bits ≤ 62 ∧ isPowerOfTwo n then do
    let step ← Exact.narrow (2 * n)
    let upper ← Exact.narrow (2 ^ bits)
    let lower ← Exact.narrow (2 ^ (bits - 1))
    between step lower upper
  else
    return refused

/-- The search for the primes of a bit size over words. -/
def searched? (bits count n : Nat) : Option (Option (List UInt64)) :=
  withBounds? bits n none fun step lower upper => searchBetween step lower upper count

/-- The search for the primes of a bit size over words, with the buffer for its list. -/
def checkedSearch? (bits count n : Nat) : Option (Checked (Option (List UInt64))) :=
  withBounds? bits n (.ok none) fun step lower upper => searchInBuffer step lower upper count

section Steps

variable {step lower : UInt64} {positive : 0 < step} {count : Nat} {candidate : UInt64}
  {found : List UInt64}

theorem searchDown_of_done (done : ¬(found.length < count ∧ lower < candidate)) :
    searchDown step lower positive count candidate found = some found := by
  rw [searchDown, if_neg done]

/-- Before that, a step takes the candidate down and keeps it if it passes the test. -/
theorem searchDown_of_more (more : found.length < count ∧ lower < candidate)
    (order : step ≤ candidate) :
    searchDown step lower positive count candidate found =
      searchDown step lower positive count (candidate - step)
        (if isPrime candidate then found ++ [candidate] else found) := by
  have difference : Exact.sub candidate step = some (candidate - step) := if_pos order
  rw [searchDown, if_pos more]
  split
  next next subtracted => rw [Option.some.inj (difference.symm.trans subtracted)]
  next negative => cases difference.symm.trans negative

end Steps

/-- From a candidate that is one more than a multiple of the step, the search over words finds what
counting the multiple down finds, and no difference is negative. -/
theorem searchDown_eq {step lower : UInt64} (positive : 0 < step) (room : step ≤ lower)
    (count : Nat) {index : Nat} {candidate : UInt64}
    (value : candidate.toNat = index * step.toNat + 1) (found : List UInt64) :
    searchDown step lower positive count candidate found =
      some (found ++ primesBelow step.toNat lower.toNat (count - found.length) index) := by
  have stepPositive := UInt64.lt_iff_toNat_lt.mp positive
  have stepBound := UInt64.le_iff_toNat_le.mp room
  rw [UInt64.toNat_zero] at stepPositive
  induction index generalizing candidate found with
  | zero =>
    have ended : ¬lower < candidate := by
      rw [UInt64.lt_iff_toNat_lt]
      omega
    rw [searchDown_of_done fun more => ended more.2]
    cases count - found.length <;> simp [primesBelow]
  | succ index ih =>
    have here : ((index + 1) * step.toNat + 1).toUInt64 = candidate := by
      rw [← value, Nat.toUInt64_eq, UInt64.ofNat_toNat]
    by_cases enough : count ≤ found.length
    · rw [searchDown_of_done fun more => Nat.not_lt.mpr enough more.1,
        Nat.sub_eq_zero_of_le enough, primesBelow_zero, List.append_nil]
    obtain ⟨wanted, missing⟩ : ∃ wanted, count - found.length = wanted + 1 :=
      ⟨count - found.length - 1, by omega⟩
    rw [missing, primesBelow_succ, here, ← value]
    by_cases above : lower < candidate
    · have aboveNat := UInt64.lt_iff_toNat_lt.mp above
      have order : step ≤ candidate := UInt64.le_iff_toNat_le.mpr (by omega)
      have rest : (candidate - step).toNat = index * step.toNat + 1 := by
        rw [UInt64.toNat_sub_of_le _ _ order, value, Nat.succ_mul]
        omega
      rw [searchDown_of_more ⟨Nat.not_le.mp enough, above⟩ order, ih rest, if_pos aboveNat]
      by_cases passed : isPrime candidate
      · have fewer : count - (found ++ [candidate]).length = wanted := by
          rw [List.length_append, List.length_singleton]
          omega
        rw [if_pos passed, if_pos passed, fewer, List.append_assoc, List.singleton_append]
      · rw [if_neg passed, if_neg passed, missing]
    · rw [searchDown_of_done fun more => above more.2,
        if_neg fun aboveNat => above (UInt64.lt_iff_toNat_lt.mpr aboveNat), List.append_nil]

section Bounds

variable {bits exponent : Nat} {step lower upper : UInt64} (least : 2 ≤ bits)
  (greatest : bits ≤ 62) (stepValue : step.toNat = 2 * 2 ^ exponent)
  (lowerValue : lower.toNat = 2 ^ (bits - 1)) (upperValue : upper.toNat = 2 ^ bits)
include greatest stepValue upperValue

/-- The search starts one step below the next power of two and one, which is a candidate. -/
theorem exists_firstCandidate? (divides : exponent + 1 < bits) :
    ∃ first, firstCandidate? step upper = some first ∧
      first.toNat = (2 ^ bits / (2 * 2 ^ exponent) - 1) * step.toNat + 1 := by
  have word : 2 ^ bits ≤ 2 ^ 62 := Nat.pow_le_pow_right (by decide) greatest
  have whole : 2 ^ bits / step.toNat * step.toNat = 2 ^ bits := by
    refine Nat.div_mul_cancel ?_
    rw [stepValue, ← pow_succ']
    exact pow_dvd_pow 2 (Nat.le_of_lt divides)
  have bound : step.toNat ≤ 2 ^ bits := by
    rw [stepValue, ← pow_succ']
    exact Nat.pow_le_pow_right (by decide) (Nat.le_of_lt divides)
  have sum : (upper + 1).toNat = 2 ^ bits + 1 := by
    rw [UInt64.toNat_add, upperValue, UInt64.toNat_one]
    omega
  have order : step ≤ upper + 1 := UInt64.le_iff_toNat_le.mpr (by omega)
  refine ⟨upper + 1 - step, ?_, ?_⟩
  · have above : Exact.add upper 1 = some (upper + 1) := if_pos (by
      rw [upperValue, UInt64.toNat_one]
      simp only [UInt64.size]
      omega)
    rw [firstCandidate?, above, Option.bind_eq_bind, Option.bind_some, Exact.sub, if_pos order]
  · rw [UInt64.toNat_sub_of_le _ _ order, sum, ← stepValue, Nat.sub_mul, Nat.one_mul, whole]
    omega

include least lowerValue

omit upperValue in
theorem usable_iff_lt : usablePrimeSize bits (2 ^ exponent) = true ↔ step < lower := by
  rw [usablePrimeSize_two_pow, UInt64.lt_iff_toNat_lt, stepValue, lowerValue]
  exact and_iff_right ⟨least, greatest⟩

/-- Between the bounds of a bit size no operation leaves its range, and the search finds the listed
primes. -/
theorem searchBetween_eq (count : Nat) : searchBetween step lower upper count =
    some (largestPrimes? bits count (2 ^ exponent)) := by
  have usable := usable_iff_lt least greatest stepValue lowerValue
  rw [searchBetween]
  by_cases wide : lower ≤ step
  · rw [if_pos wide, largestPrimes?_of_not_usable fun found => UInt64.not_lt.mpr wide (usable.mp found)]
    rfl
  · have order := UInt64.not_le.mp wide
    have room : 2 * 2 ^ exponent < 2 ^ (bits - 1) := by
      have := UInt64.lt_iff_toNat_lt.mp order
      omega
    have positive : 0 < step := UInt64.lt_iff_toNat_lt.mpr (by
      rw [UInt64.toNat_zero, stepValue]
      exact Nat.zero_lt_of_lt (one_lt_double exponent))
    obtain ⟨first, start, value⟩ :=
      exists_firstCandidate? greatest stepValue upperValue (exponent_lt_of_room room)
    rw [if_neg wide, start, Option.bind_eq_bind, Option.bind_some, dif_pos positive,
      searchDown_eq positive (UInt64.le_of_lt order) count value, List.nil_append,
      List.length_nil, Nat.sub_zero, stepValue, lowerValue,
      largestPrimes?_of_usable (usable.mpr order)]
    rfl

end Bounds

/-- For a power of two whose double is a word the bounds are words, or there is no search. -/
theorem withBounds?_eq {α : Type} {exponent : Nat} (small : exponent < 62) (bits : Nat) (refused : α)
    (between : (step lower upper : UInt64) → Option α) :
    if 2 ≤ bits ∧ bits ≤ 62 then
      ∃ step lower upper : UInt64, step.toNat = 2 * 2 ^ exponent ∧
        lower.toNat = 2 ^ (bits - 1) ∧ upper.toNat = 2 ^ bits ∧
        withBounds? bits (2 ^ exponent) refused between = between step lower upper
    else
      withBounds? bits (2 ^ exponent) refused between = some refused := by
  have power : isPowerOfTwo (2 ^ exponent) = true := isPowerOfTwo_iff.mpr ⟨exponent, rfl⟩
  rw [withBounds?]
  split
  next range =>
    have word {power : Nat} (below : power < 64) : 2 ^ power < UInt64.size :=
      Nat.pow_lt_pow_right (by decide : 1 < 2) below
    obtain ⟨step, stepFits, stepValue⟩ := Exact.narrow_of_lt (word (by omega : exponent + 1 < 64))
    obtain ⟨upper, upperFits, upperValue⟩ := Exact.narrow_of_lt (word (by omega : bits < 64))
    obtain ⟨lower, lowerFits, lowerValue⟩ := Exact.narrow_of_lt (word (by omega : bits - 1 < 64))
    rw [pow_succ'] at stepFits stepValue
    refine ⟨step, lower, upper, stepValue, lowerValue, upperValue, ?_⟩
    rw [if_pos ⟨range.1, range.2, power⟩, stepFits, upperFits, lowerFits]
    rfl
  next outside => exact if_neg fun inside => outside ⟨inside.1, inside.2.1⟩

section Searches

variable {exponent : Nat} (small : exponent < 62) (bits count : Nat)
include small

/-- For a power of two whose double is a word, no operation of the search leaves its range, the search
ends, and it finds the listed primes. -/
theorem searched?_eq :
    searched? bits count (2 ^ exponent) = some (largestPrimes? bits count (2 ^ exponent)) := by
  have bounds := withBounds?_eq small bits none fun step lower upper =>
    searchBetween step lower upper count
  split at bounds
  next range =>
    obtain ⟨step, lower, upper, stepValue, lowerValue, upperValue, given⟩ := bounds
    exact given.trans (searchBetween_eq range.1 range.2 stepValue lowerValue upperValue count)
  next outside =>
    rw [largestPrimes?_of_not_usable fun usable => outside (usablePrimeSize_two_pow.mp usable).1]
    exact bounds

/-- With the buffer for its list, the search gives the answer of the checked form. -/
theorem checkedSearch?_eq : checkedSearch? bits count (2 ^ exponent) =
    some (checkedLargestPrimes? bits count (2 ^ exponent)) := by
  have bounds := withBounds?_eq small bits (.ok none) fun step lower upper =>
    searchInBuffer step lower upper count
  rw [checkedLargestPrimes?, Checked.inBuffer]
  split at bounds
  next range =>
    obtain ⟨step, lower, upper, stepValue, lowerValue, upperValue, given⟩ := bounds
    have usable := usable_iff_lt range.1 range.2 stepValue lowerValue
    refine given.trans ?_
    rw [searchInBuffer, searchBetween_eq range.1 range.2 stepValue lowerValue upperValue count]
    by_cases wide : lower ≤ step
    · rw [if_pos wide, if_neg fun found => UInt64.not_lt.mpr wide (usable.mp found)]
      rfl
    · rw [if_neg wide, if_pos (usable.mpr (UInt64.not_le.mp wide))]
      split <;> rfl
  next outside =>
    rw [if_neg fun usable => outside (usablePrimeSize_two_pow.mp usable).1]
    exact bounds

end Searches

end PrimeSearch

end RingLwe
