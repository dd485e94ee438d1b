import RingLwe.Proofs.Modular.Search.Words

/-!
# The largest primes of a size

A word suits a bit size and a transform size `n` if it has exactly that many bits,
is one more than a multiple of `2 n` and passes the primality test
(`PrimeSearch.Suits`).  The search passes no suitable word over: a suitable word
that is not found is below all that are, and then enough are found
(`PrimeSearch.Suits.mem_or_smaller`).  So the primes that are listed are the largest
suitable words in decreasing order (`PrimeSearch.lists_largest`).
-/

set_option autoImplicit false

namespace RingLwe.PrimeSearch

/-! ## Candidates -/

/-- A candidate above the lower bound that passes the test is found, unless enough candidates are
found that are all larger. -/
theorem mem_primesBelow_or_smaller (count : Nat) {step lower index multiple : Nat}
    (fits : index * step + 1 < UInt64.size) (positive : 0 < step) (bound : multiple ≤ index)
    (above : lower < multiple * step + 1)
    (passed : isPrime (multiple * step + 1).toUInt64 = true) :
    (multiple * step + 1).toUInt64 ∈ primesBelow step lower count index ∨
      ((primesBelow step lower count index).length = count ∧
        ∀ q ∈ primesBelow step lower count index, multiple * step + 1 < q.toNat) := by
  induction index generalizing count with
  | zero =>
    rw [Nat.le_zero.mp bound, Nat.zero_mul] at passed
    exact absurd passed (by decide)
  | succ index ih =>
    have grown : (index + 1) * step = index * step + step := Nat.succ_mul index step
    have largest : multiple * step ≤ (index + 1) * step := Nat.mul_le_mul_right _ bound
    cases count with
    | zero => exact .inr (by simp [primesBelow])
    | succ count =>
      rw [primesBelow_succ, if_pos (Nat.lt_of_lt_of_le above (Nat.succ_le_succ largest))]
      rcases Nat.le_succ_iff.mp bound with earlier | rfl
      · have smaller : multiple * step ≤ index * step := Nat.mul_le_mul_right _ earlier
        split
        next =>
          rcases ih count (by omega) earlier with found | ⟨enough, all⟩
          · exact .inl (List.mem_cons_of_mem _ found)
          · refine .inr ⟨congrArg Nat.succ enough, List.forall_mem_cons.mpr ⟨?_, all⟩⟩
            rw [Nat.toUInt64_eq, UInt64.toNat_ofNat_of_lt' fits]
            omega
        next => exact ih (count + 1) (by omega) earlier
      · rw [if_pos passed]
        exact .inl (List.mem_cons_self ..)

/-! ## Suitable words -/

/-- Whether a word has exactly the given number of bits, is one more than a multiple of `2 n`, and
passes the primality test. -/
structure Suits (bits n : Nat) (q : UInt64) : Prop where
  passes : isPrime q = true
  congruent : q.toNat ≡ 1 [MOD 2 * n]
  lower : 2 ^ (bits - 1) ≤ q.toNat
  upper : q.toNat < 2 ^ bits

instance (bits n : Nat) (q : UInt64) : Decidable (Suits bits n q) :=
  decidable_of_iff
    (isPrime q = true ∧ q.toNat ≡ 1 [MOD 2 * n] ∧ 2 ^ (bits - 1) ≤ q.toNat ∧ q.toNat < 2 ^ bits)
    ⟨fun ⟨passes, congruent, lower, upper⟩ => ⟨passes, congruent, lower, upper⟩,
      fun suits => ⟨suits.passes, suits.congruent, suits.lower, suits.upper⟩⟩

section Suits

variable {bits exponent : Nat} {q : UInt64} (least : 2 ≤ bits)
  (suits : Suits bits (2 ^ exponent) q)
include suits

theorem Suits.toNat_eq :
    q.toNat = q.toNat / (2 * 2 ^ exponent) * (2 * 2 ^ exponent) + 1 := by
  have remainder : q.toNat % (2 * 2 ^ exponent) = 1 := by
    rw [suits.congruent, Nat.mod_eq_of_lt (one_lt_double exponent)]
  calc q.toNat = q.toNat / (2 * 2 ^ exponent) * (2 * 2 ^ exponent) +
        q.toNat % (2 * 2 ^ exponent) := (Nat.div_add_mod' _ _).symm
    _ = q.toNat / (2 * 2 ^ exponent) * (2 * 2 ^ exponent) + 1 := by rw [remainder]

theorem Suits.odd : q.toNat % 2 = 1 := by
  have value := suits.toNat_eq
  rw [Nat.mul_left_comm] at value
  omega

include least in
theorem Suits.lower_lt : 2 ^ (bits - 1) < q.toNat := by
  have even : 2 ^ (bits - 1) = 2 * 2 ^ (bits - 2) := by
    rw [← pow_succ']
    congr 1
    omega
  have odd := suits.odd
  have lower := suits.lower
  omega

/-- The search goes through all suitable words. -/
theorem Suits.exists_candidate (room : exponent + 1 ≤ bits) :
    ∃ multiple ≤ 2 ^ bits / (2 * 2 ^ exponent) - 1,
      q.toNat = multiple * (2 * 2 ^ exponent) + 1 := by
  refine ⟨q.toNat / (2 * 2 ^ exponent), Nat.le_sub_one_of_lt ?_, suits.toNat_eq⟩
  have whole : 2 * 2 ^ exponent ∣ 2 ^ bits := by
    rw [← pow_succ']
    exact pow_dvd_pow 2 room
  exact Nat.div_lt_div_of_lt_of_dvd whole suits.upper

end Suits

/-! ## Primes of one size -/

section Usable

variable {bits exponent : Nat} (usable : usablePrimeSize bits (2 ^ exponent) = true)
include usable

/-- In a usable bit size no suitable word is passed over: if it is not found, enough are found that
are all larger. -/
theorem Suits.mem_or_smaller {q : UInt64} (suits : Suits bits (2 ^ exponent) q) (count : Nat) :
    q ∈ foundPrimes bits count (2 ^ exponent) ∨
      ((foundPrimes bits count (2 ^ exponent)).length = count ∧
        ∀ prime ∈ foundPrimes bits count (2 ^ exponent), q < prime) := by
  obtain ⟨⟨least, greatest⟩, room⟩ := usablePrimeSize_two_pow.mp usable
  obtain ⟨multiple, bound, value⟩ :=
    suits.exists_candidate (Nat.le_of_lt (exponent_lt_of_room room))
  have word : q = (multiple * (2 * 2 ^ exponent) + 1).toUInt64 := by
    rw [← value, Nat.toUInt64_eq, UInt64.ofNat_toNat]
  have fits : (2 ^ bits / (2 * 2 ^ exponent) - 1) * (2 * 2 ^ exponent) + 1 < UInt64.size :=
    Nat.lt_trans (firstCandidate_lt least (one_lt_double exponent))
      (Nat.pow_lt_pow_right (by decide : 1 < 2) (by omega : bits < 64))
  have candidate := mem_primesBelow_or_smaller count fits
    (Nat.zero_lt_of_lt (one_lt_double exponent)) bound (value ▸ suits.lower_lt least)
    (word ▸ suits.passes)
  rwa [← word, ← value] at candidate

end Usable

theorem suits_of_mem {bits exponent count : Nat} {primes : List UInt64}
    (found : largestPrimes? bits count (2 ^ exponent) = some primes) {q : UInt64}
    (member : q ∈ primes) : Suits bits (2 ^ exponent) q := by
  obtain ⟨_, _, each⟩ := largestPrimes?_spec found
  obtain ⟨passes, remainder, lower, upper⟩ := each q member
  exact ⟨passes, remainder.trans (Nat.mod_eq_of_lt (one_lt_double exponent)).symm,
    Nat.le_of_lt lower, upper⟩

/-- For every bit size and every power of two below `2^62`, the search over words ends, with no
operation that leaves its range, and gives the listed primes, or the breach of the checked form if no
buffer holds as many as are wanted.  Listed primes are as many as were wanted, in decreasing order; all
of them suit, and any other suitable word is below all of them. -/
theorem lists_largest {exponent : Nat} (small : exponent < 62) (bits count : Nat) :
    searched? bits count (2 ^ exponent) = some (largestPrimes? bits count (2 ^ exponent)) ∧
    checkedSearch? bits count (2 ^ exponent) =
      some (checkedLargestPrimes? bits count (2 ^ exponent)) ∧
    ∀ primes, largestPrimes? bits count (2 ^ exponent) = some primes →
      primes.length = count ∧ primes.Pairwise (fun left right => right < left) ∧
      (∀ q ∈ primes, Suits bits (2 ^ exponent) q) ∧
      ∀ q, Suits bits (2 ^ exponent) q → q ∉ primes → ∀ prime ∈ primes, q < prime := by
  refine ⟨searched?_eq small bits count, checkedSearch?_eq small bits count,
    fun primes found => ?_⟩
  obtain ⟨length, decreasing, _⟩ := largestPrimes?_spec found
  refine ⟨length, decreasing, fun q => suits_of_mem found, fun q suits missing => ?_⟩
  by_cases usable : usablePrimeSize bits (2 ^ exponent) = true
  · rw [largestPrimes?_of_usable usable, Option.ite_none_right_eq_some] at found
    obtain ⟨_, same⟩ := found
    cases same
    exact ((suits.mem_or_smaller usable count).resolve_left missing).2
  · rw [largestPrimes?_of_not_usable usable] at found
    cases found

/-- The two largest primes of 33 bits that are one more than a multiple of 8192. -/
theorem lists_largest_two :
    largestPrimes? 33 2 (2 ^ 12) = some [8589852673, 8589844481] ∧
      searched? 33 2 (2 ^ 12) = some (some [8589852673, 8589844481]) ∧
      ∀ q, Suits 33 (2 ^ 12) q → q ∉ [8589852673, 8589844481] → q < 8589844481 := by
  obtain ⟨searched, _, listed⟩ := lists_largest (by decide : 12 < 62) 33 2
  have found : largestPrimes? 33 2 (2 ^ 12) = some [8589852673, 8589844481] := by decide +kernel
  obtain ⟨_, _, _, largest⟩ := listed _ found
  exact ⟨found, found ▸ searched, fun q suits missing =>
    largest q suits missing _ (List.mem_cons_of_mem _ (List.mem_singleton_self _))⟩

end RingLwe.PrimeSearch
