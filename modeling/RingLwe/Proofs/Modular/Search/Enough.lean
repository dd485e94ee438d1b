import RingLwe.Proofs.Modular.Search.Largest

/-!
# When enough primes are found

A search that ends with too few primes has found all suitable words
(`PrimeSearch.length_foundPrimes`).  So primes are listed exactly when enough words
suit and `2 n` is below the least number of the bit size
(`PrimeSearch.answers_iff_enough`).  No list is too long for a buffer, as there are
fewer suitable words than a buffer holds (`PrimeSearch.card_lt_of_suits`).

The condition on `2 n` loses one word: if `2 n` is the least number of the bit size,
then `2 n + 1` is the only candidate, and it is not tried.  For 17 bits and
`n = 32768` it is a prime (`PrimeSearch.refuses_fermat`).
-/

set_option autoImplicit false

namespace RingLwe.PrimeSearch

/-- Whether at least `count` words suit. -/
def Enough (bits n count : Nat) : Prop :=
  ∃ words : Finset UInt64, count ≤ words.card ∧ ∀ q ∈ words, Suits bits n q

theorem enough_one {bits n : Nat} {q : UInt64} (suits : Suits bits n q) : Enough bits n 1 := by
  refine ⟨{q}, Nat.le_of_eq (Finset.card_singleton q).symm, fun other member => ?_⟩
  rwa [Finset.mem_singleton.mp member]

/-! ## Numbers of primes -/

theorem length_primesBelow_le {step lower : Nat} (count index : Nat) :
    (primesBelow step lower count index).length ≤ count := by
  induction index generalizing count with
  | zero => cases count <;> simp [primesBelow]
  | succ index ih =>
    cases count with
    | zero => simp [primesBelow]
    | succ count =>
      rw [primesBelow_succ]
      split
      next =>
        split
        next => exact Nat.succ_le_succ (ih count)
        next => exact ih (count + 1)
      next => exact Nat.zero_le _

/-- If there are enough suitable words, enough are found: a search that ends early has found all of
them. -/
theorem length_foundPrimes {bits exponent count : Nat}
    (usable : usablePrimeSize bits (2 ^ exponent) = true) (enough : Enough bits (2 ^ exponent) count) :
    (foundPrimes bits count (2 ^ exponent)).length = count := by
  by_contra short
  obtain ⟨words, many, suit⟩ := enough
  have all : words ⊆ (foundPrimes bits count (2 ^ exponent)).toFinset := by
    intro q member
    rcases (suit q member).mem_or_smaller usable count with found | ⟨full, _⟩
    · exact List.mem_toFinset.mpr found
    · exact absurd full short
  have fewer := (Finset.card_le_card all).trans (List.toFinset_card_le _)
  exact short (Nat.le_antisymm (length_primesBelow_le count _) (many.trans fewer))

/-- Suitable words are fewer than a buffer holds. -/
theorem card_lt_of_suits {bits exponent : Nat} (least : 2 ≤ bits) (greatest : bits ≤ 62)
    {words : Finset UInt64} (suit : ∀ q ∈ words, Suits bits (2 ^ exponent) q) :
    words.card < 2 ^ 60 := by
  have halves : Set.InjOn (fun q : UInt64 => q.toNat / 2) words := by
    intro left leftMember right rightMember same
    have leftOdd := (suit left leftMember).odd
    have rightOdd := (suit right rightMember).odd
    simp only at same
    exact UInt64.toNat_inj.mp (by omega)
  obtain ⟨base, between⟩ : ∃ base, ∀ q ∈ words,
      q.toNat / 2 ∈ Finset.Ioo base (base + 2 ^ 60) := by
    rcases Nat.lt_or_eq_of_le greatest with fewer | rfl
    · refine ⟨0, fun q member => ?_⟩
      have lower := (suit q member).lower_lt least
      have upper := (suit q member).upper
      have positive := Nat.pow_le_pow_right (by decide : 0 < 2) (by omega : 1 ≤ bits - 1)
      have size := Nat.pow_le_pow_right (by decide : 0 < 2) (Nat.le_of_lt_succ fewer)
      rw [Finset.mem_Ioo]
      omega
    · -- the only candidate whose half is `2 ^ 60` is divisible by three
      refine ⟨2 ^ 60, fun q member => ?_⟩
      have lower := (suit q member).lower_lt least
      have upper := (suit q member).upper
      have other : q.toNat ≠ 2305843009213693953 := by
        intro same
        have word : q = 2305843009213693953 := UInt64.toNat_inj.mp same
        exact absurd (word ▸ (suit q member).passes) (by decide)
      rw [Finset.mem_Ioo]
      omega
  calc words.card ≤ (Finset.Ioo base (base + 2 ^ 60)).card :=
        Finset.card_le_card_of_injOn _ between halves
    _ < 2 ^ 60 := by
        rw [Nat.card_Ioo]
        omega

/-- At a bit size whose least number is at most `2 n`, only `2 n + 1` can suit, and only if `2 n` is
that least number. -/
theorem Suits.eq_double_add_one {bits exponent : Nat} {q : UInt64} (least : 2 ≤ bits)
    (suits : Suits bits (2 ^ exponent) q) (tight : 2 ^ (bits - 1) ≤ 2 * 2 ^ exponent) :
    2 * 2 ^ exponent = 2 ^ (bits - 1) ∧ q.toNat = 2 * 2 ^ exponent + 1 := by
  have value := suits.toNat_eq
  have lower := suits.lower_lt least
  have upper := suits.upper
  have double : 2 ^ bits = 2 * 2 ^ (bits - 1) := by
    rw [← pow_succ', Nat.sub_add_cancel (by omega)]
  generalize q.toNat / (2 * 2 ^ exponent) = multiple at value
  have one : multiple = 1 := by
    rcases Nat.lt_trichotomy multiple 1 with none | one | more
    · rw [Nat.lt_one_iff.mp none] at value
      have := Nat.two_pow_pos (bits - 1)
      omega
    · exact one
    · have := Nat.mul_le_mul_right (2 * 2 ^ exponent) more
      omega
  rw [one, Nat.one_mul] at value
  refine ⟨?_, value⟩
  rw [← pow_succ'] at tight value ⊢
  have above := (Nat.pow_le_pow_iff_right (by decide : 1 < 2)).mp tight
  have below := (Nat.pow_lt_pow_iff_right (by decide : 1 < 2)).mp
    (Nat.lt_trans (Nat.lt_succ_self _) (value ▸ upper))
  congr 1
  omega

/-- A list is the answer if a buffer holds it and the search gives it. -/
theorem checkedLargestPrimes?_eq_some_iff {bits count n : Nat} {primes : List UInt64} :
    checkedLargestPrimes? bits count n = .ok (some primes) ↔
      8 * count < bufferLimit ∧ largestPrimes? bits count n = some primes := by
  by_cases usable : usablePrimeSize bits n = true
  · rw [checkedLargestPrimes?, if_pos usable, Checked.inBuffer]
    split
    next fits => simp [fits]
    next full => simp [full]
  · rw [checkedLargestPrimes?, if_neg usable, largestPrimes?_of_not_usable usable]
    simp

theorem enough_of_found {bits exponent count : Nat} {primes : List UInt64}
    (found : largestPrimes? bits count (2 ^ exponent) = some primes) :
    Enough bits (2 ^ exponent) count := by
  obtain ⟨length, decreasing, _⟩ := largestPrimes?_spec found
  have distinct : primes.Nodup := decreasing.imp fun smaller => (UInt64.ne_of_lt smaller).symm
  refine ⟨primes.toFinset, ?_, fun q member => suits_of_mem found (List.mem_toFinset.mp member)⟩
  rw [List.toFinset_card_of_nodup distinct, length]

/-- For every bit size from 2 to 62 and every power of two, primes are listed exactly when `2 n` is
below the least number of the bit size and enough words suit.  If `2 n` is not below that number,
the answer is none, and the only word that is lost is `2 n + 1`. -/
theorem answers_iff_enough {bits exponent : Nat} (least : 2 ≤ bits) (greatest : bits ≤ 62)
    (count : Nat) :
    ((∃ primes, checkedLargestPrimes? bits count (2 ^ exponent) = .ok (some primes)) ↔
      2 * 2 ^ exponent < 2 ^ (bits - 1) ∧ Enough bits (2 ^ exponent) count) ∧
    (2 ^ (bits - 1) ≤ 2 * 2 ^ exponent →
      checkedLargestPrimes? bits count (2 ^ exponent) = .ok none ∧
      ∀ q, Suits bits (2 ^ exponent) q →
        2 * 2 ^ exponent = 2 ^ (bits - 1) ∧ q.toNat = 2 * 2 ^ exponent + 1) := by
  simp only [checkedLargestPrimes?_eq_some_iff]
  refine ⟨⟨?_, ?_⟩, fun tight => ⟨?_, fun q suits => suits.eq_double_add_one least tight⟩⟩
  · rintro ⟨primes, _, found⟩
    have usable : usablePrimeSize bits (2 ^ exponent) = true := by
      by_contra unusable
      rw [largestPrimes?_of_not_usable unusable] at found
      cases found
    exact ⟨(usablePrimeSize_two_pow.mp usable).2, enough_of_found found⟩
  · rintro ⟨room, enough⟩
    have usable := usablePrimeSize_two_pow.mpr ⟨⟨least, greatest⟩, room⟩
    obtain ⟨words, many, suit⟩ := enough
    have fits : 8 * count < bufferLimit := by
      have fewer := card_lt_of_suits least greatest suit
      simp only [bufferLimit, UInt64.size]
      omega
    refine ⟨foundPrimes bits count (2 ^ exponent), fits, ?_⟩
    rw [largestPrimes?_of_usable usable, if_pos (length_foundPrimes usable ⟨words, many, suit⟩)]
  · have unusable : ¬usablePrimeSize bits (2 ^ exponent) = true := fun usable =>
      Nat.not_le.mpr (usablePrimeSize_two_pow.mp usable).2 tight
    rw [checkedLargestPrimes?, if_neg unusable]

/-- The prime 65537 is listed for `n = 16384`, and for `n = 32768` it is the only word that is lost. -/
theorem answers_fermat :
    (∃ primes, checkedLargestPrimes? 17 1 (2 ^ 14) = .ok (some primes)) ∧
      ∀ q, Suits 17 (2 ^ 15) q → q.toNat = 65537 := by
  obtain ⟨listed, _⟩ := @answers_iff_enough 17 14 (by decide) (by decide) 1
  obtain ⟨_, lost⟩ := @answers_iff_enough 17 15 (by decide) (by decide) 1
  have enough : Enough 17 (2 ^ 14) 1 := enough_one (q := 65537) (by decide +kernel)
  exact ⟨listed.mpr ⟨by decide, enough⟩, fun q suits => ((lost (by decide)).2 q suits).2⟩

/-- For `n = 32768` one word of 17 bits suits, the prime 65537, but the answer is that there is none. -/
theorem refuses_fermat :
    Enough 17 (2 ^ 15) 1 ∧ checkedLargestPrimes? 17 1 (2 ^ 15) = .ok none :=
  ⟨enough_one (q := 65537) (by decide +kernel), by decide⟩

end RingLwe.PrimeSearch
