import Mathlib
import RingLwe.Modular.Prime
import RingLwe.Proofs.Modular.Power

/-!
# The primality test

A number `n` with the predecessor `2^twos · odd` is a strong probable prime to
a base if the power of the base with exponent `odd` is one modulo `n`, or one
of its first `twos` repeated squares is minus one (`StrongProbablePrime`).  The
power and the squares that the test computes decide this (`passes_iff`), so the
test accepts the witnesses themselves and the numbers that none of them divides
and that are strong probable primes to all of them (`isPrime_iff`).

Modulo a prime only one and minus one have the square one.  By Fermat's theorem
the last of the repeated squares is one; going back from it one meets minus one
or arrives at one.  So a prime is a strong probable prime to every base that it
does not divide (`StrongProbablePrime.of_prime`), and the test rejects no prime.
That it accepts no composite word is a published computation, which stands as a
hypothesis in the main statement (`accepts_strong_probable_primes`).
-/

set_option autoImplicit false

namespace RingLwe

open Residue

namespace Primality

/-! ## Strong probable primes -/

/-- Whether a number is a strong probable prime to a base. -/
def StrongProbablePrime (base number : Nat) : Prop :=
  ∃ twos odd, number - 1 = 2 ^ twos * odd ∧ odd % 2 = 1 ∧
    ((base : ZMod number) ^ odd = 1 ∨
      ∃ index < twos, (base : ZMod number) ^ (2 ^ index * odd) = -1)

/-- A number is a power of two times an odd number in one way only. -/
theorem two_pow_mul_odd_unique {twos others odd other : Nat} (oddOdd : odd % 2 = 1)
    (otherOdd : other % 2 = 1) (same : 2 ^ twos * odd = 2 ^ others * other) :
    twos = others ∧ odd = other := by
  induction twos generalizing others with
  | zero =>
    cases others with
    | zero => exact ⟨rfl, by simpa using same⟩
    | succ others =>
      rw [pow_zero, one_mul, pow_succ', mul_assoc] at same
      omega
  | succ twos ih =>
    rw [pow_succ', mul_assoc] at same
    cases others with
    | zero =>
      rw [pow_zero, one_mul] at same
      omega
    | succ others =>
      rw [pow_succ', mul_assoc] at same
      obtain ⟨rfl, rfl⟩ := ih (Nat.eq_of_mul_eq_mul_left (by decide) same)
      exact ⟨rfl, rfl⟩

/-- Any way to split the predecessor shows whether a number is a strong probable prime. -/
theorem strongProbablePrime_iff {base number twos odd : Nat} (split : number - 1 = 2 ^ twos * odd)
    (parity : odd % 2 = 1) :
    StrongProbablePrime base number ↔ (base : ZMod number) ^ odd = 1 ∨
      ∃ index < twos, ((base : ZMod number) ^ odd) ^ 2 ^ index = -1 := by
  simp only [← pow_mul, mul_comm odd]
  constructor
  · rintro ⟨others, other, otherSplit, otherParity, found⟩
    obtain ⟨rfl, rfl⟩ := two_pow_mul_odd_unique otherParity parity (otherSplit.symm.trans split)
    exact found
  · exact fun found => ⟨twos, odd, split, parity, found⟩

/-- Where only one and minus one have the square one, repeated squares that end in one start with one
or pass through minus one. -/
theorem eq_one_or_exists_eq_neg_one {R : Type} [CommRing R] [NoZeroDivisors R] {twos : Nat}
    {value : R} (last : value ^ 2 ^ twos = 1) :
    value = 1 ∨ ∃ index < twos, value ^ 2 ^ index = -1 := by
  induction twos with
  | zero => exact .inl (by simpa using last)
  | succ twos ih =>
    rw [pow_succ, pow_mul] at last
    rcases sq_eq_one_iff.mp last with one | negative
    · exact (ih one).imp_right fun ⟨index, before, found⟩ =>
        ⟨index, Nat.lt_succ_of_lt before, found⟩
    · exact .inr ⟨twos, Nat.lt_succ_self twos, negative⟩

/-- A prime is a strong probable prime to every base that it does not divide. -/
theorem StrongProbablePrime.of_prime {base number : Nat} (prime : number.Prime)
    (coprime : ¬number ∣ base) : StrongProbablePrime base number := by
  have : Fact number.Prime := ⟨prime⟩
  have unit : (base : ZMod number) ≠ 0 := fun zero =>
    coprime ((ZMod.natCast_eq_zero_iff base number).mp zero)
  obtain ⟨twos, odd, parity, split⟩ :=
    Nat.exists_eq_two_pow_mul_odd (Nat.sub_ne_zero_of_lt prime.one_lt)
  refine (strongProbablePrime_iff split (Nat.odd_iff.mp parity)).mpr ?_
  refine eq_one_or_exists_eq_neg_one ?_
  rw [← pow_mul, mul_comm, ← split]
  exact ZMod.pow_card_sub_one_eq_one unit

/-! ## One base -/

/-- Division by two while it goes leaves the odd part of a word and counts the twos. -/
theorem splitOdd_spec {steps : Nat} {word : UInt64} (positive : 0 < word.toNat)
    (fits : word.toNat < 2 ^ steps) (counted : Nat) :
    ∃ twos odd, splitOdd steps word counted = (counted + twos, odd) ∧
      word.toNat = 2 ^ twos * odd.toNat ∧ odd.toNat % 2 = 1 := by
  induction steps generalizing word counted with
  | zero =>
    rw [pow_zero] at fits
    omega
  | succ steps ih =>
    rw [splitOdd]
    have remainder : (word % 2).toNat = word.toNat % 2 := UInt64.toNat_mod word 2
    split
    next even =>
      rw [even, UInt64.toNat_zero] at remainder
      have half : (word / 2).toNat = word.toNat / 2 := UInt64.toNat_div word 2
      rw [pow_succ] at fits
      obtain ⟨twos, odd, result, split, parity⟩ := ih (by omega : 0 < (word / 2).toNat)
        (by omega) (counted + 1)
      refine ⟨twos + 1, odd, by rw [result, Nat.add_assoc, Nat.add_comm 1], ?_, parity⟩
      rw [pow_succ', mul_assoc, ← split, half]
      omega
    next odd =>
      refine ⟨0, word, rfl, by rw [pow_zero, one_mul], ?_⟩
      have nonzero : (word % 2).toNat ≠ 0 := fun zero => odd (UInt64.toNat_inj.mp zero)
      omega

section Squares

variable {n : UInt64} (above : 1 < n.toNat)
include above

/-- The predecessor of the modulus is the reduced word of minus one. -/
theorem eq_pred_iff {word : UInt64} (reduced : word < n) : word = n - 1 ↔ classOf n word = -1 := by
  have value := toNat_sub_one (Nat.zero_lt_of_lt above)
  have negative : classOf n (n - 1) = -1 := by
    rw [classOf, value, Nat.cast_sub (Nat.le_of_lt above), ZMod.natCast_self, Nat.cast_one, zero_sub]
  have below : n - 1 < n := UInt64.lt_iff_toNat_lt.mpr (by omega)
  constructor
  · rintro rfl
    exact negative
  · exact fun same => eq_of_classOf_eq reduced below (same.trans negative.symm)

/-- The loop looks for minus one among as many squares as it has steps. -/
theorem squaresToNegOne_iff (steps : Nat) (residue : UInt64) :
    squaresToNegOne n steps residue = true ↔
      ∃ index < steps, classOf n residue ^ 2 ^ (index + 1) = -1 := by
  have positive : 0 < n.toNat := Nat.zero_lt_of_lt above
  induction steps generalizing residue with
  | zero => simp [squaresToNegOne]
  | succ steps ih =>
    have square : classOf n (mul residue residue n) = classOf n residue ^ 2 := by
      rw [classOf_mul positive, sq]
    simp only [squaresToNegOne, Bool.or_eq_true, beq_iff_eq, eq_pred_iff above (mul_lt positive _ _),
      ih, square, ← pow_mul, ← pow_succ', Nat.exists_lt_succ_left, pow_one, zero_add]

/-- An odd number passes for a base exactly when it is a strong probable prime to the base. -/
theorem passes_iff (odd : n.toNat % 2 = 1) (base : UInt64) :
    passes n base = true ↔ StrongProbablePrime base.toNat n.toNat := by
  have positive : 0 < n.toNat := Nat.zero_lt_of_lt above
  have value := toNat_sub_one positive
  obtain ⟨twos, rest, result, split, parity⟩ :=
    splitOdd_spec (by omega : 0 < (n - 1).toNat) (n - 1).toNat_lt 0
  rw [value] at split
  obtain ⟨more, rfl⟩ : ∃ more, twos = more + 1 := by
    refine Nat.exists_eq_succ_of_ne_zero ?_
    rintro rfl
    rw [pow_zero, one_mul] at split
    omega
  have classPower : classOf n (pow base rest n) = (base.toNat : ZMod n.toNat) ^ rest.toNat :=
    classOf_pow positive base rest
  have one : pow base rest n = 1 ↔ (base.toNat : ZMod n.toNat) ^ rest.toNat = 1 := by
    rw [eq_one_iff above (pow_lt positive _ _), classPower]
  rw [strongProbablePrime_iff split parity, Nat.exists_lt_succ_left, pow_zero, pow_one, ← one,
    ← classPower, passes, result]
  simp only [zero_add, Nat.add_sub_cancel, Bool.or_eq_true, beq_iff_eq, or_assoc,
    squaresToNegOne_iff above, eq_pred_iff above (pow_lt positive base rest)]

end Squares

/-! ## All bases -/

/-- The witnesses are the primes up to 37. -/
theorem exists_witness_iff {base : Nat} :
    (∃ witness ∈ witnesses, witness.toNat = base) ↔ base.Prime ∧ base ≤ 37 := by
  have values : witnesses.map UInt64.toNat = [2, 3, 5, 7, 11, 13, 17, 19, 23, 29, 31, 37] := rfl
  rw [← List.mem_map, values]
  constructor
  · intro member
    have primes : ∀ prime ∈ [2, 3, 5, 7, 11, 13, 17, 19, 23, 29, 31, 37],
        Nat.Prime prime ∧ prime ≤ 37 := by norm_num
    exact primes base member
  · rintro ⟨prime, bound⟩
    have listed : ∀ base ≤ 37, base.Prime →
        base ∈ [2, 3, 5, 7, 11, 13, 17, 19, 23, 29, 31, 37] := by decide
    exact listed base bound prime

theorem prime_of_mem_witnesses {witness : UInt64} (member : witness ∈ witnesses) :
    witness.toNat.Prime :=
  (exists_witness_iff.mp ⟨witness, member, rfl⟩).1

theorem mod_eq_zero_iff (n witness : UInt64) : n % witness = 0 ↔ witness.toNat ∣ n.toNat := by
  rw [Nat.dvd_iff_mod_eq_zero, ← UInt64.toNat_mod, ← UInt64.toNat_inj, UInt64.toNat_zero]

theorem eq_of_witness_dvd {n witness : UInt64} (prime : n.toNat.Prime)
    (member : witness ∈ witnesses) (divides : witness.toNat ∣ n.toNat) : n = witness :=
  UInt64.toNat_inj.mp
    ((Nat.prime_dvd_prime_iff_eq (prime_of_mem_witnesses member) prime).mp divides).symm

/-- The test accepts the witnesses and the numbers that no witness divides and that are strong probable
primes to all of them. -/
theorem isPrime_iff (n : UInt64) : isPrime n = true ↔
    n ∈ witnesses ∨ (1 < n.toNat ∧ ∀ witness ∈ witnesses,
      ¬witness.toNat ∣ n.toNat ∧ StrongProbablePrime witness.toNat n.toNat) := by
  unfold isPrime
  split
  next below =>
    have small : ¬1 < n.toNat := Nat.not_lt.mpr (Nat.le_of_lt_succ (UInt64.lt_iff_toNat_lt.mp below))
    have absent : n ∉ witnesses := fun member => small (prime_of_mem_witnesses member).one_lt
    simp [small, absent]
  next above =>
    have large : 1 < n.toNat := UInt64.le_iff_toNat_le.mp (UInt64.not_lt.mp above)
    split
    next witness found =>
      have member := List.mem_of_find?_eq_some found
      have divides : witness.toNat ∣ n.toNat :=
        (mod_eq_zero_iff n witness).mp (by simpa using List.find?_some found)
      rw [beq_iff_eq]
      constructor
      · rintro rfl
        exact .inl member
      · rintro (listed | ⟨_, all⟩)
        · exact eq_of_witness_dvd (prime_of_mem_witnesses listed) member divides
        · exact absurd divides (all witness member).1
    next none =>
      have coprime : ∀ witness ∈ witnesses, ¬witness.toNat ∣ n.toNat := by
        intro witness member divides
        have rejected := List.find?_eq_none.mp none witness member
        simp [(mod_eq_zero_iff n witness).mpr divides] at rejected
      have odd : n.toNat % 2 = 1 :=
        Nat.two_dvd_ne_zero.mp (coprime 2 (List.mem_cons_self ..))
      have absent : n ∉ witnesses := fun member => coprime n member (dvd_refl _)
      simp only [List.all_eq_true, passes_iff large odd, absent, false_or, large, true_and]
      exact forall₂_congr fun witness member => (and_iff_right (coprime witness member)).symm

/-- The test rejects no prime. -/
theorem isPrime_of_prime {n : UInt64} (prime : n.toNat.Prime) : isPrime n = true := by
  rw [isPrime_iff]
  by_cases listed : n ∈ witnesses
  · exact .inl listed
  · refine .inr ⟨prime.one_lt, fun witness member => ⟨fun divides => ?_, ?_⟩⟩
    · exact listed (eq_of_witness_dvd prime member divides ▸ member)
    · refine .of_prime prime fun divides => listed ?_
      rw [Nat.prime_dvd_prime_iff_eq prime (prime_of_mem_witnesses member)] at divides
      rwa [UInt64.toNat_inj.mp divides]

/-- The test decides whether a word is a strong probable prime to the primes up to 37, itself among
these or divisible by none of them.  It accepts every prime.  If no composite number below `2^64` is a
strong probable prime to all of these bases, it accepts nothing else. -/
theorem accepts_strong_probable_primes (n : UInt64) :
    (isPrime n = true ↔ n ∈ witnesses ∨ (1 < n.toNat ∧ ∀ witness ∈ witnesses,
      ¬witness.toNat ∣ n.toNat ∧ StrongProbablePrime witness.toNat n.toNat)) ∧
    (n.toNat.Prime → isPrime n = true) ∧
    ((∀ number < 2 ^ 64, 1 < number → ¬number.Prime →
        ∃ base, base.Prime ∧ base ≤ 37 ∧ ¬StrongProbablePrime base number) →
      (isPrime n = true ↔ n.toNat.Prime)) := by
  refine ⟨isPrime_iff n, isPrime_of_prime, fun published => ⟨fun accepted => ?_, isPrime_of_prime⟩⟩
  rcases (isPrime_iff n).mp accepted with listed | ⟨above, all⟩
  · exact prime_of_mem_witnesses listed
  · by_contra composite
    obtain ⟨base, prime, bound, failing⟩ := published n.toNat n.toNat_lt above composite
    obtain ⟨witness, member, rfl⟩ := exists_witness_iff.mpr ⟨prime, bound⟩
    exact failing (all witness member).2

-- The product of 151, 751 and 28351 passes for the first four witnesses, and is rejected.
example : [2, 3, 5, 7].all (passes 3215031751) ∧ isPrime 3215031751 = false := by decide +kernel

end Primality

end RingLwe
