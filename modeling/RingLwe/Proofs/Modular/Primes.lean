import RingLwe.Proofs.Modular.Power

/-!
# Certified primes

A certificate of a word `q` is a residue whose power with exponent `q - 1` is
one, and whose powers with the exponents `(q - 1) / f` are not, for the prime
factors `f` of `q - 1`.  A word with a certificate is prime
(`Certificate.prime`).

The certificates below are those of the largest primes of 32 and 33 bits that
are one more than a multiple of `2 n`, for the powers of two `n` from 1024 to
32768.
-/

set_option autoImplicit false

namespace RingLwe

open Residue

/-- A residue of full order modulo a word, with the factors of its predecessor and their
exponents. -/
structure Certificate where
  modulus : UInt64
  witness : UInt64
  factors : List (Nat × Nat)

namespace Certificate

/-- Whether the factors multiply to the predecessor of the modulus, and the powers of the witness
are as they must be. -/
def holds (certificate : Certificate) : Bool :=
  let q := certificate.modulus
  2 ≤ q.toNat &&
    (certificate.factors.map fun pair => pair.1 ^ pair.2).prod == q.toNat - 1 &&
    powAboveOne certificate.witness (q - 1) q == 1 &&
    certificate.factors.all fun pair =>
      powAboveOne certificate.witness ((q.toNat - 1) / pair.1).toUInt64 q != 1

/-- A word with a certificate is prime. -/
theorem prime {certificate : Certificate}
    (factorsPrime : ∀ pair ∈ certificate.factors, Nat.Prime pair.1)
    (valid : certificate.holds = true) : Nat.Prime certificate.modulus.toNat := by
  simp only [holds, Bool.and_eq_true, decide_eq_true_eq, beq_iff_eq, List.all_eq_true, bne_iff_ne,
    ne_eq] at valid
  obtain ⟨⟨⟨above, whole⟩, full⟩, proper⟩ := valid
  have small := certificate.modulus.toNat_lt
  have predecessor : (certificate.modulus - 1).toNat = certificate.modulus.toNat - 1 :=
    toNat_sub_one (by omega)
  refine lucas_primality _ (classOf certificate.modulus certificate.witness) ?_ ?_
  · rw [powAboveOne_eq_one_iff above, predecessor] at full
    exact full
  · intro factor factorPrime divides
    rw [← whole] at divides
    obtain ⟨power, member, divided⟩ := (Prime.dvd_prod_iff factorPrime.prime).mp divides
    obtain ⟨pair, inside, rfl⟩ := List.mem_map.mp member
    have same : factor = pair.1 := (Nat.prime_dvd_prime_iff_eq factorPrime
      (factorsPrime pair inside)).mp (factorPrime.dvd_of_dvd_pow divided)
    have exponent : ((certificate.modulus.toNat - 1) / pair.1).toUInt64.toNat =
        (certificate.modulus.toNat - 1) / pair.1 := by
      rw [Nat.toUInt64_eq, UInt64.toNat_ofNat']
      have fewer := Nat.div_le_self (certificate.modulus.toNat - 1) pair.1
      exact Nat.mod_eq_of_lt (by omega)
    have other := proper pair inside
    rw [powAboveOne_eq_one_iff above, exponent] at other
    rw [same]
    exact other

end Certificate

/-- The certificates of the primes that contexts use. -/
def certificates : List Certificate :=
  [⟨4293918721, 19, [(2, 20), (3, 2), (5, 1), (7, 1), (13, 1)]⟩,
   ⟨4294475777, 5, [(2, 15), (83, 1), (1579, 1)]⟩,
   ⟨4294828033, 10, [(2, 13), (3, 1), (11, 1), (15887, 1)]⟩,
   ⟨4294955009, 3, [(2, 12), (1048573, 1)]⟩,
   ⟨4294957057, 10, [(2, 11), (3, 1), (13, 1), (53773, 1)]⟩,
   ⟨8589279233, 3, [(2, 17), (19, 1), (3449, 1)]⟩,
   ⟨8589475841, 3, [(2, 16), (5, 1), (11, 1), (2383, 1)]⟩,
   ⟨8589844481, 3, [(2, 13), (5, 1), (7, 1), (29959, 1)]⟩,
   ⟨8589852673, 5, [(2, 14), (3, 1), (174761, 1)]⟩,
   ⟨8589899777, 3, [(2, 11), (4194287, 1)]⟩,
   ⟨8589905921, 3, [(2, 12), (5, 1), (419429, 1)]⟩]

theorem certificates_hold : ∀ certificate ∈ certificates, certificate.holds = true := by
  decide +kernel

theorem certificates_factors_prime :
    ∀ certificate ∈ certificates, ∀ pair ∈ certificate.factors, Nat.Prime pair.1 := by
  simp only [certificates, List.forall_mem_cons, List.not_mem_nil, false_implies, implies_true,
    and_true]
  norm_num

/-- The words with a certificate. -/
def certified (q : UInt64) : Bool :=
  certificates.any (·.modulus == q)

theorem bounds_of_certified {q : UInt64} (listed : certified q = true) :
    2 ^ 31 < q.toNat ∧ q.toNat < 2 ^ 33 := by
  obtain ⟨certificate, member, same⟩ := List.any_eq_true.mp listed
  have bounds : ∀ certificate ∈ certificates,
      2 ^ 31 < certificate.modulus.toNat ∧ certificate.modulus.toNat < 2 ^ 33 := by decide
  rw [← eq_of_beq same]
  exact bounds certificate member

theorem prime_of_certified {q : UInt64} (listed : certified q = true) : Nat.Prime q.toNat := by
  obtain ⟨certificate, member, same⟩ := List.any_eq_true.mp listed
  rw [← eq_of_beq same]
  exact Certificate.prime (certificates_factors_prime certificate member)
    (certificates_hold certificate member)

end RingLwe
