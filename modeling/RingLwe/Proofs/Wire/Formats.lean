import RingLwe.Ciphertext
import RingLwe.Proofs.Context
import RingLwe.Proofs.Wire.Positions
import RingLwe.SecretKey

/-!
# The formats that are read

The formats of ciphertexts, of their bare data and of secret keys, each by the
numbers that its bytes hold at fixed positions (`Ciphertext.Format`,
`Ciphertext.DataFormat`, `SecretKey.Format`).  The readers accept these bytes
and no others, and find the words of the object (`Ciphertext.decode_eq_ok_iff`,
`Ciphertext.decodeData_eq_ok_iff`, `SecretKey.decode_eq_ok_iff`).
-/

set_option autoImplicit false

namespace RingLwe

namespace Wire

/-! ## Frames -/

/-- Whether bytes are an object with the byte of a kind whose words, from a position on, are as
many reduced residues for each modulus as given. -/
structure Framed (kind : UInt8) (position count : Nat) (moduli : List UInt64)
    (bytes : List UInt8) : Prop where
  header : bytes.take 7 = [0x48, 0x52, 0x4c, 0x57, 1, kind, 0]
  length : bytes.length = position + 8 * (count * moduli.length)
  reduced : ∀ index q, moduli[index]? = some q → ∀ place < count,
    numberAt (position + 8 * (index * count + place)) 8 bytes < q.toNat

end Wire

open Wire

namespace Ciphertext

/-! ## Ciphertexts -/

/-- The format of a full ciphertext of a context. -/
structure Format (context : Context) (bytes : List UInt8) : Prop where
  fingerprint : numberAt 8 8 bytes = context.fingerprint.toNat
  dimension : numberAt 16 4 bytes = context.dimension
  count : numberAt 20 4 bytes ≤ context.dimension
  primeCount : numberAt 24 4 bytes = context.primeCount
  framed : Framed 1 32 (numberAt 20 4 bytes) context.moduli bytes

/-- The format of the data of a ciphertext of a context. -/
structure DataFormat (context : Context) (bytes : List UInt8) : Prop where
  count : numberAt 8 4 bytes ≤ context.dimension
  primeCount : numberAt 12 4 bytes = context.primeCount
  framed : Framed 2 16 (numberAt 8 4 bytes) context.moduli bytes

variable {context : Context} {bytes : List UInt8} {count : Nat} {words : List UInt64}

theorem decodeBody_eq_ok_iff {position primes : Nat} {rest : List UInt8} :
    decodeBody context count primes (bytes.drop position) = .ok (words, rest) ↔
      primes = context.primeCount ∧ count ≤ context.dimension ∧
        8 * (count * primes) ≤ bytes.length - position ∧
        Reduced count context.moduli (wordsAt position (count * primes) bytes) ∧
        wordsAt position (count * primes) bytes = words ∧
        bytes.drop (position + 8 * (count * primes)) = rest := by
  simp only [decodeBody, bind_eq_ok_iff, Prod.exists, ensure_eq_ok_iff, readWords_eq_ok_iff,
    checkReduced_iff, and_assoc, exists_and_left, exists_eq_left', exists_const, beq_iff_eq,
    decide_eq_true_eq, pure, Except.pure, Except.ok.injEq, Prod.mk.injEq]

/-- The full ciphertexts that are read are those in the format. -/
theorem decode_eq_ok_iff :
    decode context bytes = .ok (count, words) ↔
      Format context bytes ∧ numberAt 20 4 bytes = count ∧
        wordsAt 32 (count * context.moduli.length) bytes = words := by
  simp only [decode, bind_eq_ok_iff, Prod.exists, readHeader_eq_ok_iff, readNumber_eq_ok_iff,
    ensure_eq_ok_iff, decodeBody_eq_ok_iff, finish_eq_ok_iff, and_assoc, exists_and_left,
    exists_and_right, exists_eq_left', exists_eq', exists_const, true_and, beq_iff_eq,
    headerLength, Nat.reduceAdd, pure, Except.pure, Except.ok.injEq, Prod.mk.injEq]
  constructor
  · rintro ⟨header, _, _, fingerprint, _, dimension, _, _, _, primes, few, enough, reduced, ended,
      rfl, rfl⟩
    rw [primes, ← Context.Lawful.length_moduli] at enough reduced ended
    refine ⟨⟨fingerprint, dimension, few, primes, header, by omega, ?_⟩, rfl, ?_⟩
    · exact reduced_wordsAt_iff.mp reduced
    · rw [primes, Context.Lawful.length_moduli]
  · rintro ⟨⟨fingerprint, dimension, few, primes, header, length, reduced⟩, rfl, rfl⟩
    rw [primes, ← Context.Lawful.length_moduli]
    exact ⟨header, by omega, by omega, fingerprint, by omega, dimension, by omega, by omega,
      by omega, rfl, few, by omega, reduced_wordsAt_iff.mpr reduced, by omega, rfl, rfl⟩

/-- The data of ciphertexts that are read are those in the format. -/
theorem decodeData_eq_ok_iff :
    decodeData context bytes = .ok (count, words) ↔
      DataFormat context bytes ∧ numberAt 8 4 bytes = count ∧
        wordsAt 16 (count * context.moduli.length) bytes = words := by
  simp only [decodeData, bind_eq_ok_iff, Prod.exists, readHeader_eq_ok_iff, readNumber_eq_ok_iff,
    decodeBody_eq_ok_iff, finish_eq_ok_iff, and_assoc, exists_and_left, exists_eq_left',
    exists_const, headerLength, Nat.reduceAdd, pure, Except.pure, Except.ok.injEq, Prod.mk.injEq]
  constructor
  · rintro ⟨header, _, _, _, primes, few, enough, reduced, ended, rfl, rfl⟩
    rw [primes, ← Context.Lawful.length_moduli] at enough reduced ended
    refine ⟨⟨few, primes, header, by omega, ?_⟩, rfl, ?_⟩
    · exact reduced_wordsAt_iff.mp reduced
    · rw [primes, Context.Lawful.length_moduli]
  · rintro ⟨⟨few, primes, header, length, reduced⟩, rfl, rfl⟩
    rw [primes, ← Context.Lawful.length_moduli]
    exact ⟨header, by omega, by omega, by omega, rfl, few, by omega,
      reduced_wordsAt_iff.mpr reduced, by omega, rfl, rfl⟩

end Ciphertext

namespace SecretKey

/-! ## Secret keys -/

/-- The format of a secret key of a context. -/
structure Format (context : Context) (bytes : List UInt8) : Prop where
  fingerprint : numberAt 8 8 bytes = context.fingerprint.toNat
  dimension : numberAt 16 4 bytes = context.dimension
  primeCount : numberAt 20 4 bytes = context.primeCount
  framed : Framed 3 24 context.dimension context.moduli bytes

variable {context : Context} {bytes : List UInt8} {words : List UInt64}

/-- The secret keys that are read are those in the format. -/
theorem decode_eq_ok_iff :
    decode context bytes = .ok words ↔
      Format context bytes ∧
        wordsAt 24 (context.dimension * context.moduli.length) bytes = words := by
  simp only [decode, bind_eq_ok_iff, Prod.exists, readHeader_eq_ok_iff, readNumber_eq_ok_iff,
    ensure_eq_ok_iff, readWords_eq_ok_iff, checkReduced_iff, finish_eq_ok_iff, and_assoc,
    exists_and_left, exists_and_right, exists_eq_left', exists_const, beq_iff_eq, Bool.and_eq_true,
    headerLength, Nat.reduceAdd, pure, Except.pure, Except.ok.injEq]
  constructor
  · rintro ⟨header, _, _, fingerprint, _, _, dimension, primes, enough, ended, reduced, rfl⟩
    rw [dimension, primes, ← Context.Lawful.length_moduli] at enough ended reduced ⊢
    exact ⟨⟨fingerprint, dimension, primes, header, by omega, reduced_wordsAt_iff.mp reduced⟩, rfl⟩
  · rintro ⟨⟨fingerprint, dimension, primes, header, length, reduced⟩, rfl⟩
    rw [dimension, primes, ← Context.Lawful.length_moduli]
    exact ⟨header, by omega, by omega, fingerprint, by omega, by omega, rfl, rfl, by omega,
      by omega, reduced_wordsAt_iff.mpr reduced, rfl⟩

end SecretKey

end RingLwe
