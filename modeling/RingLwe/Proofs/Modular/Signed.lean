import RingLwe.Proofs.Modular.Classes
import RingLwe.Proofs.Modular.Ranges

/-!
# Signed words and residues

The embedding of signed words by their residue, and the centred representative
of a residue as a signed word.  A conversion between words and signed words is
refused when it changes the number, and so is the negative of the least signed
word (`Exact.signedWord`, `Exact.unsignedWord`, `Exact.negative`).

For every positive modulus nothing is refused.  Every signed word has a residue,
the least one included, and every reduced word a centred representative, whose
absolute value is at most half of the modulus and so below half of the radix.
Either is undone by the other (`signed_exact`), on the numbers that are centred:
from `-q/2` to `(q - 1)/2`, where an even modulus has one more number below zero
than above it.
-/

set_option autoImplicit false

namespace RingLwe

/-! ## Signed words -/

namespace Exact

/-- A word as a signed word, unless the number changes. -/
def signedWord (word : UInt64) : Option Int64 :=
  if word.toInt64.toInt = word.toNat then some word.toInt64 else none

/-- A signed word as a word, unless the number changes. -/
def unsignedWord (number : Int64) : Option UInt64 :=
  if (number.toUInt64.toNat : Int) = number.toInt then some number.toUInt64 else none

/-- The negative of a signed word, unless the number is no signed word. -/
def negative (number : Int64) : Option Int64 :=
  if (-number).toInt = -number.toInt then some (-number) else none

theorem exists_signedWord {word : UInt64} (small : word.toNat < 2 ^ 63) :
    ∃ number, signedWord word = some number ∧ number.toInt = word.toNat := by
  have value : word.toInt64.toInt = word.toNat :=
    BitVec.toInt_eq_toNat_of_lt (Nat.mul_lt_mul_of_pos_left small (by decide : 0 < 2))
  exact ⟨word.toInt64, if_pos value, value⟩

theorem exists_unsignedWord {number : Int64} (natural : 0 ≤ number) :
    ∃ word, unsignedWord number = some word ∧ (word.toNat : Int) = number.toInt := by
  have value : (number.toUInt64.toNat : Int) = number.toInt := by
    rw [Int64.toNat_toUInt64_of_le natural]
    exact Int.toNat_of_nonneg (Int64.le_iff_toInt_le.mp natural)
  exact ⟨number.toUInt64, if_pos value, value⟩

theorem exists_negative {number : Int64} (natural : 0 ≤ number.toInt) :
    ∃ other, negative number = some other ∧ other.toInt = -number.toInt := by
  have bound := number.toInt_lt
  have value : (-number).toInt = -number.toInt := by
    rw [Int64.toInt_neg]
    exact Int.bmod_eq_of_le (by omega) (by omega)
  exact ⟨-number, if_pos value, value⟩

end Exact

/-! ## Residues -/

namespace Residue

/-- The residue of a signed word, with the ranges of its operations. -/
def ofSigned? (number : Int64) (q : UInt64) : Option UInt64 :=
  if 0 ≤ number then do
    let word ← Exact.unsignedWord number
    some (word % q)
  else do
    let word ← Exact.narrow number.toInt.natAbs
    if word % q = 0 then some 0 else Exact.sub q (word % q)

/-- The centred representative of a word as a signed word, with the ranges of its operations. -/
def toSigned? (word q : UInt64) : Option Int64 := do
  let last ← Exact.sub q 1
  if word ≤ last / 2 then
    Exact.signedWord word
  else do
    let distance ← Exact.sub q word
    let number ← Exact.signedWord distance
    Exact.negative number

variable {q : UInt64}

/-- The residue of a number is the only reduced word with its class. -/
theorem eq_ofInt_iff (positive : 0 < q.toNat) {word : UInt64} (reduced : word < q) {number : Int} :
    word = ofInt number q ↔ classOf q word = (number : ZMod q.toNat) := by
  constructor
  · rintro rfl
    exact classOf_ofInt positive number
  · intro same
    exact eq_of_classOf_eq reduced (ofInt_lt positive number)
      (same.trans (classOf_ofInt positive number).symm)

theorem neg_mod_eq (positive : 0 < q.toNat) (word : UInt64) :
    neg (word % q) q = ofInt (-(word.toNat : Int)) q := by
  have reduced := UInt64.mod_lt word (UInt64.lt_iff_toNat_lt.mpr positive)
  refine (eq_ofInt_iff positive (neg_lt reduced)).mpr ?_
  rw [classOf_neg reduced, classOf_mod, Int.cast_neg, Int.cast_natCast, classOf]

/-- Every signed word has a residue, and no operation leaves its range. -/
theorem ofSigned?_eq (positive : 0 < q.toNat) (number : Int64) :
    ofSigned? number q = some (ofInt number.toInt q) := by
  rw [ofSigned?]
  split
  next natural =>
    obtain ⟨word, converted, value⟩ := Exact.exists_unsignedWord natural
    have residue : word % q = ofInt number.toInt q := by
      refine (eq_ofInt_iff positive
        (UInt64.mod_lt word (UInt64.lt_iff_toNat_lt.mpr positive))).mpr ?_
      rw [classOf_mod, ← value, Int.cast_natCast, classOf]
    rw [converted, Option.bind_eq_bind, Option.bind_some, residue]
  next negative =>
    have below : number.toInt < 0 := by
      rw [Int64.le_iff_toInt_le, Int64.toInt_zero] at negative
      omega
    have least := number.le_toInt
    obtain ⟨word, converted, value⟩ :=
      Exact.narrow_of_lt (by simp only [UInt64.size]; omega : number.toInt.natAbs < UInt64.size)
    have opposite : number.toInt = -(word.toNat : Int) := by omega
    have order : word % q ≤ q :=
      UInt64.le_of_lt (UInt64.mod_lt word (UInt64.lt_iff_toNat_lt.mpr positive))
    have rest : (if word % q = 0 then some 0 else Exact.sub q (word % q)) =
        some (neg (word % q) q) := by
      rw [neg]
      split
      next => rfl
      next => exact if_pos order
    rw [converted, Option.bind_eq_bind, Option.bind_some, rest, neg_mod_eq positive, opposite]

/-- Every reduced word has a centred representative, and no operation leaves its range. -/
theorem exists_toSigned? {word : UInt64} (reduced : word < q) :
    ∃ number, toSigned? word q = some number ∧ number.toInt = toInt word q := by
  have bound := UInt64.lt_iff_toNat_lt.mp reduced
  have size := q.toNat_lt
  have positive := pos_of_lt reduced
  have two : (2 : UInt64).toNat = 2 := rfl
  have middle : ((q - 1) / 2).toNat = (q.toNat - 1) / 2 := by
    rw [UInt64.toNat_div, toNat_sub_one positive, two]
  have last : Exact.sub q 1 = some (q - 1) := if_pos (one_le_of_pos positive)
  rw [toSigned?, last, Option.bind_eq_bind, Option.bind_some, toInt, ← middle]
  by_cases low : word ≤ (q - 1) / 2
  · have lowNat := UInt64.le_iff_toNat_le.mp low
    rw [if_pos low, if_pos lowNat]
    exact Exact.exists_signedWord (by omega)
  · have highNat := mt UInt64.le_iff_toNat_le.mpr low
    have below : word ≤ q := UInt64.le_of_lt reduced
    have difference : Exact.sub q word = some (q - word) := if_pos below
    have distance := UInt64.toNat_sub_of_le q word below
    obtain ⟨natural, converted, value⟩ :=
      Exact.exists_signedWord (by omega : (q - word).toNat < 2 ^ 63)
    obtain ⟨number, negated, opposite⟩ :=
      Exact.exists_negative (by omega : 0 ≤ natural.toInt)
    refine ⟨number, ?_, ?_⟩
    · rw [if_neg low, difference, Option.bind_eq_bind, Option.bind_some, converted,
        Option.bind_some, negated]
    · rw [if_neg highNat, opposite, value, distance]
      omega

/-! ## Correctness -/

/-- The integers that are centred for a modulus: from minus half of it to half of what is below it. -/
def centred (q : UInt64) : Set Int :=
  Set.Icc (-(q.toNat / 2 : Int)) ((q.toNat - 1 : Int) / 2)

theorem toInt_mem_centred {word : UInt64} (reduced : word < q) : toInt word q ∈ centred q := by
  have bound := UInt64.lt_iff_toNat_lt.mp reduced
  rw [centred, Set.mem_Icc, toInt]
  split <;> omega

/-- Every centred integer is the centred representative of one reduced word. -/
theorem bijOn_toInt (positive : 0 < q.toNat) :
    Set.BijOn (toInt · q) {word | word < q} (centred q) := by
  have inverses : Set.InvOn (ofInt · q) (toInt · q) {word | word < q} (centred q) :=
    ⟨fun _ reduced => ofInt_toInt reduced,
      fun _ between => toInt_ofInt_of_centred positive between.1 between.2⟩
  exact inverses.bijOn (fun _ reduced => toInt_mem_centred reduced)
    fun number _ => ofInt_lt positive number

/-- For a positive modulus the residue of every signed word is found without leaving a range; it is
reduced and congruent to the number.  The centred representative of every reduced word is a signed word,
found without leaving a range, and has the word as its residue.  A signed word of absolute value at most
`(q - 1)/2` is the centred representative of its residue.  So the reduced words and the centred
integers correspond. -/
theorem signed_exact (positive : 0 < q.toNat) :
    (∀ number : Int64, ∃ word, ofSigned? number q = some word ∧ word = ofInt number.toInt q ∧
      word < q ∧ (word.toNat : Int) ≡ number.toInt [ZMOD q.toNat]) ∧
    (∀ word, word < q → ∃ number, toSigned? word q = some number ∧ number.toInt = toInt word q ∧
      ofSigned? number q = some word) ∧
    (∀ number : Int64, number.toInt.natAbs ≤ (q.toNat - 1) / 2 →
      ∃ word, ofSigned? number q = some word ∧ toSigned? word q = some number) ∧
    Set.BijOn (toInt · q) {word | word < q} (centred q) := by
  refine ⟨fun number => ?_, fun word reduced => ?_, fun number small => ?_, bijOn_toInt positive⟩
  · refine ⟨_, ofSigned?_eq positive number, rfl, ofInt_lt positive _, ?_⟩
    rw [toNat_ofInt positive]
    exact Int.mod_modEq _ _
  · obtain ⟨number, converted, value⟩ := exists_toSigned? reduced
    refine ⟨number, converted, value, ?_⟩
    rw [ofSigned?_eq positive, value, ofInt_toInt reduced]
  · obtain ⟨back, converted, value⟩ := exists_toSigned? (ofInt_lt positive number.toInt)
    have same : back = number := by
      rw [← Int64.toInt_inj, value]
      exact toInt_ofInt (by omega)
    exact ⟨_, ofSigned?_eq positive number, same ▸ converted⟩

/-- The residue of the least signed word modulo the greatest word, and the centred representative of half
of the radix.  Modulo two, one is the residue of minus one. -/
theorem signed_greatest :
    ofSigned? Int64.minValue 18446744073709551615 = some 9223372036854775807 ∧
    (∃ number, toSigned? 9223372036854775808 18446744073709551615 = some number ∧
      number.toInt = -9223372036854775807) ∧
    ∃ number, toSigned? 1 2 = some number ∧ number.toInt = -1 ∧ ofSigned? number 2 = some 1 := by
  have greatest : 0 < (18446744073709551615 : UInt64).toNat := by decide
  obtain ⟨residues, representatives, _⟩ := signed_exact greatest
  obtain ⟨_, pairs, _⟩ := signed_exact (by decide : 0 < (2 : UInt64).toNat)
  obtain ⟨word, answers, value, _⟩ := residues Int64.minValue
  obtain ⟨number, converted, centre, _⟩ := representatives 9223372036854775808 (by decide)
  obtain ⟨opposite, negated, one, back⟩ := pairs 1 (by decide)
  refine ⟨?_, ⟨number, converted, ?_⟩, opposite, negated, ?_, back⟩
  · rw [answers, value]
    decide
  · rw [centre]
    decide
  · rw [one]
    decide

end Residue

end RingLwe
