import RingLwe.Proofs.Bytes
import RingLwe.Proofs.Layout
import RingLwe.Proofs.Transform.Buffer
import RingLwe.Wire.Reader
import RingLwe.Wire.Storage

/-!
# Reading what was written

Each reader takes back what its writer put in front of other bytes: a header
(`readHeader_header`), a number that fits its bytes (`readNumber_ofNat`), and a
list of words (`readWords_wordBytes`).  Words pass the check of their residues
exactly when they are reduced (`checkReduced_iff`).
-/

set_option autoImplicit false

namespace RingLwe.Wire

/-! ## Headers and numbers -/

theorem length_header (kind : Kind) : (header kind).length = headerLength :=
  rfl

theorem readHeader_header (kind : Kind) (rest : List UInt8) :
    readHeader kind (header kind ++ rest) = .ok rest := by
  cases kind <;> rfl

theorem readBytes_append {front : List UInt8} {count : Nat} (full : front.length = count)
    (rest : List UInt8) : readBytes count (front ++ rest) = .ok (front, rest) := by
  rw [readBytes, List.take_left' full, List.drop_left' full]
  simp only [full, Nat.lt_irrefl, if_false]

theorem readNumber_ofNat (count : Nat) {number : Nat} (fits : number < 256 ^ count)
    (rest : List UInt8) :
    readNumber count (Bytes.ofNat count number ++ rest) = .ok (number, rest) := by
  rw [readNumber, readBytes_append (Bytes.length_ofNat _ _), ok_bind]
  simp only [Bytes.value_ofNat, Nat.mod_eq_of_lt fits]
  rfl

/-! ## Words -/

theorem length_wordBytes (words : List UInt64) : (wordBytes words).length = 8 * words.length := by
  induction words with
  | nil => rfl
  | cons word words ih =>
    rw [wordBytes, List.flatMap_cons, List.length_append, ← wordBytes, ih, Bytes.ofWord64,
      Bytes.length_ofNat, List.length_cons]
    omega

/-- The words of written words, in reverse in front of those found already. -/
theorem wordsOnto_wordBytes (words : List UInt64) (rest : List UInt8) (found : List UInt64) :
    wordsOnto words.length (wordBytes words ++ rest) found = (words.reverse ++ found, rest) := by
  induction words generalizing found with
  | nil => rfl
  | cons word words ih =>
    have split : wordBytes (word :: words) ++ rest =
        Bytes.ofWord64 word ++ (wordBytes words ++ rest) := by
      rw [wordBytes, List.flatMap_cons, List.append_assoc]
      rfl
    have front : (Bytes.ofWord64 word).length = 8 := Bytes.length_ofNat _ _
    have value : (Bytes.value (Bytes.ofWord64 word)).toUInt64 = word := by
      have bound := word.toNat_lt
      rw [Bytes.ofWord64, Bytes.value_ofNat, Nat.mod_eq_of_lt (by norm_num; omega), Nat.toUInt64_eq,
        UInt64.ofNat_toNat]
    rw [List.length_cons, wordsOnto, split, List.take_left' front, List.drop_left' front, value, ih,
      List.reverse_cons, List.append_assoc]
    rfl

theorem readWords_wordBytes (words : List UInt64) (rest : List UInt8) :
    readWords words.length (wordBytes words ++ rest) = .ok (words, rest) := by
  have long : ¬ (wordBytes words ++ rest).length < 8 * words.length := by
    rw [List.length_append, length_wordBytes]
    omega
  simp only [readWords, if_neg long, wordsOnto_wordBytes, List.append_nil, List.reverse_reverse]

/-! ## Buffers -/

theorem filled_storeObject (size : Nat) (object : List UInt8) :
    filled size (storeObject size object) = object := by
  have enough : ¬ (List.replicate size (0 : UInt8)).length < size := by
    rw [List.length_replicate]
    exact Nat.lt_irrefl size
  have nothing : (List.replicate size (0 : UInt8)).drop size = [] :=
    List.drop_eq_nil_of_le (Nat.le_of_eq List.length_replicate)
  simp only [filled, storeObject, if_neg enough, nothing, List.append_nil]

/-! ## Residues -/

/-- Words pass the check exactly when they are reduced. -/
theorem checkReduced_iff (length prime : Nat) (moduli words : List UInt64) {done : Unit} :
    checkReduced length prime moduli words = .ok done ↔ Reduced length moduli words := by
  induction moduli generalizing prime words with
  | nil =>
    refine ⟨fun _ index q present => ?_, fun _ => rfl⟩
    cases present
  | cons q moduli ih =>
    have below : (words.take length).findIdx? (q ≤ ·) = none ↔
        ∀ word ∈ words.take length, word < q := by
      rw [List.findIdx?_eq_none_iff]
      refine forall₂_congr fun word _ => ?_
      rw [decide_eq_false_iff_not, UInt64.not_le]
    rw [reduced_cons_iff, ← below, ← ih (prime + 1), checkReduced]
    cases (words.take length).findIdx? (q ≤ ·) with
    | none =>
      constructor
      · intro rest
        exact ⟨rfl, rest⟩
      · rintro ⟨_, rest⟩
        exact rest
    | some position =>
      constructor
      · intro impossible
        cases impossible
      · rintro ⟨impossible, _⟩
        cases impossible

end RingLwe.Wire
