import RingLwe.Proofs.Ciphertext
import RingLwe.Proofs.Context.Presets
import RingLwe.Proofs.SecretKey

/-!
# Loading and writing again

The loaders of ciphertexts, of their bare data and of secret keys accept the
bytes of their formats and refuse all others as undecodable.  What they load is
written as the bytes that were read, with the reserved bytes cleared
(`Context.loaders_read_exactly`): every other byte is a field that the loader
compares or keeps.
-/

set_option autoImplicit false

namespace RingLwe

namespace Wire

/-- The bytes with zeros in place of those at a position. -/
def zeroed (position count : Nat) (bytes : List UInt8) : List UInt8 :=
  bytes.take position ++ List.replicate count 0 ++ bytes.drop (position + count)

/-- Whether a loader accepts exactly the bytes of a format, refuses all others as undecodable, and
makes objects that are written as the normal form of their bytes. -/
def ReadsExactly {α : Type} (load : List UInt8 → Except Failure α) (format : List UInt8 → Prop)
    (write : α → List UInt8) (normal : List UInt8 → List UInt8) : Prop :=
  ∀ bytes, (format bytes → ∃ object, load bytes = .ok object ∧ write object = normal bytes) ∧
    (¬ format bytes → ∃ fault, load bytes = .error (.undecodable fault))

/-- A loader reads exactly a format when it accepts that format only, fails as undecodable only,
and makes objects that are written as the normal form. -/
theorem readsExactly_of_iff {α : Type} {load : List UInt8 → Except Failure α}
    {format : List UInt8 → Prop} {write : α → List UInt8} {normal : List UInt8 → List UInt8}
    {made : List UInt8 → α}
    (accepts : ∀ bytes object, load bytes = .ok object ↔ format bytes ∧ made bytes = object)
    (refuses : ∀ bytes failure, load bytes = .error failure → ∃ fault, failure = .undecodable fault)
    (writes : ∀ bytes, format bytes → write (made bytes) = normal bytes) :
    ReadsExactly load format write normal := by
  intro bytes
  constructor
  · intro formatted
    exact ⟨made bytes, (accepts bytes _).mpr ⟨formatted, rfl⟩, writes bytes formatted⟩
  · intro unformatted
    cases loaded : load bytes with
    | ok object => exact absurd ((accepts bytes object).mp loaded).1 unformatted
    | error failure =>
      obtain ⟨fault, rfl⟩ := refuses bytes failure loaded
      exact ⟨fault, rfl⟩

theorem zeroed_append {front : List UInt8} (position : Nat) (full : front.length = position)
    (count : Nat) (rest : List UInt8) :
    zeroed position count (front ++ rest) = front ++ List.replicate count 0 ++ rest.drop count := by
  subst full
  rw [zeroed, List.take_left, List.drop_length_add_append]

theorem zeroed_header (kind : Kind) {bytes : List UInt8}
    (fixed : bytes.take 7 = [0x48, 0x52, 0x4c, 0x57, 1, kind.byte, 0]) :
    zeroed 7 1 bytes = header kind ++ bytes.drop headerLength := by
  rw [zeroed, fixed]
  rfl

theorem Framed.wordBytes_eq {kind : UInt8} {position count : Nat} {moduli : List UInt64}
    {bytes : List UInt8} (framed : Framed kind position count moduli bytes) :
    wordBytes (wordsAt position (count * moduli.length) bytes) = bytes.drop position := by
  have length := framed.length
  have body := wordBytes_wordsAt_append position (count * moduli.length)
    (by omega : _ ≤ bytes.length - position)
  rwa [← length, List.drop_length, List.append_nil] at body

end Wire

open Wire

variable {context : Context} {bytes : List UInt8}

/-! ## Ciphertexts -/

namespace Ciphertext

theorem undecodable_of_ofDecoded {decoded : Except DecodeFault (Nat × List UInt64)}
    {failure : Failure} (refused : ofDecoded context decoded = .error failure) :
    ∃ fault, failure = .undecodable fault := by
  cases decoded with
  | ok found => cases refused
  | error fault =>
    cases refused
    exact ⟨fault, rfl⟩

/-- A full object is written as it was read, with its reserved bytes cleared. -/
theorem toBytes_of_format (format : Format context bytes) :
    (atPosition context 32 (numberAt 20 4 bytes) bytes).toBytes =
      zeroed 28 4 (zeroed 7 1 bytes) := by
  have length := format.framed.length
  have fields : zeroed 7 1 bytes = header .ciphertext ++ Bytes.ofWord64 context.fingerprint ++
      Bytes.ofNat 4 context.dimension ++ Bytes.ofNat 4 (numberAt 20 4 bytes) ++
      Bytes.ofNat 4 context.primeCount ++ bytes.drop 28 := by
    rw [zeroed_header .ciphertext format.framed.header, Bytes.ofWord64, ← format.fingerprint,
      ← format.dimension, ← format.primeCount]
    simp only [List.append_assoc]
    rw [ofNat_numberAt_append 24 4 (by omega), ofNat_numberAt_append 20 4 (by omega),
      ofNat_numberAt_append 16 4 (by omega), ofNat_numberAt_append 8 8 (by omega), headerLength]
  rw [toBytes_eq, fields, zeroed_append 28 rfl, List.drop_drop, ← format.framed.wordBytes_eq]
  rfl

theorem dataBytes_of_format (format : DataFormat context bytes) :
    (atPosition context 16 (numberAt 8 4 bytes) bytes).dataBytes = zeroed 7 1 bytes := by
  have length := format.framed.length
  rw [dataBytes_eq (belongs_atPosition format.count format.framed), atPosition, encodeData,
    zeroed_header .ciphertextData format.framed.header, ← format.primeCount,
    format.framed.wordBytes_eq]
  simp only [List.append_assoc]
  rw [ofNat_numberAt_append 12 4 (by omega), ofNat_numberAt_append 8 4 (by omega), headerLength]

end Ciphertext

/-! ## Secret keys -/

namespace SecretKey

theorem undecodable_of_load {failure : Failure} (refused : load context bytes = .error failure) :
    ∃ fault, failure = .undecodable fault := by
  unfold load at refused
  split at refused
  next => cases refused
  next fault _ =>
    cases refused
    exact ⟨fault, rfl⟩

/-- A key is written as it was read, with its reserved byte cleared. -/
theorem toBytes_of_format (format : Format context bytes) :
    (ofTransformed context (written context bytes)).toBytes = zeroed 7 1 bytes := by
  have length := format.framed.length
  rw [toBytes_eq, encode, zeroed_header .secretKey format.framed.header]
  change header .secretKey ++ Bytes.ofNat 8 context.fingerprint.toNat ++
    Bytes.ofNat 4 context.dimension ++ Bytes.ofNat 4 context.primeCount ++
    wordBytes (wordsAt 24 (context.dimension * context.moduli.length) bytes) = _
  rw [format.framed.wordBytes_eq, ← format.fingerprint, ← format.dimension, ← format.primeCount]
  simp only [List.append_assoc]
  rw [ofNat_numberAt_append 20 4 (by omega), ofNat_numberAt_append 16 4 (by omega),
    ofNat_numberAt_append 8 8 (by omega), headerLength]

end SecretKey

/-! ## The three loaders -/

/-- Each loader of a context accepts exactly the bytes of its format, refuses all others as
undecodable, and loads what is written as the same bytes with the reserved ones cleared.  The
inverse transform that loading a key runs finds a buffer of the right length. -/
theorem Context.loaders_read_exactly {parameters : Parameters} {context : Context}
    (built : ofParameters parameters = .ok context) :
    ReadsExactly (Ciphertext.load context) (Ciphertext.Format context) Ciphertext.toBytes
        (fun bytes => zeroed 28 4 (zeroed 7 1 bytes)) ∧
      ReadsExactly (Ciphertext.loadData context) (Ciphertext.DataFormat context)
        Ciphertext.dataBytes (zeroed 7 1) ∧
      ReadsExactly (SecretKey.load context) (SecretKey.Format context) SecretKey.toBytes
        (zeroed 7 1) ∧
      ∀ bytes key, SecretKey.load context bytes = .ok key →
        key.transformed.checkedToCoefficient context.transform = .ok key.coefficients := by
  have lawful := lawful_of_ofParameters built
  refine ⟨?_, ?_, ?_, ?_⟩
  · exact readsExactly_of_iff (fun _ _ => Ciphertext.load_eq_ok_iff)
      (fun _ _ => Ciphertext.undecodable_of_ofDecoded) fun _ => Ciphertext.toBytes_of_format
  · exact readsExactly_of_iff (fun _ _ => Ciphertext.loadData_eq_ok_iff)
      (fun _ _ => Ciphertext.undecodable_of_ofDecoded) fun _ => Ciphertext.dataBytes_of_format
  · exact readsExactly_of_iff (fun _ _ => SecretKey.load_eq_ok_iff)
      (fun _ _ => SecretKey.undecodable_of_load) fun _ => SecretKey.toBytes_of_format
  · intro bytes key loaded
    obtain ⟨format, rfl⟩ := SecretKey.load_eq_ok_iff.mp loaded
    exact ResiduePoly.checkedToCoefficient_eq_ok lawful (SecretKey.belongs_written format)

/-- The preset of 32 bits loads the data of one coefficient, writes them with the reserved byte
cleared, and refuses them with a byte behind. -/
theorem Context.loaders_read_preset : ∃ context,
    ofParameters (Parameters.preset .bits32) = .ok context ∧
      (∃ ciphertext, Ciphertext.loadData context
          [0x48, 0x52, 0x4c, 0x57, 1, 2, 0, 9, 1, 0, 0, 0, 1, 0, 0, 0, 5, 0, 0, 0, 0, 0, 0, 0] =
            .ok ciphertext ∧
        ciphertext.dataBytes =
          [0x48, 0x52, 0x4c, 0x57, 1, 2, 0, 0, 1, 0, 0, 0, 1, 0, 0, 0, 5, 0, 0, 0, 0, 0, 0, 0]) ∧
      ∃ fault, Ciphertext.loadData context
          [0x48, 0x52, 0x4c, 0x57, 1, 2, 0, 9, 1, 0, 0, 0, 1, 0, 0, 0, 5, 0, 0, 0, 0, 0, 0, 0, 0] =
        .error (.undecodable fault) := by
  obtain ⟨context, built⟩ := exists_preset .bits32
  obtain ⟨dimension, _, primeCount, _⟩ := preset_spec built
  have moduli := moduli_preset built
  obtain ⟨_, data, _⟩ := loaders_read_exactly built
  refine ⟨context, built, (data _).1 ⟨?_, ?_, rfl, ?_, ?_⟩, (data _).2 ?_⟩
  · rw [dimension]
    decide
  · rw [primeCount]
    rfl
  · rw [moduli]
    rfl
  · rw [moduli]
    intro index q present place inside
    have first : place = 0 := Nat.lt_one_iff.mp inside
    cases index with
    | zero =>
      cases present
      subst first
      decide
    | succ index => cases present
  · intro format
    have length := format.framed.length
    rw [moduli] at length
    exact absurd length (by decide)

end RingLwe
