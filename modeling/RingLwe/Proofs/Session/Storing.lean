import RingLwe.Proofs.Session
import RingLwe.Proofs.Wire.Storing

/-!
# Stores of the objects of a session

The sizes of the three written forms follow from different data: those of a key
and of a full ciphertext object from the number of residues, that of ciphertext
data from the number of coefficients for a fresh buffer and from the number of
residues in the store.  In every session they agree
(`Ciphertext.Belongs.dataSize_eq`), so every object is stored whole or not at all
(`Session.reached_stores`).
-/

set_option autoImplicit false

namespace RingLwe

/-! ## Ciphertexts and keys -/

namespace Ciphertext

variable (ciphertext : Ciphertext)

/-- The fields of the full object. -/
def fields : List (List UInt8) :=
  [Bytes.ofWord64 ciphertext.context.fingerprint, Bytes.ofNat 4 ciphertext.context.dimension,
    Bytes.ofNat 4 ciphertext.count, Bytes.ofNat 4 ciphertext.context.primeCount, Bytes.ofNat 4 0]

/-- The fields of the data. -/
def dataFields : List (List UInt8) :=
  [Bytes.ofNat 4 ciphertext.count, Bytes.ofNat 4 ciphertext.context.primeCount]

/-- Stores the full object piece by piece. -/
def storePieces (buffer : List UInt8) : Wire.Effect :=
  Wire.storePieces ciphertext.size
    (Wire.objectPieces .ciphertext ciphertext.fields ciphertext.residues) buffer

/-- Stores the data piece by piece, in a size that follows from the residues. -/
def storeDataPieces (buffer : List UInt8) : Wire.Effect :=
  Wire.storePieces (Wire.objectLength .ciphertextData ciphertext.residues.length)
    (Wire.objectPieces .ciphertextData ciphertext.dataFields ciphertext.residues) buffer

theorem storesWhole : Wire.StoresWhole .ciphertext ciphertext.size ciphertext.toBytes
    ciphertext.store ciphertext.storePieces := by
  rw [toBytes_eq]
  refine Wire.storesWhole_of_fields rfl ciphertext.residues ?_
  simp only [encode, fields, List.flatten_cons, List.flatten_nil, List.append_nil,
    List.append_assoc]

theorem Belongs.dataSize_eq {context : Context} {ciphertext : Ciphertext}
    (belongs : ciphertext.Belongs context) :
    ciphertext.dataSize = Wire.objectLength .ciphertextData ciphertext.residues.length := by
  rw [dataSize, dataSizeFor, belongs.bound, belongs.full]

theorem Belongs.storesWhole_data {context : Context} {ciphertext : Ciphertext}
    (belongs : ciphertext.Belongs context) :
    Wire.StoresWhole .ciphertextData ciphertext.dataSize ciphertext.dataBytes
      ciphertext.storeData ciphertext.storeDataPieces := by
  rw [belongs.dataSize_eq, dataBytes_eq belongs, ← belongs.bound]
  refine Wire.storesWhole_of_fields rfl ciphertext.residues ?_
  simp only [encodeData, dataFields, List.flatten_cons, List.flatten_nil, List.append_nil,
    List.append_assoc]

end Ciphertext

namespace SecretKey

variable (key : SecretKey)

/-- The fields of the written form. -/
def fields : List (List UInt8) :=
  [Bytes.ofWord64 key.context.fingerprint, Bytes.ofNat 4 key.context.dimension,
    Bytes.ofNat 4 key.context.primeCount]

/-- Stores a key piece by piece. -/
def storePieces (buffer : List UInt8) : Wire.Effect :=
  Wire.storePieces key.size
    (Wire.objectPieces .secretKey key.fields key.transformed.residues) buffer

theorem storesWhole :
    Wire.StoresWhole .secretKey key.size key.toBytes key.store key.storePieces := by
  rw [toBytes_eq]
  refine Wire.storesWhole_of_fields rfl key.transformed.residues ?_
  simp only [encode, fields, List.flatten_cons, List.flatten_nil, List.append_nil,
    List.append_assoc]

end SecretKey

namespace Session

/-- What operations make under contexts that were built is stored whole or not at all: every
ciphertext as a full object and as data, whose size is the same from its coefficients and from its
residues, and every key. -/
theorem reached_stores {contexts : List Context}
    (built : ∀ context ∈ contexts, ∃ parameters, Context.ofParameters parameters = .ok context)
    (distinguished : Context.Distinguished contexts) (operations : List Operation) :
    (∀ ciphertext ∈ (reached contexts operations).ciphertexts,
      Wire.StoresWhole .ciphertext ciphertext.size ciphertext.toBytes ciphertext.store
          ciphertext.storePieces ∧
        Wire.StoresWhole .ciphertextData ciphertext.dataSize ciphertext.dataBytes
          ciphertext.storeData ciphertext.storeDataPieces ∧
        ciphertext.dataSize =
          Wire.objectLength .ciphertextData ciphertext.residues.length) ∧
    ∀ key ∈ (reached contexts operations).keys,
      Wire.StoresWhole .secretKey key.size key.toBytes key.store key.storePieces := by
  have wellFormed := wellFormed_reached (lawful_of_built built) distinguished operations
  constructor
  · intro ciphertext member
    obtain ⟨_, belongs⟩ := wellFormed.ciphertexts ciphertext member
    exact ⟨ciphertext.storesWhole, belongs.storesWhole_data, belongs.dataSize_eq⟩
  · intro key _
    exact key.storesWhole

/-- With the preset of 32 bits, the data of a ciphertext of five coefficients are 56 bytes: a buffer
of 55 bytes is left as it is, and of one of 57 the last byte. -/
theorem reached_stores_preset : ∃ context,
    Context.ofParameters (Parameters.preset .bits32) = .ok context ∧
      ∃ ciphertext, (reached [context] [.generateKey 0 (Stream.ofSeed 1),
          .derivePublic 0 (Vector.replicate 8 0), .preprocess 0 0 (Stream.ofSeed 2),
          .encryptPreprocessed 0 (List.replicate 5 0) 0]).ciphertexts = [ciphertext] ∧
        ciphertext.storeDataPieces (List.replicate 55 7) =
          ⟨.error (.failed (.bufferTooSmall 56 55)), List.replicate 55 7⟩ ∧
        (ciphertext.storeDataPieces (List.replicate 57 7)).buffer = ciphertext.dataBytes ++ [7] := by
  obtain ⟨context, built, ciphertext, made, own, count⟩ := exists_reached_preset
  have member := List.mem_singleton_self ciphertext
  rw [← made] at member
  obtain ⟨_, stores, _⟩ := (reached_stores (List.forall_mem_singleton.mpr ⟨_, built⟩)
    (Context.distinguished_singleton context) _).1 ciphertext member
  have size : ciphertext.dataSize = 56 := by
    rw [Ciphertext.dataSize, Ciphertext.dataSizeFor, own, count,
      (Context.preset_spec built).2.2.1]
    rfl
  rw [size] at stores
  exact ⟨context, built, ciphertext, made, stores.refused _ (by decide),
    stores.accepted _ (by decide)⟩

end Session

end RingLwe
