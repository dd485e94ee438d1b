import RingLwe.Proofs.ResiduePoly
import RingLwe.Proofs.Wire.Formats

/-!
# Ciphertexts of a context

A ciphertext belongs to a context when it has at most as many coefficients as
the ring and all of its residues are reduced (`Ciphertext.Belongs`).  Truncation
keeps that and the residues of the coefficients that stay (`truncate_spec`), and
every context of the same ring reads the written data of such a ciphertext back
(`loadData_dataBytes`).
-/

set_option autoImplicit false

namespace RingLwe.Ciphertext

/-- What holds of a ciphertext of a context. -/
structure Belongs (context : Context) (ciphertext : Ciphertext) : Prop where
  bound : ciphertext.context = context
  count : ciphertext.count ≤ context.dimension
  full : ciphertext.residues.length = ciphertext.count * context.primeCount
  reduced : Reduced ciphertext.count context.moduli ciphertext.residues

theorem belongs_ofPoly {context : Context} {poly : ResiduePoly}
    (belongs : poly.Belongs context .coefficient) : (ofPoly context poly).Belongs context := by
  refine ⟨rfl, Nat.le_of_eq belongs.size, ?_, ?_⟩
  · rw [ofPoly, belongs.size, belongs.full]
  · rw [ofPoly, belongs.size]
    exact belongs.reduced

theorem toBytes_eq (ciphertext : Ciphertext) : ciphertext.toBytes = ciphertext.encode :=
  Wire.filled_storeObject _ _

/-! ## Loading -/

section Loading

variable {context : Context} {bytes : List UInt8} {ciphertext : Ciphertext}

/-- The ciphertext of the words at a position. -/
def atPosition (context : Context) (position count : Nat) (bytes : List UInt8) : Ciphertext :=
  ⟨context, count, Wire.wordsAt position (count * context.moduli.length) bytes⟩

theorem ofDecoded_eq_ok_iff {decoded : Except DecodeFault (Nat × List UInt64)} :
    ofDecoded context decoded = .ok ciphertext ↔
      ∃ count words, decoded = .ok (count, words) ∧ ⟨context, count, words⟩ = ciphertext := by
  rcases decoded with fault | ⟨count, words⟩
  · simp [ofDecoded]
  · simp [ofDecoded]

theorem load_eq_ok_iff :
    load context bytes = .ok ciphertext ↔
      Format context bytes ∧ atPosition context 32 (Wire.numberAt 20 4 bytes) bytes = ciphertext := by
  simp only [load, ofDecoded_eq_ok_iff, decode_eq_ok_iff, and_assoc, exists_and_left,
    exists_eq_left', atPosition]

theorem loadData_eq_ok_iff :
    loadData context bytes = .ok ciphertext ↔
      DataFormat context bytes ∧
        atPosition context 16 (Wire.numberAt 8 4 bytes) bytes = ciphertext := by
  simp only [loadData, ofDecoded_eq_ok_iff, decodeData_eq_ok_iff, and_assoc, exists_and_left,
    exists_eq_left', atPosition]

theorem belongs_atPosition {kind : UInt8} {position count : Nat} (few : count ≤ context.dimension)
    (framed : Wire.Framed kind position count context.moduli bytes) :
    Belongs context (atPosition context position count bytes) := by
  refine ⟨rfl, few, ?_, Wire.reduced_wordsAt_iff.mpr framed.reduced⟩
  rw [atPosition, Wire.length_wordsAt, Context.Lawful.length_moduli]

theorem belongs_of_load (loaded : load context bytes = .ok ciphertext) :
    Belongs context ciphertext := by
  obtain ⟨format, rfl⟩ := load_eq_ok_iff.mp loaded
  exact belongs_atPosition format.count format.framed

theorem belongs_of_loadData (loaded : loadData context bytes = .ok ciphertext) :
    Belongs context ciphertext := by
  obtain ⟨format, rfl⟩ := loadData_eq_ok_iff.mp loaded
  exact belongs_atPosition format.count format.framed

end Loading

variable {context : Context} {ciphertext : Ciphertext} (belongs : Belongs context ciphertext)
include belongs

/-! ## Truncation -/

section Truncate

variable {count : Nat} (fewer : count ≤ ciphertext.count)
include fewer

theorem length_of_mem_cut :
    ∀ words ∈ (components ciphertext.count context.primeCount ciphertext.residues).map
      (·.take count), words.length = count := by
  intro words member
  obtain ⟨whole, inside, rfl⟩ := List.mem_map.mp member
  rw [List.length_take, length_of_mem_components belongs.full inside]
  omega

theorem run_truncate {index : Nat} (present : index < context.primeCount) :
    run count ((components ciphertext.count context.primeCount ciphertext.residues).flatMap
        (·.take count)) index =
      (run ciphertext.count ciphertext.residues index).take count := by
  rw [List.flatMap_def]
  refine run_flatten (length_of_mem_cut belongs fewer) ?_
  rw [List.getElem?_map, getElem?_components _ _ present, Option.map_some]

/-- Truncation to fewer coefficients succeeds and keeps a ciphertext one of the context. -/
theorem Belongs.truncate_spec : ∃ shorter, ciphertext.truncate count = .ok shorter ∧
    shorter.Belongs context ∧ shorter.count = count ∧
    ∀ index position, index < context.primeCount → position < count →
      shorter.residues.getD (index * count + position) 0 =
        ciphertext.residues.getD (index * ciphertext.count + position) 0 := by
  refine ⟨{ ciphertext with
      count
      residues := (components ciphertext.count context.primeCount ciphertext.residues).flatMap
        (·.take count) }, ?_, ⟨?_, Nat.le_trans fewer belongs.count, ?_, fun index q present => ?_⟩,
    rfl, ?_⟩
  · rw [truncate, if_neg (Nat.not_lt.mpr fewer), belongs.bound]
  · exact belongs.bound
  · dsimp only
    rw [List.flatMap_def, length_flatten_of_even _ (length_of_mem_cut belongs fewer),
      List.length_map, length_components]
  · dsimp only
    rw [run_truncate belongs fewer (Context.Lawful.index_lt present)]
    intro word member
    exact belongs.reduced index q present word (List.mem_of_mem_take member)
  · intro index position present inside
    dsimp only
    have wide : position < ciphertext.count := Nat.lt_of_lt_of_le inside fewer
    rw [← getD_run _ index inside, run_truncate belongs fewer present, ← getD_run _ index wide,
      List.getD_eq_getElem?_getD, List.getElem?_take_of_lt inside, ← List.getD_eq_getElem?_getD]

end Truncate

/-- A truncated ciphertext of a context is one. -/
theorem Belongs.of_truncate {shorter : Ciphertext} {count : Nat}
    (truncated : ciphertext.truncate count = .ok shorter) : shorter.Belongs context := by
  have fewer : count ≤ ciphertext.count := by
    rw [truncate, ite_error_eq_ok_iff] at truncated
    exact Nat.not_lt.mp truncated.1
  obtain ⟨found, made, foundBelongs, _⟩ := belongs.truncate_spec fewer
  rw [truncated] at made
  cases made
  exact foundBelongs

/-! ## Written data -/

theorem dataBytes_eq :
    ciphertext.dataBytes = encodeData ciphertext.count context.primeCount ciphertext.residues := by
  have size : ciphertext.dataSize =
      Wire.objectLength .ciphertextData ciphertext.residues.length := by
    rw [dataSize, dataSizeFor, belongs.bound, belongs.full]
  rw [dataBytes, size, ← belongs.bound]
  exact Wire.filled_storeObject _ _

/-- The words of a list are as many as their bytes say, reduced, and no others follow. -/
theorem decodeBody_wordBytes :
    decodeBody context ciphertext.count context.primeCount (Wire.wordBytes ciphertext.residues) =
      .ok (ciphertext.residues, []) := by
  have words := Wire.readWords_wordBytes ciphertext.residues []
  rw [List.append_nil, belongs.full] at words
  have reduced : Wire.checkReduced ciphertext.count 0 context.moduli ciphertext.residues = .ok () :=
    (Wire.checkReduced_iff _ _ _ _).mpr belongs.reduced
  simp only [decodeBody, Wire.ensure, beq_self_eq_true, decide_eq_true belongs.count, if_true,
    ok_bind, words, reduced]
  rfl

/-- The data of a ciphertext are read back. -/
theorem decodeData_dataBytes (lawful : context.Lawful) :
    decodeData context ciphertext.dataBytes = .ok (ciphertext.count, ciphertext.residues) := by
  have short := Nat.lt_of_le_of_lt (Nat.le_trans belongs.count lawful.dimension_le)
    (by decide : 32768 < 256 ^ 4)
  have few := Nat.lt_of_le_of_lt lawful.primeCount_le (by decide : 3 < 256 ^ 4)
  rw [dataBytes_eq belongs, encodeData, List.append_assoc, List.append_assoc]
  simp only [decodeData, Wire.readHeader_header, Wire.readNumber_ofNat 4 short,
    Wire.readNumber_ofNat 4 few, decodeBody_wordBytes belongs, ok_bind]
  rfl

/-- A full object is read back. -/
theorem load_toBytes (lawful : context.Lawful) :
    load context ciphertext.toBytes = .ok ciphertext := by
  have short := Nat.lt_of_le_of_lt lawful.dimension_le (by decide : 32768 < 256 ^ 4)
  have few := Nat.lt_of_le_of_lt lawful.primeCount_le (by decide : 3 < 256 ^ 4)
  have counted := Nat.lt_of_le_of_lt belongs.count short
  have word : context.fingerprint.toNat < 256 ^ 8 := context.fingerprint.toNat_lt
  obtain rfl : ciphertext.context = context := belongs.bound
  have read : decode ciphertext.context ciphertext.toBytes =
      .ok (ciphertext.count, ciphertext.residues) := by
    rw [toBytes_eq, encode, Bytes.ofWord64]
    simp only [List.append_assoc, decode, Wire.readHeader_header, Wire.readNumber_ofNat 8 word,
      Wire.readNumber_ofNat 4 short, Wire.readNumber_ofNat 4 counted, Wire.readNumber_ofNat 4 few,
      Wire.readNumber_ofNat 4 (by decide : 0 < 256 ^ 4), Wire.ensure, beq_self_eq_true, if_true,
      decodeBody_wordBytes belongs, ok_bind]
    rfl
  rw [load, read]
  rfl

omit belongs in
theorem length_toBytes (ciphertext : Ciphertext) : ciphertext.toBytes.length = ciphertext.size := by
  simp only [toBytes_eq, encode, List.length_append, Wire.length_header, Wire.length_wordBytes,
    Bytes.ofWord64, Bytes.length_ofNat, size, Wire.objectLength, Wire.Kind.fieldLength]

theorem length_dataBytes : ciphertext.dataBytes.length = ciphertext.dataSize := by
  simp only [dataBytes_eq belongs, encodeData, List.length_append, Wire.length_header,
    Wire.length_wordBytes, Bytes.length_ofNat, dataSize, dataSizeFor, belongs.bound, belongs.full,
    Wire.objectLength, Wire.Kind.fieldLength]

/-- Every context of the same ring loads the data of a ciphertext. -/
theorem loadData_dataBytes {other : Context} (same : Context.SameRing context other)
    (lawful : other.Lawful) :
    loadData other ciphertext.dataBytes = .ok { ciphertext with context := other } := by
  have transferred : Belongs other { ciphertext with context := other } := by
    refine ⟨rfl, ?_, ?_, ?_⟩
    · rw [← same.dimension]
      exact belongs.count
    · rw [← same.primeCount]
      exact belongs.full
    · rw [← same.moduli]
      exact belongs.reduced
  have bytes : ciphertext.dataBytes = { ciphertext with context := other }.dataBytes := by
    rw [dataBytes_eq belongs, dataBytes_eq transferred, same.primeCount]
  rw [loadData, bytes, decodeData_dataBytes transferred lawful]
  rfl

end RingLwe.Ciphertext
