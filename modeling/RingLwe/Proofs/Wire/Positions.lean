import RingLwe.Proofs.Outcomes
import RingLwe.Proofs.Wire

/-!
# Written objects by position

What bytes hold at a position, whatever stands in front of it: a little-endian
number (`numberAt`) and words of eight bytes each (`wordsAt`).  Each reader is
described by the position where it starts: when it succeeds, what it finds,
and where it leaves off (`readHeader_eq_ok_iff`, `readNumber_eq_ok_iff`,
`readWords_eq_ok_iff`, `finish_eq_ok_iff`).

Conversely the bytes from a position on are what is read there, written again,
and the bytes behind (`ofNat_numberAt_append`, `wordBytes_wordsAt_append`).
-/

set_option autoImplicit false

namespace RingLwe.Wire

/-- The little-endian number of `count` bytes at a position. -/
def numberAt (position count : Nat) (bytes : List UInt8) : Nat :=
  Bytes.value ((bytes.drop position).take count)

/-- The `count` words at a position. -/
def wordsAt (position count : Nat) (bytes : List UInt8) : List UInt64 :=
  (List.range count).map fun index => (numberAt (position + 8 * index) 8 bytes).toUInt64

theorem numberAt_lt (position count : Nat) (bytes : List UInt8) :
    numberAt position count bytes < 256 ^ count := by
  refine Nat.lt_of_lt_of_le (Bytes.value_lt _) (Nat.pow_le_pow_right (by decide) ?_)
  exact List.length_take_le ..

/-! ## Headers -/

theorem readByte_eq_ok_iff {bytes rest : List UInt8} {byte : UInt8} :
    readByte bytes = .ok (byte, rest) ↔ bytes = byte :: rest := by
  cases bytes with
  | nil => simp [readByte]
  | cons other others => simp [readByte]

theorem checkKind_eq_ok_iff {kind : Kind} {byte : UInt8} {done : Unit} :
    checkKind kind byte = .ok done ↔ byte = kind.byte := by
  constructor
  · intro passed
    unfold checkKind at passed
    split at passed
    next found known =>
      split at passed
      next same =>
        subst same
        unfold Kind.ofByte? at known
        split_ifs at known with first second third
        · cases known
          exact first
        · cases known
          exact second
        · cases known
          exact third
      next => cases passed
    next => cases passed
  · rintro rfl
    simp [checkKind]

/-- A header is accepted whatever its reserved byte. -/
theorem readHeader_eq_ok_iff_append {kind : Kind} {bytes rest : List UInt8} :
    readHeader kind bytes = .ok rest ↔
      ∃ reserved, bytes = magic ++ [version, kind.byte, 0, reserved] ++ rest := by
  constructor
  · intro read
    simp only [readHeader, ite_error_eq_ok_iff, bind_eq_ok_iff, Prod.exists, readByte_eq_ok_iff,
      checkKind_eq_ok_iff, not_not] at read
    obtain ⟨_, letters, _, _, versionRead, supported, _, _, kindRead, _, expected, _, _,
      compressionRead, plain, reserved, _, reservedRead, result⟩ := read
    cases result
    refine ⟨reserved, ?_⟩
    rw [← List.take_append_drop magic.length bytes, letters, versionRead, kindRead,
      compressionRead, reservedRead, supported, expected, plain]
    rfl
  · rintro ⟨reserved, rfl⟩
    cases kind <;> rfl

/-- A header is accepted when its first seven bytes are those of the kind. -/
theorem readHeader_eq_ok_iff {kind : Kind} {bytes rest : List UInt8} :
    readHeader kind bytes = .ok rest ↔
      bytes.take 7 = [0x48, 0x52, 0x4c, 0x57, 1, kind.byte, 0] ∧ headerLength ≤ bytes.length ∧
        bytes.drop headerLength = rest := by
  rw [readHeader_eq_ok_iff_append]
  constructor
  · rintro ⟨reserved, rfl⟩
    refine ⟨rfl, ?_, rfl⟩
    simp [magic, headerLength]
  · rintro ⟨fixed, long, rfl⟩
    unfold headerLength at *
    refine ⟨bytes[7], ?_⟩
    have front : bytes.take 8 = magic ++ [version, kind.byte, 0, bytes[7]] := by
      rw [List.take_succ_eq_append_getElem long, fixed]
      rfl
    rw [← front, List.take_append_drop]

/-! ## Fields -/

section Fields

variable {position count : Nat} {bytes : List UInt8}

theorem readNumber_eq_ok_iff {number : Nat} {rest : List UInt8} :
    readNumber count (bytes.drop position) = .ok (number, rest) ↔
      count ≤ bytes.length - position ∧ numberAt position count bytes = number ∧
        bytes.drop (position + count) = rest := by
  have short : ((bytes.drop position).take count).length < count ↔
      ¬ count ≤ bytes.length - position := by
    rw [List.length_take, List.length_drop]
    omega
  simp only [readNumber, readBytes, bind_eq_ok_iff, ite_error_eq_ok_iff, short, not_not]
  constructor
  · rintro ⟨_, ⟨enough, taken⟩, result⟩
    cases taken
    cases result
    exact ⟨enough, rfl, List.drop_drop.symm⟩
  · rintro ⟨enough, rfl, rfl⟩
    exact ⟨_, ⟨enough, rfl⟩, by rw [List.drop_drop]; rfl⟩

theorem finish_eq_ok_iff {done : Unit} :
    finish (bytes.drop position) = .ok done ↔ bytes.length ≤ position := by
  simp [finish]

theorem ensure_eq_ok_iff {condition : Bool} {fault : DecodeFault} {done : Unit} :
    ensure condition fault = .ok done ↔ condition = true := by
  simp [ensure]

variable (position count) in
/-- The bytes from a position on start with the number there. -/
theorem ofNat_numberAt_append (enough : count ≤ bytes.length - position) :
    Bytes.ofNat count (numberAt position count bytes) ++ bytes.drop (position + count) =
      bytes.drop position := by
  have full : ((bytes.drop position).take count).length = count := by
    rw [List.length_take, List.length_drop]
    omega
  have written := Bytes.ofNat_value ((bytes.drop position).take count)
  rw [full] at written
  rw [numberAt, written, ← List.drop_drop, List.take_append_drop]

end Fields

/-! ## Words -/

section Words

variable {position count : Nat} {bytes : List UInt8}

theorem length_wordsAt : (wordsAt position count bytes).length = count := by
  rw [wordsAt, List.length_map, List.length_range]

theorem wordsAt_succ : wordsAt position (count + 1) bytes =
    (numberAt position 8 bytes).toUInt64 :: wordsAt (position + 8) count bytes := by
  rw [wordsAt, List.range_succ_eq_map, List.map_cons, List.map_map]
  refine congrArg _ (List.map_congr_left ?_)
  intro index _
  rw [Function.comp_apply, Nat.mul_succ, ← Nat.add_assoc, Nat.add_right_comm]

theorem toNat_numberAt :
    (numberAt position 8 bytes).toUInt64.toNat = numberAt position 8 bytes :=
  UInt64.toNat_ofNat_of_lt' (numberAt_lt position 8 bytes)

theorem wordsOnto_drop (found : List UInt64) :
    wordsOnto count (bytes.drop position) found =
      ((wordsAt position count bytes).reverse ++ found, bytes.drop (position + 8 * count)) := by
  induction count generalizing position found with
  | zero => rfl
  | succ count ih =>
    rw [wordsOnto, List.drop_drop, ih, wordsAt_succ, List.reverse_cons, List.append_assoc,
      Nat.mul_succ, Nat.add_comm (8 * count), Nat.add_assoc]
    rfl

theorem readWords_eq_ok_iff {words : List UInt64} {rest : List UInt8} :
    readWords count (bytes.drop position) = .ok (words, rest) ↔
      8 * count ≤ bytes.length - position ∧ wordsAt position count bytes = words ∧
        bytes.drop (position + 8 * count) = rest := by
  simp only [readWords, List.length_drop, wordsOnto_drop, List.append_nil, List.reverse_reverse,
    ite_error_eq_ok_iff, Nat.not_lt, Except.ok.injEq, Prod.mk.injEq]

variable (position count) in
/-- The bytes from a position on start with the words there. -/
theorem wordBytes_wordsAt_append (enough : 8 * count ≤ bytes.length - position) :
    wordBytes (wordsAt position count bytes) ++ bytes.drop (position + 8 * count) =
      bytes.drop position := by
  induction count generalizing position with
  | zero => rfl
  | succ count ih =>
    have first : 8 ≤ bytes.length - position := by omega
    have others : 8 * count ≤ bytes.length - (position + 8) := by omega
    have next : position + 8 * (count + 1) = position + 8 + 8 * count := by omega
    rw [wordsAt_succ, wordBytes, List.flatMap_cons, ← wordBytes, Bytes.ofWord64, toNat_numberAt,
      next, List.append_assoc, ih _ others, ofNat_numberAt_append _ _ first]

theorem run_wordsAt {number index : Nat} (present : index < number) :
    run count (wordsAt position (count * number) bytes) index =
      wordsAt (position + 8 * (index * count)) count bytes := by
  have inside : index * count + count ≤ count * number := by
    rw [← Nat.succ_mul, Nat.mul_comm]
    exact Nat.mul_le_mul_left count present
  refine List.ext_getElem ?_ ?_
  · simp only [run, wordsAt, List.length_take, List.length_drop, List.length_map, List.length_range]
    omega
  · intro place _ _
    simp only [run, wordsAt, List.getElem_take, List.getElem_drop, List.getElem_map,
      List.getElem_range, Nat.mul_add, Nat.add_assoc]

/-- Words are reduced when the numbers at their positions are. -/
theorem reduced_wordsAt_iff {moduli : List UInt64} :
    Reduced count moduli (wordsAt position (count * moduli.length) bytes) ↔
      ∀ index q, moduli[index]? = some q → ∀ place < count,
        numberAt (position + 8 * (index * count + place)) 8 bytes < q.toNat := by
  refine forall₃_congr ?_
  intro index q present
  have inside := (List.getElem?_eq_some_iff.mp present).1
  rw [run_wordsAt inside, wordsAt, List.forall_mem_map]
  refine forall_congr' fun place => ?_
  rw [List.mem_range, UInt64.lt_iff_toNat_lt, toNat_numberAt, Nat.mul_add, Nat.add_assoc]

end Words

end RingLwe.Wire
