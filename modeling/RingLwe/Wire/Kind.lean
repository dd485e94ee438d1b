import RingLwe.Word.Bytes

/-!
# Kinds of written objects

A written object is a header of eight bytes, the fields of its kind, and words
of eight bytes.  The header holds the four letters `HRLW`, the version, the
kind, the compression and a reserved byte; numbers are little-endian.

The number of bytes before the words depends only on the kind, so the length
of an object follows from its kind and the number of its words.
-/

set_option autoImplicit false

namespace RingLwe.Wire

/-- The kinds of objects. -/
inductive Kind where
  /-- A ciphertext with the fingerprint of its context. -/
  | ciphertext
  /-- The bare residues of a ciphertext. -/
  | ciphertextData
  /-- A secret key in the transformed domain. -/
  | secretKey
deriving DecidableEq, Repr, Inhabited

namespace Kind

/-- The byte of a kind in the header. -/
def byte : Kind → UInt8
  | ciphertext => 1
  | ciphertextData => 2
  | secretKey => 3

/-- The kind of a byte, if there is one. -/
def ofByte? (byte : UInt8) : Option Kind :=
  if byte = 1 then some ciphertext
  else if byte = 2 then some ciphertextData
  else if byte = 3 then some secretKey
  else none

/-- The name of a kind in messages. -/
def name : Kind → String
  | ciphertext => "Ciphertext"
  | ciphertextData => "CiphertextData"
  | secretKey => "SecretKey"

/-- The number of bytes between the header and the words. -/
def fieldLength : Kind → Nat
  | ciphertext => 24
  | ciphertextData => 8
  | secretKey => 16

@[simp]
theorem ofByte?_byte (kind : Kind) : ofByte? kind.byte = some kind := by
  cases kind <;> rfl

end Kind

/-- The letters with which every object starts. -/
def magic : List UInt8 :=
  [0x48, 0x52, 0x4c, 0x57]

/-- The version of the format. -/
def version : UInt8 :=
  1

/-- The length of the header. -/
def headerLength : Nat :=
  8

/-- The header of an object. -/
def header (kind : Kind) : List UInt8 :=
  magic ++ [version, kind.byte, 0, 0]

/-- The length of an object with the given number of words. -/
def objectLength (kind : Kind) (words : Nat) : Nat :=
  headerLength + kind.fieldLength + 8 * words

end RingLwe.Wire
