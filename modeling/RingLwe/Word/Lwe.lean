/-!
# Words of the learning-with-errors layer

Hybrid outputs live in the integers modulo `2^32` or `2^64`.  The width is a
value of `Width`, and a word of a width is a bit vector, so that the ring
operations of `BitVec` are exactly arithmetic modulo `2^bits`.

Reading a natural number as a word keeps its residue (`toNat_ofNat`).
-/

set_option autoImplicit false

namespace RingLwe

/-- The two supported widths of the hybrid modulus. -/
inductive Width where
  | bits32
  | bits64
deriving DecidableEq, Repr, Inhabited

namespace Width

/-- The number of bits of a width. -/
def bits : Width → Nat
  | bits32 => 32
  | bits64 => 64

/-- The hybrid modulus `2^bits`. -/
def modulus : Width → Nat
  | bits32 => UInt32.size
  | bits64 => UInt64.size

theorem modulus_eq (width : Width) : width.modulus = 1 <<< width.bits := by
  cases width <;> rfl

/-- The width of a number of bits, if it is supported. -/
def ofBits? : Nat → Option Width
  | 32 => some bits32
  | 64 => some bits64
  | _ => none

@[simp]
theorem ofBits?_bits (width : Width) : ofBits? width.bits = some width := by
  cases width <;> rfl

theorem bits_of_ofBits? {count : Nat} {width : Width} (found : ofBits? count = some width) :
    width.bits = count := by
  unfold ofBits? at found
  split at found
  · cases found; rfl
  · cases found; rfl
  · cases found

end Width

/-- A word of a width: an integer modulo `2^bits`. -/
abbrev LweWord (width : Width) : Type :=
  BitVec width.bits

namespace LweWord

/-- The word of a natural number, wrapped to the width. -/
def ofNat (width : Width) (number : Nat) : LweWord width :=
  BitVec.ofNat width.bits number

theorem toNat_ofNat (width : Width) (number : Nat) :
    (ofNat width number).toNat = number % width.modulus := by
  rw [width.modulus_eq, Nat.one_shiftLeft]
  exact BitVec.toNat_ofNat number width.bits

/-- The product of a row of words with a column of words. -/
def dot {width : Width} (row column : List (LweWord width)) : LweWord width :=
  (row.zip column).foldl (fun sum pair => sum + pair.1 * pair.2) 0

end LweWord

end RingLwe
