import RingLwe.Failure

/-!
# Storing objects in buffers

Storing writes an object over the front of a buffer of the caller.  A buffer
that is too small is refused before anything is written; of a larger one the
bytes behind the object stay.
-/

set_option autoImplicit false

namespace RingLwe.Wire

/-- The number of bytes that were written, and the buffer afterwards. -/
abbrev Stored : Type :=
  Nat × List UInt8

/-- Writes an object of the given size over the front of a buffer. -/
def storeObject (size : Nat) (object buffer : List UInt8) : Except Failure Stored :=
  if buffer.length < size then
    .error (.bufferTooSmall size buffer.length)
  else
    .ok (size, object ++ buffer.drop size)

/-- What a store leaves in a fresh buffer of the given size. -/
def filled (size : Nat) (store : List UInt8 → Except Failure Stored) : List UInt8 :=
  let fresh := List.replicate size 0
  match store fresh with
  | .ok (_, bytes) => bytes
  | .error _ => fresh

/-- The bytes of a list of words. -/
def wordBytes (words : List UInt64) : List UInt8 :=
  words.flatMap Bytes.ofWord64

end RingLwe.Wire
