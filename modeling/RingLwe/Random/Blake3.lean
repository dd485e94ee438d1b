import RingLwe.Word.Bytes

/-!
# BLAKE3 of one block

The hash of a message of at most 64 bytes, and the key that a context string
derives from such a message.  A message of one block is a single chunk and the
root of the tree, so each hash is one application of the compression function.
-/

set_option autoImplicit false

namespace RingLwe.Blake3

/-- Rotation to the right by fewer than 32 bits. -/
@[inline]
def rotateRight (word amount : UInt32) : UInt32 :=
  (word >>> amount) ||| (word <<< (32 - amount))

/-- The chaining value in which an ordinary hash starts. -/
def initialValue : Vector UInt32 8 :=
  #v[0x6a09e667, 0xbb67ae85, 0x3c6ef372, 0xa54ff53a, 0x510e527f, 0x9b05688c, 0x1f83d9ab, 0x5be0cd19]

/-- Mixes the words at four positions with two words of the message. -/
def mix (state : Vector UInt32 16) (a b c d : Nat) (first second : UInt32) : Vector UInt32 16 :=
  let wordA := state.getD a 0 + state.getD b 0 + first
  let wordD := rotateRight (state.getD d 0 ^^^ wordA) 16
  let wordC := state.getD c 0 + wordD
  let wordB := rotateRight (state.getD b 0 ^^^ wordC) 12
  let wordA := wordA + wordB + second
  let wordD := rotateRight (wordD ^^^ wordA) 8
  let wordC := wordC + wordD
  let wordB := rotateRight (wordB ^^^ wordC) 7
  (((state.setIfInBounds a wordA).setIfInBounds b wordB).setIfInBounds c wordC).setIfInBounds d wordD

/-- The positions that one round mixes, with the positions of their message words. -/
def positions : List ((Nat × Nat × Nat × Nat) × Nat × Nat) :=
  [((0, 4, 8, 12), 0, 1), ((1, 5, 9, 13), 2, 3), ((2, 6, 10, 14), 4, 5), ((3, 7, 11, 15), 6, 7),
    ((0, 5, 10, 15), 8, 9), ((1, 6, 11, 12), 10, 11), ((2, 7, 8, 13), 12, 13), ((3, 4, 9, 14), 14, 15)]

/-- One round with the words of a message. -/
def round (message state : Vector UInt32 16) : Vector UInt32 16 :=
  positions.foldl
    (fun state ((a, b, c, d), first, second) =>
      mix state a b c d (message.getD first 0) (message.getD second 0)) state

/-- The order in which a message enters the next round. -/
def permutation : Vector Nat 16 :=
  #v[2, 6, 3, 10, 7, 0, 4, 13, 1, 11, 12, 5, 9, 14, 15, 8]

/-- A number of rounds, the message permuted between them. -/
def rounds : (count : Nat) → (message state : Vector UInt32 16) → Vector UInt32 16
  | 0, _, state => state
  | count + 1, message, state =>
    rounds count (permutation.map fun position => message.getD position 0) (round message state)

/-- The first half of the output of the compression function, for the block counter zero. -/
def compress (chaining : Vector UInt32 8) (message : Vector UInt32 16) (length flags : UInt32) :
    Vector UInt32 8 :=
  let state := rounds 7 message
    (chaining ++ initialValue.take 4 ++ #v[0, 0, length, flags])
  Vector.ofFn fun position : Fin 8 => state.getD position 0 ^^^ state.getD (position + 8) 0

/-- The words of a message of at most 64 bytes, padded with zero bytes. -/
def messageWords (bytes : List UInt8) : Vector UInt32 16 :=
  Vector.ofFn fun position => (Bytes.value ((bytes.drop (4 * position)).take 4)).toUInt32

/-- A message that is the only block of its hash. -/
def wholeMessage (chaining : Vector UInt32 8) (bytes : List UInt8) (purpose : UInt32) :
    Vector UInt32 8 :=
  let startEndRoot : UInt32 := 1 ||| 2 ||| 8
  compress chaining (messageWords bytes) bytes.length.toUInt32 (startEndRoot ||| purpose)

/-- The hash of a message of at most 64 bytes. -/
def hash (message : List UInt8) : Vector UInt32 8 :=
  wholeMessage initialValue message 0

/-- The key that a context derives from a message, both of at most 64 bytes. -/
def deriveKey (context : String) (message : List UInt8) : Vector UInt32 8 :=
  wholeMessage (wholeMessage initialValue context.toUTF8.toList 32) message 64

end RingLwe.Blake3
