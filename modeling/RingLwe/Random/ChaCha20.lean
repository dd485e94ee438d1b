/-!
# The ChaCha20 block function

A block is sixteen 32-bit words.  It comes from a state of four constants, the
eight words of the key, a 64-bit block counter and a 64-bit stream identifier,
here zero, by twenty rounds and a final addition of the state.
-/

set_option autoImplicit false

namespace RingLwe.ChaCha20

/-- A block, or the state from which one is made. -/
abbrev Block : Type :=
  Vector UInt32 16

/-- Rotation to the left by fewer than 32 bits. -/
@[inline]
def rotateLeft (word amount : UInt32) : UInt32 :=
  (word <<< amount) ||| (word >>> (32 - amount))

/-- Mixes the words at four positions. -/
def quarterRound (state : Block) (a b c d : Nat) : Block :=
  let wordA := state.getD a 0 + state.getD b 0
  let wordD := rotateLeft (state.getD d 0 ^^^ wordA) 16
  let wordC := state.getD c 0 + wordD
  let wordB := rotateLeft (state.getD b 0 ^^^ wordC) 12
  let wordA := wordA + wordB
  let wordD := rotateLeft (wordD ^^^ wordA) 8
  let wordC := wordC + wordD
  let wordB := rotateLeft (wordB ^^^ wordC) 7
  (((state.setIfInBounds a wordA).setIfInBounds b wordB).setIfInBounds c wordC).setIfInBounds d wordD

/-- The positions that one double round mixes: the four columns, then the four diagonals. -/
def positions : List (Nat × Nat × Nat × Nat) :=
  [(0, 4, 8, 12), (1, 5, 9, 13), (2, 6, 10, 14), (3, 7, 11, 15),
    (0, 5, 10, 15), (1, 6, 11, 12), (2, 7, 8, 13), (3, 4, 9, 14)]

/-- One double round. -/
def doubleRound (state : Block) : Block :=
  positions.foldl (fun state (a, b, c, d) => quarterRound state a b c d) state

/-- The four words in front of every state. -/
def constants : Vector UInt32 4 :=
  #v[0x61707865, 0x3320646e, 0x79622d32, 0x6b206574]

/-- The state for a key and a block counter. -/
def initial (key : Vector UInt32 8) (counter : UInt64) : Block :=
  constants ++ key ++ #v[counter.toUInt32, (counter >>> 32).toUInt32, 0, 0]

/-- The block of a key at a counter. -/
def block (key : Vector UInt32 8) (counter : UInt64) : Block :=
  let state := initial key counter
  Vector.zipWith (· + ·) ((List.range 10).foldl (fun mixed _ => doubleRound mixed) state) state

end RingLwe.ChaCha20
