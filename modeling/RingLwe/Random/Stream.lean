import RingLwe.Breach
import RingLwe.Random.ChaCha20
import RingLwe.Word.Bytes
import RingLwe.Word.Wide

/-!
# Random streams

A stream is the sequence of 32-bit words of the ChaCha20 blocks of a key.  A
draw takes words from the front of a stream and leaves the rest, so it is a
state computation; nothing is skipped between draws.

A number below `range` is drawn by rejection.  A word `v` is accepted when the
low word of `v · range` is at most the largest multiple of the range, shifted
up to the top of the word, less one; the number is the high word of the same
product.  Whatever the stream holds, the number is below the range
(`below_lt`).
-/

set_option autoImplicit false

namespace RingLwe

/-- A position in the key stream of a ChaCha20 key. -/
structure Stream where
  key : Vector UInt32 8
  /-- The counter of the next block. -/
  counter : UInt64
  /-- The words of the current block that have not been drawn. -/
  pending : List UInt32
deriving DecidableEq, Repr

/-- A computation that draws from a stream. -/
abbrev Draw (α : Type) : Type :=
  StateM Stream α

namespace Stream

/-! ## Seeds -/

/-- The stream of a key. -/
def ofKey (key : Vector UInt32 8) : Stream :=
  ⟨key, 0, []⟩

/-- The stream of a key of 32 bytes. -/
def ofKeyBytes (bytes : List UInt8) : Stream :=
  ofKey (Vector.ofFn fun position => (Bytes.value ((bytes.drop (4 * position)).take 4)).toUInt32)

/-- Advances the congruential generator that stretches a seed word to a key. -/
def advanceSeed (state : UInt64) : UInt64 :=
  state * 6364136223846793005 + 11634580027462260723

/-- The output of a state of that generator: a rotation of its mixed high bits. -/
def seedOutput (state : UInt64) : UInt32 :=
  let mixed := (((state >>> 18) ^^^ state) >>> 27).toUInt32
  let amount := (state >>> 59).toUInt32
  (mixed >>> amount) ||| (mixed <<< ((32 - amount) % 32))

/-- The stream of a seed word: its key is eight outputs of the generator. -/
def ofSeed (seed : UInt64) : Stream :=
  let state (steps : Nat) : UInt64 := steps.repeat advanceSeed seed
  ofKey (Vector.ofFn fun position => seedOutput (state (position.val + 1)))

/-! ## Words -/

/-- Draws a 32-bit word. -/
def word32 : Draw UInt32 := fun stream =>
  match stream.pending with
  | word :: pending => (word, { stream with pending })
  | [] =>
    let block := ChaCha20.block stream.key stream.counter
    (block[0], { stream with counter := stream.counter + 1, pending := block.toList.tail })

/-- Draws a 64-bit word, its low half first. -/
def word64 : Draw UInt64 := do
  let low ← word32
  let high ← word32
  return (high.toUInt64 <<< 32) ||| low.toUInt64

/-- Draws a float in `[0, 1)`, a multiple of `2^-53`. -/
def unitFloat : Draw Float := do
  let word ← word64
  return (word >>> 11).toFloat * (1.0 / 9007199254740992.0)

/-! ## Ranges -/

/-- How often a draw by rejection is tried.  A trial fails with probability below one half, so the
trials do not run out; if they did, the draw would settle for the start of its range. -/
def trials : Nat :=
  4096

/-- The largest low word with which a trial for a number below `range` is accepted. -/
def zone64 (range : UInt64) : UInt64 :=
  (range <<< (63 - range.log2)) - 1

/-- Draws a number below a positive range of words, in at most the given number of trials. -/
def below64 (range : UInt64) : (trials : Nat) → Draw UInt64
  | 0 => return 0
  | trials + 1 => do
    let product := Wide.mul (← word64) range
    if product.low ≤ zone64 range then
      return product.high
    else
      below64 range trials

/-- Draws a number below a positive range of words. -/
def below (range : UInt64) : Draw UInt64 :=
  below64 range trials

/-- The largest low half with which a trial for a 32-bit number below `range` is accepted. -/
def zone32 (range : UInt32) : UInt32 :=
  (range <<< (31 - range.log2)) - 1

/-- Draws a 32-bit number below a positive range, in at most the given number of trials. -/
def below32From (range : UInt32) : (trials : Nat) → Draw UInt32
  | 0 => return 0
  | trials + 1 => do
    let product := (← word32).toUInt64 * range.toUInt64
    if product.toUInt32 ≤ zone32 range then
      return (product >>> 32).toUInt32
    else
      below32From range trials

/-- Draws a 32-bit number below a positive range. -/
def below32 (range : UInt32) : Draw UInt32 :=
  below32From range trials

/-- Draws an integer between `-bound` and `bound`. -/
def within (bound : Nat) : Draw Int := do
  let offset ← below (2 * bound + 1).toUInt64
  return (offset.toNat : Int) - bound

/-- Draws the given number of values, in front of those found already in reverse. -/
def repeatOnto {α : Type} (draw : Draw α) : (count : Nat) → (found : List α) → Draw (List α)
  | 0, found => return found.reverse
  | count + 1, found => do
    let value ← draw
    repeatOnto draw count (value :: found)

/-- Draws the given number of values in order. -/
def times {α : Type} (count : Nat) (draw : Draw α) : Draw (List α) :=
  repeatOnto draw count []

/-! ## Checked forms -/

/-- The checked form of `below`. -/
def checkedBelow (range : UInt64) : Checked (Draw UInt64) :=
  Checked.unless (range == 0) .emptyRange (below range)

/-- The checked form of `below32`. -/
def checkedBelow32 (range : UInt32) : Checked (Draw UInt32) :=
  Checked.unless (range == 0) .emptyRange (below32 range)

/-- The checked form of `within`, for a bound that may be negative. -/
def checkedWithin (bound : Int) : Checked (Draw Int) :=
  Checked.unless (bound < 0) .emptyRange (within bound.toNat)

end Stream

end RingLwe
