import RingLwe.Failure

/-!
# Reading written objects

A reader takes a value from the front of a list of bytes and leaves the rest,
or says why it cannot.  Bytes that end too early are a fault of their own for
the header, for a field, and for the words.

Fields are natural numbers; the words of an object are read after a check that
all of them are there.
-/

set_option autoImplicit false

namespace RingLwe.Wire

/-- Reads the given number of bytes. -/
def readBytes (count : Nat) (bytes : List UInt8) : Except DecodeFault (List UInt8 × List UInt8) :=
  let front := bytes.take count
  if front.length < count then .error .truncated else .ok (front, bytes.drop count)

/-- Reads a little-endian number of the given number of bytes. -/
def readNumber (count : Nat) (bytes : List UInt8) : Except DecodeFault (Nat × List UInt8) := do
  let (front, rest) ← readBytes count bytes
  return (Bytes.value front, rest)

/-- Reads a single byte. -/
def readByte : List UInt8 → Except DecodeFault (UInt8 × List UInt8)
  | byte :: rest => .ok (byte, rest)
  | [] => .error .truncated

/-- Checks the kind in a header. -/
def checkKind (expected : Kind) (byte : UInt8) : Except DecodeFault Unit :=
  match Kind.ofByte? byte with
  | some kind => if kind = expected then .ok () else .error (.wrongKind expected kind)
  | none => .error (.unknownKind byte)

/-- Reads the header of an object of the expected kind. -/
def readHeader (expected : Kind) (bytes : List UInt8) : Except DecodeFault (List UInt8) := do
  let letters := bytes.take magic.length
  if letters.length < magic.length then
    .error (.shorterThanHeader bytes.length)
  else if letters ≠ magic then
    .error (.badMagic letters)
  else
    let (found, rest) ← readByte (bytes.drop magic.length)
    if found ≠ version then
      .error (.unsupportedVersion found)
    else
      let (kind, rest) ← readByte rest
      checkKind expected kind
      let (compression, rest) ← readByte rest
      if compression ≠ 0 then
        .error (.unsupportedCompression compression)
      else
        let (_, rest) ← readByte rest
        return rest

/-- The first words of a list of bytes, in reverse in front of those found already, and the bytes
that follow them. -/
def wordsOnto : (count : Nat) → List UInt8 → (found : List UInt64) → List UInt64 × List UInt8
  | 0, bytes, found => (found, bytes)
  | count + 1, bytes, found =>
    wordsOnto count (bytes.drop 8) ((Bytes.value (bytes.take 8)).toUInt64 :: found)

/-- Reads the given number of words. -/
def readWords (count : Nat) (bytes : List UInt8) : Except DecodeFault (List UInt64 × List UInt8) :=
  if bytes.length < 8 * count then
    .error (.fewerWordBytes (8 * count) bytes.length)
  else
    let (reversed, rest) := wordsOnto count bytes []
    .ok (reversed.reverse, rest)

/-- Checks that nothing follows. -/
def finish (bytes : List UInt8) : Except DecodeFault Unit :=
  if bytes.isEmpty then .ok () else .error (.trailingBytes bytes.length)

/-- Checks that the runs of a list of words, one for each prime, are reduced modulo their primes.
The primes are numbered from `prime` on. -/
def checkReduced (length : Nat) : (prime : Nat) → (moduli words : List UInt64) →
    Except DecodeFault Unit
  | _, [], _ => .ok ()
  | prime, q :: moduli, words =>
    match (words.take length).findIdx? (q ≤ ·) with
    | some position => .error (.residueNotReduced position prime)
    | none => checkReduced length (prime + 1) moduli (words.drop length)

/-- Fails with the fault unless the condition holds. -/
def ensure (condition : Bool) (fault : DecodeFault) : Except DecodeFault Unit :=
  if condition then .ok () else .error fault

end RingLwe.Wire
