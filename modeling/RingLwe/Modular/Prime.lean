import RingLwe.Modular.Residue

/-!
# Primes for the transform

A prime `q` supports a negacyclic transform of size `n` when `q ≡ 1` modulo
`2 n`.  Primality is decided by the strong probable prime test to the twelve
smallest prime bases, which is exact below `2^64`.

`largestPrimes?` lists the largest primes of a bit size with that congruence,
in decreasing order.  Its checked form asks for a buffer that holds the list.
-/

set_option autoImplicit false

namespace RingLwe

/-! ## The primality test -/

namespace Primality

/-- The bases of the test. -/
def witnesses : List UInt64 :=
  [2, 3, 5, 7, 11, 13, 17, 19, 23, 29, 31, 37]

/-- Divides a word by two while it is even, at most `steps` times, and counts the divisions. -/
def splitOdd : (steps : Nat) → (word : UInt64) → (twos : Nat) → Nat × UInt64
  | 0, word, twos => (twos, word)
  | steps + 1, word, twos =>
    if word % 2 = 0 then splitOdd steps (word / 2) (twos + 1) else (twos, word)

/-- Whether one of the next `steps` squares of a residue is `-1` modulo `n`. -/
def squaresToNegOne (n : UInt64) : (steps : Nat) → (residue : UInt64) → Bool
  | 0, _ => false
  | steps + 1, residue =>
    let square := Residue.mul residue residue n
    square == n - 1 || squaresToNegOne n steps square

/-- Whether an odd `n` is a strong probable prime to a base. -/
def passes (n base : UInt64) : Bool :=
  let (twos, odd) := splitOdd 64 (n - 1) 0
  let residue := Residue.pow base odd n
  residue == 1 || residue == n - 1 || squaresToNegOne n (twos - 1) residue

end Primality

open Primality in
/-- Whether a word is prime: one of the witnesses, or divisible by none of them and a strong
probable prime to each. -/
def isPrime (n : UInt64) : Bool :=
  if n < 2 then
    false
  else
    match witnesses.find? (fun witness => n % witness == 0) with
    | some witness => n == witness
    | none => witnesses.all (passes n)

/-! ## The search -/

/-- Whether a natural number is a power of two. -/
def isPowerOfTwo (number : Nat) : Bool :=
  number == 1 <<< number.log2

/-- The first `count` primes of the form `index · step + 1`, counting the index down from the given
one for as long as the candidate stays above `lower`. -/
def primesBelow (step lower : Nat) : (count index : Nat) → List UInt64
  | 0, _ => []
  | _, 0 => []
  | count + 1, index + 1 =>
    let candidate := (index + 1) * step + 1
    if lower < candidate then
      if isPrime candidate.toUInt64 then
        candidate.toUInt64 :: primesBelow step lower count index
      else
        primesBelow step lower (count + 1) index
    else
      []

/-- Whether primes of `bits` bits are searched for that are one more than a multiple of `2 n`: `bits`
is between 2 and 62, and `n` is a power of two below `2^(bits - 2)`. -/
def usablePrimeSize (bits n : Nat) : Bool :=
  2 ≤ bits ∧ bits ≤ 62 ∧ isPowerOfTwo n ∧ 2 * n < 1 <<< (bits - 1)

/-- The largest `count` primes of exactly `bits` bits that are one more than a multiple of `2 n`, in
decreasing order, if they are searched for and enough of them exist. -/
def largestPrimes? (bits count n : Nat) : Option (List UInt64) :=
  if usablePrimeSize bits n then
    let primes := primesBelow (2 * n) (1 <<< (bits - 1)) count ((1 <<< bits) / (2 * n) - 1)
    if primes.length = count then some primes else none
  else
    none

/-- The checked form of `largestPrimes?`: a search asks for a buffer of `count` words. -/
def checkedLargestPrimes? (bits count n : Nat) : Checked (Option (List UInt64)) :=
  if usablePrimeSize bits n then
    Checked.inBuffer (8 * count) fun _ => largestPrimes? bits count n
  else
    .ok none

end RingLwe
