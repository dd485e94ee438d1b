import RingLwe.PublicPoly
import RingLwe.Switching

/-!
# Hints

Let `D` be a matrix of small numbers whose columns are cut into blocks of at
most `n`, with one seed for each block.  The ciphertexts of the blocks have the
matrices `M (a_s)` of multiplication by their public polynomials; the hint is
`H = D · A` switched to the hybrid modulus, where `A` stacks the `M (a_s)`.

A row vector times `M (a)` is the product with the transpose of `a`.  So row `r`
of the hint is the sum over the blocks of the products of the transposed
public polynomials with the blocks of row `r`, padded with zeros.  The products
are added up in the transformed domain without reduction; the number of seeds
is limited so that the sums fit a word.
-/

set_option autoImplicit false

namespace RingLwe

/-- A matrix of words with as many columns as the ring has coefficients, row by row. -/
structure Hint (width : Width) where
  rows : Nat
  columns : Nat
  words : List (LweWord width)
deriving DecidableEq

namespace Hint

variable {width : Width}

/-- The words of a row. -/
def row (hint : Hint width) (index : Nat) : List (LweWord width) :=
  (hint.words.drop (index * hint.columns)).take hint.columns

/-- The words of all rows. -/
def rowList (hint : Hint width) : List (List (LweWord width)) :=
  RingLwe.components hint.columns hint.rows hint.words

/-! ## Dimensions -/

/-- The number of blocks of a number of columns. -/
def blockCount (context : Context) (columns : Nat) : Nat :=
  (columns + context.dimension - 1) / context.dimension

/-- The number of products that can be added up without reduction. -/
def headroom (context : Context) : Nat :=
  (UInt64.size - 1) / context.basis.maxModulus.toNat

/-- Whether the words of the given number of rows fit a buffer. -/
def fits (context : Context) (width : Width) (rows : Nat) : Bool :=
  rows * context.dimension * (width.bits / 8) < bufferLimit

/-- Checks that a matrix and seeds go together. -/
def checkDimensions (context : Context) (matrix : List UInt32) (rows columns : Nat)
    (seeds : List Seed) : Except Failure Unit :=
  let cells := rows * columns
  let blocks := blockCount context columns
  if UInt64.size ≤ cells then
    .error (.invalidParameters (.matrixOverflow rows columns))
  else if matrix.length ≠ cells then
    .error (.dimensionMismatch cells matrix.length)
  else if seeds.length ≠ blocks then
    .error (.dimensionMismatch blocks seeds.length)
  else if headroom context < seeds.length then
    .error (.invalidParameters (.accumulatorHeadroom seeds.length (headroom context)))
  else
    .ok ()

/-- The switching tables for a hint, if the context has them and the matrix and the seeds go
together. -/
def prepare (context : Context) (width : Width) (matrix : List UInt32) (rows columns : Nat)
    (seeds : List Seed) : Except Failure SwitchTables := do
  let tables ← context.switchTables width
  checkDimensions context matrix rows columns seeds
  return tables

/-! ## Rows -/

/-- The transposed public polynomials of seeds. -/
def transposedPublics (context : Context) (seeds : List Seed) : List PublicPoly :=
  seeds.map fun seed => (PublicPoly.derive context seed).transpose

/-- A block of a row as residues for every prime, padded with zeros. -/
def blockResidues (context : Context) (block : List UInt32) : List UInt64 :=
  context.moduli.flatMap fun q =>
    block.map (·.toUInt64 % q) ++ List.replicate (context.dimension - block.length) 0

/-- The sum of the products of the blocks of a row with public polynomials, in the transformed
domain and without reduction. -/
def accumulateRow (context : Context) (publics : List PublicPoly) (row : List UInt32) :
    List UInt64 :=
  let transform := context.transform
  let blocks := components context.dimension publics.length row
  (publics.zip blocks).foldl
    (fun sums (a, block) =>
      transform.accumulate sums (transform.forward (blockResidues context block)) a.poly.residues)
    (List.replicate transform.bufferLength 0)

/-- The words of the hint for a row. -/
def computeRow (context : Context) (tables : SwitchTables) (publics : List PublicPoly)
    (row : List UInt32) : List (LweWord width) :=
  let transform := context.transform
  let product := transform.inverse (transform.reduce (accumulateRow context publics row))
  Switching.switchRuns tables width context.dimension
    (components context.dimension context.primeCount product)

/-! ## Matrices -/

/-- The hint of a matrix given row by row, the rows in any order independent of each other. -/
def compute (context : Context) (width : Width) (matrix : List UInt32) (rows columns : Nat)
    (seeds : List Seed) : Except Failure (Hint width) := do
  let tables ← prepare context width matrix rows columns seeds
  let publics := transposedPublics context seeds
  let words := (components columns rows matrix).flatMap (computeRow context tables publics)
  return ⟨rows, context.dimension, words⟩

/-! ## Checked forms

The checks of the data bound the cells of the matrix and not the words of the hint: a matrix
without columns may have any number of rows.  The checked forms refuse a hint that no buffer
holds, once the data have passed. -/

/-- An answer about the hint of the given data, unless its words fit no buffer. -/
def checked (context : Context) (matrix : List UInt32) (rows columns : Nat) (seeds : List Seed)
    (answer : Unit → Except Failure (Hint width)) : Checked (Except Failure (Hint width)) :=
  match prepare context width matrix rows columns seeds with
  | .error failure => .ok (.error failure)
  | .ok _ => if fits context width rows then .ok (answer ()) else .error .tooLong

/-- The checked form of `compute`. -/
def checkedCompute (context : Context) (width : Width) (matrix : List UInt32) (rows columns : Nat)
    (seeds : List Seed) : Checked (Except Failure (Hint width)) :=
  checked context matrix rows columns seeds fun _ =>
    compute context width matrix rows columns seeds

/-! ## Decoding -/

/-- For each row of a matrix, its product with ciphertext words less the product of the row of the
hint with the secret words. -/
def decode (hint : Hint width) (matrix : List UInt32) (columns : Nat)
    (ciphertext secret : List (LweWord width)) : List (LweWord width) :=
  List.zipWith
    (fun matrixRow hintRow =>
      LweWord.dot (matrixRow.map fun entry => LweWord.ofNat width entry.toNat) ciphertext -
        LweWord.dot hintRow secret)
    (components columns hint.rows matrix) hint.rowList

/-- The checked form of `decode`, for a matrix and a hint with all of their rows. -/
def checkedDecode (hint : Hint width) (matrix : List UInt32) (columns : Nat)
    (ciphertext secret : List (LweWord width)) : Checked (List (LweWord width)) :=
  if matrix.length < hint.rows * columns || hint.words.length < hint.rows * hint.columns then
    .error .outOfRange
  else
    .ok (hint.decode matrix columns ciphertext secret)

end Hint

end RingLwe
