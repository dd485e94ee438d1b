import RingLwe.Hint

/-!
# Hints in a reused workspace

The rows of a hint can be computed one after the other in two buffers that are
allocated once: one for the residues of a block, one for the sums of products.
Every row finds in them what the row before left behind, writes its own values
over it, and leaves its own.

A block is written over the front of each component, and zeros over the rest,
so nothing of the old residues is read; the sums are cleared before the first
block.
-/

set_option autoImplicit false

namespace RingLwe.Hint

/-- The buffers that rows share. -/
structure Workspace where
  /-- The residues of a block, then their transform. -/
  residues : List UInt64
  /-- The sums of products, then the row of the product. -/
  sums : List UInt64
deriving DecidableEq, Repr

/-- Writes values over a buffer from an offset on. -/
def overwrite (offset : Nat) (values buffer : List UInt64) : List UInt64 :=
  buffer.take offset ++ values ++ buffer.drop (offset + values.length)

/-- Writes the residues of a block over a buffer, for the given primes from the component of the
given number on, each followed by zeros. -/
def overwriteBlock (dimension : Nat) (block : List UInt32) :
    (component : Nat) → (moduli : List UInt64) → (buffer : List UInt64) → List UInt64
  | _, [], buffer => buffer
  | component, q :: moduli, buffer =>
    let start := component * dimension
    let written := overwrite start (block.map (·.toUInt64 % q)) buffer
    let cleared := overwrite (start + block.length)
      (List.replicate (dimension - block.length) 0) written
    overwriteBlock dimension block (component + 1) moduli cleared

namespace Workspace

/-- The workspace of a context before its first row. -/
def fresh (context : Context) : Workspace :=
  let zeros := List.replicate context.transform.bufferLength 0
  ⟨zeros, zeros⟩

/-- Adds the product of a block with a public polynomial to the sums. -/
def addBlock (context : Context) (workspace : Workspace) (a : PublicPoly) (block : List UInt32) :
    Workspace :=
  let transform := context.transform
  let residues := transform.forward
    (overwriteBlock context.dimension block 0 context.moduli workspace.residues)
  ⟨residues, transform.accumulate workspace.sums residues a.poly.residues⟩

/-- Adds the products of the blocks of a row with public polynomials to the sums. -/
def addBlocks (context : Context) (workspace : Workspace) :
    (publics : List PublicPoly) → (row : List UInt32) → Workspace
  | [], _ => workspace
  | a :: publics, row =>
    addBlocks context (workspace.addBlock context a (row.take context.dimension)) publics
      (row.drop context.dimension)

/-- The words of the hint for a row, and what the row leaves in the workspace. -/
def computeRow {width : Width} (context : Context) (tables : SwitchTables)
    (publics : List PublicPoly) (workspace : Workspace) (row : List UInt32) :
    List (LweWord width) × Workspace :=
  let transform := context.transform
  let cleared := { workspace with sums := List.replicate workspace.sums.length 0 }
  let added := cleared.addBlocks context publics row
  let product := transform.inverse (transform.reduce added.sums)
  (Switching.switchRuns tables width context.dimension
      (components context.dimension context.primeCount product),
    { added with sums := product })

/-- The words of the hint for rows, one row after the other in one workspace, behind the words of
earlier rows in reverse. -/
def computeRowsOnto {width : Width} (context : Context) (tables : SwitchTables)
    (publics : List PublicPoly) :
    (workspace : Workspace) → (rows : List (List UInt32)) → (done : List (LweWord width)) →
      List (LweWord width)
  | _, [], done => done.reverse
  | workspace, row :: rows, done =>
    let (words, left) := workspace.computeRow context tables publics row
    computeRowsOnto context tables publics left rows (words.reverse ++ done)

end Workspace

/-- The hint of a matrix, computed one row after the other in one workspace. -/
def computeSequential (context : Context) (width : Width) (matrix : List UInt32)
    (rows columns : Nat) (seeds : List Seed) : Except Failure (Hint width) := do
  let tables ← prepare context width matrix rows columns seeds
  let publics := transposedPublics context seeds
  let words := (Workspace.fresh context).computeRowsOnto context tables publics
    (components columns rows matrix) []
  return ⟨rows, context.dimension, words⟩

/-- The checked form of `computeSequential`. -/
def checkedComputeSequential (context : Context) (width : Width) (matrix : List UInt32)
    (rows columns : Nat) (seeds : List Seed) : Checked (Except Failure (Hint width)) :=
  checked context matrix rows columns seeds fun _ =>
    computeSequential context width matrix rows columns seeds

end RingLwe.Hint
