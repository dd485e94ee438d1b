import RingLwe.Hint.Workspace

/-!
# Hints on a schedule

The rows of a hint can be spread over batches that are worked on at the same
time.  Every batch has a workspace of its own, which is fresh before the first
row of the batch and which each row leaves to the next one.  The output is cut
into the places of the rows, and a row writes its own place only.

Batches share nothing but the output.  So what they do together is told by a
schedule, the list of the rows in the order in which they are computed, each
with its batch: the batches may take turns in any way, and each of them may take
its rows in any order.
-/

set_option autoImplicit false

namespace RingLwe.Hint

/-- A row to be computed, and the batch to which it belongs. -/
structure Task where
  batch : Nat
  row : Nat
deriving DecidableEq, Repr

/-- What is there while the rows of a schedule are computed. -/
structure Progress (width : Width) where
  /-- The workspace of each batch. -/
  workspaces : Nat → Workspace
  /-- The places of the rows in the output. -/
  places : List (List (LweWord width))

namespace Progress

variable {width : Width}

/-- What is there before the first row: fresh workspaces, and zeros in the places of the rows. -/
def start (context : Context) (rows : Nat) : Progress width :=
  ⟨fun _ => Workspace.fresh context,
    List.replicate rows (List.replicate context.dimension (LweWord.ofNat width 0))⟩

/-- Computes a row in the workspace of its batch, and writes its place. -/
def perform (context : Context) (tables : SwitchTables) (publics : List PublicPoly)
    (matrix : List UInt32) (columns : Nat) (progress : Progress width) (task : Task) :
    Progress width :=
  let row := (matrix.drop (task.row * columns)).take columns
  let (words, left) :=
    (progress.workspaces task.batch).computeRow context tables publics row
  { workspaces := fun batch => if batch = task.batch then left else progress.workspaces batch
    places := progress.places.set task.row words }

end Progress

/-- The hint of a matrix, its rows computed on a schedule. -/
def computeScheduled (context : Context) (width : Width) (matrix : List UInt32)
    (rows columns : Nat) (seeds : List Seed) (schedule : List Task) :
    Except Failure (Hint width) := do
  let tables ← prepare context width matrix rows columns seeds
  let publics := transposedPublics context seeds
  let finished := schedule.foldl (Progress.perform context tables publics matrix columns)
    (Progress.start context rows)
  return ⟨rows, context.dimension, finished.places.flatten⟩

end RingLwe.Hint
