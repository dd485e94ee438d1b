import RingLwe.Benchmark.Options
import RingLwe.Encryption
import RingLwe.Extraction
import RingLwe.Hint.Workspace
import RingLwe.Parameters.Document

/-!
# Runs of the benchmark

A run sets up a ring context with a random matrix and seeds, computes the hint
of the matrix, and tries it: random messages are encrypted and extracted, and
every row of the matrix must decode to its product with the messages.

A stage of a run logs lines and may stop with a complaint.  All random values
come from one stream in a fixed order: the entries of the matrix, the seeds, the
secret key, the messages, and the noise of block after block.
-/

set_option autoImplicit false

namespace RingLwe.Benchmark

/-! ## Stages -/

/-- Why a run stops: what went wrong, and because of what. -/
structure Complaint where
  message : String
  cause : Option String := none
deriving DecidableEq, Repr

/-- The lines of a complaint. -/
def Complaint.lines (complaint : Complaint) : List String :=
  ("Error: " ++ complaint.message) :: complaint.cause.toList

/-- A part of a run that appends lines to the log and may stop. -/
abbrev Stage (α : Type) : Type :=
  ExceptT Complaint (StateM (List String)) α

namespace Stage

/-- Appends a line to the log. -/
def say (line : String) : Stage Unit :=
  modify fun log => log ++ [line]

/-- Logs what the run does. -/
def inform (text : String) : Stage Unit :=
  say ("INFO " ++ text)

/-- Logs what the run changes on its own. -/
def warn (text : String) : Stage Unit :=
  say ("WARN " ++ text)

/-- Stops at a failure. -/
def expect {α : Type} : Except Failure α → Stage α
  | .ok value => return value
  | .error failure => throw { message := failure.message }

/-- Stops at a failure and says what failed because of it. -/
def expectFor {α : Type} (message : String) : Except Failure α → Stage α
  | .ok value => return value
  | .error failure => throw { message, cause := some failure.message }

/-- Stops at a value of the given name that no buffer holds. -/
def expectChecked {α : Type} (name : String) : Checked α → Stage α
  | .ok value => return value
  | .error _ => throw { message := s!"the {name} is too long" }

end Stage

/-! ## Set-up -/

/-- The parameters that options ask for.  The document is what was read from the file of the
options, or the reason why that failed. -/
def chosenParameters (options : Options) (document : Except String String) : Stage Parameters :=
  match options.file, document with
  | some path, .error reason =>
    throw { message := "Failed to read " ++ path, cause := some reason }
  | some path, .ok text =>
    match Parameters.ofText? text with
    | some parameters => return parameters
    | none => throw { message := "Failed to parse " ++ path }
  | none, _ => do
    let preset := Parameters.preset (← Stage.expect (Width.ofBits options.widthBits))
    return { preset with
      ringDimension := options.ringDimension.getD preset.ringDimension
      plaintextModulus := options.plaintextModulus.getD preset.plaintextModulus }

/-- The valid parameters of a run, with modulus switching. -/
def parameters (options : Options) (document : Except String String) : Stage Parameters := do
  let chosen ← chosenParameters options document
  if !chosen.switching then
    Stage.warn "Enabling modulus switching (required for the hint)"
  Stage.expectFor "Invalid parameters" { chosen with switching := true }.validate

/-- What a hint is computed of. -/
structure Setup where
  context : Context
  rows : Nat
  columns : Nat
  matrix : List UInt32
  seeds : List Seed
  /-- The stream behind the draws of the set-up. -/
  stream : Stream

/-- The number below which the entries of the matrix are drawn. -/
def entryBound (plaintextModulus : UInt64) : UInt32 :=
  if plaintextModulus.toNat < UInt32.size then plaintextModulus.toUInt32 else 0xFFFFFFFF

/-- Draws a seed. -/
def drawSeed : Draw Seed := do
  let words ← Stream.times 8 Stream.word64
  return Vector.ofFn fun position => words.getD position 0

/-- Draws the matrix and the seeds of a run. -/
def setUpWith (context : Context) (rows columns : Nat) (stream : Stream) : Setup :=
  let entry := Stream.below32 (entryBound context.plaintextModulus)
  let (matrix, stream) := (Stream.times (rows * columns) entry).run stream
  let (seeds, stream) := (Stream.times (Hint.blockCount context columns) drawSeed).run stream
  { context, rows, columns, matrix, seeds, stream }

/-- Sets up a run.  Without a seed it draws from the given stream. -/
def setUp (options : Options) (document : Except String String) (entropy : Stream) :
    Stage Setup := do
  let parameters ← parameters options document
  Stage.inform "Hybrid RLWE hint benchmark"
  Stage.inform s!"n = {parameters.ringDimension}, p = {parameters.plaintextModulus}, log_q = {parameters.width.bits}"
  let built ← Stage.expectChecked "noise table" (Context.checkedOfParameters parameters)
  let context ← Stage.expectFor "Failed to build ring context" built
  let primes := String.intercalate ", " (context.moduli.map toString)
  Stage.inform ("RNS moduli: [" ++ primes ++ "]")
  let columns := options.columns.getD (2 * context.dimension)
  if bufferLimit ≤ 4 * (options.rows * columns) then
    Stage.expect (.error (.invalidParameters (.matrixOverflow options.rows columns)))
  let stream := (options.seed.map Stream.ofSeed).getD entropy
  let setup := setUpWith context options.rows columns stream
  Stage.inform s!"Matrix: {setup.rows} x {setup.columns} ({setup.seeds.length} seeds)"
  return setup

/-! ## Hint -/

namespace Setup

variable (setup : Setup)

/-- The width of the words of the hint. -/
def width : Width :=
  setup.context.width

/-- Computes the hint. -/
def hint : Stage (Hint setup.width) := do
  let outcome ← Stage.expectChecked "hint"
    (Hint.checkedCompute setup.context setup.width setup.matrix setup.rows setup.columns
      setup.seeds)
  Stage.expect outcome

/-- Computes the hint one row after the other. -/
def sequentialHint : Stage (Hint setup.width) := do
  let outcome ← Stage.expectChecked "hint"
    (Hint.checkedComputeSequential setup.context setup.width setup.matrix setup.rows setup.columns
      setup.seeds)
  Stage.expect outcome

/-- Stops if two hints differ. -/
def compare (hint other : Hint setup.width) : Stage Unit :=
  if hint = other then return else throw { message := "Parallel and sequential hints differ" }

/-! ## Verification -/

/-- Encrypts messages block by block under the seeds, and extracts the ciphertexts as words. -/
def encryptBlocks (key : SecretKey) :
    (seeds : List Seed) → (messages : List UInt64) →
      ExceptT Failure Draw (List (LweWord setup.width))
  | [], _ => return []
  | seed :: seeds, messages => do
    let context := setup.context
    let block := messages.take context.dimension
    let draw ← liftExcept (key.preprocess (PublicPoly.derive context seed))
    let part ← (draw : Draw PartialCiphertext)
    let ciphertext ← liftExcept (key.encryptPreprocessed block part)
    let words ← liftExcept
      (Extraction.ciphertext context ciphertext.dataBytes block.length setup.width)
    return words ++ (← encryptBlocks key seeds (messages.drop context.dimension))
where
  /-- A computation that draws nothing. -/
  liftExcept {α : Type} (answer : Except Failure α) : ExceptT Failure Draw α :=
    ExceptT.mk (return answer)

/-- The product of a row of the matrix with the messages modulo the plaintext modulus. -/
def expected (messages : List UInt64) (row : List UInt32) : Nat :=
  (row.zip messages).foldl
    (fun sum (entry, message) =>
      (sum + entry.toNat * message.toNat) % setup.context.plaintextModulus.toNat) 0

/-- The number of rows that do not decode to the expected product. -/
def mismatches (messages : List UInt64) (decoded : List (LweWord setup.width)) : Nat :=
  let rows := components setup.columns setup.rows setup.matrix
  (rows.zip decoded).countP fun (row, word) => word.toNat != setup.expected messages row

/-- Decodes random messages with a hint, and counts the rows that come out wrong. -/
def trial (hint : Hint setup.width) : Except Failure Nat := do
  let context := setup.context
  let (key, stream) := (SecretKey.generate context).run setup.stream
  let (messages, stream) :=
    (Stream.times setup.columns (Stream.below context.plaintextModulus)).run stream
  let words ← ((setup.encryptBlocks key setup.seeds messages).run.run stream).1
  let secret ← Extraction.key context key setup.width
  let decoded ← Switching.round context (hint.decode setup.matrix setup.columns words secret)
  return setup.mismatches messages decoded

/-- Tries a hint and returns the number of rows that come out wrong. -/
def verify (hint : Hint setup.width) : Stage Nat := do
  Stage.inform s!"Encrypting {setup.columns} coefficients..."
  Stage.expect (setup.trial hint)

/-- Stops if a row has come out wrong. -/
def conclude (wrong : Nat) : Stage Unit :=
  if wrong = 0 then
    Stage.inform s!"All {setup.rows} rows decoded correctly"
  else
    throw { message := s!"{wrong} of {setup.rows} rows decoded incorrectly" }

end Setup

/-! ## Whole runs -/

/-- All stages in order. -/
def stages (options : Options) (document : Except String String) (entropy : Stream) :
    Stage Unit := do
  let setup ← setUp options document entropy
  let hint ← setup.hint
  if options.sequential then
    setup.compare hint (← setup.sequentialHint)
  if options.verify then
    setup.conclude (← setup.verify hint)

/-- What is left of a program that has ended. -/
structure Report where
  exitCode : Nat
  /-- The lines that a run has logged on the standard output. -/
  log : List String := []
  /-- The lines of the text that was asked for in place of a run. -/
  text : List String := []
  /-- The lines of the standard error. -/
  errors : List String := []
deriving DecidableEq, Repr

/-- The report of a run that ended with the given result and log. -/
def Report.ofRun : Except Complaint Unit × List String → Report
  | (.ok (), log) => { exitCode := 0, log }
  | (.error complaint, log) => { exitCode := 1, log, errors := complaint.lines }

/-- The report of a command line, its file having been read and randomness being given. -/
def report (request : Request) (document : Except String String) (entropy : Stream) : Report :=
  match request with
  | .run options => Report.ofRun ((stages options document entropy).run.run [])
  | .help => { exitCode := 0, text := helpLines }
  | .version => { exitCode := 0, text := [versionLine] }
  | .refuse refusal => { exitCode := 2, errors := refusal.lines }

end RingLwe.Benchmark
