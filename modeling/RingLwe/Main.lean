import RingLwe.Benchmark.Run

/-!
# The benchmark program

The program reads the file that the command line names, takes randomness from
the system, runs the stages of `RingLwe.Benchmark.stages` one after the other,
and logs how long they take.
-/

set_option autoImplicit false

namespace RingLwe.Benchmark

/-- Prints lines. -/
def printLines (lines : List String) : IO Unit :=
  lines.forM fun line => IO.println line

/-- The text of a file, or why it cannot be read. -/
def readDocument (path : String) : IO (Except String String) := do
  try
    let bytes ← IO.FS.readBinFile path
    match String.fromUTF8? bytes with
    | some text => return .ok text
    | none => return .error "stream did not contain valid UTF-8"
  catch
    | .noFileOrDirectory _ _ _ => return .error "No such file or directory (os error 2)"
    | .permissionDenied _ _ _ => return .error "Permission denied (os error 13)"
    | .inappropriateType _ code details => return .error s!"{details} (os error {code})"
    | failure => return .error (toString failure)

/-- A stream of a key from the system. -/
def systemStream : IO Stream :=
  return Stream.ofKeyBytes (← IO.getRandomBytes 32).toList

/-- Runs a stage, prints what it logs, and passes its result on with the time that it took. -/
def perform {α : Type} (stage : Unit → Stage α) : ExceptT Complaint IO (α × Nat) := do
  let start ← IO.monoMsNow
  let (result, log) := (stage ()).run.run []
  printLines log
  match result with
  | .ok value => return (value, (← IO.monoMsNow) - start)
  | .error complaint => throw complaint

/-- Runs all stages. -/
def performAll (options : Options) (document : Except String String) (entropy : Stream) :
    ExceptT Complaint IO Unit := do
  let (setup, _) ← perform fun _ => setUp options document entropy
  let (hint, time) ← perform fun _ => setup.hint
  IO.println s!"INFO compute_hint: {time}ms ({time / max 1 setup.rows}ms per row)"
  if options.sequential then
    let (other, time) ← perform fun _ => setup.sequentialHint
    IO.println s!"INFO compute_hint_sequential: {time}ms"
    let _ ← perform fun _ => setup.compare hint other
  if options.verify then
    let (wrong, time) ← perform fun _ => setup.verify hint
    IO.println s!"INFO Verification time: {time}ms"
    let _ ← perform fun _ => setup.conclude wrong

/-- Runs the benchmark and returns the exit code. -/
def runProgram (options : Options) : IO UInt32 := do
  let document ← readDocument (options.file.getD "")
  match ← (performAll options document (← systemStream)).run with
  | .ok () => return 0
  | .error complaint =>
    IO.eprintln (String.intercalate "\n\nCaused by:\n    " complaint.lines)
    return 1

end RingLwe.Benchmark

open RingLwe.Benchmark in
/-- Runs the benchmark that the arguments ask for. -/
def main (arguments : List String) : IO UInt32 :=
  match Request.ofArguments arguments with
  | .run options => runProgram options
  | .help => do
    printLines helpLines
    return 0
  | .version => do
    printLines [versionLine]
    return 0
  | .refuse refusal => do
    refusal.lines.forM fun line => IO.eprintln line
    return 2
