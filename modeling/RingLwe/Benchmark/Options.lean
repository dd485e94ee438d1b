/-!
# The command line of the benchmark

A setting with a value is written `--name value` or `--name=value`, a switch is
written `--name`.  Every setting is given at most once, and there are no other
arguments.  A value that starts with a hyphen must be joined by `=`.

`Request.ofArguments` reads the arguments from left to right; the first one that
decides, be it a fault or a question for help, settles the request.
-/

set_option autoImplicit false

namespace RingLwe.Benchmark

/-! ## Settings -/

/-- What can be set on the command line. -/
inductive Setting where
  | params
  | logQ
  | ringDim
  | p
  | rows
  | cols
  | sequential
  | noVerify
  | seed
deriving DecidableEq, Repr

namespace Setting

/-- The settings in the order of the help. -/
def all : List Setting :=
  [params, logQ, ringDim, p, rows, cols, sequential, noVerify, seed]

/-- The name of a setting. -/
def name : Setting → String
  | params => "params"
  | logQ => "log-q"
  | ringDim => "ring-dim"
  | p => "p"
  | rows => "rows"
  | cols => "cols"
  | sequential => "sequential"
  | noVerify => "no-verify"
  | seed => "seed"

/-- What stands for the value of a setting in texts, nothing for a switch. -/
def placeholder? : Setting → Option String
  | params => some "<PARAMS>"
  | logQ => some "<LOG_Q>"
  | ringDim => some "<RING_DIM>"
  | p => some "<P>"
  | rows => some "<ROWS>"
  | cols => some "<COLS>"
  | sequential => none
  | noVerify => none
  | seed => some "<SEED>"

/-- What a setting is for. -/
def purpose : Setting → String
  | params => "JSON file with ring parameters (overrides --log-q / --ring-dim / --p)"
  | logQ => "Hybrid modulus width (32 or 64) [default: 32]"
  | ringDim => "Ring dimension (defaults to 2048 for 32-bit, 4096 for 64-bit)"
  | p => "Plaintext modulus (defaults to 2^7 for 32-bit, 2^15 for 64-bit)"
  | rows => "Matrix rows [default: 256]"
  | cols => "Matrix columns (defaults to 2n)"
  | sequential => "Also run the sequential hint for comparison"
  | noVerify => "Skip the encrypt/extract/decode correctness check"
  | seed => "Random seed for deterministic runs (optional)"

/-- The setting of a name. -/
def ofName? (text : String) : Option Setting :=
  all.find? fun setting => setting.name == text

theorem ofName?_name (setting : Setting) : ofName? setting.name = some setting := by
  cases setting <;> decide

/-- A setting as it is written, with what stands for its value. -/
def usage (setting : Setting) : String :=
  match setting.placeholder? with
  | some placeholder => "--" ++ setting.name ++ " " ++ placeholder
  | none => "--" ++ setting.name

end Setting

/-! ## Numbers -/

/-- The number with the given decimal digits, of which there must be one. -/
def ofDigits? (digits : List Char) : Option Nat :=
  if !digits.isEmpty && digits.all Char.isDigit then
    some (digits.foldl (fun number digit => 10 * number + (digit.toNat - '0'.toNat)) 0)
  else
    none

/-- The number of a text, which may have a plus sign. -/
def natural? (text : String) : Option Nat :=
  match text.toList with
  | '+' :: digits => ofDigits? digits
  | digits => ofDigits? digits

/-- The number of a text, which may have either sign as long as it is not negative. -/
def signedNatural? (text : String) : Option Nat :=
  match text.toList with
  | '-' :: digits => (ofDigits? digits).filter (· == 0)
  | _ => natural? text

/-- The number, if it is below a bound. -/
def below? (bound : Nat) (number : Option Nat) : Option Nat :=
  number.filter (· < bound)

/-- The word of a text. -/
def word? (text : String) : Option UInt64 :=
  (below? UInt64.size (natural? text)).map Nat.toUInt64

/-! ## Options -/

/-- The values of all settings. -/
structure Options where
  /-- The path of a file with parameters. -/
  file : Option String := none
  /-- The number of bits of the hybrid modulus. -/
  widthBits : Nat := 32
  ringDimension : Option Nat := none
  plaintextModulus : Option UInt64 := none
  rows : Nat := 256
  columns : Option Nat := none
  /-- Whether the hint is also computed one row after the other. -/
  sequential : Bool := false
  /-- Whether the hint is tried on ciphertexts. -/
  verify : Bool := true
  seed : Option UInt64 := none
deriving DecidableEq, Repr

/-- The options with a setting of the given value, if the value is valid.  A switch has no value
and ignores the text. -/
def Options.assign? (options : Options) (setting : Setting) (text : String) : Option Options :=
  match setting with
  | .params => if text.isEmpty then none else some { options with file := some text }
  | .logQ => do
    return { options with widthBits := ← below? UInt32.size (signedNatural? text) }
  | .ringDim => do
    return { options with ringDimension := some (← below? UInt64.size (natural? text)) }
  | .p => do return { options with plaintextModulus := some (← word? text) }
  | .rows => do return { options with rows := ← below? UInt64.size (natural? text) }
  | .cols => do return { options with columns := some (← below? UInt64.size (natural? text)) }
  | .sequential => some { options with sequential := true }
  | .noVerify => some { options with verify := false }
  | .seed => do return { options with seed := some (← word? text) }

/-! ## Arguments -/

/-- The form of an argument. -/
inductive Argument where
  /-- Two hyphens, behind which there are no settings. -/
  | separator
  /-- A name behind two hyphens, with the text behind the first equals sign. -/
  | named (name : String) (value : Option String)
  /-- Letters behind one hyphen, of which the first decides. -/
  | letters (first : Char)
  /-- Anything else. -/
  | plain
deriving DecidableEq, Repr

/-- Tells the form of an argument. -/
def Argument.ofText (text : String) : Argument :=
  match text.toList with
  | ['-', '-'] => .separator
  | '-' :: '-' :: characters =>
    let value := match characters.dropWhile (· != '=') with
      | [] => none
      | _ :: value => some (String.ofList value)
    .named (String.ofList (characters.takeWhile (· != '='))) value
  | '-' :: first :: _ => .letters first
  | _ => .plain

/-- Why a command line is refused. -/
inductive Refusal where
  | unexpected (argument : String)
  | missingValue (setting : Setting)
  | invalidValue (setting : Setting) (text : String)
  /-- A value was joined to a switch. -/
  | superfluousValue (name text : String)
  | repeated (setting : Setting)
deriving DecidableEq, Repr

/-- The text of a refusal. -/
def Refusal.message : Refusal → String
  | unexpected argument => s!"unexpected argument '{argument}' found"
  | missingValue setting => s!"a value is required for '{setting.usage}' but none was supplied"
  | invalidValue setting text => s!"invalid value '{text}' for '{setting.usage}'"
  | superfluousValue name text =>
    s!"unexpected value '{text}' for '--{name}' found; no more were expected"
  | repeated setting => s!"the argument '{setting.usage}' cannot be used multiple times"

/-- What a command line asks for. -/
inductive Request where
  | run (options : Options)
  | help
  | version
  | refuse (refusal : Refusal)
deriving DecidableEq, Repr

/-- What is known of a command line after some of its arguments. -/
structure Reading where
  options : Options := {}
  /-- The settings that have been given. -/
  given : List Setting := []
  /-- The setting whose value is the next argument. -/
  pending : Option Setting := none
  /-- Whether the separator has been read. -/
  separated : Bool := false

namespace Reading

/-- Gives a setting its value. -/
def give (reading : Reading) (setting : Setting) (text : String) : Except Request Reading :=
  match reading.options.assign? setting text with
  | none => .error (.refuse (.invalidValue setting text))
  | some options =>
    if setting ∈ reading.given then
      .error (.refuse (.repeated setting))
    else
      .ok { reading with options, given := setting :: reading.given, pending := none }

/-- Reads the name of a setting with the text joined to it. -/
def takeNamed (reading : Reading) (argument name : String) (value : Option String) :
    Except Request Reading :=
  match Setting.ofName? name, value with
  | some setting, some text =>
    if setting.placeholder?.isSome then
      reading.give setting text
    else
      .error (.refuse (.superfluousValue name text))
  | some setting, none =>
    if setting.placeholder?.isSome then
      .ok { reading with pending := some setting }
    else
      reading.give setting ""
  | none, some text =>
    if name == "help" || name == "version" then
      .error (.refuse (.superfluousValue name text))
    else
      .error (.refuse (.unexpected argument))
  | none, none =>
    if name == "help" then
      .error .help
    else if name == "version" then
      .error .version
    else
      .error (.refuse (.unexpected argument))

/-- Reads one argument, or finds that it settles the request. -/
def take (reading : Reading) (argument : String) : Except Request Reading :=
  if reading.separated then
    .error (.refuse (.unexpected argument))
  else match reading.pending, Argument.ofText argument with
    | some setting, .plain => reading.give setting argument
    | some setting, _ => .error (.refuse (.missingValue setting))
    | none, .separator => .ok { reading with separated := true }
    | none, .named name value => reading.takeNamed argument name value
    | none, .letters 'h' => .error .help
    | none, .letters 'V' => .error .version
    | none, _ => .error (.refuse (.unexpected argument))

/-- The request after the last argument. -/
def finish (reading : Reading) : Request :=
  match reading.pending with
  | some setting => .refuse (.missingValue setting)
  | none => .run reading.options

end Reading

/-- The request of a command line. -/
def Request.ofArguments (arguments : List String) : Request :=
  match arguments.foldlM Reading.take {} with
  | .ok reading => reading.finish
  | .error request => request

/-! ## Texts -/

/-- The name and the version of the program. -/
def versionLine : String :=
  "hint-bench 0.1.0"

/-- The line that shows the form of a command line. -/
def usageLine : String :=
  "Usage: hint-bench [OPTIONS]"

/-- A line of the help, its parts in columns. -/
def helpLine (form purpose : String) : String :=
  "  " ++ form ++ String.ofList (List.replicate (27 - form.length) ' ') ++ purpose

/-- The lines of the help. -/
def helpLines : List String :=
  ["Benchmark the hybrid RLWE hint and verify decoding", "", usageLine, "", "Options:"] ++
    Setting.all.map (fun setting => helpLine ("    " ++ setting.usage) setting.purpose) ++
    [helpLine "-h, --help" "Print help", helpLine "-V, --version" "Print version"]

/-- The lines that tell of a refusal. -/
def Refusal.lines (refusal : Refusal) : List String :=
  ["error: " ++ refusal.message, "", usageLine, "", "For more information, try '--help'."]

end RingLwe.Benchmark
