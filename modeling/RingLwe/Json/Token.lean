import RingLwe.Json.Number

/-!
# Tokens of a JSON text

A text is cut into punctuation, literals, numbers and strings.  Blanks are the
space, the tab and the two line ends.  A string may hold escaped surrogates
that do not pair up; it is then a token without a text.
-/

set_option autoImplicit false

namespace RingLwe.Json

/-- A token. -/
inductive Token where
  | openBrace
  | closeBrace
  | openBracket
  | closeBracket
  | colon
  | comma
  | null
  | boolean (value : Bool)
  | number (value : Number)
  /-- A string; without a text if it has a surrogate that does not pair up. -/
  | string (text : Option String)
deriving DecidableEq, Repr

namespace Token

/-! ## Strings -/

/-- The value of a hexadecimal digit. -/
def hexDigit? (digit : Char) : Option Nat :=
  if '0' ≤ digit ∧ digit ≤ '9' then some (digit.toNat - '0'.toNat)
  else if 'a' ≤ digit ∧ digit ≤ 'f' then some (digit.toNat - 'a'.toNat + 10)
  else if 'A' ≤ digit ∧ digit ≤ 'F' then some (digit.toNat - 'A'.toNat + 10)
  else none

/-- The unit written by four hexadecimal digits. -/
def hexUnit? (first second third fourth : Char) : Option Nat := do
  return (((← hexDigit? first) * 16 + (← hexDigit? second)) * 16 + (← hexDigit? third)) * 16 +
    (← hexDigit? fourth)

/-- The character that a backslash and a letter stand for. -/
def shortEscape? : Char → Option Char
  | '"' => some '"'
  | '\\' => some '\\'
  | '/' => some '/'
  | 'b' => some '\x08'
  | 'f' => some '\x0c'
  | 'n' => some '\n'
  | 'r' => some '\r'
  | 't' => some '\t'
  | _ => none

/-- The part of a string that has been read: its characters in reverse, an escaped leading
surrogate that waits for its partner, and whether all surrogates so far paired up. -/
structure Partial where
  reversed : List Char
  leading : Option Nat
  sound : Bool
deriving DecidableEq, Repr

namespace Partial

/-- Nothing has been read. -/
def empty : Partial :=
  ⟨[], none, true⟩

/-- Reads a character.  A waiting surrogate has then lost its partner. -/
def push (state : Partial) (character : Char) : Partial :=
  ⟨character :: state.reversed, none, state.sound && state.leading.isNone⟩

/-- Reads an escaped unit: a leading surrogate, a trailing one, or a character. -/
def pushUnit (state : Partial) (unit : Nat) : Partial :=
  if 0xD800 ≤ unit ∧ unit < 0xDC00 then
    ⟨state.reversed, some unit, state.sound && state.leading.isNone⟩
  else if 0xDC00 ≤ unit ∧ unit < 0xE000 then
    match state.leading with
    | some leading =>
      let code := 0x10000 + (leading - 0xD800) * 0x400 + (unit - 0xDC00)
      ⟨Char.ofNat code :: state.reversed, none, state.sound⟩
    | none => ⟨state.reversed, none, false⟩
  else
    state.push (Char.ofNat unit)

/-- The text of a string that has been read to its end. -/
def text? (state : Partial) : Option String :=
  if state.sound && state.leading.isNone then some (String.ofList state.reversed.reverse) else none

end Partial

/-- Reads a string from behind its opening quote. -/
def readString (state : Partial) : List Char → Option (Option String × List Char)
  | '"' :: rest => some (state.text?, rest)
  | '\\' :: 'u' :: first :: second :: third :: fourth :: rest =>
    match hexUnit? first second third fourth with
    | some unit => readString (state.pushUnit unit) rest
    | none => none
  | '\\' :: letter :: rest =>
    match shortEscape? letter with
    | some character => readString (state.push character) rest
    | none => none
  | character :: rest =>
    if character.toNat < 0x20 ∨ character = '\\' then none
    else readString (state.push character) rest
  | [] => none

/-! ## Numbers -/

/-- The value of a decimal digit. -/
def digitValue (digit : Char) : Nat :=
  digit.toNat - '0'.toNat

/-- The digits at the front of a text, and the rest; there must be one. -/
def readDigits (text : List Char) : Option (List Nat × List Char) :=
  let digits := text.takeWhile Char.isDigit
  if digits.isEmpty then none else some (digits.map digitValue, text.dropWhile Char.isDigit)

/-- The digits before the point: a single zero, or digits that do not start with zero. -/
def readWhole : List Char → Option (List Nat × List Char)
  | '0' :: rest => some ([0], rest)
  | text => readDigits text

/-- The digits after a point, if there is one. -/
def readFraction : List Char → Option (Option (List Nat) × List Char)
  | '.' :: rest => (readDigits rest).map fun (digits, rest) => (some digits, rest)
  | text => some (none, text)

/-- The digits of an exponent behind its sign. -/
def readExponentDigits (negative : Bool) (text : List Char) :
    Option (Option (Bool × List Nat) × List Char) :=
  (readDigits text).map fun (digits, rest) => (some (negative, digits), rest)

/-- An exponent behind its letter. -/
def readExponentSign : List Char → Option (Option (Bool × List Nat) × List Char)
  | '-' :: rest => readExponentDigits true rest
  | '+' :: rest => readExponentDigits false rest
  | text => readExponentDigits false text

/-- An exponent, if there is one. -/
def readExponent : List Char → Option (Option (Bool × List Nat) × List Char)
  | 'e' :: rest => readExponentSign rest
  | 'E' :: rest => readExponentSign rest
  | text => some (none, text)

/-- Reads a number behind its sign. -/
def readNumber (negative : Bool) (text : List Char) : Option (Number × List Char) := do
  let (whole, rest) ← readWhole text
  let (fraction, rest) ← readFraction rest
  let (exponent, rest) ← readExponent rest
  return (⟨negative, whole, fraction, exponent⟩, rest)

/-! ## Texts -/

/-- Whether a character is blank between tokens. -/
def isBlank (character : Char) : Bool :=
  character == ' ' || character == '\t' || character == '\n' || character == '\r'

/-- Reads one token from a text that does not start with a blank. -/
def readOne : List Char → Option (Token × List Char)
  | '\x7b' :: rest => some (.openBrace, rest)
  | '\x7d' :: rest => some (.closeBrace, rest)
  | '[' :: rest => some (.openBracket, rest)
  | ']' :: rest => some (.closeBracket, rest)
  | ':' :: rest => some (.colon, rest)
  | ',' :: rest => some (.comma, rest)
  | 'n' :: 'u' :: 'l' :: 'l' :: rest => some (.null, rest)
  | 't' :: 'r' :: 'u' :: 'e' :: rest => some (.boolean true, rest)
  | 'f' :: 'a' :: 'l' :: 's' :: 'e' :: rest => some (.boolean false, rest)
  | '"' :: rest => (readString .empty rest).map fun (text, rest) => (.string text, rest)
  | '-' :: rest => (readNumber true rest).map fun (value, rest) => (.number value, rest)
  | text => (readNumber false text).map fun (value, rest) => (.number value, rest)

/-- The tokens of a text in reverse, in front of those found already. -/
def readAll (text : List Char) (found : List Token) : Option (List Token) :=
  match text with
  | [] => some found
  | character :: others =>
    if isBlank character then
      readAll others found
    else
      match readOne text with
      | some (token, rest) =>
        if rest.length ≤ others.length then readAll rest (token :: found) else none
      | none => none
termination_by text.length

/-- The tokens of a text in order, if it consists of tokens and blanks. -/
def ofText? (text : String) : Option (List Token) :=
  (readAll text.toList []).map List.reverse

end Token

end RingLwe.Json
