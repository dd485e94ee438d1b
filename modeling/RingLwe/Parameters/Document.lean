import RingLwe.Json.Document
import RingLwe.Parameters

/-!
# Parameters as JSON documents

A parameter document is an object with the members `ring_dim`, `p`, `log_q`
and optionally `mod_switch` and `sigma`, in any order, or an array of the same
values in this order.  Other members of an object are skipped.  A repeated
member, a missing one, or a key without a text makes the document unreadable;
so does a value of the wrong kind.

Parameters are written as an object with all five members.
-/

set_option autoImplicit false

namespace RingLwe.Parameters

/-! ## Reading -/

/-- The number of a value that is written as a natural number of one word. -/
def word? : Json → Option UInt64
  | .number number => number.word?
  | _ => none

/-- The width of a value that is its number of bits. -/
def width? (value : Json) : Option Width := do
  Width.ofBits? (← word? value).toNat

/-- The truth value of a literal. -/
def truth? : Json → Option Bool
  | .boolean truth => some truth
  | _ => none

/-- The float of a number. -/
def float? : Json → Option Float
  | .number number => number.float?
  | _ => none

/-- The members that have been read so far. -/
structure Draft where
  ringDimension : Option UInt64
  plaintextModulus : Option UInt64
  width : Option Width
  switching : Option Bool
  sigma : Option Float

namespace Draft

/-- No members. -/
def empty : Draft :=
  ⟨none, none, none, none, none⟩

/-- A value that must be readable for a member that has not been read before. -/
def first? {α : Type} (previous read : Option α) : Option (Option α) :=
  if previous.isSome then none else read.map some

/-- Reads one more member. -/
def read? (draft : Draft) : Option String × Json → Option Draft
  | (none, _) => none
  | (some "ring_dim", value) => do
    return { draft with ringDimension := ← first? draft.ringDimension (word? value) }
  | (some "p", value) => do
    return { draft with plaintextModulus := ← first? draft.plaintextModulus (word? value) }
  | (some "log_q", value) => do
    return { draft with width := ← first? draft.width (width? value) }
  | (some "mod_switch", value) => do
    return { draft with switching := ← first? draft.switching (truth? value) }
  | (some "sigma", value) => do
    return { draft with sigma := ← first? draft.sigma (float? value) }
  | (some _, _) => some draft

/-- The parameters of a draft, if no member without a default is missing. -/
def finish? (draft : Draft) : Option Parameters := do
  return ⟨(← draft.ringDimension).toNat, ← draft.plaintextModulus, ← draft.width,
    draft.switching.getD false, draft.sigma.getD defaultSigma⟩

end Draft

/-- The names of the members in the order of an array. -/
def memberNames : List String :=
  ["ring_dim", "p", "log_q", "mod_switch", "sigma"]

/-- The parameters of a document. -/
def ofDocument? : Json → Option Parameters
  | .object members => do
    (← members.foldlM Draft.read? .empty).finish?
  | .array items =>
    if items.length ≤ memberNames.length then do
      (← ((memberNames.map some).zip items).foldlM Draft.read? .empty).finish?
    else
      none
  | _ => none

/-- The parameters of a text. -/
def ofText? (text : String) : Option Parameters := do
  ofDocument? (← Json.ofText? text)

/-! ## Writing -/

/-- How a deviation is written: positionally for decimal exponents from -5 to 15, with at least one
digit after the point, of two equally near decimals the even one, and as `null` if it is not a
finite number. -/
def sigmaLayout : Decimal.Layout where
  tie := .toEven
  positional := fun exponent => -5 ≤ exponent && exponent ≤ 15
  wholeSuffix := ".0"
  notANumber := "null"
  positiveInfinity := "null"
  negativeInfinity := "null"

/-- The text of a parameter set. -/
def toText (parameters : Parameters) : String :=
  "\x7b\"ring_dim\":" ++ toString parameters.ringDimension ++
    ",\"p\":" ++ toString parameters.plaintextModulus ++
    ",\"log_q\":" ++ toString parameters.width.bits ++
    ",\"mod_switch\":" ++ (if parameters.switching then "true" else "false") ++
    ",\"sigma\":" ++ sigmaLayout.write parameters.sigma ++ "\x7d"

end RingLwe.Parameters
