import RingLwe.Json.Token

/-!
# JSON documents

A document is a value: a literal, a number, a string, an array, or an object
with its members in the order of the text, repeated keys included.

The values that are open at some point of the text form a stack, and the
parser is a fold of one step over the tokens.  Nesting is limited by nothing
but the length of the text.
-/

set_option autoImplicit false

namespace RingLwe

/-- A JSON value. -/
inductive Json where
  | null
  | boolean (value : Bool)
  | number (value : Json.Number)
  /-- A string; without a text if it has a surrogate that does not pair up. -/
  | string (text : Option String)
  | array (items : List Json)
  /-- The members in the order of the text. -/
  | object (members : List (Option String × Json))

namespace Json

/-- A container whose end has not been reached, with what it holds so far in reverse. -/
inductive Frame where
  | array (items : List Json)
  /-- An object, and the key whose value comes next. -/
  | object (members : List (Option String × Json)) (key : Option String)

/-- What has been read so far, and what may come next. -/
inductive State where
  /-- A value. -/
  | value (frames : List Frame)
  /-- A value, or the end of an empty array. -/
  | firstItem (frames : List Frame)
  /-- A comma or the end of an array. -/
  | afterItem (items : List Json) (frames : List Frame)
  /-- A key, or the end of an empty object. -/
  | firstKey (frames : List Frame)
  /-- A key. -/
  | nextKey (members : List (Option String × Json)) (frames : List Frame)
  /-- The colon behind a key. -/
  | colon (members : List (Option String × Json)) (key : Option String) (frames : List Frame)
  /-- A comma or the end of an object. -/
  | afterMember (members : List (Option String × Json)) (frames : List Frame)
  /-- Nothing. -/
  | finished (document : Json)

namespace State

/-- A value has been read, inside the given containers. -/
def complete (document : Json) : List Frame → State
  | [] => .finished document
  | .array items :: frames => .afterItem (document :: items) frames
  | .object members key :: frames => .afterMember ((key, document) :: members) frames

/-- A value starts, inside the given containers. -/
def startValue (frames : List Frame) : Token → Option State
  | .openBrace => some (.firstKey frames)
  | .openBracket => some (.firstItem frames)
  | .null => some (complete .null frames)
  | .boolean truth => some (complete (.boolean truth) frames)
  | .number written => some (complete (.number written) frames)
  | .string text => some (complete (.string text) frames)
  | .closeBrace => none
  | .closeBracket => none
  | .colon => none
  | .comma => none

/-- Reads one token. -/
def step : State → Token → Option State
  | .value frames, token => startValue frames token
  | .firstItem frames, .closeBracket => some (complete (.array []) frames)
  | .firstItem frames, token => startValue (.array [] :: frames) token
  | .afterItem items frames, .comma => some (.value (.array items :: frames))
  | .afterItem items frames, .closeBracket => some (complete (.array items.reverse) frames)
  | .firstKey frames, .closeBrace => some (complete (.object []) frames)
  | .firstKey frames, .string key => some (.colon [] key frames)
  | .nextKey members frames, .string key => some (.colon members key frames)
  | .colon members key frames, .colon => some (.value (.object members key :: frames))
  | .afterMember members frames, .comma => some (.nextKey members frames)
  | .afterMember members frames, .closeBrace => some (complete (.object members.reverse) frames)
  | _, _ => none

end State

/-- The document of a text, if the text is one. -/
def ofText? (text : String) : Option Json := do
  let tokens ← Token.ofText? text
  match ← tokens.foldlM State.step (.value []) with
  | .finished document => some document
  | _ => none

end Json

end RingLwe
