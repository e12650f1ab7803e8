import PageText.Json.Number
import PageText.Json.Token

/-!
# Values of JSON

A value is read from tokens by a machine with a stack of what is open, so reading
recurses on the tokens alone and nesting has no bound. Members keep their order, and
keys may repeat; readers of a value decide what that means.
-/

namespace PageText.Json

/-- A value. -/
inductive Value where
  /-- The absent value. -/
  | null
  /-- A truth value. -/
  | bool (value : Bool)
  /-- A number. -/
  | number (value : Number)
  /-- A string in UTF-16 units, which need not be well-formed. -/
  | string (units : List UInt16)
  /-- A sequence of values. -/
  | array (items : List Value)
  /-- Values by key, in order. -/
  | object (members : List (List UInt16 × Value))

/-- Something open around the value being read; what it holds so far has the last part
first. -/
inductive Frame where
  /-- An array. -/
  | array (reversed : List Value)
  /-- An object in which the value of a key is being read. -/
  | member (reversed : List (List UInt16 × Value)) (key : List UInt16)

/-- What has to come next. -/
inductive Expected where
  /-- A value. -/
  | value
  /-- A value, or the end of an array without items. -/
  | itemOrEnd
  /-- A key of an object with the given members. -/
  | key (reversed : List (List UInt16 × Value))
  /-- A key, or the end of an object without members. -/
  | keyOrEnd
  /-- The colon after a key. -/
  | colon (reversed : List (List UInt16 × Value)) (key : List UInt16)
  /-- What follows a value. -/
  | after (found : Value)

namespace Value

/-- The value of a word. -/
def ofWord? (chars : List Char) : Option Value :=
  if chars = "null".toList then some null
  else if chars = "true".toList then some (bool true)
  else if chars = "false".toList then some (bool false)
  else number <$> Number.ofWord? chars

/-- What to expect after a token that begins a value, and what it opens. -/
def begin? : Token → Option Expected
  | .word chars => .after <$> ofWord? chars
  | .quoted units => some (.after (string units))
  | .mark '[' => some .itemOrEnd
  | .mark '\x7b' => some .keyOrEnd
  | .mark _ => none

/-- Read tokens up to their end, inside of the open frames. -/
def readFrom : Expected → List Frame → List Token → Option Value
  | .after found, [], [] => some found
  | _, _, [] => none
  | .value, frames, token :: rest =>
    match begin? token with
    | some next => readFrom next frames rest
    | none => none
  | .itemOrEnd, frames, token :: rest =>
    if token = .mark ']' then readFrom (.after (array [])) frames rest
    else
      match begin? token with
      | some next => readFrom next (.array [] :: frames) rest
      | none => none
  | .key reversed, frames, token :: rest =>
    match token with
    | .quoted key => readFrom (.colon reversed key) frames rest
    | _ => none
  | .keyOrEnd, frames, token :: rest =>
    match token with
    | .quoted key => readFrom (.colon [] key) frames rest
    | .mark '\x7d' => readFrom (.after (object [])) frames rest
    | _ => none
  | .colon reversed key, frames, token :: rest =>
    if token = .mark ':' then readFrom .value (.member reversed key :: frames) rest else none
  | .after found, frame :: frames, token :: rest =>
    match frame, token with
    | .array reversed, .mark ',' => readFrom .value (.array (found :: reversed) :: frames) rest
    | .array reversed, .mark ']' =>
      readFrom (.after (array (found :: reversed).reverse)) frames rest
    | .member reversed key, .mark ',' => readFrom (.key ((key, found) :: reversed)) frames rest
    | .member reversed key, .mark '\x7d' =>
      readFrom (.after (object ((key, found) :: reversed).reverse)) frames rest
    | _, _ => none
  | .after _, [], _ :: _ => none

/-- The value that a text is. -/
def ofText? (text : String) : Option Value :=
  (Token.cut text.toList).bind (readFrom .value [])

/-- The truth value held, if it is one. -/
def asBool? : Value → Option Bool
  | bool b => some b
  | _ => none

/-- The number held in single precision, if it is one within the range of double
precision. -/
def asFloat32? : Value → Option Float32
  | number n => n.toFloat32?
  | _ => none

/-- The text held, if it is one. -/
def asText? : Value → Option String
  | string units => String.ofList <$> Text.Utf16.decode? units
  | _ => none

end Value

end PageText.Json
