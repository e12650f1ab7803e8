import PageText.Byte
import PageText.Text.Utf16

/-!
# Tokens of JSON

A text is cut into structural marks, words and quoted strings. A quoted string is
held in UTF-16 units with its escapes undone, because an escape gives one unit and
may leave a surrogate without its partner. What words mean is not decided here.
-/

namespace PageText.Json

/-- A part of a text. -/
inductive Token where
  /-- A bracket, brace, comma or colon. -/
  | mark (c : Char)
  /-- Characters outside quotes. -/
  | word (chars : List Char)
  /-- The units of a quoted string. -/
  | quoted (units : List UInt16)
  deriving DecidableEq

namespace Token

/-- The characters that separate tokens. -/
def isBlank (c : Char) : Bool := c == ' ' || c == '\t' || c == '\n' || c == '\r'

/-- The structural marks. -/
def isMark (c : Char) : Bool := ['[', ']', '\x7b', '\x7d', ',', ':'].contains c

/-- The escapes of a single character, and what they stand for. -/
def escapes : List (Char × UInt16) :=
  [('"', 0x22), ('\\', 0x5C), ('/', 0x2F), ('b', 0x08), ('f', 0x0C), ('n', 0x0A),
    ('r', 0x0D), ('t', 0x09)]

/-- What has been begun where a text is cut. -/
inductive Begun where
  /-- A word, which may be empty; its last character first. -/
  | word (reversed : List Char)
  /-- A quoted string; its last unit first. -/
  | quoted (reversed : List UInt16)
  /-- An escape in a quoted string. -/
  | escape (reversed : List UInt16)
  /-- A numeric escape with some of its four digits. -/
  | code (reversed : List UInt16) (value : UInt16) (digits : Nat)

/-- The token of a word begun, if there is one. -/
def close (reversed : List Char) : List Token :=
  if reversed.isEmpty then [] else [word reversed.reverse]

/-- The value of a hexadecimal digit. -/
def hexValue? (c : Char) : Option UInt16 :=
  if c.toNat < 0x80 then (Byte.hexValue? (Byte.ofChar c)).map UInt8.toUInt16 else none

/-- Cut a text, with something begun before it. A quoted string has to end, may hold
no control characters, and only known escapes. -/
def cutFrom : Begun → List Char → Option (List Token)
  | .word reversed, [] => some (close reversed)
  | _, [] => none
  | .word reversed, c :: rest =>
    if isBlank c then (close reversed ++ ·) <$> cutFrom (.word []) rest
    else if isMark c then (close reversed ++ mark c :: ·) <$> cutFrom (.word []) rest
    else if c = '"' then (close reversed ++ ·) <$> cutFrom (.quoted []) rest
    else cutFrom (.word (c :: reversed)) rest
  | .quoted reversed, c :: rest =>
    if c = '"' then (quoted reversed.reverse :: ·) <$> cutFrom (.word []) rest
    else if c = '\\' then cutFrom (.escape reversed) rest
    else if c.toNat < 0x20 then none
    else cutFrom (.quoted ((Text.Utf16.encodeChar c).reverse ++ reversed)) rest
  | .escape reversed, c :: rest =>
    if c = 'u' then cutFrom (.code reversed 0 0) rest
    else
      match escapes.lookup c with
      | some unit => cutFrom (.quoted (unit :: reversed)) rest
      | none => none
  | .code reversed value digits, c :: rest =>
    match hexValue? c with
    | none => none
    | some digit =>
      let value := value * 16 + digit
      if digits = 3 then cutFrom (.quoted (value :: reversed)) rest
      else cutFrom (.code reversed value (digits + 1)) rest

/-- The tokens of a text. -/
def cut (text : List Char) : Option (List Token) := cutFrom (.word []) text

end Token

end PageText.Json
