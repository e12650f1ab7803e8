import PageText.Byte
import PageText.Text.Utf8

/-!
# Spelling of names

After its slash a name is spelled by regular bytes. They are read as text first;
then a number sign and two hexadecimal digits stand for one character of that
code. A number sign without two digits stands for itself.
-/

namespace PageText.Spelling.Name

/-- The value of a character that is a hexadecimal digit. -/
def hexValue? (c : Char) : Option UInt8 :=
  if c.toNat < 128 then Byte.hexValue? (Byte.ofChar c) else none

/-- The character that two digit characters denote, if both are digits. -/
def escaped? (high low : Char) : Option Char := do
  let h ← hexValue? high
  let l ← hexValue? low
  pure (Byte.toLatin1 (Byte.ofHexPair h l))

/-- Replace each complete escape by its character and keep everything else. -/
def decode : List Char → List Char
  | [] => []
  | [c] => [c]
  | [c, d] => [c, d]
  | c :: high :: low :: rest =>
    if c = '#' then
      match escaped? high low with
      | some e => e :: decode rest
      | none => c :: decode (high :: low :: rest)
    else c :: decode (high :: low :: rest)

/-- The name that a run of bytes spells. -/
def ofBytes (bytes : List UInt8) : String :=
  String.ofList (decode (Text.Utf8.decodeLossy bytes))

end PageText.Spelling.Name
