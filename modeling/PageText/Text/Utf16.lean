/-!
# UTF-16

Character maps and two-byte fonts give text as 16-bit units. Decoding them never
fails: a surrogate without its partner becomes U+FFFD. Quoted text is held in units
as well, and there such a surrogate is an error. Which units a font or a map supplies
is not decided here.
-/

namespace PageText.Text.Utf16

/-- The first half of a surrogate pair. -/
def isHigh (u : UInt16) : Bool := 0xD800 ≤ u && u ≤ 0xDBFF

/-- The second half of a surrogate pair. -/
def isLow (u : UInt16) : Bool := 0xDC00 ≤ u && u ≤ 0xDFFF

/-- The character of a surrogate pair. -/
def join (high low : UInt16) : Char :=
  Char.ofNat (0x10000 + high.toNat % 1024 * 1024 + low.toNat % 1024)

/-- The character of one unit that stands alone; a surrogate is replaced. -/
def single (u : UInt16) : Char :=
  if isHigh u || isLow u then Char.ofNat 0xFFFD else Char.ofNat u.toNat

/-- Decode all units, joining each high unit with a low one right after it. -/
def decodeLossy : List UInt16 → List Char
  | [] => []
  | [u] => [single u]
  | u :: v :: rest =>
    if isHigh u && isLow v then join u v :: decodeLossy rest
    else single u :: decodeLossy (v :: rest)

/-- Decode all units, provided that every surrogate has its partner. -/
def decode? : List UInt16 → Option (List Char)
  | [] => some []
  | [u] => if isHigh u || isLow u then none else some [single u]
  | u :: v :: rest =>
    if isHigh u && isLow v then (join u v :: ·) <$> decode? rest
    else if isHigh u || isLow u then none
    else (single u :: ·) <$> decode? (v :: rest)

/-- The text of a unit sequence, whatever it holds. -/
def textOf (units : List UInt16) : String := String.ofList (decodeLossy units)

/-- The one or two units of a character. -/
def encodeChar (c : Char) : List UInt16 :=
  let n := c.toNat
  if n < 0x10000 then [n.toUInt16]
  else [(0xD800 + (n - 0x10000) / 1024).toUInt16, (0xDC00 + (n - 0x10000) % 1024).toUInt16]

/-- The units of a character sequence. -/
def encode (text : List Char) : List UInt16 := text.flatMap encodeChar

end PageText.Text.Utf16
