import PageText.Byte
import PageText.Error

/-!
# The hexadecimal filter

Digits in pairs, as `PageText.Spelling.Hex` reads them, but with an end mark and
with a refusal: a byte before the mark that is neither a digit nor blank is an
error. One digit may be pending between bytes.
-/

namespace PageText.Filter.AsciiHex

/-- Blanks are skipped, and so is NUL. -/
def isSkipped (b : UInt8) : Bool := Byte.isAsciiBlank b || b == 0x00

/-- The report for a byte that is no digit. -/
def invalidDigit (b : UInt8) : Error :=
  .undecodable (String.ofList ("ASCIIHexDecode: invalid hex digit '".toList ++
    [Byte.toLatin1 b] ++ "'".toList))

/-- The bytes still owed at the end: a pending digit has an implied zero after it. -/
def flush : Option UInt8 → List UInt8
  | none => []
  | some high => [Byte.ofHexPair high 0]

/-- Decode with the given first digit of a pair pending. -/
def decodeFrom (pending : Option UInt8) : List UInt8 → Except Error (List UInt8)
  | [] => .ok (flush pending)
  | b :: rest =>
    if b == Byte.ofChar '>' then .ok (flush pending)
    else if isSkipped b then decodeFrom pending rest
    else
      match Byte.hexValue? b with
      | none => .error (invalidDigit b)
      | some digit =>
        match pending with
        | none => decodeFrom (some digit) rest
        | some high => (Byte.ofHexPair high digit :: ·) <$> decodeFrom none rest

/-- Decode up to the end mark, or all bytes without one. -/
def decode (bytes : List UInt8) : Except Error (List UInt8) := decodeFrom none bytes

end PageText.Filter.AsciiHex
