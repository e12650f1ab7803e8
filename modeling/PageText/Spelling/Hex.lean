import PageText.Byte

/-!
# Spelling of bytes by hexadecimal digits

Two digits of any letter case spell a byte; a last digit alone has an implied
zero after it. `decode` ignores every other byte. Refusing them is the business of
the filter in `PageText.Filter.AsciiHex`.
-/

namespace PageText.Spelling.Hex

/-- Join digit values in pairs, the first of a pair the higher. -/
def joinPairs : List UInt8 → List UInt8
  | [] => []
  | [high] => [Byte.ofHexPair high 0]
  | high :: low :: rest => Byte.ofHexPair high low :: joinPairs rest

/-- The bytes that the digits among `bytes` spell. -/
def decode (bytes : List UInt8) : List UInt8 := joinPairs (bytes.filterMap Byte.hexValue?)

/-- The bytes of a hexadecimal string whose opening bracket has been read, and the
bytes after its end; only digits and blanks may stand before that end. -/
def body? (bytes : List UInt8) : Option (List UInt8 × List UInt8) :=
  let isBody (b : UInt8) := Byte.isHexDigit b || Byte.isBlank b
  match bytes.dropWhile isBody with
  | b :: rest => if b == Byte.ofChar '>' then some (bytes.takeWhile isBody, rest) else none
  | [] => none

/-- What follows the string is shorter than what the reader was given. -/
theorem length_lt_of_body? {bytes raw rest : List UInt8} (h : body? bytes = some (raw, rest)) :
    rest.length < bytes.length := by
  unfold body? at h
  dsimp only at h
  split at h
  · rename_i b rest' found
    split at h
    · cases h
      have bound := (List.dropWhile_sublist
        (fun b => Byte.isHexDigit b || Byte.isBlank b) (l := bytes)).length_le
      rw [found] at bound
      exact bound
    · cases h
  · cases h

end PageText.Spelling.Hex
