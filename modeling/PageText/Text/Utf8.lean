/-!
# UTF-8 with replacement

Bytes from a page need not be valid text. Decoding never fails: each longest
run that starts a character but cannot finish it becomes one U+FFFD, and so does
each byte that cannot start one. The decoder holds at most one unfinished
character between bytes. Encoding is exact. That decoding undoes encoding is a
separate theorem.
-/

namespace PageText.Text.Utf8

/-- The character that stands for undecodable input. -/
def replacement : Char := Char.ofNat 0xFFFD

/-- A character whose first bytes have been read. -/
structure Pending where
  /-- Number of bytes still missing, never zero between bytes. -/
  owed : Nat
  /-- Least value of the next byte; above 0x80 only to shut out overlong forms. -/
  least : UInt8
  /-- Greatest value of the next byte; below 0xBF only to shut out surrogates and
  values past U+10FFFF. -/
  greatest : UInt8
  /-- The bits read so far. -/
  bits : Nat

/-- Read a byte between characters: what it shows at once and what it opens. -/
def feedFirst (b : UInt8) : List Char × Option Pending :=
  if b < 0x80 then ([Char.ofNat b.toNat], none)
  else if 0xC2 ≤ b && b ≤ 0xDF then ([], some ⟨1, 0x80, 0xBF, b.toNat % 32⟩)
  else if b == 0xE0 then ([], some ⟨2, 0xA0, 0xBF, 0⟩)
  else if b == 0xED then ([], some ⟨2, 0x80, 0x9F, 13⟩)
  else if 0xE0 ≤ b && b ≤ 0xEF then ([], some ⟨2, 0x80, 0xBF, b.toNat % 16⟩)
  else if b == 0xF0 then ([], some ⟨3, 0x90, 0xBF, 0⟩)
  else if b == 0xF4 then ([], some ⟨3, 0x80, 0x8F, 4⟩)
  else if 0xF0 ≤ b && b ≤ 0xF4 then ([], some ⟨3, 0x80, 0xBF, b.toNat % 8⟩)
  else ([replacement], none)

/-- Read a byte. One that cannot continue the unfinished character replaces it
and is then read afresh. -/
def feed : Option Pending → UInt8 → List Char × Option Pending
  | none, b => feedFirst b
  | some p, b =>
    if p.least ≤ b && b ≤ p.greatest then
      let bits := p.bits * 64 + b.toNat % 64
      if p.owed ≤ 1 then ([Char.ofNat bits], none)
      else ([], some ⟨p.owed - 1, 0x80, 0xBF, bits⟩)
    else
      let fresh := feedFirst b
      (replacement :: fresh.1, fresh.2)

/-- Decode from any point; an unfinished character at the end is replaced. -/
def decodeFrom : Option Pending → List UInt8 → List Char
  | none, [] => []
  | some _, [] => [replacement]
  | pending, b :: rest =>
    let step := feed pending b
    step.1 ++ decodeFrom step.2 rest

/-- Decode all bytes, replacing each maximal broken run. -/
def decodeLossy (bytes : List UInt8) : List Char := decodeFrom none bytes

/-- The text of a byte run, whatever it holds. -/
def textOf (bytes : List UInt8) : String := String.ofList (decodeLossy bytes)

/-- The one to four bytes of a character. -/
def encodeChar (c : Char) : List UInt8 :=
  let n := c.toNat
  if n < 0x80 then [n.toUInt8]
  else if n < 0x800 then [(0xC0 + n / 64).toUInt8, (0x80 + n % 64).toUInt8]
  else if n < 0x10000 then
    [(0xE0 + n / 4096).toUInt8, (0x80 + n / 64 % 64).toUInt8, (0x80 + n % 64).toUInt8]
  else
    [(0xF0 + n / 262144).toUInt8, (0x80 + n / 4096 % 64).toUInt8,
      (0x80 + n / 64 % 64).toUInt8, (0x80 + n % 64).toUInt8]

/-- The bytes of a character sequence. -/
def encode (text : List Char) : List UInt8 := text.flatMap encodeChar

end PageText.Text.Utf8
