/-!
# Byte classes of page content

Page content is a list of bytes. This module names the bytes that carry meaning
and gives every byte one role, so that each is blank, a delimiter or regular, and
only one of these (`isRegular_iff`). Hexadecimal digits are classified here too,
because strings, names and filters share them. How bytes group into tokens stays
in `PageText.Token`.
-/

namespace PageText.Byte

/-- The character that an ASCII text denotes, as its byte. -/
def ofChar (c : Char) : UInt8 := c.toNat.toUInt8

/-- The bytes of an ASCII text. -/
def ofAscii (text : String) : List UInt8 := text.toList.map ofChar

/-- The six blank bytes: NUL, tab, line feed, form feed, carriage return, space. -/
def isBlank (b : UInt8) : Bool :=
  b == 0x20 || b == 0x09 || b == 0x0D || b == 0x0A || b == 0x00 || b == 0x0C

/-- Blank as an inline image and a hexadecimal filter count it, where NUL is data
to the former and skipped separately by the latter. -/
def isAsciiBlank (b : UInt8) : Bool :=
  b == 0x20 || b == 0x09 || b == 0x0D || b == 0x0A || b == 0x0C

/-- What a byte does where a token may begin. -/
inductive Role where
  /-- Separates tokens. -/
  | blank
  /-- Begins a comment. -/
  | percent
  /-- Begins a name. -/
  | slash
  /-- Begins a literal string. -/
  | parenOpen
  /-- Ends a literal string. -/
  | parenClose
  /-- Begins an array. -/
  | squareOpen
  /-- Ends an array. -/
  | squareClose
  /-- Begins a hexadecimal string or, doubled, a dictionary. -/
  | angleOpen
  /-- Ends a hexadecimal string or, doubled, a dictionary. -/
  | angleClose
  /-- A token of its own. -/
  | brace
  /-- Belongs to a word. -/
  | regular
  deriving DecidableEq, Repr

/-- The delimiters and their roles. -/
def delimiters : List (UInt8 × Role) :=
  [(ofChar '%', .percent), (ofChar '/', .slash), (ofChar '(', .parenOpen),
    (ofChar ')', .parenClose), (ofChar '[', .squareOpen), (ofChar ']', .squareClose),
    (ofChar '<', .angleOpen), (ofChar '>', .angleClose), (ofChar '{', .brace),
    (ofChar '}', .brace)]

/-- The role of a byte; one that is neither blank nor a delimiter is regular. -/
def role (b : UInt8) : Role :=
  if isBlank b then .blank else (delimiters.lookup b).getD .regular

/-- The bytes that words are made of. -/
def isRegular (b : UInt8) : Bool := role b == .regular

/-- The ten bytes that end a word without being blank. -/
def isDelimiter (b : UInt8) : Bool := !isBlank b && !isRegular b

/-- A comment ends before either line-end byte. -/
def isLineEnd (b : UInt8) : Bool := b == 0x0D || b == 0x0A

/-- The ten decimal digits. -/
def isDigit (b : UInt8) : Bool := ofChar '0' ≤ b && b ≤ ofChar '9'

/-- The eight octal digits. -/
def isOctal (b : UInt8) : Bool := ofChar '0' ≤ b && b ≤ ofChar '7'

/-- The value of a decimal or octal digit; other bytes have no meaning here. -/
def digitValue (b : UInt8) : Nat := (b - ofChar '0').toNat

/-- The value of a hexadecimal digit of either letter case. -/
def hexValue? (b : UInt8) : Option UInt8 :=
  if isDigit b then some (b - ofChar '0')
  else if ofChar 'a' ≤ b && b ≤ ofChar 'f' then some (b - ofChar 'a' + 10)
  else if ofChar 'A' ≤ b && b ≤ ofChar 'F' then some (b - ofChar 'A' + 10)
  else none

/-- The bytes that have a hexadecimal value. -/
def isHexDigit (b : UInt8) : Bool := (hexValue? b).isSome

/-- The byte that two hexadecimal digits denote, the first one the higher. -/
def ofHexPair (high low : UInt8) : UInt8 := high * 16 + low

/-- A byte read as the character of the same code. -/
def toLatin1 (b : UInt8) : Char := Char.ofNat b.toNat

/-- Blank bytes are the ones with that role. -/
theorem isBlank_iff (b : UInt8) : isBlank b = true ↔ role b = .blank := by
  by_cases h : isBlank b = true
  · simp [role, h]
  · have others : ∀ entry ∈ delimiters, entry.2 ≠ .blank := by decide
    have : (delimiters.lookup b).getD .regular ≠ .blank := by
      cases found : delimiters.lookup b with
      | none => simp
      | some r =>
        obtain ⟨k, l, at_, -⟩ := List.lookup_eq_some_iff.1 found
        exact others (b, r) (by simp [at_])
    simp [role, h, this]

/-- Regular means neither blank nor delimiter, so the three classes cover all bytes. -/
theorem isRegular_iff (b : UInt8) :
    isRegular b = true ↔ isBlank b = false ∧ isDelimiter b = false := by
  by_cases h : isBlank b = true
  · simp [isRegular, h, (isBlank_iff b).1 h]
  · simp [isDelimiter, h]

end PageText.Byte
