import PageText.Number.Numeral
import PageText.Spelling.Hex
import PageText.Spelling.Literal
import PageText.Spelling.Name

/-!
# Tokens of page content

Blanks and comments separate tokens. A run of regular bytes is one token: a
numeral, one of three reserved words, or a keyword; the other tokens begin with a
delimiter. `read?` takes one token and says what follows it, and refuses an input
that ends or that begins with a byte no token begins with.
-/

namespace PageText

/-- The smallest meaningful parts of page content. -/
inductive Token where
  /-- A numeral without a point whose value fits the integer range. -/
  | int (value : Int)
  /-- Any other numeral. -/
  | real (value : Float)
  /-- The body of a literal string, escapes untouched. -/
  | literal (raw : List UInt8)
  /-- The body of a hexadecimal string, blanks included. -/
  | hex (raw : List UInt8)
  /-- A name, escapes decoded. -/
  | name (text : String)
  /-- One of the reserved words `true` and `false`. -/
  | bool (value : Bool)
  /-- The reserved word `null`. -/
  | null
  /-- An opening square bracket. -/
  | arrayOpen
  /-- A closing square bracket. -/
  | arrayClose
  /-- Two opening angle brackets. -/
  | dictOpen
  /-- Two closing angle brackets. -/
  | dictClose
  /-- Any other run of regular bytes, or one brace. -/
  | keyword (word : List UInt8)

namespace Token

/-- Skip blanks and comments; `inComment` says that the input starts inside one. -/
def skipFrom : Bool → List UInt8 → List UInt8
  | _, [] => []
  | true, b :: rest => skipFrom (!Byte.isLineEnd b) rest
  | false, b :: rest =>
    if Byte.isBlank b then skipFrom false rest
    else if b == Byte.ofChar '%' then skipFrom true rest
    else b :: rest

/-- The input from its first byte that is neither blank nor in a comment. -/
def skipBlank (bytes : List UInt8) : List UInt8 := skipFrom false bytes

/-- The meaning of a whole run of regular bytes. -/
def ofWord (word : List UInt8) : Token :=
  match Number.Numeral.ofWord? word with
  | some numeral =>
    match numeral.toInt? with
    | some n => int n
    | none => real numeral.toFloat
  | none =>
    if word = Byte.ofAscii "true" then bool true
    else if word = Byte.ofAscii "false" then bool false
    else if word = Byte.ofAscii "null" then null
    else keyword word

/-- Read a token from an input that begins with the byte `b`, neither blank nor
the start of a comment. -/
def readAt? (b : UInt8) (rest : List UInt8) : Option (Token × List UInt8) :=
  match Byte.role b with
  | .regular =>
    some (ofWord (b :: rest.takeWhile Byte.isRegular), rest.dropWhile Byte.isRegular)
  | .slash =>
    some (name (Spelling.Name.ofBytes (rest.takeWhile Byte.isRegular)),
      rest.dropWhile Byte.isRegular)
  | .parenOpen => (Spelling.Literal.body? rest).map fun found => (literal found.1, found.2)
  | .squareOpen => some (arrayOpen, rest)
  | .squareClose => some (arrayClose, rest)
  | .brace => some (keyword [b], rest)
  | .angleOpen =>
    if rest.head? == some b then some (dictOpen, rest.tail)
    else (Spelling.Hex.body? rest).map fun found => (hex found.1, found.2)
  | .angleClose => if rest.head? == some b then some (dictClose, rest.tail) else none
  | .parenClose | .percent | .blank => none

/-- Read one token after blanks and comments, and the bytes that follow it. -/
def read? (bytes : List UInt8) : Option (Token × List UInt8) :=
  match skipBlank bytes with
  | [] => none
  | b :: rest => readAt? b rest

/-- Skipping never lengthens the input. -/
theorem length_skipFrom_le (inComment : Bool) (bytes : List UInt8) :
    (skipFrom inComment bytes).length ≤ bytes.length := by
  induction bytes generalizing inComment with
  | nil => cases inComment <;> exact Nat.le_refl _
  | cons b rest ih =>
    cases inComment with
    | true => exact Nat.le_succ_of_le (ih _)
    | false =>
      simp only [skipFrom]
      split
      · exact Nat.le_succ_of_le (ih _)
      · split
        · exact Nat.le_succ_of_le (ih _)
        · exact Nat.le_refl _

/-- Skipping blanks and comments never lengthens the input. -/
theorem length_skipBlank_le (bytes : List UInt8) : (skipBlank bytes).length ≤ bytes.length :=
  length_skipFrom_le false bytes

/-- A token takes at least its first byte. -/
theorem length_le_of_readAt? {b : UInt8} {bytes rest : List UInt8} {token : Token}
    (h : readAt? b bytes = some (token, rest)) : rest.length ≤ bytes.length := by
  have regular : (bytes.dropWhile Byte.isRegular).length ≤ bytes.length :=
    (List.dropWhile_sublist _).length_le
  have tail : bytes.tail.length ≤ bytes.length := by simp
  unfold readAt? at h
  cases role : Byte.role b <;> simp only [role] at h
  case blank => cases h
  case percent => cases h
  case slash => cases h; exact regular
  case parenOpen =>
    obtain ⟨⟨raw, rest'⟩, found, eq⟩ := Option.map_eq_some_iff.1 h
    cases eq
    exact Nat.le_of_lt (Spelling.Literal.length_lt_of_bodyFrom? found)
  case parenClose => cases h
  case squareOpen => cases h; exact Nat.le_refl _
  case squareClose => cases h; exact Nat.le_refl _
  case angleOpen =>
    split at h
    · cases h; exact tail
    · obtain ⟨⟨raw, rest'⟩, found, eq⟩ := Option.map_eq_some_iff.1 h
      cases eq
      exact Nat.le_of_lt (Spelling.Hex.length_lt_of_body? found)
  case angleClose =>
    split at h
    · cases h; exact tail
    · cases h
  case brace => cases h; exact Nat.le_refl _
  case regular => cases h; exact regular

/-- Every token leaves less input than it was read from. -/
theorem length_lt_of_read? {bytes rest : List UInt8} {token : Token}
    (h : read? bytes = some (token, rest)) : rest.length < bytes.length := by
  unfold read? at h
  have skipped := length_skipBlank_le bytes
  split at h
  · cases h
  · rename_i b after found
    rw [found] at skipped
    have := length_le_of_readAt? h
    simp only [List.length_cons] at skipped
    omega

end Token

end PageText
