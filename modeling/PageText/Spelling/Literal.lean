import PageText.Byte

/-!
# Spelling of literal strings

A literal string stands between parentheses. `body?` finds the matching end and
leaves the bytes as they are; `decode` then reads the escapes. The two agree on
what a backslash protects, which is what keeps an escaped parenthesis from ending
the string.
-/

namespace PageText.Spelling.Literal

/-- The escape byte. -/
abbrev backslash : UInt8 := Byte.ofChar '\\'

/-- Scan for the parenthesis that closes the string. `depth` counts the inner
parentheses still open, and `escaped` says that a backslash came right before.
The result is the raw body and the bytes after the end. -/
def bodyFrom? (depth : Nat) (escaped : Bool) : List UInt8 → Option (List UInt8 × List UInt8)
  | [] => none
  | b :: rest =>
    let keep (depth : Nat) (escaped : Bool) :=
      (bodyFrom? depth escaped rest).map fun found => (b :: found.1, found.2)
    if escaped then keep depth false
    else if b == backslash then keep depth true
    else if b == Byte.ofChar '(' then keep (depth + 1) false
    else if b == Byte.ofChar ')' then
      if depth = 0 then some ([], rest) else keep (depth - 1) false
    else keep depth false

/-- What follows the string is shorter than what the scan was given. -/
theorem length_lt_of_bodyFrom? {depth : Nat} {escaped : Bool} {bytes raw rest : List UInt8}
    (h : bodyFrom? depth escaped bytes = some (raw, rest)) : rest.length < bytes.length := by
  induction bytes generalizing depth escaped raw with
  | nil => simp [bodyFrom?] at h
  | cons b bytes ih =>
    have step {d : Nat} {e : Bool}
        (k : (bodyFrom? d e bytes).map (fun found => (b :: found.1, found.2)) = some (raw, rest)) :
        rest.length < (b :: bytes).length := by
      obtain ⟨⟨raw', rest'⟩, found, eq⟩ := Option.map_eq_some_iff.1 k
      cases eq
      exact Nat.lt_succ_of_lt (ih found)
    simp only [bodyFrom?] at h
    split at h
    · exact step h
    · split at h
      · exact step h
      · split at h
        · exact step h
        · split at h
          · split at h
            · cases h
              exact Nat.lt_succ_self _
            · exact step h
          · exact step h

/-- The body of a string whose opening parenthesis has been read. -/
def body? (bytes : List UInt8) : Option (List UInt8 × List UInt8) := bodyFrom? 0 false bytes

/-- What the bytes read so far still leave open. -/
inductive Pending where
  /-- Nothing. -/
  | nothing
  /-- A backslash. -/
  | escape
  /-- A line continuation by carriage return, which may take a line feed with it. -/
  | lineEnd
  /-- An octal escape of the given value that may take this many more digits. -/
  | octal (value more : Nat)

/-- Read a byte that no escape claims. -/
def readPlain (b : UInt8) : List UInt8 × Pending :=
  if b == backslash then ([], .escape) else ([b], .nothing)

/-- Read the byte after a backslash. -/
def readEscaped (b : UInt8) : List UInt8 × Pending :=
  if b == Byte.ofChar 'n' then ([0x0A], .nothing)
  else if b == Byte.ofChar 'r' then ([0x0D], .nothing)
  else if b == Byte.ofChar 't' then ([0x09], .nothing)
  else if b == Byte.ofChar 'b' then ([0x08], .nothing)
  else if b == Byte.ofChar 'f' then ([0x0C], .nothing)
  else if b == 0x0A then ([], .nothing)
  else if b == 0x0D then ([], .lineEnd)
  else if Byte.isOctal b then ([], .octal (Byte.digitValue b) 2)
  else ([b], .nothing)

/-- Read a byte. An octal escape takes at most three digits and keeps the low
eight bits. -/
def read : Pending → UInt8 → List UInt8 × Pending
  | .nothing, b => readPlain b
  | .escape, b => readEscaped b
  | .lineEnd, b => if b == 0x0A then ([], .nothing) else readPlain b
  | .octal value more, b =>
    if Byte.isOctal b then
      let value := value * 8 + Byte.digitValue b
      if more ≤ 1 then ([value.toUInt8], .nothing) else ([], .octal value (more - 1))
    else
      let plain := readPlain b
      (value.toUInt8 :: plain.1, plain.2)

/-- Decode from any point. A backslash at the end stands for nothing. -/
def decodeFrom : Pending → List UInt8 → List UInt8
  | .octal value _, [] => [value.toUInt8]
  | _, [] => []
  | pending, b :: rest =>
    let step := read pending b
    step.1 ++ decodeFrom step.2 rest

/-- The bytes that a raw body stands for. -/
def decode (raw : List UInt8) : List UInt8 := decodeFrom .nothing raw

end PageText.Spelling.Literal
