import PageText.Number.Shortest

/-!
# Writing JSON

Values are written without blanks. Text is quoted with short escapes where there are
any; numbers have their shortest digits. What is written for which field is decided
by whoever writes a record.
-/

namespace PageText.Json.Writer

open PageText.Number

/-- Where a decimal gets its point, and when it gets an exponent instead. -/
structure Layout where
  /-- The most digits before the point. -/
  maxWhole : Int
  /-- The most zeros between the point and the first digit that is none. -/
  maxZeros : Int

/-- Numbers are positional below `10 ^ 13` and from `10 ^ -6` on. -/
def layout : Layout := ⟨13, 5⟩

/-- A run of zeros. -/
def zeros (n : Nat) : List Char := List.replicate n '0'

/-- Digits with a point after the first one, if there are more. -/
def pointed : List Char → List Char
  | [] => []
  | [d] => [d]
  | d :: rest => d :: '.' :: rest

/-- Write an exponent, always with its sign. -/
def exponent (e : Int) : List Char :=
  (if e < 0 then '-' else '+') :: Nat.toDigits 10 e.natAbs

/-- Write a positive decimal. Positional numbers have a digit on both sides of the
point. -/
def decimal (layout : Layout) (d : Decimal) : String :=
  let digits := Nat.toDigits 10 d.digits
  let whole := digits.length + d.exponent
  String.ofList <|
    if 0 < whole && whole ≤ layout.maxWhole then
      if 0 ≤ d.exponent then digits ++ zeros d.exponent.toNat ++ ['.', '0']
      else digits.take whole.toNat ++ '.' :: digits.drop whole.toNat
    else if whole ≤ 0 && -layout.maxZeros ≤ whole then
      '0' :: '.' :: zeros (-whole).toNat ++ digits
    else pointed digits ++ 'e' :: exponent (whole - 1)

/-- The bit that makes a single-precision number negative. -/
def signBit : Nat := 0x80000000

/-- Write a number; one that is not finite has no form but that of the absent value. -/
def number (x : Float32) : String :=
  if x.isNaN || x.isInf then "null"
  else
    let bits := x.toBits.toNat
    let sign := if signBit ≤ bits then "-" else ""
    if bits % signBit = 0 then sign ++ "0.0"
    else sign ++ decimal layout (Rounding.ofBits (bits % signBit)).shortest

/-- The characters that have an escape of their own. -/
def shortEscapes : List (Char × Char) :=
  [('"', '"'), ('\\', '\\'), ('\x08', 'b'), ('\x0c', 'f'), ('\n', 'n'), ('\r', 'r'), ('\t', 't')]

/-- Write one character of a quoted text. Control characters without an escape of
their own are written by number. -/
def escape (c : Char) : List Char :=
  match shortEscapes.lookup c with
  | some e => ['\\', e]
  | none =>
    if c.toNat < 0x20 then
      ['\\', 'u', '0', '0', Nat.digitChar (c.toNat / 16), Nat.digitChar (c.toNat % 16)]
    else [c]

/-- Write a text. -/
def quoted (text : String) : String :=
  String.ofList ('"' :: text.toList.flatMap escape ++ ['"'])

/-- Write an object whose values have been written. -/
def object (members : List (String × String)) : String :=
  "\x7b" ++ ",".intercalate (members.map fun member => quoted member.1 ++ ":" ++ member.2) ++ "\x7d"

end PageText.Json.Writer
