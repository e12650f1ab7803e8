import PageText.Byte
import PageText.Number.Binary32

/-!
# Decimal numerals

A numeral is an optional sign and decimal digits with at most one point. Its
value is the double-precision number nearest to the decimal it spells, which the
core reader of scientific literals computes. What surrounds a numeral in page
content is not decided here.
-/

namespace PageText.Number

/-- The number that a run of decimal digits spells; the empty run is zero. -/
def digitsValue (digits : List UInt8) : Nat :=
  digits.foldl (fun n b => n * 10 + Byte.digitValue b) 0

/-- A spelled number: sign, digits before the point, and digits after it when
there is a point. -/
structure Numeral where
  /-- A minus sign was written; a plus sign and no sign mean the same. -/
  negative : Bool
  /-- The digits before the point. -/
  whole : List UInt8
  /-- The digits after the point, absent without a point. -/
  fraction : Option (List UInt8)

namespace Numeral

/-- Read a whole word as a numeral: sign, digits, point, digits, nothing else,
with a digit on at least one side. -/
def ofWord? (word : List UInt8) : Option Numeral :=
  let negative := word.head? == some (Byte.ofChar '-')
  let unsigned := match word with
    | [] => []
    | b :: rest => if b == Byte.ofChar '+' || b == Byte.ofChar '-' then rest else word
  let whole := unsigned.takeWhile Byte.isDigit
  match unsigned.dropWhile Byte.isDigit with
  | [] => if whole.isEmpty then none else some ⟨negative, whole, none⟩
  | b :: fraction =>
    if b == Byte.ofChar '.' && fraction.all Byte.isDigit &&
        !(whole.isEmpty && fraction.isEmpty) then
      some ⟨negative, whole, some fraction⟩
    else none

/-- The magnitude of the numeral, correctly rounded. -/
def magnitude (n : Numeral) : Float :=
  let fraction := n.fraction.getD []
  Float.ofScientific (digitsValue (n.whole ++ fraction)) true fraction.length

/-- The value as a double; a minus sign applies after rounding and so keeps a
negative zero. -/
def toFloat (n : Numeral) : Float :=
  if n.negative then -n.magnitude else n.magnitude

/-- The greatest magnitude that stays an integer. -/
def integerLimit : Nat := 0x7FFFFFFFFFFFFFFF

/-- The integer value, for numerals without a point whose magnitude is within
`integerLimit`. -/
def toInt? (n : Numeral) : Option Int :=
  match n.fraction with
  | some _ => none
  | none =>
    let size := digitsValue n.whole
    if size ≤ integerLimit then some (if n.negative then -(size : Int) else size) else none

end Numeral

end PageText.Number
