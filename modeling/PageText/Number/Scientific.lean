import PageText.Number.Numeral

/-!
# Decimals with an exponent

The spelling of a floating-point number outside page content: sign, digits with
at most one point, and an optional power of ten; or one of the words for infinity
and not-a-number, in any letter case. Rounding goes straight to the precision
asked for, so a single-precision reading is not rounded twice.
-/

namespace PageText.Number

/-- The number that a text spells, before rounding. -/
inductive Scientific where
  /-- `significand * 10 ^ exponent`, negated if `negative`. -/
  | finite (negative : Bool) (significand : Nat) (exponent : Int)
  /-- An infinity. -/
  | infinite (negative : Bool)
  /-- Not a number. -/
  | nan

namespace Scientific

/-- The number of a nonempty run of decimal digits. -/
def digits? (text : List UInt8) : Option Nat :=
  if text.isEmpty || !text.all Byte.isDigit then none else some (digitsValue text)

/-- The exponent after its mark: an optional sign and at least one digit. -/
def exponent? : List UInt8 → Option Int
  | [] => none
  | b :: rest =>
    if b == Byte.ofChar '-' then (digits? rest).map fun n => -(n : Int)
    else if b == Byte.ofChar '+' then (digits? rest).map Int.ofNat
    else (digits? (b :: rest)).map Int.ofNat

/-- An ASCII letter in lower case. -/
def lower (b : UInt8) : UInt8 :=
  if Byte.ofChar 'A' ≤ b && b ≤ Byte.ofChar 'Z' then b + 0x20 else b

/-- The mark between digits and exponent. -/
def isMark (b : UInt8) : Bool := lower b == Byte.ofChar 'e'

/-- Read digits, point and exponent of an unsigned number. -/
def unsigned? (negative : Bool) (text : List UInt8) : Option Scientific := do
  let mantissa := text.takeWhile (!isMark ·)
  let numeral ← Numeral.ofWord? mantissa
  if mantissa.any (fun b => b == Byte.ofChar '+' || b == Byte.ofChar '-') then none
  let power ← match text.dropWhile (!isMark ·) with
    | [] => some 0
    | _ :: rest => exponent? rest
  let fraction := numeral.fraction.getD []
  pure (finite negative (digitsValue (numeral.whole ++ fraction)) (power - fraction.length))

/-- Read the words for numbers that no digits spell. -/
def word? (negative : Bool) (text : List UInt8) : Option Scientific :=
  let word := text.map lower
  if word = Byte.ofAscii "inf" || word = Byte.ofAscii "infinity" then some (infinite negative)
  else if word = Byte.ofAscii "nan" then some nan
  else none

/-- Read a whole text as a number. -/
def ofBytes? : List UInt8 → Option Scientific
  | [] => none
  | b :: rest =>
    let negative := b == Byte.ofChar '-'
    let body := if negative || b == Byte.ofChar '+' then rest else b :: rest
    unsigned? negative body <|> word? negative body

/-- Past this many places on either side of the point there are no finite numbers
but zero, in either precision. -/
def maxPlaces : Nat := 400

/-- An exponent of the same value in both precisions that is not out of all
proportion: what is clamped stays an infinity or zero. -/
def clamp (m : Nat) (e : Int) : Int :=
  max (-(maxPlaces + (Nat.toDigits 10 m).length : Nat)) (min maxPlaces e)

/-- The nearest double-precision number. -/
def toFloat : Scientific → Float
  | finite negative m e =>
    let places := clamp m e
    let size := Float.ofScientific m (places < 0) places.natAbs
    if negative then -size else size
  | infinite negative => if negative then -(1.0 / 0.0) else 1.0 / 0.0
  | nan => 0.0 / 0.0

/-- The nearest single-precision number, in one rounding. -/
def toFloat32 : Scientific → Float32
  | finite negative m e =>
    let places := clamp m e
    let size := Float32.ofScientific m (places < 0) places.natAbs
    if negative then -size else size
  | infinite negative => if negative then -(1.0 / 0.0) else 1.0 / 0.0
  | nan => 0.0 / 0.0

end Scientific

end PageText.Number
