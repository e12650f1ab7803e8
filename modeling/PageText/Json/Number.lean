import PageText.Number.Scientific

/-!
# Numbers of JSON

A number has a sign, digits without a superfluous zero, and optionally a fraction and
an exponent. Its value keeps as many leading digits as fit into 64 bits and counts the
others; the kept ones are rounded to double precision and then multiplied or divided
by the power of ten, which rounds once more. A number with neither fraction nor
exponent stays an integer as long as it fits.
-/

namespace PageText.Json

open PageText.Number

/-- A number as it is written. -/
structure Number where
  /-- Sign, digits and fraction. -/
  numeral : Numeral
  /-- The power of ten, if one is written. -/
  exponent : Option Int

namespace Number

/-- Whether the digits before the point have no superfluous zero. -/
def plainWhole : List UInt8 → Bool
  | [] => false
  | [_] => true
  | b :: _ => b != Byte.ofChar '0'

/-- The written exponent in what follows the fraction; absent when nothing does. -/
def exponentOf? : List UInt8 → Option (Option Int)
  | [] => some none
  | _ :: rest => some <$> Scientific.exponent? rest

/-- Read a whole word as a number. -/
def ofWord? (word : List Char) : Option Number := do
  if word.any (fun c => 0x80 ≤ c.toNat) || word.head? == some '+' then none
  let bytes := word.map Byte.ofChar
  let numeral ← Numeral.ofWord? (bytes.takeWhile (!Scientific.isMark ·))
  let exponent ← exponentOf? (bytes.dropWhile (!Scientific.isMark ·))
  if plainWhole numeral.whole && numeral.fraction != some [] then pure ⟨numeral, exponent⟩
  else none

/-- The greatest number that the kept digits may make, the greatest of 64 bits. -/
def maxKept : Nat := 0xFFFFFFFFFFFFFFFF

/-- The greatest magnitude of a negative integer. -/
def maxNegated : Nat := 0x8000000000000000

/-- Add digits to the kept ones until they no longer fit; also the number of digits
left over. -/
def keep : Nat → List UInt8 → Nat × Nat
  | kept, [] => (kept, 0)
  | kept, digit :: rest =>
    let next := kept * 10 + Byte.digitValue digit
    if next ≤ maxKept then keep next rest else (kept, rest.length + 1)

/-- The greatest power of ten that has a double-precision number. -/
def maxPower : Nat := 308

/-- The double-precision number nearest to a power of ten. -/
def power (places : Nat) : Float := Float.ofScientific 1 false places

/-- Divide by a power of ten, in steps of `maxPower` while something is left. -/
def divide (x : Float) (places : Nat) : Float :=
  if places ≤ maxPower then x / power places
  else if x == 0.0 then x
  else divide (x / power maxPower) (places - maxPower)
termination_by places
decreasing_by
  have : maxPower = 308 := rfl
  omega

/-- Multiply by a power of ten; none past the range of double precision. -/
def multiply? (x : Float) (places : Nat) : Option Float :=
  if places ≤ maxPower then
    let product := x * power places
    if product.isInf then none else some product
  else if x == 0.0 then some x
  else none

/-- The magnitude of kept digits at a power of ten. -/
def scaled? (kept : Nat) : Int → Option Float
  | .ofNat places => multiply? (Float.ofScientific kept false 0) places
  | .negSucc n => some (divide (Float.ofScientific kept false 0) (n + 1))

/-- The value in double precision; none past its range. -/
def toFloat? (number : Number) : Option Float := do
  let (kept, wholeLeft) := keep 0 number.numeral.whole
  let fraction := number.numeral.fraction.getD []
  let (kept, fractionLeft) := keep kept fraction
  let places : Int := wholeLeft - (fraction.length - fractionLeft : Nat)
  let magnitude ← scaled? kept (places + number.exponent.getD 0)
  pure (if number.numeral.negative then -magnitude else magnitude)

/-- The integer value, for numbers without fraction and exponent that fit: into 64
bits without a sign, and with a minus sign unless they are zero or below the least
signed one. -/
def toInt? (number : Number) : Option Int :=
  match number.numeral.fraction, number.exponent with
  | none, none =>
    let (kept, left) := keep 0 number.numeral.whole
    if left ≠ 0 then none
    else if !number.numeral.negative then some kept
    else if 0 < kept && kept ≤ maxNegated then some (-(kept : Int))
    else none
  | _, _ => none

/-- The value in single precision: an integer is rounded once, any other number by
way of double precision. -/
def toFloat32? (number : Number) : Option Float32 :=
  match number.toInt? with
  | some n => some (Binary32.ofInteger n)
  | none => Binary32.narrow <$> number.toFloat?

end Number

end PageText.Json
