/-!
# Single precision beside double precision

Positions, widths and spacings are single-precision numbers; numerals of a page
are double-precision ones. This module moves between the two by decoding one
format and rounding into the other, so every step has a meaning in the logic and
closed instances evaluate. `hypot` is the one operation computed through double
precision.
-/

namespace PageText.Number.Binary32

open Float.Model

/-- The double-precision number of the same value; widening is exact. -/
def widen (x : Float32) : Float :=
  match x.toModel.unpack with
  | .notANumber => Float.ofModel (Float.Model.pack .notANumber)
  | .infinity s => Float.ofModel (Float.Model.pack (.infinity s))
  | .zero s => Float.ofModel (Float.Model.pack (.zero s))
  | .finite s m e _ => Float.ofModel (Float.Model.pack (UnpackedFloat.round .binary64 s m e))

/-- The nearest single-precision number, ties to the even mantissa; a magnitude
past the largest finite one becomes infinite. -/
def narrow (x : Float) : Float32 :=
  match x.toModel.unpack with
  | .notANumber => Float32.ofModel (Float32.Model.pack .notANumber)
  | .infinity s => Float32.ofModel (Float32.Model.pack (.infinity s))
  | .zero s => Float32.ofModel (Float32.Model.pack (.zero s))
  | .finite s m e _ => Float32.ofModel (Float32.Model.pack (UnpackedFloat.round .binary32 s m e))

/-- The nearest single-precision number to an integer, in one rounding. -/
def ofInteger (n : Int) : Float32 := Float32.ofInt n

/-- Length of the vector `(x, y)`. Squares, sum and root are taken in double
precision and rounded once; an infinite side wins over a NaN. -/
def hypot (x y : Float32) : Float32 :=
  if x.isInf || y.isInf then Float32.abs (if x.isInf then x else y)
  else narrow (Float.sqrt (widen x * widen x + widen y * widen y))

end PageText.Number.Binary32
