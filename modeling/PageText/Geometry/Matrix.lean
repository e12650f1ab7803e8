import PageText.Geometry.Point

/-!
# Affine transforms

A transform of the plane as six coefficients; points are row vectors, so
`A.followedBy B` applies `A` first. Sums are rounded from left to right.
-/

namespace PageText

/-- The transform that takes `(x, y)` to `(a x + c y + e, b x + d y + f)`. -/
structure Matrix where
  /-- Share of `x` in the new `x`. -/
  a : Float32
  /-- Share of `x` in the new `y`. -/
  b : Float32
  /-- Share of `y` in the new `x`. -/
  c : Float32
  /-- Share of `y` in the new `y`. -/
  d : Float32
  /-- Shift of `x`. -/
  e : Float32
  /-- Shift of `y`. -/
  f : Float32

namespace Matrix

/-- The transform that changes nothing. -/
def identity : Matrix := ⟨1.0, 0.0, 0.0, 1.0, 0.0, 0.0⟩

/-- A shift. -/
def translation (x y : Float32) : Matrix := ⟨1.0, 0.0, 0.0, 1.0, x, y⟩

/-- A stretch along the axes. -/
def scaling (x y : Float32) : Matrix := ⟨x, 0.0, 0.0, y, 0.0, 0.0⟩

/-- The transform that applies `m` and then `n`. -/
def followedBy (m n : Matrix) : Matrix where
  a := m.a * n.a + m.b * n.c
  b := m.a * n.b + m.b * n.d
  c := m.c * n.a + m.d * n.c
  d := m.c * n.b + m.d * n.d
  e := m.e * n.a + m.f * n.c + n.e
  f := m.e * n.b + m.f * n.d + n.f

/-- The image of a point. -/
def onPoint (m : Matrix) (x y : Float32) : Point :=
  ⟨m.a * x + m.c * y + m.e, m.b * x + m.d * y + m.f⟩

/-- The image of a vector, which no shift moves. -/
def onVector (m : Matrix) (x y : Float32) : Point := ⟨m.a * x + m.c * y, m.b * x + m.d * y⟩

/-- The image of the origin. -/
def shift (m : Matrix) : Point := ⟨m.e, m.f⟩

/-- The transform of six coefficients in order; no other number of them makes one. -/
def ofCoefficients? : List Float32 → Option Matrix
  | [a, b, c, d, e, f] => some ⟨a, b, c, d, e, f⟩
  | _ => none

end Matrix

end PageText
