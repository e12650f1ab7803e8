import PageText.Number.Binary32

/-!
# Points and distances

Points of user space with single-precision coordinates. Every operation rounds
once, in the order in which the formulas are written. Distances decide where lines
and words begin; the thresholds for that live with the extractors.
-/

namespace PageText

/-- A point of user space, or a vector. -/
structure Point where
  /-- Horizontal coordinate, growing to the right. -/
  x : Float32
  /-- Vertical coordinate, growing upwards. -/
  y : Float32

namespace Point

/-- The origin. -/
def zero : Point := ⟨0.0, 0.0⟩

/-- Distance between two points. -/
def distance (p q : Point) : Float32 := Number.Binary32.hypot (p.x - q.x) (p.y - q.y)

/-- Length of a vector. -/
def length (v : Point) : Float32 := Number.Binary32.hypot v.x v.y

/-- Distance of a point from the infinite line through two others, absent where
these coincide and no line is determined. -/
def distanceToLine? (p start finish : Point) : Option Float32 :=
  let dx := finish.x - start.x
  let dy := finish.y - start.y
  let length := Number.Binary32.hypot dx dy
  if length == 0.0 then none
  else
    let cross := (p.x - start.x) * dy - (p.y - start.y) * dx
    some (cross.abs / length)

end Point

end PageText
