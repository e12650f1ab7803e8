import PageText.Interpreter.Event

/-!
# Baselines

A shown string lies on a baseline. Whether the next string starts a new line is
decided by how far its start is from the line through the last baseline; one that
has no direction is compared by the distance of the starts.
-/

namespace PageText.Extract

/-- Where a string starts and ends. -/
structure Baseline where
  /-- Its start in user space. -/
  start : Point
  /-- Its end in user space. -/
  finish : Point

namespace Baseline

/-- The baseline of an event. -/
def ofEvent (event : Event) : Baseline := ⟨event.start, event.finish⟩

/-- How far a point is off the baseline. -/
def offset (baseline : Baseline) (point : Point) : Float32 :=
  (point.distanceToLine? baseline.start baseline.finish).getD (point.distance baseline.start)

/-- Whether a string that starts at a point starts a new line. -/
def startsNewLine (last : Baseline) (start : Point) (threshold : Float32) : Bool :=
  threshold < last.offset start

/-- The gap between the end of the baseline and a point. -/
def gap (last : Baseline) (start : Point) : Float32 := last.finish.distance start

end Baseline

end PageText.Extract
