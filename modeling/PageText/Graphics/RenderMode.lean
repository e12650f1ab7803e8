/-!
# Text rendering modes

How glyphs are painted, numbered from zero to seven. Only whether a mode paints at
all matters to text.
-/

namespace PageText.Graphics

/-- How glyphs are painted. -/
inductive RenderMode where
  /-- Fill the outlines. -/
  | fill
  /-- Stroke the outlines. -/
  | stroke
  /-- Fill, then stroke. -/
  | fillStroke
  /-- Neither. -/
  | invisible
  /-- Fill, and add to the clipping path. -/
  | fillClip
  /-- Stroke, and add to the clipping path. -/
  | strokeClip
  /-- Fill, stroke, and add to the clipping path. -/
  | fillStrokeClip
  /-- Add to the clipping path only. -/
  | clip
  deriving DecidableEq, Repr

namespace RenderMode

/-- The number of a mode. -/
def code : RenderMode → Nat
  | fill => 0
  | stroke => 1
  | fillStroke => 2
  | invisible => 3
  | fillClip => 4
  | strokeClip => 5
  | fillStrokeClip => 6
  | clip => 7

/-- All modes, in the order of their numbers. -/
def all : List RenderMode :=
  [fill, stroke, fillStroke, invisible, fillClip, strokeClip, fillStrokeClip, clip]

/-- The mode of a number, for numbers from zero to seven. -/
def ofCode? (n : Int) : Option RenderMode := if 0 ≤ n then all[n.toNat]? else none

/-- Whether the mode paints anything. -/
def isVisible (mode : RenderMode) : Bool := mode != invisible && mode != clip

end RenderMode

end PageText.Graphics
