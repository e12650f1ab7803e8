import PageText.Graphics.State

/-!
# Events

Each shown string becomes one event: its glyphs, the graphics state and the text
matrix in effect before the text position moved past it, and the marked content
around it. Everything a listener can ask about it is computed from these.
-/

namespace PageText

/-- The marked content around a shown string. -/
structure MarkedContext where
  /-- The tag of the innermost sequence. -/
  tag : Option String
  /-- The identifier of the innermost sequence that has one. -/
  mcid : Option Int
  /-- Whether any sequence around it is tagged as an artifact. -/
  inArtifact : Bool

/-- One shown string. -/
structure Event where
  /-- The glyphs of the string. -/
  glyphs : List Font.Glyph
  /-- The graphics state. -/
  state : GraphicsState
  /-- The text matrix at the start of the string. -/
  textMatrix : Matrix
  /-- The marked content around it. -/
  marked : MarkedContext

namespace Event

/-- The text of the string. -/
def text (event : Event) : String := Font.Glyph.textOf event.glyphs

/-- The advance of the string in text space. -/
def width (event : Event) : Float32 := event.state.advance event.glyphs

/-- The transform from text space to user space. -/
def toUser (event : Event) : Matrix := event.textMatrix.followedBy event.state.ctm

/-- The start of the baseline in user space. -/
def start (event : Event) : Point := event.toUser.onPoint 0.0 0.0

/-- The end of the baseline in user space. -/
def finish (event : Event) : Point := event.toUser.onPoint event.width 0.0

/-- The glyph by which the width of a space is measured; word spacing applies to it
whatever the kind of font. -/
def spaceGlyph (font : Font) : Font.Glyph := ⟨0x20, " ", font.spaceWidth, true⟩

/-- The width of one space in user space; zero without a font. -/
def singleSpaceWidth (event : Event) : Float32 :=
  match event.state.font with
  | none => 0.0
  | some font => (event.toUser.onVector (event.state.advance [spaceGlyph font]) 0.0).length

/-- Whether the string lies in an artifact. -/
def isArtifact (event : Event) : Bool := event.marked.inArtifact

/-- Whether the string is painted. -/
def isVisible (event : Event) : Bool := event.state.renderMode.isVisible

end Event

end PageText
