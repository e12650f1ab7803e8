import PageText.Font
import PageText.Geometry.Matrix
import PageText.Graphics.RenderMode

/-!
# The graphics state

The parameters that decide what text is shown and where, and the advance of a glyph
sequence under them. The text position itself belongs to the interpreter, because
it lives only inside a text object.
-/

namespace PageText

/-- The parameters that matter to text. -/
structure GraphicsState where
  /-- The transform from user space. -/
  ctm : Matrix
  /-- The selected font. -/
  font : Option Font
  /-- The font size. -/
  fontSize : Float32
  /-- Space added after every glyph. -/
  charSpacing : Float32
  /-- Space added after glyphs that are word spaces. -/
  wordSpacing : Float32
  /-- Horizontal stretch, as a fraction. -/
  horizontalScaling : Float32
  /-- Distance between lines. -/
  leading : Float32
  /-- How glyphs are painted. -/
  renderMode : Graphics.RenderMode
  /-- Shift of the baseline. -/
  rise : Float32

namespace GraphicsState

/-- The state that a page starts with. -/
def initial : GraphicsState where
  ctm := .identity
  font := none
  fontSize := 0.0
  charSpacing := 0.0
  wordSpacing := 0.0
  horizontalScaling := 1.0
  leading := 0.0
  renderMode := .fill
  rise := 0.0

/-- The advance of one glyph in text space. -/
def glyphAdvance (state : GraphicsState) (glyph : Font.Glyph) : Float32 :=
  let wordSpacing := if glyph.isWordSpace then state.wordSpacing else 0.0
  (glyph.width / 1000.0 * state.fontSize + state.charSpacing + wordSpacing) *
    state.horizontalScaling

/-- The advance of a glyph sequence: glyph advances added from left to right. The
empty sum is negative zero, which is neutral for addition. -/
def advance (state : GraphicsState) (glyphs : List Font.Glyph) : Float32 :=
  glyphs.foldl (fun sum glyph => sum + state.glyphAdvance glyph) (-0.0)

end GraphicsState

end PageText
