import PageText.Interpreter.Event
import PageText.Json.Writer

/-!
# Event lines

An event as a JSON object on one line. The identifier of marked content is written
only where there is one, and artifacts only are marked as such.
-/

namespace PageText.CommandLine.EventLine

open PageText.Json

/-- Write a point. -/
def point (p : Point) : String :=
  Writer.object [("x", Writer.number p.x), ("y", Writer.number p.y)]

/-- Write the name of a font. -/
def fontName (font : Option Font) : String :=
  match font with
  | some font => Writer.quoted font.name
  | none => "null"

/-- The member for the identifier of marked content. -/
def mcidMember (mcid : Option Int) : List (String × String) :=
  match mcid with
  | some n => [("mcid", toString n)]
  | none => []

/-- The member that marks an artifact. -/
def artifactMember (isArtifact : Bool) : List (String × String) :=
  if isArtifact then [("artifact", "true")] else []

/-- Write an event. -/
def write (event : Event) : String :=
  Writer.object <|
    [("text", Writer.quoted event.text),
      ("font", fontName event.state.font),
      ("font_size", Writer.number event.state.fontSize),
      ("render_mode", toString event.state.renderMode.code),
      ("baseline_start", point event.start),
      ("baseline_end", point event.finish),
      ("single_space_width", Writer.number event.singleSpaceWidth)] ++
    mcidMember event.marked.mcid ++ artifactMember event.isArtifact

end PageText.CommandLine.EventLine
