import PageText.Graphics.Stack
import PageText.Interpreter.Event
import PageText.Resources

/-!
# The state of a stream

While a stream runs there are the saved graphics states, the text position inside a
text object, the open marked-content sequences, and the resources that names refer
to. Limits and the registry do not change during a run and are kept apart.
-/

namespace PageText

/-- Where text goes next; exists only inside a text object. -/
structure TextPosition where
  /-- The matrix of the next glyph. -/
  text : Matrix
  /-- The matrix of the start of the line. -/
  line : Matrix

namespace TextPosition

/-- The position at the start of a text object. -/
def origin : TextPosition := ⟨.identity, .identity⟩

/-- Start a line at the given distance from the start of the current one. -/
def startLine (position : TextPosition) (x y : Float32) : TextPosition :=
  let line := (Matrix.translation x y).followedBy position.line
  ⟨line, line⟩

/-- Move on within the line. -/
def shift (position : TextPosition) (x : Float32) : TextPosition :=
  { position with text := (Matrix.translation x 0.0).followedBy position.text }

end TextPosition

/-- An open marked-content sequence. -/
structure MarkedSequence where
  /-- Its tag. -/
  tag : String
  /-- Its identifier, if its properties give one. -/
  mcid : Option Int
  deriving DecidableEq

/-- The tag of what does not belong to the text of the page. -/
def MarkedSequence.artifactTag : String := "Artifact"

/-- The marked content that open sequences make, the innermost one first. -/
def MarkedContext.ofSequences (sequences : List MarkedSequence) : MarkedContext where
  tag := sequences.head?.map MarkedSequence.tag
  mcid := sequences.findSome? MarkedSequence.mcid
  inArtifact := sequences.any fun sequence => sequence.tag == MarkedSequence.artifactTag

/-- What changes while a stream runs. -/
structure StreamState where
  /-- The graphics states. -/
  stack : GraphicsStack
  /-- The text position, inside a text object. -/
  position : Option TextPosition
  /-- The resources that names refer to; absent before a stream has been started. -/
  resources : Option Resources
  /-- The open marked-content sequences, the innermost one first. -/
  marked : List MarkedSequence

namespace StreamState

/-- The state before a stream is started. -/
def idle (base : GraphicsState) : StreamState := ⟨.ofBase base, none, none, []⟩

/-- The state at the start of a stream. -/
def start (base : GraphicsState) (resources : Resources) : StreamState :=
  { idle base with resources := some resources }

/-- The current graphics state. -/
def graphics (state : StreamState) : GraphicsState := state.stack.top

/-- The resources that names refer to. -/
def activeResources (state : StreamState) : Resources := state.resources.getD .empty

/-- Change the current graphics state. -/
def modifyGraphics (state : StreamState) (change : GraphicsState → GraphicsState) :
    StreamState :=
  { state with stack := state.stack.modifyTop change }

/-- The marked content around what is shown next. -/
def markedContext (state : StreamState) : MarkedContext := .ofSequences state.marked

/-- The state in which a form starts: the caller's graphics state with the form's
transform before it, no text object, and a copy of the open sequences. -/
def enterForm (state : StreamState) (matrix : Matrix) (own : Option Resources) :
    StreamState where
  stack := .ofBase { state.graphics with ctm := matrix.followedBy state.graphics.ctm }
  position := none
  resources := some (own.getD state.activeResources)
  marked := state.marked

end StreamState

end PageText
