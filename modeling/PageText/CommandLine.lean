import PageText.CommandLine.EventLine
import PageText.CommandLine.ReadFailure
import PageText.CommandLine.Request
import PageText.Extract.MarkedText
import PageText.Interpreter.Processor

/-!
# The command line

Text or events of page content without a document around it. There are no resources,
so one font of fixed width stands in for every font that the content selects. What a
run leads to is a value; reading the input and writing the output belong to
`PageText.Main`.
-/

namespace PageText.CommandLine

/-- What a run of the program leads to. -/
structure Report where
  /-- The exit code. -/
  code : UInt8
  /-- What goes to standard output. -/
  output : String
  /-- What goes to standard error. -/
  complaint : String
  deriving DecidableEq

namespace Report

/-- Success with lines of output. -/
def success (lines : List String) : Report := ⟨0, String.join (lines.map (· ++ "\n")), ""⟩

/-- Failure with a message. -/
def failure (code : UInt8) (message : String) : Report := ⟨code, "", "Error: " ++ message ++ "\n"⟩

end Report

/-- The message about arguments without an input. -/
def usage : String := "usage: extract_content_text <content-file> [--events] [options]"

/-- The font that stands in for all others. -/
def standIn : Font :=
  .simple { Font.SimpleFont.plain "Courier" .winAnsi with defaultWidth := 600.0 }

/-- The name that an operation selects a font by, if it does. -/
def selectedFont? (operation : Operation) : Option String :=
  if operation.operator = "Tf" then operation.operands.head?.bind Object.asName? else none

/-- Resources in which every font selected by an operation is the stand-in. -/
def standInResources (operations : List Operation) : Resources :=
  { ResourceTable.empty with
    fonts := (operations.filterMap selectedFont?).map fun name => (name, standIn) }

/-- Run content with a listener, which comes back with what it received. -/
def listen {L : Type} [Listener L] (limits : Limits) (content : List UInt8) (listener : L) :
    Except Error L :=
  let operations := Operation.readAll content
  let processor := Processor.create ⟨.standard, limits⟩ .initial listener
  match processor.processOperations operations (standInResources operations) with
  | (_, some error) => .error error
  | (after, none) => .ok after.listener

/-- The lines that a request asks for. -/
def lines (request : Request) (content : List UInt8) : Except Error (List String) :=
  if request.events then
    (listen request.limits content Collector.empty).map fun collector =>
      collector.events.map EventLine.write
  else if request.markup then
    (listen request.limits content (Extract.MarkedText.empty request.options true)).map
      fun extractor => [extractor.text]
  else
    (listen request.limits content (Extract.PlainText.empty request.options)).map
      fun extractor => [extractor.text]

/-- The report on the content of an input. -/
def reportOn (request : Request) (content : List UInt8) : Report :=
  match lines request content with
  | .ok lines => .success lines
  | .error error => .failure 1 error.message

/-- Run the program. `read` gives the content of a path or says why it cannot be read;
it is asked once at most. -/
def run {m : Type → Type} [Monad m] (read : String → m (Except ReadFailure (List UInt8)))
    (arguments : List String) : m Report := do
  match Request.ofArguments arguments with
  | .error error => pure (.failure 2 error.message)
  | .ok request =>
    match request.input with
    | none => pure (.failure 1 usage)
    | some path =>
      match ← read path with
      | .error failure => pure (.failure 1 failure.message)
      | .ok content => pure (reportOn request content)

end PageText.CommandLine
