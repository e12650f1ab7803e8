import PageText.Extract.Baseline
import PageText.Extract.Options
import PageText.Interpreter.Processor

/-!
# Plain text

The extractor writes the text of each event after what it wrote before, and between
them a line separator, a space or nothing. A space is written only where both sides
show something there and neither is a space already. Every event that is kept
becomes the last baseline, also when it shows nothing.
-/

namespace PageText.Extract

/-- A listener that writes plain text. -/
structure PlainText where
  /-- How strings are joined. -/
  options : Options
  /-- What has been written. -/
  text : String
  /-- The baseline of the last event kept. -/
  last : Option Baseline

namespace PlainText

/-- An extractor that has written nothing. -/
def empty (options : Options) : PlainText := ⟨options, "", none⟩

/-- Whether the options keep an event. -/
def keeps (options : Options) (event : Event) : Bool :=
  !options.skipInvisible || event.isVisible

/-- Whether a text begins with a space. -/
def startsWithSpace (text : String) : Bool := text.front? == some ' '

/-- Whether a text ends with a space. -/
def endsWithSpace (text : String) : Bool := text.back? == some ' '

/-- Whether a space may stand between what has been written and a text. -/
def admitsSpace (written text : String) : Bool :=
  !text.isEmpty && !startsWithSpace text && !written.isEmpty && !endsWithSpace written

/-- What is written between the text so far and the text of an event. -/
def separator (extractor : PlainText) (event : Event) : String :=
  match extractor.last with
  | none => ""
  | some last =>
    if last.startsNewLine event.start extractor.options.lineBreakThreshold then
      extractor.options.lineSeparator
    else if admitsSpace extractor.text event.text &&
        event.singleSpaceWidth * extractor.options.spaceRatio < last.gap event.start then " "
    else ""

/-- Write the text of an event, unless the options drop it. -/
def receive (extractor : PlainText) (event : Event) : PlainText :=
  if keeps extractor.options event then
    { extractor with
      text := extractor.text ++ extractor.separator event ++ event.text
      last := some (.ofEvent event) }
  else extractor

instance : Listener PlainText where
  reset extractor := empty extractor.options
  receive := receive

end PlainText

end PageText.Extract
