import PageText.Interpreter.Instruction
import PageText.Interpreter.State
import PageText.Operation

/-!
# Running a stream

An operation changes the state, delivers events, and may fail; a failure ends the
stream, and what was delivered before it stays delivered. An outcome therefore
always carries a state and events, whether or not there is an error. Forms run
within forms up to a configured depth, each with its own count of operations.
-/

namespace PageText

/-- Bounds and switches of a run. -/
structure Limits where
  /-- The number of operations that one stream may have; absent means no bound. -/
  maxOperations : Option Nat
  /-- How deep forms may nest. -/
  maxFormDepth : Nat
  /-- Whether forms are run at all. -/
  processForms : Bool
  deriving DecidableEq

/-- The limits without configuration. -/
def Limits.default : Limits := ⟨none, 8, true⟩

/-- What does not change during a run. -/
structure Setup where
  /-- The operators. -/
  registry : Registry
  /-- Bounds and switches. -/
  limits : Limits

/-- What running something leads to. -/
structure Outcome where
  /-- The state afterwards, also after a failure. -/
  state : StreamState
  /-- The events delivered, in order. -/
  events : List Event
  /-- Why it failed, if it did. -/
  error : Option Error

namespace Outcome

/-- Success without events. -/
def done (state : StreamState) : Outcome := ⟨state, [], none⟩

/-- Failure without events. -/
def failed (state : StreamState) (error : Error) : Outcome := ⟨state, [], some error⟩

/-- Go on unless there is an error. -/
def andThen (first : Outcome) (next : StreamState → Outcome) : Outcome :=
  match first.error with
  | some _ => first
  | none =>
    let second := next first.state
    { second with events := first.events ++ second.events }

end Outcome

namespace StreamState

/-- The complaint about a text operator without a text object. -/
def outsideText (mnemonic : String) : Error :=
  .textObjectViolation mnemonic "outside of a BT/ET text object"

/-- Change the text position. -/
def withPosition (state : StreamState) (mnemonic : String)
    (change : TextPosition → TextPosition) : Outcome :=
  match state.position with
  | none => .failed state (outsideText mnemonic)
  | some position => .done { state with position := some (change position) }

/-- Start a line at a distance from the current one. -/
def moveText (state : StreamState) (mnemonic : String) (x y : Float32) : Outcome :=
  state.withPosition mnemonic fun position => position.startLine x y

/-- Start the next line, below the current one by the leading. -/
def nextLine (state : StreamState) (mnemonic : String) : Outcome :=
  state.moveText mnemonic 0.0 (-state.graphics.leading)

/-- Move back by thousandths of text space. -/
def adjust (state : StreamState) (mnemonic : String) (n : Float32) : Outcome :=
  let x := -n / 1000.0 * state.graphics.fontSize * state.graphics.horizontalScaling
  state.withPosition mnemonic fun position => position.shift x

/-- Show a string: deliver its event and move past it. -/
def showText (state : StreamState) (mnemonic : String) (bytes : List UInt8) : Outcome :=
  match state.graphics.font with
  | none => .failed state (.missingResource "Font" "<unset>")
  | some font =>
    match state.position with
    | none => .failed state (outsideText mnemonic)
    | some position =>
      let event : Event :=
        { glyphs := font.decode bytes
          state := state.graphics
          textMatrix := position.text
          marked := state.markedContext }
      { state := { state with position := some (position.shift event.width) }
        events := [event]
        error := none }

/-- Show one element of a text array: a string, or an adjustment. -/
def showElement (state : StreamState) (mnemonic : String) (element : Object) : Outcome :=
  match element with
  | .str bytes => state.showText mnemonic bytes
  | other =>
    match other.asNumber? with
    | some n => state.adjust mnemonic n
    | none =>
      .failed state (.malformedOperands mnemonic s!"array element is {other.typeName}")

/-- Show the elements of a text array in order. -/
def showElements (mnemonic : String) : List Object → StreamState → Outcome
  | [], state => .done state
  | element :: rest, state =>
    (state.showElement mnemonic element).andThen (showElements mnemonic rest)

/-- The identifier in the properties of a marked-content sequence, which are given
in place or by the name of a property list. -/
def mcid? (state : StreamState) (properties : Object) : Option Int :=
  let entries := match properties with
    | .dict entries => some entries
    | .name name => state.activeResources.properties? name
    | _ => none
  (entries.bind fun entries => Dict.get? entries "MCID").bind Object.asInt?

/-- Open a marked-content sequence. -/
def openMarked (state : StreamState) (tag : String) (mcid : Option Int) : Outcome :=
  .done { state with marked := ⟨tag, mcid⟩ :: state.marked }

/-- Select a font of the resources. -/
def setFont (state : StreamState) (name : String) (size : Float32) : Outcome :=
  match state.activeResources.font? name with
  | none => .failed state (.missingResource "Font" name)
  | some font =>
    .done (state.modifyGraphics fun g => { g with font := some font, fontSize := size })

/-- Take over a parameter set of the resources. -/
def setParameters (state : StreamState) (name : String) : Outcome :=
  match state.activeResources.parameters? name with
  | none => .failed state (.missingResource "ExtGState" name)
  | some ⟨none⟩ => .done state
  | some ⟨some (font, size)⟩ =>
    .done (state.modifyGraphics fun g => { g with font := some font, fontSize := size })

end StreamState

/-- A way to run the operations of a form; absent where no form may be entered. -/
abbrev FormRunner := Option (StreamState → List Operation → Outcome)

namespace Setup

/-- Invoke an external object. A form leaves the state of its caller as it was and
only delivers events; anything but a form is passed over. -/
def invokeXObject (setup : Setup) (forms : FormRunner) (state : StreamState) (name : String) :
    Outcome :=
  match state.activeResources.xobject? name with
  | none => .failed state (.missingResource "XObject" name)
  | some (.other _) => .done state
  | some (.form content matrix own) =>
    if setup.limits.processForms then
      match forms with
      | none => .failed state (.recursionLimitExceeded setup.limits.maxFormDepth)
      | some run =>
        { run (state.enterForm matrix own) (Operation.readAll content) with state := state }
    else .done state

/-- Do what an instruction asks for. -/
def execute (setup : Setup) (forms : FormRunner) (mnemonic : String) (state : StreamState) :
    Instruction → Outcome
  | .saveState => .done { state with stack := state.stack.push }
  | .restoreState =>
    match state.stack.pop with
    | .ok stack => .done { state with stack := stack }
    | .error error => .failed state error
  | .concatMatrix m => .done (state.modifyGraphics fun g => { g with ctm := m.followedBy g.ctm })
  | .setParameters name => state.setParameters name
  | .setCharSpacing x => .done (state.modifyGraphics fun g => { g with charSpacing := x })
  | .setWordSpacing x => .done (state.modifyGraphics fun g => { g with wordSpacing := x })
  | .setHorizontalScaling percent =>
    .done (state.modifyGraphics fun g => { g with horizontalScaling := percent / 100.0 })
  | .setLeading x => .done (state.modifyGraphics fun g => { g with leading := x })
  | .setFont name size => state.setFont name size
  | .setRenderMode mode => .done (state.modifyGraphics fun g => { g with renderMode := mode })
  | .setRise x => .done (state.modifyGraphics fun g => { g with rise := x })
  | .beginText =>
    match state.position with
    | some _ => .failed state (.textObjectViolation mnemonic "nested BT")
    | none => .done { state with position := some .origin }
  | .endText => .done { state with position := none }
  | .moveText x y => state.moveText mnemonic x y
  | .moveTextSetLeading x y =>
    (state.modifyGraphics fun g => { g with leading := -y }).moveText mnemonic x y
  | .setTextMatrix m => .done { state with position := some ⟨m, m⟩ }
  | .nextLine => state.nextLine mnemonic
  | .showText bytes => state.showText mnemonic bytes
  | .showTextArray elements => StreamState.showElements mnemonic elements state
  | .nextLineShowText bytes =>
    (state.nextLine mnemonic).andThen fun state => state.showText mnemonic bytes
  | .nextLineShowTextSpaced word char bytes =>
    let spaced := state.modifyGraphics fun g => { g with wordSpacing := word, charSpacing := char }
    (spaced.nextLine mnemonic).andThen fun state => state.showText mnemonic bytes
  | .invokeXObject name => setup.invokeXObject forms state name
  | .beginMarkedContent tag => state.openMarked tag none
  | .beginMarkedContentWithProperties tag properties =>
    state.openMarked tag (state.mcid? properties)
  | .endMarkedContent => .done { state with marked := state.marked.tail }

/-- Run one operation: look its mnemonic up, see to it that a text operator stands in
a text object, read its operands, and execute it. Unknown mnemonics do nothing. -/
def step (setup : Setup) (forms : FormRunner) (state : StreamState) (operation : Operation) :
    Outcome :=
  match setup.registry.lookup? operation.operator with
  | none => .done state
  | some operator =>
    if operator.needsTextObject && state.position.isNone then
      .failed state (StreamState.outsideText operation.operator)
    else
      match Instruction.read operation.operator operator operation.operands with
      | .error error => .failed state error
      | .ok instruction => setup.execute forms operation.operator state instruction

/-- Whether one more operation after `count` others is too much. -/
def exceeds? (setup : Setup) (count : Nat) : Option Error :=
  match setup.limits.maxOperations with
  | none => none
  | some limit => if limit < count + 1 then some (.operationLimitExceeded limit) else none

/-- Run operations in order, `count` others having been run before. -/
def runFrom (setup : Setup) (forms : FormRunner) : Nat → StreamState → List Operation → Outcome
  | _, state, [] => .done state
  | count, state, operation :: rest =>
    match setup.exceeds? count with
    | some error => .failed state error
    | none =>
      (setup.step forms state operation).andThen fun state =>
        runFrom setup forms (count + 1) state rest

/-- The runner of forms that may themselves nest the given number of levels deep. -/
def formsAt (setup : Setup) : Nat → FormRunner
  | 0 => none
  | levels + 1 =>
    some fun state operations => setup.runFrom (formsAt setup levels) 0 state operations

/-- The runner of forms for a page. -/
def pageForms (setup : Setup) : FormRunner := setup.formsAt setup.limits.maxFormDepth

/-- Run one operation of a page. -/
def invoke (setup : Setup) (state : StreamState) (operation : Operation) : Outcome :=
  setup.step setup.pageForms state operation

/-- Run the operations of a page. -/
def run (setup : Setup) (state : StreamState) (operations : List Operation) : Outcome :=
  setup.runFrom setup.pageForms 0 state operations

end Setup

end PageText
