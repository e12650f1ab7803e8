import PageText.Geometry.Matrix
import PageText.Graphics.RenderMode
import PageText.Object
import PageText.Operator
import PageText.Error

/-!
# Instructions

An operator with its operands read: an instruction carries numbers, names and
strings in place of objects. Reading checks the number of operands first and then
their types from left to right; all complaints about operands come from here, apart
from those about the elements of a text array.
-/

namespace PageText

/-- What an operation asks the interpreter to do. -/
inductive Instruction where
  /-- Save the graphics state. -/
  | saveState
  /-- Return to the graphics state saved last. -/
  | restoreState
  /-- Apply a transform before the current one. -/
  | concatMatrix (m : Matrix)
  /-- Take over a named set of parameters. -/
  | setParameters (name : String)
  /-- Set the space after every glyph. -/
  | setCharSpacing (x : Float32)
  /-- Set the space after word spaces. -/
  | setWordSpacing (x : Float32)
  /-- Set the horizontal stretch in percent. -/
  | setHorizontalScaling (percent : Float32)
  /-- Set the distance between lines. -/
  | setLeading (x : Float32)
  /-- Select a named font and its size. -/
  | setFont (name : String) (size : Float32)
  /-- Set how glyphs are painted. -/
  | setRenderMode (mode : Graphics.RenderMode)
  /-- Set the shift of the baseline. -/
  | setRise (x : Float32)
  /-- Open a text object. -/
  | beginText
  /-- Close the text object. -/
  | endText
  /-- Start a line at a distance from the current one. -/
  | moveText (x y : Float32)
  /-- Do the same, and set the leading by it. -/
  | moveTextSetLeading (x y : Float32)
  /-- Place the text by a matrix. -/
  | setTextMatrix (m : Matrix)
  /-- Start the next line. -/
  | nextLine
  /-- Show a string. -/
  | showText (bytes : List UInt8)
  /-- Show strings with adjustments between them. -/
  | showTextArray (elements : List Object)
  /-- Start the next line and show a string. -/
  | nextLineShowText (bytes : List UInt8)
  /-- Set both spacings, start the next line and show a string. -/
  | nextLineShowTextSpaced (wordSpacing charSpacing : Float32) (bytes : List UInt8)
  /-- Invoke a named external object. -/
  | invokeXObject (name : String)
  /-- Open a marked-content sequence. -/
  | beginMarkedContent (tag : String)
  /-- Open a marked-content sequence with properties. -/
  | beginMarkedContentWithProperties (tag : String) (properties : Object)
  /-- Close the marked-content sequence opened last. -/
  | endMarkedContent

namespace Instruction

/-- The complaint about an operand of another type. -/
def mismatch (mnemonic expected : String) (found : Object) : Error :=
  .malformedOperands mnemonic s!"expected {expected}, found {found.typeName}"

/-- The complaint about a wrong number of operands. -/
def miscount (mnemonic : String) (expected found : Nat) : Error :=
  .malformedOperands mnemonic s!"expected {expected} operands, found {found}"

/-- Read a number. -/
def number (mnemonic : String) (operand : Object) : Except Error Float32 :=
  match operand.asNumber? with
  | some x => .ok x
  | none => .error (mismatch mnemonic "a number" operand)

/-- Read a name. -/
def name (mnemonic : String) (operand : Object) : Except Error String :=
  match operand.asName? with
  | some text => .ok text
  | none => .error (mismatch mnemonic "a name" operand)

/-- Read a string. -/
def bytes (mnemonic : String) (operand : Object) : Except Error (List UInt8) :=
  match operand.asBytes? with
  | some found => .ok found
  | none => .error (mismatch mnemonic "a string" operand)

/-- Read a rendering mode. -/
def renderMode (mnemonic : String) (operand : Object) : Except Error Graphics.RenderMode :=
  match operand.asInt?.bind Graphics.RenderMode.ofCode? with
  | some mode => .ok mode
  | none => .error (.malformedOperands mnemonic "render mode must be an integer 0-7")

/-- Read the elements of a text array. -/
def elements (mnemonic : String) (operand : Object) : Except Error (List Object) :=
  match operand.asArray? with
  | some items => .ok items
  | none => .error (.malformedOperands mnemonic "expected an array")

/-- Read no operands. -/
def noOperands (mnemonic : String) (instruction : Instruction) :
    List Object → Except Error Instruction
  | [] => .ok instruction
  | operands => .error (miscount mnemonic 0 operands.length)

/-- Read one operand. -/
def oneOperand {α : Type} (mnemonic : String) (read : String → Object → Except Error α)
    (make : α → Instruction) : List Object → Except Error Instruction
  | [operand] => make <$> read mnemonic operand
  | operands => .error (miscount mnemonic 1 operands.length)

/-- Read two operands. -/
def twoOperands {α β : Type} (mnemonic : String) (first : String → Object → Except Error α)
    (second : String → Object → Except Error β) (make : α → β → Instruction) :
    List Object → Except Error Instruction
  | [a, b] => do
    let a ← first mnemonic a
    let b ← second mnemonic b
    pure (make a b)
  | operands => .error (miscount mnemonic 2 operands.length)

/-- Read the three operands of a string shown with spacing. -/
def spacedText (mnemonic : String) : List Object → Except Error Instruction
  | [word, char, string] => do
    let word ← number mnemonic word
    let char ← number mnemonic char
    let string ← bytes mnemonic string
    pure (nextLineShowTextSpaced word char string)
  | operands => .error (miscount mnemonic 3 operands.length)

/-- Read the six operands of a matrix. -/
def sixNumbers (mnemonic : String) (make : Matrix → Instruction) :
    List Object → Except Error Instruction
  | [a, b, c, d, e, f] => do
    let a ← number mnemonic a
    let b ← number mnemonic b
    let c ← number mnemonic c
    let d ← number mnemonic d
    let e ← number mnemonic e
    let f ← number mnemonic f
    pure (make ⟨a, b, c, d, e, f⟩)
  | operands => .error (miscount mnemonic 6 operands.length)

/-- Any object, as a property operand may be. -/
def anything (_ : String) (operand : Object) : Except Error Object := .ok operand

/-- The instruction of an operator and its operands. The mnemonic is the one that
stands in the content; it occurs in complaints only. -/
def read (mnemonic : String) : Operator → List Object → Except Error Instruction
  | .saveState => noOperands mnemonic saveState
  | .restoreState => noOperands mnemonic restoreState
  | .concatMatrix => sixNumbers mnemonic concatMatrix
  | .setParameters => oneOperand mnemonic name setParameters
  | .setCharSpacing => oneOperand mnemonic number setCharSpacing
  | .setWordSpacing => oneOperand mnemonic number setWordSpacing
  | .setHorizontalScaling => oneOperand mnemonic number setHorizontalScaling
  | .setLeading => oneOperand mnemonic number setLeading
  | .setFont => twoOperands mnemonic name number setFont
  | .setRenderMode => oneOperand mnemonic renderMode setRenderMode
  | .setRise => oneOperand mnemonic number setRise
  | .beginText => noOperands mnemonic beginText
  | .endText => noOperands mnemonic endText
  | .moveText => twoOperands mnemonic number number moveText
  | .moveTextSetLeading => twoOperands mnemonic number number moveTextSetLeading
  | .setTextMatrix => sixNumbers mnemonic setTextMatrix
  | .nextLine => noOperands mnemonic nextLine
  | .showText => oneOperand mnemonic bytes showText
  | .showTextArray => oneOperand mnemonic elements showTextArray
  | .nextLineShowText => oneOperand mnemonic bytes nextLineShowText
  | .nextLineShowTextSpaced => spacedText mnemonic
  | .invokeXObject => oneOperand mnemonic name invokeXObject
  | .beginMarkedContent => oneOperand mnemonic name beginMarkedContent
  | .beginMarkedContentWithProperties =>
    twoOperands mnemonic name anything beginMarkedContentWithProperties
  | .endMarkedContent => noOperands mnemonic endMarkedContent

end Instruction

end PageText
