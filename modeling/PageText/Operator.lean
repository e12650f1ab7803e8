import PageText.Error

/-!
# Operators and their registration

Every operator that matters to text is one kind of `Operator`. Which mnemonic
stands for which kind is data: a registry, whose default lists each kind under its
standard mnemonic. Mnemonics outside the registry mean nothing to the interpreter.
-/

namespace PageText

/-- What an operator does. -/
inductive Operator where
  /-- Save the graphics state. -/
  | saveState
  /-- Return to the graphics state saved last. -/
  | restoreState
  /-- Apply a transform before the current one. -/
  | concatMatrix
  /-- Take over a named set of parameters. -/
  | setParameters
  /-- Set the space after every glyph. -/
  | setCharSpacing
  /-- Set the space after word spaces. -/
  | setWordSpacing
  /-- Set the horizontal stretch in percent. -/
  | setHorizontalScaling
  /-- Set the distance between lines. -/
  | setLeading
  /-- Select a font and its size. -/
  | setFont
  /-- Set how glyphs are painted. -/
  | setRenderMode
  /-- Set the shift of the baseline. -/
  | setRise
  /-- Open a text object. -/
  | beginText
  /-- Close the text object. -/
  | endText
  /-- Start a line at a distance from the current one. -/
  | moveText
  /-- Do the same, and set the leading by it. -/
  | moveTextSetLeading
  /-- Place the text by a matrix. -/
  | setTextMatrix
  /-- Start the next line. -/
  | nextLine
  /-- Show a string. -/
  | showText
  /-- Show strings with adjustments between them. -/
  | showTextArray
  /-- Start the next line and show a string. -/
  | nextLineShowText
  /-- Set both spacings, start the next line and show a string. -/
  | nextLineShowTextSpaced
  /-- Invoke a named external object. -/
  | invokeXObject
  /-- Open a marked-content sequence with a tag. -/
  | beginMarkedContent
  /-- Open a marked-content sequence with a tag and properties. -/
  | beginMarkedContentWithProperties
  /-- Close the marked-content sequence opened last. -/
  | endMarkedContent
  deriving DecidableEq, Repr

namespace Operator

/-- All kinds, in the order in which the default registry lists them. -/
def all : List Operator :=
  [.saveState, .restoreState, .concatMatrix, .setParameters, .setCharSpacing,
    .setWordSpacing, .setHorizontalScaling, .setLeading, .setFont, .setRenderMode, .setRise,
    .beginText, .endText, .moveText, .moveTextSetLeading, .setTextMatrix, .nextLine,
    .showText, .showTextArray, .nextLineShowText, .nextLineShowTextSpaced, .invokeXObject,
    .beginMarkedContent, .beginMarkedContentWithProperties, .endMarkedContent]

/-- The standard mnemonic of a kind. -/
def mnemonic : Operator → String
  | saveState => "q"
  | restoreState => "Q"
  | concatMatrix => "cm"
  | setParameters => "gs"
  | setCharSpacing => "Tc"
  | setWordSpacing => "Tw"
  | setHorizontalScaling => "Tz"
  | setLeading => "TL"
  | setFont => "Tf"
  | setRenderMode => "Tr"
  | setRise => "Ts"
  | beginText => "BT"
  | endText => "ET"
  | moveText => "Td"
  | moveTextSetLeading => "TD"
  | setTextMatrix => "Tm"
  | nextLine => "T*"
  | showText => "Tj"
  | showTextArray => "TJ"
  | nextLineShowText => "'"
  | nextLineShowTextSpaced => "\""
  | invokeXObject => "Do"
  | beginMarkedContent => "BMC"
  | beginMarkedContentWithProperties => "BDC"
  | endMarkedContent => "EMC"

/-- The label of a kind, as registrations name it. -/
def label : Operator → String
  | saveState => "SaveState"
  | restoreState => "RestoreState"
  | concatMatrix => "ConcatMatrix"
  | setParameters => "SetExtGState"
  | setCharSpacing => "SetCharSpacing"
  | setWordSpacing => "SetWordSpacing"
  | setHorizontalScaling => "SetHorizontalScaling"
  | setLeading => "SetLeading"
  | setFont => "SetFont"
  | setRenderMode => "SetRenderMode"
  | setRise => "SetRise"
  | beginText => "BeginText"
  | endText => "EndText"
  | moveText => "MoveText"
  | moveTextSetLeading => "MoveTextSetLeading"
  | setTextMatrix => "SetTextMatrix"
  | nextLine => "NextLine"
  | showText => "ShowText"
  | showTextArray => "ShowTextArray"
  | nextLineShowText => "NextLineShowText"
  | nextLineShowTextSpaced => "NextLineShowTextSpaced"
  | invokeXObject => "InvokeXObject"
  | beginMarkedContent => "BeginMarkedContent"
  | beginMarkedContentWithProperties => "BeginMarkedContentWithProperties"
  | endMarkedContent => "EndMarkedContent"

/-- The kinds that make sense only inside a text object. -/
def needsTextObject : Operator → Bool
  | endText | moveText | moveTextSetLeading | setTextMatrix | nextLine
  | showText | showTextArray | nextLineShowText | nextLineShowTextSpaced => true
  | _ => false

/-- The kind with a label. -/
def ofLabel? (label : String) : Option Operator := all.find? (·.label = label)

/-- Every kind is listed. -/
theorem mem_all (operator : Operator) : operator ∈ all := by
  cases operator <;> decide

end Operator

/-- Mnemonics and what they stand for, in the order of their registration. -/
structure Registry where
  /-- The registered mnemonics with their kinds. -/
  entries : List (String × Operator)
  /-- No mnemonic is registered twice. -/
  nodup : (entries.map Prod.fst).Nodup

namespace Registry

/-- The registry that knows no mnemonic. -/
def empty : Registry := ⟨[], List.nodup_nil⟩

/-- The registry of all kinds under their standard mnemonics. -/
def standard : Registry :=
  ⟨Operator.all.map fun operator => (operator.mnemonic, operator), by decide⟩

/-- What a mnemonic stands for. -/
def lookup? (registry : Registry) (mnemonic : String) : Option Operator :=
  registry.entries.lookup mnemonic

/-- A mnemonic that stands for nothing is not registered. -/
theorem notMem_of_lookup?_eq_none {registry : Registry} {mnemonic : String}
    (h : registry.lookup? mnemonic = none) : mnemonic ∉ registry.entries.map Prod.fst := by
  rw [lookup?, List.lookup_eq_none_iff] at h
  rintro listed
  obtain ⟨entry, member, same⟩ := List.mem_map.1 listed
  have := h entry member
  simp [same] at this

/-- A new mnemonic keeps the registered ones apart. -/
theorem nodup_append {registry : Registry} {mnemonic : String} {operator : Operator}
    (h : registry.lookup? mnemonic = none) :
    ((registry.entries ++ [(mnemonic, operator)]).map Prod.fst).Nodup := by
  rw [List.map_append, List.nodup_append]
  refine ⟨registry.nodup, by simp, ?_⟩
  intro a member b last same
  simp only [List.map_cons, List.map_nil, List.mem_singleton] at last
  exact notMem_of_lookup?_eq_none h (last ▸ same ▸ member)

/-- Register a mnemonic. One that is registered keeps its meaning. -/
def register (registry : Registry) (mnemonic : String) (operator : Operator) :
    Except Error Registry :=
  match h : registry.lookup? mnemonic with
  | some _ => .error (.duplicateOperator mnemonic)
  | none => .ok ⟨registry.entries ++ [(mnemonic, operator)], nodup_append h⟩

/-- Register mnemonics one after the other, starting with none. -/
def ofEntries (entries : List (String × Operator)) : Except Error Registry :=
  entries.foldlM (fun registry entry => registry.register entry.1 entry.2) empty

/-- The registered mnemonics in order. -/
def mnemonics (registry : Registry) : List String := registry.entries.map Prod.fst

end Registry

end PageText
