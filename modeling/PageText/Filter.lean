import PageText.Filter.AsciiHex
import PageText.Filter.Flate
import PageText.Object

/-!
# Stream filters

A stream may name filters that were applied to its data. Decoding undoes them in
the order in which they are named, and stops at the first one that is unknown, that
rejects its input or that gives too much. Only the filters that page content needs are
known. The filter entry of a stream is a name or an array, of which only the names count;
any other value means no filter.
-/

namespace PageText

/-- A known filter. -/
inductive Filter where
  /-- Deflated data. -/
  | flate
  /-- Hexadecimal digits. -/
  | asciiHex
  deriving DecidableEq, Repr

namespace Filter

/-- The filter of a name or of its abbreviation. -/
def ofName? (name : String) : Option Filter :=
  if name = "FlateDecode" || name = "Fl" then some .flate
  else if name = "ASCIIHexDecode" || name = "AHx" then some .asciiHex
  else none

/-- The name of a filter in full. -/
def name : Filter → String
  | flate => "FlateDecode"
  | asciiHex => "ASCIIHexDecode"

/-- The most bytes that a filter may give, so that a small stream cannot fill the memory. -/
def maxDecodedSize : Nat := 100 * 1024 * 1024

/-- The output of one filter, of whatever size. -/
def output (inflater : Inflater) : Filter → List UInt8 → Except Error (List UInt8)
  | flate => Flate.decode inflater
  | asciiHex => AsciiHex.decode

/-- Undo one filter. -/
def undo (inflater : Inflater) (filter : Filter) (data : List UInt8) :
    Except Error (List UInt8) := do
  let output ← filter.output inflater data
  if maxDecodedSize < output.length then
    throw (.undecodable s!"{filter.name} output exceeds {maxDecodedSize} bytes")
  pure output

/-- Undo the named filters in order. -/
def decodeAll (inflater : Inflater) : List String → List UInt8 → Except Error (List UInt8)
  | [], data => .ok data
  | name :: names, data =>
    match ofName? name with
    | none => .error (.unsupportedFilter name)
    | some filter => do
      let data ← filter.undo inflater data
      decodeAll inflater names data

end Filter

namespace Object

/-- The filter names in the value of a filter entry. -/
def filterNames : Object → List String
  | name text => [text]
  | array items => items.filterMap asName?
  | _ => []

/-- The decoded data of a stream. -/
def decodedData (inflater : Inflater) : Object → Except Error (List UInt8)
  | stream entries data =>
    Filter.decodeAll inflater ((Dict.get? entries "Filter").map filterNames |>.getD []) data
  | other => .error (.invalidObjectType "Stream" other.typeName)

end Object

end PageText
