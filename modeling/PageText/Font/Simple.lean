import PageText.Filter
import PageText.Font.Encoding
import PageText.Font.ToUnicode
import PageText.Object.Resolve

/-!
# Glyphs, and fonts with one-byte codes

A shown string becomes a sequence of glyphs. The interpreter needs of a glyph only
its text, its width and whether word spacing applies to it. The text of a code comes
from the font's map if that lists the code, else from the font's changes to its
encoding, else from the encoding. A code without text still has a width.
-/

namespace PageText.Font

/-- One glyph of a shown string. -/
structure Glyph where
  /-- The code as it stands in the string. -/
  code : Nat
  /-- The text of the code, empty when the font maps it to nothing. -/
  unicode : String
  /-- The advance width in thousandths of text space. -/
  width : Float32
  /-- Whether word spacing is added after it. -/
  isWordSpace : Bool

/-- The text of a glyph sequence. -/
def Glyph.textOf (glyphs : List Glyph) : String :=
  glyphs.foldl (fun text glyph => text ++ glyph.unicode) ""

/-- A font whose codes are single bytes. -/
structure SimpleFont where
  /-- The name of the font. -/
  name : String
  /-- The encoding that the font starts from. -/
  encoding : Encoding
  /-- Changes to the encoding, the last one for a code being the one that counts;
  a change to no character leaves the code without text. -/
  differences : List (UInt8 × Option Char)
  /-- The font's own map, which goes before the encoding. -/
  toUnicode : Option ToUnicode
  /-- The code of the first width. -/
  firstCode : Nat
  /-- The widths of consecutive codes. -/
  widths : Array Float32
  /-- The width of all other codes. -/
  defaultWidth : Float32
  /-- Factor from the font's own units to thousandths of text space. -/
  widthScale : Float32

namespace SimpleFont

/-- A font without widths and changes. -/
def plain (name : String) (encoding : Encoding) : SimpleFont where
  name := name
  encoding := encoding
  differences := []
  toUnicode := none
  firstCode := 0
  widths := #[]
  defaultWidth := 0.0
  widthScale := 1.0

/-- Change codes to the characters of glyph names, after earlier changes. -/
def withDifferences (font : SimpleFont) (names : List (UInt8 × String)) : SimpleFont :=
  { font with
    differences :=
      font.differences ++ names.map fun (code, name) => (code, GlyphName.toChar? name) }

/-- The character of a code by the changes and the encoding. -/
def encoded? (font : SimpleFont) (code : UInt8) : Option Char :=
  match font.differences.reverse.lookup code with
  | some changed => changed
  | none => font.encoding.decode code

/-- The text of a code. -/
def unicode (font : SimpleFont) (code : UInt8) : String :=
  match font.toUnicode.bind fun map => map[code.toNat]? with
  | some text => text
  | none => String.ofList (font.encoded? code).toList

/-- The width of a code. -/
def codeWidth (font : SimpleFont) (code : Nat) : Float32 :=
  let listed := if font.firstCode ≤ code then font.widths[code - font.firstCode]? else none
  listed.getD font.defaultWidth * font.widthScale

/-- The glyph of one byte; word spacing applies to the space byte. -/
def glyph (font : SimpleFont) (code : UInt8) : Glyph :=
  ⟨code.toNat, font.unicode code, font.codeWidth code.toNat, code == 0x20⟩

/-- The glyphs of a string. -/
def decode (font : SimpleFont) (bytes : List UInt8) : List Glyph := bytes.map font.glyph

/-- The glyph names of a list of changes: an integer sets the code, and each name
takes the code and moves it on by one. Names before the first integer, and names at
codes that no byte has, change nothing. -/
def differenceNames : Option Int → List Object → List (UInt8 × String)
  | _, [] => []
  | _, .int start :: rest => differenceNames (some start) rest
  | some code, .name glyph :: rest =>
    let later := differenceNames (some (code + 1)) rest
    if 0 ≤ code && code ≤ 255 then (code.toNat.toUInt8, glyph) :: later else later
  | code, _ :: rest => differenceNames code rest

/-- The fonts whose widths need not be given. -/
def standardNames : List String :=
  ["Courier", "Courier-Bold", "Courier-Oblique", "Courier-BoldOblique",
    "Helvetica", "Helvetica-Bold", "Helvetica-Oblique", "Helvetica-BoldOblique",
    "Times-Roman", "Times-Bold", "Times-Italic", "Times-BoldItalic", "Symbol", "ZapfDingbats"]

/-- The width of codes without one where the font gives no width at all. -/
def standardWidth (name : String) : Float32 :=
  if standardNames.contains name then
    if "Courier".toList.isPrefixOf name.toList then 600.0 else 500.0
  else 0.0

/-- The name in a font dictionary. -/
def nameOf (dict : Dict) : String := ((dict.get? "BaseFont").bind Object.asName?).getD "Unnamed"

/-- The encoding and its changes, from the entry of a font dictionary. An unknown
name leaves the encoding that the kind of font starts from. -/
def loadEncoding (resolver : Resolver) (start : Encoding) (dict : Dict) :
    Except Error (Encoding × List (UInt8 × String)) := do
  match ← dict.resolve? "Encoding" resolver with
  | some (.name name) => pure ((Encoding.ofName? name).getD start, [])
  | some (.dict entries) =>
    let base := ((Dict.get? entries "BaseEncoding").bind Object.asName?).bind Encoding.ofName?
    let changes := match ← Dict.resolve? entries "Differences" resolver with
      | some (.array items) => differenceNames none items
      | _ => []
    pure (base.getD start, changes)
  | _ => pure (start, [])

/-- One entry of a width list; what cannot be resolved to a number counts as zero. -/
def loadWidth (resolver : Resolver) (entry : Object) : Float32 :=
  match entry.resolve resolver with
  | .ok width => width.asNumber?.getD 0.0
  | .error _ => 0.0

/-- The width list of a font dictionary, if there is one. -/
def loadWidths (resolver : Resolver) (dict : Dict) : Except Error (Option (Array Float32)) := do
  match ← dict.resolve? "Widths" resolver with
  | some (.array items) => pure (some (items.map (loadWidth resolver)).toArray)
  | _ => pure none

/-- The width for codes outside the list that the font's descriptor gives. -/
def loadMissingWidth (resolver : Resolver) (dict : Dict) : Except Error (Option Float32) := do
  match ← dict.resolve? "FontDescriptor" resolver with
  | some (.dict descriptor) => pure ((Dict.get? descriptor "MissingWidth").bind Object.asNumber?)
  | _ => pure none

/-- The factor from the font's own units; only fonts made of page content have one
that differs from 1. -/
def loadScale (resolver : Resolver) (subtype : Option String) (dict : Dict) :
    Except Error Float32 := do
  if subtype = some "Type3" then
    match ← dict.resolve? "FontMatrix" resolver with
    | some (.array (first :: _)) =>
      pure (match first.asNumber? with
        | some sx => sx * 1000.0
        | none => 1.0)
    | _ => pure 1.0
  else pure 1.0

/-- The map of a font dictionary. A value that is no stream, or a stream that cannot
be decoded, counts as no map. -/
def loadToUnicode (inflater : Inflater) (resolver : Resolver) (dict : Dict) :
    Except Error (Option ToUnicode) := do
  match ← dict.resolve? "ToUnicode" resolver with
  | some (.stream entries data) =>
    pure (match Object.decodedData inflater (.stream entries data) with
      | .ok bytes => some (ToUnicode.ofBytes bytes)
      | .error _ => none)
  | _ => pure none

/-- The font of a font dictionary. -/
def load (inflater : Inflater) (resolver : Resolver) (dict : Dict) :
    Except Error SimpleFont := do
  let name := nameOf dict
  let subtype := (dict.get? "Subtype").bind Object.asName?
  let start := if subtype = some "TrueType" then Encoding.winAnsi else Encoding.standard
  let (encoding, changes) ← loadEncoding resolver start dict
  let firstCode := ((dict.get? "FirstChar").bind Object.asInt?).getD 0
  let widths ← loadWidths resolver dict
  let missing ← loadMissingWidth resolver dict
  let scale ← loadScale resolver subtype dict
  let toUnicode ← loadToUnicode inflater resolver dict
  let base : SimpleFont :=
    { name := name
      encoding := encoding
      differences := []
      toUnicode := toUnicode
      firstCode := if 0 ≤ firstCode && firstCode < 0x100000000 then firstCode.toNat else 0
      widths := widths.getD #[]
      defaultWidth := missing.getD (if widths.isSome then 0.0 else standardWidth name)
      widthScale := scale }
  pure (base.withDifferences changes)

end SimpleFont

end PageText.Font
