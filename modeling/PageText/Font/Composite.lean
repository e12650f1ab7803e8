import PageText.Font.Simple

/-!
# Fonts with two-byte codes

Codes are read as 16-bit numbers, high byte first, and select widths directly.
Without a map of its own such a font takes a code for the character of that value,
or, where its encoding says so, for a unit of UTF-16.
-/

namespace PageText.Font

/-- A font whose codes are two bytes. -/
structure CompositeFont where
  /-- The name of the font. -/
  name : String
  /-- The font's own map. -/
  toUnicode : Option ToUnicode
  /-- Whether codes are units of UTF-16. -/
  utf16Codes : Bool
  /-- The widths that differ from the default. -/
  widths : Std.TreeMap Nat Float32
  /-- The width of all other codes. -/
  defaultWidth : Float32

namespace CompositeFont

/-- A font without a map and without widths of its own. -/
def plain (name : String) : CompositeFont where
  name := name
  toUnicode := none
  utf16Codes := false
  widths := ∅
  defaultWidth := 1000.0

/-- The codes of a string; a last byte without a partner is a code by itself. -/
def codes : List UInt8 → List Nat
  | [] => []
  | [last] => [last.toNat]
  | high :: low :: rest => (high.toNat * 256 + low.toNat) :: codes rest

/-- The text of a single code that is a character. -/
def scalarText (code : Nat) : String := String.ofList (GlyphName.ofScalar? code).toList

/-- The texts of codes that are units of UTF-16, one text for each code: the text
of a surrogate pair stands with its first code. -/
def unitTexts : List Nat → List String
  | [] => []
  | [last] => [Text.Utf16.textOf [last.toUInt16]]
  | first :: second :: rest =>
    if Text.Utf16.isHigh first.toUInt16 && Text.Utf16.isLow second.toUInt16 then
      Text.Utf16.textOf [first.toUInt16, second.toUInt16] :: "" :: unitTexts rest
    else Text.Utf16.textOf [first.toUInt16] :: unitTexts (second :: rest)

/-- The text of each code. -/
def texts (font : CompositeFont) (codes : List Nat) : List String :=
  match font.toUnicode with
  | some map => codes.map fun code => map[code]?.getD ""
  | none => if font.utf16Codes then unitTexts codes else codes.map scalarText

/-- The width of a code. -/
def codeWidth (font : CompositeFont) (code : Nat) : Float32 :=
  font.widths[code]?.getD font.defaultWidth

/-- The glyphs of a string; word spacing applies to none of them. -/
def decode (font : CompositeFont) (bytes : List UInt8) : List Glyph :=
  let codes := codes bytes
  codes.zipWith (fun code text => ⟨code, text, font.codeWidth code, false⟩) (font.texts codes)

/-- Codes of widths are numbers below this bound. -/
def codeBound : Nat := 0x100000000

/-- Ranges of more codes than this set no widths. -/
def rangeLimit : Nat := 0x10000

/-- The code held by an object. -/
def code? (o : Object) : Option Nat := do
  let n ← o.asInt?
  if 0 ≤ n && n < codeBound then some n.toNat else none

/-- The widths of consecutive codes from one on; what is no number leaves the width
of its code as it is. -/
def listWidths (first : Nat) : List Object → List (Nat × Float32)
  | [] => []
  | item :: rest =>
    if first < codeBound then
      match item.asNumber? with
      | some width => (first, width) :: listWidths (first + 1) rest
      | none => listWidths (first + 1) rest
    else []

/-- One width for all codes of a range. -/
def rangeWidths (first : Nat) (last width : Object) : List (Nat × Float32) :=
  match code? last, width.asNumber? with
  | some last, some width =>
    if first ≤ last && last - first < rangeLimit then
      (List.range (last - first + 1)).map fun offset => (first + offset, width)
    else []
  | _, _ => []

/-- All widths of a width array, in order. An entry is a code and an array of widths,
or two codes and one width; an item that starts neither is passed over. -/
def arrayWidths : List Object → List (Nat × Float32)
  | [] => []
  | [_] => []
  | [start, second] =>
    match code? start, second with
    | some first, .array items => listWidths first items
    | _, _ => []
  | start :: second :: third :: rest =>
    match code? start with
    | none => arrayWidths (second :: third :: rest)
    | some first =>
      match second with
      | .array items => listWidths first items ++ arrayWidths (third :: rest)
      | last => rangeWidths first last third ++ arrayWidths rest

/-- Set widths one after the other. -/
def setWidths (widths : List (Nat × Float32)) (map : Std.TreeMap Nat Float32) :
    Std.TreeMap Nat Float32 :=
  widths.foldl (fun map entry => map.insert entry.1 entry.2) map

/-- Whether an encoding name says that codes are units of UTF-16. -/
def isUtf16Encoding (name : String) : Bool :=
  let text := name.toList
  "Uni".toList.isPrefixOf text &&
    ((Text.Search.breakOn? "UCS2".toList text).isSome ||
      (Text.Search.breakOn? "UTF16".toList text).isSome)

/-- The widths that the descendant of a font dictionary gives: its array and its
default. -/
def loadWidths (resolver : Resolver) (descendant : Dict) :
    Except Error (Std.TreeMap Nat Float32 × Float32) := do
  let default := ((descendant.get? "DW").bind Object.asNumber?).getD 1000.0
  match ← descendant.resolve? "W" resolver with
  | some (.array items) =>
    let items ← items.mapM (Object.resolve resolver)
    pure (setWidths (arrayWidths items) ∅, default)
  | _ => pure (∅, default)

/-- The font of a font dictionary. -/
def load (inflater : Inflater) (resolver : Resolver) (dict : Dict) :
    Except Error CompositeFont := do
  let name := SimpleFont.nameOf dict
  let utf16Codes := match ← dict.resolve? "Encoding" resolver with
    | some (.name encoding) => isUtf16Encoding encoding
    | _ => false
  let (widths, default) ← match ← dict.resolve? "DescendantFonts" resolver with
    | none => pure (∅, 1000.0)
    | some (.array (first :: _)) => do
      let descendant ← first.resolve resolver
      match descendant.asDict? with
      | some entries => loadWidths resolver entries
      | none => throw (.unusableFont s!"{name}: descendant is {descendant.typeName}")
    | some _ => throw (.unusableFont s!"{name}: empty /DescendantFonts")
  let toUnicode ← SimpleFont.loadToUnicode inflater resolver dict
  pure ⟨name, toUnicode, utf16Codes, widths, default⟩

end CompositeFont

end PageText.Font
