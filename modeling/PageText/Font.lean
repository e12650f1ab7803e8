import PageText.Font.Composite

/-!
# Fonts

A font turns a shown string into glyphs and gives the width of a code. The two
kinds of fonts differ in how many bytes make a code; nothing outside this module
looks at which kind a font is.
-/

namespace PageText

/-- A font of either kind. -/
inductive Font where
  /-- One-byte codes. -/
  | simple (font : Font.SimpleFont)
  /-- Two-byte codes. -/
  | composite (font : Font.CompositeFont)

namespace Font

/-- The name of the font. -/
def name : Font → String
  | simple font => font.name
  | composite font => font.name

/-- The glyphs of a string. -/
def decode : Font → List UInt8 → List Glyph
  | simple font => font.decode
  | composite font => font.decode

/-- The text of a string. -/
def text (font : Font) (bytes : List UInt8) : String := Glyph.textOf (font.decode bytes)

/-- The width of a code in thousandths of text space. -/
def codeWidth : Font → Nat → Float32
  | simple font => font.codeWidth
  | composite font => font.codeWidth

/-- The width of a space: that of code 32, or of the no-break space where that is
zero. -/
def spaceWidth (font : Font) : Float32 :=
  let width := font.codeWidth 0x20
  if width == 0.0 then font.codeWidth 0xA0 else width

/-- The font of an object, which has to be a dictionary; its subtype tells the kind. -/
def load (inflater : Inflater) (resolver : Resolver) (object : Object) : Except Error Font := do
  let resolved ← object.resolve resolver
  match resolved.asDict? with
  | none => throw (.invalidObjectType "Dictionary" resolved.typeName)
  | some dict =>
    if (dict.get? "Subtype").bind Object.asName? = some "Type0" then
      composite <$> CompositeFont.load inflater resolver dict
    else simple <$> SimpleFont.load inflater resolver dict

end Font

end PageText
