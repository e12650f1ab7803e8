import PageText.Extract.Options
import PageText.Geometry.Point

/-!
# Words and sections

A word has a baseline and the marking of the content that showed it. Consecutive
words of one marking form a section; the text of a page is its sections in order,
with their tags around them where markup is asked for.
-/

namespace PageText.Extract

/-- The marking of shown content. -/
structure Marking where
  /-- The innermost tag. -/
  tag : Option String
  /-- The nearest identifier. -/
  mcid : Option Int
  deriving DecidableEq

/-- A word. -/
structure Word where
  /-- Its text. -/
  text : String
  /-- The start of its baseline. -/
  start : Point
  /-- The end of its baseline. -/
  finish : Point
  /-- The marking of its content. -/
  marking : Marking
  /-- Whether it starts a line, seen from the word before it. -/
  lineBreakBefore : Bool

/-- Consecutive words of one marking. -/
structure Section where
  /-- The marking they share. -/
  marking : Marking
  /-- Their texts with separators between them. -/
  text : String
  deriving DecidableEq

namespace Word

/-- What is written before a word that follows another one. -/
def separator (options : Options) (word : Word) : String :=
  if word.lineBreakBefore then options.lineSeparator else " "

/-- The sections of a section begun and the words after it. -/
def sectionsFrom (options : Options) (begun : Section) : List Word → List Section
  | [] => [begun]
  | word :: rest =>
    if word.marking = begun.marking then
      sectionsFrom options
        { begun with text := begun.text ++ word.separator options ++ word.text } rest
    else begun :: sectionsFrom options ⟨word.marking, word.text⟩ rest

/-- The sections of a word sequence. -/
def sections (options : Options) : List Word → List Section
  | [] => []
  | word :: rest => sectionsFrom options ⟨word.marking, word.text⟩ rest

/-- The tag that opens a section; nothing without markup or without a tag. -/
def openTag (markup : Bool) (marking : Marking) : String :=
  match markup, marking.tag with
  | true, some tag => "<" ++ tag ++ ">"
  | _, _ => ""

/-- The tag that closes a section. -/
def closeTag (markup : Bool) (marking : Marking) : String :=
  match markup, marking.tag with
  | true, some tag => "</" ++ tag ++ ">"
  | _, _ => ""

/-- The text of the words that follow one of the given marking. -/
def textFrom (options : Options) (markup : Bool) (previous : Marking) : List Word → String
  | [] => closeTag markup previous
  | word :: rest =>
    let tail := word.text ++ textFrom options markup word.marking rest
    if word.marking = previous then word.separator options ++ tail
    else closeTag markup previous ++ word.separator options ++ openTag markup word.marking ++ tail

/-- The text of a word sequence. -/
def joinText (options : Options) (markup : Bool) : List Word → String
  | [] => ""
  | word :: rest =>
    openTag markup word.marking ++ word.text ++ textFrom options markup word.marking rest

end Word

end PageText.Extract
