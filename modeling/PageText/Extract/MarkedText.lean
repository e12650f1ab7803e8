import PageText.Extract.Baseline
import PageText.Extract.PlainText
import PageText.Extract.Word
import PageText.Interpreter.Processor
import PageText.Text.Search

/-!
# Words by marked content

The extractor leaves artifacts out, cuts shown strings into pieces at blank glyphs,
and joins a piece to the last word where it touches it on the same line and in the
same marking. A blank glyph keeps the pieces around it apart; one at the very end
of a string keeps the next string apart from the last word.
-/

namespace PageText.Extract

/-- A part of a shown string between blank glyphs, measured in text space. -/
structure Piece where
  /-- Its text, never empty. -/
  text : String
  /-- Where it starts. -/
  start : Float32
  /-- Where it ends. -/
  finish : Float32
  /-- Whether something blank stands before it. -/
  breakBefore : Bool

namespace Piece

/-- Whether a glyph shows something blank, and nothing else. -/
def isBlank (glyph : Font.Glyph) : Bool :=
  !glyph.unicode.isEmpty && Text.Blank.allBlank glyph.unicode

/-- The end of a piece, if there is one. -/
def close (text : String) (start finish : Float32) (breakBefore : Bool) : List Piece :=
  if text.isEmpty then [] else [⟨text, start, finish, breakBefore⟩]

/-- The pieces of glyphs from the place `x` on, with a piece begun before it. A piece
without text starts anew with every glyph. -/
def cutFrom (state : GraphicsState) (text : String) (start x : Float32) (breakBefore : Bool) :
    List Font.Glyph → List Piece
  | [] => close text start x breakBefore
  | glyph :: rest =>
    let after := x + state.advance [glyph]
    if isBlank glyph then
      close text start x breakBefore ++ cutFrom state "" start after true rest
    else
      let start := if text.isEmpty then x else start
      cutFrom state (text ++ glyph.unicode) start after breakBefore rest

/-- The pieces of a glyph sequence. -/
def cut (state : GraphicsState) (breakBefore : Bool) (glyphs : List Font.Glyph) : List Piece :=
  cutFrom state "" 0.0 0.0 breakBefore glyphs

end Piece

/-- A listener that assembles words. -/
structure MarkedText where
  /-- How strings are joined. -/
  options : Options
  /-- Whether the text shows tags. -/
  markup : Bool
  /-- The words so far, the last one first. -/
  reversed : List Word
  /-- Whether the last string ended in a blank glyph. -/
  pendingBreak : Bool

namespace MarkedText

/-- An extractor without words. -/
def empty (options : Options) (markup : Bool) : MarkedText := ⟨options, markup, [], false⟩

/-- The words so far, in order. -/
def words (extractor : MarkedText) : List Word := extractor.reversed.reverse

/-- The sections of the words so far. -/
def sections (extractor : MarkedText) : List Section :=
  Word.sections extractor.options extractor.words

/-- The text of the words so far. -/
def text (extractor : MarkedText) : String :=
  Word.joinText extractor.options extractor.markup extractor.words

/-- Whether the options keep an event. -/
def keeps (options : Options) (event : Event) : Bool :=
  !event.isArtifact && PlainText.keeps options event

/-- The marking of an event. -/
def markingOf (event : Event) : Marking := ⟨event.marked.tag, event.marked.mcid⟩

/-- Add a piece of an event: to the last word if it continues that, else as a word of
its own. -/
def addPiece (options : Options) (event : Event) (reversed : List Word) (piece : Piece) :
    List Word :=
  let start := event.toUser.onPoint piece.start 0.0
  let finish := event.toUser.onPoint piece.finish 0.0
  let fresh (lineBreak : Bool) : Word :=
    ⟨piece.text, start, finish, markingOf event, lineBreak⟩
  match reversed with
  | [] => [fresh false]
  | last :: earlier =>
    let baseline : Baseline := ⟨last.start, last.finish⟩
    let newLine := baseline.startsNewLine start options.lineBreakThreshold
    if !newLine && !piece.breakBefore && last.marking = markingOf event &&
        baseline.gap start ≤ event.singleSpaceWidth * options.spaceRatio then
      { last with text := last.text ++ piece.text, finish := finish } :: earlier
    else fresh newLine :: last :: earlier

/-- Whether a string ends in a blank glyph; a string without glyphs leaves that as it
was. -/
def breakAfter (pending : Bool) (glyphs : List Font.Glyph) : Bool :=
  (glyphs.getLast?.map Piece.isBlank).getD pending

/-- Take in an event, unless it is dropped. -/
def receive (extractor : MarkedText) (event : Event) : MarkedText :=
  if keeps extractor.options event then
    let pieces := Piece.cut event.state extractor.pendingBreak event.glyphs
    { extractor with
      reversed := pieces.foldl (addPiece extractor.options event) extractor.reversed
      pendingBreak := breakAfter extractor.pendingBreak event.glyphs }
  else extractor

instance : Listener MarkedText where
  reset extractor := empty extractor.options extractor.markup
  receive := receive

end MarkedText

end PageText.Extract
