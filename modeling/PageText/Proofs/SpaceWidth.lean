import PageText.Proofs.Derived

/-!
# The width of a space

Wherever words and lines are told apart, the gap between two strings is compared with the
width of a space. An event measures that width on a glyph of its own, with the width of code
32 and with word spacing. Here it is compared with what the interpreter does when the string
of one space code is really shown: the text position moves by the advance of the glyph that
the font decodes, and that glyph takes word spacing only if the code is a single byte.
-/

namespace PageText

namespace Font

/-- The string of one space code: one byte, or two with the high byte first. -/
def spaceString : Font → List UInt8
  | simple _ => [0x20]
  | composite _ => [0x00, 0x20]

/-- Whether word spacing applies to the space code; codes of two bytes have none. -/
def spacesWords : Font → Bool
  | simple _ => true
  | composite _ => false

namespace CompositeFont

variable (font : CompositeFont)

/-- A single code has a single text, whichever way the font finds it. -/
theorem exists_texts_singleton (code : Nat) : ∃ text, font.texts [code] = [text] := by
  unfold texts
  cases font.toUnicode with
  | some map => exact ⟨_, rfl⟩
  | none =>
    cases font.utf16Codes with
    | true => exact ⟨_, rfl⟩
    | false => exact ⟨_, rfl⟩

/-- The space code of a font with two-byte codes is one glyph without word spacing. -/
theorem exists_decode_space :
    ∃ text, font.decode [0x00, 0x20] = [⟨0x20, text, font.codeWidth 0x20, false⟩] := by
  have hcodes : codes [0x00, 0x20] = [0x20] := rfl
  obtain ⟨text, htext⟩ := font.exists_texts_singleton 0x20
  refine ⟨text, ?_⟩
  rw [decode, hcodes, htext]
  rfl

end CompositeFont

/-- The space code of a font is one glyph, with the width of code 32. -/
theorem exists_decode_spaceString (font : Font) :
    ∃ text, font.decode font.spaceString =
      [⟨0x20, text, font.codeWidth 0x20, font.spacesWords⟩] := by
  cases font with
  | simple font => exact ⟨font.unicode 0x20, rfl⟩
  | composite font => exact font.exists_decode_space

/-- The width of a space is that of code 32 unless this is zero. -/
theorem spaceWidth_of_ne {font : Font} (hw : (font.codeWidth 0x20 == 0.0) = false) :
    font.spaceWidth = font.codeWidth 0x20 := by
  rw [spaceWidth, hw]
  rfl

end Font

namespace GraphicsState

variable (state : GraphicsState)

/-- The state with no space added after word spaces. -/
def withoutWordSpacing : GraphicsState := { state with wordSpacing := 0.0 }

/-- The advance of one glyph does not depend on its code and its text. -/
theorem advance_singleton (code code' : Nat) (text text' : String) (width : Float32)
    (spacesWords : Bool) :
    state.advance [⟨code, text, width, spacesWords⟩] =
      state.advance [⟨code', text', width, spacesWords⟩] := rfl

/-- A glyph to which word spacing does not apply advances like one to which it does where
there is none. -/
theorem advance_singleton_withoutWordSpacing (code : Nat) (text : String) (width : Float32) :
    state.withoutWordSpacing.advance [⟨code, text, width, true⟩] =
      state.advance [⟨code, text, width, false⟩] := rfl

end GraphicsState

namespace Event

variable {event : Event} {font : Font}

/-- The length of the advance of the string in user space. -/
def userWidth (event : Event) : Float32 := (event.toUser.onVector event.width 0.0).length

/-- The event with no space added after word spaces. -/
def withoutWordSpacing (event : Event) : Event :=
  { event with state := event.state.withoutWordSpacing }

/-- Where a font is set, the width of a space is measured on a glyph with word spacing. -/
theorem singleSpaceWidth_of_font (hf : event.state.font = some font) :
    event.singleSpaceWidth =
      (event.toUser.onVector (event.state.advance [spaceGlyph font]) 0.0).length := by
  rw [singleSpaceWidth, hf]

/-- The advance of the glyph on which an event measures the width of a space is the advance
of a space code to which word spacing applies. -/
theorem advance_spaceGlyph (hw : (font.codeWidth 0x20 == 0.0) = false)
    (hs : font.spacesWords = true) :
    event.state.advance [spaceGlyph font] =
      event.state.advance (font.decode font.spaceString) := by
  obtain ⟨text, htext⟩ := font.exists_decode_spaceString
  rw [htext, hs, spaceGlyph, Font.spaceWidth_of_ne hw]
  exact event.state.advance_singleton 0x20 0x20 " " text _ true

/-- With the word spacing left out, the advance of that glyph is the advance of a space code
to which word spacing does not apply. -/
theorem withoutWordSpacing_advance_spaceGlyph (hw : (font.codeWidth 0x20 == 0.0) = false)
    (hs : font.spacesWords = false) :
    event.state.withoutWordSpacing.advance [spaceGlyph font] =
      event.state.advance (font.decode font.spaceString) := by
  obtain ⟨text, htext⟩ := font.exists_decode_spaceString
  rw [htext, hs, spaceGlyph, Font.spaceWidth_of_ne hw,
    event.state.advance_singleton_withoutWordSpacing]
  exact event.state.advance_singleton 0x20 0x20 " " text _ false

/-- Without word spacing there is nothing to leave out. -/
theorem withoutWordSpacing_of_eq (h : event.state.wordSpacing = 0.0) :
    event.withoutWordSpacing = event := by
  obtain ⟨glyphs, state, textMatrix, marked⟩ := event
  obtain ⟨ctm, font, fontSize, charSpacing, wordSpacing, scaling, leading, mode, rise⟩ := state
  cases h
  rfl

section Shown

variable {shown : Event} (hg : shown.glyphs = font.decode font.spaceString)
  (hs : shown.state = event.state) (hm : shown.textMatrix = event.textMatrix)
include hg hs hm

/-- The user width of an event that shows the space code in the same state and at the same
place. -/
theorem userWidth_of_shown :
    shown.userWidth =
      (event.toUser.onVector (event.state.advance (font.decode font.spaceString)) 0.0).length := by
  rw [userWidth, width, toUser, toUser, hg, hs, hm]

variable (hf : event.state.font = some font) (hw : (font.codeWidth 0x20 == 0.0) = false)
include hf hw

/-- Where word spacing applies to the space code, the width of a space is the user width of
a shown space. -/
theorem singleSpaceWidth_eq_userWidth (hword : font.spacesWords = true) :
    event.singleSpaceWidth = shown.userWidth := by
  rw [singleSpaceWidth_of_font hf, userWidth_of_shown hg hs hm, advance_spaceGlyph hw hword]

/-- Where word spacing does not apply to the space code, the width of a space is the user
width of a shown space once the word spacing is left out of the former. -/
theorem withoutWordSpacing_singleSpaceWidth_eq_userWidth (hword : font.spacesWords = false) :
    event.withoutWordSpacing.singleSpaceWidth = shown.userWidth := by
  have hadvance : event.withoutWordSpacing.state.advance [spaceGlyph font] =
      event.state.advance (font.decode font.spaceString) :=
    withoutWordSpacing_advance_spaceGlyph hw hword
  have hplace : event.withoutWordSpacing.toUser = event.toUser := rfl
  have hfont : event.withoutWordSpacing.state.font = some font := hf
  rw [singleSpaceWidth_of_font hfont, userWidth_of_shown hg hs hm, hadvance, hplace]

/-- Where there is no word spacing, the width of a space is the user width of a shown space,
whether or not word spacing would apply to the space code. -/
theorem singleSpaceWidth_eq_userWidth_of_zero (hzero : event.state.wordSpacing = 0.0) :
    event.singleSpaceWidth = shown.userWidth := by
  cases hword : font.spacesWords with
  | true => exact singleSpaceWidth_eq_userWidth hg hs hm hf hw hword
  | false =>
    have hnone : event.withoutWordSpacing = event := withoutWordSpacing_of_eq hzero
    rw [← hnone]
    exact withoutWordSpacing_singleSpaceWidth_eq_userWidth hg hs hm hf hw hword

end Shown

end Event

namespace Setup

variable {setup : Setup} {forms : FormRunner} {state : StreamState}

/-- Showing the string of one space code delivers one event and moves the text position by
the advance of that event. Every event in the same graphics state and at the same place says
that a space is as wide as that event is in user space, if the font has one-byte codes; if
it has two-byte codes, this holds with the word spacing left out of the measured width, and
so without that where the word spacing is zero. -/
theorem step_showSpace (hr : setup.registry = .standard) {font : Font} {position : TextPosition}
    (hf : state.graphics.font = some font) (hp : state.position = some position)
    (hw : (font.codeWidth 0x20 == 0.0) = false) :
    ∃ shown : Event,
      setup.step forms state ⟨"Tj", [.str font.spaceString]⟩ =
        ⟨{ state with position := some (position.shift shown.width) }, [shown], none⟩ ∧
      shown.glyphs = font.decode font.spaceString ∧
      shown.state = state.graphics ∧ shown.textMatrix = position.text ∧
      ∀ event : Event, event.state = state.graphics → event.textMatrix = position.text →
        (font.spacesWords = true → event.singleSpaceWidth = shown.userWidth) ∧
        (font.spacesWords = false →
          event.withoutWordSpacing.singleSpaceWidth = shown.userWidth) ∧
        (state.graphics.wordSpacing = 0.0 → event.singleSpaceWidth = shown.userWidth) := by
  have hopen : state.position ≠ none := Option.ne_none_iff_exists'.2 ⟨position, hp⟩
  refine ⟨⟨font.decode font.spaceString, state.graphics, position.text, state.markedContext⟩,
    ?_, rfl, rfl, rfl, fun event hs hm => ?_⟩
  · rw [step_showText hr hopen, StreamState.showText, hf, hp]
  · have hfont : event.state.font = some font := hs ▸ hf
    refine ⟨?_, ?_, fun hzero => ?_⟩
    · exact Event.singleSpaceWidth_eq_userWidth rfl hs.symm hm.symm hfont hw
    · exact Event.withoutWordSpacing_singleSpaceWidth_eq_userWidth rfl hs.symm hm.symm hfont hw
    · rw [← hs] at hzero
      exact Event.singleSpaceWidth_eq_userWidth_of_zero rfl hs.symm hm.symm hfont hw hzero

/-- A font with two-byte codes that are all half an em wide. -/
def wideFont : Font := .composite { Font.CompositeFont.plain "Wide" with defaultWidth := 500.0 }

/-- A text object with that font in size ten, and five more for word spaces. -/
def wideText : StreamState :=
  { StreamState.idle { GraphicsState.initial with
      font := some wideFont, fontSize := 10.0, wordSpacing := 5.0 } with
    position := some .origin }

/-- What holds of the events in that text object. -/
theorem step_showSpace_wide :
    standard.registry = .standard ∧ wideText.graphics.font = some wideFont ∧
    wideText.position = some .origin ∧ (wideFont.codeWidth 0x20 == 0.0) = false ∧
    ∃ shown : Event,
      standard.invoke wideText ⟨"Tj", [.str [0x00, 0x20]]⟩ =
        ⟨{ wideText with position := some (TextPosition.origin.shift shown.width) }, [shown],
          none⟩ ∧
      ∀ event : Event, event.state = wideText.graphics → event.textMatrix = .identity →
        event.withoutWordSpacing.singleSpaceWidth = shown.userWidth := by
  have hr : standard.registry = .standard := rfl
  have hf : wideText.graphics.font = some wideFont := rfl
  have hp : wideText.position = some .origin := rfl
  have hw : (wideFont.codeWidth 0x20 == 0.0) = false := by decide +kernel
  obtain ⟨shown, hstep, -, -, -, hevents⟩ :=
    @step_showSpace standard standard.pageForms wideText hr wideFont .origin hf hp hw
  exact ⟨hr, hf, hp, hw, shown, hstep, fun event hs hm => (hevents event hs hm).2.1 rfl⟩

/-- In that text object the event of a space itself says that a space is twice as wide as the
advance that the text position is moved by. -/
theorem wideText_space :
    (wideFont.codeWidth 0x20 == 0.0) = false ∧ ∃ shown : Event,
      standard.invoke wideText ⟨"Tj", [.str wideFont.spaceString]⟩ =
        ⟨{ wideText with position := some (TextPosition.origin.shift shown.width) }, [shown],
          none⟩ ∧
      shown.userWidth = 5.0 ∧ shown.singleSpaceWidth = 10.0 ∧
      shown.singleSpaceWidth ≠ shown.userWidth := by
  refine ⟨by decide +kernel, ⟨wideFont.decode wideFont.spaceString, wideText.graphics, .identity,
    wideText.markedContext⟩, rfl, ?_, ?_, ?_⟩
  · decide +kernel
  · decide +kernel
  · decide +kernel

end Setup

end PageText
