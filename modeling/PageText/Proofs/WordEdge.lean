import PageText.Proofs.Sections
import PageText.Proofs.WordBreak

/-!
# The edges of words

Strings are cut at glyphs that are blank as a whole, so a glyph with text keeps the blanks that
stand at its own edges. They are seen from outside of a word exactly if the glyph is the first or
the last of the word. In sections and in the text of all words a separator stands directly
between two words, apart from tags; where no glyph with text has a blank at an edge, no separator
has one beside it.
-/

namespace PageText

namespace Text.Blank

/-- The first character of the text is blank. -/
def Begins (text : String) : Prop := ∃ c ∈ text.toList.head?, isBlank c = true

/-- The last character of the text is blank. -/
def Ends (text : String) : Prop := ∃ c ∈ text.toList.getLast?, isBlank c = true

/-- Whether a text begins with a blank can be decided. -/
instance (text : String) : Decidable (Begins text) :=
  decidable_of_iff (text.toList.head?.any isBlank = true) (Option.any_eq_true _ _)

/-- Whether a text ends with a blank can be decided. -/
instance (text : String) : Decidable (Ends text) :=
  decidable_of_iff (text.toList.getLast?.any isBlank = true) (Option.any_eq_true _ _)

/-- A text begins as its first part does, unless that is empty. -/
theorem begins_append {first : String} (h : first ≠ "") (second : String) :
    Begins (first ++ second) ↔ Begins first := by
  rw [Begins, Begins, String.toList_append,
    List.head?_append_of_ne_nil _ (mt String.toList_eq_nil_iff.1 h)]

/-- A text ends as its last part does, unless that is empty. -/
theorem ends_append (first : String) {second : String} (h : second ≠ "") :
    Ends (first ++ second) ↔ Ends second := by
  rw [Ends, Ends, String.toList_append,
    List.getLast?_append_of_ne_nil _ (mt String.toList_eq_nil_iff.1 h)]

end Text.Blank

open Text.Blank (Begins Ends begins_append ends_append)

namespace Font.Glyph

/-- Glyphs that all show something begin as the first of them does. -/
theorem begins_textOf {glyphs : List Glyph} (h : ∀ glyph ∈ glyphs, glyph.unicode ≠ "") :
    Begins (textOf glyphs) ↔ ∃ glyph ∈ glyphs.head?, Begins glyph.unicode := by
  cases glyphs with
  | nil => simp [textOf_nil, Begins]
  | cons glyph glyphs =>
    rw [← List.singleton_append, textOf_append, textOf_singleton,
      begins_append (h glyph List.mem_cons_self)]
    simp

/-- Glyphs that all show something end as the last of them does. -/
theorem ends_textOf {glyphs : List Glyph} (h : ∀ glyph ∈ glyphs, glyph.unicode ≠ "") :
    Ends (textOf glyphs) ↔ ∃ glyph ∈ glyphs.getLast?, Ends glyph.unicode := by
  rcases List.eq_nil_or_concat' glyphs with rfl | ⟨glyphs, glyph, rfl⟩
  · simp [textOf_nil, Ends]
  · rw [textOf_append, textOf_singleton,
      ends_append _ (h glyph (List.mem_append_right _ List.mem_cons_self))]
    simp

end Font.Glyph

namespace Extract

open PlainText (assemble)

/-- An opening tag does not begin with a blank, and a closing one does not end with one. -/
theorem Marking.TaggedBy.bare_edges {markup : Bool} {marking : Marking} {opening closing : String}
    (h : marking.TaggedBy markup opening closing) : ¬Begins opening ∧ ¬Ends closing := by
  have hopen : ¬Begins "<" := by decide
  have hclose : ¬Ends ">" := by decide
  cases h with
  | named hmarkup htag =>
    rw [String.append_assoc, begins_append (by decide), ends_append _ (by decide)]
    exact ⟨hopen, hclose⟩
  | bare h => decide

namespace Word

/-- The word begins and ends with a blank exactly if its first and its last glyph do. -/
structure HasEdgesOf (word : Word) (glyphs : List Font.Glyph) : Prop where
  /-- The first glyph tells how the word begins. -/
  begins : Begins word.text ↔ ∃ glyph ∈ glyphs.head?, Begins glyph.unicode
  /-- The last glyph tells how it ends. -/
  ends : Ends word.text ↔ ∃ glyph ∈ glyphs.getLast?, Ends glyph.unicode

/-- A word that is made of glyphs with text has their edges. -/
theorem IsOf.hasEdgesOf {word : Word} {shown : List ShownGlyph} (h : word.IsOf shown)
    (htext : ∀ glyph ∈ shown.map Prod.snd, glyph.HasText) :
    word.HasEdgesOf (shown.map Prod.snd) := by
  have hshow : ∀ glyph ∈ shown.map Prod.snd, glyph.unicode ≠ "" := fun glyph hm =>
    (htext glyph hm).1
  refine ⟨?_, ?_⟩
  · rw [h.text, Font.Glyph.begins_textOf hshow]
  · rw [h.text, Font.Glyph.ends_textOf hshow]

/-- A word has no blank at its edges if none of its glyphs has. -/
theorem HasEdgesOf.bare {word : Word} {glyphs : List Font.Glyph} (h : word.HasEdgesOf glyphs)
    (hbare : ∀ glyph ∈ glyphs, ¬Begins glyph.unicode ∧ ¬Ends glyph.unicode) :
    ¬Begins word.text ∧ ¬Ends word.text := by
  constructor
  · intro hbegins
    obtain ⟨glyph, hm, hglyph⟩ := h.begins.1 hbegins
    exact (hbare glyph (List.mem_of_head? hm)).1 hglyph
  · intro hends
    obtain ⟨glyph, hm, hglyph⟩ := h.ends.1 hends
    exact (hbare glyph (List.mem_of_getLast? hm)).2 hglyph

/-- The word as it stands in a text: within the tags of its marking, or without one of them or
both where words of its marking are next to it. -/
def StandsAs (markup : Bool) (word : Word) (part : String) : Prop :=
  ∃ opening closing before after, word.marking.TaggedBy markup opening closing ∧
    (before = "" ∨ before = opening) ∧ (after = "" ∨ after = closing) ∧
    part = before ++ word.text ++ after

/-- Tags add no blanks at the edges of a word. -/
theorem StandsAs.edges {markup : Bool} {word : Word} {part : String}
    (h : word.StandsAs markup part) (hword : word.text ≠ "") :
    (Begins part → Begins word.text) ∧ (Ends part → Ends word.text) := by
  obtain ⟨opening, closing, before, after, htagged, hbefore, hafter, rfl⟩ := h
  obtain ⟨hopening, hclosing⟩ := htagged.bare_edges
  constructor
  · intro hbegins
    rw [String.append_assoc] at hbegins
    by_cases hempty : before = ""
    · rwa [hempty, String.empty_append, begins_append hword] at hbegins
    · rw [begins_append hempty, hbefore.resolve_left hempty] at hbegins
      exact absurd hbegins hopening
  · intro hends
    by_cases hempty : after = ""
    · rwa [hempty, String.append_empty, ends_append before hword] at hends
    · rw [ends_append _ hempty, hafter.resolve_left hempty] at hends
      exact absurd hends hclosing

/-- From a word on the text is that word and those after it, each but the first after its
separator. The tag before the word carries the induction. -/
theorem textFrom_parts (options : Options) (markup : Bool) (word : Word) {opening : String}
    (hopening : opening = "" ∨ opening = openTag markup word.marking) (rest : List Word) :
    ∃ parts, List.Forall₂ (StandsAs markup) (word :: rest) parts ∧
      opening ++ word.text ++ textFrom options markup word.marking rest =
        assemble parts (rest.map (separator options)) := by
  have htags (word : Word) := word.marking.taggedBy_tags markup
  induction rest generalizing word opening with
  | nil =>
    refine ⟨[opening ++ word.text ++ closeTag markup word.marking],
      .cons ⟨_, _, opening, _, htags word, hopening, Or.inr rfl, rfl⟩ .nil, ?_⟩
    rw [textFrom, assemble, List.map_nil, List.zipWith_nil_left, String.join_nil,
      String.append_empty]
  | cons next rest ih =>
    by_cases hsame : next.marking = word.marking
    · obtain ⟨parts, hparts, htext⟩ := ih next (Or.inl rfl)
      cases hparts with
      | @cons _ part _ parts hpart hparts =>
        refine ⟨(opening ++ word.text ++ "") :: part :: parts,
          .cons ⟨_, _, opening, "", htags word, hopening, Or.inl rfl, rfl⟩ (.cons hpart hparts), ?_⟩
        rw [String.empty_append, assemble] at htext
        rw [textFrom, if_pos hsame, assemble, List.map_cons, List.zipWith_cons_cons,
          String.join_cons, htext]
        simp only [String.append_assoc, String.empty_append]
    · obtain ⟨parts, hparts, htext⟩ := ih next (Or.inr rfl)
      cases hparts with
      | @cons _ part _ parts hpart hparts =>
        refine ⟨(opening ++ word.text ++ closeTag markup word.marking) :: part :: parts,
          .cons ⟨_, _, opening, _, htags word, hopening, Or.inr rfl, rfl⟩ (.cons hpart hparts), ?_⟩
        rw [String.append_assoc, assemble] at htext
        rw [textFrom, if_neg hsame, assemble, List.map_cons, List.zipWith_cons_cons,
          String.join_cons]
        simp only [String.append_assoc, htext]

/-- The text of words is the words in order, each within its tags or without them, with their
separators between them. -/
theorem joinText_parts (options : Options) (markup : Bool) (words : List Word) :
    ∃ parts, List.Forall₂ (StandsAs markup) words parts ∧
      joinText options markup words = assemble parts (words.tail.map (separator options)) := by
  cases words with
  | nil => exact ⟨[], .nil, rfl⟩
  | cons word rest => exact textFrom_parts options markup word (Or.inr rfl) rest

end Word

/-- The words of a run follow one another among those that are split. -/
theorem Run.Split.words_infix {words : List Word} {runs : List Run} (h : Run.Split words runs)
    {run : Run} (hr : run ∈ runs) : run.words <:+: words := by
  obtain ⟨before, after, rfl⟩ := List.mem_iff_append.1 hr
  refine ⟨before.flatMap Run.words, after.flatMap Run.words, ?_⟩
  rw [← h.flatten, List.flatMap_append, List.flatMap_cons, List.append_assoc]

namespace MarkedText

/-- All these glyphs have text. -/
theorem hasText_of_mem_shownGlyphs {options : Options} {events : List Event} :
    ∀ shown ∈ shownGlyphs options events, shown.2.HasText := by
  intro shown hm
  obtain ⟨event, -, hm⟩ := List.mem_flatMap.1 hm
  obtain ⟨glyph, hglyph, rfl⟩ := List.mem_map.1 hm
  exact of_decide_eq_true (List.mem_filter.1 hglyph).2

/-- What holds of all glyphs of words holds of those of each word. -/
theorem forall₂_of_mem_flatten {made : Word → List ShownGlyph → Prop} {words : List Word}
    {groups : List (List ShownGlyph)} (h : List.Forall₂ made words groups)
    {property : Font.Glyph → Prop} (hall : ∀ shown ∈ groups.flatten, property shown.2) :
    List.Forall₂ (fun word group => made word group ∧ ∀ glyph ∈ group.map Prod.snd, property glyph)
      words groups := by
  have hgroups : ∀ group ∈ groups, ∀ glyph ∈ group.map Prod.snd, property glyph := by
    intro group hgroup glyph hm
    obtain ⟨shown, hshown, rfl⟩ := List.mem_map.1 hm
    exact hall shown (List.mem_flatten_of_mem hgroup hshown)
  exact (((List.forall₂_and_left _ _).2 ⟨hgroups, h.flip⟩).imp fun _ _ hboth => hboth.symm).flip

/-- The edges of words are those of their glyphs. Every word is made of a group of glyphs with
text, which together are all of them in order, and a word begins or ends with a blank exactly if
its first or its last glyph does; so no word does where no glyph with text begins or ends with
one. The text is the words in order, each within its tags or without them, and that of a section
the words of a part of them; between two words stands what ends a line or a space and no further
blank, except those at the edges of the words. -/
theorem words_edges (options : Options) (markup : Bool) (events : List Event) :
    (∃ groups,
      List.Forall₂ (fun word group => word.IsOf group ∧ word.HasEdgesOf (group.map Prod.snd))
        (Listener.receiveAll (empty options markup) events).words groups ∧
      groups.flatten = shownGlyphs options events) ∧
    ((∀ shown ∈ shownGlyphs options events, ¬Begins shown.2.unicode ∧ ¬Ends shown.2.unicode) →
      ∀ word ∈ (Listener.receiveAll (empty options markup) events).words,
        ¬Begins word.text ∧ ¬Ends word.text) ∧
    (∃ parts separators,
      List.Forall₂ (fun word part => word.StandsAs markup part ∧
          (Begins part → Begins word.text) ∧ (Ends part → Ends word.text))
        (Listener.receiveAll (empty options markup) events).words parts ∧
      List.Forall₂ (Word.SeparatedBy options)
        (Listener.receiveAll (empty options markup) events).words.tail separators ∧
      (Listener.receiveAll (empty options markup) events).text = assemble parts separators) ∧
    ∀ part ∈ (Listener.receiveAll (empty options markup) events).sections,
      ∃ members separators,
        members <:+: (Listener.receiveAll (empty options markup) events).words ∧
        List.Forall₂ (Word.SeparatedBy options) members.tail separators ∧
        part.text = assemble (members.map Word.text) separators := by
  obtain ⟨hoptions, hmarkup⟩ := options_receiveAll (empty options markup) events
  have hmade : MadeOf (empty options markup).reversed [] := ⟨[], .nil, rfl⟩
  obtain ⟨groups, hwords, hflat⟩ := (receiveAll_madeOf hmade events).areOf
  have hflat : groups.flatten = shownGlyphs options events := hflat
  have htext : ∀ shown ∈ groups.flatten, shown.2.HasText :=
    hflat ▸ hasText_of_mem_shownGlyphs
  have hedges := (forall₂_of_mem_flatten hwords htext).imp fun _ _ h =>
    And.intro h.1 (h.1.hasEdgesOf h.2)
  refine ⟨⟨groups, hedges, hflat⟩, fun hbare => ?_, ?_, ?_⟩
  · rw [← hflat] at hbare
    have hall := (forall₂_of_mem_flatten hedges hbare).imp fun _ _ h =>
      And.intro (h.1.2.bare h.2) h.1.1
    exact ((List.forall₂_and_left _ _).1 hall).1
  · obtain ⟨parts, hparts, hjoin⟩ := Word.joinText_parts options markup
      (Listener.receiveAll (empty options markup) events).words
    have hne := Word.text_ne_empty_of_forall₂ hwords
    refine ⟨parts, _, ((List.forall₂_and_left _ _).2 ⟨hne, hparts⟩).imp fun _ _ h =>
      ⟨h.2, h.2.edges h.1⟩, Word.forall₂_separatedBy options id _, ?_⟩
    rw [text, hoptions, hmarkup]
    exact hjoin
  · intro part hpart
    obtain ⟨runs, hsplit⟩ :=
      Run.exists_split (Listener.receiveAll (empty options markup) events).words
    rw [sections, hoptions, show (empty options markup).options = options from rfl,
      hsplit.sections_eq options] at hpart
    obtain ⟨run, hrun, rfl⟩ := List.mem_map.1 hpart
    obtain ⟨separators, hseparators, htext⟩ := (run.isOf_toSection options).text
    exact ⟨run.words, separators, hsplit.words_infix hrun, hseparators, htext⟩

/-- An event that shows a letter, a blank and a letter in a font with the given map. -/
def spacedLetters (map : Option Font.ToUnicode) : Event :=
  let font : Font := .simple { Font.SimpleFont.plain "Mono" .winAnsi with
    defaultWidth := 500.0, toUnicode := map }
  ⟨font.decode [0x61, 0x20, 0x62],
    { GraphicsState.initial with font := some font, fontSize := 12.0 }, .identity,
    ⟨none, none, false⟩⟩

/-- Without a map the letters have no blanks, and neither have the words at their edges. -/
theorem words_edges_letters :
    (∀ shown ∈ shownGlyphs .default [spacedLetters none],
      ¬Begins shown.2.unicode ∧ ¬Ends shown.2.unicode) ∧
    (Listener.receiveAll (empty .default true) [spacedLetters none]).words.map Word.text =
      ["a", "b"] ∧
    ∀ word ∈ (Listener.receiveAll (empty .default true) [spacedLetters none]).words,
      ¬Begins word.text ∧ ¬Ends word.text := by
  have hbare : ∀ shown ∈ shownGlyphs .default [spacedLetters none],
      ¬Begins shown.2.unicode ∧ ¬Ends shown.2.unicode := by decide +kernel
  obtain ⟨-, hwords, -⟩ := words_edges .default true [spacedLetters none]
  exact ⟨hbare, by decide +kernel, hwords hbare⟩

/-- The same event in a font whose map gives the first letter a blank of its own. -/
def padded : Event := spacedLetters (some ((∅ : Font.ToUnicode).insert 0x61 "a "))

/-- The word of the first letter ends with the blank that its map gives it, and the text has two
blanks between the words. -/
theorem padded_doubled :
    (Listener.receiveAll (empty .default false) [padded]).words.map Word.text = ["a ", "b"] ∧
    (∃ word ∈ (Listener.receiveAll (empty .default false) [padded]).words, Ends word.text) ∧
    (Listener.receiveAll (empty .default false) [padded]).text = "a" ++ " " ++ " " ++ "b" := by
  refine ⟨by decide +kernel, ?_, by decide +kernel⟩
  decide +kernel

end MarkedText

end Extract

end PageText
