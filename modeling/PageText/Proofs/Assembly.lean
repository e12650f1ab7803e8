import Mathlib.Data.List.Forall2
import PageText.Extract.MarkedText
import PageText.Proofs.History

/-!
# Words and the glyphs they are made of

Between a shown glyph and a word there are two places where text waits: the piece that is being
cut from a string, and the last word, which later strings may continue. Nothing gets lost in
them. Every word is accounted for by a group of glyphs, and the groups in order are all the
glyphs with text of the events that are kept; so every word knows the events it comes from, and
has their marking.
-/

namespace PageText

namespace Font.Glyph

/-- The glyph shows something blank, and nothing else. -/
def IsBlank (glyph : Glyph) : Prop :=
  glyph.unicode ≠ "" ∧ ∀ c ∈ glyph.unicode.toList, Text.Blank.isBlank c = true

/-- The glyph shows something that is not blank. -/
def HasText (glyph : Glyph) : Prop := glyph.unicode ≠ "" ∧ ¬glyph.IsBlank

/-- Whether a glyph is blank is decided along its text, not over all characters. -/
instance (glyph : Glyph) : Decidable glyph.IsBlank :=
  decidable_of_iff (glyph.unicode ≠ "" ∧ glyph.unicode.toList.all Text.Blank.isBlank = true)
    (and_congr_right' List.all_eq_true)

instance (glyph : Glyph) : Decidable glyph.HasText := inferInstanceAs (Decidable (_ ∧ _))

/-- The text of glyphs is their texts in order. -/
theorem textOf_eq_join (glyphs : List Glyph) :
    textOf glyphs = String.join (glyphs.map unicode) := by
  rw [textOf, String.join, List.foldl_map]

/-- No glyphs have no text. -/
theorem textOf_nil : textOf [] = "" := rfl

/-- The text of glyphs in two parts. -/
theorem textOf_append (first second : List Glyph) :
    textOf (first ++ second) = textOf first ++ textOf second := by
  simp only [textOf_eq_join, List.map_append, String.join_append]

/-- The text of one glyph. -/
theorem textOf_singleton (glyph : Glyph) : textOf [glyph] = glyph.unicode := by
  rw [textOf, List.foldl_cons, List.foldl_nil, String.empty_append]

/-- A glyph is blank, or shows nothing at all, or has text. -/
theorem blank_or_empty_or_hasText (glyph : Glyph) :
    glyph.IsBlank ∧ ¬glyph.HasText ∨
      ¬glyph.IsBlank ∧ (glyph.unicode = "" ∧ ¬glyph.HasText ∨ glyph.HasText) := by
  by_cases hblank : glyph.IsBlank
  · exact Or.inl ⟨hblank, fun htext => htext.2 hblank⟩
  · refine Or.inr ⟨hblank, ?_⟩
    by_cases hempty : glyph.unicode = ""
    · exact Or.inl ⟨hempty, fun htext => htext.1 hempty⟩
    · exact Or.inr ⟨hempty, hblank⟩

/-- Among glyphs that are not blank, only those with text matter to the text. -/
theorem textOf_filter_hasText (glyphs : List Glyph) :
    textOf (glyphs.filter HasText) = textOf (glyphs.filter fun glyph => ¬glyph.IsBlank) := by
  induction glyphs with
  | nil => rfl
  | cons glyph glyphs ih =>
    have hcons (rest : List Glyph) : textOf (glyph :: rest) = glyph.unicode ++ textOf rest := by
      rw [← List.singleton_append, textOf_append, textOf_singleton]
    rcases glyph.blank_or_empty_or_hasText with
      ⟨hblank, htext⟩ | ⟨hblank, ⟨hempty, htext⟩ | htext⟩
    · rw [List.filter_cons_of_neg (by simpa using htext),
        List.filter_cons_of_neg (by simpa using hblank), ih]
    · rw [List.filter_cons_of_neg (by simpa using htext),
        List.filter_cons_of_pos (by simpa using hblank), hcons, hempty, String.empty_append, ih]
    · rw [List.filter_cons_of_pos (by simpa using htext),
        List.filter_cons_of_pos (by simpa using hblank), hcons, hcons, ih]

end Font.Glyph

namespace Extract

namespace Piece

/-- Pieces are cut where glyphs are blank. -/
theorem isBlank_iff (glyph : Font.Glyph) : isBlank glyph = true ↔ glyph.IsBlank := by
  simp only [isBlank, Font.Glyph.IsBlank, Text.Blank.allBlank, Bool.and_eq_true,
    Bool.not_eq_true', String.isEmpty_eq_false_iff, List.all_eq_true, ne_eq]

/-- The piece is the text of the given glyphs. -/
structure IsOf (piece : Piece) (glyphs : List Font.Glyph) : Prop where
  /-- Pieces have text. -/
  nonempty : piece.text ≠ ""
  /-- It is the text of the glyphs. -/
  text : piece.text = Font.Glyph.textOf glyphs

/-- A piece that ends is made of the glyphs since it was begun, and there is none if these have
no text. -/
theorem close_isOf {text : String} {begun : List Font.Glyph}
    (htext : text = Font.Glyph.textOf begun) (hbegun : text = "" → begun = [])
    (start finish : Float32) (breakBefore : Bool) :
    ∃ groups, List.Forall₂ IsOf (close text start finish breakBefore) groups ∧
      groups.flatten = begun := by
  unfold close
  split
  · rename_i hempty
    exact ⟨[], .nil, (hbegun (String.isEmpty_iff.1 hempty)).symm⟩
  · rename_i hempty
    have hne : text ≠ "" := fun h => hempty (String.isEmpty_iff.2 h)
    exact ⟨[begun], .cons ⟨hne, htext⟩ .nil, List.flatten_singleton⟩

/-- The pieces cut from glyphs are made of those that have text, after the glyphs of the piece
begun before. The text of that piece and its glyphs carry the induction. -/
theorem cutFrom_isOf (state : GraphicsState) {text : String} {begun : List Font.Glyph}
    (htext : text = Font.Glyph.textOf begun) (hbegun : text = "" → begun = [])
    (start x : Float32) (breakBefore : Bool) (glyphs : List Font.Glyph) :
    ∃ groups, List.Forall₂ IsOf (cutFrom state text start x breakBefore glyphs) groups ∧
      groups.flatten = begun ++ glyphs.filter Font.Glyph.HasText := by
  induction glyphs generalizing text begun start x breakBefore with
  | nil =>
    rw [List.filter_nil, List.append_nil]
    exact close_isOf htext hbegun start x breakBefore
  | cons glyph rest ih =>
    unfold cutFrom
    rcases glyph.blank_or_empty_or_hasText with
      ⟨hblank, hskip⟩ | ⟨hblank, ⟨hempty, hskip⟩ | hkeep⟩
    · -- The piece ends here, and the next one begins without glyphs.
      obtain ⟨closed, hclosed, hflat⟩ := close_isOf htext hbegun start x breakBefore
      obtain ⟨groups, hgroups, hrest⟩ := ih Font.Glyph.textOf_nil.symm (fun _ => rfl) start
        (x + state.advance [glyph]) true
      rw [if_pos ((isBlank_iff glyph).2 hblank)]
      refine ⟨closed ++ groups, List.rel_append hclosed hgroups, ?_⟩
      rw [List.flatten_append, hflat, hrest, List.nil_append,
        List.filter_cons_of_neg (by simpa using hskip)]
    · -- The glyph adds nothing to the piece.
      rw [if_neg (mt (isBlank_iff glyph).1 hblank), hempty, String.append_empty,
        List.filter_cons_of_neg (by simpa using hskip)]
      exact ih htext hbegun _ _ _
    · have hmore : text ++ glyph.unicode = Font.Glyph.textOf (begun ++ [glyph]) := by
        rw [Font.Glyph.textOf_append, Font.Glyph.textOf_singleton, htext]
      have hne : text ++ glyph.unicode = "" → begun ++ [glyph] = [] := fun h =>
        absurd (String.append_eq_empty_iff.1 h).2 hkeep.1
      obtain ⟨groups, hgroups, hrest⟩ := ih hmore hne (if text.isEmpty then x else start)
        (x + state.advance [glyph]) breakBefore
      rw [if_neg (mt (isBlank_iff glyph).1 hblank)]
      refine ⟨groups, hgroups, ?_⟩
      rw [hrest, List.append_assoc, List.singleton_append,
        List.filter_cons_of_pos (by simpa using hkeep)]

end Piece

/-- A glyph, and the event that shows it. -/
abbrev ShownGlyph : Type := Event × Font.Glyph

/-- The word is the text of the given glyphs, and has the marking of their events. -/
structure Word.IsOf (word : Word) (shown : List ShownGlyph) : Prop where
  /-- Words have text. -/
  nonempty : word.text ≠ ""
  /-- It is the text of the glyphs. -/
  text : word.text = Font.Glyph.textOf (shown.map Prod.snd)
  /-- Its tag and identifier are those of each event. -/
  marking : ∀ event glyph, (event, glyph) ∈ shown →
    word.marking.tag = event.marked.tag ∧ word.marking.mcid = event.marked.mcid

namespace Word

/-- A word with the text of a piece and the marking of its event is made of the glyphs of the
piece. -/
theorem IsOf.of_piece {word : Word} {event : Event} {piece : Piece} {glyphs : List Font.Glyph}
    (hp : piece.IsOf glyphs) (htext : word.text = piece.text)
    (hmarking : word.marking = MarkedText.markingOf event) :
    word.IsOf (glyphs.map (event, ·)) := by
  have hglyphs : (glyphs.map (event, ·)).map Prod.snd = glyphs := by
    rw [List.map_map]
    exact List.map_id glyphs
  refine ⟨htext ▸ hp.nonempty, ?_, ?_⟩
  · rw [htext, hp.text, hglyphs]
  · intro event' glyph hmem
    obtain ⟨_, -, hpair⟩ := List.mem_map.1 hmem
    cases hpair
    rw [hmarking]
    exact ⟨rfl, rfl⟩

/-- A word with the texts of two others of its marking is made of the glyphs of both. -/
theorem IsOf.append {word first second : Word} {shown shown' : List ShownGlyph}
    (hf : first.IsOf shown) (hs : second.IsOf shown')
    (htext : word.text = first.text ++ second.text) (hmarking : word.marking = first.marking)
    (hsame : first.marking = second.marking) : word.IsOf (shown ++ shown') := by
  refine ⟨?_, ?_, fun event glyph hmem => ?_⟩
  · rw [htext]
    exact fun hempty => hf.nonempty (String.append_eq_empty_iff.1 hempty).1
  · rw [htext, hf.text, hs.text, List.map_append, Font.Glyph.textOf_append]
  · rw [hmarking]
    rcases List.mem_append.1 hmem with hfirst | hsecond
    · exact hf.marking event glyph hfirst
    · rw [hsame]
      exact hs.marking event glyph hsecond

variable {words : List Word} {groups : List (List ShownGlyph)}

/-- Words that are made of glyphs have text. -/
theorem text_ne_empty_of_forall₂ (h : List.Forall₂ IsOf words groups) :
    ∀ word ∈ words, word.text ≠ "" := by
  induction h with
  | nil => exact nofun
  | cons hword _ ih => exact List.forall_mem_cons.2 ⟨hword.nonempty, ih⟩

/-- Words in order are the text of all the glyphs that they are made of. -/
theorem join_text_of_forall₂ (h : List.Forall₂ IsOf words groups) :
    String.join (words.map text) = Font.Glyph.textOf (groups.flatten.map Prod.snd) := by
  induction h with
  | nil => rfl
  | cons hword _ ih =>
    rw [List.map_cons, String.join_cons, hword.text, ih, List.flatten_cons, List.map_append,
      Font.Glyph.textOf_append]

end Word

namespace MarkedText

/-- The event is no artifact, and is painted if only such ones are asked for. -/
def Kept (options : Options) (event : Event) : Prop :=
  event.isArtifact = false ∧ (options.skipInvisible = true → event.isVisible = true)

instance (options : Options) (event : Event) : Decidable (Kept options event) :=
  inferInstanceAs (Decidable (_ ∧ _))

/-- The extractor keeps these events. -/
theorem keeps_iff (options : Options) (event : Event) :
    keeps options event = true ↔ Kept options event := by
  rw [keeps, PlainText.keeps, Kept, Bool.and_eq_true, Bool.or_eq_true, Bool.not_eq_true',
    Bool.not_eq_true']
  cases options.skipInvisible <;> simp

/-- The glyphs with text of the events that are kept, in order. -/
def shownGlyphs (options : Options) (events : List Event) : List ShownGlyph :=
  (events.filter (Kept options)).flatMap fun event =>
    (event.glyphs.filter Font.Glyph.HasText).map (event, ·)

/-- The text of these is that of all glyphs that are not blank. -/
theorem textOf_shownGlyphs (options : Options) (events : List Event) :
    Font.Glyph.textOf ((shownGlyphs options events).map Prod.snd) =
      Font.Glyph.textOf ((events.filter (Kept options)).flatMap fun event =>
        event.glyphs.filter fun glyph => ¬glyph.IsBlank) := by
  have hglyphs : (shownGlyphs options events).map Prod.snd =
      ((events.filter (Kept options)).flatMap Event.glyphs).filter Font.Glyph.HasText := by
    rw [shownGlyphs, List.map_flatMap, List.filter_flatMap]
    refine List.flatMap_congr fun event _ => ?_
    rw [List.map_map]
    exact List.map_id _
  rw [hglyphs, Font.Glyph.textOf_filter_hasText, List.filter_flatMap]

/-- The words, the last one first, are made of the given glyphs, each of a group of its own. -/
def MadeOf (reversed : List Word) (shown : List ShownGlyph) : Prop :=
  ∃ groups, List.Forall₂ Word.IsOf reversed groups ∧ groups.reverse.flatten = shown

/-- A further word has its glyphs after those of the words before. -/
theorem MadeOf.fresh {reversed : List Word} {shown shown' : List ShownGlyph}
    (h : MadeOf reversed shown) {word : Word} (hw : word.IsOf shown') :
    MadeOf (word :: reversed) (shown ++ shown') := by
  obtain ⟨groups, hwords, hflat⟩ := h
  refine ⟨shown' :: groups, .cons hw hwords, ?_⟩
  rw [List.reverse_cons, List.flatten_append, List.flatten_singleton, hflat]

/-- The last word can be continued by glyphs in its marking. -/
theorem MadeOf.continued {last word added : Word} {earlier : List Word}
    {shown shown' : List ShownGlyph} (h : MadeOf (last :: earlier) shown)
    (ha : added.IsOf shown') (htext : word.text = last.text ++ added.text)
    (hmarking : word.marking = last.marking) (hsame : last.marking = added.marking) :
    MadeOf (word :: earlier) (shown ++ shown') := by
  obtain ⟨_, hwords, hflat⟩ := h
  cases hwords with
  | @cons _ group _ groups hlast hearlier =>
    refine ⟨(group ++ shown') :: groups, .cons (hlast.append ha htext hmarking hsame) hearlier, ?_⟩
    rw [← hflat, List.reverse_cons, List.reverse_cons, List.flatten_append,
      List.flatten_append, List.flatten_singleton, List.flatten_singleton, List.append_assoc]

/-- A piece adds its glyphs, to a word of their own or to the last one. -/
theorem addPiece_madeOf {reversed : List Word} {shown : List ShownGlyph}
    (h : MadeOf reversed shown) (options : Options) (event : Event) {piece : Piece}
    {glyphs : List Font.Glyph} (hp : piece.IsOf glyphs) :
    MadeOf (addPiece options event reversed piece) (shown ++ glyphs.map (event, ·)) := by
  unfold addPiece
  cases reversed with
  | nil => exact h.fresh (.of_piece hp rfl rfl)
  | cons last earlier =>
    dsimp only
    split
    · rename_i hjoin
      simp only [Bool.and_eq_true, decide_eq_true_eq] at hjoin
      -- Continuing the last word is joining it with the word that the piece would be.
      let added : Word := ⟨piece.text, event.toUser.onPoint piece.start 0.0,
        event.toUser.onPoint piece.finish 0.0, markingOf event, false⟩
      have hadded : added.IsOf (glyphs.map (event, ·)) := .of_piece hp rfl rfl
      exact h.continued hadded rfl rfl hjoin.1.2
    · exact h.fresh (.of_piece hp rfl rfl)

/-- The pieces of a string add their glyphs one after the other. -/
theorem foldl_addPiece_madeOf {reversed : List Word} {shown : List ShownGlyph}
    (h : MadeOf reversed shown) (options : Options) (event : Event) {pieces : List Piece}
    {groups : List (List Font.Glyph)} (hp : List.Forall₂ Piece.IsOf pieces groups) :
    MadeOf (pieces.foldl (addPiece options event) reversed)
      (shown ++ groups.flatten.map (event, ·)) := by
  induction hp generalizing reversed shown with
  | nil => rwa [List.flatten_nil, List.map_nil, List.append_nil]
  | cons hpiece _ ih =>
    rw [List.foldl_cons, List.flatten_cons, List.map_append, ← List.append_assoc]
    exact ih (addPiece_madeOf h options event hpiece)

/-- An event adds its glyphs with text if it is kept, and nothing if it is dropped. -/
theorem receive_madeOf {extractor : MarkedText} {shown : List ShownGlyph}
    (h : MadeOf extractor.reversed shown) (event : Event) :
    MadeOf (extractor.receive event).reversed
      (shown ++ shownGlyphs extractor.options [event]) := by
  unfold receive
  by_cases hk : Kept extractor.options event
  · obtain ⟨groups, hpieces, hflat⟩ := Piece.cutFrom_isOf event.state Font.Glyph.textOf_nil.symm
      (fun _ => rfl) 0.0 0.0 extractor.pendingBreak event.glyphs
    have hall := foldl_addPiece_madeOf h extractor.options event hpieces
    rw [if_pos ((keeps_iff _ _).2 hk), shownGlyphs,
      List.filter_cons_of_pos (by simpa using hk), List.filter_nil, List.flatMap_singleton]
    rwa [hflat, List.nil_append] at hall
  · rw [if_neg fun hkeeps => hk ((keeps_iff _ _).1 hkeeps), shownGlyphs,
      List.filter_cons_of_neg (by simpa using hk), List.filter_nil, List.flatMap_nil,
      List.append_nil]
    exact h

/-- Events add their glyphs with text in order. -/
theorem receiveAll_madeOf {extractor : MarkedText} {shown : List ShownGlyph}
    (h : MadeOf extractor.reversed shown) (events : List Event) :
    MadeOf (Listener.receiveAll extractor events).reversed
      (shown ++ shownGlyphs extractor.options events) := by
  induction events generalizing extractor shown with
  | nil =>
    rw [shownGlyphs, List.filter_nil, List.flatMap_nil, List.append_nil]
    exact h
  | cons event events ih =>
    have hsplit : shownGlyphs extractor.options (event :: events) =
        shownGlyphs extractor.options [event] ++ shownGlyphs extractor.options events := by
      rw [shownGlyphs, ← List.singleton_append, List.filter_append, List.flatMap_append]
      rfl
    have hall := ih (receive_madeOf h event)
    rw [(extractor.options_receive event).1, List.append_assoc, ← hsplit] at hall
    exact hall

/-- The words of an extractor lose no text and invent none. They all have text; in order they
are the text of the glyphs that are not blank of the events that are kept; and each word is the
text of glyphs of its own, all shown in its marking, which together are the glyphs with text in
order. -/
theorem words_receiveAll (options : Options) (markup : Bool) (events : List Event) :
    (∀ word ∈ (Listener.receiveAll (empty options markup) events).words, word.text ≠ "") ∧
    String.join ((Listener.receiveAll (empty options markup) events).words.map Word.text) =
      Font.Glyph.textOf ((events.filter (Kept options)).flatMap fun event =>
        event.glyphs.filter fun glyph => ¬glyph.IsBlank) ∧
    ∃ groups,
      List.Forall₂ Word.IsOf (Listener.receiveAll (empty options markup) events).words groups ∧
        groups.flatten = shownGlyphs options events := by
  have hstart : MadeOf (empty options markup).reversed [] := ⟨[], .nil, rfl⟩
  obtain ⟨reversed, hwords, hflat⟩ := receiveAll_madeOf hstart events
  have hgroups := List.rel_reverse hwords
  refine ⟨Word.text_ne_empty_of_forall₂ hgroups, ?_, reversed.reverse, hgroups, hflat⟩
  have htexts := Word.join_text_of_forall₂ hgroups
  rw [hflat, List.nil_append, textOf_shownGlyphs] at htexts
  exact htexts

end MarkedText

end Extract

end PageText
