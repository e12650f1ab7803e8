import PageText.Proofs.Assembly
import PageText.Proofs.Separator

/-!
# Words and the blanks between them

A blank glyph keeps the words around it apart if the next text comes in the same string, or in
the next string that has glyphs at all. A piece that begins after a blank never continues the
last word, and what is assembled after it stays clear of the words before. But the break that a
string leaves for the next one is that of its last glyph: where a string ends in a code without
text, a blank before that is forgotten.
-/

namespace PageText.Extract

namespace Word

/-- The words are made of these glyphs, each of a group of its own. -/
def AreOf (words : List Word) (shown : List ShownGlyph) : Prop :=
  ∃ groups, List.Forall₂ IsOf words groups ∧ groups.flatten = shown

/-- No word has glyphs of both sides: the first words are made of those on the left, and the
others of those on the right. -/
def SplitAt (words : List Word) (left right : List ShownGlyph) : Prop :=
  ∃ first second, words = first ++ second ∧ AreOf first left ∧ AreOf second right

/-- No words show nothing. -/
theorem AreOf.eq_nil {shown : List ShownGlyph} (h : AreOf [] shown) : shown = [] := by
  obtain ⟨_, hgroups, hflat⟩ := h
  cases hgroups
  exact hflat.symm

/-- A single word is not split between glyphs. -/
theorem not_splitAt_singleton {words : List Word} (hwords : words.length = 1)
    {left right : List ShownGlyph} (hleft : left ≠ []) (hright : right ≠ []) :
    ¬SplitAt words left right := by
  rintro ⟨first, second, hsplit, hfirst, hsecond⟩
  rw [hsplit, List.length_append] at hwords
  cases first with
  | nil => exact hleft hfirst.eq_nil
  | cons word first =>
    cases second with
    | nil => exact hright hsecond.eq_nil
    | cons word' second =>
      simp only [List.length_cons] at hwords
      omega

end Word

namespace Piece

/-- A blank glyph ends the piece before it, and what follows it comes after a break. -/
theorem cutFrom_cons_of_blank (state : GraphicsState) (text : String) (start x : Float32)
    (breakBefore : Bool) {blank : Font.Glyph} (hblank : blank.IsBlank) (rest : List Font.Glyph) :
    cutFrom state text start x breakBefore (blank :: rest) =
      close text start x breakBefore ++
        cutFrom state "" start (x + state.advance [blank]) true rest := by
  rw [cutFrom, if_pos ((isBlank_iff blank).2 hblank)]

/-- Any other glyph continues the piece before it, which starts with the glyph if it has no text
yet. -/
theorem cutFrom_cons_of_not_blank (state : GraphicsState) (text : String) (start x : Float32)
    (breakBefore : Bool) {glyph : Font.Glyph} (hglyph : ¬glyph.IsBlank)
    (rest : List Font.Glyph) :
    cutFrom state text start x breakBefore (glyph :: rest) =
      cutFrom state (text ++ glyph.unicode) (if text.isEmpty then x else start)
        (x + state.advance [glyph]) breakBefore rest := by
  rw [cutFrom, if_neg (mt (isBlank_iff glyph).1 hglyph)]

/-- Glyphs are cut at a blank one, and the pieces after it come after a break. -/
theorem cutFrom_append_blank (state : GraphicsState) (text : String) (start x : Float32)
    (breakBefore : Bool) (left : List Font.Glyph) {blank : Font.Glyph} (hblank : blank.IsBlank)
    (right : List Font.Glyph) :
    ∃ start' x', cutFrom state text start x breakBefore (left ++ blank :: right) =
      cutFrom state text start x breakBefore left ++ cutFrom state "" start' x' true right := by
  induction left generalizing text start x breakBefore with
  | nil => exact ⟨_, _, cutFrom_cons_of_blank state text start x breakBefore hblank right⟩
  | cons glyph left ih =>
    by_cases hglyph : glyph.IsBlank
    · obtain ⟨start', x', h⟩ := ih "" start (x + state.advance [glyph]) true
      refine ⟨start', x', ?_⟩
      rw [List.cons_append, cutFrom_cons_of_blank _ _ _ _ _ hglyph,
        cutFrom_cons_of_blank _ _ _ _ _ hglyph, h, List.append_assoc]
    · rw [List.cons_append, cutFrom_cons_of_not_blank _ _ _ _ _ hglyph,
        cutFrom_cons_of_not_blank _ _ _ _ _ hglyph]
      exact ih ..

/-- All pieces cut after a break come after one. -/
theorem breakBefore_of_mem_cutFrom {state : GraphicsState} {glyphs : List Font.Glyph}
    {text : String} {start x : Float32} :
    ∀ piece ∈ cutFrom state text start x true glyphs, piece.breakBefore = true := by
  have hclose (text : String) (start x : Float32) :
      ∀ piece ∈ close text start x true, piece.breakBefore = true := by
    unfold close
    split
    · exact List.forall_mem_nil _
    · exact List.forall_mem_singleton.2 rfl
  induction glyphs generalizing text start x with
  | nil => exact hclose text start x
  | cons glyph glyphs ih =>
    unfold cutFrom
    dsimp only
    split
    · exact List.forall_mem_append.2 ⟨hclose text start x, ih⟩
    · exact ih

end Piece

namespace MarkedText

open PlainText (onLine)

/-- The words in order are made of the glyphs that they are made of in reverse. -/
theorem MadeOf.areOf {reversed : List Word} {shown : List ShownGlyph} (h : MadeOf reversed shown) :
    Word.AreOf reversed.reverse shown := by
  obtain ⟨groups, hwords, hflat⟩ := h
  exact ⟨groups.reverse, List.rel_reverse hwords, hflat⟩

/-- What happens to an event that is kept. -/
theorem receive_of_kept {extractor : MarkedText} {event : Event}
    (h : Kept extractor.options event) :
    extractor.receive event = ⟨extractor.options, extractor.markup,
      (Piece.cut event.state extractor.pendingBreak event.glyphs).foldl
        (addPiece extractor.options event) extractor.reversed,
      breakAfter extractor.pendingBreak event.glyphs⟩ :=
  if_pos ((keeps_iff _ _).2 h)

/-- An event that is not kept changes nothing. -/
theorem receive_of_not_kept {extractor : MarkedText} {event : Event}
    (h : ¬Kept extractor.options event) : extractor.receive event = extractor :=
  if_neg (mt (keeps_iff _ _).1 h)

/-- Only the events that are kept make a difference. -/
theorem receiveAll_kept (extractor : MarkedText) (events : List Event) :
    Listener.receiveAll extractor (events.filter (Kept extractor.options)) =
      Listener.receiveAll extractor events := by
  refine Listener.receiveAll_filter (fun extractor event other => ?_)
    (fun _ _ => receive_of_not_kept) extractor events
  rw [show Listener.receive extractor event = extractor.receive event from rfl,
    (extractor.options_receive event).1]

/-- The break after glyphs is that of the last part of them that is not empty. -/
theorem breakAfter_append (pending : Bool) (first second : List Font.Glyph) :
    breakAfter (breakAfter pending first) second = breakAfter pending (first ++ second) := by
  rw [breakAfter, breakAfter, breakAfter, List.getLast?_append]
  cases second.getLast? <;> rfl

/-- After events there is a break exactly if the last glyph of all those shown is blank. -/
theorem pendingBreak_receiveAll (extractor : MarkedText) {events : List Event}
    (hkept : ∀ event ∈ events, Kept extractor.options event) :
    (Listener.receiveAll extractor events).pendingBreak =
      breakAfter extractor.pendingBreak (events.flatMap Event.glyphs) := by
  induction events generalizing extractor with
  | nil => rfl
  | cons event events ih =>
    obtain ⟨hevent, hevents⟩ := List.forall_mem_cons.1 hkept
    have hreceive : (extractor.receive event).pendingBreak =
        breakAfter extractor.pendingBreak event.glyphs :=
      congrArg pendingBreak (receive_of_kept hevent)
    rw [Listener.receiveAll_cons, List.flatMap_cons, ← breakAfter_append, ← hreceive]
    refine ih (extractor.receive event) ?_
    rw [(extractor.options_receive event).1]
    exact hevents

section Earlier

variable (options : Options) (event : Event)

/-- A piece after a break is a word of its own. -/
theorem addPiece_of_breakBefore {piece : Piece} (h : piece.breakBefore = true)
    (reversed : List Word) : ∃ word, addPiece options event reversed piece = word :: reversed ∧
      word.text = piece.text ∧ word.marking = markingOf event := by
  cases reversed with
  | nil => exact ⟨_, rfl, rfl, rfl⟩
  | cons last earlier =>
    simp only [addPiece, h, Bool.not_true, Bool.and_false, Bool.false_and, Bool.false_eq_true,
      if_false]
    exact ⟨_, rfl, rfl, rfl⟩

/-- Where there are words, only the last one matters to a piece. -/
theorem addPiece_append {later : List Word} (hne : later ≠ []) (earlier : List Word)
    (piece : Piece) : addPiece options event (later ++ earlier) piece =
      addPiece options event later piece ++ earlier ∧ addPiece options event later piece ≠ [] := by
  cases later with
  | nil => exact absurd rfl hne
  | cons last between =>
    rw [List.cons_append]
    unfold addPiece
    dsimp only
    split
    · exact ⟨rfl, List.cons_ne_nil _ _⟩
    · exact ⟨rfl, List.cons_ne_nil _ _⟩

/-- Where there are words, only the last one matters to the pieces of a string. -/
theorem foldl_addPiece_append (pieces : List Piece) {later : List Word} (hne : later ≠ [])
    (earlier : List Word) : pieces.foldl (addPiece options event) (later ++ earlier) =
      pieces.foldl (addPiece options event) later ++ earlier ∧
        pieces.foldl (addPiece options event) later ≠ [] := by
  induction pieces generalizing later with
  | nil => exact ⟨rfl, hne⟩
  | cons piece pieces ih =>
    obtain ⟨hpiece, hne'⟩ := addPiece_append options event hne earlier piece
    rw [List.foldl_cons, hpiece]
    exact ih hne'

/-- The first of some pieces, if it comes after a break, keeps all of them away from the words
before. -/
theorem foldl_addPiece_of_break {piece : Piece} {pieces : List Piece}
    {groups : List (List Font.Glyph)} (hbreak : piece.breakBefore = true)
    (hpieces : List.Forall₂ Piece.IsOf (piece :: pieces) groups) (earlier : List Word) :
    ∃ later, (piece :: pieces).foldl (addPiece options event) earlier = later ++ earlier ∧
      later ≠ [] ∧ MadeOf later (groups.flatten.map (event, ·)) := by
  cases hpieces with
  | @cons _ group _ groups hpiece hpieces =>
    obtain ⟨word, hword, htext, hmarking⟩ :=
      addPiece_of_breakBefore options event hbreak earlier
    have hmade : MadeOf [word] (group.map (event, ·)) :=
      ⟨[group.map (event, ·)], .cons (.of_piece hpiece htext hmarking) .nil,
        List.flatten_singleton⟩
    obtain ⟨hfold, hne⟩ :=
      foldl_addPiece_append options event pieces (List.cons_ne_nil word []) earlier
    refine ⟨pieces.foldl (addPiece options event) [word], ?_, hne, ?_⟩
    · rw [List.foldl_cons, hword]
      exact hfold
    · rw [List.flatten_cons, List.map_append]
      exact foldl_addPiece_madeOf hmade options event hpieces

end Earlier

/-- The extractor with further words before its own. -/
def after (earlier : List Word) (extractor : MarkedText) : MarkedText :=
  { extractor with reversed := extractor.reversed ++ earlier }

/-- Where there are words, those before them make no difference to an event. -/
theorem receive_after (earlier : List Word) {extractor : MarkedText}
    (hne : extractor.reversed ≠ []) (event : Event) :
    (after earlier extractor).receive event = after earlier (extractor.receive event) ∧
      (extractor.receive event).reversed ≠ [] := by
  by_cases hevent : Kept extractor.options event
  · have hafter : Kept (after earlier extractor).options event := hevent
    obtain ⟨hwords, hne'⟩ := foldl_addPiece_append extractor.options event
      (Piece.cut event.state extractor.pendingBreak event.glyphs) hne earlier
    rw [receive_of_kept hevent, receive_of_kept hafter]
    exact ⟨congrArg (MarkedText.mk _ _ · _) hwords, hne'⟩
  · have hafter : ¬Kept (after earlier extractor).options event := hevent
    rw [receive_of_not_kept hevent, receive_of_not_kept hafter]
    exact ⟨rfl, hne⟩

/-- Where there are words, those before them make no difference to any events. -/
theorem receiveAll_after (earlier : List Word) {extractor : MarkedText}
    (hne : extractor.reversed ≠ []) (events : List Event) :
    Listener.receiveAll (after earlier extractor) events =
      after earlier (Listener.receiveAll extractor events) := by
  induction events generalizing extractor with
  | nil => rfl
  | cons event events ih =>
    obtain ⟨hreceive, hne'⟩ := receive_after earlier hne event
    rw [Listener.receiveAll_cons, Listener.receiveAll_cons]
    exact (congrArg (Listener.receiveAll · events) hreceive).trans (ih hne')

/-- A string with a break somewhere in it, or before it, is cut there. -/
theorem exists_cut_of_break (state : GraphicsState) {pending : Bool} {left : List Font.Glyph}
    (hbreak : breakAfter pending left = true) (right : List Font.Glyph) :
    ∃ first second, Piece.cut state pending (left ++ right) = first ++ second ∧
      (∃ groups, List.Forall₂ Piece.IsOf first groups ∧
        groups.flatten = left.filter Font.Glyph.HasText) ∧
      (∃ groups, List.Forall₂ Piece.IsOf second groups ∧
        groups.flatten = right.filter Font.Glyph.HasText) ∧
      ∀ piece ∈ second, piece.breakBefore = true := by
  have hcut (start x : Float32) (breakBefore : Bool) (glyphs : List Font.Glyph) :=
    Piece.cutFrom_isOf state Font.Glyph.textOf_nil.symm (fun _ => rfl) start x breakBefore glyphs
  rcases List.eq_nil_or_concat' left with rfl | ⟨left, blank, rfl⟩
  · obtain rfl : pending = true := hbreak
    exact ⟨[], _, rfl, ⟨[], .nil, rfl⟩, hcut 0.0 0.0 true right, Piece.breakBefore_of_mem_cutFrom⟩
  · have hblank : blank.IsBlank := by
      rw [breakAfter, List.getLast?_concat] at hbreak
      exact (Piece.isBlank_iff blank).1 hbreak
    obtain ⟨start, x, hpieces⟩ :=
      Piece.cutFrom_append_blank state "" 0.0 0.0 pending left hblank right
    refine ⟨Piece.cutFrom state "" 0.0 0.0 pending left, _, ?_, ?_, hcut start x true right,
      Piece.breakBefore_of_mem_cutFrom⟩
    · rw [Piece.cut, List.append_assoc, List.singleton_append, hpieces]
    · have hskip : ¬blank.HasText := fun h => h.2 hblank
      rw [List.filter_append, List.filter_cons_of_neg (by simpa using hskip), List.filter_nil,
        List.append_nil]
      exact hcut 0.0 0.0 pending left

/-- An event with text after a break, and the events after it, leave the words alone that are
made of the glyphs before the break. -/
theorem receiveAll_at_break {extractor : MarkedText} {shown : List ShownGlyph} {event : Event}
    (hmade : MadeOf extractor.reversed shown) (hevent : Kept extractor.options event)
    {left right : List Font.Glyph} (hglyphs : event.glyphs = left ++ right)
    (hbreak : breakAfter extractor.pendingBreak left = true)
    (htext : ∃ glyph ∈ right, glyph.HasText) (events : List Event) :
    ∃ later earlier,
      (Listener.receiveAll extractor (event :: events)).reversed = later ++ earlier ∧
      MadeOf earlier (shown ++ (left.filter Font.Glyph.HasText).map (event, ·)) ∧
      MadeOf later ((right.filter Font.Glyph.HasText).map (event, ·) ++
        shownGlyphs extractor.options events) := by
  obtain ⟨first, second, hcut, ⟨groups, hfirst, hleft⟩, ⟨groups', hsecond, hright⟩, hbreaks⟩ :=
    exists_cut_of_break event.state hbreak right
  cases second with
  | nil =>
    -- Then the string would have no text after the break.
    cases hsecond
    obtain ⟨glyph, hmem, hglyph⟩ := htext
    have hnone : glyph ∈ right.filter Font.Glyph.HasText :=
      List.mem_filter.2 ⟨hmem, decide_eq_true hglyph⟩
    rw [← hright] at hnone
    exact absurd hnone List.not_mem_nil
  | cons piece pieces =>
    have hearlier := foldl_addPiece_madeOf hmade extractor.options event hfirst
    obtain ⟨words, hwords, hne, hmade'⟩ := foldl_addPiece_of_break extractor.options event
      (hbreaks piece List.mem_cons_self) hsecond
      (first.foldl (addPiece extractor.options event) extractor.reversed)
    rw [hleft] at hearlier
    rw [hright] at hmade'
    let own : MarkedText := ⟨extractor.options, extractor.markup, words,
      breakAfter extractor.pendingBreak event.glyphs⟩
    have hreceive : Listener.receive extractor event =
        after (first.foldl (addPiece extractor.options event) extractor.reversed) own := by
      refine (receive_of_kept hevent).trans ?_
      rw [hglyphs, hcut, List.foldl_append, hwords, ← hglyphs]
      rfl
    refine ⟨(Listener.receiveAll own events).reversed, _, ?_, hearlier,
      @receiveAll_madeOf own _ hmade' events⟩
    rw [Listener.receiveAll_cons, hreceive, @receiveAll_after _ own hne events]
    rfl

/-- Words are split wherever the last glyph shown is blank and text follows in the same string:
behind a blank within the string, or at its start if the last glyph of the strings before is
blank. No word has glyphs of both sides. -/
theorem words_splitAt_blank (options : Options) (markup : Bool) (events : List Event)
    {before further : List Event} {event : Event} {left right : List Font.Glyph}
    (hkept : events.filter (Kept options) = before ++ event :: further)
    (hglyphs : event.glyphs = left ++ right)
    (hblank : ∃ blank, (before.flatMap Event.glyphs ++ left).getLast? = some blank ∧
      blank.IsBlank)
    (htext : ∃ glyph ∈ right, glyph.HasText) :
    Word.SplitAt (Listener.receiveAll (empty options markup) events).words
      (shownGlyphs options before ++ (left.filter Font.Glyph.HasText).map (event, ·))
      ((right.filter Font.Glyph.HasText).map (event, ·) ++ shownGlyphs options further) := by
  obtain ⟨hbefore, hafter⟩ : (∀ shown ∈ before, Kept options shown) ∧
      ∀ shown ∈ event :: further, Kept options shown := by
    rw [← List.forall_mem_append, ← hkept]
    exact fun _ h => of_decide_eq_true (List.mem_filter.1 h).2
  let reached := Listener.receiveAll (empty options markup) before
  have hoptions : reached.options = options :=
    ((empty options markup).options_receiveAll before).1
  have hreached : MadeOf reached.reversed (shownGlyphs options before) :=
    @receiveAll_madeOf (empty options markup) [] ⟨[], .nil, rfl⟩ before
  have hevent : Kept reached.options event := by
    rw [hoptions]
    exact hafter event List.mem_cons_self
  have hbreak : breakAfter reached.pendingBreak left = true := by
    obtain ⟨blank, hlast, hblank⟩ := hblank
    rw [pendingBreak_receiveAll (empty options markup) hbefore, breakAfter_append, breakAfter,
      hlast]
    exact (Piece.isBlank_iff blank).2 hblank
  obtain ⟨later, earlier, hreversed, hearlier, hlater⟩ :=
    receiveAll_at_break hreached hevent hglyphs hbreak htext further
  have hall : Listener.receiveAll (empty options markup) events =
      Listener.receiveAll reached (event :: further) := by
    have hsame := receiveAll_kept (empty options markup) events
    rw [← hsame, ← Listener.receiveAll_append, ← hkept]
    rfl
  rw [hoptions] at hlater
  refine ⟨earlier.reverse, later.reverse, ?_, hearlier.areOf, hlater.areOf⟩
  rw [words, hall, hreversed, List.reverse_append]

/-- A blank at the end of a string splits the words in front of the next string with glyphs, also
where that begins with a code without text and its letter touches the word before. -/
theorem words_splitAt_blank_letters :
    [onLine [0x61, 0x20] 0.0, onLine [] 12.0, onLine [0x81, 0x62] 0.0].filter (Kept .default) =
      [onLine [0x61, 0x20] 0.0, onLine [] 12.0] ++ onLine [0x81, 0x62] 0.0 :: [] ∧
    (onLine [0x81, 0x62] 0.0).glyphs = [] ++ (onLine [0x81, 0x62] 0.0).glyphs ∧
    (∃ blank, ([onLine [0x61, 0x20] 0.0, onLine [] 12.0].flatMap Event.glyphs ++ []).getLast? =
      some blank ∧ blank.IsBlank) ∧
    (∃ glyph ∈ (onLine [0x81, 0x62] 0.0).glyphs, glyph.HasText) ∧
    Word.SplitAt (Listener.receiveAll (empty .default false)
        [onLine [0x61, 0x20] 0.0, onLine [] 12.0, onLine [0x81, 0x62] 0.0]).words
      (shownGlyphs .default [onLine [0x61, 0x20] 0.0, onLine [] 12.0])
      (((onLine [0x81, 0x62] 0.0).glyphs.filter Font.Glyph.HasText).map
        (onLine [0x81, 0x62] 0.0, ·)) := by
  have hkept : [onLine [0x61, 0x20] 0.0, onLine [] 12.0, onLine [0x81, 0x62] 0.0].filter
      (Kept .default) =
        [onLine [0x61, 0x20] 0.0, onLine [] 12.0] ++ onLine [0x81, 0x62] 0.0 :: [] := rfl
  have hglyphs : (onLine [0x81, 0x62] 0.0).glyphs = [] ++ (onLine [0x81, 0x62] 0.0).glyphs := rfl
  have hblank : ∃ blank, ([onLine [0x61, 0x20] 0.0, onLine [] 12.0].flatMap Event.glyphs ++
      []).getLast? = some blank ∧ blank.IsBlank :=
    ⟨_, rfl, (Piece.isBlank_iff _).1 (by decide +kernel)⟩
  have htext : ∃ glyph ∈ (onLine [0x81, 0x62] 0.0).glyphs, glyph.HasText :=
    ⟨_, List.mem_cons_of_mem _ List.mem_cons_self, by decide +kernel,
      mt (Piece.isBlank_iff _).2 (by decide +kernel)⟩
  have hsplit := words_splitAt_blank .default false _ hkept hglyphs hblank htext
  have hnone : shownGlyphs .default [] = [] := rfl
  rw [List.filter_nil, List.map_nil, List.append_nil, hnone, List.append_nil] at hsplit
  exact ⟨hkept, hglyphs, hblank, htext, hsplit⟩

/-- A blank at the end of a string does not split the words if the next string is a code without
text: then a letter that touches the word before continues it, across the blank. -/
theorem break_forgotten :
    ∃ first blank second : Font.Glyph, ∃ unmapped : Font.Glyph,
      (onLine [0x61, 0x20] 0.0).glyphs = [first, blank] ∧
      (onLine [0x81] 12.0).glyphs = [unmapped] ∧ (onLine [0x62] 6.0).glyphs = [second] ∧
      first.HasText ∧ blank.IsBlank ∧ unmapped.unicode = "" ∧ second.HasText ∧
      [onLine [0x61, 0x20] 0.0, onLine [0x81] 12.0, onLine [0x62] 6.0].filter (Kept .default) =
        [onLine [0x61, 0x20] 0.0, onLine [0x81] 12.0, onLine [0x62] 6.0] ∧
      (Listener.receiveAll (empty .default false)
        [onLine [0x61, 0x20] 0.0, onLine [0x81] 12.0, onLine [0x62] 6.0]).words.map Word.text =
          ["ab"] ∧
      ¬Word.SplitAt (Listener.receiveAll (empty .default false)
          [onLine [0x61, 0x20] 0.0, onLine [0x81] 12.0, onLine [0x62] 6.0]).words
        [(onLine [0x61, 0x20] 0.0, first)] [(onLine [0x62] 6.0, second)] := by
  have htexts : (Listener.receiveAll (empty .default false)
      [onLine [0x61, 0x20] 0.0, onLine [0x81] 12.0, onLine [0x62] 6.0]).words.map Word.text =
        ["ab"] := by decide +kernel
  have hlength := congrArg List.length htexts
  rw [List.length_map] at hlength
  exact ⟨_, _, _, _, rfl, rfl, rfl,
    ⟨by decide +kernel, mt (Piece.isBlank_iff _).2 (by decide +kernel)⟩,
    (Piece.isBlank_iff _).1 (by decide +kernel), by decide +kernel,
    ⟨by decide +kernel, mt (Piece.isBlank_iff _).2 (by decide +kernel)⟩, rfl, htexts,
    Word.not_splitAt_singleton hlength (List.cons_ne_nil _ _) (List.cons_ne_nil _ _)⟩

end MarkedText

end PageText.Extract
