import Mathlib.Data.List.Chain
import PageText.Proofs.History

/-!
# Separators in plain text

Plain text is the texts of the events that are kept, in order, with a separator between
neighbours: what ends a line where a new one starts, and otherwise a space or nothing. A space
is written only where a gap needs one. Gaps are measured between consecutive events, with or
without text, but can only be written in front of text; so a gap in front of an event that shows
nothing is forgotten.
-/

namespace PageText.Extract.PlainText

/-- The event is painted, if only such ones are asked for. -/
def Kept (options : Options) (event : Event) : Prop :=
  options.skipInvisible = true → event.isVisible = true

/-- The event starts a new line, seen from the one before. -/
def StartsLine (options : Options) (last event : Event) : Prop :=
  options.lineBreakThreshold < (Baseline.ofEvent last).offset event.start

/-- More than the given share of a space lies between the event and the one before. -/
def WideGap (options : Options) (last event : Event) : Prop :=
  event.singleSpaceWidth * options.spaceRatio < (Baseline.ofEvent last).gap event.start

instance (options : Options) (event : Event) : Decidable (Kept options event) :=
  inferInstanceAs (Decidable (_ → _))

instance (options : Options) (last event : Event) : Decidable (StartsLine options last event) :=
  inferInstanceAs (Decidable (_ < _))

instance (options : Options) (last event : Event) : Decidable (WideGap options last event) :=
  inferInstanceAs (Decidable (_ < _))

/-- The events that are kept, in order. -/
def kept (options : Options) (events : List Event) : List Event := events.filter (Kept options)

/-- What is written of events. -/
def written (options : Options) (events : List Event) : String :=
  (Listener.receiveAll (empty options) events).text

/-- There is text on both sides, and no space where they meet. -/
structure Bare (written text : String) : Prop where
  /-- Something has been written. -/
  written_ne : written ≠ ""
  /-- It does not end with a space. -/
  ending : written.toList.getLast? ≠ some ' '
  /-- Something follows. -/
  text_ne : text ≠ ""
  /-- It does not begin with a space. -/
  beginning : text.toList.head? ≠ some ' '

/-- What stands between the text so far and the text of an event. -/
structure IsSeparator (options : Options) (written : String) (last event : Event)
    (separator : String) : Prop where
  /-- A line that starts is separated by what ends lines. -/
  line : StartsLine options last event → separator = options.lineSeparator
  /-- On a line there is one space if a gap needs it, and nothing else. -/
  space : ¬StartsLine options last event →
    separator = " " ∧ WideGap options last event ∧ Bare written event.text ∨
      separator = "" ∧ ¬(WideGap options last event ∧ Bare written event.text)

/-- The extractor keeps these events. -/
theorem keeps_iff (options : Options) (event : Event) :
    keeps options event = true ↔ Kept options event := by
  rw [keeps, Kept, Bool.or_eq_true, Bool.not_eq_true']
  cases options.skipInvisible <;> simp

/-- The extractor admits a space where it is missing. -/
theorem admitsSpace_iff (written text : String) :
    admitsSpace written text = true ↔ Bare written text := by
  simp only [admitsSpace, startsWithSpace, endsWithSpace, String.front?_eq, String.back?_eq,
    Bool.and_eq_true, Bool.not_eq_true', String.isEmpty_eq_false_iff, beq_eq_false_iff_ne]
  exact ⟨fun ⟨⟨⟨htext, hbegin⟩, hwritten⟩, hend⟩ => ⟨hwritten, hend, htext, hbegin⟩,
    fun h => ⟨⟨⟨h.text_ne, h.beginning⟩, h.written_ne⟩, h.ending⟩⟩

variable {extractor : PlainText} {last : Event}

/-- After an event the extractor writes a separator. -/
theorem separator_isSeparator (hlast : extractor.last = some (.ofEvent last)) (event : Event) :
    IsSeparator extractor.options extractor.text last event (extractor.separator event) := by
  constructor
  · intro hline
    rw [separator, hlast]
    exact if_pos (decide_eq_true hline)
  · intro hline
    have hwide : (admitsSpace extractor.text event.text &&
        decide (event.singleSpaceWidth * extractor.options.spaceRatio <
          (Baseline.ofEvent last).gap event.start)) = true ↔
        WideGap extractor.options last event ∧ Bare extractor.text event.text := by
      rw [Bool.and_eq_true, admitsSpace_iff, decide_eq_true_eq, and_comm]
      rfl
    simp only [separator, hlast]
    rw [if_neg (show ¬Baseline.startsNewLine _ _ _ = true from mt of_decide_eq_true hline)]
    by_cases hspace : WideGap extractor.options last event ∧ Bare extractor.text event.text
    · exact Or.inl ⟨if_pos (hwide.2 hspace), hspace⟩
    · exact Or.inr ⟨if_neg (mt hwide.1 hspace), hspace⟩

/-- What happens to an event that is kept. -/
theorem receive_of_kept {event : Event} (h : Kept extractor.options event) :
    extractor.receive event = ⟨extractor.options,
      extractor.text ++ extractor.separator event ++ event.text, some (.ofEvent event)⟩ :=
  if_pos ((keeps_iff _ _).2 h)

/-- Only the events that are kept make a difference. -/
theorem receiveAll_kept (extractor : PlainText) (events : List Event) :
    Listener.receiveAll extractor (kept extractor.options events) =
      Listener.receiveAll extractor events := by
  refine Listener.receiveAll_filter (fun extractor event other => ?_)
    (fun extractor event hdrop => if_neg (mt (keeps_iff _ _).1 hdrop)) extractor events
  rw [show Listener.receive extractor event = extractor.receive event from rfl,
    extractor.options_receive]

/-- Events that are not kept leave the text as it is. -/
theorem written_kept (options : Options) (events : List Event) :
    written options (kept options events) = written options events :=
  congrArg text (receiveAll_kept (empty options) events)

/-- All these events are kept. -/
theorem of_mem_kept {options : Options} {events : List Event} :
    ∀ event ∈ kept options events, Kept options event :=
  fun _ h => of_decide_eq_true (List.mem_filter.1 h).2

/-- Texts in order, with separators between them. -/
def assemble : List String → List String → String
  | [], _ => ""
  | text :: texts, separators =>
    text ++ String.join (List.zipWith (· ++ ·) separators texts)

/-- Further events that are kept write a separator each, and then their texts. The text so far
and the event before carry the induction. -/
theorem exists_separators {events : List Event}
    (hkept : ∀ event ∈ events, Kept extractor.options event)
    (hlast : extractor.last = some (.ofEvent last)) :
    ∃ separators : List String, separators.length = events.length ∧
      (Listener.receiveAll extractor events).text = extractor.text ++
        String.join (List.zipWith (· ++ ·) separators (events.map Event.text)) ∧
      ∀ i previous event, (last :: events)[i]? = some previous → events[i]? = some event →
        ∃ separator, separators[i]? = some separator ∧
          IsSeparator extractor.options (extractor.text ++ String.join (List.zipWith (· ++ ·)
            (separators.take i) ((events.map Event.text).take i))) previous event separator := by
  induction events generalizing extractor last with
  | nil =>
    refine ⟨[], rfl, String.append_empty.symm, fun _ _ _ _ hnext => ?_⟩
    rw [List.getElem?_nil] at hnext
    cases hnext
  | cons event events ih =>
    obtain ⟨hevent, hevents⟩ := List.forall_mem_cons.1 hkept
    have hreceive := receive_of_kept hevent
    have hkept' : ∀ event' ∈ events, Kept (extractor.receive event).options event' := by
      rw [extractor.options_receive]
      exact hevents
    obtain ⟨separators, hlength, htext, hall⟩ := ih hkept' (congrArg PlainText.last hreceive)
    refine ⟨extractor.separator event :: separators, congrArg (· + 1) hlength, ?_, ?_⟩
    · rw [Listener.receiveAll_cons]
      refine htext.trans ?_
      rw [hreceive, List.map_cons, List.zipWith_cons_cons, String.join_cons]
      simp only [String.append_assoc]
    · intro i previous next hprevious hnext
      cases i with
      | zero =>
        cases hprevious
        cases hnext
        refine ⟨_, rfl, ?_⟩
        have hseparator := separator_isSeparator hlast event
        rwa [List.take_zero, List.zipWith_nil_left, String.join_nil, String.append_empty]
      | succ i =>
        obtain ⟨separator, hget, hseparator⟩ := hall i previous next hprevious hnext
        refine ⟨separator, hget, ?_⟩
        rw [extractor.options_receive, hreceive] at hseparator
        rw [List.take_succ_cons, List.map_cons, List.take_succ_cons, List.zipWith_cons_cons,
          String.join_cons]
        simpa only [String.append_assoc] using hseparator

/-- Plain text is the texts of the events that are kept, with separators between them: what
ends a line where an event starts one, seen from the one before, and otherwise one space or
nothing. The space is written exactly if the gap is wide and there is text on both sides, none
of which has a space there. Events that are dropped make no difference. -/
theorem written_separated (options : Options) (events : List Event) :
    written options (kept options events) = written options events ∧
    ∃ separators : List String,
      separators.length = (kept options events).length - 1 ∧
      written options events = assemble ((kept options events).map Event.text) separators ∧
      ∀ i last event, (kept options events)[i]? = some last →
        (kept options events)[i + 1]? = some event →
        ∃ separator, separators[i]? = some separator ∧
          IsSeparator options (assemble (((kept options events).map Event.text).take (i + 1))
            (separators.take i)) last event separator := by
  refine ⟨written_kept options events, ?_⟩
  rw [← written_kept]
  have hkept := @of_mem_kept options events
  generalize kept options events = events at hkept
  cases events with
  | nil =>
    refine ⟨[], rfl, rfl, fun i last _ hlast => ?_⟩
    rw [List.getElem?_nil] at hlast
    cases hlast
  | cons first events =>
    obtain ⟨hfirst, hevents⟩ := List.forall_mem_cons.1 hkept
    have hreceive : (empty options).receive first =
        ⟨options, first.text, some (.ofEvent first)⟩ := by
      rw [receive_of_kept hfirst]
      have hnone : (empty options).separator first = "" := rfl
      rw [hnone, empty, String.empty_append, String.empty_append]
    have hkept' : ∀ event ∈ events, Kept ((empty options).receive first).options event := by
      rw [hreceive]
      exact hevents
    obtain ⟨separators, hlength, htext, hall⟩ :=
      exists_separators hkept' (congrArg PlainText.last hreceive)
    rw [hreceive] at htext hall
    refine ⟨separators, hlength, ?_, hall⟩
    rw [written, Listener.receiveAll_cons]
    exact (congrArg (fun extractor => (Listener.receiveAll extractor events).text)
      hreceive).trans htext

/-- None of these events starts a line, seen from the one before. -/
def OneLine (options : Options) (events : List Event) : Prop :=
  events.IsChain fun last event => ¬StartsLine options last event

/-- What ends the lines between these events. -/
def lineEnds (options : Options) : List Event → String
  | last :: event :: rest =>
    (if StartsLine options last event then options.lineSeparator else "") ++
      lineEnds options (event :: rest)
  | _ => ""

/-- A single event ends no line. -/
theorem lineEnds_singleton (options : Options) (event : Event) : lineEnds options [event] = "" :=
  rfl

/-- On one line no line is ended. -/
theorem lineEnds_of_oneLine {options : Options} {events : List Event}
    (h : OneLine options events) : lineEnds options events = "" := by
  induction h with
  | nil => rfl
  | singleton => rfl
  | cons_cons hline _ ih => rw [lineEnds, if_neg hline, ih, String.empty_append]

/-- Where a line starts between events, what ends lines is written. -/
theorem exists_lineEnds {options : Options} {events : List Event} (h : ¬OneLine options events) :
    ∃ before after, lineEnds options events = before ++ options.lineSeparator ++ after := by
  induction events with
  | nil => exact absurd .nil h
  | cons last events ih =>
    cases events with
    | nil => exact absurd (.singleton last) h
    | cons event rest =>
      by_cases hline : StartsLine options last event
      · exact ⟨"", lineEnds options (event :: rest), by
          rw [lineEnds, if_pos hline, String.empty_append]⟩
      · obtain ⟨before, after, hends⟩ := ih fun hrest => h (.cons_cons hline hrest)
        exact ⟨before, after, by rw [lineEnds, if_neg hline, String.empty_append, hends]⟩

/-- Two events show one text after the other: those between them show nothing. -/
structure Neighbours (events past : List Event) (shown : Event) (quiet : List Event)
    (next : Event) (rest : List Event) : Prop where
  /-- The events in order. -/
  events_eq : events = past ++ shown :: (quiet ++ next :: rest)
  /-- The first one shows text. -/
  shown_text : shown.text ≠ ""
  /-- Then nothing is shown. -/
  quiet_text : ∀ event ∈ quiet, event.text = ""
  /-- The second one shows text. -/
  next_text : next.text ≠ ""

/-- The texts of such events do not run together: one of them has a space there, or a space
stands between them, or a line starts and what ends lines stands there. -/
def Apart (options : Options) (shown : Event) (quiet : List Event) (next : Event)
    (between : String) : Prop :=
  shown.text.toList.getLast? = some ' ' ∨ next.text.toList.head? = some ' ' ∨
    ' ' ∈ between.toList ∨ ¬OneLine options (shown :: (quiet ++ [next])) ∧
      ∃ before after, between = before ++ options.lineSeparator ++ after

/-- An event without text writes nothing but what ends a line. -/
theorem separator_of_quiet (hlast : extractor.last = some (.ofEvent last)) {event : Event}
    (hquiet : event.text = "") : extractor.separator event =
      if StartsLine extractor.options last event then extractor.options.lineSeparator
      else "" := by
  have hseparator := separator_isSeparator hlast event
  split
  · rename_i hline
    exact hseparator.line hline
  · rename_i hline
    rcases hseparator.space hline with ⟨-, -, hbare⟩ | ⟨hnone, -⟩
    · exact absurd hquiet hbare.text_ne
    · exact hnone

/-- Events without text end the lines between them, and the last one is the one that the next
event is compared with. -/
theorem receiveAll_quiet (hlast : extractor.last = some (.ofEvent last)) {quiet : List Event}
    (hkept : ∀ event ∈ quiet, Kept extractor.options event)
    (hquiet : ∀ event ∈ quiet, event.text = "") :
    Listener.receiveAll extractor quiet = ⟨extractor.options,
      extractor.text ++ lineEnds extractor.options (last :: quiet),
      some (.ofEvent ((last :: quiet).getLast (List.cons_ne_nil _ _)))⟩ := by
  induction quiet generalizing extractor last with
  | nil =>
    rw [lineEnds_singleton, String.append_empty, List.getLast_singleton, ← hlast]
    rfl
  | cons event quiet ih =>
    obtain ⟨hevent, hkept⟩ := List.forall_mem_cons.1 hkept
    obtain ⟨hnone, hquiet⟩ := List.forall_mem_cons.1 hquiet
    have hreceive : Listener.receive extractor event = ⟨extractor.options,
        extractor.text ++ extractor.separator event, some (.ofEvent event)⟩ := by
      refine (receive_of_kept hevent).trans ?_
      rw [hnone, String.append_empty]
    have hrest := @ih ⟨extractor.options, extractor.text ++ extractor.separator event,
      some (.ofEvent event)⟩ event rfl hkept hquiet
    rw [Listener.receiveAll_cons, hreceive, hrest, separator_of_quiet hlast hnone, lineEnds,
      List.getLast_cons (List.cons_ne_nil _ _), String.append_assoc]

/-- An event adds to the text, if it does anything. -/
theorem exists_text_receive (extractor : PlainText) (event : Event) :
    ∃ tail, (extractor.receive event).text = extractor.text ++ tail := by
  unfold receive
  split
  · exact ⟨extractor.separator event ++ event.text, String.append_assoc ..⟩
  · exact ⟨"", String.append_empty.symm⟩

/-- Events add to the text, and take nothing back. -/
theorem exists_text_receiveAll (extractor : PlainText) (events : List Event) :
    ∃ tail, (Listener.receiveAll extractor events).text = extractor.text ++ tail := by
  induction events generalizing extractor with
  | nil => exact ⟨"", String.append_empty.symm⟩
  | cons event events ih =>
    obtain ⟨first, hfirst⟩ := exists_text_receive extractor event
    obtain ⟨rest, hrest⟩ := ih (extractor.receive event)
    refine ⟨first ++ rest, hrest.trans ?_⟩
    rw [hfirst, String.append_assoc]

/-- What is written of further events comes after what has been written. -/
theorem exists_written_append (options : Options) (events further : List Event) :
    ∃ tail, written options (events ++ further) = written options events ++ tail := by
  rw [written, Listener.receiveAll_append]
  exact exists_text_receiveAll _ further

variable {options : Options} {events past quiet rest : List Event} {shown next : Event}

/-- Between texts on a line that have no space where they meet, the separator is a space exactly
if the gap is wide. -/
theorem IsSeparator.space_mem_iff {before separator : String}
    (hs : IsSeparator options before last next separator) (hline : ¬StartsLine options last next)
    (hbare : Bare before next.text) : ' ' ∈ separator.toList ↔ WideGap options last next := by
  rcases hs.space hline with ⟨hspace, hgap, -⟩ | ⟨hempty, hgap⟩
  · rw [hspace]
    exact ⟨fun _ => hgap, fun _ => by decide⟩
  · rw [hempty]
    exact ⟨nofun, fun hwide => absurd ⟨hwide, hbare⟩ hgap⟩

/-- The last one of some events writes its separator and its text, and is what the next one is
compared with. -/
theorem receiveAll_concat (hkept : Kept options shown) (past : List Event) :
    Listener.receiveAll (empty options) (past ++ [shown]) = ⟨options,
      written options past ++ (Listener.receiveAll (empty options) past).separator shown ++
        shown.text, some (.ofEvent shown)⟩ := by
  have hoptions : (Listener.receiveAll (empty options) past).options = options :=
    (empty options).options_receiveAll past
  have hreceive := @receive_of_kept (Listener.receiveAll (empty options) past) shown
  rw [hoptions] at hreceive
  rw [Listener.receiveAll_append]
  exact hreceive hkept

/-- What is written of events ends with the text of the last one. -/
theorem written_concat (hkept : Kept options shown) (past : List Event) :
    written options (past ++ [shown]) =
      written options past ++ (Listener.receiveAll (empty options) past).separator shown ++
        shown.text :=
  congrArg text (receiveAll_concat hkept past)

/-- Between the texts of two events lines are ended, and the second event has its separator, as
seen from the event directly before it. -/
theorem Neighbours.written_eq (hn : Neighbours (kept options events) past shown quiet next rest) :
    ∃ separator, written options (past ++ shown :: (quiet ++ [next])) =
        written options (past ++ [shown]) ++ (lineEnds options (shown :: quiet) ++ separator) ++
          next.text ∧
      IsSeparator options (written options (past ++ [shown]) ++ lineEnds options (shown :: quiet))
        ((shown :: quiet).getLast (List.cons_ne_nil _ _)) next separator := by
  have hkept := @of_mem_kept options events
  rw [hn.events_eq] at hkept
  obtain ⟨-, hshown, hquiet, hnext, -⟩ : (∀ event ∈ past, Kept options event) ∧
      Kept options shown ∧ (∀ event ∈ quiet, Kept options event) ∧ Kept options next ∧
      ∀ event ∈ rest, Kept options event := by
    simpa only [List.forall_mem_append, List.forall_mem_cons] using hkept
  let first : PlainText := ⟨options, written options (past ++ [shown]), some (.ofEvent shown)⟩
  have hfirst : Listener.receiveAll (empty options) (past ++ [shown]) = first := by
    rw [receiveAll_concat hshown past, ← written_concat hshown past]
  have hlast := @receiveAll_quiet first shown rfl quiet hquiet hn.quiet_text
  let previous : PlainText := ⟨options, first.text ++ lineEnds options (shown :: quiet),
    some (.ofEvent ((shown :: quiet).getLast (List.cons_ne_nil _ _)))⟩
  refine ⟨previous.separator next, ?_, @separator_isSeparator previous _ rfl next⟩
  have hsplit : past ++ shown :: (quiet ++ [next]) = past ++ [shown] ++ quiet ++ [next] := by
    simp only [List.append_assoc, List.cons_append, List.nil_append]
  rw [written, hsplit, Listener.receiveAll_append, Listener.receiveAll_append, hfirst, hlast]
  refine (congrArg text (@receive_of_kept previous next hnext)).trans ?_
  simp only [previous, first, String.append_assoc]

/-- An event continues a line exactly if it does so seen from the last one on it. -/
theorem oneLine_concat : OneLine options (shown :: (quiet ++ [next])) ↔
    OneLine options (shown :: quiet) ∧
      ¬StartsLine options ((shown :: quiet).getLast (List.cons_ne_nil _ _)) next := by
  rw [OneLine, ← List.cons_append, List.isChain_append]
  constructor
  · rintro ⟨hquiet, -, hboth⟩
    exact ⟨hquiet, hboth _ (List.getLast?_eq_some_getLast _) _ rfl⟩
  · rintro ⟨hquiet, hnone⟩
    refine ⟨hquiet, .singleton next, fun last hlast event hevent => ?_⟩
    rw [List.getLast?_eq_some_getLast (List.cons_ne_nil _ _)] at hlast
    cases hlast
    cases hevent
    exact hnone

/-- Where a line starts between two texts, what ends lines stands between them. -/
theorem IsSeparator.exists_lineEnd {before separator : String}
    (hs : IsSeparator options before ((shown :: quiet).getLast (List.cons_ne_nil _ _)) next
      separator) (hline : ¬OneLine options (shown :: (quiet ++ [next]))) :
    ∃ before after, lineEnds options (shown :: quiet) ++ separator =
      before ++ options.lineSeparator ++ after := by
  by_cases hquiet : OneLine options (shown :: quiet)
  · have hnext : StartsLine options ((shown :: quiet).getLast (List.cons_ne_nil _ _)) next :=
      not_not.1 fun hnone => hline (oneLine_concat.2 ⟨hquiet, hnone⟩)
    exact ⟨lineEnds options (shown :: quiet), "", by rw [hs.line hnext, String.append_empty]⟩
  · obtain ⟨before, after, hends⟩ := exists_lineEnds hquiet
    refine ⟨before, after ++ separator, ?_⟩
    rw [hends]
    simp only [String.append_assoc]

/-- The texts of two events are apart exactly if there is a space at the end of the one or at the
start of the other, or a line starts between them, or the gap directly before the second event is
wide. -/
theorem apart_iff {before separator : String}
    (hwritten : written options (past ++ [shown]) = before ++ shown.text)
    (hshown : shown.text ≠ "") (hnext : next.text ≠ "")
    (hs : IsSeparator options
      (written options (past ++ [shown]) ++ lineEnds options (shown :: quiet))
      ((shown :: quiet).getLast (List.cons_ne_nil _ _)) next separator) :
    Apart options shown quiet next (lineEnds options (shown :: quiet) ++ separator) ↔
      shown.text.toList.getLast? = some ' ' ∨ next.text.toList.head? = some ' ' ∨
        ¬OneLine options (shown :: (quiet ++ [next])) ∨
        WideGap options ((shown :: quiet).getLast (List.cons_ne_nil _ _)) next := by
  unfold Apart
  by_cases hend : shown.text.toList.getLast? = some ' '
  · simp only [hend, true_or]
  by_cases hstart : next.text.toList.head? = some ' '
  · simp only [hstart, true_or, or_true]
  by_cases hline : OneLine options (shown :: (quiet ++ [next]))
  swap
  · simp only [hline, hs.exists_lineEnd hline, not_false_eq_true, and_true, true_or, or_true]
  obtain ⟨hquiet, hnone⟩ := oneLine_concat.1 hline
  have hends : lineEnds options (shown :: quiet) = "" := lineEnds_of_oneLine hquiet
  rw [hends, String.append_empty] at hs
  have hending : (before ++ shown.text).toList.getLast? = shown.text.toList.getLast? := by
    rw [String.toList_append]
    exact List.getLast?_append_of_ne_nil _ (mt String.toList_eq_nil_iff.1 hshown)
  have hbare : Bare (written options (past ++ [shown])) next.text := by
    rw [hwritten]
    exact ⟨fun h => hshown (String.append_eq_empty_iff.1 h).2, hending ▸ hend, hnext, hstart⟩
  rw [hends, String.empty_append, hs.space_mem_iff hnone hbare]
  simp only [hline, not_true_eq_false, false_and, or_false, false_or]

/-- A wide gap in front of an event with text stays visible: the text shown last before the gap
and the text after it are apart. The gap in front of an event without text is forgotten: whether
the texts around it are apart depends on the lines that start between them, on the gap directly
before the next text, and on the spaces of the texts themselves. -/
theorem gap_apart {quiet' : List Event} {last event : Event}
    (hn : Neighbours (kept options events) past shown (quiet ++ quiet') next rest)
    (hlast : (shown :: quiet).getLast? = some last)
    (hevent : (quiet' ++ [next]).head? = some event) (hgap : WideGap options last event) :
    ∃ between tail,
      written options events =
        written options (past ++ shown :: (quiet ++ quiet' ++ [next])) ++ tail ∧
      written options (past ++ shown :: (quiet ++ quiet' ++ [next])) =
        written options (past ++ [shown]) ++ between ++ next.text ∧
      (event.text ≠ "" → Apart options shown (quiet ++ quiet') next between) ∧
      (event.text = "" → (Apart options shown (quiet ++ quiet') next between ↔
        shown.text.toList.getLast? = some ' ' ∨ next.text.toList.head? = some ' ' ∨
          ¬OneLine options (shown :: (quiet ++ quiet' ++ [next])) ∨
          WideGap options ((shown :: (quiet ++ quiet')).getLast (List.cons_ne_nil _ _)) next)) := by
  obtain ⟨separator, hwritten, hseparator⟩ := hn.written_eq
  have hmem : shown ∈ kept options events := by
    rw [hn.events_eq]
    exact List.mem_append_right _ List.mem_cons_self
  have hiff := apart_iff (written_concat (of_mem_kept shown hmem) past) hn.shown_text hn.next_text
    hseparator
  obtain ⟨tail, htail⟩ := exists_written_append options
    (past ++ shown :: (quiet ++ quiet' ++ [next])) rest
  have hevents : written options events =
      written options (past ++ shown :: (quiet ++ quiet' ++ [next])) ++ tail := by
    rw [← written_kept, hn.events_eq, ← htail]
    simp only [List.append_assoc, List.cons_append, List.nil_append]
  refine ⟨_, tail, hevents, hwritten, fun htext => hiff.2 ?_, fun _ => hiff⟩
  -- The event shows text, so it is the next one that does, and the gap is the one before it.
  cases quiet' with
  | cons _ quiet' =>
    cases hevent
    exact absurd (hn.quiet_text event (List.mem_append_right _ List.mem_cons_self)) htext
  | nil =>
    cases hevent
    have hprevious : (shown :: (quiet ++ [])).getLast (List.cons_ne_nil _ _) = last := by
      simp only [List.append_nil]
      exact Option.some.inj
        ((List.getLast?_eq_some_getLast (List.cons_ne_nil shown quiet)).symm.trans hlast)
    exact Or.inr (Or.inr (Or.inr (hprevious ▸ hgap)))

/-- An event that shows bytes at a place of one line, twelve units high, in a font whose glyphs
are all half as wide. -/
def onLine (bytes : List UInt8) (x : Float32) : Event :=
  let font : Font := .simple { Font.SimpleFont.plain "Mono" .winAnsi with defaultWidth := 500.0 }
  ⟨font.decode bytes, { GraphicsState.initial with font := some font, fontSize := 12.0 },
    .translation x 0.0, ⟨none, none, false⟩⟩

/-- A letter, a code without text, and a second letter after a wide gap: the letters are apart. -/
theorem gap_apart_letters :
    Neighbours (kept .default [onLine [0x61] 0.0, onLine [0x81] 6.0, onLine [0x62] 52.0]) []
      (onLine [0x61] 0.0) ([onLine [0x81] 6.0] ++ []) (onLine [0x62] 52.0) [] ∧
    [onLine [0x61] 0.0, onLine [0x81] 6.0].getLast? = some (onLine [0x81] 6.0) ∧
    ([] ++ [onLine [0x62] 52.0]).head? = some (onLine [0x62] 52.0) ∧
    WideGap .default (onLine [0x81] 6.0) (onLine [0x62] 52.0) ∧
    ∃ between tail, written .default [onLine [0x61] 0.0, onLine [0x81] 6.0, onLine [0x62] 52.0] =
        written .default [onLine [0x61] 0.0] ++ between ++ (onLine [0x62] 52.0).text ++ tail ∧
      Apart .default (onLine [0x61] 0.0) [onLine [0x81] 6.0] (onLine [0x62] 52.0) between := by
  have hn : Neighbours (kept .default [onLine [0x61] 0.0, onLine [0x81] 6.0, onLine [0x62] 52.0])
      [] (onLine [0x61] 0.0) ([onLine [0x81] 6.0] ++ []) (onLine [0x62] 52.0) [] :=
    ⟨rfl, by decide +kernel, by decide +kernel, by decide +kernel⟩
  have hgap : WideGap .default (onLine [0x81] 6.0) (onLine [0x62] 52.0) := by decide +kernel
  obtain ⟨between, tail, hwritten, hbetween, hapart, -⟩ := gap_apart hn rfl rfl hgap
  rw [hbetween] at hwritten
  exact ⟨hn, rfl, rfl, hgap, between, tail, hwritten, hapart hn.next_text⟩

/-- A letter, an empty string after a wide gap, and a second letter right there: the gap is
forgotten, and the letters run together. -/
theorem gap_forgotten :
    Neighbours (kept .default [onLine [0x61] 0.0, onLine [] 46.0, onLine [0x62] 46.0]) []
      (onLine [0x61] 0.0) [onLine [] 46.0] (onLine [0x62] 46.0) [] ∧
    ¬StartsLine .default (onLine [0x61] 0.0) (onLine [] 46.0) ∧
    WideGap .default (onLine [0x61] 0.0) (onLine [] 46.0) ∧
    written .default [onLine [0x61] 0.0, onLine [] 46.0, onLine [0x62] 46.0] = "a" ++ "" ++ "b" ∧
    ¬Apart .default (onLine [0x61] 0.0) [onLine [] 46.0] (onLine [0x62] 46.0) "" := by
  refine ⟨⟨rfl, by decide +kernel, by decide +kernel, by decide +kernel⟩, by decide +kernel,
    by decide +kernel, by decide +kernel, ?_⟩
  have hline : OneLine .default
      (onLine [0x61] 0.0 :: ([onLine [] 46.0] ++ [onLine [0x62] 46.0])) := by
    unfold OneLine
    decide +kernel
  rintro (hend | hstart | hspace | ⟨hnew, -⟩)
  · exact absurd hend (by decide +kernel)
  · exact absurd hstart (by decide +kernel)
  · exact absurd hspace List.not_mem_nil
  · exact hnew hline

end PageText.Extract.PlainText
