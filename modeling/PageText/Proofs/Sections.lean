import Mathlib.Data.List.Chain
import Mathlib.Data.List.Forall2
import PageText.Proofs.Separator

/-!
# Sections and the text of words

Sections and text are computed by two passes over the words that look back at different things:
one at the section it has begun, the other at the word before. Both follow the same split of the
words into runs of one marking, which is the only one whose runs are as long as they can be. A
section is a run, and the text is the sections in order between their tags. What separates words
and what tags look like is told here anew, apart from the passes that write them.
-/

namespace PageText.Extract

open PlainText (assemble)

/-- What stands between a word and the one before it: what ends a line where the word starts one,
and a space elsewhere. -/
inductive Word.SeparatedBy (options : Options) (word : Word) : String → Prop where
  /-- The word starts a line. -/
  | line (h : word.lineBreakBefore = true) : SeparatedBy options word options.lineSeparator
  /-- The word goes on with a line. -/
  | space (h : word.lineBreakBefore = false) : SeparatedBy options word " "

/-- What stands around content of a marking: its tag in brackets, if markup is asked for and there
is a tag, and nothing otherwise. -/
inductive Marking.TaggedBy (markup : Bool) (marking : Marking) : String → String → Prop where
  /-- There are tags. -/
  | named {tag : String} (hmarkup : markup = true) (htag : marking.tag = some tag) :
      TaggedBy markup marking ("<" ++ tag ++ ">") ("</" ++ tag ++ ">")
  /-- There are none. -/
  | bare (h : markup = false ∨ marking.tag = none) : TaggedBy markup marking "" ""

/-- The separator of a word is the one that is written. -/
theorem Word.separatedBy_separator (options : Options) (word : Word) :
    word.SeparatedBy options (word.separator options) := by
  unfold separator
  cases hline : word.lineBreakBefore with
  | true => exact .line hline
  | false => exact .space hline

/-- The tags of a marking are those that are written. -/
theorem Marking.taggedBy_tags (markup : Bool) (marking : Marking) :
    marking.TaggedBy markup (Word.openTag markup marking) (Word.closeTag markup marking) := by
  unfold Word.openTag Word.closeTag
  cases markup with
  | false => exact .bare (Or.inl rfl)
  | true =>
    cases htag : marking.tag with
    | none => exact .bare (Or.inr htag)
    | some tag => exact .named rfl htag

/-- Words of one marking that follow one another. -/
@[ext]
structure Run where
  /-- The first word. -/
  first : Word
  /-- The words after it. -/
  later : List Word
  /-- They have the marking of the first. -/
  alike : ∀ word ∈ later, word.marking = first.marking

namespace Word

/-- The text of words that continue a run, each after its separator. -/
def continuation (options : Options) (words : List Word) : String :=
  String.join (words.map fun word => word.separator options ++ word.text)

/-- Without words nothing is continued. -/
theorem continuation_nil (options : Options) : continuation options [] = "" := rfl

/-- The first of these words comes first. -/
theorem continuation_cons (options : Options) (word : Word) (words : List Word) :
    continuation options (word :: words) =
      word.separator options ++ word.text ++ continuation options words := by
  rw [continuation, List.map_cons, String.join_cons, continuation]

end Word

/-- A section between its tags. -/
def Section.tagged (markup : Bool) (part : Section) : String :=
  Word.openTag markup part.marking ++ part.text ++ Word.closeTag markup part.marking

namespace Run

/-- The words of a run. -/
def words (run : Run) : List Word := run.first :: run.later

/-- A run as a section: its marking, and its words with their separators between them. -/
def toSection (options : Options) (run : Run) : Section :=
  ⟨run.first.marking, run.first.text ++ Word.continuation options run.later⟩

/-- The text of a section is the words of its run with their separators between them. -/
theorem toSection_text (options : Options) (run : Run) :
    (run.toSection options).text =
      assemble (run.words.map Word.text) (run.later.map (Word.separator options)) := by
  rw [toSection, words, List.map_cons, assemble, List.zipWith_map, List.zipWith_self]
  rfl

/-- The words are split into these runs, and no run could be longer: those next to each other
differ in tag or identifier. -/
structure Split (words : List Word) (runs : List Run) : Prop where
  /-- The runs in order are the words. -/
  flatten : runs.flatMap Run.words = words
  /-- A marking ends with its run. -/
  apart : runs.IsChain fun run next => run.first.marking ≠ next.first.marking

/-- Words can be split into such runs. -/
theorem exists_split (words : List Word) : ∃ runs, Split words runs := by
  induction words with
  | nil => exact ⟨[], rfl, .nil⟩
  | cons word words ih =>
    obtain ⟨runs, hflat, hapart⟩ := ih
    cases runs with
    | nil => exact ⟨[⟨word, [], nofun⟩], congrArg (word :: ·) hflat, .singleton _⟩
    | cons run rest =>
      by_cases hm : run.first.marking = word.marking
      · -- The word begins the run that was first so far.
        have halike : ∀ later ∈ run.words, later.marking = word.marking :=
          List.forall_mem_cons.2 ⟨hm, fun later h => (run.alike later h).trans hm⟩
        refine ⟨⟨word, run.words, halike⟩ :: rest, congrArg (word :: ·) hflat, ?_⟩
        cases hapart with
        | singleton => exact .singleton _
        | cons_cons hne hrest => exact .cons_cons (hm ▸ hne) hrest
      · exact ⟨⟨word, [], nofun⟩ :: run :: rest, congrArg (word :: ·) hflat,
          .cons_cons (Ne.symm hm) hapart⟩

/-- The words of a run after the first are all those up to another marking. -/
theorem later_eq_takeWhile {run : Run} {rest : List Run}
    (h : (run :: rest).IsChain fun run next => run.first.marking ≠ next.first.marking) :
    run.later = (run.later ++ rest.flatMap Run.words).takeWhile
      (·.marking = run.first.marking) := by
  have hlater : ∀ word ∈ run.later, decide (word.marking = run.first.marking) = true :=
    fun word hword => decide_eq_true (run.alike word hword)
  rw [List.takeWhile_append_of_pos hlater]
  cases h with
  | singleton => exact (List.append_nil _).symm
  | @cons_cons _ next _ hne _ =>
    rw [List.flatMap_cons, words, List.cons_append, List.takeWhile_cons,
      if_neg (mt of_decide_eq_true hne.symm), List.append_nil]

/-- Words can be split into such runs in one way only. -/
theorem Split.unique {words : List Word} {runs others : List Run} (h : Split words runs)
    (h' : Split words others) : others = runs := by
  induction runs generalizing words others with
  | nil =>
    cases others with
    | nil => rfl
    | cons other _ => exact absurd (h'.flatten.trans h.flatten.symm) (List.cons_ne_nil _ _)
  | cons run rest ih =>
    cases others with
    | nil => exact absurd (h.flatten.trans h'.flatten.symm) (List.cons_ne_nil _ _)
    | cons other rest' =>
      obtain ⟨hfirst, hafter⟩ : other.first = run.first ∧
          other.later ++ rest'.flatMap Run.words = run.later ++ rest.flatMap Run.words :=
        List.cons.inj (h'.flatten.trans h.flatten.symm)
      have hlater : other.later = run.later := by
        rw [later_eq_takeWhile h'.apart, later_eq_takeWhile h.apart, hafter, hfirst]
      have hrest : rest'.flatMap Run.words = rest.flatMap Run.words := by
        rw [hlater] at hafter
        exact List.append_cancel_left hafter
      rw [Run.ext hfirst hlater, ih ⟨rfl, h.apart.of_cons⟩ ⟨hrest, h'.apart.of_cons⟩]

/-- Words in the marking of a section that has been begun add to its text. -/
theorem sectionsFrom_append (options : Options) (begun : Section) {later : List Word}
    (h : ∀ word ∈ later, word.marking = begun.marking) (rest : List Word) :
    Word.sectionsFrom options begun (later ++ rest) =
      Word.sectionsFrom options ⟨begun.marking, begun.text ++ Word.continuation options later⟩
        rest := by
  induction later generalizing begun with
  | nil => rw [List.nil_append, Word.continuation_nil, String.append_empty]
  | cons word later ih =>
    obtain ⟨hword, hlater⟩ := List.forall_mem_cons.1 h
    rw [List.cons_append, Word.sectionsFrom, if_pos hword,
      ih { begun with text := begun.text ++ word.separator options ++ word.text } hlater,
      Word.continuation_cons]
    simp only [String.append_assoc]

/-- The section begun with a run ends with it, and the runs after it are sections too. -/
theorem sectionsFrom_toSection (options : Options) {run : Run} {rest : List Run}
    (h : (run :: rest).IsChain fun run next => run.first.marking ≠ next.first.marking) :
    Word.sectionsFrom options (run.toSection options) (rest.flatMap words) =
      (run :: rest).map (toSection options) := by
  induction rest generalizing run with
  | nil => rfl
  | cons next rest ih =>
    cases h with
    | cons_cons hne hrest =>
      rw [List.flatMap_cons, words, List.cons_append, Word.sectionsFrom,
        if_neg (show ¬next.first.marking = (run.toSection options).marking from hne.symm),
        sectionsFrom_append options _ next.alike]
      exact congrArg (run.toSection options :: ·) (ih hrest)

/-- The sections of words are the runs of their split. -/
theorem Split.sections_eq (options : Options) {words : List Word} {runs : List Run}
    (h : Split words runs) : Word.sections options words = runs.map (toSection options) := by
  cases runs with
  | nil => rw [← h.flatten]; rfl
  | cons run rest =>
    rw [← h.flatten, List.flatMap_cons, Run.words, List.cons_append, Word.sections,
      sectionsFrom_append options _ run.alike]
    exact sectionsFrom_toSection options h.apart

/-- Words in the marking of the word before follow their separators. -/
theorem textFrom_append (options : Options) (markup : Bool) {previous : Marking}
    {later : List Word} (h : ∀ word ∈ later, word.marking = previous) (rest : List Word) :
    Word.textFrom options markup previous (later ++ rest) =
      Word.continuation options later ++ Word.textFrom options markup previous rest := by
  induction later with
  | nil => rw [List.nil_append, Word.continuation_nil, String.empty_append]
  | cons word later ih =>
    obtain ⟨hword, hlater⟩ := List.forall_mem_cons.1 h
    rw [List.cons_append, Word.textFrom, if_pos hword, hword, ih hlater,
      Word.continuation_cons]
    simp only [String.append_assoc]

/-- After a run its tag is closed, and each run after it stands between its tags, after the
separator of its first word. -/
theorem textFrom_flatMap (options : Options) (markup : Bool) {run : Run} {rest : List Run}
    (h : (run :: rest).IsChain fun run next => run.first.marking ≠ next.first.marking) :
    Word.textFrom options markup run.first.marking (rest.flatMap words) =
      Word.closeTag markup run.first.marking ++ String.join (rest.map fun next =>
        next.first.separator options ++ (next.toSection options).tagged markup) := by
  induction rest generalizing run with
  | nil => exact String.append_empty.symm
  | cons next rest ih =>
    cases h with
    | cons_cons hne hrest =>
      rw [List.flatMap_cons, words, List.cons_append, Word.textFrom, if_neg hne.symm,
        textFrom_append options markup next.alike, ih hrest, List.map_cons, String.join_cons]
      simp only [Section.tagged, toSection, String.append_assoc]

/-- The text of words is that of the runs of their split: each between its tags, and before each
but the first the separator of its first word. -/
theorem Split.joinText_eq (options : Options) (markup : Bool) {words : List Word}
    {runs : List Run} (h : Split words runs) :
    Word.joinText options markup words =
      assemble ((runs.map (toSection options)).map (Section.tagged markup))
        (runs.tail.map fun run => run.first.separator options) := by
  cases runs with
  | nil => rw [← h.flatten]; rfl
  | cons run rest =>
    rw [← h.flatten, List.flatMap_cons, Run.words, List.cons_append, Word.joinText,
      textFrom_append options markup run.alike, textFrom_flatMap options markup h.apart,
      List.map_map, List.map_cons, List.tail_cons, assemble, List.zipWith_map, List.zipWith_self]
    simp only [Function.comp_apply, Section.tagged, toSection, String.append_assoc]

/-- Sections of runs that differ in marking do so too. -/
theorem Split.sections_apart (options : Options) {words : List Word} {runs : List Run}
    (h : Split words runs) :
    (runs.map (toSection options)).IsChain fun part next => part.marking ≠ next.marking :=
  (List.isChain_map _).2 h.apart

end Run

/-- A section is made of the words of a run: it has their marking, and its text is theirs with a
separator before each word but the first. -/
structure Section.IsOf (options : Options) (part : Section) (run : Run) : Prop where
  /-- The marking is that of the words. -/
  marking : part.marking = run.first.marking
  /-- The text is that of the words. -/
  text : ∃ separators, List.Forall₂ (Word.SeparatedBy options) run.later separators ∧
    part.text = assemble (run.words.map Word.text) separators

/-- A section as it stands in the text, between its tags. -/
def Section.StandsAs (markup : Bool) (part : Section) (text : String) : Prop :=
  ∃ opening closing, part.marking.TaggedBy markup opening closing ∧
    text = opening ++ part.text ++ closing

/-- What is written before each of these words separates it from the one before. -/
theorem Word.forall₂_separatedBy {α : Type} (options : Options) (word : α → Word) (xs : List α) :
    List.Forall₂ (fun x => (word x).SeparatedBy options) xs
      (xs.map fun x => (word x).separator options) :=
  List.forall₂_map_right_iff.2
    (List.forall₂_same.2 fun x _ => separatedBy_separator options (word x))

/-- A run makes its section. -/
theorem Run.isOf_toSection (options : Options) (run : Run) :
    (run.toSection options).IsOf options run :=
  ⟨rfl, _, Word.forall₂_separatedBy options id run.later, run.toSection_text options⟩

/-- The sections and the text of an extractor tell the same story. There is one split of its
words into runs of one marking that could not be longer. The sections are these runs in order,
each with the marking of the run and with its words, which have their separators between them;
sections next to each other differ in tag or identifier. The text is the sections in order, each
between its tags, with the separator of its first word between the closing tag of the section
before and its own opening tag. A separator is what ends a line before a word that starts one, and
a space before any other word. -/
theorem MarkedText.sections_text (options : Options) (markup : Bool) (events : List Event) :
    ∃ runs : List Run,
      Run.Split (Listener.receiveAll (empty options markup) events).words runs ∧
      (∀ others,
        Run.Split (Listener.receiveAll (empty options markup) events).words others →
        others = runs) ∧
      List.Forall₂ (Section.IsOf options)
        (Listener.receiveAll (empty options markup) events).sections runs ∧
      ((Listener.receiveAll (empty options markup) events).sections.IsChain
        fun part next => part.marking ≠ next.marking) ∧
      ∃ parts separators,
        List.Forall₂ (Section.StandsAs markup)
          (Listener.receiveAll (empty options markup) events).sections parts ∧
        List.Forall₂ (fun run => run.first.SeparatedBy options) runs.tail separators ∧
        (Listener.receiveAll (empty options markup) events).text = assemble parts separators := by
  obtain ⟨runs, hsplit⟩ :=
    Run.exists_split (Listener.receiveAll (empty options markup) events).words
  obtain ⟨hoptions, hmarkup⟩ := options_receiveAll (empty options markup) events
  have hsections : (Listener.receiveAll (empty options markup) events).sections =
      runs.map (Run.toSection options) := by
    rw [sections, hoptions]
    exact hsplit.sections_eq options
  have htext : (Listener.receiveAll (empty options markup) events).text =
      assemble ((runs.map (Run.toSection options)).map (Section.tagged markup))
        (runs.tail.map fun run => run.first.separator options) := by
    rw [text, hoptions, hmarkup]
    exact hsplit.joinText_eq options markup
  have hmade : List.Forall₂ (Section.IsOf options) (runs.map (Run.toSection options)) runs :=
    List.forall₂_map_left_iff.2 (List.forall₂_same.2 fun run _ => run.isOf_toSection options)
  have htagged : List.Forall₂ (Section.StandsAs markup) (runs.map (Run.toSection options))
      ((runs.map (Run.toSection options)).map (Section.tagged markup)) :=
    List.forall₂_map_right_iff.2 (List.forall₂_same.2 fun part _ =>
      ⟨_, _, part.marking.taggedBy_tags markup, rfl⟩)
  rw [hsections]
  exact ⟨runs, hsplit, fun _ hothers => hsplit.unique hothers, hmade,
    hsplit.sections_apart options, _, _, htagged,
    Word.forall₂_separatedBy options Run.first runs.tail, htext⟩

end PageText.Extract
