import PageText.Proofs.Run

/-!
# What a failed operation leaves

An operation that fails leaves the state as it was and delivers nothing, with exceptions
that are listed here exactly: operators that do their work in steps keep the steps before
the one that fails. Operands are always read before the first step. Runs of several
operations are not treated here.
-/

namespace PageText

namespace StreamState

variable {state : StreamState} {mnemonic : String} {error : Error}

/-- The complaint about a string where no font is set. -/
def withoutFont : Error := .missingResource "Font" "<unset>"

/-- Only outside a text object a text position cannot be moved; everything stays then. -/
theorem withPosition_failed {change : TextPosition → TextPosition}
    (he : (state.withPosition mnemonic change).error = some error) :
    state.position = none ∧ state.withPosition mnemonic change = .failed state error := by
  unfold withPosition at he ⊢
  cases hp : state.position with
  | some position =>
    rw [hp] at he
    cases he
  | none =>
    rw [hp] at he
    cases he
    exact ⟨rfl, rfl⟩

/-- A font that cannot be selected is missing, and everything stays. -/
theorem setFont_failed {name : String} {size : Float32}
    (he : (state.setFont name size).error = some error) :
    error = .missingResource "Font" name ∧ state.setFont name size = .failed state error := by
  unfold setFont at he ⊢
  cases hx : state.activeResources.font? name with
  | some font =>
    rw [hx] at he
    cases he
  | none =>
    rw [hx] at he
    cases he
    exact ⟨rfl, rfl⟩

/-- A parameter set that cannot be taken over is missing, and everything stays. -/
theorem setParameters_failed {name : String} (he : (state.setParameters name).error = some error) :
    error = .missingResource "ExtGState" name ∧
      state.setParameters name = .failed state error := by
  unfold setParameters at he ⊢
  rcases hx : state.activeResources.parameters? name with _ | ⟨_ | ⟨font, size⟩⟩
  · rw [hx] at he
    cases he
    exact ⟨rfl, rfl⟩
  · rw [hx] at he
    cases he
  · rw [hx] at he
    cases he

/-- A string that cannot be shown changes nothing. -/
theorem showText_failed {bytes : List UInt8}
    (he : (state.showText mnemonic bytes).error = some error) :
    state.showText mnemonic bytes = .failed state error := by
  unfold showText at he ⊢
  cases hf : state.graphics.font with
  | none =>
    rw [hf] at he
    cases he
    rfl
  | some font =>
    rw [hf] at he
    cases hp : state.position with
    | none =>
      simp only [hp] at he ⊢
      cases he
      rfl
    | some position =>
      simp only [hp] at he
      cases he

/-- Inside a text object only a missing font keeps a string from being shown. -/
theorem showText_failed_iff (hp : state.position ≠ none) {bytes : List UInt8} :
    (state.showText mnemonic bytes).error = some error ↔
      state.graphics.font = none ∧ error = withoutFont := by
  obtain ⟨position, hp⟩ := Option.ne_none_iff_exists'.1 hp
  unfold showText
  cases state.graphics.font with
  | none =>
    constructor
    · rintro ⟨⟩
      exact ⟨rfl, rfl⟩
    · rintro ⟨-, rfl⟩
      rfl
  | some font =>
    simp only [hp]
    exact ⟨nofun, nofun⟩

/-- An element of a text array that cannot be shown changes nothing. -/
theorem showElement_failed {element : Object}
    (he : (state.showElement mnemonic element).error = some error) :
    state.showElement mnemonic element = .failed state error := by
  cases element with
  | str bytes => exact showText_failed he
  | int n => exact (withPosition_failed he).2
  | real x => exact (withPosition_failed he).2
  | _ =>
    cases he
    rfl

/-- A text array fails at one of its elements, and leaves what the elements before it, which
are all shown, lead to. -/
theorem exists_of_showElements_failed {elements : List Object}
    (he : (showElements mnemonic elements state).error = some error) :
    ∃ before element after, elements = before ++ element :: after ∧
      (showElements mnemonic before state).error = none ∧
      ((showElements mnemonic before state).state.showElement mnemonic element).error =
        some error ∧
      showElements mnemonic elements state =
        { showElements mnemonic before state with error := some error } := by
  induction elements generalizing state with
  | nil => cases he
  | cons element elements ih =>
    rw [showElements] at he ⊢
    cases hfirst : (state.showElement mnemonic element).error with
    | some error' =>
      rw [Outcome.andThen_of_error hfirst] at he ⊢
      exact ⟨[], element, elements, rfl, rfl, he, showElement_failed he⟩
    | none =>
      rw [Outcome.andThen_of_success hfirst] at he ⊢
      obtain ⟨before, failing, after, hsplit, hbefore, hfailing, hleft⟩ := ih he
      refine ⟨element :: before, failing, after, ?_, ?_, ?_, ?_⟩
      · rw [hsplit, List.cons_append]
      · rw [showElements, Outcome.andThen_of_success hfirst]
        exact hbefore
      · rw [showElements, Outcome.andThen_of_success hfirst]
        exact hfailing
      · rw [showElements, Outcome.andThen_of_success hfirst, hleft]

/-- A string on the next line fails for want of a font only, after the line was started. -/
theorem nextLine_showText_failed (hp : state.position ≠ none) {bytes : List UInt8}
    (he : ((state.nextLine mnemonic).andThen fun next => next.showText mnemonic bytes).error =
      some error) :
    state.graphics.font = none ∧ error = withoutFont ∧
      ((state.nextLine mnemonic).andThen fun next => next.showText mnemonic bytes) =
        .failed (state.nextLine mnemonic).state error := by
  obtain ⟨position, hp⟩ := Option.ne_none_iff_exists'.1 hp
  have hline : state.nextLine mnemonic = .done { state with
      position := some (position.startLine 0.0 (-state.graphics.leading)) } :=
    withPosition_of_position hp mnemonic _
  rw [hline, Outcome.done_andThen] at he ⊢
  obtain ⟨hf, rfl⟩ := (showText_failed_iff (Option.some_ne_none _)).1 he
  exact ⟨hf, rfl, showText_failed he⟩

/-- Inside a text object an element of a text array fails for want of a font, or because it
is neither a string nor a number. -/
theorem showElement_error (hp : state.position ≠ none) {element : Object}
    (he : (state.showElement mnemonic element).error = some error) :
    error = withoutFont ∨ ∃ reason, error = .malformedOperands mnemonic reason := by
  cases element with
  | str bytes => exact Or.inl ((showText_failed_iff hp).1 he).2
  | int n => exact absurd (withPosition_failed he).1 hp
  | real x => exact absurd (withPosition_failed he).1 hp
  | _ =>
    cases he
    exact Or.inr ⟨_, rfl⟩

end StreamState

namespace Setup

variable {setup : Setup} {forms : FormRunner} {state : StreamState} {error : Error}

/-- The run of the form that an invocation enters, if it enters one. -/
def formRun? (setup : Setup) (forms : FormRunner) (state : StreamState) (name : String) :
    Option Outcome :=
  match state.activeResources.xobject? name, forms with
  | some (.form content matrix own), some run =>
    if setup.limits.processForms then
      some (run (state.enterForm matrix own) (Operation.readAll content))
    else none
  | _, _ => none

/-- An invocation fails as the form that it enters does, or without entering one. -/
theorem invokeXObject_failed {name : String}
    (he : (setup.invokeXObject forms state name).error = some error) :
    (∃ inner, setup.formRun? forms state name = some inner ∧ inner.error = some error ∧
      setup.invokeXObject forms state name = { inner with state := state }) ∨
    setup.formRun? forms state name = none ∧
      setup.invokeXObject forms state name = .failed state error := by
  unfold invokeXObject formRun? at *
  cases hx : state.activeResources.xobject? name with
  | none =>
    simp only [hx] at he
    cases he
    exact Or.inr ⟨rfl, rfl⟩
  | some xobject =>
    simp only [hx] at he
    cases xobject with
    | other subtype => cases he
    | form content matrix own =>
      dsimp only at he ⊢
      split at he
      · rename_i hprocess
        cases forms with
        | none =>
          cases he
          exact Or.inr ⟨rfl, if_pos hprocess⟩
        | some run =>
          simp only [hprocess, if_true]
          exact Or.inl ⟨_, rfl, he, rfl⟩
      · cases he

end Setup

/-- Whether an operator does its work in steps of which a later one can fail. -/
def Operator.isStaged : Operator → Bool
  | .showTextArray | .nextLineShowText | .nextLineShowTextSpaced | .invokeXObject => true
  | _ => false

namespace Setup

variable {setup : Setup} {forms : FormRunner} {state : StreamState} {error : Error}

/-- Restoring fails where nothing was saved, and everything stays. -/
theorem execute_restoreState_failed {mnemonic : String}
    (he : (setup.execute forms mnemonic state .restoreState).error = some error) :
    state.stack.pop = .error error ∧
      setup.execute forms mnemonic state .restoreState = .failed state error := by
  rw [execute] at he ⊢
  cases hp : state.stack.pop with
  | ok stack =>
    rw [hp] at he
    cases he
  | error error' =>
    rw [hp] at he
    cases he
    exact ⟨rfl, rfl⟩

/-- A text object cannot be opened in another one, and everything stays. -/
theorem execute_beginText_failed {mnemonic : String}
    (he : (setup.execute forms mnemonic state .beginText).error = some error) :
    state.position ≠ none ∧ error = .textObjectViolation mnemonic "nested BT" ∧
      setup.execute forms mnemonic state .beginText = .failed state error := by
  rw [execute] at he ⊢
  cases hp : state.position with
  | none =>
    rw [hp] at he
    cases he
  | some position =>
    rw [hp] at he
    cases he
    exact ⟨Option.some_ne_none position, rfl, rfl⟩

/-- An instruction that does its work at once and fails changes nothing. The condition on
the text object is needed because setting the leading comes before starting the line. -/
theorem execute_failed {mnemonic : String} {instruction : Instruction}
    (hs : instruction.operator.isStaged = false)
    (ht : instruction.operator.needsTextObject = true → state.position ≠ none)
    (he : (setup.execute forms mnemonic state instruction).error = some error) :
    setup.execute forms mnemonic state instruction = .failed state error := by
  cases instruction with
  | showTextArray | nextLineShowText | nextLineShowTextSpaced | invokeXObject => cases hs
  | restoreState => exact (execute_restoreState_failed he).2
  | setParameters name => exact (StreamState.setParameters_failed he).2
  | setFont name size => exact (StreamState.setFont_failed he).2
  | beginText => exact (execute_beginText_failed he).2.2
  | moveText x y => exact (StreamState.withPosition_failed he).2
  | moveTextSetLeading x y => exact absurd (StreamState.withPosition_failed he).1 (ht rfl)
  | nextLine => exact (StreamState.withPosition_failed he).2
  | showText bytes => exact StreamState.showText_failed he
  | _ => cases he

/-- Why an instruction fails: nothing was saved, a name or a font is missing, a text object
is nested, an element of a text array cannot be shown, or an invocation fails. -/
theorem execute_error {mnemonic : String} {instruction : Instruction}
    (ht : instruction.operator.needsTextObject = true → state.position ≠ none)
    (he : (setup.execute forms mnemonic state instruction).error = some error) :
    (instruction = .restoreState ∧ state.stack.pop = .error error) ∨
    (∃ category name, error = .missingResource category name) ∨
    (instruction = .beginText ∧ state.position ≠ none ∧
      error = .textObjectViolation mnemonic "nested BT") ∨
    (∃ elements reason, instruction = .showTextArray elements ∧
      error = .malformedOperands mnemonic reason) ∨
    ∃ name, instruction = .invokeXObject name := by
  cases instruction with
  | restoreState => exact Or.inl ⟨rfl, (execute_restoreState_failed he).1⟩
  | setParameters name =>
    exact Or.inr (Or.inl ⟨_, _, (StreamState.setParameters_failed he).1⟩)
  | setFont name size => exact Or.inr (Or.inl ⟨_, _, (StreamState.setFont_failed he).1⟩)
  | beginText =>
    obtain ⟨hp, herror, -⟩ := execute_beginText_failed he
    exact Or.inr (Or.inr (Or.inl ⟨rfl, hp, herror⟩))
  | moveText x y => exact absurd (StreamState.withPosition_failed he).1 (ht rfl)
  | moveTextSetLeading x y => exact absurd (StreamState.withPosition_failed he).1 (ht rfl)
  | nextLine => exact absurd (StreamState.withPosition_failed he).1 (ht rfl)
  | showText bytes =>
    exact Or.inr (Or.inl ⟨_, _, ((StreamState.showText_failed_iff (ht rfl)).1 he).2⟩)
  | showTextArray elements =>
    obtain ⟨before, element, after, -, -, hfailing, -⟩ :=
      StreamState.exists_of_showElements_failed he
    have hplace := StreamState.showElements_position (ht rfl) mnemonic before
    rcases StreamState.showElement_error hplace hfailing with herror | ⟨reason, herror⟩
    · exact Or.inr (Or.inl ⟨_, _, herror⟩)
    · exact Or.inr (Or.inr (Or.inr (Or.inl ⟨elements, reason, rfl, herror⟩)))
  | nextLineShowText bytes =>
    exact Or.inr (Or.inl ⟨_, _, (StreamState.nextLine_showText_failed (ht rfl) he).2.1⟩)
  | nextLineShowTextSpaced word char bytes =>
    have hspaced : (state.modifyGraphics fun g =>
        { g with wordSpacing := word, charSpacing := char }).position ≠ none := ht rfl
    exact Or.inr (Or.inl ⟨_, _, (StreamState.nextLine_showText_failed hspaced he).2.1⟩)
  | invokeXObject name => exact Or.inr (Or.inr (Or.inr (Or.inr ⟨name, rfl⟩)))
  | _ => cases he

/-- What an operation of the given kind leaves when it fails: everything as it was, or the
steps before the one that fails. A text array keeps the elements before the failing one; a
string on the next line keeps that line, and its spacings, if there is no font to show it
in; an invocation keeps the events that the form delivered. -/
def Leaves (setup : Setup) (forms : FormRunner) (state : StreamState) (operation : Operation)
    (error : Error) (left : Outcome) : Operator → Prop
  | .showTextArray =>
    (∃ before element after, operation.operands = [.array (before ++ element :: after)] ∧
      state.position ≠ none ∧
      let shown := setup.step forms state ⟨operation.operator, [.array before]⟩
      shown.error = none ∧
        (shown.state.showElement operation.operator element).error = some error ∧
        left = { shown with error := some error }) ∨
    (∀ elements, operation.operands = [.array elements] → state.position = none) ∧
      left = .failed state error
  | .nextLineShowText =>
    if error = StreamState.withoutFont then
      state.graphics.font = none ∧
        left = .failed (setup.execute forms operation.operator state .nextLine).state error
    else left = .failed state error
  | .nextLineShowTextSpaced =>
    if error = StreamState.withoutFont then
      state.graphics.font = none ∧ ∃ x y word char bytes,
        operation.operands = [x, y, .str bytes] ∧ x.asNumber? = some word ∧
        y.asNumber? = some char ∧
        left = .failed
          ((setup.execute forms operation.operator state (.setWordSpacing word)).andThen
            fun next => (setup.execute forms operation.operator next (.setCharSpacing char)).andThen
              fun next => setup.execute forms operation.operator next .nextLine).state error
    else left = .failed state error
  | .invokeXObject =>
    (∃ name inner, operation.operands = [.name name] ∧
      setup.formRun? forms state name = some inner ∧ inner.error = some error ∧
      left = { inner with state := state }) ∨
    (∀ name, operation.operands = [.name name] → setup.formRun? forms state name = none) ∧
      left = .failed state error
  | _ => left = .failed state error

/-- An operation whose instruction is not executed leaves everything as it was, by any
reading of what its kind may leave. -/
theorem leaves_failed {operation : Operation} {operator : Operator}
    (hn : error ≠ StreamState.withoutFont)
    (hr : operator.needsTextObject = true ∧ state.position = none ∨
      Instruction.read operation.operator operator operation.operands = .error error) :
    setup.Leaves forms state operation error (.failed state error) operator := by
  cases operator with
  | nextLineShowText | nextLineShowTextSpaced => exact (if_neg hn).mpr rfl
  | showTextArray =>
    refine Or.inr ⟨fun elements ho => ?_, rfl⟩
    rcases hr with ⟨-, hp⟩ | hr
    · exact hp
    · rw [ho] at hr
      cases hr
  | invokeXObject =>
    refine Or.inr ⟨fun name ho => ?_, rfl⟩
    rcases hr with ⟨hneeds, -⟩ | hr
    · cases hneeds
    · rw [ho] at hr
      cases hr
  | _ => rfl

/-- An instruction that fails leaves what its kind may leave. -/
theorem leaves_execute {operation : Operation} {operator : Operator} {instruction : Instruction}
    (hl : setup.registry.lookup? operation.operator = some operator)
    (ht : operator.needsTextObject = true → state.position ≠ none)
    (hi : Instruction.read operation.operator operator operation.operands = .ok instruction)
    (he : (setup.execute forms operation.operator state instruction).error = some error) :
    setup.Leaves forms state operation error
      (setup.execute forms operation.operator state instruction) operator := by
  have hop : instruction.operator = operator := Instruction.operator_of_read hi
  subst hop
  cases instruction with
  | showTextArray elements =>
    obtain ⟨before, element, after, hsplit, hbefore, hfailing, hleft⟩ :=
      StreamState.exists_of_showElements_failed he
    obtain ⟨items, hone, hmade⟩ := Instruction.of_oneArray hi
    cases hmade
    have hread : Instruction.read operation.operator .showTextArray [.array before] =
        .ok (.showTextArray before) := rfl
    have hshown : setup.step forms state ⟨operation.operator, [.array before]⟩ =
        setup.execute forms operation.operator state (.showTextArray before) :=
      @step_of_read setup forms ⟨operation.operator, [.array before]⟩ .showTextArray state _
        hl ht hread
    refine Or.inl ⟨before, element, after, hsplit ▸ hone, ht rfl, ?_⟩
    rw [hshown]
    exact And.intro hbefore (And.intro hfailing hleft)
  | nextLineShowText bytes =>
    obtain ⟨hf, rfl, hleft⟩ := StreamState.nextLine_showText_failed (ht rfl) he
    rw [Instruction.operator, Leaves, if_pos rfl]
    exact ⟨hf, hleft⟩
  | nextLineShowTextSpaced word char bytes =>
    obtain ⟨x, y, _, _, _, hthree, hx, hy, hmade⟩ := Instruction.of_spacedText hi
    cases hmade
    have hspaced : (state.modifyGraphics fun g =>
        { g with wordSpacing := word, charSpacing := char }).position ≠ none := ht rfl
    rw [execute] at he ⊢
    obtain ⟨hf, rfl, hleft⟩ := StreamState.nextLine_showText_failed hspaced he
    rw [StreamState.graphics_modifyGraphics] at hf
    rw [Instruction.operator, Leaves, if_pos rfl]
    refine ⟨hf, x, y, word, char, bytes, hthree, Instruction.asNumber?_of_number hx,
      Instruction.asNumber?_of_number hy, ?_⟩
    rw [hleft]
    simp only [execute, Outcome.done_andThen, StreamState.modifyGraphics_modifyGraphics]
  | invokeXObject name =>
    obtain ⟨name', hone, hmade⟩ := Instruction.of_oneName hi
    cases hmade
    rcases invokeXObject_failed he with ⟨inner, hrun, hinner, hleft⟩ | ⟨hrun, hleft⟩
    · exact Or.inl ⟨name, inner, hone, hrun, hinner, hleft⟩
    · refine Or.inr ⟨fun name' hone' => ?_, hleft⟩
      rw [hone] at hone'
      cases hone'
      exact hrun
  | _ => exact execute_failed rfl ht he

/-- An operation that fails leaves what its kind may leave, in every state and under every
registry; an invocation leaves the state as it was whether it fails or not. -/
theorem step_leaves (setup : Setup) (forms : FormRunner) (state : StreamState)
    (operation : Operation) :
    (∀ error, (setup.step forms state operation).error = some error →
      ∃ operator, setup.registry.lookup? operation.operator = some operator ∧
        setup.Leaves forms state operation error (setup.step forms state operation) operator) ∧
    (setup.registry.lookup? operation.operator = some .invokeXObject →
      (setup.step forms state operation).state = state) := by
  rcases step_cases setup forms state operation with
    ⟨hl, hs⟩ | ⟨operator, hl, ⟨hneeds, hp, hs⟩ | ⟨ht, ⟨error, hr, hs⟩ | ⟨instruction, hi, hs⟩⟩⟩
  · rw [hs]
    exact ⟨nofun, fun _ => rfl⟩
  · rw [hs]
    refine ⟨?_, fun _ => rfl⟩
    rintro _ ⟨⟩
    exact ⟨operator, hl, leaves_failed nofun (Or.inl ⟨hneeds, hp⟩)⟩
  · rw [hs]
    refine ⟨?_, fun _ => rfl⟩
    rintro _ ⟨⟩
    obtain ⟨reason, hreason⟩ := Instruction.complains_read operator operation.operands error hr
    have hn : error ≠ StreamState.withoutFont := by
      rw [hreason]
      exact nofun
    exact ⟨operator, hl, leaves_failed hn (Or.inr hr)⟩
  · rw [hs]
    refine ⟨fun error he => ⟨operator, hl, leaves_execute hl ht hi he⟩, fun hx => ?_⟩
    rw [hl] at hx
    cases hx
    obtain ⟨name, -, rfl⟩ := Instruction.of_oneName hi
    exact invokeXObject_state name

/-- A text array with an element that cannot be shown between two strings leaves what its
kind may leave, and a name that no external object has leaves the state as it was. -/
theorem step_leaves_middle : ∃ error,
    (standard.invoke fontText ⟨"TJ", [.array [.str [0x41], .null, .str [0x42]]]⟩).error =
      some error ∧
    standard.Leaves standard.pageForms fontText
      ⟨"TJ", [.array [.str [0x41], .null, .str [0x42]]]⟩ error
      (standard.invoke fontText ⟨"TJ", [.array [.str [0x41], .null, .str [0x42]]]⟩)
      .showTextArray ∧
    (standard.invoke fontText ⟨"Do", [.name "X"]⟩).state = fontText := by
  have harray := step_leaves standard standard.pageForms fontText
    ⟨"TJ", [.array [.str [0x41], .null, .str [0x42]]]⟩
  have hname := step_leaves standard standard.pageForms fontText ⟨"Do", [.name "X"]⟩
  obtain ⟨operator, hl, hleft⟩ := harray.1 _ rfl
  have hkind : operator = .showTextArray := Option.some.inj (hl.symm.trans (by decide))
  subst hkind
  exact ⟨_, rfl, hleft, hname.2 (by decide)⟩

end Setup

end PageText
