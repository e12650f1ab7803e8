import Mathlib.Data.List.Forall2
import PageText.Proofs.Instruction
import PageText.Proofs.Run
import PageText.Proofs.Writing

/-!
# Shown strings and events

The strings that page content shows are a matter of its operations alone: some carry
strings, and one kind invokes a form, which shows strings of its own. This module says
which strings these are and shows that a run that succeeds delivers one event for each,
in that order. Where the events are placed is not treated here.
-/

namespace PageText

namespace Operation

/-- The strings that an operation shows by itself. -/
def ownStrings (operation : Operation) : List (List UInt8) :=
  match operation.operator, operation.operands with
  | "Tj", [.str bytes] => [bytes]
  | "'", [.str bytes] => [bytes]
  | "\"", [_, _, .str bytes] => [bytes]
  | "TJ", [.array elements] => elements.filterMap Object.asBytes?
  | _, _ => []

/-- The form that an operation invokes: its content, and the resources it runs with,
which are the invoking stream's unless it has some of its own. -/
def invokedForm? (resources : Resources) (operation : Operation) :
    Option (List UInt8 × Resources) :=
  match operation.operator, operation.operands with
  | "Do", [.name name] =>
    match resources.xobject? name with
    | some (.form content _ own) => some (content, own.getD resources)
    | _ => none
  | _, _ => none

/-- The strings that operations show in order, those of forms in the place of the
invocation. A form that invokes itself without end shows no strings in this sense. -/
inductive Show : Resources → List Operation → List (List UInt8) → Prop where
  /-- No operations show nothing. -/
  | nil {resources : Resources} : Show resources [] []
  /-- An operation that invokes no form shows its own strings. -/
  | own {resources : Resources} {operation : Operation} {operations : List Operation}
      {strings : List (List UInt8)} (hf : operation.invokedForm? resources = none)
      (hs : Show resources operations strings) :
      Show resources (operation :: operations) (operation.ownStrings ++ strings)
  /-- An invocation shows the strings of the form. -/
  | form {resources inner : Resources} {operation : Operation} {operations : List Operation}
      {content : List UInt8} {strings strings' : List (List UInt8)}
      (hf : operation.invokedForm? resources = some (content, inner))
      (hi : Show inner (readAll content) strings)
      (hs : Show resources operations strings') :
      Show resources (operation :: operations) (strings ++ strings')

/-- The strings that operations show are determined. -/
theorem Show.unique {resources : Resources} {operations : List Operation}
    {strings strings' : List (List UInt8)} (h : Show resources operations strings)
    (h' : Show resources operations strings') : strings = strings' := by
  induction h generalizing strings' with
  | nil =>
    cases h'
    rfl
  | own hf _ ih =>
    cases h' with
    | own _ hs => rw [ih hs]
    | form hf' =>
      rw [hf] at hf'
      cases hf'
  | form hf _ _ ihi ih =>
    cases h' with
    | own hf' =>
      rw [hf] at hf'
      cases hf'
    | form hf' hi hs =>
      rw [hf] at hf'
      cases hf'
      rw [ihi hi, ih hs]

end Operation

/-- The event of a string: its font is set, and its glyphs and text are the font's. -/
def Event.IsOf (event : Event) (bytes : List UInt8) : Prop :=
  ∃ font, event.state.font = some font ∧ event.glyphs = font.decode bytes ∧
    event.text = font.text bytes

/-- A whole delivers the events of its parts. -/
theorem Outcome.andThen_isOf {first : Outcome} {next : StreamState → Outcome}
    {strings strings' : List (List UInt8)}
    (hf : List.Forall₂ Event.IsOf first.events strings) (he : first.error = none)
    (hn : List.Forall₂ Event.IsOf (next first.state).events strings') :
    List.Forall₂ Event.IsOf (first.andThen next).events (strings ++ strings') := by
  rw [andThen_of_success he]
  exact List.rel_append hf hn

namespace StreamState

variable {state : StreamState} {mnemonic : String}

/-- A string that is shown has one event. -/
theorem showText_isOf {bytes : List UInt8} (hs : (state.showText mnemonic bytes).error = none) :
    List.Forall₂ Event.IsOf (state.showText mnemonic bytes).events [bytes] := by
  unfold showText at hs ⊢
  cases hf : state.graphics.font with
  | none =>
    rw [hf] at hs
    cases hs
  | some font =>
    rw [hf] at hs
    cases hp : state.position with
    | none =>
      simp only [hp] at hs
      cases hs
    | some position => exact .cons ⟨font, hf, rfl, rfl⟩ .nil

/-- Moving the text position delivers no events. -/
theorem withPosition_isOf (change : TextPosition → TextPosition) :
    List.Forall₂ Event.IsOf (state.withPosition mnemonic change).events [] := by
  unfold withPosition
  cases state.position <;> exact .nil

/-- An element of a text array has an event exactly if it is a string. -/
theorem showElement_isOf {element : Object}
    (hs : (state.showElement mnemonic element).error = none) :
    List.Forall₂ Event.IsOf (state.showElement mnemonic element).events
      element.asBytes?.toList := by
  cases element with
  | str bytes => exact showText_isOf hs
  | int n => exact withPosition_isOf _
  | real x => exact withPosition_isOf _
  | _ => cases hs

/-- The elements of a text array have the events of the strings among them. -/
theorem showElements_isOf {elements : List Object}
    (hs : (showElements mnemonic elements state).error = none) :
    List.Forall₂ Event.IsOf (showElements mnemonic elements state).events
      (elements.filterMap Object.asBytes?) := by
  induction elements generalizing state with
  | nil => exact .nil
  | cons element elements ih =>
    obtain ⟨hfirst, hrest⟩ := Outcome.andThen_error_eq_none_iff.1 hs
    have hall := Outcome.andThen_isOf (showElement_isOf hfirst) hfirst (ih hrest)
    have hstrings : (element :: elements).filterMap Object.asBytes? =
        element.asBytes?.toList ++ elements.filterMap Object.asBytes? := by
      cases hb : element.asBytes? with
      | none => rw [List.filterMap_cons_none hb, Option.toList_none, List.nil_append]
      | some bytes => rw [List.filterMap_cons_some hb, Option.toList_some, List.singleton_append]
    rw [hstrings]
    exact hall

/-- After starting a line a string that is shown has its one event. -/
theorem nextLine_showText_isOf {bytes : List UInt8}
    (hs : ((state.nextLine mnemonic).andThen fun next => next.showText mnemonic bytes).error =
      none) :
    List.Forall₂ Event.IsOf
      ((state.nextLine mnemonic).andThen fun next => next.showText mnemonic bytes).events
      [bytes] := by
  obtain ⟨hline, htext⟩ := Outcome.andThen_error_eq_none_iff.1 hs
  exact Outcome.andThen_isOf (withPosition_isOf _) hline (showText_isOf htext)

end StreamState

namespace Instruction

/-- The strings that an instruction shows by itself. -/
def ownStrings : Instruction → List (List UInt8)
  | showText bytes => [bytes]
  | showTextArray elements => elements.filterMap Object.asBytes?
  | nextLineShowText bytes => [bytes]
  | nextLineShowTextSpaced _ _ bytes => [bytes]
  | _ => []

end Instruction

namespace Setup

variable {setup : Setup} {forms : FormRunner} {state : StreamState}

/-- An instruction that succeeds and invokes nothing delivers the events of its own strings. -/
theorem execute_isOf {mnemonic : String} {instruction : Instruction}
    (hx : ∀ name, instruction ≠ .invokeXObject name)
    (hs : (setup.execute forms mnemonic state instruction).error = none) :
    List.Forall₂ Event.IsOf (setup.execute forms mnemonic state instruction).events
      instruction.ownStrings := by
  cases instruction with
  | showText bytes => exact StreamState.showText_isOf hs
  | showTextArray elements => exact StreamState.showElements_isOf hs
  | nextLineShowText bytes => exact StreamState.nextLine_showText_isOf hs
  | nextLineShowTextSpaced word char bytes => exact StreamState.nextLine_showText_isOf hs
  | invokeXObject name => exact absurd rfl (hx name)
  | restoreState =>
    rw [execute]
    cases state.stack.pop <;> exact .nil
  | setParameters name =>
    rw [execute, StreamState.setParameters]
    rcases state.activeResources.parameters? name with _ | ⟨_ | ⟨font, size⟩⟩ <;> exact .nil
  | setFont name size =>
    rw [execute, StreamState.setFont]
    cases state.activeResources.font? name <;> exact .nil
  | beginText =>
    rw [execute]
    cases state.position <;> exact .nil
  | moveText x y => exact StreamState.withPosition_isOf _
  | moveTextSetLeading x y => exact StreamState.withPosition_isOf _
  | nextLine => exact StreamState.withPosition_isOf _
  | _ => exact .nil

end Setup

namespace Operation

/-- What an operation shows can be told from the instruction that is read from it. -/
theorem ownStrings_of_read {operation : Operation} {operator : Operator}
    {instruction : Instruction} (ho : operation.operator = operator.mnemonic)
    (hr : Instruction.read operation.operator operator operation.operands = .ok instruction) :
    operation.ownStrings = instruction.ownStrings := by
  obtain ⟨mnemonic, operands⟩ := operation
  have hop : instruction.operator = operator := Instruction.operator_of_read hr
  subst hop
  change mnemonic = instruction.operator.mnemonic at ho
  subst ho
  cases instruction with
  | showText bytes =>
    obtain ⟨found, hone, hmade⟩ := Instruction.of_oneString hr
    cases hmade
    cases hone
    rfl
  | nextLineShowText bytes =>
    obtain ⟨found, hone, hmade⟩ := Instruction.of_oneString hr
    cases hmade
    cases hone
    rfl
  | showTextArray elements =>
    obtain ⟨items, hone, hmade⟩ := Instruction.of_oneArray hr
    cases hmade
    cases hone
    rfl
  | nextLineShowTextSpaced word char bytes =>
    obtain ⟨x, y, _, _, found, hthree, -, -, hmade⟩ := Instruction.of_spacedText hr
    cases hmade
    cases hthree
    rfl
  | _ => rfl

/-- An operation under no standard mnemonic shows nothing. -/
theorem ownStrings_of_lookup? {operation : Operation}
    (hl : Registry.standard.lookup? operation.operator = none) : operation.ownStrings = [] := by
  have hother (operator : Operator) : operation.operator ≠ operator.mnemonic := by
    intro ho
    rw [ho, Registry.lookup?_mnemonic] at hl
    cases hl
  unfold ownStrings
  split
  · rename_i ho _
    exact absurd ho (hother .showText)
  · rename_i ho _
    exact absurd ho (hother .nextLineShowText)
  · rename_i ho _
    exact absurd ho (hother .nextLineShowTextSpaced)
  · rename_i ho _
    exact absurd ho (hother .showTextArray)
  · rfl

/-- Only one mnemonic invokes forms. -/
theorem invokedForm?_of_ne {operation : Operation}
    (ho : operation.operator ≠ Operator.mnemonic .invokeXObject) (resources : Resources) :
    operation.invokedForm? resources = none := by
  unfold invokedForm?
  split
  · rename_i hdo _
    exact absurd hdo ho
  · rfl

end Operation

/-- The events of an outcome are those of the strings that the operations show. -/
def Outcome.Delivers (outcome : Outcome) (resources : Resources) (operations : List Operation) :
    Prop :=
  ∃ strings, Operation.Show resources operations strings ∧
    List.Forall₂ Event.IsOf outcome.events strings

/-- The events of an outcome are those of the strings that one operation shows, whatever
the operations after it show. -/
def Outcome.DeliversFirst (outcome : Outcome) (resources : Resources) (operation : Operation) :
    Prop :=
  ∃ strings, List.Forall₂ Event.IsOf outcome.events strings ∧
    ∀ operations strings', Operation.Show resources operations strings' →
      Operation.Show resources (operation :: operations) (strings ++ strings')

/-- A runner of forms that delivers what the operations show, where it succeeds. -/
def FormRunner.Delivers (forms : FormRunner) : Prop :=
  ∀ run ∈ forms, ∀ state operations, (run state operations).error = none →
    (run state operations).Delivers state.activeResources operations

namespace Setup

variable {setup : Setup} {forms : FormRunner} {state : StreamState}

/-- Invoking an external object that succeeds delivers what its operation shows. -/
theorem invokeXObject_deliversFirst (hp : setup.limits.processForms = true) (hf : forms.Delivers)
    {name : String} (hs : (setup.invokeXObject forms state name).error = none) :
    (setup.invokeXObject forms state name).DeliversFirst state.activeResources
      ⟨"Do", [.name name]⟩ := by
  unfold invokeXObject at hs ⊢
  cases hx : state.activeResources.xobject? name with
  | none =>
    rw [hx] at hs
    cases hs
  | some xobject =>
    rw [hx] at hs
    cases xobject with
    | other subtype =>
      refine ⟨[], .nil, fun _ _ hshow => .own ?_ hshow⟩
      simp only [Operation.invokedForm?, hx]
    | form content matrix own =>
      simp only [hp, if_true] at hs ⊢
      cases forms with
      | none => cases hs
      | some run =>
        obtain ⟨strings, hshow, hevents⟩ := hf run rfl _ _ hs
        refine ⟨strings, hevents, fun _ _ hrest => .form ?_ hshow hrest⟩
        simp only [Operation.invokedForm?, hx]
        rfl

/-- An operation that succeeds delivers what it shows. -/
theorem step_deliversFirst (hr : setup.registry = .standard) (hp : setup.limits.processForms = true)
    (hf : forms.Delivers) {operation : Operation}
    (hs : (setup.step forms state operation).error = none) :
    (setup.step forms state operation).DeliversFirst state.activeResources operation := by
  rcases step_cases setup forms state operation with
    ⟨hl, he⟩ | ⟨operator, hl, ⟨_, _, he⟩ | ⟨_, ⟨_, _, he⟩ | ⟨instruction, hread, he⟩⟩⟩
  · rw [he]
    rw [hr] at hl
    have hother : operation.operator ≠ Operator.mnemonic .invokeXObject := by
      intro ho
      rw [ho] at hl
      cases hl
    refine ⟨[], .nil, fun _ _ hshow => ?_⟩
    rw [← Operation.ownStrings_of_lookup? hl]
    exact .own (Operation.invokedForm?_of_ne hother _) hshow
  · rw [he] at hs
    cases hs
  · rw [he] at hs
    cases hs
  · rw [he] at hs ⊢
    rw [hr] at hl
    have ho := Registry.eq_mnemonic_of_lookup? hl
    by_cases hx : operator = .invokeXObject
    · subst hx
      obtain ⟨mnemonic, operands⟩ := operation
      obtain ⟨name, hone, rfl⟩ := Instruction.of_oneName hread
      cases ho
      cases hone
      exact invokeXObject_deliversFirst hp hf hs
    · have hinvokes : ∀ name, instruction ≠ .invokeXObject name := by
        rintro name rfl
        exact hx (Instruction.operator_of_read hread).symm
      refine ⟨_, execute_isOf hinvokes hs, fun _ _ hshow => ?_⟩
      rw [← Operation.ownStrings_of_read ho hread]
      have hother : operation.operator ≠ Operator.mnemonic .invokeXObject := by
        intro hdo
        exact hx (Operator.eq_of_mnemonic_eq (ho.symm.trans hdo))
      exact .own (Operation.invokedForm?_of_ne hother _) hshow

/-- Operations that succeed one after the other deliver what they show. -/
theorem runFrom_delivers (hr : setup.registry = .standard)
    (hp : setup.limits.processForms = true) (hf : forms.Delivers) (count : Nat)
    {operations : List Operation}
    (hs : (setup.runFrom forms count state operations).error = none) :
    (setup.runFrom forms count state operations).Delivers state.activeResources operations := by
  induction operations generalizing count state with
  | nil => exact ⟨[], .nil, .nil⟩
  | cons operation operations ih =>
    rw [runFrom] at hs ⊢
    cases he : setup.exceeds? count with
    | some error =>
      rw [he] at hs
      cases hs
    | none =>
      rw [he] at hs
      dsimp only at hs ⊢
      obtain ⟨hfirst, hrest⟩ := Outcome.andThen_error_eq_none_iff.1 hs
      obtain ⟨strings, hevents, hshow⟩ := step_deliversFirst hr hp hf hfirst
      obtain ⟨strings', hshow', hevents'⟩ := ih (count + 1) hrest
      rw [step_activeResources] at hshow'
      exact ⟨strings ++ strings', hshow _ _ hshow', Outcome.andThen_isOf hevents hfirst hevents'⟩

/-- Forms deliver what they show, however deep they may nest. The induction is on the
levels left. -/
theorem formsAt_delivers (hr : setup.registry = .standard)
    (hp : setup.limits.processForms = true) (levels : Nat) : (setup.formsAt levels).Delivers := by
  induction levels with
  | zero =>
    intro run hm
    cases hm
  | succ levels ih =>
    intro run hm state operations hs
    cases hm
    exact runFrom_delivers hr hp ih 0 hs

end Setup

/-- No shown string is lost, repeated or moved: a processor that succeeds has received one
event for each string that the content shows, in their order, and these strings are
determined. -/
theorem Processor.process_shows (processor : Processor Collector)
    (hr : processor.setup.registry = .standard)
    (hp : processor.setup.limits.processForms = true) (content : List UInt8)
    (resources : Resources) (hs : (processor.process content resources).2 = none) :
    ∃ strings,
      (∀ other, Operation.Show resources (Operation.readAll content) other ↔ other = strings) ∧
        List.Forall₂ Event.IsOf (processor.process content resources).1.listener.events
          strings := by
  rw [processor.process_eq content resources rfl] at hs ⊢
  obtain ⟨strings, hshow, hevents⟩ := Setup.runFrom_delivers hr hp
    (Setup.formsAt_delivers hr hp processor.setup.limits.maxFormDepth) 0 hs
  refine ⟨strings, fun other => ⟨fun hother => hother.unique hshow, ?_⟩, hevents⟩
  rintro rfl
  exact hshow

/-- A processor that starts with a font shows one letter. -/
theorem Processor.process_shows_letter :
    let font : Font := .simple (.plain "F" .standard)
    let processor := create .standard { GraphicsState.initial with font := some font }
      Collector.empty
    (processor.process Operation.letterBytes .empty).2 = none ∧
      ∃ strings,
        (∀ other, Operation.Show .empty (Operation.readAll Operation.letterBytes) other ↔
          other = strings) ∧
        List.Forall₂ Event.IsOf
          (processor.process Operation.letterBytes .empty).1.listener.events strings := by
  intro font processor
  have hs : (processor.process Operation.letterBytes .empty).2 = none := by
    rw [processor.process_eq _ _ rfl, Operation.readAll_letterBytes]
    rfl
  exact ⟨hs, processor.process_shows rfl rfl _ _ hs⟩

end PageText
