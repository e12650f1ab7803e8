import PageText.Interpreter.Processor
import PageText.Proofs.Instruction

/-!
# Outcomes and runs

The algebra of outcomes, and the two ways to take a run apart: by its operations, and
by what a single operation can lead to. Every property of runs is derived from these,
so that no other module looks into the order of checks of one operation.
-/

namespace PageText

namespace Outcome

/-- A failure ends what was to come. -/
theorem andThen_of_error {first : Outcome} {error : Error} (h : first.error = some error)
    (next : StreamState → Outcome) : first.andThen next = first := by
  rw [andThen, h]

/-- After a success the rest adds its events. -/
theorem andThen_of_success {first : Outcome} (h : first.error = none)
    (next : StreamState → Outcome) :
    first.andThen next =
      { next first.state with events := first.events ++ (next first.state).events } := by
  rw [andThen, h]

/-- Nothing comes before what follows nothing. -/
theorem done_andThen (state : StreamState) (next : StreamState → Outcome) :
    (done state).andThen next = next state := rfl

/-- Going on is associative. -/
theorem andThen_assoc (first : Outcome) (second third : StreamState → Outcome) :
    (first.andThen second).andThen third =
      first.andThen fun state => (second state).andThen third := by
  obtain ⟨state, events, error⟩ := first
  cases error with
  | some error => rfl
  | none =>
    cases h : (second state).error with
    | some error => simp only [andThen, h]
    | none => simp only [andThen, h, List.append_assoc]

/-- What the first part leads to and every state keeps in the second holds after both. -/
theorem andThen_keeps {p : StreamState → Prop} {first : Outcome} {next : StreamState → Outcome}
    (hf : p first.state) (hn : ∀ state, p state → p (next state).state) :
    p (first.andThen next).state := by
  cases he : first.error with
  | some error => rwa [andThen_of_error he]
  | none =>
    rw [andThen_of_success he]
    exact hn first.state hf

/-- Nothing has changed but the text position. -/
def OnlyMoves (outcome : Outcome) (state : StreamState) : Prop :=
  ∃ position, outcome.state = { state with position := position }

/-- Parts that change nothing but the text position do so together. -/
theorem OnlyMoves.andThen {first : Outcome} {next : StreamState → Outcome} {state : StreamState}
    (hf : first.OnlyMoves state) (hn : ∀ state, (next state).OnlyMoves state) :
    (first.andThen next).OnlyMoves state := by
  refine andThen_keeps (p := fun moved => ∃ position, moved = { state with position := position })
    hf fun moved hm => ?_
  obtain ⟨position, hmoved⟩ := hm
  obtain ⟨position', hnext⟩ := hn moved
  exact ⟨position', by rw [hnext, hmoved]⟩

/-- The resources stay where only the text position changes. -/
theorem OnlyMoves.resources {outcome : Outcome} {state : StreamState}
    (h : outcome.OnlyMoves state) : outcome.state.resources = state.resources := by
  obtain ⟨position, h⟩ := h
  rw [h]

/-- The graphics states stay where only the text position changes. -/
theorem OnlyMoves.stack {outcome : Outcome} {state : StreamState}
    (h : outcome.OnlyMoves state) : outcome.state.stack = state.stack := by
  obtain ⟨position, h⟩ := h
  rw [h]

/-- A whole succeeds exactly if both parts do. -/
theorem andThen_error_eq_none_iff {first : Outcome} {next : StreamState → Outcome} :
    (first.andThen next).error = none ↔
      first.error = none ∧ (next first.state).error = none := by
  obtain ⟨state, events, error⟩ := first
  cases error with
  | some error => simp only [andThen, reduceCtorEq, false_and]
  | none => simp only [andThen, true_and]

end Outcome

namespace GraphicsStack

/-- Two changes of the current state are one. -/
theorem modifyTop_modifyTop (stack : GraphicsStack)
    (first second : GraphicsState → GraphicsState) :
    (stack.modifyTop first).modifyTop second = stack.modifyTop fun g => second (first g) := by
  obtain ⟨base, saved⟩ := stack
  cases saved <;> rfl

end GraphicsStack

namespace StreamState

/-- The current graphics state after a change. -/
theorem graphics_modifyGraphics (state : StreamState) (change : GraphicsState → GraphicsState) :
    (state.modifyGraphics change).graphics = change state.graphics :=
  GraphicsStack.top_setTop state.stack _

/-- Two changes of the graphics state are one. -/
theorem modifyGraphics_modifyGraphics (state : StreamState)
    (first second : GraphicsState → GraphicsState) :
    (state.modifyGraphics first).modifyGraphics second =
      state.modifyGraphics fun g => second (first g) := by
  simp only [modifyGraphics, GraphicsStack.modifyTop_modifyTop]

/-- Moving the text position changes nothing else. -/
theorem withPosition_onlyMoves (state : StreamState) (mnemonic : String)
    (change : TextPosition → TextPosition) :
    (state.withPosition mnemonic change).OnlyMoves state := by
  unfold withPosition
  cases hp : state.position with
  | none => exact ⟨state.position, rfl⟩
  | some position => exact ⟨some (change position), rfl⟩

/-- Inside a text object the text position can be moved. -/
theorem withPosition_of_position {state : StreamState} {position : TextPosition}
    (hp : state.position = some position) (mnemonic : String)
    (change : TextPosition → TextPosition) :
    state.withPosition mnemonic change =
      .done { state with position := some (change position) } := by
  rw [withPosition, hp]

/-- Showing a string changes the text position only. -/
theorem showText_onlyMoves (state : StreamState) (mnemonic : String) (bytes : List UInt8) :
    (state.showText mnemonic bytes).OnlyMoves state := by
  unfold showText
  split
  · exact ⟨state.position, rfl⟩
  · split
    · exact ⟨state.position, rfl⟩
    · exact ⟨_, rfl⟩

/-- Showing an element of a text array changes the text position only. -/
theorem showElement_onlyMoves (state : StreamState) (mnemonic : String) (element : Object) :
    (state.showElement mnemonic element).OnlyMoves state := by
  unfold showElement
  split
  · exact state.showText_onlyMoves mnemonic _
  · split
    · exact state.withPosition_onlyMoves mnemonic _
    · exact ⟨state.position, rfl⟩

/-- Showing a text array changes the text position only. -/
theorem showElements_onlyMoves (mnemonic : String) (elements : List Object)
    (state : StreamState) : (showElements mnemonic elements state).OnlyMoves state := by
  induction elements generalizing state with
  | nil => exact ⟨state.position, rfl⟩
  | cons element elements ih =>
    exact (state.showElement_onlyMoves mnemonic element).andThen ih

/-- Showing a string on the next line changes the text position only. -/
theorem nextLine_showText_onlyMoves (state : StreamState) (mnemonic : String)
    (bytes : List UInt8) :
    ((state.nextLine mnemonic).andThen fun next => next.showText mnemonic bytes).OnlyMoves state :=
  (state.withPosition_onlyMoves mnemonic _).andThen fun next =>
    next.showText_onlyMoves mnemonic bytes

/-- A text array in two parts is shown in two steps. -/
theorem showElements_append (mnemonic : String) (first second : List Object)
    (state : StreamState) :
    showElements mnemonic (first ++ second) state =
      (showElements mnemonic first state).andThen (showElements mnemonic second) := by
  induction first generalizing state with
  | nil => rfl
  | cons element first ih =>
    rw [List.cons_append, showElements, showElements, Outcome.andThen_assoc]
    exact congrArg _ (funext ih)

section TextObject

variable {state : StreamState} (hp : state.position ≠ none)
include hp

/-- Moving the text position does not close the text object. -/
theorem withPosition_position (mnemonic : String) (change : TextPosition → TextPosition) :
    (state.withPosition mnemonic change).state.position ≠ none := by
  obtain ⟨position, hp⟩ := Option.ne_none_iff_exists'.1 hp
  rw [withPosition_of_position hp]
  exact Option.some_ne_none _

/-- Showing a string does not close the text object. -/
theorem showText_position (mnemonic : String) (bytes : List UInt8) :
    (state.showText mnemonic bytes).state.position ≠ none := by
  obtain ⟨position, hp⟩ := Option.ne_none_iff_exists'.1 hp
  unfold showText
  cases state.graphics.font with
  | none => exact Option.ne_none_iff_exists'.2 ⟨position, hp⟩
  | some font =>
    rw [hp]
    exact Option.some_ne_none _

/-- Showing an element of a text array does not close the text object. -/
theorem showElement_position (mnemonic : String) (element : Object) :
    (state.showElement mnemonic element).state.position ≠ none := by
  unfold showElement
  split
  · exact showText_position hp mnemonic _
  · split
    · exact withPosition_position hp mnemonic _
    · exact hp

/-- Showing a text array does not close the text object. -/
theorem showElements_position (mnemonic : String) (elements : List Object) :
    (showElements mnemonic elements state).state.position ≠ none := by
  induction elements generalizing state with
  | nil => exact hp
  | cons element elements ih =>
    exact Outcome.andThen_keeps (p := fun next => next.position ≠ none)
      (showElement_position hp mnemonic element) fun _ hnext => ih hnext

end TextObject

end StreamState

namespace Setup

/-- The setup without configuration. -/
def standard : Setup := ⟨.standard, .default⟩

/-- A text object in which a font is set. -/
def fontText : StreamState :=
  { StreamState.idle { GraphicsState.initial with font := some (.simple (.plain "F" .standard)) }
    with position := some .origin }

variable {setup : Setup} {forms : FormRunner}

/-- All that one operation can lead to: nothing for an unknown mnemonic, a complaint
about a missing text object or about the operands, or what its instruction does. -/
theorem step_cases (setup : Setup) (forms : FormRunner) (state : StreamState)
    (operation : Operation) :
    (setup.registry.lookup? operation.operator = none ∧
      setup.step forms state operation = .done state) ∨
    ∃ operator, setup.registry.lookup? operation.operator = some operator ∧
      ((operator.needsTextObject = true ∧ state.position = none ∧
        setup.step forms state operation =
          .failed state (StreamState.outsideText operation.operator)) ∨
      (operator.needsTextObject = true → state.position ≠ none) ∧
        ((∃ error, Instruction.read operation.operator operator operation.operands =
            .error error ∧ setup.step forms state operation = .failed state error) ∨
        ∃ instruction, Instruction.read operation.operator operator operation.operands =
            .ok instruction ∧ setup.step forms state operation =
            setup.execute forms operation.operator state instruction)) := by
  unfold step
  cases hl : setup.registry.lookup? operation.operator with
  | none => exact Or.inl ⟨rfl, rfl⟩
  | some operator =>
    refine Or.inr ⟨operator, rfl, ?_⟩
    dsimp only
    by_cases ht : (operator.needsTextObject && state.position.isNone) = true
    · obtain ⟨hn, hp⟩ := (Bool.and_eq_true _ _).mp ht
      exact Or.inl ⟨hn, Option.isNone_iff_eq_none.1 hp, if_pos ht⟩
    · rw [if_neg ht]
      refine Or.inr ⟨fun hn hp => ht ?_, ?_⟩
      · rw [hn, hp]
        rfl
      · cases hr : Instruction.read operation.operator operator operation.operands with
        | error error => exact Or.inl ⟨error, rfl, rfl⟩
        | ok instruction => exact Or.inr ⟨instruction, rfl, rfl⟩

/-- An operation under an unknown mnemonic does nothing. -/
theorem step_of_unknown {operation : Operation}
    (hl : setup.registry.lookup? operation.operator = none) (state : StreamState) :
    setup.step forms state operation = .done state := by
  rw [step, hl]

/-- An operation in its place does what its instruction asks for. -/
theorem step_of_read {operation : Operation} {operator : Operator} {state : StreamState}
    {instruction : Instruction}
    (hl : setup.registry.lookup? operation.operator = some operator)
    (ht : operator.needsTextObject = true → state.position ≠ none)
    (hi : Instruction.read operation.operator operator operation.operands = .ok instruction) :
    setup.step forms state operation =
      setup.execute forms operation.operator state instruction := by
  have hplace : ¬(operator.needsTextObject && state.position.isNone) = true := by
    intro hboth
    obtain ⟨hn, hp⟩ := (Bool.and_eq_true _ _).mp hboth
    exact ht hn (Option.isNone_iff_eq_none.1 hp)
  rw [step, hl]
  dsimp only
  rw [if_neg hplace, hi]

/-- An operation under a known mnemonic that succeeds is in its place, and its operands can be
read. -/
theorem exists_read_of_success {operation : Operation} {operator : Operator}
    {state : StreamState} (hl : setup.registry.lookup? operation.operator = some operator)
    (hs : (setup.step forms state operation).error = none) :
    (operator.needsTextObject = true → state.position ≠ none) ∧
      ∃ instruction, Instruction.read operation.operator operator operation.operands =
          .ok instruction ∧
        setup.step forms state operation =
          setup.execute forms operation.operator state instruction := by
  rcases step_cases setup forms state operation with
    ⟨hn, _⟩ | ⟨operator', hl', ⟨_, _, he⟩ | ⟨ht, ⟨_, _, he⟩ | hread⟩⟩
  · rw [hn] at hl
    cases hl
  · rw [he] at hs
    cases hs
  · rw [he] at hs
    cases hs
  · cases hl.symm.trans hl'
    exact ⟨ht, hread⟩

/-- With the standard registry each operator has its mnemonic. -/
theorem step_standard (hr : setup.registry = .standard) (operator : Operator)
    {operands : List Object} {state : StreamState} {instruction : Instruction}
    (ht : operator.needsTextObject = true → state.position ≠ none)
    (hi : Instruction.read operator.mnemonic operator operands = .ok instruction) :
    setup.step forms state ⟨operator.mnemonic, operands⟩ =
      setup.execute forms operator.mnemonic state instruction := by
  refine step_of_read ?_ ht hi
  rw [hr]
  exact Registry.lookup?_mnemonic operator

/-- An invocation has no effect but the events of the form that it enters. -/
theorem invokeXObject_state (name : String) :
    (setup.invokeXObject forms state name).state = state := by
  unfold invokeXObject
  split
  · rfl
  · rfl
  · split
    · split <;> rfl
    · rfl

/-- No instruction changes what names refer to, not even one that fails. -/
theorem execute_resources (mnemonic : String) (state : StreamState)
    (instruction : Instruction) :
    (setup.execute forms mnemonic state instruction).state.resources = state.resources := by
  cases instruction with
  | restoreState =>
    rw [execute]
    cases state.stack.pop <;> rfl
  | setParameters name =>
    rw [execute, StreamState.setParameters]
    rcases state.activeResources.parameters? name with _ | ⟨_ | ⟨font, size⟩⟩ <;> rfl
  | setFont name size =>
    rw [execute, StreamState.setFont]
    cases state.activeResources.font? name <;> rfl
  | beginText =>
    rw [execute]
    cases state.position <;> rfl
  | moveText x y => exact (state.withPosition_onlyMoves mnemonic _).resources
  | moveTextSetLeading x y => exact (StreamState.withPosition_onlyMoves _ mnemonic _).resources
  | nextLine => exact (state.withPosition_onlyMoves mnemonic _).resources
  | showText bytes => exact (state.showText_onlyMoves mnemonic bytes).resources
  | showTextArray elements =>
    exact (StreamState.showElements_onlyMoves mnemonic elements state).resources
  | nextLineShowText bytes => exact (state.nextLine_showText_onlyMoves mnemonic bytes).resources
  | nextLineShowTextSpaced word char bytes =>
    exact (StreamState.nextLine_showText_onlyMoves _ mnemonic bytes).resources
  | invokeXObject name => rw [execute, invokeXObject_state]
  | _ => rfl

/-- No operation changes what names refer to. -/
theorem step_resources (state : StreamState) (operation : Operation) :
    (setup.step forms state operation).state.resources = state.resources := by
  rcases step_cases setup forms state operation with
    ⟨_, hs⟩ | ⟨_, _, ⟨_, _, hs⟩ | ⟨_, ⟨_, _, hs⟩ | ⟨_, _, hs⟩⟩⟩
  · rw [hs, Outcome.done]
  · rw [hs, Outcome.failed]
  · rw [hs, Outcome.failed]
  · rw [hs, execute_resources]

/-- Names refer to the same things after an operation. -/
theorem step_activeResources (state : StreamState) (operation : Operation) :
    (setup.step forms state operation).state.activeResources = state.activeResources := by
  rw [StreamState.activeResources, step_resources, StreamState.activeResources]

/-- A run of two parts goes on after the first with the count it has reached. -/
theorem runFrom_append (count : Nat) (state : StreamState) (first second : List Operation) :
    setup.runFrom forms count state (first ++ second) =
      (setup.runFrom forms count state first).andThen fun state =>
        setup.runFrom forms (count + first.length) state second := by
  induction first generalizing count state with
  | nil => rw [List.nil_append, runFrom, Outcome.done_andThen, List.length_nil, Nat.add_zero]
  | cons operation first ih =>
    rw [List.cons_append, runFrom, runFrom]
    cases setup.exceeds? count with
    | some error => rfl
    | none =>
      have hcount : count + (operation :: first).length = count + 1 + first.length := by
        rw [List.length_cons]
        omega
      simp only [ih, Outcome.andThen_assoc, hcount]

/-- Where one more operation is allowed the first one runs. -/
theorem runFrom_cons_of_allowed {count : Nat} (he : setup.exceeds? count = none)
    (state : StreamState) (operation : Operation) (operations : List Operation) :
    setup.runFrom forms count state (operation :: operations) =
      (setup.step forms state operation).andThen fun state =>
        setup.runFrom forms (count + 1) state operations := by
  rw [runFrom, he]

/-- Operations succeed if the first one is allowed and succeeds and the others do. -/
theorem runFrom_cons_error_eq_none_iff {count : Nat} {state : StreamState}
    {operation : Operation} {operations : List Operation} :
    (setup.runFrom forms count state (operation :: operations)).error = none ↔
      setup.exceeds? count = none ∧ (setup.step forms state operation).error = none ∧
        (setup.runFrom forms (count + 1) (setup.step forms state operation).state
          operations).error = none := by
  rw [runFrom]
  cases setup.exceeds? count with
  | some error => exact ⟨nofun, fun h => nomatch h.1⟩
  | none => simp only [Outcome.andThen_error_eq_none_iff, true_and]

/-- Where a run succeeds, it succeeds up to each of its operations, and so does that. -/
theorem runFrom_reaches {count : Nat} {state : StreamState} {before after : List Operation}
    {operation : Operation}
    (hs : (setup.runFrom forms count state (before ++ operation :: after)).error = none) :
    (setup.runFrom forms count state before).error = none ∧
      (setup.step forms (setup.runFrom forms count state before).state operation).error =
        none := by
  rw [runFrom_append] at hs
  obtain ⟨hbefore, hrest⟩ := Outcome.andThen_error_eq_none_iff.1 hs
  exact ⟨hbefore, (runFrom_cons_error_eq_none_iff.1 hrest).2.1⟩

/-- A run that succeeds ends as its last operation does. -/
theorem runFrom_concat_state {count : Nat} {state : StreamState} {before : List Operation}
    {operation : Operation}
    (hs : (setup.runFrom forms count state (before ++ [operation])).error = none) :
    (setup.runFrom forms count state (before ++ [operation])).state =
      (setup.step forms (setup.runFrom forms count state before).state operation).state := by
  rw [runFrom_append] at hs ⊢
  obtain ⟨hbefore, hrest⟩ := Outcome.andThen_error_eq_none_iff.1 hs
  obtain ⟨hallowed, hstep, -⟩ := runFrom_cons_error_eq_none_iff.1 hrest
  rw [Outcome.andThen_of_success hbefore, runFrom_cons_of_allowed hallowed,
    Outcome.andThen_of_success hstep]
  rfl

/-- Without a bound on operations the first one always runs. -/
theorem runFrom_cons (h : setup.limits.maxOperations = none) (count : Nat)
    (state : StreamState) (operation : Operation) (operations : List Operation) :
    setup.runFrom forms count state (operation :: operations) =
      (setup.step forms state operation).andThen fun state =>
        setup.runFrom forms (count + 1) state operations := by
  have hexceeds : setup.exceeds? count = none := by rw [exceeds?, h]
  exact runFrom_cons_of_allowed hexceeds state operation operations

/-- Without a bound on operations the count makes no difference. -/
theorem runFrom_count (h : setup.limits.maxOperations = none) (count count' : Nat)
    (state : StreamState) (operations : List Operation) :
    setup.runFrom forms count state operations = setup.runFrom forms count' state operations := by
  induction operations generalizing count count' state with
  | nil => rfl
  | cons operation operations ih =>
    rw [runFrom_cons h, runFrom_cons h]
    simp only [ih (count + 1) (count' + 1)]

end Setup

/-- A collector keeps what it has and appends what it receives. -/
theorem Collector.receiveAll_eq (collector : Collector) (events : List Event) :
    Listener.receiveAll collector events = ⟨collector.events ++ events⟩ := by
  induction events generalizing collector with
  | nil => rw [Listener.receiveAll, List.foldl_nil, List.append_nil]
  | cons event events ih =>
    have hone : (Listener.receive collector event).events = collector.events ++ [event] := rfl
    rw [Listener.receiveAll_cons, ih, hone, List.append_assoc, List.singleton_append]

/-- Processing page content with a collector gives the outcome of its run and nothing of
what was processed before. -/
theorem Processor.process_eq (processor : Processor Collector) (content : List UInt8)
    (resources : Resources) {outcome : Outcome}
    (ho : processor.setup.run (.start processor.initial resources) (Operation.readAll content) =
      outcome) :
    processor.process content resources =
      ({ processor with state := outcome.state, listener := ⟨outcome.events⟩ },
        outcome.error) := by
  have hcollected : Listener.receiveAll Collector.empty outcome.events = ⟨outcome.events⟩ :=
    Collector.receiveAll_eq .empty outcome.events
  rw [← hcollected, ← ho]
  rfl

end PageText
