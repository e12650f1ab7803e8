import Mathlib.Data.List.Forall2
import PageText.Proofs.Run

/-!
# What is shown and where things are

Two runs of the same operations that differ in the strings they show, and in the adjustments
between these, go through the same layout: the graphics states, the marked content, the
resources and the start of the line. What is shown moves the text matrix alone, and every
operator that starts a line takes that back. So a form, which sees no text matrix of its
caller, cannot tell the two runs apart.
-/

namespace PageText

namespace StreamState

/-- Two states that differ in the text matrix at most. -/
structure SameLayout (state state' : StreamState) : Prop where
  /-- The graphics states are the same. -/
  stack : state.stack = state'.stack
  /-- The open marked-content sequences are the same. -/
  marked : state.marked = state'.marked
  /-- Names refer to the same things. -/
  resources : state.resources = state'.resources
  /-- Both are outside of a text object, or the line starts at the same place in both. -/
  line : state.position.map TextPosition.line = state'.position.map TextPosition.line

namespace SameLayout

variable {state state' state'' : StreamState}

/-- Every state is like itself. -/
theorem refl (state : StreamState) : state.SameLayout state := ⟨rfl, rfl, rfl, rfl⟩

/-- Likeness holds both ways. -/
theorem symm (h : state.SameLayout state') : state'.SameLayout state :=
  ⟨h.stack.symm, h.marked.symm, h.resources.symm, h.line.symm⟩

/-- What is like a third state is alike. -/
theorem trans (h : state.SameLayout state') (h' : state'.SameLayout state'') :
    state.SameLayout state'' :=
  ⟨h.stack.trans h'.stack, h.marked.trans h'.marked, h.resources.trans h'.resources,
    h.line.trans h'.line⟩

/-- States that are alike are equal once the text position is the same. -/
theorem withPosition_eq (h : state.SameLayout state') (position : Option TextPosition) :
    ({ state with position := position } : StreamState) =
      { state' with position := position } := by
  obtain ⟨stack, _, resources, marked⟩ := state
  obtain ⟨stack', _, resources', marked'⟩ := state'
  obtain ⟨rfl, rfl, rfl, -⟩ := h
  rfl

/-- Outside of a text object states that are alike are equal. -/
theorem eq_of_position (h : state.SameLayout state') (hp : state.position = none) :
    state = state' := by
  obtain ⟨stack, position, resources, marked⟩ := state
  obtain ⟨stack', position', resources', marked'⟩ := state'
  obtain ⟨rfl, rfl, rfl, hline⟩ := h
  cases hp
  cases position' with
  | none => rfl
  | some position => cases hline

/-- States that are alike have the same current graphics state. -/
theorem graphics (h : state.SameLayout state') : state.graphics = state'.graphics :=
  congrArg GraphicsStack.top h.stack

/-- In states that are alike names refer to the same things. -/
theorem activeResources (h : state.SameLayout state') :
    state.activeResources = state'.activeResources := by
  rw [StreamState.activeResources, StreamState.activeResources, h.resources]

/-- A change of the graphics state keeps states alike. -/
theorem modifyGraphics (h : state.SameLayout state') (change : GraphicsState → GraphicsState) :
    (state.modifyGraphics change).SameLayout (state'.modifyGraphics change) :=
  ⟨congrArg (GraphicsStack.modifyTop · change) h.stack, h.marked, h.resources, h.line⟩

/-- A form starts in the same state whichever of two states that are alike invokes it. -/
theorem enterForm_eq (h : state.SameLayout state') (matrix : Matrix) (own : Option Resources) :
    state.enterForm matrix own = state'.enterForm matrix own := by
  rw [enterForm, enterForm, h.graphics, h.activeResources, h.marked]

/-- A line is started at the same place from states that are alike. -/
theorem moveText_eq (h : state.SameLayout state') (mnemonic : String) (x y : Float32) :
    state.moveText mnemonic x y = state'.moveText mnemonic x y := by
  cases hp : state.position with
  | none => rw [h.eq_of_position hp]
  | some position =>
    have hline := h.line
    rw [hp, Option.map_some, eq_comm, Option.map_eq_some_iff] at hline
    obtain ⟨position', hp', hline⟩ := hline
    have hstart : position.startLine x y = position'.startLine x y := by
      rw [TextPosition.startLine, TextPosition.startLine, hline]
    rw [moveText, moveText, withPosition_of_position hp, withPosition_of_position hp', hstart,
      h.withPosition_eq]

/-- The next line starts at the same place from states that are alike. -/
theorem nextLine_eq (h : state.SameLayout state') (mnemonic : String) :
    state.nextLine mnemonic = state'.nextLine mnemonic := by
  rw [nextLine, nextLine, h.graphics, h.moveText_eq]

end SameLayout

variable (state : StreamState) (mnemonic : String)

/-- Moving on within the line keeps the layout. -/
theorem adjust_sameLayout (n : Float32) : (state.adjust mnemonic n).state.SameLayout state := by
  unfold adjust withPosition
  cases hp : state.position with
  | none => exact .refl state
  | some position => exact ⟨rfl, rfl, rfl, (congrArg (Option.map TextPosition.line) hp).symm⟩

/-- Starting a line shows nothing. -/
theorem nextLine_events : (state.nextLine mnemonic).events = [] := by
  unfold nextLine moveText withPosition
  cases state.position <;> rfl

/-- Showing a string keeps the layout. -/
theorem showText_sameLayout (bytes : List UInt8) :
    (state.showText mnemonic bytes).state.SameLayout state := by
  unfold showText
  cases state.graphics.font with
  | none => exact .refl state
  | some font =>
    cases hp : state.position with
    | none => exact .refl state
    | some position => exact ⟨rfl, rfl, rfl, (congrArg (Option.map TextPosition.line) hp).symm⟩

/-- Showing an element of a text array keeps the layout. -/
theorem showElement_sameLayout (element : Object) :
    (state.showElement mnemonic element).state.SameLayout state := by
  unfold showElement
  split
  · exact state.showText_sameLayout mnemonic _
  · split
    · exact state.adjust_sameLayout mnemonic _
    · exact .refl state

/-- Showing a text array keeps the layout. -/
theorem showElements_sameLayout (elements : List Object) :
    (showElements mnemonic elements state).state.SameLayout state := by
  induction elements generalizing state with
  | nil => exact .refl state
  | cons element elements ih =>
    have hfirst := state.showElement_sameLayout mnemonic element
    exact Outcome.andThen_keeps (p := fun next => next.SameLayout state) hfirst
      fun next hnext => (ih next).trans hnext

variable {state mnemonic}

/-- A string that is shown has one event, which tells the text matrix that it is shown at. -/
theorem showText_events {bytes : List UInt8} (hs : (state.showText mnemonic bytes).error = none) :
    ∃ event, (state.showText mnemonic bytes).events = [event] ∧
      state.position.map TextPosition.text = some event.textMatrix := by
  unfold showText at hs ⊢
  cases hf : state.graphics.font with
  | none =>
    rw [hf] at hs
    cases hs
  | some font =>
    rw [hf] at hs
    cases hp : state.position with
    | none =>
      simp only [hp] at hs
      cases hs
    | some position => exact ⟨_, rfl, rfl⟩

end StreamState

namespace Operation

/-- Two operations that are the same but for what they show: the operand of a shown string, the
array of a text array, or the string that stands after two spacings. -/
inductive SameButShown (registry : Registry) : Operation → Operation → Prop where
  /-- An operation is the same as itself. -/
  | same (operation : Operation) : SameButShown registry operation operation
  /-- Operations that show their only operand. -/
  | only {mnemonic : String} {kind : Operator} {shown shown' : Object}
      (hl : registry.lookup? mnemonic = some kind)
      (hk : kind ∈ [.showText, .showTextArray, .nextLineShowText]) :
      SameButShown registry ⟨mnemonic, [shown]⟩ ⟨mnemonic, [shown']⟩
  /-- Operations that show their last operand. -/
  | last {mnemonic : String} {word char shown shown' : Object}
      (hl : registry.lookup? mnemonic = some .nextLineShowTextSpaced) :
      SameButShown registry ⟨mnemonic, [word, char, shown]⟩ ⟨mnemonic, [word, char, shown']⟩

/-- Operations that are the same but for what they show have the same mnemonic. -/
theorem SameButShown.operator_eq {registry : Registry} {operation operation' : Operation}
    (h : operation.SameButShown registry operation') :
    operation.operator = operation'.operator := by
  cases h <;> rfl

end Operation

namespace Instruction

/-- Two instructions that are the same but for what they show. -/
inductive SameButShown : Instruction → Instruction → Prop where
  /-- Shown strings may differ. -/
  | showText (bytes bytes' : List UInt8) : SameButShown (showText bytes) (showText bytes')
  /-- Text arrays may differ. -/
  | showTextArray (elements elements' : List Object) :
      SameButShown (showTextArray elements) (showTextArray elements')
  /-- Strings shown on the next line may differ. -/
  | nextLineShowText (bytes bytes' : List UInt8) :
      SameButShown (nextLineShowText bytes) (nextLineShowText bytes')
  /-- Strings shown with spacing may differ, but not the spacing. -/
  | nextLineShowTextSpaced (word char : Float32) (bytes bytes' : List UInt8) :
      SameButShown (nextLineShowTextSpaced word char bytes)
        (nextLineShowTextSpaced word char bytes')
  /-- Instructions that show nothing are the same. -/
  | other {instruction : Instruction}
      (hk : instruction.operator ∉
        [.showText, .showTextArray, .nextLineShowText, .nextLineShowTextSpaced]) :
      SameButShown instruction instruction

/-- Every instruction is the same as itself. -/
theorem SameButShown.refl (instruction : Instruction) : SameButShown instruction instruction := by
  cases instruction with
  | showText bytes => exact .showText bytes bytes
  | showTextArray elements => exact .showTextArray elements elements
  | nextLineShowText bytes => exact .nextLineShowText bytes bytes
  | nextLineShowTextSpaced word char bytes => exact .nextLineShowTextSpaced word char bytes bytes
  | _ => exact .other (by simp [operator])

/-- Operations that are the same but for what they show are read as such instructions. -/
theorem SameButShown.of_read {registry : Registry} {operation operation' : Operation}
    {kind : Operator} {instruction instruction' : Instruction}
    (ho : operation.SameButShown registry operation')
    (hl : registry.lookup? operation.operator = some kind)
    (hi : read operation.operator kind operation.operands = .ok instruction)
    (hi' : read operation'.operator kind operation'.operands = .ok instruction') :
    instruction.SameButShown instruction' := by
  cases ho with
  | same =>
    cases hi.symm.trans hi'
    exact .refl instruction
  | only hk hm =>
    cases Option.some.inj (hk.symm.trans hl)
    simp only [List.mem_cons, List.not_mem_nil, or_false] at hm
    rcases hm with rfl | rfl | rfl <;> rw [read] at hi hi'
    · obtain ⟨_, -, rfl⟩ := of_oneString hi
      obtain ⟨_, -, rfl⟩ := of_oneString hi'
      exact .showText _ _
    · obtain ⟨_, -, rfl⟩ := of_oneArray hi
      obtain ⟨_, -, rfl⟩ := of_oneArray hi'
      exact .showTextArray _ _
    · obtain ⟨_, -, rfl⟩ := of_oneString hi
      obtain ⟨_, -, rfl⟩ := of_oneString hi'
      exact .nextLineShowText _ _
  | last hk =>
    cases Option.some.inj (hk.symm.trans hl)
    rw [read] at hi hi'
    obtain ⟨_, _, word, char, _, ho, hword, hchar, rfl⟩ := of_spacedText hi
    obtain ⟨_, _, word', char', _, ho', hword', hchar', rfl⟩ := of_spacedText hi'
    cases ho
    cases ho'
    cases hword.symm.trans hword'
    cases hchar.symm.trans hchar'
    exact .nextLineShowTextSpaced _ _ _ _

end Instruction

/-- What two outcomes of an operation of the given kind have in common although what was shown
differs. -/
structure Outcome.AgreesOnLayout (kind : Operator) (outcome outcome' : Outcome) : Prop where
  /-- The layout is the same. -/
  layout : outcome.state.SameLayout outcome'.state
  /-- Where the operator opens a text object, starts a line or sets the text matrix, the text
  matrices agree as well. -/
  placed : kind ∈ [.beginText, .moveText, .moveTextSetLeading, .nextLine, .setTextMatrix] →
    outcome.state.position = outcome'.state.position
  /-- A string on the next line is shown at the same text matrix. -/
  quoted : kind ∈ [.nextLineShowText, .nextLineShowTextSpaced] →
    ∃ event event', outcome.events = [event] ∧ outcome'.events = [event'] ∧
      event.textMatrix = event'.textMatrix
  /-- An invocation delivers the same events. -/
  invoked : kind = .invokeXObject → outcome.events = outcome'.events

namespace Outcome.AgreesOnLayout

variable {kind : Operator} {outcome outcome' : Outcome}

/-- An outcome agrees with itself, if it need not show anything. -/
theorem of_eq (hk : kind ∉ [.nextLineShowText, .nextLineShowTextSpaced])
    (h : outcome = outcome') : AgreesOnLayout kind outcome outcome' := by
  subst h
  exact ⟨.refl _, fun _ => rfl, fun hq => absurd hq hk, fun _ => rfl⟩

/-- For most operators it is enough that the states are alike. -/
theorem of_layout (hk : kind ∉ [.beginText, .moveText, .moveTextSetLeading, .nextLine,
      .setTextMatrix] ++ [.nextLineShowText, .nextLineShowTextSpaced] ++ [.invokeXObject])
    (h : outcome.state.SameLayout outcome'.state) : AgreesOnLayout kind outcome outcome' := by
  rw [List.mem_append, List.mem_append, List.mem_singleton, not_or, not_or] at hk
  obtain ⟨⟨hplaced, hquoted⟩, hinvoked⟩ := hk
  exact ⟨h, fun hp => absurd hp hplaced, fun hq => absurd hq hquoted,
    fun hx => absurd hx hinvoked⟩

/-- Strings on the next line are shown at the same place, whatever they are. -/
theorem of_nextLine (hk : kind ∈ [.nextLineShowText, .nextLineShowTextSpaced])
    {line : Outcome} {mnemonic : String} {bytes bytes' : List UInt8}
    (hs : (line.andThen fun next => next.showText mnemonic bytes).error = none)
    (hs' : (line.andThen fun next => next.showText mnemonic bytes').error = none)
    (hl : line.events = []) :
    AgreesOnLayout kind (line.andThen fun next => next.showText mnemonic bytes)
      (line.andThen fun next => next.showText mnemonic bytes') := by
  obtain ⟨he, hshown⟩ := andThen_error_eq_none_iff.1 hs
  obtain ⟨-, hshown'⟩ := andThen_error_eq_none_iff.1 hs'
  obtain ⟨event, hevents, hmatrix⟩ := StreamState.showText_events hshown
  obtain ⟨event', hevents', hmatrix'⟩ := StreamState.showText_events hshown'
  rw [andThen_of_success he, andThen_of_success he, hl, List.nil_append, List.nil_append]
  refine ⟨?_, fun hp => ?_, fun _ => ⟨event, event', hevents, hevents', ?_⟩, fun hx => ?_⟩
  · exact (line.state.showText_sameLayout mnemonic bytes).trans
      (line.state.showText_sameLayout mnemonic bytes').symm
  · simp only [List.mem_cons, List.not_mem_nil, or_false] at hk
    rcases hk with rfl | rfl <;> simp at hp
  · exact Option.some.inj (hmatrix.symm.trans hmatrix')
  · subst hx
    simp at hk

end Outcome.AgreesOnLayout

namespace Setup

variable {setup : Setup} {forms : FormRunner} {state state' : StreamState}

/-- An invocation makes no difference between states that are alike. -/
theorem invokeXObject_agreesOnLayout (h : state.SameLayout state') (name : String) :
    Outcome.AgreesOnLayout .invokeXObject (setup.invokeXObject forms state name)
      (setup.invokeXObject forms state' name) := by
  refine ⟨?_, by simp, by simp, fun _ => ?_⟩
  · rw [invokeXObject_state, invokeXObject_state]
    exact h
  · unfold invokeXObject
    rw [h.activeResources]
    cases state'.activeResources.xobject? name with
    | none => rfl
    | some xobject =>
      cases xobject with
      | other subtype => rfl
      | form content matrix own =>
        dsimp only
        split
        · cases forms with
          | none => rfl
          | some run => simp only [h.enterForm_eq]
        · rfl

/-- Instructions that are the same but for what they show, and that succeed in states that are
alike, agree on the layout. -/
theorem execute_agreesOnLayout {mnemonic : String} {instruction instruction' : Instruction}
    (h : state.SameLayout state') (hi : instruction.SameButShown instruction')
    (hs : (setup.execute forms mnemonic state instruction).error = none)
    (hs' : (setup.execute forms mnemonic state' instruction').error = none) :
    Outcome.AgreesOnLayout instruction.operator
      (setup.execute forms mnemonic state instruction)
      (setup.execute forms mnemonic state' instruction') := by
  cases hi with
  | showText bytes bytes' =>
    exact .of_layout (by simp [Instruction.operator])
      ((state.showText_sameLayout mnemonic bytes).trans
        (h.trans (state'.showText_sameLayout mnemonic bytes').symm))
  | showTextArray elements elements' =>
    exact .of_layout (by simp [Instruction.operator])
      ((state.showElements_sameLayout mnemonic elements).trans
        (h.trans (state'.showElements_sameLayout mnemonic elements').symm))
  | nextLineShowText bytes bytes' =>
    rw [execute] at hs hs' ⊢
    rw [execute]
    rw [h.nextLine_eq] at hs ⊢
    exact .of_nextLine (by simp [Instruction.operator]) hs hs'
      (StreamState.nextLine_events _ mnemonic)
  | nextLineShowTextSpaced word char bytes bytes' =>
    have hspaced := h.modifyGraphics fun g => { g with wordSpacing := word, charSpacing := char }
    rw [execute] at hs hs' ⊢
    rw [execute]
    rw [hspaced.nextLine_eq] at hs ⊢
    exact .of_nextLine (by simp [Instruction.operator]) hs hs'
      (StreamState.nextLine_events _ mnemonic)
  | other hk =>
    cases instruction with
    | showText | showTextArray | nextLineShowText | nextLineShowTextSpaced =>
      simp [Instruction.operator] at hk
    | saveState =>
      exact .of_layout (by simp [Instruction.operator])
        ⟨congrArg GraphicsStack.push h.stack, h.marked, h.resources, h.line⟩
    | restoreState =>
      rw [execute] at hs ⊢
      rw [execute]
      rw [h.stack] at hs ⊢
      cases hp : state'.stack.pop with
      | error error =>
        rw [hp] at hs
        cases hs
      | ok stack =>
        exact .of_layout (by simp [Instruction.operator]) ⟨rfl, h.marked, h.resources, h.line⟩
    | setParameters name =>
      refine .of_layout (by simp [Instruction.operator]) ?_
      rw [execute, execute, StreamState.setParameters, StreamState.setParameters,
        h.activeResources]
      rcases state'.activeResources.parameters? name with _ | ⟨_ | ⟨font, size⟩⟩
      · exact h
      · exact h
      · exact h.modifyGraphics _
    | setFont name size =>
      refine .of_layout (by simp [Instruction.operator]) ?_
      rw [execute, execute, StreamState.setFont, StreamState.setFont, h.activeResources]
      cases state'.activeResources.font? name with
      | none => exact h
      | some font => exact h.modifyGraphics _
    | concatMatrix | setCharSpacing | setWordSpacing | setHorizontalScaling | setLeading
    | setRenderMode | setRise =>
      exact .of_layout (by simp [Instruction.operator]) (h.modifyGraphics _)
    | beginText =>
      refine .of_eq (by simp [Instruction.operator]) ?_
      cases hp : state.position with
      | none => rw [h.eq_of_position hp]
      | some position =>
        rw [execute, hp] at hs
        cases hs
    | endText =>
      exact .of_layout (by simp [Instruction.operator]) ⟨h.stack, h.marked, h.resources, rfl⟩
    | moveText x y => exact .of_eq (by simp [Instruction.operator]) (h.moveText_eq mnemonic x y)
    | moveTextSetLeading x y =>
      exact .of_eq (by simp [Instruction.operator])
        ((h.modifyGraphics _).moveText_eq mnemonic x y)
    | setTextMatrix m =>
      exact .of_eq (by simp [Instruction.operator])
        (congrArg Outcome.done (h.withPosition_eq (some ⟨m, m⟩)))
    | nextLine => exact .of_eq (by simp [Instruction.operator]) (h.nextLine_eq mnemonic)
    | invokeXObject name => exact invokeXObject_agreesOnLayout h name
    | beginMarkedContent tag =>
      exact .of_layout (by simp [Instruction.operator])
        ⟨h.stack, congrArg (List.cons _) h.marked, h.resources, h.line⟩
    | beginMarkedContentWithProperties tag properties =>
      have hmcid : state.mcid? properties = state'.mcid? properties := by
        unfold StreamState.mcid?
        rw [h.activeResources]
      refine .of_layout (by simp [Instruction.operator]) ?_
      rw [execute, execute, hmcid]
      exact ⟨h.stack, congrArg (List.cons _) h.marked, h.resources, h.line⟩
    | endMarkedContent =>
      exact .of_layout (by simp [Instruction.operator])
        ⟨h.stack, congrArg List.tail h.marked, h.resources, h.line⟩

/-- Operations that are the same but for what they show, and that succeed in states that are
alike, agree on the layout. -/
theorem step_agreesOnLayout {operation operation' : Operation} (h : state.SameLayout state')
    (ho : operation.SameButShown setup.registry operation')
    (hs : (setup.step forms state operation).error = none)
    (hs' : (setup.step forms state' operation').error = none) :
    (setup.step forms state operation).state.SameLayout
        (setup.step forms state' operation').state ∧
      ∀ kind, setup.registry.lookup? operation.operator = some kind →
        Outcome.AgreesOnLayout kind (setup.step forms state operation)
          (setup.step forms state' operation') := by
  cases hl : setup.registry.lookup? operation.operator with
  | none =>
    rw [step_of_unknown hl, step_of_unknown (ho.operator_eq ▸ hl)]
    exact ⟨h, nofun⟩
  | some kind =>
    obtain ⟨-, instruction, hi, hrun⟩ := exists_read_of_success hl hs
    obtain ⟨-, instruction', hi', hrun'⟩ := exists_read_of_success (ho.operator_eq ▸ hl) hs'
    have hop : instruction.operator = kind := Instruction.operator_of_read hi
    rw [hrun] at hs ⊢
    rw [hrun', ← ho.operator_eq] at hs' ⊢
    have hagrees := execute_agreesOnLayout h (.of_read ho hl hi hi') hs hs'
    rw [hop] at hagrees
    refine ⟨hagrees.layout, ?_⟩
    rintro _ ⟨⟩
    exact hagrees

/-- Operations that are the same but for what they show, and that run with success from states
that are alike, agree on the layout after each number of them. -/
theorem runFrom_take_sameLayout {count : Nat} {operations operations' : List Operation}
    (h : state.SameLayout state')
    (ho : List.Forall₂ (Operation.SameButShown setup.registry) operations operations')
    (hs : (setup.runFrom forms count state operations).error = none)
    (hs' : (setup.runFrom forms count state' operations').error = none) (n : Nat) :
    (setup.runFrom forms count state (operations.take n)).state.SameLayout
      (setup.runFrom forms count state' (operations'.take n)).state := by
  induction ho generalizing state state' count n with
  | nil =>
    rw [List.take_nil]
    exact h
  | cons hone _ ih =>
    obtain ⟨hallowed, hfirst, hrest⟩ := runFrom_cons_error_eq_none_iff.1 hs
    obtain ⟨-, hfirst', hrest'⟩ := runFrom_cons_error_eq_none_iff.1 hs'
    cases n with
    | zero => exact h
    | succ n =>
      rw [List.take_succ_cons, List.take_succ_cons, runFrom_cons_of_allowed hallowed,
        runFrom_cons_of_allowed hallowed, Outcome.andThen_of_success hfirst,
        Outcome.andThen_of_success hfirst']
      exact ih (step_agreesOnLayout h hone hfirst hfirst').1 hrest hrest' n

/-- What is shown never influences the layout. Let two runs start in the same state, succeed,
and have operations that are the same but for what they show. Then after each number of
operations the states differ in the text matrix at most. Moreover the next operation, by its
kind, leaves the same text matrix in both where it opens a text object, starts a line or sets
the matrix; it shows its string at the same text matrix where it does so on the next line; and
it delivers the same events where it invokes an external object. -/
theorem runFrom_agreesOnLayout {count : Nat} {operations operations' : List Operation}
    (ho : List.Forall₂ (Operation.SameButShown setup.registry) operations operations')
    (hs : (setup.runFrom forms count state operations).error = none)
    (hs' : (setup.runFrom forms count state operations').error = none) (n : Nat) :
    (setup.runFrom forms count state (operations.take n)).state.SameLayout
        (setup.runFrom forms count state (operations'.take n)).state ∧
      ∀ operation operation' kind, operations[n]? = some operation →
        operations'[n]? = some operation' →
        setup.registry.lookup? operation.operator = some kind →
        Outcome.AgreesOnLayout kind
          (setup.step forms (setup.runFrom forms count state (operations.take n)).state operation)
          (setup.step forms (setup.runFrom forms count state (operations'.take n)).state
            operation') := by
  have hbefore := runFrom_take_sameLayout (.refl state) ho hs hs' n
  refine ⟨hbefore, fun operation operation' kind hn hn' hl => ?_⟩
  obtain ⟨hlt, rfl⟩ := List.getElem?_eq_some_iff.1 hn
  obtain ⟨hlt', rfl⟩ := List.getElem?_eq_some_iff.1 hn'
  rw [← List.take_append_drop n operations, List.drop_eq_getElem_cons hlt] at hs
  rw [← List.take_append_drop n operations', List.drop_eq_getElem_cons hlt'] at hs'
  have hone := ho.get hlt hlt'
  exact (step_agreesOnLayout hbefore hone (runFrom_reaches hs).2 (runFrom_reaches hs').2).2
    kind hl

/-- Whether one letter is shown or two, the next line starts at the same place. -/
theorem runFrom_agreesOnLayout_letters :
    (standard.invoke (standard.runFrom standard.pageForms 0 fontText
        [⟨"Tj", [.str [0x41]]⟩]).state ⟨"T*", []⟩).state.position =
      (standard.invoke (standard.runFrom standard.pageForms 0 fontText
        [⟨"Tj", [.str [0x42, 0x43]]⟩]).state ⟨"T*", []⟩).state.position := by
  have hoperations : List.Forall₂ (Operation.SameButShown standard.registry)
      [⟨"Tj", [.str [0x41]]⟩, ⟨"T*", []⟩] [⟨"Tj", [.str [0x42, 0x43]]⟩, ⟨"T*", []⟩] :=
    .cons (.only rfl (by decide)) (.cons (.same _) .nil)
  have hagrees := @runFrom_agreesOnLayout standard standard.pageForms fontText 0 _ _ hoperations
    rfl rfl 1
  exact (hagrees.2 ⟨"T*", []⟩ ⟨"T*", []⟩ .nextLine rfl rfl rfl).placed (by decide)

end Setup

end PageText
