import PageText.Proofs.Binary32
import PageText.Proofs.Limits
import PageText.Proofs.Writing

/-!
# Forms and their inlining

Invoking a form runs its operations on a state of its own; writing them into the caller
between saving and restoring the graphics state runs them on the caller's. The two runs
are related by placing the states of the form on top of the caller's: every operation
that succeeds keeps this relation, further forms included, so whole runs do. Operations
that fail are not compared.
-/

namespace PageText

namespace GraphicsStack

/-- A stack on top of another one. -/
def above (stack below : GraphicsStack) : GraphicsStack :=
  ⟨below.base, stack.saved ++ stack.base :: below.saved⟩

/-- The upper stack has the current state. -/
theorem top_above (stack below : GraphicsStack) : (stack.above below).top = stack.top := by
  obtain ⟨base, saved⟩ := stack
  cases saved <;> rfl

/-- Saving happens on the upper stack. -/
theorem push_above (stack below : GraphicsStack) :
    (stack.above below).push = stack.push.above below := by
  rw [push, top_above]
  rfl

/-- Changing the current state happens on the upper stack. -/
theorem modifyTop_above (stack below : GraphicsStack) (change : GraphicsState → GraphicsState) :
    (stack.above below).modifyTop change = (stack.modifyTop change).above below := by
  rw [modifyTop, modifyTop, top_above]
  obtain ⟨base, saved⟩ := stack
  cases saved <;> rfl

/-- Restoring happens on the upper stack as long as that can. -/
theorem pop_above {stack rest : GraphicsStack} (h : stack.pop = .ok rest)
    (below : GraphicsStack) : (stack.above below).pop = .ok (rest.above below) := by
  obtain ⟨base, saved⟩ := stack
  cases saved with
  | nil => cases h
  | cons state saved =>
    cases h
    rfl

/-- Restoring uncovers the lower stack if the upper one is only its base. -/
theorem pop_above_of_depth {stack : GraphicsStack} (h : stack.depth = 1)
    (below : GraphicsStack) : (stack.above below).pop = .ok below := by
  obtain ⟨base, saved⟩ := stack
  have hsaved : saved = [] := List.length_eq_zero_iff.1 (Nat.succ.inj h)
  rw [hsaved]
  rfl

end GraphicsStack

/-- A state on top of a caller's, whose stack is below and whose resources names refer to. -/
def StreamState.above (state caller : StreamState) : StreamState :=
  { state with stack := state.stack.above caller.stack, resources := caller.resources }

/-- An outcome on top of a caller's state. -/
def Outcome.above (outcome : Outcome) (caller : StreamState) : Outcome :=
  { outcome with state := outcome.state.above caller }

/-- Parts that run alike on top of a caller do so together. -/
theorem Outcome.andThen_above {first : Outcome} {next : StreamState → Outcome}
    {caller : StreamState} (hn : first.error = none →
      next (first.state.above caller) = (next first.state).above caller) :
    (first.above caller).andThen next = (first.andThen next).above caller := by
  cases he : first.error with
  | some error =>
    have ho : (first.above caller).error = some error := he
    rw [andThen_of_error he, andThen_of_error ho]
  | none =>
    have ho : (first.above caller).error = none := he
    have hnext : next (first.above caller).state = (next first.state).above caller :=
      hn he
    rw [andThen_of_success he, andThen_of_success ho, hnext]
    rfl

namespace StreamState

variable (state caller : StreamState)

/-- The current graphics state is the upper one. -/
theorem graphics_above : (state.above caller).graphics = state.graphics :=
  GraphicsStack.top_above state.stack caller.stack

/-- Changing the graphics state changes the upper one. -/
theorem modifyGraphics_above (change : GraphicsState → GraphicsState) :
    (state.above caller).modifyGraphics change = (state.modifyGraphics change).above caller := by
  rw [modifyGraphics, StreamState.above, GraphicsStack.modifyTop_above]
  rfl

/-- Moving the text position does not see the caller. -/
theorem withPosition_above (mnemonic : String) (change : TextPosition → TextPosition) :
    (state.above caller).withPosition mnemonic change =
      (state.withPosition mnemonic change).above caller := by
  obtain ⟨stack, position, resources, marked⟩ := state
  cases position <;> rfl

/-- Starting the next line does not see the caller. -/
theorem nextLine_above (mnemonic : String) :
    (state.above caller).nextLine mnemonic = (state.nextLine mnemonic).above caller := by
  rw [nextLine, nextLine, graphics_above]
  exact state.withPosition_above caller mnemonic _

/-- Showing a string does not see the caller. -/
theorem showText_above (mnemonic : String) (bytes : List UInt8) :
    (state.above caller).showText mnemonic bytes =
      (state.showText mnemonic bytes).above caller := by
  rw [showText, showText, graphics_above]
  obtain ⟨stack, position, resources, marked⟩ := state
  cases GraphicsState.font _ with
  | none => rfl
  | some font => cases position <;> rfl

/-- Showing an element of a text array does not see the caller. -/
theorem showElement_above (mnemonic : String) (element : Object) :
    (state.above caller).showElement mnemonic element =
      (state.showElement mnemonic element).above caller := by
  unfold showElement
  split
  · exact state.showText_above caller mnemonic _
  · split
    · rw [adjust, adjust, graphics_above]
      exact state.withPosition_above caller mnemonic _
    · rfl

/-- Showing a text array does not see the caller. -/
theorem showElements_above (mnemonic : String) (elements : List Object) :
    showElements mnemonic elements (state.above caller) =
      (showElements mnemonic elements state).above caller := by
  induction elements generalizing state with
  | nil => rfl
  | cons element elements ih =>
    rw [showElements, showElements, showElement_above]
    exact Outcome.andThen_above fun _ => ih _

variable {state caller}

/-- Names refer to the caller's resources, which are the same ones. -/
theorem activeResources_above (h : state.activeResources = caller.activeResources) :
    (state.above caller).activeResources = state.activeResources := h.symm

/-- A form starts alike with the caller below and without. -/
theorem enterForm_above (h : state.activeResources = caller.activeResources) (matrix : Matrix)
    (own : Option Resources) :
    (state.above caller).enterForm matrix own = state.enterForm matrix own := by
  rw [enterForm, graphics_above, activeResources_above h]
  rfl

end StreamState

namespace Setup

variable {setup : Setup} {forms : FormRunner} {state caller : StreamState}

/-- Invoking an external object does not see the caller. -/
theorem invokeXObject_above (h : state.activeResources = caller.activeResources) (name : String) :
    setup.invokeXObject forms (state.above caller) name =
      (setup.invokeXObject forms state name).above caller := by
  simp only [invokeXObject, StreamState.activeResources_above h, StreamState.enterForm_above h]
  cases state.activeResources.xobject? name with
  | none => rfl
  | some xobject =>
    cases xobject with
    | other subtype => rfl
    | form content matrix own =>
      dsimp only
      split
      · cases forms <;> rfl
      · rfl

/-- An instruction that succeeds runs alike on top of a caller. It has to succeed because
restoring is the one thing that could reach below. -/
theorem execute_above (h : state.activeResources = caller.activeResources) (mnemonic : String)
    (instruction : Instruction)
    (hs : (setup.execute forms mnemonic state instruction).error = none) :
    setup.execute forms mnemonic (state.above caller) instruction =
      (setup.execute forms mnemonic state instruction).above caller := by
  cases instruction with
  | saveState => exact congrArg (fun stack => Outcome.done { state with
      stack := stack, resources := caller.resources }) (GraphicsStack.push_above _ _)
  | restoreState =>
    rw [execute] at hs ⊢
    rw [execute]
    cases hp : state.stack.pop with
    | error error =>
      rw [hp] at hs
      cases hs
    | ok stack =>
      have hover : (state.above caller).stack.pop = .ok (stack.above caller.stack) :=
        GraphicsStack.pop_above hp caller.stack
      rw [hover]
      rfl
  | setParameters name =>
    rw [execute, execute, StreamState.setParameters, StreamState.setParameters,
      StreamState.activeResources_above h]
    rcases state.activeResources.parameters? name with _ | ⟨_ | ⟨font, size⟩⟩
    · rfl
    · rfl
    · exact congrArg Outcome.done (state.modifyGraphics_above caller _)
  | concatMatrix | setCharSpacing | setWordSpacing | setHorizontalScaling | setLeading
  | setRenderMode | setRise => exact congrArg Outcome.done (state.modifyGraphics_above caller _)
  | setFont name size =>
    rw [execute, execute, StreamState.setFont, StreamState.setFont,
      StreamState.activeResources_above h]
    cases state.activeResources.font? name with
    | none => rfl
    | some font => exact congrArg Outcome.done (state.modifyGraphics_above caller _)
  | beginText =>
    obtain ⟨stack, position, resources, marked⟩ := state
    cases position <;> rfl
  | moveText x y => exact state.withPosition_above caller mnemonic _
  | moveTextSetLeading x y =>
    rw [execute, execute, StreamState.modifyGraphics_above]
    exact StreamState.withPosition_above _ caller mnemonic _
  | nextLine => exact state.nextLine_above caller mnemonic
  | showText bytes => exact state.showText_above caller mnemonic bytes
  | showTextArray elements => exact state.showElements_above caller mnemonic elements
  | nextLineShowText bytes =>
    rw [execute, execute, StreamState.nextLine_above]
    exact Outcome.andThen_above fun _ => StreamState.showText_above _ caller mnemonic bytes
  | nextLineShowTextSpaced word char bytes =>
    simp only [execute, StreamState.modifyGraphics_above, StreamState.nextLine_above]
    exact Outcome.andThen_above fun _ => StreamState.showText_above _ caller mnemonic bytes
  | invokeXObject name => exact invokeXObject_above h name
  | beginMarkedContentWithProperties tag properties =>
    simp only [execute, StreamState.mcid?, StreamState.activeResources_above h]
    rfl
  | endText | setTextMatrix | beginMarkedContent | endMarkedContent => rfl

/-- An operation that succeeds runs alike on top of a caller. -/
theorem step_above (h : state.activeResources = caller.activeResources) (operation : Operation)
    (hs : (setup.step forms state operation).error = none) :
    setup.step forms (state.above caller) operation =
      (setup.step forms state operation).above caller := by
  rcases step_cases setup forms state operation with
    ⟨hl, he⟩ | ⟨operator, hl, ⟨_, _, he⟩ | ⟨ht, ⟨_, _, he⟩ | ⟨instruction, hi, he⟩⟩⟩
  · rw [he, step_of_unknown hl]
    rfl
  · rw [he] at hs
    cases hs
  · rw [he] at hs
    cases hs
  · have hplace : operator.needsTextObject = true → (state.above caller).position ≠ none := ht
    rw [he] at hs ⊢
    rw [step_of_read hl hplace hi]
    exact execute_above h operation.operator instruction hs

/-- Operations that succeed one after the other run alike on top of a caller. -/
theorem runFrom_above (h : state.activeResources = caller.activeResources) (count : Nat)
    (operations : List Operation)
    (hs : (setup.runFrom forms count state operations).error = none) :
    setup.runFrom forms count (state.above caller) operations =
      (setup.runFrom forms count state operations).above caller := by
  induction operations generalizing count state with
  | nil => rfl
  | cons operation operations ih =>
    rw [runFrom] at hs ⊢
    rw [runFrom]
    cases he : setup.exceeds? count with
    | some error => rfl
    | none =>
      rw [he] at hs
      obtain ⟨hfirst, hrest⟩ := Outcome.andThen_error_eq_none_iff.1 hs
      have hactive : (setup.step forms state operation).state.activeResources =
          caller.activeResources := (step_activeResources state operation).trans h
      dsimp only
      rw [step_above h operation hfirst]
      exact Outcome.andThen_above fun _ => ih hactive (count + 1) hrest

end Setup

/-- The operands that give a transform. -/
def Matrix.operands (m : Matrix) : List Object :=
  [m.a, m.b, m.c, m.d, m.e, m.f].map fun x => .real (Number.Binary32.widen x)

/-- The operands of a transform are read as it. -/
theorem Instruction.read_matrix_operands (mnemonic : String) (m : Matrix) :
    Instruction.read mnemonic .concatMatrix m.operands = .ok (.concatMatrix m) := by
  have hnumber (x : Float32) :
      number mnemonic (.real (Number.Binary32.widen x)) = .ok x := by
    rw [number, Object.asNumber?, Number.Binary32.narrow_widen]
  simp only [Matrix.operands, List.map_cons, List.map_nil, Instruction.read, sixNumbers, hnumber]
  rfl

namespace Operation

/-- The operations of a form in place of its invocation: with a graphics state of their
own, and in the space of the form. -/
def inlined (content : List UInt8) (matrix : Matrix) : List Operation :=
  [⟨"q", []⟩, ⟨"cm", matrix.operands⟩] ++ readAll content ++ [⟨"Q", []⟩]

end Operation

namespace Setup

variable {setup : Setup} {forms : FormRunner} {state : StreamState}

/-- Saving pushes the graphics state. -/
theorem step_save (hr : setup.registry = .standard) :
    setup.step forms state ⟨"q", []⟩ = .done { state with stack := state.stack.push } := by
  have hread : Instruction.read "q" .saveState [] = .ok .saveState := rfl
  exact step_standard hr .saveState nofun hread

/-- Restoring pops the graphics state, if it can. -/
theorem step_restore (hr : setup.registry = .standard) {stack : GraphicsStack}
    (h : state.stack.pop = .ok stack) :
    setup.step forms state ⟨"Q", []⟩ = .done { state with stack := stack } := by
  have hread : Instruction.read "Q" .restoreState [] = .ok .restoreState := rfl
  have hexecute : setup.step forms state ⟨"Q", []⟩ =
      setup.execute forms "Q" state .restoreState := step_standard hr .restoreState nofun hread
  rw [hexecute, execute, h]

/-- Applying a transform changes the current graphics state. -/
theorem step_concat (hr : setup.registry = .standard) (matrix : Matrix) :
    setup.step forms state ⟨"cm", matrix.operands⟩ =
      .done (state.modifyGraphics fun g => { g with ctm := matrix.followedBy g.ctm }) :=
  step_standard hr .concatMatrix nofun (Instruction.read_matrix_operands "cm" matrix)

/-- Saving the state and applying a transform makes the state in which a form with it
starts, on top of the caller's. -/
theorem runFrom_enter (hr : setup.registry = .standard) (hm : setup.limits.maxOperations = none)
    (hp : state.position = none) (count : Nat) (matrix : Matrix) :
    setup.runFrom forms count state [⟨"q", []⟩, ⟨"cm", matrix.operands⟩] =
      .done ((state.enterForm matrix none).above state) := by
  rw [runFrom_cons hm, step_save hr, Outcome.done_andThen, runFrom_cons hm, step_concat hr,
    Outcome.done_andThen, runFrom]
  obtain ⟨⟨base, saved⟩, position, resources, marked⟩ := state
  change position = none at hp
  rw [hp]
  rfl

/-- Restoring at the end of a form gives the caller's state back, if nothing else of the
form is left. -/
theorem runFrom_leave (hr : setup.registry = .standard) (hm : setup.limits.maxOperations = none)
    (hp : state.position = none) {inner : StreamState} (hdepth : inner.stack.depth = 1)
    (hposition : inner.position = none) (hmarked : inner.marked = state.marked) (count : Nat) :
    setup.runFrom forms count (inner.above state) [⟨"Q", []⟩] = .done state := by
  have hpop : (inner.above state).stack.pop = .ok state.stack :=
    GraphicsStack.pop_above_of_depth hdepth state.stack
  rw [runFrom_cons hm, step_restore hr hpop, Outcome.done_andThen, runFrom]
  obtain ⟨stack, position, resources, marked⟩ := state
  simp only [StreamState.above, hposition, hmarked]
  rw [← hp]

/-- Invoking a form runs its operations on a state of its own with one level less, and
gives the caller's state back. -/
theorem step_form (hr : setup.registry = .standard) (hf : setup.limits.processForms = true)
    {name : String} {content : List UInt8} {matrix : Matrix} {own : Option Resources}
    (hx : state.activeResources.xobject? name = some (.form content matrix own)) (levels : Nat) :
    setup.step (setup.formsAt (levels + 1)) state ⟨"Do", [.name name]⟩ =
      { setup.runFrom (setup.formsAt levels) 0 (state.enterForm matrix own)
          (Operation.readAll content) with state := state } := by
  have hread : Instruction.read "Do" .invokeXObject [.name name] = .ok (.invokeXObject name) := rfl
  have hinvoke : setup.step (setup.formsAt (levels + 1)) state ⟨"Do", [.name name]⟩ =
      setup.invokeXObject (setup.formsAt (levels + 1)) state name :=
    step_standard hr .invokeXObject nofun hread
  rw [hinvoke]
  simp only [invokeXObject, hx, hf, if_true]
  rfl

/-- Invoking a form without resources of its own is the same as inlining it, if the form
restores each graphics state that it saves and closes its text objects and the
marked-content sequences that it opens, and only those: in the end it is then back at its
base, outside of a text object, and inside the sequences of its caller. Either way the
caller's state is the one before. The caller may itself be a form; `levels` counts how
deep forms may still nest inside this one. -/
theorem runFrom_inlined (hr : setup.registry = .standard)
    (hm : setup.limits.maxOperations = none) (hf : setup.limits.processForms = true)
    (hp : state.position = none) {name : String} {content : List UInt8} {matrix : Matrix}
    (hx : state.activeResources.xobject? name = some (.form content matrix none))
    (levels count : Nat) {inner : Outcome}
    (hi : setup.runFrom (setup.formsAt levels) 0 (state.enterForm matrix none)
      (Operation.readAll content) = inner)
    (hdepth : inner.state.stack.depth = 1) (hposition : inner.state.position = none)
    (hmarked : inner.state.marked = state.marked)
    (hs : (setup.step (setup.formsAt (levels + 1)) state ⟨"Do", [.name name]⟩).error = none) :
    setup.step (setup.formsAt (levels + 1)) state ⟨"Do", [.name name]⟩ =
        ⟨state, inner.events, none⟩ ∧
      setup.runFrom (setup.formsAt (levels + 1)) count state
        (Operation.inlined content matrix) = ⟨state, inner.events, none⟩ := by
  rw [step_form hr hf hx, hi] at hs ⊢
  have hinner : inner.error = none := hs
  have hdeeper : setup.runFrom (setup.formsAt (levels + 1)) 0 (state.enterForm matrix none)
      (Operation.readAll content) = inner := by
    rw [← hi] at hinner
    rw [runFrom_formsAt_mono (Nat.le_succ levels) hinner, hi]
  have hactive : (state.enterForm matrix none).activeResources = state.activeResources := rfl
  have hbody (count : Nat) : setup.runFrom (setup.formsAt (levels + 1)) count
      ((state.enterForm matrix none).above state) (Operation.readAll content) =
        inner.above state := by
    rw [← hdeeper] at hinner
    rw [runFrom_count hm count 0, runFrom_above hactive 0 _ hinner, hdeeper]
  refine ⟨congrArg (Outcome.mk state inner.events) hinner, ?_⟩
  have hover : (inner.above state).error = none := hinner
  have hleave (count : Nat) : setup.runFrom (setup.formsAt (levels + 1)) count
      (inner.above state).state [⟨"Q", []⟩] = .done state :=
    runFrom_leave hr hm hp hdepth hposition hmarked count
  rw [Operation.inlined, List.append_assoc, runFrom_append, runFrom_enter hr hm hp,
    Outcome.done_andThen, runFrom_append, hbody, Outcome.andThen_of_success hover, hleave]
  exact congrArg (Outcome.mk state · none) (List.append_nil _)

/-- Showing one letter leads back to the state before, as its text object is closed. -/
theorem runFrom_letter (hr : setup.registry = .standard)
    (hm : setup.limits.maxOperations = none) {font : Font}
    (hf : state.graphics.font = some font) (hp : state.position = none) (count : Nat) :
    ∃ event, setup.runFrom forms count state Operation.letter = ⟨state, [event], none⟩ := by
  obtain ⟨stack, position, resources, marked⟩ := state
  change position = none at hp
  subst hp
  have hbegin : setup.step forms ⟨stack, none, resources, marked⟩ ⟨"BT", []⟩ =
      .done ⟨stack, some .origin, resources, marked⟩ := by
    have hread : Instruction.read "BT" .beginText [] = .ok .beginText := rfl
    exact step_standard hr .beginText nofun hread
  obtain ⟨event, position, hshow⟩ : ∃ event position,
      setup.step forms ⟨stack, some .origin, resources, marked⟩ ⟨"Tj", [.str [0x41]]⟩ =
        ⟨⟨stack, some position, resources, marked⟩, [event], none⟩ := by
    have hread : Instruction.read "Tj" .showText [.str [0x41]] = .ok (.showText [0x41]) := rfl
    have htext : setup.step forms ⟨stack, some .origin, resources, marked⟩
        ⟨"Tj", [.str [0x41]]⟩ =
        StreamState.showText ⟨stack, some .origin, resources, marked⟩ "Tj" [0x41] :=
      step_standard hr .showText (fun _ => Option.some_ne_none _) hread
    have hfont : StreamState.graphics ⟨stack, some .origin, resources, marked⟩ = stack.top := rfl
    change stack.top.font = some font at hf
    rw [htext, StreamState.showText, hfont, hf]
    exact ⟨_, _, rfl⟩
  have hend : setup.step forms ⟨stack, some position, resources, marked⟩ ⟨"ET", []⟩ =
      .done ⟨stack, none, resources, marked⟩ := by
    have hread : Instruction.read "ET" .endText [] = .ok .endText := rfl
    exact step_standard hr .endText (fun _ => Option.some_ne_none _) hread
  refine ⟨event, ?_⟩
  rw [Operation.letter, runFrom_cons hm, hbegin, Outcome.done_andThen, runFrom_cons hm, hshow,
    Outcome.andThen_of_success rfl, runFrom_cons hm, hend, Outcome.done_andThen, runFrom]
  rfl

/-- A caller that has set a font and may invoke a form that shows one letter. -/
def letterCaller : StreamState :=
  .start { GraphicsState.initial with font := some (.simple (.plain "F" .standard)) }
    ⟨[], [], [("X", .form Operation.letterBytes .identity none)], []⟩

/-- The form that shows one letter may be inlined, and delivers one event either way. -/
theorem runFrom_inlined_letter : ∃ event,
    standard.runFrom (standard.formsAt 7) 0 (letterCaller.enterForm .identity none)
        (Operation.readAll Operation.letterBytes) =
        ⟨letterCaller.enterForm .identity none, [event], none⟩ ∧
      standard.step (standard.formsAt 8) letterCaller ⟨"Do", [.name "X"]⟩ =
        ⟨letterCaller, [event], none⟩ ∧
      standard.runFrom (standard.formsAt 8) 0 letterCaller
        (Operation.inlined Operation.letterBytes .identity) = ⟨letterCaller, [event], none⟩ := by
  have hr : standard.registry = .standard := rfl
  have hm : standard.limits.maxOperations = none := rfl
  have hf : standard.limits.processForms = true := rfl
  have hp : letterCaller.position = none := rfl
  have hx : letterCaller.activeResources.xobject? "X" =
      some (.form Operation.letterBytes .identity none) := rfl
  have hfont : (letterCaller.enterForm .identity none).graphics.font =
      some (.simple (.plain "F" .standard)) := rfl
  have hletter : ∃ event, standard.runFrom (standard.formsAt 7) 0
      (letterCaller.enterForm .identity none) (Operation.readAll Operation.letterBytes) =
        ⟨letterCaller.enterForm .identity none, [event], none⟩ := by
    rw [Operation.readAll_letterBytes]
    exact runFrom_letter hr hm hfont rfl 0
  obtain ⟨event, hinner⟩ := hletter
  have hs : (standard.step (standard.formsAt 8) letterCaller ⟨"Do", [.name "X"]⟩).error = none := by
    rw [step_form hr hf hx 7, hinner]
  exact ⟨event, hinner, runFrom_inlined hr hm hf hp hx 7 0 hinner rfl rfl rfl hs⟩

end Setup

end PageText
