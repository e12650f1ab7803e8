import PageText.CommandLine
import PageText.Proofs.Limits
import PageText.Proofs.Scoping
import PageText.Proofs.Writing

/-!
# One font for all

Page content without a document is run with resources that hold one font under every name that an
operation of the content selects a font by. The names are collected before the run, from all the
operations, so that none is missing when it is selected, wherever that may be. During the run no
other font can come in: neither parameter sets nor external objects are among these resources. It
is told here, state by state and event by event, which fonts there are during a run.
-/

namespace PageText

/-! ## States and events of one font -/

/-- The only font that may be set is the given one. -/
def GraphicsState.UsesOnly (font : Font) (graphics : GraphicsState) : Prop :=
  graphics.font = none ∨ graphics.font = some font

/-- In every state of the stack the only font that may be set is the given one. -/
structure GraphicsStack.UsesOnly (font : Font) (stack : GraphicsStack) : Prop where
  /-- In the base state. -/
  base : stack.base.UsesOnly font
  /-- In the states above it. -/
  saved : ∀ graphics ∈ stack.saved, graphics.UsesOnly font

namespace GraphicsStack.UsesOnly

variable {font : Font} {stack : GraphicsStack}

/-- The current state is one of the stack. -/
theorem top (h : stack.UsesOnly font) : stack.top.UsesOnly font := by
  obtain ⟨base, saved⟩ := stack
  cases saved with
  | nil => exact h.base
  | cons graphics saved => exact h.saved graphics List.mem_cons_self

/-- Saving adds a copy of the current state. -/
theorem push (h : stack.UsesOnly font) : stack.push.UsesOnly font :=
  ⟨h.base, List.forall_mem_cons.2 ⟨h.top, h.saved⟩⟩

/-- Restoring takes a state away. -/
theorem pop (h : stack.UsesOnly font) {rest : GraphicsStack} (hp : stack.pop = .ok rest) :
    rest.UsesOnly font := by
  obtain ⟨base, saved⟩ := stack
  cases saved with
  | nil => cases hp
  | cons graphics saved =>
    cases hp
    exact ⟨h.base, (List.forall_mem_cons.1 h.saved).2⟩

/-- The current state may be changed as long as no other font is set. -/
theorem modifyTop (h : stack.UsesOnly font) {change : GraphicsState → GraphicsState}
    (hc : (change stack.top).UsesOnly font) : (stack.modifyTop change).UsesOnly font := by
  obtain ⟨base, saved⟩ := stack
  cases saved with
  | nil => exact ⟨hc, h.saved⟩
  | cons graphics saved =>
    exact ⟨h.base, List.forall_mem_cons.2 ⟨hc, (List.forall_mem_cons.1 h.saved).2⟩⟩

end GraphicsStack.UsesOnly

/-- The event of a string that is shown in the font. -/
structure Event.ShownIn (font : Font) (event : Event) : Prop where
  /-- The font is set. -/
  state : event.state.font = some font
  /-- The glyphs are those that it makes of the string. -/
  glyphs : ∃ bytes, event.glyphs = font.decode bytes

/-- No font that has a name is missing. -/
def Error.LacksNoName (error : Error) : Prop :=
  ∀ name, error = .missingResource "Font" name → name = "<unset>"

/-- What is missing may be anything but a font. -/
theorem Error.lacksNoName_of_category {category : String} (h : category ≠ "Font") (name : String) :
    (missingResource category name).LacksNoName :=
  fun _ he => absurd (missingResource.inj he).1 h

/-- Where a limit is hit nothing is missing. -/
theorem Error.lacksNoName_of_isLimit {error : Error} (h : error.isLimit = true) :
    error.LacksNoName := by
  rintro name rfl
  cases h

/-- No other font is set afterwards, every event is shown in the font, and no name of a font is
missing. -/
structure Outcome.UsesOnly (font : Font) (outcome : Outcome) : Prop where
  /-- The states that are left. -/
  stack : outcome.state.stack.UsesOnly font
  /-- The events that were delivered. -/
  events : ∀ event ∈ outcome.events, event.ShownIn font
  /-- The reason of a failure. -/
  error : ∀ error ∈ outcome.error, error.LacksNoName

namespace Outcome.UsesOnly

variable {font : Font} {state : StreamState}

/-- What succeeds without showing anything only has to leave the states right. -/
theorem done (h : state.stack.UsesOnly font) : (Outcome.done state).UsesOnly font :=
  ⟨h, List.forall_mem_nil _, nofun⟩

/-- What fails without showing anything must not do so for want of a named font. -/
theorem failed (h : state.stack.UsesOnly font) {error : Error} (he : error.LacksNoName) :
    (Outcome.failed state error).UsesOnly font :=
  ⟨h, List.forall_mem_nil _, fun _ hm => Option.mem_some.1 hm ▸ he⟩

/-- Two parts that use only one font do so together. -/
theorem andThen {first : Outcome} {next : StreamState → Outcome} (hf : first.UsesOnly font)
    (hn : first.state.stack.UsesOnly font → (next first.state).UsesOnly font) :
    (first.andThen next).UsesOnly font := by
  cases he : first.error with
  | some error => rwa [andThen_of_error he]
  | none =>
    have hnext := hn hf.stack
    rw [andThen_of_success he]
    exact ⟨hnext.stack, List.forall_mem_append.2 ⟨hf.events, hnext.events⟩, hnext.error⟩

end Outcome.UsesOnly

namespace StreamState

variable {font : Font} {state : StreamState} (h : state.stack.UsesOnly font)
include h

/-- The current graphics state may be changed as long as no other font is set. -/
theorem modifyGraphics_usesOnly {change : GraphicsState → GraphicsState}
    (hc : (change state.graphics).UsesOnly font) :
    (state.modifyGraphics change).stack.UsesOnly font :=
  h.modifyTop hc

variable (mnemonic : String)

/-- Moving the text position has nothing to do with fonts. -/
theorem withPosition_usesOnly (change : TextPosition → TextPosition) :
    (state.withPosition mnemonic change).UsesOnly font := by
  unfold withPosition
  cases state.position with
  | none => exact .failed h (by rintro _ ⟨⟩)
  | some position => exact .done h

/-- A string is shown in the font that is set, and without one it is not shown. -/
theorem showText_usesOnly (bytes : List UInt8) :
    (state.showText mnemonic bytes).UsesOnly font := by
  unfold showText
  have htop : state.graphics.font = none ∨ state.graphics.font = some font := h.top
  rcases htop with hf | hf
  · rw [hf]
    refine .failed h fun name hname => ?_
    cases hname
    rfl
  · rw [hf]
    cases state.position with
    | none => exact .failed h (by rintro _ ⟨⟩)
    | some position => exact ⟨h, List.forall_mem_singleton.2 ⟨hf, bytes, rfl⟩, nofun⟩

/-- An element of a text array is shown in the font that is set. -/
theorem showElement_usesOnly (element : Object) :
    (state.showElement mnemonic element).UsesOnly font := by
  unfold showElement
  split
  · exact showText_usesOnly h mnemonic _
  · split
    · exact withPosition_usesOnly h mnemonic _
    · exact .failed h (by rintro _ ⟨⟩)

/-- A text array is shown in the font that is set. -/
theorem showElements_usesOnly (elements : List Object) :
    (showElements mnemonic elements state).UsesOnly font := by
  induction elements generalizing state with
  | nil => exact .done h
  | cons element elements ih =>
    exact (showElement_usesOnly h mnemonic element).andThen ih

/-- A string on the next line is shown in the font that is set. -/
theorem nextLine_showText_usesOnly (bytes : List UInt8) :
    ((state.nextLine mnemonic).andThen fun next => next.showText mnemonic bytes).UsesOnly font :=
  (withPosition_usesOnly h mnemonic _).andThen fun hnext => showText_usesOnly hnext mnemonic bytes

end StreamState

/-! ## Resources with one font -/

/-- The only font of the resources is the given one, and nothing else in them brings fonts. -/
structure ResourceTable.OffersOnly (font : Font) (resources : Resources) : Prop where
  /-- Every name of a font stands for it. -/
  fonts : ∀ name found, resources.font? name = some found → found = font
  /-- There are no parameter sets. -/
  parameters : ∀ name, resources.parameters? name = none
  /-- There are no external objects. -/
  xobjects : ∀ name, resources.xobject? name = none

namespace Setup

variable {setup : Setup} {forms : FormRunner} {state : StreamState} {font : Font}

/-- An instruction uses only the font of the resources, if it selects no font that is missing. -/
theorem execute_usesOnly (hr : state.activeResources.OffersOnly font)
    (h : state.stack.UsesOnly font) (mnemonic : String) {instruction : Instruction}
    (hfound : ∀ name size, instruction = .setFont name size →
      state.activeResources.font? name ≠ none) :
    (setup.execute forms mnemonic state instruction).UsesOnly font := by
  cases instruction with
  | saveState => exact .done h.push
  | restoreState =>
    rw [execute]
    cases hp : state.stack.pop with
    | ok stack => exact .done (h.pop hp)
    | error error =>
      rw [(GraphicsStack.pop_eq_error_iff.1 hp).2]
      exact .failed h (by rintro _ ⟨⟩)
  | setParameters name =>
    rw [execute, StreamState.setParameters, hr.parameters name]
    exact .failed h (Error.lacksNoName_of_category (by decide) name)
  | setFont name size =>
    obtain ⟨found, hname⟩ := Option.ne_none_iff_exists'.1 (hfound name size rfl)
    rw [execute, StreamState.setFont, hname]
    exact .done (StreamState.modifyGraphics_usesOnly h
      (Or.inr (congrArg some (hr.fonts name found hname))))
  | concatMatrix | setCharSpacing | setWordSpacing | setHorizontalScaling | setLeading
  | setRenderMode | setRise => exact .done (StreamState.modifyGraphics_usesOnly h h.top)
  | beginText =>
    rw [execute]
    cases state.position with
    | some position => exact .failed h (by rintro _ ⟨⟩)
    | none => exact .done h
  | moveText x y => exact StreamState.withPosition_usesOnly h mnemonic _
  | moveTextSetLeading x y =>
    exact StreamState.withPosition_usesOnly (StreamState.modifyGraphics_usesOnly h h.top)
      mnemonic _
  | nextLine => exact StreamState.withPosition_usesOnly h mnemonic _
  | showText bytes => exact StreamState.showText_usesOnly h mnemonic bytes
  | showTextArray elements => exact StreamState.showElements_usesOnly h mnemonic elements
  | nextLineShowText bytes => exact StreamState.nextLine_showText_usesOnly h mnemonic bytes
  | nextLineShowTextSpaced word char bytes =>
    exact StreamState.nextLine_showText_usesOnly (StreamState.modifyGraphics_usesOnly h h.top)
      mnemonic bytes
  | invokeXObject name =>
    rw [execute, invokeXObject, hr.xobjects name]
    exact .failed h (Error.lacksNoName_of_category (by decide) name)
  | endText | setTextMatrix | beginMarkedContent | beginMarkedContentWithProperties
  | endMarkedContent => exact .done h

end Setup

namespace CommandLine

/-- The resources have a font for every name that one of the operations selects a font by. -/
def Covers (resources : Resources) (operations : List Operation) : Prop :=
  ∀ operation ∈ operations, ∀ name, selectedFont? operation = some name →
    resources.font? name ≠ none

/-- An operation that is read as selecting a font is one that the font is collected from. -/
theorem selectedFont?_of_read {operation : Operation} {operator : Operator} {name : String}
    {size : Float32} (hl : Registry.standard.lookup? operation.operator = some operator)
    (hi : Instruction.read operation.operator operator operation.operands =
      .ok (.setFont name size)) : selectedFont? operation = some name := by
  obtain rfl : Operator.setFont = operator := Instruction.operator_of_read hi
  have hmnemonic : operation.operator = "Tf" := Registry.eq_mnemonic_of_lookup? hl
  obtain ⟨x, y, a, b, hoperands, hname, -, hmade⟩ := Instruction.of_twoOperands hi
  cases hmade
  rw [selectedFont?, if_pos hmnemonic, hoperands, Instruction.eq_of_name hname]
  rfl

end CommandLine

namespace Setup

variable {setup : Setup} {forms : FormRunner} {state : StreamState} {font : Font}

/-- An operation uses only the font of the resources, if it selects no font that is missing. -/
theorem step_usesOnly (hreg : setup.registry = .standard)
    (hr : state.activeResources.OffersOnly font) (h : state.stack.UsesOnly font)
    {operation : Operation}
    (hfound : ∀ name, CommandLine.selectedFont? operation = some name →
      state.activeResources.font? name ≠ none) :
    (setup.step forms state operation).UsesOnly font := by
  rcases step_cases setup forms state operation with
    ⟨-, hs⟩ | ⟨operator, hl, ⟨-, -, hs⟩ | ⟨-, ⟨error, hi, hs⟩ | ⟨instruction, hi, hs⟩⟩⟩
  · rw [hs]
    exact .done h
  · rw [hs]
    exact .failed h (by rintro _ ⟨⟩)
  · obtain ⟨reason, rfl⟩ := Instruction.complains_read operator operation.operands error hi
    rw [hs]
    exact .failed h (by rintro _ ⟨⟩)
  · rw [hs]
    refine execute_usesOnly hr h operation.operator fun name size hselects => hfound name ?_
    rw [hreg] at hl
    rw [hselects] at hi
    exact CommandLine.selectedFont?_of_read hl hi

/-- Operations use only the font of the resources, if none of them selects a font that is
missing. The resources stay what they are, so it is enough to look at them before the first
operation. -/
theorem runFrom_usesOnly (hreg : setup.registry = .standard) {operations : List Operation}
    (count : Nat) (hr : state.activeResources.OffersOnly font) (h : state.stack.UsesOnly font)
    (hc : CommandLine.Covers state.activeResources operations) :
    (setup.runFrom forms count state operations).UsesOnly font := by
  induction operations generalizing count state with
  | nil => exact .done h
  | cons operation operations ih =>
    obtain ⟨hfirst, hothers⟩ := List.forall_mem_cons.1 hc
    rw [runFrom]
    cases he : setup.exceeds? count with
    | some error => exact .failed h (Error.lacksNoName_of_isLimit (isLimit_of_exceeds? he))
    | none =>
      have hsame := @step_activeResources setup forms state operation
      refine (step_usesOnly hreg hr h hfirst).andThen fun hnext => ih (count + 1) ?_ hnext ?_
      · rwa [hsame]
      · rwa [hsame]

end Setup

/-! ## The run of the command line -/

namespace CommandLine

/-- The stand-in is found by exactly the names that operations select a font by. -/
theorem font?_standInResources (operations : List Operation) (name : String) :
    (standInResources operations).font? name =
      if name ∈ operations.filterMap selectedFont? then some standIn else none := by
  rw [ResourceTable.font?, standInResources]
  induction operations.filterMap selectedFont? with
  | nil => rfl
  | cons selected names ih =>
    rw [List.map_cons, List.lookup_cons, ih]
    by_cases hn : name = selected
    · rw [hn, beq_self_eq_true, if_pos List.mem_cons_self]
    · rw [beq_false_of_ne hn]
      simp only [List.mem_cons, hn, false_or]

/-- The stand-in is found by every name that was collected. -/
theorem font?_of_selected {operations : List Operation} {operation : Operation} {name : String}
    (hm : operation ∈ operations) (hname : selectedFont? operation = some name) :
    (standInResources operations).font? name = some standIn := by
  rw [font?_standInResources, if_pos (List.mem_filterMap.2 ⟨operation, hm, hname⟩)]

/-- There is no font but the stand-in, and nothing that could bring one. -/
theorem standInResources_offersOnly (operations : List Operation) :
    (standInResources operations).OffersOnly standIn where
  fonts name found hfound := by
    rw [font?_standInResources] at hfound
    split at hfound
    · exact (Option.some.inj hfound).symm
    · cases hfound
  parameters _ := rfl
  xobjects _ := rfl

/-- No operation that the names were collected from selects a font that is missing. -/
theorem standInResources_covers (operations : List Operation) :
    Covers (standInResources operations) operations := by
  intro operation hm name hname
  rw [font?_of_selected hm hname]
  exact Option.some_ne_none standIn

/-- Whatever the limits are, operations run with the resources that were made for them use only
the stand-in. -/
theorem run_usesOnly (limits : Limits) (operations : List Operation) :
    ((Setup.mk .standard limits).run (.start .initial (standInResources operations))
      operations).UsesOnly standIn :=
  Setup.runFrom_usesOnly rfl 0 (standInResources_offersOnly operations)
    ⟨Or.inl rfl, List.forall_mem_nil _⟩ (standInResources_covers operations)

/-- Whichever listener there is, it comes back unless the run fails. -/
theorem error_of_listen {L : Type} [Listener L] {limits : Limits} {content : List UInt8}
    {listener : L} {error : Error} (h : listen limits content listener = .error error) :
    ((Setup.mk .standard limits).run
      (.start .initial (standInResources (Operation.readAll content)))
        (Operation.readAll content)).error = some error := by
  unfold listen at h
  dsimp only at h
  split at h
  · rename_i hrun
    cases h
    exact congrArg Prod.snd hrun
  · cases h

/-- There are no lines only where the run fails, whatever is to be written. -/
theorem error_of_lines {request : Request} {content : List UInt8} {error : Error}
    (h : lines request content = .error error) :
    ((Setup.mk .standard request.limits).run
      (.start .initial (standInResources (Operation.readAll content)))
        (Operation.readAll content)).error = some error := by
  have hmap {L : Type} [Listener L] (listener : L) (write : L → List String)
      (h : (listen request.limits content listener).map write = .error error) :
      listen request.limits content listener = .error error := by
    cases hl : listen request.limits content listener with
    | error found =>
      rw [hl] at h
      cases h
      rfl
    | ok listener =>
      rw [hl] at h
      cases h
  unfold lines at h
  split at h
  · exact error_of_listen (hmap _ _ h)
  · split at h
    · exact error_of_listen (hmap _ _ h)
    · exact error_of_listen (hmap _ _ h)

/-- One font is enough: every name that a font is selected by, anywhere in the content and
whatever the content is, stands for it; a run does not fail for want of a font, unless it shows
text while no font is set; all text of the run is shown in this font; and what is written makes
no difference to this. -/
theorem standIn_suffices (request : Request) (content : List UInt8) :
    let operations := Operation.readAll content
    let resources := standInResources operations
    let processed := (Processor.create ⟨.standard, request.limits⟩ .initial
      Collector.empty).process content resources
    (∀ name operands, ⟨"Tf", .name name :: operands⟩ ∈ operations →
      resources.font? name = some standIn) ∧
    (∀ name, processed.2 = some (.missingResource "Font" name) → name = "<unset>") ∧
    (∀ event ∈ processed.1.listener.events, event.ShownIn standIn) ∧
    ∀ name, lines request content = .error (.missingResource "Font" name) → name = "<unset>" := by
  intro operations resources processed
  have huses := run_usesOnly request.limits operations
  have hprocessed := (Processor.create ⟨.standard, request.limits⟩ .initial
    Collector.empty).process_eq content resources rfl
  change processed = _ at hprocessed
  refine ⟨fun name operands hm => ?_, fun name he => ?_, ?_, fun name he => ?_⟩
  · exact font?_of_selected hm rfl
  · rw [hprocessed] at he
    exact huses.error _ he name rfl
  · rw [hprocessed]
    exact huses.events
  · exact huses.error _ (error_of_lines he) name rfl

/-- Content that shows a letter in a font, and another one after the font was taken back. -/
def restoredContent : List UInt8 :=
  Byte.ofAscii "q BT /F 1 Tf (A) Tj ET Q BT (B) Tj "

/-- The operations of that content. -/
def restoredOperations : List Operation :=
  [⟨"q", []⟩, ⟨"BT", []⟩, ⟨"Tf", [.name "F", .int 1]⟩, ⟨"Tj", [.str [0x41]]⟩, ⟨"ET", []⟩,
    ⟨"Q", []⟩, ⟨"BT", []⟩, ⟨"Tj", [.str [0x42]]⟩]

/-- The operations are read from the content. -/
theorem readAll_restoredContent : Operation.readAll restoredContent = restoredOperations := by
  have hblank : Token.Gap [0x20] := .blank (by decide)
  have hname : (Lexeme.name "F").Spells (Byte.ofAscii "/F") :=
    .name (.cons (.plain (by decide)) .nil)
  have hone : (Lexeme.int 1).Spells (Byte.ofAscii "1") := @Lexeme.spells_digit 0x31 (by decide)
  have hwritten : Operation.Written restoredOperations restoredContent :=
    .cons (.operator "q") hblank <| .cons (.operator "BT") hblank <| .cons hname hblank <|
      .cons hone hblank <| .cons (.operator "Tf") hblank <| .cons (.literal [0x41]) hblank <|
      .cons (.operator "Tj") hblank <| .cons (.operator "ET") hblank <|
      .cons (.operator "Q") hblank <| .cons (.operator "BT") hblank <|
      .cons (.literal [0x42]) hblank <| .cons (.operator "Tj") hblank .nil
  have hwritable : ∀ operation ∈ restoredOperations, operation.Writable := by
    simp only [restoredOperations, List.forall_mem_cons, List.not_mem_nil, false_imp_iff,
      implies_true, and_true]
    exact ⟨Operation.writable_bare .saveState, Operation.writable_bare .beginText,
      Operation.writable_setFont "F" (by decide), Operation.writable_showText [0x41],
      Operation.writable_bare .endText, Operation.writable_bare .restoreState,
      Operation.writable_bare .beginText, Operation.writable_showText [0x42]⟩
  exact Operation.readAll_of_written hwritable hwritten

/-- The font that was taken back is found and its letter is shown in it; the run fails only
because no font is set any more. -/
theorem standIn_suffices_restored :
    let resources := standInResources (Operation.readAll restoredContent)
    let processed := (Processor.create ⟨.standard, .default⟩ .initial
      Collector.empty).process restoredContent resources
    resources.font? "F" = some standIn ∧
      processed.2 = some (.missingResource "Font" "<unset>") ∧
      (∃ event, processed.1.listener.events = [event] ∧ event.ShownIn standIn) ∧
      lines .default restoredContent = .error (.missingResource "Font" "<unset>") := by
  intro resources processed
  obtain ⟨hfound, -, hevents, -⟩ := standIn_suffices .default restoredContent
  have hselects : ⟨"Tf", .name "F" :: [.int 1]⟩ ∈ Operation.readAll restoredContent := by
    rw [readAll_restoredContent]
    exact List.mem_cons_of_mem _ (List.mem_cons_of_mem _ List.mem_cons_self)
  have hone : processed.1.listener.events.length = 1 := by
    simp only [processed, resources, Processor.process, readAll_restoredContent]
    rfl
  obtain ⟨event, hevent⟩ := List.length_eq_one_iff.1 hone
  refine ⟨hfound "F" [.int 1] hselects, ?_, ⟨event, hevent, hevents event ?_⟩, ?_⟩
  · simp only [processed, resources, Processor.process, readAll_restoredContent]
    rfl
  · exact hevent ▸ List.mem_singleton_self event
  · simp only [lines, listen, readAll_restoredContent]
    rfl

end CommandLine

end PageText
