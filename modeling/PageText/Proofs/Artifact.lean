import PageText.Proofs.History
import PageText.Proofs.MarkedContent
import PageText.Proofs.Progress
import PageText.Proofs.TextObject

/-!
# Artifacts

Every event has a path: the operations before it in its own stream, and those before the
invocation in each stream around it. The sequences that the event lies in are told by the
brackets on the path, as if the streams were one. So what is shown between the opening of an
artifact and its closing is an artifact, in forms too, unless a form on the path closes more
than it opens: a form runs with a copy of its caller's sequences, and a closing too many takes
the caller's away from what the form shows afterwards, though not from the caller.
-/

namespace PageText

/-- The events of a whole are those of its first part and, if that succeeds, of the second. -/
theorem Outcome.mem_events_andThen {first : Outcome} {next : StreamState → Outcome}
    {event : Event} :
    event ∈ (first.andThen next).events ↔
      event ∈ first.events ∨ first.error = none ∧ event ∈ (next first.state).events := by
  cases he : first.error with
  | some error => simp only [andThen_of_error he, reduceCtorEq, false_and, or_false]
  | none => simp only [andThen_of_success he, List.mem_append, true_and]

/-- What shows nothing adds no events. -/
theorem Outcome.events_andThen_of_silent {first : Outcome} {next : StreamState → Outcome}
    (h : ∀ state, (next state).events = []) : (first.andThen next).events = first.events := by
  cases he : first.error with
  | some error => rw [andThen_of_error he]
  | none => rw [andThen_of_success he, h, List.append_nil]

/-- Sequences around a string make it an artifact if one of them is tagged as one. -/
theorem MarkedContext.inArtifact_ofSequences_iff {sequences : List MarkedSequence} :
    (ofSequences sequences).inArtifact = true ↔
      ∃ sequence ∈ sequences, sequence.tag = MarkedSequence.artifactTag := by
  simp only [ofSequences, List.any_eq_true, beq_iff_eq]

/-- The operation opens an artifact. -/
def Operation.OpensArtifact (operation : Operation) : Prop :=
  operation.operator = "BMC" ∧ operation.operands = [.name "Artifact"] ∨
    operation.operator = "BDC" ∧ ∃ properties, operation.operands = [.name "Artifact", properties]

namespace Setup

/-- A run gets as far as the operation after the given ones: these succeed, and one more is
allowed. -/
structure Reaches (setup : Setup) (forms : FormRunner) (count : Nat) (state : StreamState)
    (before : List Operation) : Prop where
  /-- The operations before it succeed. -/
  reached : (setup.runFrom forms count state before).error = none
  /-- One more operation is allowed. -/
  allowed : setup.exceeds? (count + before.length) = none

/-- An event is delivered on a path: the streams that it lies in, the outermost one first, each
with the state that it starts in and the operations that it runs before. -/
inductive Delivered (setup : Setup) : Nat → Nat → StreamState → List Operation →
    List (StreamState × List Operation) → Event → Prop where
  /-- An operation that enters no form delivers it. -/
  | own {levels count : Nat} {state : StreamState} {before after : List Operation}
      {operation : Operation} {event : Event}
      (hr : Reaches setup (setup.formsAt levels) count state before)
      (hn : setup.enteredForm? levels
        (setup.runFrom (setup.formsAt levels) count state before).state operation = none)
      (he : event ∈ (setup.step (setup.formsAt levels)
        (setup.runFrom (setup.formsAt levels) count state before).state operation).events) :
      Delivered setup levels count state (before ++ operation :: after) [(state, before)] event
  /-- The form that an operation enters delivers it. -/
  | form {levels count : Nat} {state inner : StreamState}
      {earlier after operations : List Operation} {invocation : Operation}
      {path : List (StreamState × List Operation)} {event : Event}
      (hr : Reaches setup (setup.formsAt (levels + 1)) count state earlier)
      (hf : setup.enteredForm? (levels + 1)
        (setup.runFrom (setup.formsAt (levels + 1)) count state earlier).state invocation =
          some (inner, operations))
      (hi : Delivered setup levels 0 inner operations path event) :
      Delivered setup (levels + 1) count state (earlier ++ invocation :: after)
        ((state, earlier) :: path) event

/-- The brackets on a path. -/
def pathBrackets (setup : Setup) (path : List (StreamState × List Operation)) :
    List MarkedBracket :=
  path.flatMap fun stream => setup.brackets stream.1 stream.2

variable {setup : Setup} {forms : FormRunner} {levels count : Nat} {state : StreamState}
  {operations : List Operation} {operation : Operation} {event : Event}

/-- The run after an operation that succeeds gets as far as the whole does. -/
theorem Reaches.cons {before : List Operation} (he : setup.exceeds? count = none)
    (hs : (setup.step forms state operation).error = none)
    (h : Reaches setup forms (count + 1) (setup.step forms state operation).state before) :
    Reaches setup forms count state (operation :: before) ∧
      (setup.runFrom forms count state (operation :: before)).state =
        (setup.runFrom forms (count + 1)
          (setup.step forms state operation).state before).state := by
  have hcount : count + (operation :: before).length = count + 1 + before.length := by
    rw [List.length_cons]
    omega
  have hrun : setup.runFrom forms count state (operation :: before) =
      (setup.step forms state operation).andThen fun state =>
        setup.runFrom forms (count + 1) state before :=
    runFrom_cons_of_allowed he state operation before
  rw [Outcome.andThen_of_success hs] at hrun
  refine ⟨⟨?_, ?_⟩, ?_⟩
  · rw [hrun]
    exact h.reached
  · rw [hcount]
    exact h.allowed
  · rw [hrun]

/-- The events of a run are those of the operations that it reaches. -/
theorem mem_events_runFrom_iff :
    event ∈ (setup.runFrom forms count state operations).events ↔
      ∃ before operation after, operations = before ++ operation :: after ∧
        Reaches setup forms count state before ∧
        event ∈ (setup.step forms (setup.runFrom forms count state before).state
          operation).events := by
  constructor
  · intro hm
    induction operations generalizing state count with
    | nil => cases hm
    | cons operation operations ih =>
      cases hallowed : setup.exceeds? count with
      | some error =>
        rw [runFrom, hallowed] at hm
        cases hm
      | none =>
        rw [runFrom_cons_of_allowed hallowed, Outcome.mem_events_andThen] at hm
        rcases hm with hfirst | ⟨hs, hrest⟩
        · exact ⟨[], operation, operations, rfl, ⟨rfl, hallowed⟩, hfirst⟩
        · obtain ⟨before, found, after, rfl, hreaches, hfound⟩ := ih hrest
          obtain ⟨hcons, hstate⟩ := hreaches.cons hallowed hs
          exact ⟨operation :: before, found, after, rfl, hcons, hstate ▸ hfound⟩
  · rintro ⟨before, operation, after, rfl, hreaches, hm⟩
    rw [runFrom_append, Outcome.mem_events_andThen, runFrom_cons_of_allowed hreaches.allowed,
      Outcome.mem_events_andThen]
    exact Or.inr ⟨hreaches.reached, Or.inl hm⟩

/-- Where no stream of a path closes more than it opens, the path does not either. -/
theorem covered_pathBrackets {path : List (StreamState × List Operation)}
    (h : ∀ stream ∈ path, MarkedBracket.Covered (setup.brackets stream.1 stream.2)) :
    MarkedBracket.Covered (setup.pathBrackets path) := by
  induction path with
  | nil => exact MarkedBracket.covered_iff.2 rfl
  | cons stream path ih =>
    obtain ⟨hstream, hpath⟩ := List.forall_mem_cons.1 h
    exact hstream.append (ih hpath)

section Standard

variable (hr : setup.registry = .standard)
include hr

/-- An operation that enters a form delivers the events of the form, and leaves the state as it
was. -/
theorem step_of_enteredForm? {inner : StreamState} {state : StreamState}
    (he : setup.enteredForm? (levels + 1) state operation = some (inner, operations)) :
    setup.step (setup.formsAt (levels + 1)) state operation =
      { setup.runFrom (setup.formsAt levels) 0 inner operations with state := state } := by
  obtain ⟨_, _, _, _, _, -, rfl, hx, hp, rfl, rfl⟩ := of_enteredForm? he
  exact step_form hr hp hx levels

/-- Every event of a run is delivered on some path, and only those are. The levels that forms
may nest carry the induction. -/
theorem mem_events_iff_delivered :
    event ∈ (setup.runFrom (setup.formsAt levels) count state operations).events ↔
      ∃ path, Delivered setup levels count state operations path event := by
  constructor
  · intro hm
    induction levels generalizing count state operations with
    | zero =>
      obtain ⟨before, operation, after, rfl, hreaches, hstep⟩ := mem_events_runFrom_iff.1 hm
      exact ⟨_, .own hreaches rfl hstep⟩
    | succ levels ih =>
      obtain ⟨before, operation, after, rfl, hreaches, hstep⟩ := mem_events_runFrom_iff.1 hm
      cases hn : setup.enteredForm? (levels + 1)
          (setup.runFrom (setup.formsAt (levels + 1)) count state before).state operation with
      | none => exact ⟨_, .own hreaches hn hstep⟩
      | some entered =>
        rw [step_of_enteredForm? hr hn] at hstep
        obtain ⟨path, hpath⟩ := ih hstep
        exact ⟨_, .form hreaches hn hpath⟩
  · rintro ⟨path, hpath⟩
    induction hpath with
    | own hreaches hn hstep => exact mem_events_runFrom_iff.2 ⟨_, _, _, rfl, hreaches, hstep⟩
    | form hreaches hn _ ih =>
      refine mem_events_runFrom_iff.2 ⟨_, _, _, rfl, hreaches, ?_⟩
      rw [step_of_enteredForm? hr hn]
      exact ih

omit hr in
/-- Invoking what is not a form, or may not be entered, shows nothing. -/
theorem invokeXObject_events {name : String}
    (hn : setup.enteredForm? levels state ⟨"Do", [.name name]⟩ = none) :
    (setup.invokeXObject (setup.formsAt levels) state name).events = [] := by
  unfold invokeXObject
  cases hx : state.activeResources.xobject? name with
  | none => rfl
  | some xobject =>
    cases xobject with
    | other subtype => rfl
    | form content matrix own =>
      dsimp only
      split
      · rename_i hp
        cases levels with
        | zero => rfl
        | succ lower => simp only [enteredForm?, hx, hp, if_true, reduceCtorEq] at hn
      · rfl

/-- What an operation shows by itself lies in the sequences open before it. -/
theorem step_events_marked (hn : setup.enteredForm? levels state operation = none)
    (hm : event ∈ (setup.step (setup.formsAt levels) state operation).events) :
    event.marked = state.markedContext := by
  rcases step_cases setup (setup.formsAt levels) state operation with
    ⟨_, hs⟩ | ⟨operator, hl, ⟨_, _, hs⟩ | ⟨_, ⟨_, _, hs⟩ | ⟨instruction, hi, hs⟩⟩⟩
  · rw [hs] at hm
    cases hm
  · rw [hs] at hm
    cases hm
  · rw [hs] at hm
    cases hm
  · rw [hs] at hm
    refine (execute_marked operation.operator state instruction).2 ?_ event hm
    rintro name rfl
    -- An invocation that enters no form has no events.
    have hop : Operator.invokeXObject = operator := Instruction.operator_of_read hi
    subst hop
    rw [hr] at hl
    obtain ⟨mnemonic, operands⟩ := operation
    cases Registry.eq_mnemonic_of_lookup? hl
    obtain ⟨_, hone, hmade⟩ := Instruction.of_oneName hi
    cases hmade
    cases hone
    rw [execute, invokeXObject_events hn] at hm
    cases hm

/-- An event lies in the sequences that the brackets on its path leave open. -/
theorem Delivered.marked {path : List (StreamState × List Operation)}
    (h : Delivered setup levels count state operations path event) :
    event.marked = .ofSequences
      (MarkedBracket.applyAll state.marked (setup.pathBrackets path)) := by
  induction h with
  | own hreaches hn hm =>
    rw [step_events_marked hr hn hm, StreamState.markedContext, runFrom_marked hreaches.reached,
      pathBrackets, List.flatMap_singleton]
  | form hreaches hf _ ih =>
    obtain ⟨_, _, _, _, _, -, -, -, -, rfl, -⟩ := of_enteredForm? hf
    rw [ih, pathBrackets, pathBrackets, List.flatMap_cons, MarkedBracket.applyAll_append,
      ← runFrom_marked hreaches.reached]
    rfl

/-- An event is an artifact exactly if an artifact is opened on its path and not closed again,
or was open before and is not reached by the excess of the path. -/
theorem Delivered.isArtifact_iff {path : List (StreamState × List Operation)}
    (h : Delivered setup levels count state operations path event) :
    event.isArtifact = true ↔
      (∃ before sequence after, setup.pathBrackets path = before ++ .opening sequence :: after ∧
        sequence.tag = MarkedSequence.artifactTag ∧ MarkedBracket.Covered after) ∨
      ∃ sequence ∈ state.marked.drop (MarkedBracket.excess (setup.pathBrackets path)),
        sequence.tag = MarkedSequence.artifactTag := by
  rw [Event.isArtifact, h.marked hr, MarkedContext.inArtifact_ofSequences_iff,
    MarkedBracket.applyAll_eq]
  simp only [List.mem_append, MarkedBracket.mem_unclosed_iff, or_and_right, exists_or]
  refine or_congr_left ⟨?_, ?_⟩
  · rintro ⟨sequence, ⟨before, after, hsplit, hcovered⟩, htag⟩
    exact ⟨before, sequence, after, hsplit, htag, hcovered⟩
  · rintro ⟨before, sequence, after, hsplit, htag, hcovered⟩
    exact ⟨sequence, ⟨before, after, hsplit, hcovered⟩, htag⟩

/-- Opening an artifact is a bracket. -/
theorem exists_bracket?_of_opensArtifact (ho : operation.OpensArtifact) (state : StreamState) :
    ∃ sequence, setup.bracket? state operation = some (.opening sequence) ∧
      sequence.tag = MarkedSequence.artifactTag := by
  obtain ⟨mnemonic, operands⟩ := operation
  rcases ho with ⟨hm, ho⟩ | ⟨hm, properties, ho⟩
  · cases hm
    cases ho
    refine ⟨⟨"Artifact", none⟩, ?_, rfl⟩
    rw [bracket?, hr]
    rfl
  · cases hm
    cases ho
    refine ⟨⟨"Artifact", state.mcid? properties⟩, ?_, rfl⟩
    rw [bracket?, hr]
    rfl

/-- After the opening of an artifact events are artifacts as long as the stream does not close
it again, and no form on their path closes more than it opens. -/
theorem Delivered.isArtifact_of_covered
    {outer inner : List (StreamState × List Operation)} {stream : StreamState}
    {before between : List Operation} {opening : Operation}
    (h : Delivered setup levels count state operations
      (outer ++ (stream, before ++ opening :: between) :: inner) event)
    (ho : opening.OpensArtifact) (hb : MarkedBracket.Covered (setup.brackets stream between))
    (hi : ∀ form ∈ inner, MarkedBracket.Covered (setup.brackets form.1 form.2)) :
    event.isArtifact = true := by
  obtain ⟨sequence, hbracket, htag⟩ := exists_bracket?_of_opensArtifact hr ho stream
  refine (h.isArtifact_iff hr).2 (Or.inl ⟨setup.pathBrackets outer ++ setup.brackets stream before,
    sequence, setup.brackets stream between ++ setup.pathBrackets inner, ?_, htag,
    hb.append (covered_pathBrackets hi)⟩)
  simp only [pathBrackets, brackets, List.flatMap_append, List.flatMap_cons,
    List.filterMap_append, List.filterMap_cons_some hbracket, List.append_assoc,
    List.cons_append]

end Standard

end Setup

/-- Artifacts make no difference to an extractor. -/
theorem Extract.MarkedText.receiveAll_filter_not_artifact (extractor : MarkedText)
    (events : List Event) :
    Listener.receiveAll extractor events =
      Listener.receiveAll extractor (events.filter fun event => !event.isArtifact) := by
  have hdropped (extractor : MarkedText) (event : Event) (ha : ¬(!event.isArtifact) = true) :
      Listener.receive extractor event = extractor := by
    have hkeeps : ¬keeps extractor.options event = true := fun hkept =>
      ha (Bool.and_eq_true_iff.1 hkept).1
    exact if_neg hkeeps
  have hfilter := Listener.receiveAll_filter (fun _ _ _ => Iff.rfl) hdropped extractor events
  simp only [Bool.decide_eq_true] at hfilter
  exact hfilter.symm

namespace Setup

variable {setup : Setup} {levels count : Nat} {state : StreamState} {operations : List Operation}

/-- What makes an event an artifact. Every event of a run has a path. On a path from where
nothing is open, the event is an artifact exactly if an artifact is opened on the path and what
follows the opening, forms and all, nowhere closes more than it opens. In particular it is one
between the opening of an artifact and its closing in the same stream, in forms too, if no form
on the path closes more than it opens. A form never closes the sequences that its caller goes
on with, and a closing with nothing to close is passed over. Artifacts make no difference to
the words, sections and text of an extractor. -/
theorem runFrom_artifacts (hr : setup.registry = .standard) :
    (∀ event, event ∈ (setup.runFrom (setup.formsAt levels) count state operations).events ↔
      ∃ path, Delivered setup levels count state operations path event) ∧
    (∀ path event, Delivered setup levels count state operations path event →
      state.marked = [] →
      (event.isArtifact = true ↔ ∃ before sequence after,
        setup.pathBrackets path = before ++ .opening sequence :: after ∧
          sequence.tag = MarkedSequence.artifactTag ∧ MarkedBracket.Covered after)) ∧
    (∀ outer stream before opening between inner event,
      Delivered setup levels count state operations
        (outer ++ (stream, before ++ opening :: between) :: inner) event →
      opening.OpensArtifact → MarkedBracket.Covered (setup.brackets stream between) →
      (∀ form ∈ inner, MarkedBracket.Covered (setup.brackets form.1 form.2)) →
      event.isArtifact = true) ∧
    (∀ caller invocation entered,
      setup.enteredForm? (levels + 1) caller invocation = some entered →
      (setup.step (setup.formsAt (levels + 1)) caller invocation).state = caller) ∧
    (state.marked = [] → setup.step (setup.formsAt levels) state ⟨"EMC", []⟩ = .done state) ∧
    ∀ (extractor : Extract.MarkedText) (events : List Event),
      Listener.receiveAll extractor events =
        Listener.receiveAll extractor (events.filter fun event => !event.isArtifact) := by
  refine ⟨fun _ => mem_events_iff_delivered hr, fun path event h hnone => ?_,
    fun _ _ _ _ _ _ _ h ho hb hi => h.isArtifact_of_covered hr ho hb hi,
    fun caller invocation entered hf => ?_, fun hnone => ?_,
    Extract.MarkedText.receiveAll_filter_not_artifact⟩
  · rw [h.isArtifact_iff hr, hnone, List.drop_nil]
    simp only [List.not_mem_nil, false_and, exists_false, or_false]
  · rw [step_of_enteredForm? hr hf]
  · have hread : Instruction.read "EMC" .endMarkedContent [] = .ok .endMarkedContent := rfl
    have hstep : setup.step (setup.formsAt levels) state ⟨"EMC", []⟩ =
        setup.execute (setup.formsAt levels) "EMC" state .endMarkedContent :=
      step_standard hr .endMarkedContent nofun hread
    rw [hstep, execute, hnone]
    exact congrArg Outcome.done (congrArg (StreamState.mk _ _ _) hnone.symm)

/-- A page that invokes a form inside of an artifact. -/
def artifactPage : List Operation :=
  [⟨"BMC", [.name "Artifact"]⟩, ⟨"Do", [.name "X"]⟩, ⟨"EMC", []⟩]

/-- The state of such a page when it invokes the form. -/
def inArtifact (caller : StreamState) : StreamState :=
  { caller with marked := ⟨"Artifact", none⟩ :: caller.marked }

section ArtifactPage

variable {caller : StreamState} {content : List UInt8}
  (hx : caller.activeResources.xobject? "X" = some (.form content .identity none))
include hx

/-- What the form delivers, the page does. -/
theorem delivered_artifactPage {before : List Operation} {event : Event}
    (h : Delivered standard 7 0 ((inArtifact caller).enterForm .identity none)
      (Operation.readAll content) [((inArtifact caller).enterForm .identity none, before)]
      event) :
    Delivered standard 8 0 caller artifactPage
      [(caller, [⟨"BMC", [.name "Artifact"]⟩]),
        ((inArtifact caller).enterForm .identity none, before)] event := by
  have hf : standard.enteredForm? 8 (inArtifact caller) ⟨"Do", [.name "X"]⟩ =
      some ((inArtifact caller).enterForm .identity none, Operation.readAll content) := by
    have hinside : (inArtifact caller).activeResources.xobject? "X" =
        some (.form content .identity none) := hx
    simp only [enteredForm?, hinside]
    rfl
  exact @Delivered.form standard 7 0 caller _ [⟨"BMC", [.name "Artifact"]⟩] [⟨"EMC", []⟩] _
    ⟨"Do", [.name "X"]⟩ _ event ⟨rfl, rfl⟩ hf h

/-- The page delivers nothing else. -/
theorem runFrom_artifactPage_events :
    (standard.runFrom (standard.formsAt 8) 0 caller artifactPage).events =
      (standard.runFrom (standard.formsAt 7) 0
        ((inArtifact caller).enterForm .identity none) (Operation.readAll content)).events := by
  have hm : standard.limits.maxOperations = none := rfl
  have hopen : standard.step (standard.formsAt 8) caller ⟨"BMC", [.name "Artifact"]⟩ =
      .done (inArtifact caller) := rfl
  have hform := @step_form standard (inArtifact caller) rfl rfl "X" content .identity none hx 7
  have hclose (state : StreamState) :
      (standard.runFrom (standard.formsAt 8) 2 state [⟨"EMC", []⟩]).events = [] := rfl
  rw [artifactPage, runFrom_cons hm, hopen, Outcome.done_andThen, runFrom_cons hm, hform,
    Outcome.events_andThen_of_silent hclose]

end ArtifactPage

/-- The letter that a form shows in an artifact is an artifact. -/
theorem runFrom_artifacts_letter : standard.registry = .standard ∧
    ∃ inner event, Delivered standard 8 0 letterCaller artifactPage
        ([] ++ (letterCaller, [] ++ ⟨"BMC", [.name "Artifact"]⟩ :: []) ::
          [(inner, [⟨"BT", []⟩])]) event ∧
      (⟨"BMC", [.name "Artifact"]⟩ : Operation).OpensArtifact ∧
      MarkedBracket.Covered (standard.brackets letterCaller []) ∧
      MarkedBracket.Covered (standard.brackets inner [⟨"BT", []⟩]) ∧
      event.isArtifact = true := by
  have hr : standard.registry = .standard := rfl
  have hopens : (⟨"BMC", [.name "Artifact"]⟩ : Operation).OpensArtifact := Or.inl ⟨rfl, rfl⟩
  have hnone : MarkedBracket.Covered (standard.brackets letterCaller []) := by decide
  let inner := (inArtifact letterCaller).enterForm .identity none
  have hform : MarkedBracket.Covered (standard.brackets inner [⟨"BT", []⟩]) := by decide
  obtain ⟨event, hevent⟩ : ∃ event, Delivered standard 7 0 inner
      (Operation.readAll Operation.letterBytes) [(inner, [⟨"BT", []⟩])] event := by
    rw [Operation.readAll_letterBytes]
    exact ⟨_, @Delivered.own standard 7 0 inner [⟨"BT", []⟩] [⟨"ET", []⟩] ⟨"Tj", [.str [0x41]]⟩ _
      ⟨rfl, rfl⟩ rfl (List.mem_singleton.2 rfl)⟩
  have hpage := @delivered_artifactPage letterCaller _ rfl _ _ hevent
  have hartifact := (runFrom_artifacts hr).2.2.1 [] letterCaller [] _ [] [(inner, [⟨"BT", []⟩])]
    event hpage hopens hnone (List.forall_mem_singleton.2 hform)
  exact ⟨hr, inner, event, hpage, hopens, hnone, hform, hartifact⟩

/-- A form that closes a sequence too many and then shows a letter. -/
def closingForm : List UInt8 := Byte.ofAscii "EMC BT /F 1 Tf (A) Tj ET "

/-- The operations of that form. -/
def closingOperations : List Operation :=
  [⟨"EMC", []⟩, ⟨"BT", []⟩, ⟨"Tf", [.name "F", .int 1]⟩, ⟨"Tj", [.str [0x41]]⟩, ⟨"ET", []⟩]

/-- A page with that form, at its start. -/
def closingCaller : StreamState :=
  .start .initial ⟨[("F", .simple (.plain "F" .standard))], [],
    [("X", .form closingForm .identity none)], []⟩

/-- The operations of the form are read from its content. -/
theorem readAll_closingForm : Operation.readAll closingForm = closingOperations := by
  have hblank : Token.Gap [0x20] := .blank (by decide)
  have hname : (Lexeme.name "F").Spells (Byte.ofAscii "/F") :=
    .name (.cons (.plain (by decide)) .nil)
  have hone : (Lexeme.int 1).Spells (Byte.ofAscii "1") := @Lexeme.spells_digit 0x31 (by decide)
  have hwritten : Operation.Written closingOperations closingForm :=
    .cons (.operator "EMC") hblank <| .cons (.operator "BT") hblank <| .cons hname hblank <|
      .cons hone hblank <| .cons (.operator "Tf") hblank <| .cons (.literal [0x41]) hblank <|
      .cons (.operator "Tj") hblank <| .cons (.operator "ET") hblank .nil
  have hwritable : ∀ operation ∈ closingOperations, operation.Writable := by
    simp only [closingOperations, List.forall_mem_cons, List.not_mem_nil, false_imp_iff,
      implies_true, and_true]
    exact ⟨Operation.writable_bare .endMarkedContent, Operation.writable_bare .beginText,
      Operation.writable_setFont "F" (by decide), Operation.writable_showText [0x41],
      Operation.writable_bare .endText⟩
  exact Operation.readAll_of_written hwritable hwritten

/-- A form can take the artifact of its caller away: between the opening and the closing of an
artifact it shows a letter that is none, and that becomes a word. -/
theorem runFrom_artifacts_closing :
    ∃ inner event, Delivered standard 8 0 closingCaller artifactPage
        ([] ++ (closingCaller, [] ++ ⟨"BMC", [.name "Artifact"]⟩ :: []) ::
          [(inner, [⟨"EMC", []⟩, ⟨"BT", []⟩, ⟨"Tf", [.name "F", .int 1]⟩])]) event ∧
      (⟨"BMC", [.name "Artifact"]⟩ : Operation).OpensArtifact ∧
      MarkedBracket.Covered (standard.brackets closingCaller []) ∧
      event.isArtifact = false ∧
      (Listener.receiveAll (Extract.MarkedText.empty .default false)
        (standard.runFrom (standard.formsAt 8) 0 closingCaller artifactPage).events).words.map
          Extract.Word.text = ["A"] := by
  let inner := (inArtifact closingCaller).enterForm .identity none
  obtain ⟨event, hevent, hevents, hartifact, hwords⟩ : ∃ event,
      Delivered standard 7 0 inner closingOperations
        [(inner, [⟨"EMC", []⟩, ⟨"BT", []⟩, ⟨"Tf", [.name "F", .int 1]⟩])] event ∧
      (standard.runFrom (standard.formsAt 7) 0 inner closingOperations).events = [event] ∧
      event.isArtifact = false ∧
      (Listener.receiveAll (Extract.MarkedText.empty .default false) [event]).words.map
        Extract.Word.text = ["A"] :=
    ⟨_, @Delivered.own standard 7 0 inner
      [⟨"EMC", []⟩, ⟨"BT", []⟩, ⟨"Tf", [.name "F", .int 1]⟩] [⟨"ET", []⟩]
      ⟨"Tj", [.str [0x41]]⟩ _ ⟨rfl, rfl⟩ rfl (List.mem_singleton.2 rfl), rfl, rfl, rfl⟩
  rw [← readAll_closingForm] at hevent hevents
  have hpage := @delivered_artifactPage closingCaller _ rfl _ _ hevent
  refine ⟨inner, event, hpage, Or.inl ⟨rfl, rfl⟩, by decide, hartifact, ?_⟩
  rw [@runFrom_artifactPage_events closingCaller closingForm rfl, hevents]
  exact hwords

end Setup

end PageText
