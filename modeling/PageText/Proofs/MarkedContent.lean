import PageText.Proofs.Run

/-!
# Marked-content sequences and their brackets

To the open marked-content sequences an operation is an opening, a closing, or nothing. Which
sequences are open is told by the brackets alone: those that were opened and after which there
is no closing too many, and of the sequences open before, those that no closing reaches. This
module says so of lists of brackets, and that operations do to the open sequences what their
brackets say, whether they succeed or not. What they show themselves lies in the sequences open
at the start of the operation.
-/

namespace PageText

/-- What an operation does to the open marked-content sequences. -/
inductive MarkedBracket where
  /-- Open a sequence. -/
  | opening (sequence : MarkedSequence)
  /-- Close the sequence opened last, if there is one. -/
  | closing
  deriving DecidableEq

namespace MarkedBracket

/-- The open sequences after a bracket, the innermost one first. -/
def apply (sequences : List MarkedSequence) : MarkedBracket → List MarkedSequence
  | opening sequence => sequence :: sequences
  | closing => sequences.tail

/-- Whether it closes a sequence. -/
def isClosing : MarkedBracket → Bool
  | opening _ => false
  | closing => true

/-- How many of the brackets are closings. -/
def closings (brackets : List MarkedBracket) : Nat := brackets.countP isClosing

/-- How many of the brackets are openings. -/
def openings (brackets : List MarkedBracket) : Nat :=
  brackets.countP fun bracket => !bracket.isClosing

/-- No beginning has more closings than openings, so that nothing opened before is closed. -/
def Covered (brackets : List MarkedBracket) : Prop :=
  ∀ earlier, earlier <+: brackets → closings earlier ≤ openings earlier

/-- How many of the sequences open before are closed. -/
def excess : List MarkedBracket → Nat
  | [] => 0
  | opening _ :: rest => excess rest - 1
  | closing :: rest => excess rest + 1

/-- A beginning is empty, or the first bracket and a beginning of the others. -/
theorem forall_prefix_cons_iff {bracket : MarkedBracket} {rest : List MarkedBracket}
    {p : List MarkedBracket → Prop} :
    (∀ earlier, earlier <+: bracket :: rest → p earlier) ↔
      p [] ∧ ∀ earlier, earlier <+: rest → p (bracket :: earlier) := by
  constructor
  · intro h
    exact ⟨h [] List.nil_prefix, fun earlier he =>
      h (bracket :: earlier) (List.cons_prefix_cons.2 ⟨rfl, he⟩)⟩
  · rintro ⟨hnil, hcons⟩ earlier he
    rcases List.prefix_cons_iff.1 he with rfl | ⟨tail, rfl, htail⟩
    · exact hnil
    · exact hcons tail htail

/-- The excess is the least bound on how many more closings than openings a beginning has. -/
theorem excess_le_iff {brackets : List MarkedBracket} {bound : Nat} :
    excess brackets ≤ bound ↔
      ∀ earlier, earlier <+: brackets → closings earlier ≤ openings earlier + bound := by
  induction brackets generalizing bound with
  | nil =>
    refine iff_of_true (Nat.zero_le _) fun earlier he => ?_
    rw [List.prefix_nil.1 he]
    exact Nat.zero_le _
  | cons bracket rest ih =>
    rw [forall_prefix_cons_iff]
    cases bracket with
    | opening sequence =>
      have hopens (earlier : List MarkedBracket) :
          closings (opening sequence :: earlier) = closings earlier ∧
            openings (opening sequence :: earlier) = openings earlier + 1 :=
        ⟨List.countP_cons_of_neg Bool.false_ne_true, List.countP_cons_of_pos rfl⟩
      have hrest := @ih (bound + 1)
      simp only [hopens, excess, Nat.sub_le_iff_le_add, hrest]
      refine ⟨fun h => ⟨Nat.zero_le _, fun earlier he => ?_⟩, fun h earlier he => ?_⟩
      · have := h earlier he
        omega
      · have := h.2 earlier he
        omega
    | closing =>
      have hcloses (earlier : List MarkedBracket) :
          closings (closing :: earlier) = closings earlier + 1 ∧
            openings (closing :: earlier) = openings earlier :=
        ⟨List.countP_cons_of_pos rfl, List.countP_cons_of_neg Bool.false_ne_true⟩
      simp only [hcloses, excess]
      cases bound with
      | zero =>
        refine iff_of_false (Nat.not_succ_le_zero _) fun h => ?_
        exact absurd (h.2 [] List.nil_prefix) (by decide)
      | succ bound =>
        rw [Nat.add_le_add_iff_right, ih]
        refine ⟨fun h => ⟨Nat.zero_le _, fun earlier he => ?_⟩, fun h earlier he => ?_⟩
        · have := h earlier he
          omega
        · have := h.2 earlier he
          omega

/-- Brackets are covered where they have no excess. -/
theorem covered_iff {brackets : List MarkedBracket} : Covered brackets ↔ excess brackets = 0 := by
  rw [← Nat.le_zero, excess_le_iff]
  exact Iff.rfl

instance (brackets : List MarkedBracket) : Decidable (Covered brackets) :=
  decidable_of_iff (excess brackets = 0) covered_iff.symm

/-- Two covered parts are covered together. -/
theorem Covered.append {first second : List MarkedBracket} (hf : Covered first)
    (hs : Covered second) : Covered (first ++ second) := by
  rintro earlier ⟨rest, hsplit⟩
  rcases List.append_eq_append_iff.1 hsplit with ⟨middle, rfl, -⟩ | ⟨middle, rfl, rfl⟩
  · exact hf earlier (List.prefix_append earlier middle)
  · have hfirst := hf first List.prefix_rfl
    have hsecond := hs middle (List.prefix_append middle rest)
    simp only [closings, openings, List.countP_append] at hfirst hsecond ⊢
    omega

/-- The sequences that are opened and not closed again, the innermost one first: what follows
the opening closes nothing opened before. -/
def unclosed : List MarkedBracket → List MarkedSequence
  | [] => []
  | opening sequence :: rest => unclosed rest ++ if Covered rest then [sequence] else []
  | closing :: rest => unclosed rest

/-- A sequence is not closed again exactly if what follows one of its openings is covered. -/
theorem mem_unclosed_iff {sequence : MarkedSequence} {brackets : List MarkedBracket} :
    sequence ∈ unclosed brackets ↔ ∃ before after,
      brackets = before ++ opening sequence :: after ∧ Covered after := by
  induction brackets with
  | nil => simp [unclosed]
  | cons bracket rest ih =>
    have hcons : (∃ before after, bracket :: rest = before ++ opening sequence :: after ∧
        Covered after) ↔ (bracket = opening sequence ∧ Covered rest) ∨
          sequence ∈ unclosed rest := by
      rw [ih]
      constructor
      · rintro ⟨before, after, hsplit, hafter⟩
        cases before with
        | nil =>
          cases hsplit
          exact Or.inl ⟨rfl, hafter⟩
        | cons first before =>
          cases hsplit
          exact Or.inr ⟨before, after, rfl, hafter⟩
      · rintro (⟨rfl, hafter⟩ | ⟨before, after, rfl, hafter⟩)
        · exact ⟨[], rest, rfl, hafter⟩
        · exact ⟨bracket :: before, after, rfl, hafter⟩
    rw [hcons]
    cases bracket with
    | closing => simp only [unclosed, reduceCtorEq, false_and, false_or]
    | opening opened =>
      rw [unclosed, List.mem_append, or_comm, opening.injEq]
      split
      · simp only [*, List.mem_singleton, and_true, eq_comm]
      · simp only [*, List.not_mem_nil, and_false]

/-- The open sequences after brackets. -/
def applyAll (sequences : List MarkedSequence) (brackets : List MarkedBracket) :
    List MarkedSequence :=
  brackets.foldl apply sequences

/-- Further brackets change what the first ones leave. -/
theorem applyAll_append (sequences : List MarkedSequence) (first second : List MarkedBracket) :
    applyAll sequences (first ++ second) = applyAll (applyAll sequences first) second :=
  List.foldl_append

/-- Open are the sequences that brackets open and do not close again, and those from before
that their excess does not reach. Where nothing is open a closing is passed over. -/
theorem applyAll_eq (sequences : List MarkedSequence) (brackets : List MarkedBracket) :
    applyAll sequences brackets = unclosed brackets ++ sequences.drop (excess brackets) := by
  induction brackets generalizing sequences with
  | nil => rfl
  | cons bracket rest ih =>
    have hfirst : applyAll sequences (bracket :: rest) = applyAll (apply sequences bracket) rest :=
      rfl
    rw [hfirst, ih]
    cases bracket with
    | closing => rw [apply, unclosed, excess, List.drop_tail]
    | opening sequence =>
      rw [apply, unclosed, excess, List.append_assoc]
      by_cases hc : Covered rest
      · rw [if_pos hc, covered_iff.1 hc]
        rfl
      · obtain ⟨reach, hreach⟩ := Nat.exists_eq_succ_of_ne_zero (mt covered_iff.2 hc)
        rw [if_neg hc, hreach, List.nil_append, List.drop_succ_cons, Nat.succ_sub_one]

end MarkedBracket

/-- The outcome leaves the given sequences open, and its events lie in them. -/
structure Outcome.LiesIn (outcome : Outcome) (sequences : List MarkedSequence) : Prop where
  /-- The sequences are open. -/
  marked : outcome.state.marked = sequences
  /-- The events lie in them. -/
  events : ∀ event ∈ outcome.events, event.marked = .ofSequences sequences

/-- A whole lies in the sequences that its parts lie in. -/
theorem Outcome.LiesIn.andThen {first : Outcome} {next : StreamState → Outcome}
    {sequences : List MarkedSequence} (hf : first.LiesIn sequences)
    (hn : ∀ state, state.marked = sequences → (next state).LiesIn sequences) :
    (first.andThen next).LiesIn sequences := by
  cases he : first.error with
  | some error => rwa [andThen_of_error he]
  | none =>
    have hnext := hn first.state hf.marked
    rw [andThen_of_success he]
    refine ⟨hnext.marked, fun event hm => ?_⟩
    rcases List.mem_append.1 hm with hfirst | hsecond
    · exact hf.events event hfirst
    · exact hnext.events event hsecond

namespace StreamState

/-- Nothing is shown, and the open sequences stay. -/
theorem liesIn_silent {outcome : Outcome} {state : StreamState}
    (hm : outcome.state.marked = state.marked) (he : outcome.events = []) :
    outcome.LiesIn state.marked :=
  ⟨hm, he ▸ List.forall_mem_nil _⟩

variable (state : StreamState) (mnemonic : String)

/-- Moving the text position leaves the open sequences alone. -/
theorem withPosition_liesIn (change : TextPosition → TextPosition) :
    (state.withPosition mnemonic change).LiesIn state.marked := by
  unfold withPosition
  cases state.position <;> exact liesIn_silent rfl rfl

/-- A string is shown in the open sequences. -/
theorem showText_liesIn (bytes : List UInt8) :
    (state.showText mnemonic bytes).LiesIn state.marked := by
  unfold showText
  cases state.graphics.font with
  | none => exact liesIn_silent rfl rfl
  | some font =>
    cases state.position with
    | none => exact liesIn_silent rfl rfl
    | some position => exact ⟨rfl, List.forall_mem_singleton.2 rfl⟩

/-- An element of a text array is shown in the open sequences. -/
theorem showElement_liesIn (element : Object) :
    (state.showElement mnemonic element).LiesIn state.marked := by
  unfold showElement
  split
  · exact state.showText_liesIn mnemonic _
  · split
    · exact state.withPosition_liesIn mnemonic _
    · exact liesIn_silent rfl rfl

/-- A text array is shown in the open sequences. -/
theorem showElements_liesIn (elements : List Object) :
    (showElements mnemonic elements state).LiesIn state.marked := by
  induction elements generalizing state with
  | nil => exact liesIn_silent rfl rfl
  | cons element elements ih =>
    exact (state.showElement_liesIn mnemonic element).andThen fun next hnext => hnext ▸ ih next

/-- A string on the next line is shown in the open sequences. -/
theorem nextLine_showText_liesIn (bytes : List UInt8) :
    ((state.nextLine mnemonic).andThen fun next => next.showText mnemonic bytes).LiesIn
      state.marked :=
  (state.withPosition_liesIn mnemonic _).andThen fun next hnext =>
    hnext ▸ next.showText_liesIn mnemonic bytes

end StreamState

/-- What an instruction is to the open sequences. -/
def Instruction.bracket? (state : StreamState) : Instruction → Option MarkedBracket
  | beginMarkedContent tag => some (.opening ⟨tag, none⟩)
  | beginMarkedContentWithProperties tag properties =>
    some (.opening ⟨tag, state.mcid? properties⟩)
  | endMarkedContent => some .closing
  | _ => none

/-- No text instruction is a bracket. -/
theorem Instruction.bracket?_of_needsTextObject {instruction : Instruction}
    (h : instruction.operator.needsTextObject = true) (state : StreamState) :
    instruction.bracket? state = none := by
  cases instruction <;> first | rfl | cases h

namespace Setup

/-- What an operation is to the open sequences. It is nothing if it has no meaning, or if its
operands cannot be read. -/
def bracket? (setup : Setup) (state : StreamState) (operation : Operation) :
    Option MarkedBracket :=
  match setup.registry.lookup? operation.operator with
  | none => none
  | some operator =>
    match Instruction.read operation.operator operator operation.operands with
    | .error _ => none
    | .ok instruction => instruction.bracket? state

/-- The brackets among operations. -/
def brackets (setup : Setup) (state : StreamState) (operations : List Operation) :
    List MarkedBracket :=
  operations.filterMap (setup.bracket? state)

variable {setup : Setup} {forms : FormRunner} {state : StreamState}

/-- What an operation is to the open sequences is a matter of what names refer to, and of nothing
else in the state. -/
theorem bracket?_congr {state' : StreamState} (h : state.resources = state'.resources) :
    setup.bracket? state = setup.bracket? state' := by
  have hactive : state.activeResources = state'.activeResources :=
    congrArg (·.getD .empty) h
  have hmcid (properties : Object) : state.mcid? properties = state'.mcid? properties := by
    cases properties with
    | name name =>
      exact congrArg (fun resources : Resources => ((resources.properties? name).bind
        fun entries => Dict.get? entries "MCID").bind Object.asInt?) hactive
    | _ => rfl
  have hinstruction (instruction : Instruction) :
      instruction.bracket? state = instruction.bracket? state' := by
    cases instruction <;> simp only [Instruction.bracket?, hmcid]
  funext operation
  simp only [bracket?, hinstruction]

/-- Brackets are a matter of what names refer to, and of nothing else in the state. -/
theorem brackets_congr {state' : StreamState} (h : state.resources = state'.resources)
    (operations : List Operation) :
    setup.brackets state operations = setup.brackets state' operations := by
  rw [brackets, brackets, bracket?_congr h]

/-- The brackets of one operation. -/
theorem brackets_singleton (state : StreamState) (operation : Operation) :
    setup.brackets state [operation] = (setup.bracket? state operation).toList := by
  rw [brackets, List.filterMap_cons]
  cases setup.bracket? state operation <;> rfl

/-- An instruction does to the open sequences what its bracket says, and if it invokes nothing
its events lie in the sequences open before. -/
theorem execute_marked (mnemonic : String) (state : StreamState) (instruction : Instruction) :
    (setup.execute forms mnemonic state instruction).state.marked =
        MarkedBracket.applyAll state.marked (instruction.bracket? state).toList ∧
      ((∀ name, instruction ≠ .invokeXObject name) →
        ∀ event ∈ (setup.execute forms mnemonic state instruction).events,
          event.marked = state.markedContext) := by
  have hlies {outcome : Outcome} (h : outcome.LiesIn state.marked) :
      outcome.state.marked = state.marked ∧
        ((∀ name, instruction ≠ .invokeXObject name) →
          ∀ event ∈ outcome.events, event.marked = state.markedContext) :=
    ⟨h.marked, fun _ => h.events⟩
  have hsilent {outcome : Outcome} (hm : outcome.state.marked = state.marked)
      (he : outcome.events = []) := hlies (StreamState.liesIn_silent hm he)
  cases instruction with
  | restoreState =>
    rw [execute]
    cases state.stack.pop <;> exact hsilent rfl rfl
  | setParameters name =>
    rw [execute, StreamState.setParameters]
    rcases state.activeResources.parameters? name with _ | ⟨_ | ⟨font, size⟩⟩ <;>
      exact hsilent rfl rfl
  | setFont name size =>
    rw [execute, StreamState.setFont]
    cases state.activeResources.font? name <;> exact hsilent rfl rfl
  | beginText =>
    rw [execute]
    cases state.position <;> exact hsilent rfl rfl
  | moveText x y => exact hlies (state.withPosition_liesIn mnemonic _)
  | moveTextSetLeading x y => exact hlies (StreamState.withPosition_liesIn _ mnemonic _)
  | nextLine => exact hlies (state.withPosition_liesIn mnemonic _)
  | showText bytes => exact hlies (state.showText_liesIn mnemonic bytes)
  | showTextArray elements => exact hlies (state.showElements_liesIn mnemonic elements)
  | nextLineShowText bytes => exact hlies (state.nextLine_showText_liesIn mnemonic bytes)
  | nextLineShowTextSpaced word char bytes =>
    exact hlies (StreamState.nextLine_showText_liesIn _ mnemonic bytes)
  | invokeXObject name =>
    refine ⟨?_, fun h => absurd rfl (h name)⟩
    rw [execute, invokeXObject_state]
    rfl
  | beginMarkedContent | beginMarkedContentWithProperties | endMarkedContent =>
    exact ⟨rfl, fun _ => List.forall_mem_nil _⟩
  | _ => exact hsilent rfl rfl

/-- An operation does to the open sequences what its bracket says, whether it succeeds or
not. -/
theorem step_marked (state : StreamState) (operation : Operation) :
    (setup.step forms state operation).state.marked =
      MarkedBracket.applyAll state.marked (setup.brackets state [operation]) := by
  rw [brackets_singleton, bracket?]
  rcases step_cases setup forms state operation with
    ⟨hl, hs⟩ | ⟨operator, hl, ⟨hneeds, _, hs⟩ | ⟨_, ⟨error, hr, hs⟩ | ⟨instruction, hr, hs⟩⟩⟩
  · rw [hl, hs]
    rfl
  · rw [hl, hs]
    dsimp only
    cases hr : Instruction.read operation.operator operator operation.operands with
    | error error => rfl
    | ok instruction =>
      rw [← Instruction.operator_of_read hr] at hneeds
      dsimp only
      rw [Instruction.bracket?_of_needsTextObject hneeds]
      rfl
  · rw [hl, hs]
    simp only [hr]
    rfl
  · rw [hl, hs]
    simp only [hr]
    exact (execute_marked operation.operator state instruction).1

/-- Operations that succeed do to the open sequences what their brackets say. -/
theorem runFrom_marked {count : Nat} {operations : List Operation}
    (hs : (setup.runFrom forms count state operations).error = none) :
    (setup.runFrom forms count state operations).state.marked =
      MarkedBracket.applyAll state.marked (setup.brackets state operations) := by
  induction operations generalizing state count with
  | nil => rfl
  | cons operation operations ih =>
    obtain ⟨he, hfirst, hrest⟩ := runFrom_cons_error_eq_none_iff.1 hs
    have hsplit : setup.brackets state (operation :: operations) =
        setup.brackets state [operation] ++ setup.brackets state operations := by
      rw [← List.singleton_append, brackets, List.filterMap_append]
      rfl
    have hmarked := @step_marked setup forms state operation
    have hresources := @step_resources setup forms state operation
    rw [runFrom_cons_of_allowed he, Outcome.andThen_of_success hfirst, hsplit,
      MarkedBracket.applyAll_append, ← hmarked, ← brackets_congr hresources]
    exact ih hrest

end Setup

end PageText
