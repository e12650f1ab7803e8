import PageText.Proofs.Failure
import PageText.Proofs.Inlining

/-!
# Saving and restoring graphics states

Between a save and the restore that matches it operations may do what they like to the
current graphics state: those below stay as they were. The depth of the stack is told by
counting saves and restores, and a restore too many is found where it stands. Forms have a
stack of their own, so what they do is not counted.
-/

namespace PageText

namespace GraphicsStack

variable (stack : GraphicsStack)

/-- Saving makes the stack deeper by one. -/
theorem depth_push : stack.push.depth = stack.depth + 1 := rfl

/-- Changing the current state keeps the depth. -/
theorem depth_modifyTop (change : GraphicsState → GraphicsState) :
    (stack.modifyTop change).depth = stack.depth := by
  obtain ⟨base, saved⟩ := stack
  cases saved <;> rfl

/-- A stack on top of another one is as deep as both. -/
theorem depth_above (below : GraphicsStack) :
    (stack.above below).depth = stack.depth + below.depth := by
  simp only [depth, above, List.length_append, List.length_cons]
  omega

/-- Replacing the current state by itself changes nothing. -/
theorem modifyTop_id : stack.modifyTop id = stack := by
  obtain ⟨base, saved⟩ := stack
  cases saved <;> rfl

variable {stack}

/-- Restoring makes the stack less deep by one. -/
theorem depth_of_pop {rest : GraphicsStack} (h : stack.pop = .ok rest) :
    rest.depth + 1 = stack.depth := by
  obtain ⟨base, saved⟩ := stack
  cases saved with
  | nil => cases h
  | cons state saved =>
    cases h
    rfl

/-- Restoring fails exactly where only the base is left. -/
theorem pop_eq_error_iff {error : Error} :
    stack.pop = .error error ↔ stack.depth = 1 ∧ error = .stackUnderflow := by
  obtain ⟨base, saved⟩ := stack
  cases saved with
  | nil =>
    constructor
    · rintro ⟨⟩
      exact ⟨rfl, rfl⟩
    · rintro ⟨-, rfl⟩
      rfl
  | cons state saved => exact ⟨nofun, fun h => absurd h.1 (by simp [depth])⟩

/-- Restoring works where something was saved. -/
theorem exists_pop (h : 1 < stack.depth) : ∃ rest, stack.pop = .ok rest := by
  cases hp : stack.pop with
  | ok rest => exact ⟨rest, rfl⟩
  | error error =>
    have hbase := (pop_eq_error_iff.1 hp).1
    omega

end GraphicsStack

namespace Registry

/-- How many of the operations are of a kind. -/
def count (registry : Registry) (kind : Operator) (operations : List Operation) : Nat :=
  operations.countP fun operation => registry.lookup? operation.operator = some kind

variable (registry : Registry) (kind : Operator)

/-- One operation counts if it is of the kind. -/
theorem count_singleton (operation : Operation) :
    registry.count kind [operation] =
      if registry.lookup? operation.operator = some kind then 1 else 0 := by
  simp only [count, List.countP_singleton, decide_eq_true_eq]

/-- The first operation counts by itself. -/
theorem count_cons (operation : Operation) (operations : List Operation) :
    registry.count kind (operation :: operations) =
      registry.count kind [operation] + registry.count kind operations := by
  rw [← List.singleton_append]
  exact List.countP_append

/-- Every restore has a save before it, and every save a restore after it. -/
structure Balanced (registry : Registry) (operations : List Operation) : Prop where
  /-- No beginning has more restores than saves. -/
  covered : ∀ before, before <+: operations →
    registry.count .restoreState before ≤ registry.count .saveState before
  /-- In the end there are as many of both. -/
  settled : registry.count .restoreState operations = registry.count .saveState operations

/-- Balance can be checked, beginning by beginning. -/
instance (operations : List Operation) : Decidable (registry.Balanced operations) :=
  decidable_of_iff
    ((∀ before ∈ operations.inits,
      registry.count .restoreState before ≤ registry.count .saveState before) ∧
      registry.count .restoreState operations = registry.count .saveState operations)
    ⟨fun h => ⟨fun before hb => h.1 before ((List.mem_inits _ _).2 hb), h.2⟩,
      fun h => ⟨fun before hb => h.covered before ((List.mem_inits _ _).1 hb), h.settled⟩⟩

/-- A restore, well-formed and the first that more restores than saves come to with. -/
structure FirstExcess (registry : Registry) (before : List Operation) (operation : Operation) :
    Prop where
  /-- It is a restore. -/
  kind : registry.lookup? operation.operator = some .restoreState
  /-- It has no operands, as a restore should. -/
  operands : operation.operands = []
  /-- Before it no beginning has more restores than saves. -/
  covered : ∀ earlier, earlier <+: before →
    registry.count .restoreState earlier ≤ registry.count .saveState earlier
  /-- With it there are more. -/
  exceeds : registry.count .saveState (before ++ [operation]) <
    registry.count .restoreState (before ++ [operation])

end Registry

namespace Setup

variable {setup : Setup} {forms : FormRunner} {state : StreamState}

/-- Every instruction but saving and restoring changes at most the current graphics state,
whether it succeeds or not. -/
theorem execute_modifiesTop {mnemonic : String} {instruction : Instruction}
    (hsave : instruction ≠ .saveState) (hrestore : instruction ≠ .restoreState) :
    ∃ change, (setup.execute forms mnemonic state instruction).state.stack =
      state.stack.modifyTop change := by
  have hmodify {outcome : Outcome} {change : GraphicsState → GraphicsState}
      (h : outcome = .done (state.modifyGraphics change)) :
      ∃ change, outcome.state.stack = state.stack.modifyTop change := by
    rw [h]
    exact ⟨change, rfl⟩
  have hmoves {outcome : Outcome} {change : GraphicsState → GraphicsState}
      (h : outcome.OnlyMoves (state.modifyGraphics change)) :
      ∃ change, outcome.state.stack = state.stack.modifyTop change := ⟨change, h.stack⟩
  have hsame {outcome : Outcome} (h : outcome.state.stack = state.stack) :
      ∃ change, outcome.state.stack = state.stack.modifyTop change :=
    ⟨id, h.trans state.stack.modifyTop_id.symm⟩
  cases instruction with
  | saveState => exact absurd rfl hsave
  | restoreState => exact absurd rfl hrestore
  | setParameters name =>
    rw [execute, StreamState.setParameters]
    rcases state.activeResources.parameters? name with _ | ⟨_ | ⟨font, size⟩⟩
    · exact hsame rfl
    · exact hsame rfl
    · exact hmodify rfl
  | setFont name size =>
    rw [execute, StreamState.setFont]
    cases state.activeResources.font? name with
    | none => exact hsame rfl
    | some font => exact hmodify rfl
  | concatMatrix | setCharSpacing | setWordSpacing | setHorizontalScaling | setLeading
  | setRenderMode | setRise => exact hmodify rfl
  | beginText =>
    rw [execute]
    cases state.position <;> exact hsame rfl
  | moveText x y => exact hsame (state.withPosition_onlyMoves mnemonic _).stack
  | moveTextSetLeading x y => exact hmoves (StreamState.withPosition_onlyMoves _ mnemonic _)
  | nextLine => exact hsame (state.withPosition_onlyMoves mnemonic _).stack
  | showText bytes => exact hsame (state.showText_onlyMoves mnemonic bytes).stack
  | showTextArray elements =>
    exact hsame (StreamState.showElements_onlyMoves mnemonic elements state).stack
  | nextLineShowText bytes => exact hsame (state.nextLine_showText_onlyMoves mnemonic bytes).stack
  | nextLineShowTextSpaced word char bytes =>
    exact hmoves (StreamState.nextLine_showText_onlyMoves _ mnemonic bytes)
  | invokeXObject name =>
    rw [execute, invokeXObject_state]
    exact ⟨id, state.stack.modifyTop_id.symm⟩
  | endText | setTextMatrix | beginMarkedContent | beginMarkedContentWithProperties
  | endMarkedContent => exact hsame rfl

/-- What an operation that succeeds does to the stack: it saves, restores, or changes at most
the current graphics state. -/
theorem step_stack {operation : Operation} (hs : (setup.step forms state operation).error = none) :
    (setup.registry.lookup? operation.operator = some .saveState ∧
      (setup.step forms state operation).state.stack = state.stack.push) ∨
    (setup.registry.lookup? operation.operator = some .restoreState ∧
      state.stack.pop = .ok (setup.step forms state operation).state.stack) ∨
    setup.registry.lookup? operation.operator ≠ some .saveState ∧
      setup.registry.lookup? operation.operator ≠ some .restoreState ∧
      ∃ change, (setup.step forms state operation).state.stack =
        state.stack.modifyTop change := by
  rcases step_cases setup forms state operation with
    ⟨hl, he⟩ | ⟨operator, hl, ⟨_, _, he⟩ | ⟨_, ⟨_, _, he⟩ | ⟨instruction, hi, he⟩⟩⟩
  · rw [hl, he]
    exact Or.inr (Or.inr ⟨nofun, nofun, id, state.stack.modifyTop_id.symm⟩)
  · rw [he] at hs
    cases hs
  · rw [he] at hs
    cases hs
  · have hop : instruction.operator = operator := Instruction.operator_of_read hi
    subst hop
    rw [he] at hs ⊢
    rw [hl]
    by_cases hsave : instruction = .saveState
    · subst hsave
      exact Or.inl ⟨rfl, rfl⟩
    by_cases hrestore : instruction = .restoreState
    · subst hrestore
      refine Or.inr (Or.inl ⟨rfl, ?_⟩)
      rw [execute] at hs ⊢
      cases hp : state.stack.pop with
      | ok stack => rfl
      | error error =>
        rw [hp] at hs
        cases hs
    · refine Or.inr (Or.inr ⟨fun hkind => ?_, fun hkind => ?_,
        execute_modifiesTop hsave hrestore⟩)
      · exact hsave (Instruction.operator_eq_saveState.1 (Option.some.inj hkind))
      · exact hrestore (Instruction.operator_eq_restoreState.1 (Option.some.inj hkind))

/-- Counting tells the depth after an operation that succeeds. -/
theorem step_depth {operation : Operation} (hs : (setup.step forms state operation).error = none) :
    (setup.step forms state operation).state.stack.depth +
        setup.registry.count .restoreState [operation] =
      state.stack.depth + setup.registry.count .saveState [operation] := by
  simp only [Registry.count_singleton]
  rcases step_stack hs with ⟨hl, hstack⟩ | ⟨hl, hpop⟩ | ⟨hsave, hrestore, change, hstack⟩
  · rw [hl, hstack, GraphicsStack.depth_push]
    rfl
  · rw [hl, ← GraphicsStack.depth_of_pop hpop]
    rfl
  · rw [if_neg hsave, if_neg hrestore, hstack, GraphicsStack.depth_modifyTop]

/-- Counting tells the depth after operations that succeed one after the other. -/
theorem runFrom_depth {count : Nat} {operations : List Operation}
    (hs : (setup.runFrom forms count state operations).error = none) :
    (setup.runFrom forms count state operations).state.stack.depth +
        setup.registry.count .restoreState operations =
      state.stack.depth + setup.registry.count .saveState operations := by
  induction operations generalizing state count with
  | nil => rfl
  | cons operation operations ih =>
    obtain ⟨he, hfirst, hrest⟩ := runFrom_cons_error_eq_none_iff.1 hs
    have hstep := step_depth hfirst
    have hrun := ih hrest
    rw [runFrom_cons_of_allowed he, Outcome.andThen_of_success hfirst,
      Registry.count_cons _ _ _ operations, Registry.count_cons _ _ _ operations]
    dsimp only
    omega

/-- An operation that succeeds, and does not restore what is below, leaves that alone. -/
theorem step_stack_above {inner below : GraphicsStack} {operation : Operation}
    (hstack : state.stack = inner.above below)
    (hcovered : setup.registry.count .restoreState [operation] <
      inner.depth + setup.registry.count .saveState [operation])
    (hs : (setup.step forms state operation).error = none) :
    ∃ next : GraphicsStack,
      (setup.step forms state operation).state.stack = next.above below := by
  rcases step_stack hs with ⟨-, hpush⟩ | ⟨hl, hpop⟩ | ⟨-, -, change, hchange⟩
  · exact ⟨inner.push, by rw [hpush, hstack, GraphicsStack.push_above]⟩
  · simp only [Registry.count_singleton, hl, if_true, Option.some.injEq, reduceCtorEq,
      if_false] at hcovered
    obtain ⟨rest, hrest⟩ := GraphicsStack.exists_pop hcovered
    have habove := GraphicsStack.pop_above hrest below
    rw [hstack, habove] at hpop
    exact ⟨rest, (Except.ok.inj hpop).symm⟩
  · exact ⟨inner.modifyTop change, by rw [hchange, hstack, GraphicsStack.modifyTop_above]⟩

/-- Operations that succeed on a stack above another one, and do not restore what is below,
leave that alone. The depth of the upper stack carries the induction. -/
theorem runFrom_stack_above {inner below : GraphicsStack} {count : Nat}
    {operations : List Operation} (hstack : state.stack = inner.above below)
    (hcovered : ∀ before, before <+: operations →
      setup.registry.count .restoreState before <
        inner.depth + setup.registry.count .saveState before)
    (hs : (setup.runFrom forms count state operations).error = none) :
    ∃ last : GraphicsStack,
      (setup.runFrom forms count state operations).state.stack = last.above below := by
  induction operations generalizing state inner count with
  | nil => exact ⟨inner, hstack⟩
  | cons operation operations ih =>
    obtain ⟨he, hfirst, hrest⟩ := runFrom_cons_error_eq_none_iff.1 hs
    have hone := hcovered [operation] (List.cons_prefix_cons.2 ⟨rfl, List.nil_prefix⟩)
    obtain ⟨next, hnext⟩ := step_stack_above hstack hone hfirst
    have hdepth := step_depth hfirst
    rw [hnext, hstack, GraphicsStack.depth_above, GraphicsStack.depth_above] at hdepth
    rw [runFrom_cons_of_allowed he, Outcome.andThen_of_success hfirst]
    refine ih hnext (fun before hb => ?_) hrest
    have hmore := hcovered (operation :: before) (List.cons_prefix_cons.2 ⟨rfl, hb⟩)
    rw [Registry.count_cons _ _ _ before, Registry.count_cons _ _ _ before] at hmore
    omega

/-- Between a save and a restore balanced operations may do what they like: afterwards the
stack is the one before. -/
theorem runFrom_scope {count : Nat} {save restore : Operation} {operations : List Operation}
    (hsave : setup.registry.lookup? save.operator = some .saveState)
    (hrestore : setup.registry.lookup? restore.operator = some .restoreState)
    (hb : setup.registry.Balanced operations)
    (hs : (setup.runFrom forms count state (save :: (operations ++ [restore]))).error = none) :
    (setup.runFrom forms count state (save :: (operations ++ [restore]))).state.stack =
      state.stack := by
  obtain ⟨he, hfirst, hrest⟩ := runFrom_cons_error_eq_none_iff.1 hs
  rw [runFrom_cons_of_allowed he, Outcome.andThen_of_success hfirst, runFrom_append]
  rw [runFrom_append] at hrest
  obtain ⟨hmiddle, hlast⟩ := Outcome.andThen_error_eq_none_iff.1 hrest
  rw [Outcome.andThen_of_success hmiddle]
  -- The saved copy of the current state is the bottom of a stack above the one before.
  have hpush : (setup.step forms state save).state.stack =
      (GraphicsStack.ofBase state.stack.top).above state.stack := by
    rcases step_stack hfirst with ⟨-, hstack⟩ | ⟨hl, -⟩ | ⟨hne, -⟩
    · rw [hstack]
      rfl
    · rw [hsave] at hl
      cases hl
    · exact absurd hsave hne
  obtain ⟨last, habove⟩ := runFrom_stack_above hpush
    (fun before hbefore => by
      have hcovered := hb.covered before hbefore
      simp only [GraphicsStack.depth, GraphicsStack.ofBase, List.length_nil]
      omega) hmiddle
  have hdepth : last.depth = 1 := by
    have hrun := runFrom_depth hmiddle
    rw [habove, hpush, GraphicsStack.depth_above, GraphicsStack.depth_above, hb.settled] at hrun
    have hbase : (GraphicsStack.ofBase state.stack.top).depth = 1 := rfl
    omega
  obtain ⟨hallowed, hstep, -⟩ := runFrom_cons_error_eq_none_iff.1 hlast
  rw [runFrom_cons_of_allowed hallowed, Outcome.andThen_of_success hstep]
  rcases step_stack hstep with ⟨hl, -⟩ | ⟨-, hpop⟩ | ⟨-, hne, -⟩
  · rw [hrestore] at hl
    cases hl
  · rw [habove, GraphicsStack.pop_above_of_depth hdepth] at hpop
    exact (Except.ok.inj hpop).symm
  · exact absurd hrestore hne

/-- An operation of the stream itself fails for want of a saved state exactly if it is a
well-formed restore at the base. -/
theorem step_stackUnderflow_iff {operation : Operation}
    (hown : setup.registry.lookup? operation.operator ≠ some .invokeXObject) :
    (setup.step forms state operation).error = some .stackUnderflow ↔
      setup.registry.lookup? operation.operator = some .restoreState ∧
        operation.operands = [] ∧ state.stack.depth = 1 := by
  constructor
  · intro he
    rcases step_cases setup forms state operation with
      ⟨_, hs⟩ | ⟨operator, hl, ⟨_, _, hs⟩ | ⟨ht, ⟨error, hr, hs⟩ | ⟨instruction, hi, hs⟩⟩⟩
    · rw [hs] at he
      cases he
    · rw [hs] at he
      cases he
    · rw [hs] at he
      cases he
      obtain ⟨reason, hreason⟩ := Instruction.complains_read operator operation.operands _ hr
      cases hreason
    · rw [hs] at he
      have hop : instruction.operator = operator := Instruction.operator_of_read hi
      subst hop
      rcases execute_error ht he with ⟨rfl, hpop⟩ | ⟨_, _, herror⟩ | ⟨-, -, herror⟩ |
        ⟨_, _, -, herror⟩ | ⟨name, rfl⟩
      · exact ⟨hl, (Instruction.of_noOperands hi).1, (GraphicsStack.pop_eq_error_iff.1 hpop).1⟩
      · cases herror
      · cases herror
      · cases herror
      · exact absurd hl hown
  · rintro ⟨hl, ho, hdepth⟩
    have hread : Instruction.read operation.operator .restoreState operation.operands =
        .ok .restoreState := by
      rw [ho]
      rfl
    have hpop : state.stack.pop = .error .stackUnderflow :=
      GraphicsStack.pop_eq_error_iff.2 ⟨hdepth, rfl⟩
    rw [step_of_read hl nofun hread, execute, hpop]
    rfl

/-- A run reaches one of its operations and fails there: the operations before it succeed, it
is allowed, and it fails. -/
structure FailsAt (setup : Setup) (forms : FormRunner) (count : Nat) (state : StreamState)
    (before : List Operation) (operation : Operation) (error : Error) : Prop where
  /-- The operations before it succeed. -/
  reached : (setup.runFrom forms count state before).error = none
  /-- One more operation is allowed. -/
  allowed : setup.exceeds? (count + before.length) = none
  /-- It fails. -/
  failed : (setup.step forms (setup.runFrom forms count state before).state operation).error =
    some error

/-- A run goes no further than the operation that it fails at. -/
theorem FailsAt.runFrom_eq {count : Nat} {before : List Operation} {operation : Operation}
    {error : Error} (h : FailsAt setup forms count state before operation error)
    (after : List Operation) :
    setup.runFrom forms count state (before ++ operation :: after) =
      (setup.runFrom forms count state before).andThen fun state =>
        setup.step forms state operation := by
  rw [runFrom_append, Outcome.andThen_of_success h.reached,
    Outcome.andThen_of_success h.reached, runFrom_cons_of_allowed h.allowed,
    Outcome.andThen_of_error h.failed]

/-- A run fails as the operation does that it fails at. -/
theorem FailsAt.runFrom_error {count : Nat} {before : List Operation} {operation : Operation}
    {error : Error} (h : FailsAt setup forms count state before operation error)
    {after : List Operation} :
    (setup.runFrom forms count state (before ++ operation :: after)).error = some error := by
  rw [h.runFrom_eq after, Outcome.andThen_of_success h.reached]
  exact h.failed

/-- A run that fails, if not for the number of its operations, fails at one of them. -/
theorem exists_failsAt {count : Nat} {operations : List Operation} {error : Error}
    (hn : ∀ limit, error ≠ .operationLimitExceeded limit)
    (he : (setup.runFrom forms count state operations).error = some error) :
    ∃ before operation after, operations = before ++ operation :: after ∧
      FailsAt setup forms count state before operation error := by
  induction operations generalizing state count with
  | nil => cases he
  | cons operation operations ih =>
    cases hallowed : setup.exceeds? count with
    | some excess =>
      rw [runFrom, hallowed] at he
      cases he
      unfold exceeds? at hallowed
      split at hallowed
      · cases hallowed
      · split at hallowed
        · cases hallowed
          exact absurd rfl (hn _)
        · cases hallowed
    | none =>
      rw [runFrom_cons_of_allowed hallowed] at he
      cases hfirst : (setup.step forms state operation).error with
      | some error' =>
        rw [Outcome.andThen_of_error hfirst] at he
        exact ⟨[], operation, operations, rfl, rfl, hallowed, he⟩
      | none =>
        rw [Outcome.andThen_of_success hfirst] at he
        obtain ⟨before, failing, after, hsplit, hfails⟩ := ih he
        have hbefore : setup.runFrom forms count state (operation :: before) =
            (setup.step forms state operation).andThen fun state =>
              setup.runFrom forms (count + 1) state before :=
          runFrom_cons_of_allowed hallowed state operation before
        rw [Outcome.andThen_of_success hfirst] at hbefore
        have hcount : count + (operation :: before).length = count + 1 + before.length := by
          rw [List.length_cons]
          omega
        refine ⟨operation :: before, failing, after, ?_, ?_, ?_, ?_⟩
        · rw [hsplit, List.cons_append]
        · rw [hbefore]
          exact hfails.reached
        · rw [hcount]
          exact hfails.allowed
        · rw [hbefore]
          exact hfails.failed

/-- Where a stream starts at its base, no beginning that succeeds has more restores than
saves. -/
theorem count_le_of_reached {count : Nat} {before earlier : List Operation}
    (hdepth : state.stack.depth = 1) (hs : (setup.runFrom forms count state before).error = none)
    (he : earlier <+: before) :
    setup.registry.count .restoreState earlier ≤ setup.registry.count .saveState earlier := by
  obtain ⟨rest, rfl⟩ := he
  rw [runFrom_append] at hs
  have hearlier := (Outcome.andThen_error_eq_none_iff.1 hs).1
  have hrun := runFrom_depth hearlier
  have hpos : 1 ≤ (setup.runFrom forms count state earlier).state.stack.depth :=
    Nat.le_add_left 1 _
  omega

/-- From its base a stream fails for want of a saved state, at an operation of its own,
exactly at the first restore too many. -/
theorem failsAt_stackUnderflow_iff {count : Nat} {base : GraphicsState}
    {before : List Operation} {operation : Operation} (hbase : state.stack = .ofBase base) :
    FailsAt setup forms count state before operation .stackUnderflow ∧
        setup.registry.lookup? operation.operator ≠ some .invokeXObject ↔
      (setup.runFrom forms count state before).error = none ∧
        setup.exceeds? (count + before.length) = none ∧
        setup.registry.FirstExcess before operation := by
  have hdepth : state.stack.depth = 1 := by
    rw [hbase]
    rfl
  have hcount (kind : Operator) : setup.registry.count kind (before ++ [operation]) =
      setup.registry.count kind before + setup.registry.count kind [operation] :=
    List.countP_append
  constructor
  · rintro ⟨⟨hreached, hallowed, hfailed⟩, hown⟩
    obtain ⟨hkind, hoperands, hone⟩ := (step_stackUnderflow_iff hown).1 hfailed
    refine ⟨hreached, hallowed, hkind, hoperands,
      fun earlier => count_le_of_reached hdepth hreached, ?_⟩
    have hrun := runFrom_depth hreached
    simp only [hcount, Registry.count_singleton, hkind, Option.some.injEq, reduceCtorEq, if_true,
      if_false]
    omega
  · rintro ⟨hreached, hallowed, hkind, hoperands, -, hexceeds⟩
    have hown : setup.registry.lookup? operation.operator ≠ some .invokeXObject := by
      rw [hkind]
      exact nofun
    refine ⟨⟨hreached, hallowed, (step_stackUnderflow_iff hown).2 ⟨hkind, hoperands, ?_⟩⟩, hown⟩
    have hrun := runFrom_depth hreached
    have hpos : 1 ≤ (setup.runFrom forms count state before).state.stack.depth :=
      Nat.le_add_left 1 _
    simp only [hcount, Registry.count_singleton, hkind, Option.some.injEq, reduceCtorEq, if_true,
      if_false] at hexceeds
    omega

/-- At the restore too many everything is left as it was before, with only the base on the
stack. -/
theorem FailsAt.left_of_stackUnderflow {count : Nat} {before : List Operation}
    {operation : Operation} (h : FailsAt setup forms count state before operation .stackUnderflow)
    (hown : setup.registry.lookup? operation.operator ≠ some .invokeXObject)
    (after : List Operation) :
    setup.runFrom forms count state (before ++ operation :: after) =
        { setup.runFrom forms count state before with error := some .stackUnderflow } ∧
      (setup.runFrom forms count state before).state.stack.depth = 1 := by
  obtain ⟨hkind, hoperands, hone⟩ := (step_stackUnderflow_iff hown).1 h.failed
  have hread : Instruction.read operation.operator .restoreState operation.operands =
      .ok .restoreState := by
    rw [hoperands]
    rfl
  have hstep : setup.step forms (setup.runFrom forms count state before).state operation =
      .failed (setup.runFrom forms count state before).state .stackUnderflow := by
    have hfailed := h.failed
    rw [step_of_read hkind nofun hread] at hfailed ⊢
    exact (execute_restoreState_failed hfailed).2
  refine ⟨?_, hone⟩
  rw [h.runFrom_eq after, Outcome.andThen_of_success h.reached, hstep, Outcome.failed,
    List.append_nil]

/-- Saves and restores scope changes of the graphics state: balanced operations between a save
and a restore leave the stack as it was; from the base the depth counts the saves that were
not restored; and a stream fails for want of a saved state exactly at the first restore too
many, or in a form. -/
theorem runFrom_scoping (setup : Setup) (forms : FormRunner) (count : Nat)
    (state : StreamState) :
    (∀ save operations restore,
      setup.registry.lookup? save.operator = some .saveState →
      setup.registry.lookup? restore.operator = some .restoreState →
      setup.registry.Balanced operations →
      (setup.runFrom forms count state (save :: (operations ++ [restore]))).error = none →
      (setup.runFrom forms count state (save :: (operations ++ [restore]))).state.stack =
        state.stack) ∧
    (∀ base, state.stack = .ofBase base →
      (∀ operations, (setup.runFrom forms count state operations).error = none →
        (setup.runFrom forms count state operations).state.stack.depth +
            setup.registry.count .restoreState operations =
          1 + setup.registry.count .saveState operations) ∧
      ∀ before operation,
        (FailsAt setup forms count state before operation .stackUnderflow ∧
            setup.registry.lookup? operation.operator ≠ some .invokeXObject ↔
          (setup.runFrom forms count state before).error = none ∧
            setup.exceeds? (count + before.length) = none ∧
            setup.registry.FirstExcess before operation)) ∧
    (∀ operations, (setup.runFrom forms count state operations).error = some .stackUnderflow →
      ∃ before operation after, operations = before ++ operation :: after ∧
        FailsAt setup forms count state before operation .stackUnderflow) ∧
    ∀ before operation after,
      FailsAt setup forms count state before operation .stackUnderflow →
      setup.registry.lookup? operation.operator ≠ some .invokeXObject →
      setup.runFrom forms count state (before ++ operation :: after) =
          { setup.runFrom forms count state before with error := some .stackUnderflow } ∧
        (setup.runFrom forms count state before).state.stack.depth = 1 := by
  refine ⟨fun save operations restore hsave hrestore hb => runFrom_scope hsave hrestore hb,
    fun base hbase => ⟨fun operations hs => ?_, fun before operation =>
      failsAt_stackUnderflow_iff hbase⟩,
    fun operations he => exists_failsAt nofun he,
    fun before operation after h hown => h.left_of_stackUnderflow hown after⟩
  have hdepth : state.stack.depth = 1 := by
    rw [hbase]
    rfl
  rw [runFrom_depth hs, hdepth]

/-- A leading set between a save and a restore is gone afterwards, and a second restore
fails. -/
theorem runFrom_scoping_leading :
    standard.registry.Balanced [⟨"q", []⟩, ⟨"TL", [.int 3]⟩, ⟨"Q", []⟩] ∧
    (standard.runFrom standard.pageForms 0 (.idle .initial)
      [⟨"q", []⟩, ⟨"q", []⟩, ⟨"TL", [.int 3]⟩, ⟨"Q", []⟩, ⟨"Q", []⟩]).state.stack =
        .ofBase .initial ∧
    FailsAt standard standard.pageForms 0 (.idle .initial) [⟨"q", []⟩, ⟨"Q", []⟩] ⟨"Q", []⟩
      .stackUnderflow ∧
    (standard.runFrom standard.pageForms 0 (.idle .initial)
      ([⟨"q", []⟩, ⟨"Q", []⟩] ++ ⟨"Q", []⟩ :: [⟨"q", []⟩])).state.stack.depth = 1 := by
  obtain ⟨hscope, hbase, -, hleft⟩ :=
    runFrom_scoping standard standard.pageForms 0 (.idle .initial)
  have hb : standard.registry.Balanced [⟨"q", []⟩, ⟨"TL", [.int 3]⟩, ⟨"Q", []⟩] := by decide
  have hpair : standard.registry.Balanced [⟨"q", []⟩, ⟨"Q", []⟩] := by decide
  have hfirst : standard.registry.FirstExcess [⟨"q", []⟩, ⟨"Q", []⟩] ⟨"Q", []⟩ :=
    ⟨by decide, rfl, hpair.covered, by decide⟩
  have hfails := ((hbase .initial rfl).2 _ _).2 ⟨rfl, rfl, hfirst⟩
  obtain ⟨hrun, hdepth⟩ := hleft _ _ [⟨"q", []⟩] hfails.1 hfails.2
  have hstack := hscope ⟨"q", []⟩ _ ⟨"Q", []⟩ (by decide) (by decide) hb rfl
  refine ⟨hb, hstack, hfails.1, ?_⟩
  rw [hrun]
  exact hdepth

end Setup

end PageText
