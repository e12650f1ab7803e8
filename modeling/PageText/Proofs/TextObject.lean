import PageText.Proofs.Scoping

/-!
# Text objects

Which operators may stand where is a matter of the mnemonics before them in their own
stream: text objects are opened and closed in turns, and text operators lie in between.
This module says so of every run that succeeds, and says of a run that fails when it does
so for want of that order, in the stream itself or in a form. A form starts outside of a
text object, whatever its caller has open.
-/

namespace PageText

namespace Operation

/-- The openings and closings of text objects among operations, in order. -/
def textBrackets (operations : List Operation) : List String :=
  (operations.map operator).filter fun mnemonic => mnemonic = "BT" ∨ mnemonic = "ET"

/-- A text object has been opened and not closed again. -/
def InText (operations : List Operation) : Prop :=
  (textBrackets operations).getLast? = some "BT"

instance (operations : List Operation) : Decidable (InText operations) :=
  inferInstanceAs (Decidable (_ = _))

/-- The mnemonics of the operators that may stand in text objects only. -/
def textMnemonics : List String := ["ET", "Td", "TD", "Tm", "T*", "Tj", "TJ", "'", "\""]

/-- Openings and closings take turns, an opening first. -/
def TakeTurns (brackets : List String) : Prop :=
  ∀ i mnemonic, brackets[i]? = some mnemonic → mnemonic = if i % 2 = 0 then "BT" else "ET"

/-- Text objects are opened and closed in turns, and text operators lie in them. -/
structure Bracketed (operations : List Operation) : Prop where
  /-- Openings and closings take turns. -/
  alternate : TakeTurns (textBrackets operations)
  /-- Every text operator lies after an opening that is not closed before it. -/
  inside : ∀ before operation after, operations = before ++ operation :: after →
    operation.operator ∈ textMnemonics → InText before

/-- An operation that may not stand after the given ones: a text operator outside of a
text object, whatever its operands, or a well-formed opening inside of one. -/
def Misplaced (before : List Operation) (operation : Operation) : Prop :=
  operation.operator ∈ textMnemonics ∧ ¬InText before ∨
    operation.operator = "BT" ∧ operation.operands = [] ∧ InText before

/-- The openings and closings of two parts are those of the first and of the second. -/
theorem textBrackets_append (first second : List Operation) :
    textBrackets (first ++ second) = textBrackets first ++ textBrackets second := by
  rw [textBrackets, List.map_append, List.filter_append]
  rfl

/-- An operation is an opening, a closing, or neither. -/
theorem textBrackets_singleton (operation : Operation) :
    textBrackets [operation] =
      if operation.operator = "BT" ∨ operation.operator = "ET" then [operation.operator]
      else [] := by
  simp only [textBrackets, List.map_cons, List.map_nil, List.filter_cons, List.filter_nil,
    decide_eq_true_eq]

/-- Before the first operation no text object is open. -/
theorem not_inText_nil : ¬InText [] := nofun

/-- Whether a text object is open after an operation is a matter of its mnemonic, or of
what was before. -/
theorem inText_concat (before : List Operation) (operation : Operation) :
    InText (before ++ [operation]) ↔
      operation.operator = "BT" ∨ operation.operator ≠ "ET" ∧ InText before := by
  rw [InText, InText, textBrackets_append, textBrackets_singleton]
  by_cases hb : operation.operator = "BT"
  · simp [hb]
  by_cases he : operation.operator = "ET"
  · simp [he]
  · simp [hb, he]

/-- The next opening or closing has its turn by the number of those before it. -/
theorem TakeTurns.concat {brackets : List String} {mnemonic : String} (h : TakeTurns brackets)
    (hm : mnemonic = if brackets.length % 2 = 0 then "BT" else "ET") :
    TakeTurns (brackets ++ [mnemonic]) := by
  intro i found hi
  rw [List.getElem?_append] at hi
  split at hi
  · exact h i found hi
  · rename_i hle
    obtain ⟨hlast, rfl⟩ := List.getElem?_eq_some_iff.1 hi
    have hi : i = brackets.length := by
      rw [List.length_singleton] at hlast
      omega
    rw [List.getElem_singleton, hm, hi]

/-- Where openings and closings take turns, a text object is open after an odd number of
them. -/
theorem TakeTurns.inText_iff {operations : List Operation}
    (h : TakeTurns (textBrackets operations)) :
    InText operations ↔ (textBrackets operations).length % 2 = 1 := by
  rw [InText, List.getLast?_eq_getElem?]
  cases hlast : (textBrackets operations)[(textBrackets operations).length - 1]? with
  | none =>
    have hzero : (textBrackets operations).length = 0 := by
      have := List.getElem?_eq_none_iff.1 hlast
      omega
    simp [hzero]
  | some mnemonic =>
    have hpos := (List.getElem?_eq_some_iff.1 hlast).1
    have hturn := h _ _ hlast
    rw [hturn, Option.some_inj]
    split
    · simp only [true_iff]
      omega
    · simp only [String.reduceEq, false_iff]
      omega

/-- Where no opening stands inside of a text object and no closing outside of one, they take
turns. -/
theorem takeTurns_of_inText {operations : List Operation}
    (ho : ∀ before operation after, operations = before ++ operation :: after →
      operation.operator = "BT" → ¬InText before)
    (hc : ∀ before operation after, operations = before ++ operation :: after →
      operation.operator = "ET" → InText before) :
    TakeTurns (textBrackets operations) := by
  induction operations using List.reverseRecOn with
  | nil => exact nofun
  | append_singleton before operation ih =>
    have hbefore : TakeTurns (textBrackets before) := by
      refine ih (fun earlier found after hsplit => ho earlier found (after ++ [operation]) ?_)
        (fun earlier found after hsplit => hc earlier found (after ++ [operation]) ?_) <;>
      rw [hsplit, List.append_assoc, List.cons_append]
    rw [textBrackets_append, textBrackets_singleton]
    by_cases hb : operation.operator = "BT"
    · have heven := mt hbefore.inText_iff.2 (ho before operation [] rfl hb)
      rw [if_pos (Or.inl hb), hb]
      exact hbefore.concat (if_pos (by omega)).symm
    by_cases he : operation.operator = "ET"
    · have hodd := hbefore.inText_iff.1 (hc before operation [] rfl he)
      rw [if_pos (Or.inr he), he]
      exact hbefore.concat (if_neg (by omega)).symm
    · rw [if_neg (not_or.2 ⟨hb, he⟩), List.append_nil]
      exact hbefore

end Operation

/-- The standard registry knows a mnemonic as an operator exactly if it is the operator's. -/
theorem Registry.lookup?_eq_some_iff {mnemonic : String} {operator : Operator} :
    Registry.standard.lookup? mnemonic = some operator ↔ mnemonic = operator.mnemonic :=
  ⟨eq_mnemonic_of_lookup?, fun h => h ▸ lookup?_mnemonic operator⟩

/-- The text mnemonics are those of the operators that need a text object. -/
theorem Operation.mem_textMnemonics_iff {mnemonic : String} :
    mnemonic ∈ textMnemonics ↔ ∃ operator : Operator,
      Registry.standard.lookup? mnemonic = some operator ∧ operator.needsTextObject = true := by
  have hlisted : textMnemonics =
      (Operator.all.filter Operator.needsTextObject).map Operator.mnemonic := rfl
  simp only [hlisted, List.mem_map, List.mem_filter, Operator.mem_all, true_and]
  refine exists_congr fun operator => ?_
  rw [Registry.lookup?_eq_some_iff, and_comm, eq_comm]

namespace Setup

variable {setup : Setup} {forms : FormRunner} {state : StreamState}

/-- No text instruction but the closing one closes the text object, not even where it fails. -/
theorem execute_position_ne_none {mnemonic : String} {instruction : Instruction}
    (hn : instruction.operator.needsTextObject = true) (he : instruction.operator ≠ .endText)
    (hp : state.position ≠ none) :
    (setup.execute forms mnemonic state instruction).state.position ≠ none := by
  cases instruction with
  | endText => exact absurd rfl he
  | moveText x y => exact StreamState.withPosition_position hp mnemonic _
  | moveTextSetLeading x y =>
    have hled : (state.modifyGraphics fun g => { g with leading := -y }).position ≠ none := hp
    exact StreamState.withPosition_position hled mnemonic _
  | setTextMatrix m => exact Option.some_ne_none _
  | nextLine => exact StreamState.withPosition_position hp mnemonic _
  | showText bytes => exact StreamState.showText_position hp mnemonic bytes
  | showTextArray elements => exact StreamState.showElements_position hp mnemonic elements
  | nextLineShowText bytes =>
    exact Outcome.andThen_keeps (p := fun next => next.position ≠ none)
      (StreamState.withPosition_position hp mnemonic _)
      fun next hnext => StreamState.showText_position hnext mnemonic bytes
  | nextLineShowTextSpaced word char bytes =>
    have hspaced : (state.modifyGraphics fun g =>
        { g with wordSpacing := word, charSpacing := char }).position ≠ none := hp
    exact Outcome.andThen_keeps (p := fun next => next.position ≠ none)
      (StreamState.withPosition_position hspaced mnemonic _)
      fun next hnext => StreamState.showText_position hnext mnemonic bytes
  | _ => cases hn

/-- Apart from text instructions only the opening one changes the text position. -/
theorem execute_position_eq {mnemonic : String} {instruction : Instruction}
    (hn : instruction.operator.needsTextObject = false)
    (hb : instruction.operator ≠ .beginText) :
    (setup.execute forms mnemonic state instruction).state.position = state.position := by
  cases instruction with
  | beginText => exact absurd rfl hb
  | restoreState =>
    rw [execute]
    cases state.stack.pop <;> rfl
  | setParameters name =>
    rw [execute, StreamState.setParameters]
    rcases state.activeResources.parameters? name with _ | ⟨_ | ⟨font, size⟩⟩ <;> rfl
  | setFont name size =>
    rw [execute, StreamState.setFont]
    cases state.activeResources.font? name <;> rfl
  | invokeXObject name => rw [execute, invokeXObject_state]
  | endText | moveText | moveTextSetLeading | setTextMatrix | nextLine | showText
  | showTextArray | nextLineShowText | nextLineShowTextSpaced => cases hn
  | _ => rfl

/-- An instruction that succeeds leaves a text object open if it opens one, or if one was
open and it does not close it; none is open where it opens one. -/
theorem execute_textObject {mnemonic : String} {instruction : Instruction}
    (ht : instruction.operator.needsTextObject = true → state.position ≠ none)
    (hs : (setup.execute forms mnemonic state instruction).error = none) :
    (instruction.operator = .beginText → state.position = none) ∧
    ((setup.execute forms mnemonic state instruction).state.position ≠ none ↔
      instruction.operator = .beginText ∨
        instruction.operator ≠ .endText ∧ state.position ≠ none) := by
  by_cases hb : instruction.operator = .beginText
  · have hmade : instruction = .beginText := by
      cases instruction <;> first | rfl | cases hb
    subst hmade
    rw [execute] at hs ⊢
    cases hp : state.position with
    | some position =>
      rw [hp] at hs
      cases hs
    | none => exact ⟨fun _ => rfl, iff_of_true (Option.some_ne_none _) (Or.inl rfl)⟩
  refine ⟨fun h => absurd h hb, ?_⟩
  by_cases he : instruction.operator = .endText
  · have hmade : instruction = .endText := by
      cases instruction <;> first | rfl | cases he
    subst hmade
    refine iff_of_false (fun h => h rfl) ?_
    rintro (hopen | ⟨hclose, -⟩)
    · cases hopen
    · exact hclose rfl
  simp only [hb, false_or, ne_eq, he, not_false_eq_true, true_and]
  cases hn : instruction.operator.needsTextObject with
  | true => exact iff_of_true (execute_position_ne_none hn he (ht hn)) (ht hn)
  | false => rw [execute_position_eq hn hb]

section Standard

variable (hr : setup.registry = .standard)
include hr

/-- An operation that succeeds stands where it may, and leaves a text object open if it opens
one, or if one was open and it does not close it. -/
theorem step_textObject {operation : Operation}
    (hs : (setup.step forms state operation).error = none) :
    (operation.operator ∈ Operation.textMnemonics → state.position ≠ none) ∧
    (operation.operator = "BT" → state.position = none) ∧
    ((setup.step forms state operation).state.position ≠ none ↔
      operation.operator = "BT" ∨ operation.operator ≠ "ET" ∧ state.position ≠ none) := by
  have hb : operation.operator = "BT" ↔
      setup.registry.lookup? operation.operator = some .beginText := by
    rw [hr, Registry.lookup?_eq_some_iff, Operator.mnemonic]
  have hc : operation.operator ≠ "ET" ↔
      setup.registry.lookup? operation.operator ≠ some .endText := by
    rw [hr, ne_eq, ne_eq, Registry.lookup?_eq_some_iff, Operator.mnemonic]
  rw [Operation.mem_textMnemonics_iff, ← hr]
  rcases step_cases setup forms state operation with
    ⟨hl, he⟩ | ⟨operator, hl, ⟨_, _, he⟩ | ⟨ht, ⟨_, _, he⟩ | ⟨instruction, hi, he⟩⟩⟩
  · rw [hb, hc, hl, he]
    refine ⟨fun ⟨_, hnone, _⟩ => (nomatch hnone), nofun, ?_⟩
    simp only [reduceCtorEq, false_or, ne_eq, not_false_eq_true, true_and]
    rfl
  · rw [he] at hs
    cases hs
  · rw [he] at hs
    cases hs
  · have hop : instruction.operator = operator := Instruction.operator_of_read hi
    subst hop
    rw [hb, hc, hl, ne_eq (some _), Option.some_inj, Option.some_inj]
    rw [he] at hs ⊢
    refine ⟨fun ⟨operator, hsome, hn⟩ => ?_, execute_textObject ht hs⟩
    exact ht (Option.some.inj hsome ▸ hn)

/-- From outside of a text object a run that succeeds ends inside of one exactly if the last
opening or closing is an opening. -/
theorem runFrom_inText {count : Nat} {operations : List Operation} (hp : state.position = none)
    (hs : (setup.runFrom forms count state operations).error = none) :
    (setup.runFrom forms count state operations).state.position ≠ none ↔
      Operation.InText operations := by
  induction operations using List.reverseRecOn with
  | nil => exact iff_of_false (fun h => h hp) Operation.not_inText_nil
  | append_singleton before operation ih =>
    obtain ⟨hbefore, hstep⟩ := runFrom_reaches hs
    rw [runFrom_concat_state hs, (step_textObject hr hstep).2.2, ih hbefore,
      Operation.inText_concat]

/-- From outside of a text object a run that succeeds has its text objects bracketed. -/
theorem runFrom_bracketed {count : Nat} {operations : List Operation}
    (hp : state.position = none)
    (hs : (setup.runFrom forms count state operations).error = none) :
    Operation.Bracketed operations := by
  have hinside (before : List Operation) (operation : Operation) (after : List Operation)
      (hsplit : operations = before ++ operation :: after)
      (hm : operation.operator ∈ Operation.textMnemonics) : Operation.InText before := by
    rw [hsplit] at hs
    obtain ⟨hbefore, hstep⟩ := runFrom_reaches hs
    exact (runFrom_inText hr hp hbefore).1 ((step_textObject hr hstep).1 hm)
  refine ⟨Operation.takeTurns_of_inText (fun before operation after hsplit hb => ?_)
    fun before operation after hsplit hc => ?_, hinside⟩
  · rw [hsplit] at hs
    obtain ⟨hbefore, hstep⟩ := runFrom_reaches hs
    rw [← runFrom_inText hr hp hbefore, not_not]
    exact (step_textObject hr hstep).2.1 hb
  · exact hinside before operation after hsplit (hc ▸ List.mem_cons_self)

end Standard

/-- The form that an operation enters where forms may nest the given number of levels deep:
the state that it starts in, and its operations. -/
def enteredForm? (setup : Setup) (levels : Nat) (state : StreamState) (operation : Operation) :
    Option (StreamState × List Operation) :=
  match levels, operation.operator, operation.operands with
  | _ + 1, "Do", [.name name] =>
    match state.activeResources.xobject? name with
    | some (.form content matrix own) =>
      if setup.limits.processForms then
        some (state.enterForm matrix own, Operation.readAll content)
      else none
    | _ => none
  | _, _, _ => none

/-- The operation that a run fails at first, and the operations before it in its own stream,
which is the stream that runs or one of a form that was entered. -/
inductive FirstFailure (setup : Setup) :
    Nat → Nat → StreamState → List Operation → List Operation → Operation → Prop where
  /-- An operation of the stream fails by itself. -/
  | own {levels count : Nat} {state : StreamState} {before after : List Operation}
      {operation : Operation} {error : Error}
      (hf : FailsAt setup (setup.formsAt levels) count state before operation error)
      (hn : setup.enteredForm? levels
        (setup.runFrom (setup.formsAt levels) count state before).state operation = none) :
      FirstFailure setup levels count state (before ++ operation :: after) before operation
  /-- An invocation fails because the form that it enters fails. -/
  | form {levels count : Nat} {state inner : StreamState}
      {earlier after operations before : List Operation} {invocation operation : Operation}
      {error : Error}
      (hf : FailsAt setup (setup.formsAt (levels + 1)) count state earlier invocation error)
      (he : setup.enteredForm? (levels + 1)
        (setup.runFrom (setup.formsAt (levels + 1)) count state earlier).state invocation =
          some (inner, operations))
      (hi : FirstFailure setup levels 0 inner operations before operation) :
      FirstFailure setup (levels + 1) count state (earlier ++ invocation :: after) before
        operation

end Setup

/-- The failure is one of text objects. -/
def Outcome.ViolatesText (outcome : Outcome) : Prop :=
  ∃ mnemonic reason, outcome.error = some (.textObjectViolation mnemonic reason)

namespace Setup

variable {setup : Setup} {levels : Nat} {state inner : StreamState} {operation : Operation}
  {operations : List Operation}

/-- Only an invocation of a form enters one, where forms may be run and nest deeper. -/
theorem of_enteredForm?
    (he : setup.enteredForm? levels state operation = some (inner, operations)) :
    ∃ lower name content matrix own, levels = lower + 1 ∧ operation = ⟨"Do", [.name name]⟩ ∧
      state.activeResources.xobject? name = some (.form content matrix own) ∧
      setup.limits.processForms = true ∧ inner = state.enterForm matrix own ∧
      operations = Operation.readAll content := by
  obtain ⟨mnemonic, operands⟩ := operation
  unfold enteredForm? at he
  split at he
  · rename_i _ _ _ lower name hm ho
    cases hm
    cases ho
    split at he
    · rename_i content matrix own hx
      split at he
      · rename_i hp
        cases he
        exact ⟨lower, name, content, matrix, own, rfl, rfl, hx, hp, rfl, rfl⟩
      · cases he
    · cases he
  · cases he

/-- A form starts outside of a text object. -/
theorem enteredForm?_position
    (he : setup.enteredForm? levels state operation = some (inner, operations)) :
    inner.position = none := by
  obtain ⟨_, _, _, _, _, -, -, -, -, rfl, -⟩ := of_enteredForm? he
  rfl

/-- Invoking what is not a form, or may not be entered, has nothing to do with text objects. -/
theorem invokeXObject_not_violatesText {name : String}
    (hn : setup.enteredForm? levels state ⟨"Do", [.name name]⟩ = none) :
    ¬(setup.invokeXObject (setup.formsAt levels) state name).ViolatesText := by
  rintro ⟨mnemonic, reason, he⟩
  unfold invokeXObject at he
  cases hx : state.activeResources.xobject? name with
  | none =>
    rw [hx] at he
    cases he
  | some xobject =>
    rw [hx] at he
    cases xobject with
    | other subtype => cases he
    | form content matrix own =>
      dsimp only at he
      split at he
      · rename_i hp
        cases levels with
        | zero => cases he
        | succ lower =>
          simp only [enteredForm?, hx, hp, if_true, reduceCtorEq] at hn
      · cases he

section Standard

variable (hr : setup.registry = .standard)
include hr

/-- An operation that enters a form fails as the form does. -/
theorem step_error_of_enteredForm?
    (he : setup.enteredForm? (levels + 1) state operation = some (inner, operations)) :
    (setup.step (setup.formsAt (levels + 1)) state operation).error =
      (setup.runFrom (setup.formsAt levels) 0 inner operations).error := by
  obtain ⟨_, _, _, _, _, -, rfl, hx, hp, rfl, rfl⟩ := of_enteredForm? he
  rw [step_form hr hp hx]

/-- An operation that enters no form fails for want of order exactly if it stands where it may
not: a text operator outside of a text object, or a well-formed opening inside of one. -/
theorem step_violatesText_iff (hn : setup.enteredForm? levels state operation = none) :
    (setup.step (setup.formsAt levels) state operation).ViolatesText ↔
      operation.operator ∈ Operation.textMnemonics ∧ state.position = none ∨
        operation.operator = "BT" ∧ operation.operands = [] ∧ state.position ≠ none := by
  constructor
  · rintro ⟨mnemonic, reason, he⟩
    rcases step_cases setup (setup.formsAt levels) state operation with
      ⟨hl, hs⟩ | ⟨operator, hl, ⟨hneeds, hp, hs⟩ | ⟨ht, ⟨error, hread, hs⟩ |
        ⟨instruction, hi, hs⟩⟩⟩
    · rw [hs] at he
      cases he
    · rw [hr] at hl
      exact Or.inl ⟨Operation.mem_textMnemonics_iff.2 ⟨operator, hl, hneeds⟩, hp⟩
    · rw [hs] at he
      cases he
      obtain ⟨reason', hreason⟩ :=
        Instruction.complains_read operator operation.operands _ hread
      cases hreason
    · have hop : instruction.operator = operator := Instruction.operator_of_read hi
      subst hop
      rw [hr] at hl
      have hm := Registry.eq_mnemonic_of_lookup? hl
      rw [hs] at he
      rcases execute_error ht he with ⟨rfl, hpop⟩ | ⟨_, _, herror⟩ | ⟨rfl, hp, -⟩ |
        ⟨_, _, -, herror⟩ | ⟨name, rfl⟩
      · cases (GraphicsStack.pop_eq_error_iff.1 hpop).2
      · cases herror
      · exact Or.inr ⟨hm, (Instruction.of_noOperands hi).1, hp⟩
      · cases herror
      · obtain ⟨operator, operands⟩ := operation
        obtain ⟨_, hone, hmade⟩ := Instruction.of_oneName hi
        cases hmade
        cases hm
        cases hone
        exact absurd ⟨mnemonic, reason, he⟩ (invokeXObject_not_violatesText hn)
  · rintro (⟨hm, hp⟩ | ⟨hb, ho, hp⟩)
    · obtain ⟨operator, hl, hneeds⟩ := Operation.mem_textMnemonics_iff.1 hm
      rw [← hr] at hl
      refine ⟨operation.operator, "outside of a BT/ET text object", ?_⟩
      rw [step, hl]
      simp only [hneeds, hp, Option.isNone_none, Bool.and_true, if_true]
      rfl
    · obtain ⟨position, hp⟩ := Option.ne_none_iff_exists'.1 hp
      obtain ⟨operator, operands⟩ := operation
      cases hb
      cases ho
      have hread : Instruction.read "BT" .beginText [] = .ok .beginText := rfl
      have hfree : Operator.beginText.needsTextObject = true → state.position ≠ none := by
        intro h
        cases h
      have hstep : setup.step (setup.formsAt levels) state ⟨"BT", []⟩ =
          setup.execute (setup.formsAt levels) "BT" state .beginText :=
        step_standard hr .beginText hfree hread
      refine ⟨"BT", "nested BT", ?_⟩
      rw [hstep, execute, hp]
      rfl

/-- An operation that is reached and enters no form fails for want of order exactly if it is
misplaced after those before it. -/
theorem violatesText_iff_misplaced {count : Nat} {before : List Operation}
    (hp : state.position = none)
    (hs : (setup.runFrom (setup.formsAt levels) count state before).error = none)
    (hn : setup.enteredForm? levels
      (setup.runFrom (setup.formsAt levels) count state before).state operation = none) :
    (setup.step (setup.formsAt levels)
        (setup.runFrom (setup.formsAt levels) count state before).state operation).ViolatesText ↔
      Operation.Misplaced before operation := by
  have hopen := runFrom_inText hr hp hs
  rw [step_violatesText_iff hr hn, Operation.Misplaced, ← hopen, not_not]

/-- A run that fails, if not for the number of its operations, has a first failing operation.
The levels that forms may nest carry the induction. -/
theorem exists_firstFailure {count : Nat} {error : Error}
    (hlimit : ∀ limit, error ≠ .operationLimitExceeded limit)
    (he : (setup.runFrom (setup.formsAt levels) count state operations).error = some error) :
    ∃ before operation, FirstFailure setup levels count state operations before operation := by
  induction levels generalizing count state operations with
  | zero =>
    obtain ⟨before, operation, after, rfl, hfails⟩ := exists_failsAt hlimit he
    exact ⟨before, operation, .own hfails rfl⟩
  | succ levels ih =>
    obtain ⟨before, operation, after, rfl, hfails⟩ := exists_failsAt hlimit he
    cases hn : setup.enteredForm? (levels + 1)
        (setup.runFrom (setup.formsAt (levels + 1)) count state before).state operation with
    | none => exact ⟨before, operation, .own hfails hn⟩
    | some entered =>
      have hinner := hfails.failed
      rw [step_error_of_enteredForm? hr hn] at hinner
      obtain ⟨earlier, failing, hfirst⟩ := ih hinner
      exact ⟨earlier, failing, .form hfails hn hfirst⟩

/-- A run that fails does so for want of order exactly if its first failing operation is
misplaced. -/
theorem FirstFailure.violatesText_iff {count : Nat} {before : List Operation}
    (hf : FirstFailure setup levels count state operations before operation)
    (hp : state.position = none) :
    (setup.runFrom (setup.formsAt levels) count state operations).ViolatesText ↔
      Operation.Misplaced before operation := by
  induction hf with
  | own hfails hn =>
    rw [← violatesText_iff_misplaced hr hp hfails.reached hn, Outcome.ViolatesText,
      Outcome.ViolatesText, hfails.runFrom_error, hfails.failed]
  | form hfails hn _ ih =>
    rw [← ih (enteredForm?_position hn), Outcome.ViolatesText, Outcome.ViolatesText,
      hfails.runFrom_error, ← hfails.failed, step_error_of_enteredForm? hr hn]

/-- Text objects are bracketed. From outside of a text object, as pages and forms start, a run
that succeeds opens and closes text objects in turns and keeps its text operators inside of
them, and it ends inside of one exactly if it opened one last. A run that fails for want of that
order has an operation that it fails at first, in its own stream or in a form; and with that
operation it fails for want of order exactly if the operation is misplaced in its stream. -/
theorem runFrom_textObjects {count : Nat} (hp : state.position = none) :
    ((setup.runFrom (setup.formsAt levels) count state operations).error = none →
      Operation.Bracketed operations ∧
        ((setup.runFrom (setup.formsAt levels) count state operations).state.position ≠ none ↔
          Operation.InText operations)) ∧
    ((setup.runFrom (setup.formsAt levels) count state operations).ViolatesText →
      ∃ before operation, FirstFailure setup levels count state operations before operation) ∧
    ∀ before operation, FirstFailure setup levels count state operations before operation →
      ((setup.runFrom (setup.formsAt levels) count state operations).ViolatesText ↔
        Operation.Misplaced before operation) := by
  refine ⟨fun hs => ⟨runFrom_bracketed hr hp hs, runFrom_inText hr hp hs⟩,
    fun ⟨_, _, he⟩ => exists_firstFailure hr ?_ he, fun _ _ hf => hf.violatesText_iff hr hp⟩
  exact nofun

end Standard

/-- A text object that is closed is bracketed; a run that opens one in another one fails first
at a misplaced operation. -/
theorem runFrom_textObjects_nested :
    standard.registry = .standard ∧ (StreamState.idle .initial).position = none ∧
    Operation.Bracketed [⟨"BT", []⟩, ⟨"T*", []⟩, ⟨"ET", []⟩] ∧
    ∃ before operation, FirstFailure standard 8 0 (.idle .initial)
        [⟨"q", []⟩, ⟨"BT", []⟩, ⟨"BT", []⟩] before operation ∧
      Operation.Misplaced before operation := by
  have hr : standard.registry = .standard := rfl
  have hp : (StreamState.idle .initial).position = none := rfl
  have hclosed := @runFrom_textObjects standard 8 (.idle .initial)
    [⟨"BT", []⟩, ⟨"T*", []⟩, ⟨"ET", []⟩] hr 0 hp
  have hnested := @runFrom_textObjects standard 8 (.idle .initial)
    [⟨"q", []⟩, ⟨"BT", []⟩, ⟨"BT", []⟩] hr 0 hp
  have hviolates : (standard.runFrom (standard.formsAt 8) 0 (.idle .initial)
      [⟨"q", []⟩, ⟨"BT", []⟩, ⟨"BT", []⟩]).ViolatesText := ⟨"BT", "nested BT", rfl⟩
  obtain ⟨before, operation, hfirst⟩ := hnested.2.1 hviolates
  exact ⟨hr, hp, (hclosed.1 rfl).1, before, operation, hfirst,
    (hnested.2.2 before operation hfirst).1 hviolates⟩

end Setup

end PageText
