import PageText.Proofs.Run
import PageText.Proofs.Writing

/-!
# Raised limits

A run under lower limits is the run under higher ones, or that run cut short by a limit.
The relation between the two outcomes is carried through every operation and, by
induction on the levels of nesting left, through every form. What else the limits are for
is not treated here.
-/

namespace PageText

/-- The two causes that come from a limit and not from the content. -/
def Error.isLimit : Error → Bool
  | .operationLimitExceeded _ => true
  | .recursionLimitExceeded _ => true
  | _ => false

/-- Limits that allow no more than others do, an absent bound allowing most. -/
structure Limits.AtMost (low high : Limits) : Prop where
  /-- Every bound on operations is there already, and no lower. -/
  operations : ∀ most ∈ high.maxOperations, ∃ least ∈ low.maxOperations, least ≤ most
  /-- Forms nest no deeper. -/
  formDepth : low.maxFormDepth ≤ high.maxFormDepth
  /-- Both run forms or both do not. -/
  processForms : low.processForms = high.processForms

/-- Limits allow no more than themselves. -/
theorem Limits.AtMost.refl (limits : Limits) : limits.AtMost limits :=
  ⟨fun most h => ⟨most, h, Nat.le_refl most⟩, Nat.le_refl _, rfl⟩

namespace Outcome

/-- The first outcome is the second one, or was cut short by a limit on the way to it. -/
inductive CutShort : Outcome → Outcome → Prop where
  /-- No limit was hit. -/
  | same (outcome : Outcome) : CutShort outcome outcome
  /-- A limit was hit after some of the events. -/
  | limit {low high : Outcome} {error : Error} (he : low.error = some error)
      (hl : error.isLimit = true) (hp : low.events <+: high.events) : CutShort low high

namespace CutShort

/-- A limit that is hit at once cuts anything short. -/
theorem failed {state : StreamState} {error : Error} (hl : error.isLimit = true)
    (high : Outcome) : CutShort (.failed state error) high :=
  .limit rfl hl List.nil_prefix

/-- What goes on from an outcome that was cut short is cut short as well. -/
theorem andThen {low high : Outcome} (h : CutShort low high)
    {next next' : StreamState → Outcome} (hn : ∀ state, CutShort (next state) (next' state)) :
    CutShort (low.andThen next) (high.andThen next') := by
  cases h with
  | limit he hl hp =>
    rw [andThen_of_error he]
    refine .limit he hl (hp.trans ?_)
    cases hh : high.error with
    | some error => simp only [andThen_of_error hh, List.prefix_refl]
    | none => simp only [andThen_of_success hh, List.prefix_append]
  | same =>
    cases hh : low.error with
    | some error =>
      rw [andThen_of_error hh, andThen_of_error hh]
      exact .same low
    | none =>
      rw [andThen_of_success hh, andThen_of_success hh]
      have hs := hn low.state
      generalize next low.state = after at hs
      generalize next' low.state = after' at hs
      cases hs with
      | same => exact .same _
      | limit he hl hp => exact .limit he hl ((List.prefix_append_right_inj _).2 hp)

/-- Keeping the caller's state does not undo a cut. -/
theorem withState {low high : Outcome} (h : CutShort low high) (state : StreamState) :
    CutShort { low with state := state } { high with state := state } := by
  cases h with
  | same => exact .same _
  | limit he hl hp => exact .limit he hl hp

/-- Without an error from a limit both outcomes are the same. -/
theorem eq {low high : Outcome} (h : CutShort low high)
    (hn : ∀ error ∈ low.error, error.isLimit = false) : high = low := by
  cases h with
  | same => rfl
  | limit he hl _ =>
    rw [hn _ he] at hl
    cases hl

/-- The events are a beginning of the events in any case. -/
theorem events_prefix {low high : Outcome} (h : CutShort low high) :
    low.events <+: high.events := by
  cases h with
  | same => exact List.prefix_refl _
  | limit _ _ hp => exact hp

end CutShort

end Outcome

/-- Runners of forms whose outcomes are cut short at most; where no form may be entered
at all, the attempt fails by a limit. -/
def FormRunner.CutShort : FormRunner → FormRunner → Prop
  | none, _ => True
  | some _, none => False
  | some low, some high =>
    ∀ state operations, (low state operations).CutShort (high state operations)

namespace Setup

variable {registry : Registry} {low high : Limits}

/-- A form is cut short where its run is, or where it may not be entered. -/
theorem invokeXObject_cutShort (h : low.AtMost high) {forms forms' : FormRunner}
    (hf : forms.CutShort forms') (state : StreamState) (name : String) :
    ((Setup.mk registry low).invokeXObject forms state name).CutShort
      ((Setup.mk registry high).invokeXObject forms' state name) := by
  unfold invokeXObject
  cases state.activeResources.xobject? name with
  | none => exact .same _
  | some xobject =>
    cases xobject with
    | other subtype => exact .same _
    | form content matrix own =>
      simp only [h.processForms]
      split
      · match forms, forms', hf with
        | none, _, _ => exact .failed rfl _
        | some run, some run', hf => exact (hf _ _).withState state
      · exact .same _

/-- One operation is cut short only through the form that it invokes. -/
theorem step_cutShort (h : low.AtMost high) {forms forms' : FormRunner}
    (hf : forms.CutShort forms') (state : StreamState) (operation : Operation) :
    ((Setup.mk registry low).step forms state operation).CutShort
      ((Setup.mk registry high).step forms' state operation) := by
  unfold step
  cases registry.lookup? operation.operator with
  | none => exact .same _
  | some operator =>
    dsimp only
    split
    · exact .same _
    · cases Instruction.read operation.operator operator operation.operands with
      | error error => exact .same _
      | ok instruction =>
        cases instruction with
        | invokeXObject name => exact invokeXObject_cutShort h hf state name
        | _ => exact .same _

/-- The number of operations is exceeded by a limit. -/
theorem isLimit_of_exceeds? {setup : Setup} {count : Nat} {error : Error}
    (h : setup.exceeds? count = some error) : error.isLimit = true := by
  unfold exceeds? at h
  split at h
  · cases h
  · split at h
    · cases h
      rfl
    · cases h

/-- A number of operations within the lower limits is within the higher ones. -/
theorem exceeds?_of_atMost (h : low.AtMost high) {count : Nat}
    (hl : (Setup.mk registry low).exceeds? count = none) :
    (Setup.mk registry high).exceeds? count = none := by
  unfold exceeds? at hl ⊢
  cases hm : high.maxOperations with
  | none => rfl
  | some most =>
    obtain ⟨least, hleast, hle⟩ := h.operations most hm
    rw [Option.mem_def] at hleast
    simp only [hleast, ite_eq_right_iff, reduceCtorEq, imp_false] at hl
    exact if_neg (by omega)

/-- Operations in order are cut short by their number, or where one of them is. -/
theorem runFrom_cutShort (h : low.AtMost high) {forms forms' : FormRunner}
    (hf : forms.CutShort forms') (count : Nat) (state : StreamState)
    (operations : List Operation) :
    ((Setup.mk registry low).runFrom forms count state operations).CutShort
      ((Setup.mk registry high).runFrom forms' count state operations) := by
  induction operations generalizing count state with
  | nil => exact .same _
  | cons operation operations ih =>
    rw [runFrom, runFrom]
    cases hl : (Setup.mk registry low).exceeds? count with
    | some error => exact .failed (isLimit_of_exceeds? hl) _
    | none =>
      rw [exceeds?_of_atMost h hl]
      exact (step_cutShort h hf state operation).andThen fun state => ih (count + 1) state

/-- Forms within forms are cut short at most where fewer levels are left or the limits
are lower. The induction is on the levels left. -/
theorem formsAt_cutShort (h : low.AtMost high) {levels levels' : Nat} (hl : levels ≤ levels') :
    ((Setup.mk registry low).formsAt levels).CutShort
      ((Setup.mk registry high).formsAt levels') := by
  induction levels generalizing levels' with
  | zero => exact trivial
  | succ levels ih =>
    obtain ⟨deeper, rfl⟩ : ∃ deeper, levels' = deeper + 1 := ⟨levels' - 1, by omega⟩
    exact fun state operations => runFrom_cutShort h (ih (by omega)) 0 state operations

/-- The run of a page is cut short at most. -/
theorem run_cutShort (h : low.AtMost high) (state : StreamState) (operations : List Operation) :
    ((Setup.mk registry low).run state operations).CutShort
      ((Setup.mk registry high).run state operations) :=
  runFrom_cutShort h (formsAt_cutShort h h.formDepth) 0 state operations

/-- A run of operations that succeeds does so with more levels of forms left as well. -/
theorem runFrom_formsAt_mono {setup : Setup} {levels levels' : Nat} (hl : levels ≤ levels')
    {count : Nat} {state : StreamState} {operations : List Operation}
    (hs : (setup.runFrom (setup.formsAt levels) count state operations).error = none) :
    setup.runFrom (setup.formsAt levels') count state operations =
      setup.runFrom (setup.formsAt levels) count state operations := by
  have hsame : setup.limits.AtMost setup.limits := Limits.AtMost.refl setup.limits
  have hforms : (setup.formsAt levels).CutShort (setup.formsAt levels') :=
    formsAt_cutShort hsame hl
  have hc : (setup.runFrom (setup.formsAt levels) count state operations).CutShort
      (setup.runFrom (setup.formsAt levels') count state operations) :=
    runFrom_cutShort hsame hforms count state operations
  refine hc.eq fun error he => ?_
  rw [hs] at he
  cases he

end Setup

/-- The same processor under other limits. -/
def Processor.withLimits {L : Type} (processor : Processor L) (limits : Limits) : Processor L :=
  { processor with setup := { processor.setup with limits := limits } }

/-- Raising limits does not change a run that did not hit them: its error, if any, its
events and its last state are the same. A run that did hit one delivered a beginning of
the events of the run under the higher limits; in the other case this holds as well. -/
theorem Processor.process_withLimits (processor : Processor Collector) {low high : Limits}
    (h : low.AtMost high) (content : List UInt8) (resources : Resources) :
    let first := (processor.withLimits low).process content resources
    let second := (processor.withLimits high).process content resources
    ((∀ error ∈ first.2, error.isLimit = false) →
      second.2 = first.2 ∧ second.1.listener.events = first.1.listener.events ∧
        second.1.state = first.1.state) ∧
      first.1.listener.events <+: second.1.listener.events := by
  intro first second
  have hc : ((processor.withLimits low).setup.run (.start processor.initial resources)
      (Operation.readAll content)).CutShort
        ((processor.withLimits high).setup.run (.start processor.initial resources)
          (Operation.readAll content)) := Setup.run_cutShort h _ _
  have hfirst := (processor.withLimits low).process_eq content resources rfl
  have hsecond := (processor.withLimits high).process_eq content resources rfl
  change first = _ at hfirst
  change second = _ at hsecond
  rw [hfirst, hsecond]
  constructor
  · intro hn
    have hsame := hc.eq hn
    exact ⟨congrArg Outcome.error hsame, congrArg Outcome.events hsame,
      congrArg Outcome.state hsame⟩
  · exact hc.events_prefix

/-- Operations that show two letters, one after the other. -/
def twoLetters : List Operation :=
  [⟨"BT", []⟩, ⟨"Tj", [.str [0x41]]⟩, ⟨"Tj", [.str [0x42]]⟩, ⟨"ET", []⟩]

/-- The operations are read from page content. -/
theorem readAll_twoLetters :
    Operation.readAll (Byte.ofAscii "BT (A) Tj (B) Tj ET ") = twoLetters := by
  have hblank : Token.Gap [0x20] := .blank (by decide)
  have hwritten : Operation.Written twoLetters (Byte.ofAscii "BT (A) Tj (B) Tj ET ") :=
    .cons (.operator "BT") hblank <| .cons (.literal [0x41]) hblank <|
      .cons (.operator "Tj") hblank <| .cons (.literal [0x42]) hblank <|
      .cons (.operator "Tj") hblank <| .cons (.operator "ET") hblank .nil
  have hwritable : ∀ operation ∈ twoLetters, operation.Writable := by
    simp only [twoLetters, List.forall_mem_cons]
    exact ⟨Operation.writable_bare .beginText, Operation.writable_showText [0x41],
      Operation.writable_showText [0x42], Operation.writable_bare .endText, by simp⟩
  exact Operation.readAll_of_written hwritable hwritten

/-- Under a limit of two operations the first letter of two is shown, which is a beginning of
what is shown without a limit; under one of four, which is not hit, nothing is missing. -/
theorem Processor.process_withLimits_default :
    let processor := create .standard
      { GraphicsState.initial with font := some (.simple (.plain "Mono" .winAnsi)) } Collector.empty
    let run (limits : Limits) :=
      (processor.withLimits limits).process (Byte.ofAscii "BT (A) Tj (B) Tj ET ") .empty
    (Limits.AtMost ⟨some 2, 1, true⟩ .default ∧ Limits.AtMost ⟨some 4, 1, true⟩ .default) ∧
      ((run ⟨some 2, 1, true⟩).2 = some (.operationLimitExceeded 2) ∧
        (run ⟨some 2, 1, true⟩).1.listener.events.map Event.text = ["A"] ∧
        (run ⟨some 2, 1, true⟩).1.listener.events <+: (run .default).1.listener.events) ∧
      (run ⟨some 4, 1, true⟩).2 = none ∧
        (run ⟨some 4, 1, true⟩).1.listener.events.map Event.text = ["A", "B"] ∧
        (run .default).2 = (run ⟨some 4, 1, true⟩).2 ∧
        (run .default).1.listener.events = (run ⟨some 4, 1, true⟩).1.listener.events ∧
        (run .default).1.state = (run ⟨some 4, 1, true⟩).1.state := by
  intro processor run
  have hunbounded (count : Nat) : Limits.AtMost ⟨some count, 1, true⟩ .default := by
    refine ⟨fun most hm => ?_, show 1 ≤ 8 by decide, rfl⟩
    cases hm
  have hrun (limits : Limits) :
      run limits = (processor.withLimits limits).processOperations twoLetters .empty := by
    simp only [run, process, readAll_twoLetters]
  have hsucceeds : (run ⟨some 4, 1, true⟩).2 = none := by
    rw [hrun]
    rfl
  have hnone : ∀ error ∈ (run ⟨some 4, 1, true⟩).2, error.isLimit = false := by
    intro error herror
    rw [hsucceeds] at herror
    cases herror
  obtain ⟨-, hprefix⟩ := process_withLimits processor (hunbounded 2) _ _
  obtain ⟨hsame, -⟩ := process_withLimits processor (hunbounded 4) _ _
  refine ⟨⟨hunbounded 2, hunbounded 4⟩, ⟨?_, ?_, hprefix⟩, hsucceeds, ?_, hsame hnone⟩
  · rw [hrun]
    rfl
  · rw [hrun]
    decide +kernel
  · rw [hrun]
    decide +kernel

end PageText
