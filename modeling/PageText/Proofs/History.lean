import PageText.Extract.MarkedText
import PageText.Extract.PlainText
import PageText.Interpreter.Processor

/-!
# Processors without memory

Nothing that a processor did before, with whatever outcome, shows in the next page that it
processes: neither in the state that the page leaves nor in what the listener has then. The
reason is that a call changes nothing that a reset does not take back. For the listeners this
is a law of its own, which each of them satisfies.
-/

namespace PageText

/-- A listener whose resets take back everything since it was built. -/
class LawfulListener (L : Type) [Listener L] : Prop where
  /-- A reset takes back what an event changed. -/
  reset_receive (listener : L) (event : Event) :
    Listener.reset (Listener.receive listener event) = Listener.reset listener
  /-- A second reset changes nothing. -/
  reset_reset (listener : L) :
    Listener.reset (Listener.reset listener) = Listener.reset listener

instance : LawfulListener Collector where
  reset_receive _ _ := rfl
  reset_reset _ := rfl

/-- Events that a listener passes over make no difference to it, where no event changes which
ones these are. -/
theorem Listener.receiveAll_filter {L : Type} [Listener L] {Takes : L → Event → Prop}
    [∀ listener, DecidablePred (Takes listener)]
    (hstays : ∀ listener event other,
      Takes (Listener.receive listener event) other ↔ Takes listener other)
    (hpasses : ∀ listener event, ¬Takes listener event →
      Listener.receive listener event = listener) (listener : L) (events : List Event) :
    Listener.receiveAll listener (events.filter (Takes listener)) =
      Listener.receiveAll listener events := by
  induction events generalizing listener with
  | nil => rfl
  | cons event events ih =>
    rw [Listener.receiveAll_cons, List.filter_cons]
    split
    · rw [Listener.receiveAll_cons, ← ih]
      refine congrArg _ (List.filter_congr fun other _ => ?_)
      rw [decide_eq_decide, hstays]
    · rename_i hdrop
      rw [hpasses listener event (mt decide_eq_true hdrop), ih]

namespace Extract

/-- The options of plain text are those that it was built with. -/
theorem PlainText.options_receive (extractor : PlainText) (event : Event) :
    (extractor.receive event).options = extractor.options := by
  unfold receive
  split <;> rfl

/-- Events change none of the options of plain text. -/
theorem PlainText.options_receiveAll (extractor : PlainText) (events : List Event) :
    (Listener.receiveAll extractor events).options = extractor.options := by
  induction events generalizing extractor with
  | nil => rfl
  | cons event events ih =>
    rw [Listener.receiveAll_cons, ih]
    exact extractor.options_receive event

instance : LawfulListener PlainText where
  reset_receive extractor event := congrArg PlainText.empty (extractor.options_receive event)
  reset_reset _ := rfl

/-- The options of marked text are those that it was built with, and so is its use of tags. -/
theorem MarkedText.options_receive (extractor : MarkedText) (event : Event) :
    (extractor.receive event).options = extractor.options ∧
      (extractor.receive event).markup = extractor.markup := by
  unfold receive
  split <;> exact ⟨rfl, rfl⟩

/-- Events change neither the options of marked text nor its use of tags. -/
theorem MarkedText.options_receiveAll (extractor : MarkedText) (events : List Event) :
    (Listener.receiveAll extractor events).options = extractor.options ∧
      (Listener.receiveAll extractor events).markup = extractor.markup := by
  induction events generalizing extractor with
  | nil => exact ⟨rfl, rfl⟩
  | cons event events ih =>
    obtain ⟨hoptions, hmarkup⟩ := extractor.options_receive event
    rw [Listener.receiveAll_cons]
    exact ⟨(ih _).1.trans hoptions, (ih _).2.trans hmarkup⟩

instance : LawfulListener MarkedText where
  reset_receive extractor event := by
    obtain ⟨hoptions, hmarkup⟩ := extractor.options_receive event
    exact (congrArg (MarkedText.empty · _) hoptions).trans (congrArg _ hmarkup)
  reset_reset _ := rfl

end Extract

namespace Processor

/-- What can be asked of a processor. -/
inductive Call where
  /-- Process page content. -/
  | process (content : List UInt8) (resources : Resources)
  /-- Process operations. -/
  | processOperations (operations : List Operation) (resources : Resources)
  /-- Run one operation without a reset. -/
  | invoke (operation : Operation)
  /-- Forget the last stream and its output. -/
  | reset

variable {L : Type} [Listener L]

/-- The processor after a call, whether that succeeds or not. -/
def after (processor : Processor L) : Call → Processor L
  | .process content resources => (processor.process content resources).1
  | .processOperations operations resources =>
    (processor.processOperations operations resources).1
  | .invoke operation => (processor.invoke operation).1
  | .reset => processor.reset

/-- Content is processed alike by processors that a reset makes equal. -/
theorem process_congr {processor processor' : Processor L}
    (h : processor.reset = processor'.reset) (content : List UInt8) (resources : Resources) :
    processor.process content resources = processor'.process content resources := by
  have hreset (processor : Processor L) : processor.process content resources =
      processor.reset.absorb (processor.reset.setup.run
        { processor.reset.state with resources := some resources }
        (Operation.readAll content)) := rfl
  rw [hreset processor, hreset processor', h]

section Lawful

variable [LawfulListener L]

/-- A reset takes back all the events that a listener received. -/
theorem reset_receiveAll (listener : L) (events : List Event) :
    Listener.reset (Listener.receiveAll listener events) = Listener.reset listener := by
  induction events generalizing listener with
  | nil => rfl
  | cons event events ih =>
    rw [Listener.receiveAll_cons, ih, LawfulListener.reset_receive]

/-- A reset takes back an outcome. -/
theorem reset_absorb (processor : Processor L) (outcome : Outcome) :
    (processor.absorb outcome).1.reset = processor.reset := by
  simp only [absorb, reset, reset_receiveAll]

/-- A second reset changes nothing. -/
theorem reset_reset (processor : Processor L) : processor.reset.reset = processor.reset := by
  simp only [reset, LawfulListener.reset_reset]

/-- A reset takes back a call. -/
theorem reset_after (processor : Processor L) (call : Call) :
    (processor.after call).reset = processor.reset := by
  cases call with
  | process content resources => exact (reset_absorb _ _).trans processor.reset_reset
  | processOperations operations resources =>
    exact (reset_absorb _ _).trans processor.reset_reset
  | invoke operation => exact reset_absorb _ _
  | reset => exact processor.reset_reset

/-- A reset takes back any sequence of calls. -/
theorem reset_foldl_after (processor : Processor L) (calls : List Call) :
    (calls.foldl after processor).reset = processor.reset := by
  induction calls generalizing processor with
  | nil => rfl
  | cons call calls ih => rw [List.foldl_cons, ih, reset_after]

/-- After any calls content is processed as if there had been none. -/
theorem process_foldl_after (processor : Processor L) (calls : List Call)
    (content : List UInt8) (resources : Resources) :
    (calls.foldl after processor).process content resources =
      processor.process content resources :=
  process_congr (processor.reset_foldl_after calls) content resources

end Lawful

/-- A processor has no memory of earlier streams: whatever it was called for, and however that
ended, it processes content as a newly built one with the same registry, limits, initial state
and options does. The error is the same, and so is the state that is left, and the listener
with its output, be it events, plain text or words. -/
theorem process_memoryless (setup : Setup) (initial : GraphicsState) (calls : List Call)
    (content : List UInt8) (resources : Resources) :
    (calls.foldl after (create setup initial Collector.empty)).process content resources =
        (create setup initial Collector.empty).process content resources ∧
    (∀ options : Extract.Options,
      (calls.foldl after (create setup initial (Extract.PlainText.empty options))).process content
          resources =
        (create setup initial (Extract.PlainText.empty options)).process content resources) ∧
    ∀ (options : Extract.Options) (markup : Bool),
      (calls.foldl after (create setup initial (Extract.MarkedText.empty options markup))).process
          content resources =
        (create setup initial (Extract.MarkedText.empty options markup)).process content
          resources :=
  ⟨process_foldl_after _ calls content resources,
    fun _ => process_foldl_after _ calls content resources,
    fun _ _ => process_foldl_after _ calls content resources⟩

end Processor

end PageText
