import PageText.Interpreter.Run

/-!
# Processors and listeners

A listener turns events into output. A processor keeps a listener and the state of
the stream that ran last; starting a stream resets both, so nothing of an earlier
stream is left. Listeners cannot influence a run.
-/

namespace PageText

/-- Something that receives events. -/
class Listener (L : Type) where
  /-- Drop all output. -/
  reset : L → L
  /-- Take in an event. -/
  receive : L → Event → L

/-- Hand over events in order. -/
def Listener.receiveAll {L : Type} [Listener L] (listener : L) (events : List Event) : L :=
  events.foldl Listener.receive listener

/-- The first event comes first. -/
theorem Listener.receiveAll_cons {L : Type} [Listener L] (listener : L) (event : Event)
    (events : List Event) :
    Listener.receiveAll listener (event :: events) =
      Listener.receiveAll (Listener.receive listener event) events := rfl

/-- Events can be handed over in two parts. -/
theorem Listener.receiveAll_append {L : Type} [Listener L] (listener : L)
    (first second : List Event) :
    Listener.receiveAll listener (first ++ second) =
      Listener.receiveAll (Listener.receiveAll listener first) second :=
  List.foldl_append

/-- The listener that keeps all events. -/
structure Collector where
  /-- The events received, in order. -/
  events : List Event

/-- The collector without events. -/
def Collector.empty : Collector := ⟨[]⟩

instance : Listener Collector where
  reset _ := .empty
  receive collector event := ⟨collector.events ++ [event]⟩

/-- An interpreter with a listener. -/
structure Processor (L : Type) where
  /-- Registry and limits. -/
  setup : Setup
  /-- The graphics state that every stream starts with. -/
  initial : GraphicsState
  /-- The state of the stream that ran last. -/
  state : StreamState
  /-- The receiver of events. -/
  listener : L

namespace Processor

/-- A processor that has not run anything. -/
def create {L : Type} (setup : Setup) (initial : GraphicsState) (listener : L) : Processor L :=
  ⟨setup, initial, .idle initial, listener⟩

/-- Take over an outcome, and report its error. -/
def absorb {L : Type} [Listener L] (processor : Processor L) (outcome : Outcome) :
    Processor L × Option Error :=
  ({ processor with
      state := outcome.state
      listener := Listener.receiveAll processor.listener outcome.events },
    outcome.error)

/-- Forget the last stream and its output. -/
def reset {L : Type} [Listener L] (processor : Processor L) : Processor L :=
  { processor with
    state := .idle processor.initial
    listener := Listener.reset processor.listener }

/-- Run one operation without a reset. -/
def invoke {L : Type} [Listener L] (processor : Processor L) (operation : Operation) :
    Processor L × Option Error :=
  processor.absorb (processor.setup.invoke processor.state operation)

/-- Run operations as a stream of their own. -/
def processOperations {L : Type} [Listener L] (processor : Processor L)
    (operations : List Operation) (resources : Resources) : Processor L × Option Error :=
  let fresh := processor.reset
  fresh.absorb (fresh.setup.run { fresh.state with resources := some resources } operations)

/-- Run the operations of page content. -/
def process {L : Type} [Listener L] (processor : Processor L) (content : List UInt8)
    (resources : Resources) : Processor L × Option Error :=
  processor.processOperations (Operation.readAll content) resources

end Processor

end PageText
