import PageText.Error
import PageText.Graphics.State

/-!
# Saved graphics states

A stream has a base state, which is never given up, and the states saved since.
The top of the stack is the current state.
-/

namespace PageText

/-- A base state with saved states on it. -/
structure GraphicsStack where
  /-- The state at the bottom. -/
  base : GraphicsState
  /-- The states above it, the current one first. -/
  saved : List GraphicsState

namespace GraphicsStack

/-- The stack of a single state. -/
def ofBase (base : GraphicsState) : GraphicsStack := ⟨base, []⟩

/-- The current state. -/
def top (stack : GraphicsStack) : GraphicsState := stack.saved.headD stack.base

/-- Number of states, the base included. -/
def depth (stack : GraphicsStack) : Nat := stack.saved.length + 1

/-- Save the current state: a copy of it becomes the top. -/
def push (stack : GraphicsStack) : GraphicsStack := { stack with saved := stack.top :: stack.saved }

/-- Return to the state saved last. The base cannot be given up. -/
def pop (stack : GraphicsStack) : Except Error GraphicsStack :=
  match stack.saved with
  | [] => .error .stackUnderflow
  | _ :: rest => .ok { stack with saved := rest }

/-- Replace the current state. -/
def setTop (stack : GraphicsStack) (state : GraphicsState) : GraphicsStack :=
  match stack.saved with
  | [] => { stack with base := state }
  | _ :: rest => { stack with saved := state :: rest }

/-- Change the current state. -/
def modifyTop (stack : GraphicsStack) (change : GraphicsState → GraphicsState) : GraphicsStack :=
  stack.setTop (change stack.top)

/-- Replacing the current state makes it current. -/
theorem top_setTop (stack : GraphicsStack) (state : GraphicsState) :
    (stack.setTop state).top = state := by
  obtain ⟨base, saved⟩ := stack
  cases saved <;> rfl

end GraphicsStack

end PageText
