import PageText.Error
import PageText.Object

/-!
# Following references

An object may stand behind a chain of references. A resolver gives the object of
one reference; `resolve` follows the chain, and gives up after
`maxReferenceChain` turns, whatever the last turn found. Cycles thus end like any
chain that is too long.
-/

namespace PageText

/-- A source of indirect objects. -/
abbrev Resolver := Ref → Except Error Object

/-- The resolver of content without indirect objects. -/
def Resolver.none : Resolver := fun r => .error (.objectNotFound r.id r.generation)

namespace Object

/-- Number of turns that following a chain may take. -/
def maxReferenceChain : Nat := 32

/-- Follow references for at most the given number of turns. A turn either
returns a direct object or replaces a reference by its target. -/
def resolveWithin (resolver : Resolver) : Nat → Object → Except Error Object
  | 0, _ => .error (.recursionLimitExceeded maxReferenceChain)
  | turns + 1, .ref target => do
    let next ← resolver target
    resolveWithin resolver turns next
  | _ + 1, direct => .ok direct

/-- One turn is enough for an object that is no reference. -/
theorem resolveWithin_of_direct {resolver : Resolver} {object : Object}
    (h : object.asRef? = none) (turns : Nat) :
    resolveWithin resolver (turns + 1) object = .ok object := by
  cases object with
  | ref target => cases h
  | _ => rfl

/-- The object at the end of a chain of references. -/
def resolve (resolver : Resolver) (object : Object) : Except Error Object :=
  resolveWithin resolver maxReferenceChain object

end Object

namespace Dict

/-- The resolved value of a key, `none` when the key is absent. -/
def resolve? (d : Dict) (key : String) (resolver : Resolver) : Except Error (Option Object) :=
  match d.get? key with
  | none => .ok none
  | some value => some <$> value.resolve resolver

end Dict

end PageText
