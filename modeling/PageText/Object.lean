import PageText.Number.Binary32

/-!
# Objects

Operands, resource dictionaries, fonts and pages are all values of one dynamic
type, `Object`. A dictionary is a list of entries in which a later insertion of a
key replaces the earlier one in place, so no key occurs twice in what the readers
build. Following references stays in `PageText.Object.Resolve`.
-/

namespace PageText

/-- The number and generation of an indirect object. -/
structure Ref where
  /-- Object number. -/
  id : Nat
  /-- Generation number. -/
  generation : Nat
  deriving DecidableEq, Repr

/-- The written form of a reference. -/
def Ref.text (r : Ref) : String := s!"{r.id} {r.generation} R"

/-- A value of the page description format. -/
inductive Object where
  /-- The absent value. -/
  | null
  /-- A truth value. -/
  | bool (value : Bool)
  /-- An integer of the signed 64-bit range. -/
  | int (value : Int)
  /-- A double-precision number. -/
  | real (value : Float)
  /-- A byte string, escapes already decoded. -/
  | str (bytes : List UInt8)
  /-- A name without its slash, escapes already decoded. -/
  | name (text : String)
  /-- A sequence of objects. -/
  | array (items : List Object)
  /-- Entries by key. -/
  | dict (entries : List (String × Object))
  /-- Entries by key, and data still encoded by the filters they name. -/
  | stream (entries : List (String × Object)) (data : List UInt8)
  /-- A reference to an indirect object. -/
  | ref (target : Ref)

/-- Entries by key. -/
abbrev Dict := List (String × Object)

namespace Dict

/-- The value of a key. -/
def get? (d : Dict) (key : String) : Option Object := d.lookup key

/-- Set the value of a key, in place if the key is there and last if not. -/
def insert : Dict → String → Object → Dict
  | [], key, value => [(key, value)]
  | entry :: rest, key, value =>
    if entry.1 = key then (key, value) :: rest else entry :: insert rest key value

end Dict

namespace Object

/-- The name of the type of an object, as reports give it. -/
def typeName : Object → String
  | null => "Null"
  | bool _ => "Boolean"
  | int _ => "Integer"
  | real _ => "Real"
  | str _ => "String"
  | name _ => "Name"
  | array _ => "Array"
  | dict _ => "Dictionary"
  | stream .. => "Stream"
  | ref _ => "Reference"

/-- The integer held, if it is one. -/
def asInt? : Object → Option Int
  | int n => some n
  | _ => none

/-- The number held, integer or real, rounded once to single precision. -/
def asNumber? : Object → Option Float32
  | int n => some (Number.Binary32.ofInteger n)
  | real x => some (Number.Binary32.narrow x)
  | _ => none

/-- The name held, if it is one. -/
def asName? : Object → Option String
  | name text => some text
  | _ => none

/-- The byte string held, if it is one. -/
def asBytes? : Object → Option (List UInt8)
  | str bytes => some bytes
  | _ => none

/-- The items held, if it is an array. -/
def asArray? : Object → Option (List Object)
  | array items => some items
  | _ => none

/-- The entries held by a dictionary or a stream. -/
def asDict? : Object → Option Dict
  | dict entries => some entries
  | stream entries _ => some entries
  | _ => none

/-- The reference held, if it is one. -/
def asRef? : Object → Option Ref
  | ref target => some target
  | _ => none

/-- An object that holds a reference is one. -/
theorem eq_ref_of_asRef? {object : Object} {target : Ref} (h : object.asRef? = some target) :
    object = .ref target := by
  cases object with
  | ref found =>
    cases h
    rfl
  | _ => cases h

/-- Whether this is the absent value. -/
def isNull : Object → Bool
  | null => true
  | _ => false

end Object

end PageText
