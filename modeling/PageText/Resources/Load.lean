import PageText.Filter
import PageText.Resources

/-!
# Loading resources

A resource dictionary is read once, together with the resources of all forms in
it, so that the interpreter never follows a reference. Fonts and resources behind a
reference are read once and shared. A form that names resources still being read
is left without its own, as pages and their forms commonly share one dictionary; the
same happens past `maxNesting`. A font that cannot be loaded is left out. The order in
which entries are visited is a parameter: what is remembered depends on it.
-/

namespace PageText.Resources

/-- How deep resources of forms may nest in the resources of a page. -/
def maxNesting : Nat := 16

/-- An order in which entries are visited, which may be another one at every visit. -/
structure VisitOrder where
  /-- The entries of a dictionary as the visit of the given number meets them. -/
  arrange : Nat → Dict → Dict
  /-- Each entry is met once. -/
  perm : ∀ visit entries, (arrange visit entries).Perm entries

/-- Entries are visited as they are stored. -/
def VisitOrder.stored : VisitOrder := ⟨fun _ entries => entries, fun _ _ => List.Perm.refl _⟩

/-- What loading remembers. -/
structure Memory where
  /-- The fonts read so far, by reference. -/
  fonts : List (Ref × Font)
  /-- The resources read so far, by reference. -/
  resources : List (Ref × Resources)
  /-- The references of resources being read. -/
  loading : List Ref
  /-- How many dictionaries were visited. -/
  visits : Nat

/-- A loading step, which fails as a whole or goes on with what it remembers. -/
abbrev Loader (α : Type) := StateT Memory (Except Error) α

/-- An external object before the resources of its own are read. -/
inductive Outline where
  /-- A form; its own resources are given as they stand in the document. -/
  | form (content : List UInt8) (matrix : Matrix) (own : Option Object)
  /-- Anything else, of the named subtype. -/
  | other (subtype : String)

namespace Outline

/-- The resources of its own, if it has any. -/
def own? : Outline → Option Object
  | form _ _ own => own
  | other _ => none

/-- The external object with the given resources. -/
def complete : Outline → Option Resources → XObject
  | form content matrix _, resources => .form content matrix resources
  | other subtype, _ => .other subtype

end Outline

namespace Loader

/-- A part of a resource dictionary; the absent value counts as an empty one. -/
def part (resolver : Resolver) (dict : Dict) (key : String) : Except Error Dict := do
  match ← dict.resolve? key resolver with
  | some (.dict entries) => pure entries
  | none | some .null => pure []
  | some other => throw (.invalidObjectType "Dictionary" other.typeName)

/-- The entries of a dictionary in the order of this visit. -/
def visit (order : VisitOrder) (entries : Dict) : Loader Dict := do
  let memory ← get
  set { memory with visits := memory.visits + 1 }
  pure (order.arrange memory.visits entries)

/-- What is read of one entry of a dictionary, with its name. -/
def readEntry {m : Type → Type} [Monad m] {α : Type} (read : Object → m (Option α))
    (entry : String × Object) : m (Option (String × α)) := do
  let found ← read entry.2
  pure (found.map (entry.1, ·))

/-- What is read of the entries of a dictionary, by name; entries that give nothing are left
out. -/
def readEntries {m : Type → Type} [Monad m] {α : Type} (read : Object → m (Option α))
    (entries : Dict) : m (List (String × α)) := do
  let found ← entries.mapM (readEntry read)
  pure (found.filterMap id)

/-- What is read of a part of a resource dictionary, by name. -/
def readPart (order : VisitOrder) (resolver : Resolver) (dict : Dict) (key : String) {α : Type}
    (read : Object → Loader (Option α)) : Loader (List (String × α)) := do
  let stored ← part resolver dict key
  let visited ← visit order stored
  readEntries read visited

/-- The font of an object, if it can be loaded. -/
def font? (inflater : Inflater) (resolver : Resolver) (object : Object) : Loader (Option Font) := do
  match object.asRef? with
  | none => pure (Font.load inflater resolver object).toOption
  | some target =>
    match (← get).fonts.lookup target with
    | some font => pure (some font)
    | none =>
      match Font.load inflater resolver object with
      | .error _ => pure none
      | .ok font =>
        modify fun memory => { memory with fonts := (target, font) :: memory.fonts }
        pure (some font)

/-- The font and the size in the font entry of a parameter set, which is an array of the
two. -/
def fontEntry? (resolver : Resolver) (object : Object) :
    Except Error (Option (Object × Object)) := do
  let resolved ← object.resolve resolver
  match resolved.asDict? with
  | none => pure none
  | some dict =>
    match ← dict.resolve? "Font" resolver with
    | some (.array [font, size]) => pure (some (font, size))
    | _ => pure none

/-- The parameter set of an object. -/
def parameterSet (inflater : Inflater) (resolver : Resolver) (object : Object) :
    Loader ParameterSet := do
  match ← fontEntry? resolver object with
  | none => pure ⟨none⟩
  | some (fontObject, size) => do
    let font ← font? inflater resolver fontObject
    pure ⟨do pure (← font, ← size.asNumber?)⟩

/-- The property list of an object, if it is a dictionary. -/
def propertyList? (resolver : Resolver) (object : Object) : Except Error (Option Dict) := do
  match ← object.resolve resolver with
  | .dict entries => pure (some entries)
  | _ => pure none

/-- The transform of a form; anything but six numbers is the identity. -/
def formMatrix (resolver : Resolver) (dict : Dict) : Except Error Matrix := do
  match ← dict.resolve? "Matrix" resolver with
  | some (.array values) =>
    pure ((Matrix.ofCoefficients? (values.filterMap Object.asNumber?)).getD .identity)
  | _ => pure .identity

/-- The outline of the external object of a stream; other objects, and forms whose content
cannot be decoded, have none. -/
def outline? (inflater : Inflater) (resolver : Resolver) (object : Object) :
    Except Error (Option Outline) := do
  match ← object.resolve resolver with
  | .stream dict data =>
    let subtype := ((Dict.get? dict "Subtype").bind Object.asName?).getD ""
    if subtype ≠ "Form" then pure (some (.other subtype))
    else
      match Object.decodedData inflater (.stream dict data) with
      | .error _ => pure none
      | .ok content =>
        let matrix ← formMatrix resolver dict
        pure (some (.form content matrix (Dict.get? dict "Resources")))
  | _ => pure none

/-- The resources of a form; `nested` reads a resource dictionary one level down,
and is absent at the last level. -/
def formResources (nested : Option (Object → Loader Resources)) (object : Object) :
    Loader (Option Resources) := do
  let memory ← get
  match object.asRef?.bind fun target => memory.resources.lookup target with
  | some known => pure (some known)
  | none =>
    if object.asRef?.any memory.loading.contains then pure none
    else
      match nested with
      | none => pure none
      | some load => do
        let loaded ← load object
        match object.asRef? with
        | none => pure (some loaded)
        | some target =>
          modify fun memory => { memory with resources := (target, loaded) :: memory.resources }
          pure (some loaded)

/-- The external object of an object, if it is one. -/
def xobject? (inflater : Inflater) (resolver : Resolver)
    (nested : Option (Object → Loader Resources)) (object : Object) :
    Loader (Option XObject) := do
  match ← outline? inflater resolver object with
  | none => pure none
  | some outline =>
    let resources ← match outline.own? with
      | none => pure none
      | some own => formResources nested own
    pure (some (outline.complete resources))

/-- The resources of an object; one that is no dictionary holds none. -/
def entries (inflater : Inflater) (order : VisitOrder) (resolver : Resolver)
    (nested : Option (Object → Loader Resources)) (object : Object) : Loader Resources := do
  let resolved ← object.resolve resolver
  match resolved.asDict? with
  | none => pure .empty
  | some dict =>
    let fonts ← readPart order resolver dict "Font" (font? inflater resolver)
    let parameters ← readPart order resolver dict "ExtGState" fun object =>
      some <$> parameterSet inflater resolver object
    let properties ← readPart order resolver dict "Properties" fun object =>
      propertyList? resolver object
    let xobjects ← readPart order resolver dict "XObject" (xobject? inflater resolver nested)
    pure ⟨fonts, parameters, xobjects, properties⟩

/-- Read resources and remember, while that lasts, that their reference is being
read. -/
def loadWith (inflater : Inflater) (order : VisitOrder) (resolver : Resolver)
    (nested : Option (Object → Loader Resources)) (object : Object) : Loader Resources := do
  match object.asRef? with
  | none => entries inflater order resolver nested object
  | some target =>
    modify fun memory => { memory with loading := target :: memory.loading }
    let found ← entries inflater order resolver nested object
    modify fun memory => { memory with loading := memory.loading.filter (· != target) }
    pure found

/-- Read resources with the given number of levels for the forms in them. -/
def loadAt (inflater : Inflater) (order : VisitOrder) (resolver : Resolver) :
    Nat → Object → Loader Resources
  | 0 => loadWith inflater order resolver none
  | levels + 1 =>
    loadWith inflater order resolver (some (loadAt inflater order resolver levels))

end Loader

/-- The resources of a resource dictionary, with entries visited in the given order. -/
def loadInOrder (inflater : Inflater) (order : VisitOrder) (resolver : Resolver)
    (object : Object) : Except Error Resources := do
  let (found, _) ←
    (Loader.loadAt inflater order resolver maxNesting object).run ⟨[], [], [], 0⟩
  pure found

/-- The resources of a resource dictionary. -/
def load (inflater : Inflater) (resolver : Resolver) (object : Object) :
    Except Error Resources :=
  loadInOrder inflater .stored resolver object

end PageText.Resources
