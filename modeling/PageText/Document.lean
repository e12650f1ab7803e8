import PageText.Resources.Load

/-!
# Documents

A document is a store of indirect objects with a sequence of pages. Content and
resources of a page are read here, independently of the interpreter that runs them.
A page may leave its resources to the page tree: the nearest node above it that has
some provides them.
-/

namespace PageText

/-- Indirect objects and pages. -/
structure Document where
  /-- The indirect objects, the one stored last first. -/
  objects : List (Ref × Object)
  /-- The pages, each a dictionary or a reference to one. -/
  pages : List Object

namespace Document

/-- The document without objects and pages. -/
def empty : Document := ⟨[], []⟩

/-- Store an indirect object. Of several stored under one reference the last counts. -/
def insert (document : Document) (target : Ref) (object : Object) : Document :=
  { document with objects := (target, object) :: document.objects }

/-- The resolver of the references of the document. -/
def resolver (document : Document) : Resolver := fun target =>
  match document.objects.lookup target with
  | some object => .ok object
  | none => .error (.objectNotFound target.id target.generation)

/-- Append a page. -/
def addPage (document : Document) (page : Object) : Document :=
  { document with pages := document.pages ++ [page] }

/-- Append a page with unfiltered content and a resource dictionary. -/
def pushPage (document : Document) (content : List UInt8) (resources : Object) : Document :=
  document.addPage (.dict
    [("Type", .name "Page"), ("Contents", .stream [] content), ("Resources", resources)])

/-- The dictionary of the page at an index, counted from zero. -/
def page (document : Document) (index : Nat) : Except Error Dict :=
  match document.pages[index]? with
  | none => .error (.pageNotFound index)
  | some object => do
    match ← object.resolve document.resolver with
    | .dict entries => pure entries
    | other => throw (.invalidObjectType "Dictionary" other.typeName)

/-- Join the parts of page content. A part is set apart by a line end from what is
before it, so that no token reaches from one part into the next. -/
def joinParts (parts : List (List UInt8)) : List UInt8 :=
  parts.foldl
    (fun content part => (if content.isEmpty then content else content ++ [0x0A]) ++ part) []

/-- The data of one part of page content. -/
def part (inflater : Inflater) (document : Document) (object : Object) :
    Except Error (List UInt8) := do
  let stream ← object.resolve document.resolver
  stream.decodedData inflater

/-- The content of a page: one stream, or several in an array. Without an entry for it
the content is empty. -/
def content (inflater : Inflater) (document : Document) (page : Dict) :
    Except Error (List UInt8) := do
  match ← page.resolve? "Contents" document.resolver with
  | none | some .null => pure []
  | some (.stream entries data) => Object.decodedData inflater (.stream entries data)
  | some (.array parts) => joinParts <$> parts.mapM (document.part inflater)
  | some other => throw (.invalidObjectType "Stream or Array" other.typeName)

/-- How many nodes of the page tree are asked for resources. -/
def maxTreeDepth : Nat := 64

/-- The resources of the nearest node that has some, from the given node upwards and
among the given number of nodes. -/
def resourcesWithin (inflater : Inflater) (resolver : Resolver) :
    Nat → Dict → Except Error Resources
  | 0, _ => .error (.recursionLimitExceeded maxTreeDepth)
  | nodes + 1, node =>
    match node.get? "Resources" with
    | some own => Resources.load inflater resolver own
    | none => do
      match ← node.resolve? "Parent" resolver with
      | some (.dict parent) => resourcesWithin inflater resolver nodes parent
      | _ => pure .empty

/-- The resources of a page, wherever the indirect objects are kept. -/
def inheritedResources (inflater : Inflater) (resolver : Resolver) (page : Dict) :
    Except Error Resources :=
  resourcesWithin inflater resolver maxTreeDepth page

/-- The resources of a page of the document. -/
def resources (inflater : Inflater) (document : Document) (page : Dict) :
    Except Error Resources :=
  inheritedResources inflater document.resolver page

end Document

end PageText
