import PageText.Graphics.State
import PageText.Object

/-!
# Resources

The fonts, parameter sets, external objects and property lists that a stream may
name. A form is a stream of its own and may bring resources of its own, so
resources and external objects contain each other. How they are read from a
document is described in `PageText.Resources.Load`.
-/

namespace PageText

/-- A set of parameters, of which only the font selection matters to text. -/
structure ParameterSet where
  /-- The font to select and its size. -/
  font : Option (Font × Float32)

/-- Named resources, with external objects of type `X`. -/
structure ResourceTable (X : Type) where
  /-- Fonts by name. -/
  fonts : List (String × Font)
  /-- Parameter sets by name. -/
  parameters : List (String × ParameterSet)
  /-- External objects by name. -/
  xobjects : List (String × X)
  /-- Property lists of marked content by name. -/
  properties : List (String × Dict)

/-- Something outside the stream that it can invoke. -/
inductive XObject where
  /-- A stream with the transform into the space of its caller; without resources
  of its own it uses those of the caller. -/
  | form (content : List UInt8) (matrix : Matrix) (resources : Option (ResourceTable XObject))
  /-- Anything else, of the named subtype. -/
  | other (subtype : String)

/-- The resources of a stream. -/
abbrev Resources := ResourceTable XObject

namespace ResourceTable

/-- No resources. -/
def empty {X : Type} : ResourceTable X := ⟨[], [], [], []⟩

/-- The font of a name. -/
def font? {X : Type} (resources : ResourceTable X) (name : String) : Option Font :=
  resources.fonts.lookup name

/-- The parameter set of a name. -/
def parameters? {X : Type} (resources : ResourceTable X) (name : String) : Option ParameterSet :=
  resources.parameters.lookup name

/-- The external object of a name. -/
def xobject? {X : Type} (resources : ResourceTable X) (name : String) : Option X :=
  resources.xobjects.lookup name

/-- The property list of a name. -/
def properties? {X : Type} (resources : ResourceTable X) (name : String) : Option Dict :=
  resources.properties.lookup name

end ResourceTable

end PageText
