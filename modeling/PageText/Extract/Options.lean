import PageText.Json.Value

/-!
# Options of text extraction

What counts as a gap between words and as a new line, and how a line end is
written. All extractors share these options. As JSON they are an object whose keys name
fields, or an array with the fields in order. Fields that are left out keep their
defaults. Other keys mean nothing, but every key has to be well-formed text, and no
field may be given twice.
-/

namespace PageText.Extract

/-- How shown strings are joined to text. -/
structure Options where
  /-- A gap wider than this share of a space separates words. -/
  spaceRatio : Float32
  /-- A string that starts farther than this from the last baseline starts a line. -/
  lineBreakThreshold : Float32
  /-- Whether strings that are not painted are left out. -/
  skipInvisible : Bool
  /-- What is written between lines. -/
  lineSeparator : String

namespace Options

/-- The options without configuration. -/
def default : Options := ⟨0.5, 1.0, false, "\n"⟩

/-- The fields in order, each with how a value sets it. -/
def fields : List (String × (Options → Json.Value → Option Options)) :=
  [("space_ratio", fun options value =>
      value.asFloat32?.map fun x => { options with spaceRatio := x }),
    ("line_break_threshold", fun options value =>
      value.asFloat32?.map fun x => { options with lineBreakThreshold := x }),
    ("skip_invisible", fun options value =>
      value.asBool?.map fun b => { options with skipInvisible := b }),
    ("line_separator", fun options value =>
      value.asText?.map fun s => { options with lineSeparator := s })]

/-- Set the field of a key, if it names one. -/
def setMember (options : Options) (member : String × Json.Value) : Option Options :=
  match fields.lookup member.1 with
  | some set => set options member.2
  | none => some options

/-- The text of a key. -/
def keyText? (member : List UInt16 × Json.Value) : Option (String × Json.Value) :=
  (Text.Utf16.decode? member.1).map fun key => (String.ofList key, member.2)

/-- Whether no field is named twice. -/
def fieldsOnce (members : List (String × Json.Value)) : Bool :=
  fields.all fun field => (members.filter (·.1 == field.1)).length ≤ 1

/-- Options from members. -/
def ofMembers? (members : List (List UInt16 × Json.Value)) : Option Options := do
  let members ← members.mapM keyText?
  if fieldsOnce members then members.foldlM setMember Options.default else none

/-- Options from values in the order of the fields. -/
def ofItems? (items : List Json.Value) : Option Options :=
  if items.length ≤ fields.length then
    (fields.zip items).foldlM (fun options (field, value) => field.2 options value)
      Options.default
  else none

/-- Options from a value. -/
def ofValue? : Json.Value → Option Options
  | .object members => ofMembers? members
  | .array items => ofItems? items
  | _ => none

/-- Options from a text. -/
def ofText? (text : String) : Option Options := (Json.Value.ofText? text).bind ofValue?

end Options

end PageText.Extract
