/-!
# What can go wrong

One constructor per cause, with the data that its report needs. Reading,
interpreting and loading share this type, so a failure deep in a form reaches the
caller unchanged. The wording lives in `message` alone and the label for logs in
`kind`; no other module words a report.
-/

namespace PageText

/-- Every way in which reading, loading or interpreting can fail. -/
inductive Error where
  /-- The operands do not fit the operator, for the stated reason. -/
  | malformedOperands (operator reason : String)
  /-- A restore while only the base state remains. -/
  | stackUnderflow
  /-- A text operator outside a text object, or a nested text object. -/
  | textObjectViolation (operator reason : String)
  /-- A name that the active resources do not hold. -/
  | missingResource (category name : String)
  /-- Content that nothing handles. -/
  | unsupportedContent (what : String)
  /-- A mnemonic registered twice. -/
  | duplicateOperator (mnemonic : String)
  /-- More operations in one stream than the configured number. -/
  | operationLimitExceeded (limit : Nat)
  /-- Forms, references or page-tree nodes nested past the stated number. -/
  | recursionLimitExceeded (limit : Nat)
  /-- Bytes at an offset that do not form an object. -/
  | unreadableObject (offset : Nat) (reason : String)
  /-- A reference without an object. -/
  | objectNotFound (id generation : Nat)
  /-- An object of another type than the place asks for. -/
  | invalidObjectType (expected found : String)
  /-- A page number outside the document; pages count from one. -/
  | pageNotFound (number : Nat)
  /-- A stream filter that is not implemented. -/
  | unsupportedFilter (filter : String)
  /-- Stream data that its filter rejects. -/
  | undecodable (reason : String)
  /-- A font dictionary that describes no font. -/
  | unusableFont (reason : String)
  /-- A failed read of a file. -/
  | unreadableFile (reason : String)
  deriving DecidableEq, Repr

namespace Error

/-- The stable label of a cause. -/
def kind : Error → String
  | malformedOperands .. => "MalformedOperands"
  | stackUnderflow => "StackUnderflow"
  | textObjectViolation .. => "TextObjectViolation"
  | missingResource .. => "MissingResource"
  | unsupportedContent _ => "UnsupportedContent"
  | duplicateOperator _ => "DuplicateOperator"
  | operationLimitExceeded _ => "OperationLimitExceeded"
  | recursionLimitExceeded _ => "RecursionLimitExceeded"
  | unreadableObject .. => "ParseError"
  | objectNotFound .. => "ObjectNotFound"
  | invalidObjectType .. => "InvalidObjectType"
  | pageNotFound _ => "PageNotFound"
  | unsupportedFilter _ => "UnsupportedFilter"
  | undecodable _ => "Decode"
  | unusableFont _ => "Font"
  | unreadableFile _ => "Io"

/-- The report of a cause, in one line. -/
def message : Error → String
  | malformedOperands operator reason => s!"Malformed operands for '{operator}': {reason}"
  | stackUnderflow => "Graphics state stack underflow: restore without matching save"
  | textObjectViolation operator reason => s!"Text object violation at '{operator}': {reason}"
  | missingResource category name => s!"Missing resource: /{category} /{name}"
  | unsupportedContent what => s!"Unsupported content: {what}"
  | duplicateOperator mnemonic => s!"Operator '{mnemonic}' already registered"
  | operationLimitExceeded limit => s!"Operation limit exceeded (max: {limit})"
  | recursionLimitExceeded limit => s!"Recursion depth limit exceeded (max: {limit})"
  | unreadableObject offset reason => s!"Failed to parse object at byte {offset}: {reason}"
  | objectNotFound id generation => s!"Object not found: {id} {generation} R"
  | invalidObjectType expected found =>
    s!"Invalid object type: expected {expected}, found {found}"
  | pageNotFound number => s!"Page {number} not found"
  | unsupportedFilter filter => s!"Unsupported filter: {filter}"
  | undecodable reason => s!"Stream decoding error: {reason}"
  | unusableFont reason => s!"Font error: {reason}"
  | unreadableFile reason => s!"IO error: {reason}"

/-- What succeeds with a value gives it. -/
theorem ok_of_toOption {α : Type} {result : Except Error α} {a : α}
    (h : result.toOption = some a) : result = .ok a := by
  cases result with
  | error error => cases h
  | ok found => rw [Option.some.inj h]

/-- Reading in two steps succeeds only if each of them does. -/
theorem exists_of_bind {α β : Type} {first : Except Error α} {next : α → Except Error β} {b : β}
    (h : first >>= next = .ok b) : ∃ a, first = .ok a ∧ next a = .ok b := by
  cases first with
  | error error => cases h
  | ok a => exact ⟨a, rfl, h⟩

end Error

end PageText
