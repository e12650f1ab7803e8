import PageText.Extract.Options
import PageText.Interpreter.Run
import PageText.Number.Scientific
import PageText.Text.Utf8

/-!
# Requests

The arguments of a command line, read from left to right. The first one that cannot be
read is reported; of several inputs the last one counts.
-/

namespace PageText.CommandLine

/-- What is to be written for the input. -/
structure Request where
  /-- The path of the input. -/
  input : Option String
  /-- Whether events are written, rather than text. -/
  events : Bool
  /-- Whether text is written with tags. -/
  markup : Bool
  /-- How strings are joined. -/
  options : Extract.Options
  /-- The limits of the run. -/
  limits : Limits

/-- What can be wrong with arguments. -/
inductive ArgumentError where
  /-- An option that does not exist. -/
  | unknownOption (option : String)
  /-- An option without the number that it needs. -/
  | missingNumber (option : String)
  deriving DecidableEq

/-- The report of an error. -/
def ArgumentError.message : ArgumentError → String
  | unknownOption option => s!"unknown option {option}"
  | missingNumber option => s!"{option} needs a numeric value"

namespace Request

/-- The request without arguments. -/
def default : Request := ⟨none, false, false, .default, .default⟩

/-- Read a single-precision number. -/
def float32? (text : String) : Option Float32 :=
  (Number.Scientific.ofBytes? (Text.Utf8.encode text.toList)).map Number.Scientific.toFloat32

/-- Read a count of 64 bits, with or without a plus sign. -/
def count? (text : String) : Option Nat := do
  let digits := match text.toList with
    | '+' :: rest => rest
    | all => all
  let n ← Number.Scientific.digits? (Text.Utf8.encode digits)
  if n < 0x10000000000000000 then pure n else none

/-- The options that stand alone. -/
def switch? (request : Request) (argument : String) : Option Request :=
  match argument with
  | "--events" => some { request with events := true }
  | "--markup" => some { request with markup := true }
  | "--skip-invisible" =>
    some { request with options := { request.options with skipInvisible := true } }
  | "--no-forms" => some { request with limits := { request.limits with processForms := false } }
  | _ => none

/-- The options that the next argument belongs to, each with how that one is read. -/
def setting? (request : Request) (argument : String) : Option (String → Option Request) :=
  match argument with
  | "--space-ratio" =>
    some fun value => (float32? value).map fun x =>
      { request with options := { request.options with spaceRatio := x } }
  | "--line-threshold" =>
    some fun value => (float32? value).map fun x =>
      { request with options := { request.options with lineBreakThreshold := x } }
  | "--max-operations" =>
    some fun value => (count? value).map fun n =>
      { request with limits := { request.limits with maxOperations := some n } }
  | _ => none

/-- An argument that is no option names the input. -/
def other (request : Request) (argument : String) : Except ArgumentError Request :=
  if argument.startsWith "--" then .error (.unknownOption argument)
  else .ok { request with input := some argument }

/-- Read arguments, those before them being in the request. -/
def readFrom (request : Request) : List String → Except ArgumentError Request
  | [] => .ok request
  | argument :: rest =>
    match request.switch? argument with
    | some next => readFrom next rest
    | none =>
      match request.setting? argument, rest with
      | some _, [] => .error (.missingNumber argument)
      | some set, value :: rest =>
        match set value with
        | some next => readFrom next rest
        | none => .error (.missingNumber argument)
      | none, rest =>
        match request.other argument with
        | .ok next => readFrom next rest
        | .error error => .error error

/-- The request of an argument list. -/
def ofArguments (arguments : List String) : Except ArgumentError Request :=
  readFrom default arguments

end Request

end PageText.CommandLine
