import PageText.CommandLine

/-!
# The program

Reads the input that the command line names and writes the report on it.
-/

namespace PageText

/-- The number of a system error; some calls report it negated. -/
def systemNumber (code : UInt32) : Nat :=
  if 0x80000000 ≤ code.toNat then 0x100000000 - code.toNat else code.toNat

/-- The code that a failed call comes with. -/
def codeOf (error : IO.Error) : UInt32 :=
  match error with
  | .alreadyExists _ code _ | .interrupted _ code _ | .noFileOrDirectory _ code _
  | .invalidArgument _ code _ | .permissionDenied _ code _ | .resourceExhausted _ code _
  | .inappropriateType _ code _ | .noSuchThing _ code _ => code
  | .otherError code _ | .resourceBusy code _ | .resourceVanished code _
  | .unsupportedOperation code _ | .hardwareFault code _ | .unsatisfiedConstraints code _
  | .illegalOperation code _ | .protocolError code _ | .timeExpired code _ => code
  | .unexpectedEof | .userError _ => 0

/-- The content of a path. -/
def readContent (path : String) : IO (Except CommandLine.ReadFailure (List UInt8)) := do
  try
    let content ← IO.FS.readBinFile path
    pure (.ok content.toList)
  catch error => pure (.error ⟨systemNumber (codeOf error)⟩)

end PageText

def main (arguments : List String) : IO UInt32 := do
  let report ← PageText.CommandLine.run PageText.readContent arguments
  (← IO.getStdout).putStr report.output
  (← IO.getStderr).putStr report.complaint
  pure report.code.toUInt32
