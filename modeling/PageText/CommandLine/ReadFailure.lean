/-!
# Failures of reading a file

A system reports a failure by a number. The message gives the system's wording for
it and the number itself.
-/

namespace PageText.CommandLine

/-- Why the content of a path cannot be read, as the system numbers it. -/
structure ReadFailure where
  /-- The number. -/
  number : Nat
  deriving DecidableEq, Repr

namespace ReadFailure

/-- The wording of the numbers that reading can end with. -/
def wordings : List (Nat × String) :=
  [(1, "Operation not permitted"), (2, "No such file or directory"),
    (4, "Interrupted system call"), (5, "Input/output error"),
    (6, "No such device or address"), (9, "Bad file descriptor"),
    (11, "Resource temporarily unavailable"), (12, "Cannot allocate memory"),
    (13, "Permission denied"), (16, "Device or resource busy"), (19, "No such device"),
    (20, "Not a directory"), (21, "Is a directory"), (22, "Invalid argument"),
    (23, "Too many open files in system"), (24, "Too many open files"),
    (27, "File too large"), (36, "File name too long"),
    (40, "Too many levels of symbolic links"), (75, "Value too large for defined data type"),
    (110, "Connection timed out"), (116, "Stale file handle")]

/-- The wording of a failure. -/
def reason (failure : ReadFailure) : String :=
  (wordings.lookup failure.number).getD s!"Unknown error {failure.number}"

/-- The message about a failure. -/
def message (failure : ReadFailure) : String :=
  s!"{failure.reason} (os error {failure.number})"

end ReadFailure

end PageText.CommandLine
