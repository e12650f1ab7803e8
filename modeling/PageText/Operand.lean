import PageText.Object
import PageText.Token

/-!
# Operands

An operand is an object built from tokens. The reader keeps the containers that
are still open as a list of frames, innermost first, and every token either
completes the operand, leaves it open or refuses it. Arrays and dictionaries nest
at most `maxNesting` deep. Keywords are never operands.
-/

namespace PageText

/-- A container whose end has not been read. -/
inductive Frame where
  /-- An array with the items read so far. -/
  | array (items : List Object)
  /-- A dictionary with the entries read so far, where a key or the end comes next. -/
  | dict (entries : Dict)
  /-- A dictionary where the value of a key comes next. -/
  | entry (entries : Dict) (key : String)

/-- What a token makes of an operand. -/
inductive Progress where
  /-- The token cannot stand there. -/
  | refused
  /-- The operand is finished. -/
  | complete (object : Object)
  /-- More tokens are needed, with these containers open. -/
  | more (frames : List Frame)

namespace Operand

/-- How deep arrays and dictionaries may nest in one operand. -/
def maxNesting : Nat := 64

/-- Hand a finished object to the innermost open container. -/
def give : List Frame → Object → Progress
  | [], object => .complete object
  | .array items :: outer, object => .more (.array (items ++ [object]) :: outer)
  | .entry entries key :: outer, object => .more (.dict (entries.insert key object) :: outer)
  | .dict _ :: _, _ => .refused

/-- Hand over a name, which is a key where a key comes next. -/
def giveName : List Frame → String → Progress
  | .dict entries :: outer, text => .more (.entry entries text :: outer)
  | frames, text => give frames (.name text)

/-- Open a container, unless a key comes next or the nesting is at its limit. -/
def push (frame : Frame) : List Frame → Progress
  | .dict _ :: _ => .refused
  | frames => if frames.length < maxNesting then .more (frame :: frames) else .refused

/-- End the innermost container as an array. -/
def closeArray : List Frame → Progress
  | .array items :: outer => give outer (.array items)
  | _ => .refused

/-- End the innermost container as a dictionary. -/
def closeDict : List Frame → Progress
  | .dict entries :: outer => give outer (.dict entries)
  | _ => .refused

/-- Read one token of an operand. -/
def step (frames : List Frame) : Token → Progress
  | .int n => give frames (.int n)
  | .real x => give frames (.real x)
  | .literal raw => give frames (.str (Spelling.Literal.decode raw))
  | .hex raw => give frames (.str (Spelling.Hex.decode raw))
  | .name text => giveName frames text
  | .bool value => give frames (.bool value)
  | .null => give frames .null
  | .arrayOpen => push (.array []) frames
  | .dictOpen => push (.dict []) frames
  | .arrayClose => closeArray frames
  | .dictClose => closeDict frames
  | .keyword _ => .refused

/-- Read tokens until the open containers are closed. -/
def finish? (frames : List Frame) (bytes : List UInt8) : Option (Object × List UInt8) :=
  match _h : Token.read? bytes with
  | none => none
  | some (token, rest) =>
    match step frames token with
    | .refused => none
    | .complete object => some (object, rest)
    | .more frames => finish? frames rest
  termination_by bytes.length
  decreasing_by exact Token.length_lt_of_read? _h

/-- The operand that begins with `token`, and the bytes after it. -/
def ofToken? (token : Token) (rest : List UInt8) : Option (Object × List UInt8) :=
  match step [] token with
  | .refused => none
  | .complete object => some (object, rest)
  | .more frames => finish? frames rest

/-- Read one operand, and the bytes that follow it. -/
def read? (bytes : List UInt8) : Option (Object × List UInt8) := finish? [] bytes

/-- Reading an operand is reading its first token and going on from there. -/
theorem read?_eq (bytes : List UInt8) :
    read? bytes = (Token.read? bytes).bind fun found => ofToken? found.1 found.2 := by
  unfold read?
  rw [finish?]
  split <;> simp_all [ofToken?]

/-- A finished operand leaves no more input than its containers were read from. -/
theorem length_lt_of_finish? {frames : List Frame} {bytes rest : List UInt8} {object : Object}
    (h : finish? frames bytes = some (object, rest)) : rest.length < bytes.length := by
  fun_induction finish? frames bytes with
  | case1 => cases h
  | case2 => cases h
  | case3 frames bytes token after found object' _ =>
    cases h
    exact Token.length_lt_of_read? found
  | case4 frames bytes token after found frames' _ ih =>
    exact Nat.lt_trans (ih h) (Token.length_lt_of_read? found)

/-- An operand leaves no more input than what follows its first token. -/
theorem length_le_of_ofToken? {token : Token} {bytes rest : List UInt8} {object : Object}
    (h : ofToken? token bytes = some (object, rest)) : rest.length ≤ bytes.length := by
  unfold ofToken? at h
  split at h
  · cases h
  · cases h
    exact Nat.le_refl _
  · exact Nat.le_of_lt (length_lt_of_finish? h)

/-- Every operand leaves less input than it was read from. -/
theorem length_lt_of_read? {bytes rest : List UInt8} {object : Object}
    (h : read? bytes = some (object, rest)) : rest.length < bytes.length :=
  length_lt_of_finish? h

end Operand

end PageText
