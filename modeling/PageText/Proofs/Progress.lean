import PageText.Proofs.Position
import PageText.Proofs.Writing

/-!
# Progress of reading

Whatever is read leaves an end part of what it was read from: tokens, operands and
operations a shorter one. A reader of operations therefore moves on with each of them and
is done at the end of its content after no more of them than there are bytes. On malformed
content the reader goes back to the byte after the one where a token or an operand began,
so what carries this is the part left, not the part that has been looked at.
-/

namespace PageText

namespace Token

/-- What is left after blanks and comments is an end part. -/
theorem skipBlank_suffix (bytes : List UInt8) : skipBlank bytes <:+ bytes := by
  cases h : skipBlank bytes with
  | nil => exact List.nil_suffix
  | cons b tail =>
    obtain ⟨gap, hbytes, -⟩ := exists_of_skipFrom h
    exact ⟨gap, hbytes.symm⟩

/-- What is left after the first byte and the token that it begins is an end part. -/
theorem suffix_of_readAt? {b : UInt8} {bytes rest : List UInt8} {token : Token}
    (h : readAt? b bytes = some (token, rest)) : rest <:+ bytes := by
  obtain ⟨front, hbytes, -⟩ := exists_front_of_readAt? h
  exact ⟨front, hbytes.symm⟩

/-- What is left after a token is an end part. -/
theorem suffix_of_read? {bytes rest : List UInt8} {token : Token}
    (h : read? bytes = some (token, rest)) : rest <:+ bytes := by
  obtain ⟨front, -, hbytes, -⟩ := exists_front_of_read? h
  exact ⟨front, hbytes.symm⟩

end Token

namespace Operand

/-- What is left after the containers are closed is an end part. -/
theorem suffix_of_finish? {frames : List Frame} {bytes rest : List UInt8} {object : Object}
    (h : finish? frames bytes = some (object, rest)) : rest <:+ bytes := by
  fun_induction finish? frames bytes with
  | case1 => cases h
  | case2 => cases h
  | case3 frames bytes token after found object' _ =>
    cases h
    exact Token.suffix_of_read? found
  | case4 frames bytes token after found frames' _ ih =>
    exact (ih h).trans (Token.suffix_of_read? found)

/-- What is left after an operand is an end part of what follows its first token. -/
theorem suffix_of_ofToken? {token : Token} {bytes rest : List UInt8} {object : Object}
    (h : ofToken? token bytes = some (object, rest)) : rest <:+ bytes := by
  unfold ofToken? at h
  split at h
  · cases h
  · cases h
    exact List.suffix_rfl
  · exact suffix_of_finish? h

end Operand

namespace Operation

/-- What follows an inline image is an end part. -/
theorem splitImage_suffix (bytes : List UInt8) : (splitImage bytes).2 <:+ bytes := by
  induction bytes with
  | nil => exact List.suffix_rfl
  | cons b bytes ih =>
    rw [splitImage]
    split
    · exact (List.drop_suffix 2 bytes).trans (List.suffix_cons b bytes)
    · exact ih.trans (List.suffix_cons b bytes)

/-- What follows the separator is an end part. -/
theorem dropSeparator_suffix (bytes : List UInt8) : dropSeparator bytes <:+ bytes := by
  cases bytes with
  | nil => exact List.suffix_rfl
  | cons b bytes =>
    rw [dropSeparator]
    split
    · exact List.suffix_cons b bytes
    · exact List.suffix_rfl

/-- What an inline image leaves is an end part. -/
theorem readImage_suffix (entries : Dict) (bytes : List UInt8) :
    (readImage entries bytes).2 <:+ bytes := by
  fun_induction readImage entries bytes with
  | case1 => exact List.nil_suffix
  | case2 entries bytes rest found read =>
    exact (splitImage_suffix _).trans
      ((dropSeparator_suffix rest).trans (Token.suffix_of_read? read))
  | case3 entries bytes word rest read _ ih => exact ih.trans (Token.suffix_of_read? read)
  | case4 entries bytes key rest read value rest' found ih =>
    exact ih.trans ((Operand.suffix_of_finish? found).trans (Token.suffix_of_read? read))
  | case5 entries bytes key rest read _ ih => exact ih.trans (Token.suffix_of_read? read)
  | case6 entries bytes token rest _ _ read ih => exact ih.trans (Token.suffix_of_read? read)

/-- What an operation leaves is an end part, whatever operands were found before. -/
theorem suffix_of_nextFrom? {operands : List Object} {bytes rest : List UInt8}
    {operation : Operation} (h : nextFrom? operands bytes = some (operation, rest)) :
    rest <:+ bytes := by
  have skipped {bytes tail : List UInt8} {b : UInt8} (skip : Token.skipBlank bytes = b :: tail) :
      tail <:+ bytes :=
    (List.suffix_cons b tail).trans (skip ▸ Token.skipBlank_suffix bytes)
  fun_induction nextFrom? operands bytes with
  | case1 => cases h
  | case2 operands bytes b tail skip _ ih => exact (ih h).trans (skipped skip)
  | case3 operands bytes b tail skip after read =>
    have himage := readImage_suffix [] after
    rw [Option.some.inj h] at himage
    exact himage.trans ((Token.suffix_of_readAt? read).trans (skipped skip))
  | case4 operands bytes b tail skip word after read _ =>
    cases h
    exact (Token.suffix_of_readAt? read).trans (skipped skip)
  | case5 operands bytes b tail skip token after _ read operand after' found ih =>
    exact (ih h).trans ((Operand.suffix_of_ofToken? found).trans
      ((Token.suffix_of_readAt? read).trans (skipped skip)))
  | case6 operands bytes b tail skip token after _ read _ ih =>
    exact (ih h).trans (skipped skip)

/-- There are no more operations than bytes. -/
theorem length_readAll_le (bytes : List UInt8) : (readAll bytes).length ≤ bytes.length := by
  fun_induction readAll bytes with
  | case1 => exact Nat.zero_le _
  | case2 bytes operation rest found ih =>
    have := length_lt_of_next? found
    rw [List.length_cons]
    omega

/-- Where the next operation is missing there are none. -/
theorem readAll_of_none {bytes : List UInt8} (h : next? bytes = none) : readAll bytes = [] := by
  rw [readAll]
  split
  · rfl
  · rename_i found
    rw [h] at found
    cases found

/-- In the empty content there is no operation. -/
theorem next?_nil : next? [] = none := by
  rw [next?, nextFrom?_eq]
  rfl

/-- No operator begins an input and no operand, whatever token does. -/
def BeginsBadly (bytes : List UInt8) : Prop :=
  ∀ token rest, Token.read? bytes = some (token, rest) →
    (∀ word, token ≠ .keyword word) ∧ Operand.ofToken? token rest = none

/-- Pass over the first byte that is neither blank nor in a comment, by position. -/
def passByte? (bytes : List UInt8) : Option (List UInt8) := do
  let _ ← (Token.skipBlank bytes)[0]?
  Slice.from? (Token.skipBlank bytes) 1

/-- Where no operator and no operand begins, one byte is passed over, which is there, and the
operands before it are kept. -/
theorem exists_passByte? {bytes : List UInt8} (hrest : Token.skipBlank bytes ≠ [])
    (hbad : BeginsBadly bytes) (operands : List Object) :
    ∃ rest, passByte? bytes = some rest ∧
      nextFrom? operands bytes = nextFrom? operands rest := by
  obtain ⟨b, tail, hskip⟩ := List.exists_cons_of_ne_nil hrest
  refine ⟨tail, ?_, ?_⟩
  · rw [passByte?, hskip, Slice.from?_cons]
    rfl
  · rw [nextFrom?_eq, hskip]
    dsimp only
    cases hread : Token.readAt? b tail with
    | none => rfl
    | some found =>
      have hfirst : Token.read? bytes = some found := by
        rw [Token.read?, hskip]
        exact hread
      obtain ⟨hword, hoperand⟩ := hbad found.1 found.2 hfirst
      obtain ⟨token, rest⟩ := found
      cases token with
      | keyword word => exact absurd rfl (hword word)
      | _ => simp only [hoperand]

/-- What one turn of reading leads to. -/
inductive Turn where
  /-- There is nothing left but this. -/
  | done (rest : List UInt8)
  /-- An operation has been read. -/
  | found (operation : Operation) (rest : List UInt8)
  /-- An operand has been collected, or a byte passed over. -/
  | again (operands : List Object) (rest : List UInt8)

/-- One turn of reading, with the operands found so far. -/
def turn (operands : List Object) (bytes : List UInt8) : Turn :=
  match Token.skipBlank bytes with
  | [] => .done (Token.skipBlank bytes)
  | b :: tail =>
    match Token.readAt? b tail with
    | none => .again operands tail
    | some (.keyword word, rest) =>
      if word = Byte.ofAscii "BI" then .found (readImage [] rest).1 (readImage [] rest).2
      else .found ⟨Text.Utf8.textOf word, operands⟩ rest
    | some (token, rest) =>
      match Operand.ofToken? token rest with
      | some (operand, rest') => .again (operands ++ [operand]) rest'
      | none => .again operands tail

/-- Nothing is left when reading is done. -/
theorem eq_nil_of_turn {operands : List Object} {bytes rest : List UInt8}
    (h : turn operands bytes = .done rest) : rest = [] := by
  unfold turn at h
  cases hskip : Token.skipBlank bytes with
  | nil =>
    rw [hskip] at h
    cases h
    rfl
  | cons b tail =>
    simp only [hskip] at h
    split at h
    · cases h
    · split at h <;> cases h
    · split at h <;> cases h

/-- A turn that goes on leaves less than there was. -/
theorem length_lt_of_turn {operands operands' : List Object} {bytes rest : List UInt8}
    (h : turn operands bytes = .again operands' rest) : rest.length < bytes.length := by
  have hskipped := Token.length_skipBlank_le bytes
  unfold turn at h
  cases hskip : Token.skipBlank bytes with
  | nil =>
    rw [hskip] at h
    cases h
  | cons b tail =>
    rw [hskip, List.length_cons] at hskipped
    simp only [hskip] at h
    split at h
    · cases h
      omega
    · split at h <;> cases h
    · rename_i token after _ read
      have := Token.length_le_of_readAt? read
      split at h
      · rename_i found
        cases h
        have := Operand.length_le_of_ofToken? found
        omega
      · cases h
        omega

/-- Take turns up to an operation or the end. -/
def scanFrom (operands : List Object) (bytes : List UInt8) : Option Operation × List UInt8 :=
  match _h : turn operands bytes with
  | .done rest => (none, rest)
  | .found operation rest => (some operation, rest)
  | .again operands' rest => scanFrom operands' rest
  termination_by bytes.length
  decreasing_by exact length_lt_of_turn _h

/-- The next operation is the one that the first turn leads to. -/
theorem nextFrom?_turn (operands : List Object) (bytes : List UInt8) :
    nextFrom? operands bytes =
      match turn operands bytes with
      | .done _ => none
      | .found operation rest => some (operation, rest)
      | .again operands' rest => nextFrom? operands' rest := by
  rw [nextFrom?_eq, turn]
  cases Token.skipBlank bytes with
  | nil => rfl
  | cons b tail =>
    dsimp only
    cases Token.readAt? b tail with
    | none => rfl
    | some found =>
      obtain ⟨token, rest⟩ := found
      cases token with
      | keyword word =>
        dsimp only
        split <;> rfl
      | _ =>
        dsimp only
        generalize Operand.ofToken? _ rest = operand
        cases operand <;> rfl

/-- Taking turns finds the next operation and what follows it, or nothing is left. -/
theorem scanFrom_eq (operands : List Object) (bytes : List UInt8) :
    scanFrom operands bytes =
      match nextFrom? operands bytes with
      | none => (none, [])
      | some (operation, rest) => (some operation, rest) := by
  fun_induction scanFrom operands bytes with
  | case1 operands bytes rest done => rw [nextFrom?_turn, done, eq_nil_of_turn done]
  | case2 operands bytes operation rest found => rw [nextFrom?_turn, found]
  | case3 operands bytes operands' rest again ih => rw [ih, nextFrom?_turn operands, again]

/-- A reader of the operations of a content. -/
structure Reader (content : List UInt8) where
  /-- What has not been read. -/
  rest : List UInt8
  /-- It is an end part of the content. -/
  suffix : rest <:+ content

namespace Reader

variable {content : List UInt8}

/-- The reader that has not read anything. -/
def start (content : List UInt8) : Reader content := ⟨content, List.suffix_rfl⟩

/-- The number of bytes that have been read. -/
def offset (reader : Reader content) : Nat := content.length - reader.rest.length

/-- Reading leaves an end part. -/
theorem scanFrom_suffix (bytes : List UInt8) : (scanFrom [] bytes).2 <:+ bytes := by
  rw [scanFrom_eq]
  split
  · exact List.nil_suffix
  · exact suffix_of_nextFrom? ‹_›

/-- Read an operation, if there is one. -/
def next (reader : Reader content) : Option Operation × Reader content :=
  ((scanFrom [] reader.rest).1,
    ⟨(scanFrom [] reader.rest).2, (scanFrom_suffix reader.rest).trans reader.suffix⟩)

/-- The reader after a number of calls. -/
def after : Nat → Reader content → Reader content
  | 0, reader => reader
  | calls + 1, reader => after calls reader.next.2

/-- What has been read and what has not make up the content. -/
theorem offset_add_length (reader : Reader content) :
    reader.offset + reader.rest.length = content.length := by
  have := reader.suffix.length_le
  rw [offset]
  omega

/-- Reading gives the first operation of the rest and leaves what follows it, or there is none
and nothing is left. -/
theorem next_cases (reader : Reader content) :
    (reader.next.1 = none ∧ reader.next.2.rest = [] ∧ readAll reader.rest = []) ∨
    ∃ operation, reader.next.1 = some operation ∧
      next? reader.rest = some (operation, reader.next.2.rest) ∧
      readAll reader.rest = operation :: readAll reader.next.2.rest := by
  simp only [next, scanFrom_eq, next?]
  cases hnext : nextFrom? [] reader.rest with
  | none => exact Or.inl ⟨rfl, rfl, readAll_of_none hnext⟩
  | some found => exact Or.inr ⟨found.1, rfl, rfl, readAll_of_next? hnext⟩

/-- With each operation the reader moves on. -/
theorem offset_lt_of_next {reader : Reader content} {operation : Operation}
    (h : reader.next.1 = some operation) : reader.offset < reader.next.2.offset := by
  rcases reader.next_cases with ⟨hnone, -⟩ | ⟨_, -, hnext, -⟩
  · rw [hnone] at h
    cases h
  · have hshorter := length_lt_of_next? hnext
    have := reader.offset_add_length
    have := reader.next.2.offset_add_length
    omega

/-- The operations of the rest come one by one, and then none. -/
theorem next_after (calls : Nat) (reader : Reader content) :
    (reader.after calls).next.1 = (readAll reader.rest)[calls]? := by
  induction calls generalizing reader with
  | zero =>
    rcases reader.next_cases with ⟨hnone, -, hall⟩ | ⟨operation, hsome, -, hall⟩
    · rw [after, hnone, hall]
      rfl
    · rw [after, hsome, hall]
      rfl
  | succ calls ih =>
    rw [after, ih]
    rcases reader.next_cases with ⟨-, hrest, hall⟩ | ⟨operation, -, -, hall⟩
    · rw [hrest, hall, readAll_of_none next?_nil]
      rfl
    · rw [hall, List.getElem?_cons_succ]

/-- The reader is at the end once all operations of the rest have been given and it has been
called once more. -/
theorem offset_after (calls : Nat) (reader : Reader content)
    (h : (readAll reader.rest).length ≤ calls) :
    (reader.after (calls + 1)).offset = content.length := by
  induction calls generalizing reader with
  | zero =>
    rcases reader.next_cases with ⟨-, hrest, -⟩ | ⟨operation, -, -, hall⟩
    · have := reader.next.2.offset_add_length
      rw [hrest] at this
      exact this
    · rw [hall] at h
      cases h
  | succ calls ih =>
    refine ih reader.next.2 ?_
    rcases reader.next_cases with ⟨-, hrest, -⟩ | ⟨operation, -, -, hall⟩
    · rw [hrest, readAll_of_none next?_nil]
      exact Nat.zero_le _
    · rw [hall, List.length_cons] at h
      omega

/-- Reading always moves on and always ends. A token leaves a proper end part of its input, and
so does an operand with all that is nested in it. The offset of a reader stays within the
content and grows with each operation. There are no more operations than bytes; the calls of a
reader give them one by one and nothing afterwards, with the offset at the end of the content.
Strings, inline images and bytes that are passed over can be read by position, and no index or
slice that this takes lies outside of the bytes. -/
theorem reading_ends (content : List UInt8) :
    (∀ bytes token rest, Token.read? bytes = some (token, rest) →
      rest <:+ bytes ∧ rest ≠ bytes) ∧
    (∀ bytes object rest, Operand.read? bytes = some (object, rest) →
      rest <:+ bytes ∧ rest ≠ bytes) ∧
    (∀ reader : Reader content, reader.offset ≤ content.length ∧
      ∀ operation, reader.next.1 = some operation → reader.offset < reader.next.2.offset) ∧
    (readAll content).length ≤ content.length ∧
    (∀ calls, ((start content).after calls).next.1 = (readAll content)[calls]? ∧
      ((readAll content).length ≤ calls →
        ((start content).after (calls + 1)).offset = content.length)) ∧
    (∀ bytes, Spelling.Literal.bodyByPosition? bytes = some (Spelling.Literal.body? bytes) ∧
      splitByPosition? bytes = some (splitImage bytes)) ∧
    ∀ bytes, Token.skipBlank bytes ≠ [] → BeginsBadly bytes → ∀ operands,
      ∃ rest, passByte? bytes = some rest ∧
        nextFrom? operands bytes = nextFrom? operands rest := by
  have shorter {bytes rest : List UInt8} (h : rest.length < bytes.length) : rest ≠ bytes := by
    rintro rfl
    exact Nat.lt_irrefl _ h
  refine ⟨fun _ _ _ h => ⟨Token.suffix_of_read? h, shorter (Token.length_lt_of_read? h)⟩,
    fun _ _ _ h => ⟨Operand.suffix_of_finish? h, shorter (Operand.length_lt_of_read? h)⟩,
    fun reader => ⟨Nat.sub_le _ _, fun _ => offset_lt_of_next⟩, length_readAll_le content,
    fun calls => ⟨next_after calls (start content), offset_after calls (start content)⟩,
    fun bytes => ⟨Spelling.Literal.bodyByPosition?_eq bytes, splitByPosition?_eq bytes⟩,
    fun _ hrest hbad => exists_passByte? hrest hbad⟩

end Reader

end Operation

end PageText
