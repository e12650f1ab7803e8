import PageText.Operand

/-!
# Operations

Page content is a sequence of operations: operands first, then the operator. The
reader gives one operation at a time together with the bytes after it. A byte that
begins no token, or an operand that cannot be finished, costs one byte; the
operands collected before it are kept. Inline images are one operation, whose
operands are the image dictionary and the image data.
-/

namespace PageText

/-- An operator with the operands that stand before it. -/
structure Operation where
  /-- The mnemonic. -/
  operator : String
  /-- The operands in the order of the content. -/
  operands : List Object

namespace Operation

/-- Whether the data of an inline image ends here: a blank, `EI`, and no regular
byte right after. -/
def endsImage : List UInt8 → Bool
  | blank :: e :: i :: rest =>
    Byte.isAsciiBlank blank && e == Byte.ofChar 'E' && i == Byte.ofChar 'I' &&
      !(rest.head?.any Byte.isRegular)
  | _ => false

/-- Split the bytes of an inline image from what follows its end; without an end
all bytes belong to the image. -/
def splitImage : List UInt8 → List UInt8 × List UInt8
  | [] => ([], [])
  | b :: rest =>
    if endsImage (b :: rest) then ([], rest.drop 2)
    else
      let found := splitImage rest
      (b :: found.1, found.2)

/-- Drop the one blank that separates the image data from `ID`. -/
def dropSeparator : List UInt8 → List UInt8
  | [] => []
  | b :: rest => if Byte.isAsciiBlank b then rest else b :: rest

/-- The operation of an inline image with the given operands. -/
def image (operands : List Object) : Operation := ⟨"BI", operands⟩

/-- Read an inline image whose `BI` has been read, with the entries found so far.
Tokens that are neither a key nor `ID` are passed over, and so is a key without a
readable value. Where no token can be read the rest of the input is given up. -/
def readImage (entries : Dict) (bytes : List UInt8) : Operation × List UInt8 :=
  match _h : Token.read? bytes with
  | none => (image [.dict entries], [])
  | some (.keyword word, rest) =>
    if word = Byte.ofAscii "ID" then
      let found := splitImage (dropSeparator rest)
      (image [.dict entries, .str found.1], found.2)
    else readImage entries rest
  | some (.name key, rest) =>
    match _k : Operand.read? rest with
    | some (value, rest') => readImage (entries.insert key value) rest'
    | none => readImage entries rest
  | some (_, rest) => readImage entries rest
  termination_by bytes.length
  decreasing_by
    · exact Token.length_lt_of_read? _h
    · exact Nat.lt_trans (Operand.length_lt_of_read? _k) (Token.length_lt_of_read? _h)
    · exact Token.length_lt_of_read? _h
    · exact Token.length_lt_of_read? _h

/-- Read the next operation, given the operands found so far, and the bytes that
follow it. Operands without an operator at the end are dropped. -/
def nextFrom? (operands : List Object) (bytes : List UInt8) :
    Option (Operation × List UInt8) :=
  match _h : Token.skipBlank bytes with
  | [] => none
  | b :: tail =>
    match _k : Token.readAt? b tail with
    | none => nextFrom? operands tail
    | some (.keyword word, rest) =>
      if word = Byte.ofAscii "BI" then some (readImage [] rest)
      else some (⟨Text.Utf8.textOf word, operands⟩, rest)
    | some (token, rest) =>
      match _o : Operand.ofToken? token rest with
      | some (operand, rest') => nextFrom? (operands ++ [operand]) rest'
      | none => nextFrom? operands tail
  termination_by bytes.length
  decreasing_by
    all_goals
      have skipped := Token.length_skipBlank_le bytes
      rw [_h, List.length_cons] at skipped
    · omega
    · have := Operand.length_le_of_ofToken? _o
      have := Token.length_le_of_readAt? _k
      omega
    · omega

/-- Read the next operation, and the bytes that follow it. -/
def next? (bytes : List UInt8) : Option (Operation × List UInt8) := nextFrom? [] bytes

/-- What follows an image is no longer than its bytes. -/
theorem length_splitImage_le (bytes : List UInt8) :
    (splitImage bytes).2.length ≤ bytes.length := by
  induction bytes with
  | nil => exact Nat.le_refl _
  | cons b rest ih =>
    rw [splitImage]
    split
    · simp only [List.length_drop, List.length_cons]
      omega
    · exact Nat.le_succ_of_le ih

/-- Dropping the separator never lengthens the input. -/
theorem length_dropSeparator_le (bytes : List UInt8) :
    (dropSeparator bytes).length ≤ bytes.length := by
  cases bytes with
  | nil => exact Nat.le_refl _
  | cons b rest =>
    rw [dropSeparator]
    split
    · exact Nat.le_succ _
    · exact Nat.le_refl _

/-- An inline image leaves no more input than it was read from. -/
theorem length_readImage_le (entries : Dict) (bytes : List UInt8) :
    (readImage entries bytes).2.length ≤ bytes.length := by
  fun_induction readImage entries bytes with
  | case1 => exact Nat.zero_le _
  | case2 entries bytes rest found read =>
    have := Token.length_lt_of_read? read
    have : found.2.length ≤ _ := length_splitImage_le (dropSeparator rest)
    have := length_dropSeparator_le rest
    simp only
    omega
  | case3 entries bytes word rest read _ ih =>
    have := Token.length_lt_of_read? read
    omega
  | case4 entries bytes key rest read value rest' found ih =>
    have := Token.length_lt_of_read? read
    have := Operand.length_lt_of_read? found
    omega
  | case5 entries bytes key rest read _ ih =>
    have := Token.length_lt_of_read? read
    omega
  | case6 entries bytes token rest _ _ read ih =>
    have := Token.length_lt_of_read? read
    omega

/-- Every operation leaves less input than it was read from, whatever operands
were found before. -/
theorem length_lt_of_nextFrom? {operands : List Object} {bytes rest : List UInt8}
    {operation : Operation} (h : nextFrom? operands bytes = some (operation, rest)) :
    rest.length < bytes.length := by
  fun_induction nextFrom? operands bytes with
  | case1 => cases h
  | case2 operands bytes b tail skip _ ih =>
    have skipped := Token.length_skipBlank_le bytes
    rw [skip, List.length_cons] at skipped
    have := ih h
    omega
  | case3 operands bytes b tail skip after read =>
    have skipped := Token.length_skipBlank_le bytes
    rw [skip, List.length_cons] at skipped
    have := Token.length_le_of_readAt? read
    have := length_readImage_le [] after
    simp only [Option.some.injEq] at h
    rw [h] at this
    simp only at this
    omega
  | case4 operands bytes b tail skip word after read _ =>
    have skipped := Token.length_skipBlank_le bytes
    rw [skip, List.length_cons] at skipped
    have := Token.length_le_of_readAt? read
    cases h
    omega
  | case5 operands bytes b tail skip token after _ read operand after' found ih =>
    have skipped := Token.length_skipBlank_le bytes
    rw [skip, List.length_cons] at skipped
    have := Token.length_le_of_readAt? read
    have := Operand.length_le_of_ofToken? found
    have := ih h
    omega
  | case6 operands bytes b tail skip token after _ read _ ih =>
    have skipped := Token.length_skipBlank_le bytes
    rw [skip, List.length_cons] at skipped
    have := ih h
    omega

/-- Every operation leaves less input than it was read from. -/
theorem length_lt_of_next? {bytes rest : List UInt8} {operation : Operation}
    (h : next? bytes = some (operation, rest)) : rest.length < bytes.length :=
  length_lt_of_nextFrom? h

/-- All operations of a content. -/
def readAll (bytes : List UInt8) : List Operation :=
  match _h : next? bytes with
  | none => []
  | some (operation, rest) => operation :: readAll rest
  termination_by bytes.length
  decreasing_by exact length_lt_of_next? _h

end Operation

end PageText
