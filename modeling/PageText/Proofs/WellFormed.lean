import PageText.Proofs.Nesting
import PageText.Proofs.Progress
import PageText.Proofs.Readable

/-!
# Well-formed operands

Every object that is read is well formed: it holds no stream, no reference, no real that is not
a number and no integer without a negative, and its arrays and dictionaries nest at most 64
deep. Operands of operations are well formed as well, with one exception: the values of an
inline image are read one by one, so its dictionary is one container around values that may use
the whole depth of an operand.
-/

namespace PageText

namespace Object

/-- An object holds itself and what its items and values hold. The number counts the containers
around what is held. -/
inductive Holds : Object → Nat → Object → Prop where
  /-- The object itself. -/
  | self (object : Object) : Holds object 0 object
  /-- What an item of an array holds. -/
  | item {items : List Object} {item held : Object} {level : Nat} (hi : item ∈ items)
      (hh : Holds item level held) : Holds (.array items) (level + 1) held
  /-- What a value of a dictionary holds. -/
  | value {entries : Dict} {entry : String × Object} {held : Object} {level : Nat}
      (he : entry ∈ entries) (hh : Holds entry.2 level held) :
      Holds (.dict entries) (level + 1) held
  /-- What a value in the dictionary of a stream holds. -/
  | streamValue {entries : Dict} {data : List UInt8} {entry : String × Object} {held : Object}
      {level : Nat} (he : entry ∈ entries) (hh : Holds entry.2 level held) :
      Holds (.stream entries data) (level + 1) held

/-- The object is no stream, no reference, no real that is not a number and not the integer
that has no negative. -/
def IsPlain : Object → Prop
  | .int value => value ≠ -2 ^ 63
  | .real value => value.isNaN = false
  | .stream .. => False
  | .ref _ => False
  | _ => True

/-- The object is an array or a dictionary. -/
def IsContainer : Object → Prop
  | .array _ => True
  | .dict _ => True
  | _ => False

/-- Everything in the object is plain, and its arrays and dictionaries nest at most `depth`
deep. -/
structure WellFormed (depth : Nat) (object : Object) : Prop where
  /-- What it holds is plain at every level. -/
  plain : ∀ level held, object.Holds level held → held.IsPlain
  /-- A container has fewer than `depth` others around it. -/
  nesting : ∀ level held, object.Holds level held → held.IsContainer → level < depth

/-- A plain object that is no container holds nothing else. -/
theorem wellFormed_of_leaf (object : Object) (hp : object.IsPlain) (hc : ¬object.IsContainer)
    (depth : Nat) : object.WellFormed depth := by
  have honly {level : Nat} {held : Object} (hh : object.Holds level held) : held = object := by
    cases hh with
    | self => rfl
    | item => exact absurd trivial hc
    | value => exact absurd trivial hc
    | streamValue => exact hp.elim
  exact ⟨fun _ _ hh => honly hh ▸ hp, fun _ _ hh hcontainer => absurd (honly hh ▸ hcontainer) hc⟩

/-- A plain object nests one level deeper than what it is made of. -/
theorem WellFormed.of_parts {depth : Nat} {object : Object} (hp : object.IsPlain)
    (h : ∀ level held, object.Holds (level + 1) held →
      ∃ part : Object, part.WellFormed depth ∧ part.Holds level held) :
    object.WellFormed (depth + 1) := by
  refine ⟨fun level held hh => ?_, fun level held hh hc => ?_⟩
  · cases level with
    | zero =>
      cases hh
      exact hp
    | succ level =>
      obtain ⟨part, hpart, hh⟩ := h level held hh
      exact hpart.plain level held hh
  · cases level with
    | zero => exact Nat.succ_pos depth
    | succ level =>
      obtain ⟨part, hpart, hh⟩ := h level held hh
      exact Nat.succ_lt_succ (hpart.nesting level held hh hc)

/-- An array is made of its items. -/
theorem WellFormed.array {depth : Nat} {items : List Object}
    (h : ∀ item ∈ items, item.WellFormed depth) : (Object.array items).WellFormed (depth + 1) := by
  refine .of_parts trivial fun level held hh => ?_
  cases hh with
  | item hi hh => exact ⟨_, h _ hi, hh⟩

/-- A dictionary is made of its values. -/
theorem WellFormed.dict {depth : Nat} {entries : Dict}
    (h : ∀ entry ∈ entries, entry.2.WellFormed depth) :
    (Object.dict entries).WellFormed (depth + 1) := by
  refine .of_parts trivial fun level held hh => ?_
  cases hh with
  | value he hh => exact ⟨_, h _ he, hh⟩

/-- What can be written is well formed. The induction follows the nesting. -/
theorem Writable.wellFormed {depth : Nat} {object : Object} (h : object.Writable depth) :
    object.WellFormed depth := by
  induction h with
  | null => exact wellFormed_of_leaf .null trivial not_false _
  | bool value => exact wellFormed_of_leaf (.bool value) trivial not_false _
  | @int depth value hv =>
    have hplain : value ≠ -2 ^ 63 := by
      rw [Number.Numeral.integerLimit] at hv
      omega
    exact wellFormed_of_leaf (.int value) hplain not_false _
  | @real depth n word value _ _ hx =>
    have hplain : value.isNaN = false := Number.Double.isNaN_of_sign? hx.sign
    exact wellFormed_of_leaf (.real value) hplain not_false _
  | str bytes => exact wellFormed_of_leaf (.str bytes) trivial not_false _
  | name text => exact wellFormed_of_leaf (.name text) trivial not_false _
  | array _ ih => exact .array ih
  | dict _ _ ih => exact .dict ih

end Object

namespace Operand

/-! ## Arrays of one item -/

/-- The absent value in arrays of one item. -/
def boxed : Nat → Object
  | 0 => .null
  | depth + 1 => .array [boxed depth]

/-- Its tokens. -/
def boxedTokens : Nat → List Token
  | 0 => [.null]
  | depth + 1 => .arrayOpen :: (boxedTokens depth ++ [.arrayClose])

/-- Its text without any gaps, before other bytes. -/
def boxedText : Nat → List UInt8 → List UInt8
  | 0, rest => Byte.ofAscii "null" ++ rest
  | depth + 1, rest => Byte.ofChar '[' :: boxedText depth (Byte.ofChar ']' :: rest)

/-- A word ends at the end of an array. -/
theorem endsWord_arrayClose (rest : List UInt8) :
    Token.EndsWord (Byte.ofChar ']' :: rest) := by
  rintro _ ⟨⟩
  decide

/-- The absent value is one token. -/
theorem read?_boxedText_zero {rest : List UInt8} (h : Token.EndsWord rest) :
    Token.read? (boxedText 0 rest) = some (.null, rest) :=
  Token.read?_word (by decide) (List.all_eq_true.1 rfl) h

/-- No word goes on at the beginning of an array. -/
theorem endsWord_boxedText (depth : Nat) (rest : List UInt8) :
    Token.EndsWord (boxedText (depth + 1) rest) := by
  rintro _ ⟨⟩
  decide

/-- The tokens are those of an operand of this depth. -/
theorem nested_boxedTokens (depth : Nat) : Nested depth (boxedTokens depth) := by
  induction depth with
  | zero => exact .value trivial
  | succ depth ih =>
    have hitems : ∀ item ∈ [(depth, boxedTokens depth)], Nested item.1 item.2 :=
      List.forall_mem_singleton.2 ih
    simpa [deepest, boxedTokens] using Nested.array hitems

/-- The text has these tokens. -/
theorem reads_boxedText (depth : Nat) {rest : List UInt8} (h : Token.EndsWord rest) :
    Token.Reads (boxedTokens depth) (boxedText depth rest) rest := by
  induction depth generalizing rest with
  | zero => exact .cons (read?_boxedText_zero h) (.nil rest)
  | succ depth ih =>
    have hinner := ih (endsWord_arrayClose rest)
    have hlast : Token.Reads [.arrayClose] (Byte.ofChar ']' :: rest) rest :=
      .cons (Token.read?_arrayClose rest) (.nil rest)
    exact .cons (Token.read?_arrayOpen _) (Token.reads_append.2 ⟨_, hinner, hlast⟩)

/-- Within the limit the text is read as the object. -/
theorem finish?_boxedText {depth : Nat} {frames : List Frame} (hf : TakesValue frames)
    (hd : frames.length + depth ≤ maxNesting) {rest : List UInt8} (h : Token.EndsWord rest) :
    finish? frames (boxedText depth rest) = resume (give frames (boxed depth)) rest := by
  induction depth generalizing frames rest with
  | zero => rw [finish?_reads (read?_boxedText_zero h), step, boxed]
  | succ depth ih =>
    have hroom : frames.length < maxNesting := by omega
    have hleft : (Frame.array [] :: frames).length + depth ≤ maxNesting := by
      rw [List.length_cons]
      omega
    rw [boxedText, finish?_reads (Token.read?_arrayOpen _), step, hf.push hroom, resume,
      ih (takesValue_array [] frames) hleft (endsWord_arrayClose rest), give, resume,
      finish?_reads (Token.read?_arrayClose rest), step, closeArray, List.nil_append, boxed]

/-- The arrays hold one another. -/
theorem holds_boxed (level depth : Nat) :
    (boxed (level + depth)).Holds level (boxed depth) := by
  induction level with
  | zero =>
    rw [Nat.zero_add]
    exact .self _
  | succ level ih =>
    rw [Nat.succ_add]
    exact .item List.mem_cons_self ih

end Operand

namespace Operation

open Operand (boxed boxedTokens boxedText)

/-! ## A small image -/

/-- What follows the entry of a small image. -/
def imageTail : List UInt8 := Byte.ofAscii " ID x EI"

/-- A small image with one entry, given its text from the value on. -/
def imageText (value : List UInt8) : List UInt8 :=
  Byte.ofAscii "BI" ++ Byte.ofChar '/' :: (Byte.ofAscii "A" ++ value)

/-- Behind its entry the image has one byte of data, and nothing follows it. -/
theorem readImage_imageTail (entries : Dict) :
    readImage entries imageTail =
      (image [.dict entries, .str (Byte.ofAscii "x")], []) := by
  have hgap : Token.Gap [0x20] := .blank (by decide)
  have hend : Token.EndsWord [] := nofun
  have hdata : ∀ position < (Byte.ofAscii "x").length, ¬IsImageEnd
      ((Byte.ofAscii "x" ++ 0x20 :: (Byte.ofAscii "EI" ++ [])).drop position) := by decide
  have htail : imageTail = [0x20] ++ (Byte.ofAscii "ID" ++
      0x20 :: (Byte.ofAscii "x" ++ 0x20 :: (Byte.ofAscii "EI" ++ []))) := by decide
  rw [htail, readImage_gap hgap, readImage_data rfl rfl hend hdata]

/-- The image is read with whatever its value is read as. -/
theorem readAll_imageText {text : List UInt8} {value : Object}
    (hv : Operand.read? text = some (value, imageTail)) (he : Token.EndsWord text) :
    readAll (imageText text) = [image [.dict [("A", value)], .str (Byte.ofAscii "x")]] := by
  have hslash : Token.EndsWord (Byte.ofChar '/' :: (Byte.ofAscii "A" ++ text)) := by
    rintro _ ⟨⟩
    decide
  have hbegin := Token.read?_imageWord (Or.inl rfl) hslash
  have hkey := @Token.read?_name (Byte.ofAscii "A") _ (List.forall_mem_singleton.2 rfl) he
  have hnext : next? (imageText text) =
      some (image [.dict [("A", value)], .str (Byte.ofAscii "x")], []) := by
    rw [next?, imageText, nextFrom?_of_image hbegin, readImage_entry hkey hv]
    exact congrArg some (readImage_imageTail _)
  rw [readAll_of_next? hnext, readAll_of_none next?_nil]

/-! ## Operands of operations -/

/-- The operands of an operation that is read are well formed. Only the dictionary of an inline
image may be one level deeper, where one of its values uses the depth of an operand. -/
theorem Obtained.wellFormed {operation : Operation} (h : Obtained operation) {operand : Object}
    (ho : operand ∈ operation.operands) :
    operand.WellFormed 64 ∨
      ∃ entries data, operation = image (.dict entries :: data) ∧ operand = .dict entries ∧
        operand.WellFormed 65 ∧
        ∃ entry ∈ entries, entry.2.WellFormed 64 ∧ ¬entry.2.WellFormed 63 := by
  cases h with
  | plain hw => exact Or.inl (hw operand ho).wellFormed
  | @inlineImage entries he data =>
    have hvalues : ∀ entry ∈ entries, entry.2.WellFormed 64 :=
      fun entry hentry => (he.values entry hentry).wellFormed
    rcases List.mem_cons.1 ho with rfl | ho
    · by_cases hshallow : ∀ entry ∈ entries, entry.2.WellFormed 63
      · exact Or.inl (.dict hshallow)
      · obtain ⟨entry, hentry, hdeep⟩ : ∃ entry ∈ entries, ¬entry.2.WellFormed 63 := by
          simpa using hshallow
        exact Or.inr ⟨entries, _, rfl, rfl, .dict hvalues, entry, hentry, hvalues entry hentry,
          hdeep⟩
    · obtain ⟨bytes, -, rfl⟩ := List.mem_map.1 ho
      exact Or.inl (Object.wellFormed_of_leaf (.str bytes) trivial not_false 64)

/-- What is read off any bytes is well formed. An object that is read as an operand nests at
most 64 deep. So do the operands of all operations, except for dictionaries of inline images
that have a value which nests 64 deep itself: these nest 65 deep. A written operand is read up
to its end if it nests at most 64 deep, and is refused if it nests deeper. -/
theorem readAll_wellFormed (bytes : List UInt8) :
    (∀ object rest, Operand.read? bytes = some (object, rest) → object.WellFormed 64) ∧
    (∀ operation ∈ readAll bytes, ∀ operand ∈ operation.operands, operand.WellFormed 64 ∨
      ∃ entries data, operation = image (.dict entries :: data) ∧ operand = .dict entries ∧
        operand.WellFormed 65 ∧
        ∃ entry ∈ entries, entry.2.WellFormed 64 ∧ ¬entry.2.WellFormed 63) ∧
    ∀ depth tokens rest, Operand.Nested depth tokens → Token.Reads tokens bytes rest →
      (depth ≤ 64 → ∃ object, Operand.read? bytes = some (object, rest)) ∧
      (65 ≤ depth → Operand.read? bytes = none) := by
  refine ⟨?_, ?_, ?_⟩
  · intro object rest h
    exact (Operand.writable_of_read? h).wellFormed
  · intro operation h operand ho
    exact (obtained_of_mem_readAll h).wellFormed ho
  · intro depth tokens rest hn hr
    obtain ⟨object, hread⟩ := hn.read? hr
    refine ⟨fun hd => ⟨object, ?_⟩, fun hd => ?_⟩
    · rw [hread]
      exact if_pos hd
    · rw [hread]
      exact if_neg (Nat.not_le.2 hd)

/-- Arrays that nest 64 deep are read, and one more around them is refused. -/
theorem readAll_wellFormed_boxed :
    Operand.Nested 64 (boxedTokens 64) ∧ Operand.Nested 65 (boxedTokens 65) ∧
    Token.Reads (boxedTokens 64) (boxedText 64 []) [] ∧
    Token.Reads (boxedTokens 65) (boxedText 65 []) [] ∧
    (∃ object, Operand.read? (boxedText 64 []) = some (object, []) ∧ object.WellFormed 64) ∧
    Operand.read? (boxedText 65 []) = none := by
  have hend : Token.EndsWord [] := nofun
  obtain ⟨hwell, -, hread⟩ := readAll_wellFormed (boxedText 64 [])
  obtain ⟨-, -, hrefused⟩ := readAll_wellFormed (boxedText 65 [])
  have hnested := Operand.nested_boxedTokens
  have hreads (depth : Nat) := Operand.reads_boxedText depth hend
  obtain ⟨object, hobject⟩ := (hread 64 _ [] (hnested 64) (hreads 64)).1 le_rfl
  exact ⟨hnested 64, hnested 65, hreads 64, hreads 65, ⟨object, hobject, hwell object [] hobject⟩,
    (hrefused 65 _ [] (hnested 65) (hreads 65)).2 le_rfl⟩

/-- A value that nests 64 deep is read as the only entry of an image, whose dictionary is then an
operand that nests 65 deep. -/
theorem imageDictionary_tooDeep :
    readAll (imageText (boxedText 64 imageTail)) =
      [image [.dict [("A", boxed 64)], .str (Byte.ofAscii "x")]] ∧
    ¬(Object.dict [("A", boxed 64)]).WellFormed 64 := by
  have htail : Token.EndsWord imageTail := by
    rintro _ ⟨⟩
    decide
  have hvalue : Operand.read? (boxedText 64 imageTail) = some (boxed 64, imageTail) :=
    Operand.finish?_boxedText Operand.takesValue_nil (Nat.le_refl 64) htail
  have hinner : (boxed 64).Holds 63 (boxed 1) := Operand.holds_boxed 63 1
  have hholds : (Object.dict [("A", boxed 64)]).Holds 64 (boxed 1) :=
    .value List.mem_cons_self hinner
  refine ⟨readAll_imageText hvalue (Operand.endsWord_boxedText 63 imageTail), fun h => ?_⟩
  exact absurd (h.nesting 64 _ hholds trivial) (Nat.lt_irrefl 64)

end Operation

end PageText
