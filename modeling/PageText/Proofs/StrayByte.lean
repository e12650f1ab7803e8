import PageText.Proofs.InlineImage
import PageText.Proofs.Progress

/-!
# Stray bytes

A closing parenthesis begins no token. This module says what one costs that stands between two
gaps of a written content. At top level it costs itself: operations, and operands that wait for
their operator, are kept, and what follows is read as if the parenthesis were not there. Among
the entries of an inline image it costs everything that follows, whatever that is: the image
keeps the entries before it and no data, and there are no operations after it.
-/

namespace PageText

/-- A closing parenthesis begins no token. -/
theorem Token.read?_parenClose (rest : List UInt8) : read? (Byte.ofChar ')' :: rest) = none := by
  have hrole : Byte.role (Byte.ofChar ')') = .parenClose := by decide
  rw [read?_cons (by simp [hrole]) (by simp [hrole]), readAt?, hrole]

namespace Operation

/-- How a single operation may be written, with a gap behind it. -/
inductive SpelledBy : Operation → List UInt8 → Prop where
  /-- An ordinary operation by its lexemes. -/
  | lexemes {operation : Operation} {bytes : List UInt8} (h : operation.Writable)
      (hw : Lexeme.Written operation.lexemes bytes) : SpelledBy operation bytes
  /-- An inline image by its entries and its data. -/
  | image {entries : Dict} {opening data gap : List UInt8} {separator blank : UInt8}
      (he : ∀ entry ∈ entries, entry.2.Writable Operand.maxNesting)
      (hk : (entries.map Prod.fst).Nodup)
      (hw : Lexeme.Written (beginLexemes entries) opening)
      (hs : Byte.isAsciiBlank separator = true) (hb : Byte.isAsciiBlank blank = true)
      (hg : Token.Gap gap)
      (hd : ∀ position < data.length,
        ¬IsImageEnd ((data ++ blank :: (Byte.ofAscii "EI" ++ gap)).drop position)) :
      SpelledBy (Operation.image [.dict entries, .str data])
        (opening ++ (Byte.ofAscii "ID" ++
          separator :: (data ++ blank :: (Byte.ofAscii "EI" ++ gap))))

/-- The front part of a content that ends at top level: operations, and then operands that wait
for their operator. With no operands it is a content of its own. Gaps may stand anywhere. -/
inductive Front : List Operation → List Object → List UInt8 → Prop where
  /-- Operands, each with a gap behind its lexemes. -/
  | operands {operands : List Object} {bytes : List UInt8}
      (ho : ∀ operand ∈ operands, operand.Writable Operand.maxNesting)
      (hw : Lexeme.Written (operands.flatMap Object.lexemes) bytes) : Front [] operands bytes
  /-- A gap first. -/
  | gap {operations : List Operation} {operands : List Object} {gap bytes : List UInt8}
      (hg : Token.Gap gap) (hf : Front operations operands bytes) :
      Front operations operands (gap ++ bytes)
  /-- An operation first. -/
  | operation {operation : Operation} {operations : List Operation} {operands : List Object}
      {first bytes : List UInt8} (hs : operation.SpelledBy first)
      (hf : Front operations operands bytes) :
      Front (operation :: operations) operands (first ++ bytes)

/-- Nothing is a content without operations. -/
theorem front_nil : Front [] [] [] := .operands (List.forall_mem_nil _) .nil

/-- The places between two gaps where a content can be cut in two, by the operations that are
complete before them: at top level, or behind some entries of an image. -/
inductive CutAt (operations : List Operation) : Option Dict → List UInt8 → Prop where
  /-- Between operations, before an operand or before an operator. -/
  | topLevel {operands : List Object} {before : List UInt8}
      (hf : Front operations operands before) : CutAt operations none before
  /-- Behind the entries that an image begins with. -/
  | entries {operands : List Object} {before opening : List UInt8} {entries : Dict}
      (hf : Front operations operands before)
      (he : ∀ entry ∈ entries, entry.2.Writable Operand.maxNesting)
      (hk : (entries.map Prod.fst).Nodup)
      (hw : Lexeme.Written (beginLexemes entries) opening) :
      CutAt operations (some entries) (before ++ opening)

/-- Whether an image ends here is told by four bytes. -/
theorem isImageEnd_append {bytes : List UInt8} (h : 4 ≤ bytes.length) (rest : List UInt8) :
    IsImageEnd (bytes ++ rest) ↔ IsImageEnd bytes := by
  rw [← endsImage_iff, ← endsImage_iff]
  match bytes, h with
  | _ :: _ :: _ :: _ :: _, _ => exact Iff.rfl

/-- A written operation is read as a whole, up to a gap behind it. -/
theorem SpelledBy.next? {operation : Operation} {bytes : List UInt8}
    (h : operation.SpelledBy bytes) (rest : List UInt8) :
    ∃ gap, Token.Gap gap ∧ next? (bytes ++ rest) = some (operation, gap ++ rest) := by
  cases h with
  | lexemes h hw => exact next?_written h hw rest
  | @image entries opening data gap separator blank he hk hw hs hb hg hd =>
    -- An end that begins within the data would lie before what follows the gap.
    have hnone : ∀ position < data.length,
        ¬IsImageEnd ((data ++ blank :: (Byte.ofAscii "EI" ++ (gap ++ rest))).drop position) := by
      intro position hp
      have hlong : (data ++ blank :: (Byte.ofAscii "EI" ++ gap)).length =
          data.length + 3 + gap.length := by
        have hend : (Byte.ofAscii "EI").length = 2 := rfl
        simp only [List.length_append, List.length_cons, hend]
        omega
      have hassoc : data ++ blank :: (Byte.ofAscii "EI" ++ (gap ++ rest)) =
          data ++ blank :: (Byte.ofAscii "EI" ++ gap) ++ rest := by
        simp only [List.append_assoc, List.cons_append]
      rw [hassoc, List.drop_append_of_le_length (by omega),
        isImageEnd_append (by rw [List.length_drop]; omega)]
      exact hd position hp
    have hassoc : opening ++ (Byte.ofAscii "ID" ++
          separator :: (data ++ blank :: (Byte.ofAscii "EI" ++ gap))) ++ rest =
        opening ++ (Byte.ofAscii "ID" ++
          separator :: (data ++ blank :: (Byte.ofAscii "EI" ++ (gap ++ rest)))) := by
      simp only [List.append_assoc, List.cons_append]
    refine ⟨gap, hg, ?_⟩
    rw [hassoc, Operation.next?, nextFrom?_imageBegin he hk hw,
      readImage_data hs hb (hg.endsWord rest) hnone]

/-- All operations of a content, given the operands found before it. -/
def readAllFrom (operands : List Object) (bytes : List UInt8) : List Operation :=
  match nextFrom? operands bytes with
  | none => []
  | some (operation, rest) => operation :: readAll rest

/-- Without operands before it a content is read from its beginning. -/
theorem readAllFrom_nil (bytes : List UInt8) : readAllFrom [] bytes = readAll bytes := by
  cases h : next? bytes with
  | none =>
    rw [readAll_of_none h]
    rw [next?] at h
    rw [readAllFrom, h]
  | some found =>
    rw [readAll_of_next? h]
    rw [next?] at h
    rw [readAllFrom, h]

/-- The operations of a front part are read, its operands are collected, and reading goes on
behind it. -/
theorem Front.readAll_append {operations : List Operation} {operands : List Object}
    {bytes : List UInt8} (h : Front operations operands bytes) (rest : List UInt8) :
    readAll (bytes ++ rest) = operations ++ readAllFrom operands rest := by
  induction h with
  | @operands operands bytes ho hw =>
    rw [← readAllFrom_nil, readAllFrom, nextFrom?_operands ho [] hw, List.nil_append,
      List.nil_append, readAllFrom]
  | gap hg _ ih => rw [List.append_assoc, readAll_gap hg, ih]
  | @operation operation operations operands first bytes hs _ ih =>
    obtain ⟨gap, hg, hnext⟩ := hs.next? (bytes ++ rest)
    rw [List.append_assoc, readAll_of_next? hnext, readAll_gap hg, ih, List.cons_append]

/-- A written content is read back. -/
theorem Front.readAll {operations : List Operation} {bytes : List UInt8}
    (h : Front operations [] bytes) : readAll bytes = operations := by
  have hread := h.readAll_append []
  rw [List.append_nil, readAllFrom_nil, readAll_of_none next?_nil, List.append_nil] at hread
  exact hread

/-- At top level a closing parenthesis is passed over, and the operands before it are kept. -/
theorem nextFrom?_parenClose (operands : List Object) (rest : List UInt8) :
    nextFrom? operands (Byte.ofChar ')' :: rest) = nextFrom? operands rest := by
  have hskip : Token.skipBlank (Byte.ofChar ')' :: rest) = Byte.ofChar ')' :: rest := rfl
  have hread := Token.read?_parenClose rest
  rw [Token.read?, hskip] at hread
  rw [nextFrom?_eq, hskip]
  simp only [hread]

/-- Among the entries of an image a closing parenthesis ends the image and all else. -/
theorem readImage_parenClose (entries : Dict) (rest : List UInt8) :
    readImage entries (Byte.ofChar ')' :: rest) = (image [.dict entries], []) := by
  rw [readImage_eq, Token.read?_parenClose]

/-- Behind a front part of a content that ends at top level, a closing parenthesis makes no
difference. -/
theorem Front.readAll_parenClose {operations : List Operation} {operands : List Object}
    {before : List UInt8} (h : Front operations operands before) (after : List UInt8) :
    Operation.readAll (before ++ Byte.ofChar ')' :: after) =
      Operation.readAll (before ++ after) := by
  rw [h.readAll_append, h.readAll_append, readAllFrom, nextFrom?_parenClose, readAllFrom]

/-- Behind a front part of a content, an image with a closing parenthesis among its entries is
the last operation. -/
theorem Front.readAll_cutImage {operations : List Operation} {operands : List Object}
    {before opening : List UInt8} {entries : Dict} (h : Front operations operands before)
    (he : ∀ entry ∈ entries, entry.2.Writable Operand.maxNesting)
    (hk : (entries.map Prod.fst).Nodup) (hw : Lexeme.Written (beginLexemes entries) opening)
    (after : List UInt8) :
    Operation.readAll (before ++ opening ++ Byte.ofChar ')' :: after) =
      operations ++ [image [.dict entries]] := by
  rw [List.append_assoc, h.readAll_append, readAllFrom, nextFrom?_imageBegin he hk hw,
    readImage_parenClose]
  simp only [readAll_of_none next?_nil]

/-- No written operation is an image without data. -/
theorem SpelledBy.ne_cutImage {operation : Operation} {bytes : List UInt8}
    (h : operation.SpelledBy bytes) (entries : Dict) :
    operation ≠ Operation.image [.dict entries] := by
  cases h with
  | lexemes h _ =>
    intro he
    have hm := h.mnemonic.not_image
    rw [he] at hm
    exact hm rfl
  | image => simp [Operation.image]

/-- A written content holds no image without data. -/
theorem Front.notMem_cutImage {operations : List Operation} {operands : List Object}
    {bytes : List UInt8} (h : Front operations operands bytes) (entries : Dict) :
    image [.dict entries] ∉ operations := by
  induction h with
  | operands => exact List.not_mem_nil
  | gap _ _ ih => exact ih
  | operation hs _ ih =>
    rw [List.mem_cons, not_or]
    exact ⟨(hs.ne_cutImage entries).symm, ih⟩

/-- What a stray closing parenthesis costs. At top level it costs nothing else, whatever follows.
Among the entries of an inline image it costs all that follows: reading gives the operations
before the image, the image with the entries before the parenthesis and without data, and
nothing more. So a written content, which is read back without the parenthesis, is read back
with it exactly if it stands at top level. -/
theorem readAll_strayByte {operations : List Operation} {inside : Option Dict}
    {before : List UInt8} (h : CutAt operations inside before) (after : List UInt8) :
    (inside = none →
      readAll (before ++ Byte.ofChar ')' :: after) = readAll (before ++ after)) ∧
    (∀ entries ∈ inside, readAll (before ++ Byte.ofChar ')' :: after) =
      operations ++ [image [.dict entries]]) ∧
    ∀ content, Front content [] (before ++ after) → readAll (before ++ after) = content ∧
      (readAll (before ++ Byte.ofChar ')' :: after) = content ↔ inside = none) := by
  cases h with
  | topLevel hf =>
    have hkept := hf.readAll_parenClose after
    refine ⟨fun _ => hkept, ?_, ?_⟩
    · intro entries hm
      cases hm
    · intro content hc
      rw [hkept]
      exact ⟨hc.readAll, fun _ => rfl, fun _ => hc.readAll⟩
  | @entries operands before opening entries hf he hk hw =>
    have hcut := hf.readAll_cutImage he hk hw after
    have hinside : some entries ≠ none := Option.some_ne_none entries
    refine ⟨fun hn => absurd hn hinside, ?_, ?_⟩
    · intro entries' hm
      cases hm
      exact hcut
    · intro content hc
      refine ⟨hc.readAll, fun hread => ?_, fun hn => absurd hn hinside⟩
      have hm : image [.dict entries] ∈ content := by
        rw [← hread, hcut]
        exact List.mem_append_right _ List.mem_cons_self
      exact absurd hm (hc.notMem_cutImage entries)

/-- An image of one byte, and an operation behind it. -/
def pixel : List Operation :=
  [image [.dict [("W", .int 2), ("H", .int 1)], .str (Byte.ofAscii "x")], ⟨"Q", []⟩]

/-- One way to write them, up to the first entry. -/
def pixelBefore : List UInt8 := Byte.ofAscii "BI /W 2 "

/-- One way to write them, from the gap behind the first entry on. -/
def pixelAfter : List UInt8 := Byte.ofAscii " /H 1 ID x EI Q "

/-- The beginning of the image with its first entry may be written with any gap behind it. -/
theorem pixelEntry_written {lexemes : List Lexeme} {gap bytes : List UInt8}
    (hg : Token.Gap gap) (hw : Lexeme.Written lexemes bytes) :
    Lexeme.Written (.operator "BI" :: .name "W" :: .int 2 :: lexemes)
      (Byte.ofAscii "BI /W 2" ++ gap ++ bytes) := by
  have hblank : Token.Gap [0x20] := .blank (by decide)
  have hname : (Lexeme.name "W").Spells (Byte.ofAscii "/W") :=
    .name (.cons (.plain (by decide)) .nil)
  have htwo : (Lexeme.int 2).Spells (Byte.ofAscii "2") := @Lexeme.spells_digit 0x32 (by decide)
  have hwritten := Lexeme.Written.cons (.operator "BI") hblank
    (.cons hname hblank (.cons htwo hg hw))
  exact hwritten

/-- The entries of the image can stand in page content. -/
theorem pixelEntries_writable :
    ∀ entry ∈ ([("W", .int 2), ("H", .int 1)] : Dict),
      entry.2.Writable Operand.maxNesting := by
  have htwo : (Object.int 2).Writable Operand.maxNesting := .int (by decide)
  have hone : (Object.int 1).Writable Operand.maxNesting := .int (by decide)
  simp only [List.forall_mem_cons]
  exact ⟨htwo, hone, List.forall_mem_nil _⟩

/-- The image and the operation behind it are written so, with two blanks between the
entries. -/
theorem pixel_front : Front pixel [] (pixelBefore ++ pixelAfter) := by
  have hblank : Token.Gap [0x20] := .blank (by decide)
  have hname : (Lexeme.name "H").Spells (Byte.ofAscii "/H") :=
    .name (.cons (.plain (by decide)) .nil)
  have hone : (Lexeme.int 1).Spells (Byte.ofAscii "1") := @Lexeme.spells_digit 0x31 (by decide)
  have hopening : Lexeme.Written (beginLexemes [("W", .int 2), ("H", .int 1)])
      (Byte.ofAscii "BI /W 2  /H 1 ") :=
    pixelEntry_written (hblank.append hblank) (.cons hname hblank (.cons hone hblank .nil))
  have hdata : ∀ position < (Byte.ofAscii "x").length,
      ¬IsImageEnd ((Byte.ofAscii "x" ++ 0x20 :: (Byte.ofAscii "EI" ++ [0x20])).drop position) := by
    decide
  have himage : SpelledBy (image [.dict [("W", .int 2), ("H", .int 1)], .str (Byte.ofAscii "x")])
      (Byte.ofAscii "BI /W 2  /H 1 ID x EI ") :=
    .image pixelEntries_writable (by decide) hopening rfl rfl hblank hdata
  have hrestore : SpelledBy ⟨"Q", []⟩ (Byte.ofAscii "Q ") :=
    .lexemes (writable_bare .restoreState) (.cons (.operator "Q") hblank .nil)
  have hfront := Front.operation himage (.operation hrestore front_nil)
  exact hfront

/-- The image up to its first entry is written so. -/
theorem pixelBefore_written : Lexeme.Written (beginLexemes [("W", .int 2)]) pixelBefore :=
  pixelEntry_written (.blank (by decide)) .nil

/-- The first entry can stand in page content. -/
theorem pixelEntry_writable :
    ∀ entry ∈ ([("W", .int 2)] : Dict), entry.2.Writable Operand.maxNesting :=
  List.forall_mem_singleton.2 (.int (by decide))

/-- The content can be cut behind its first entry. -/
theorem pixelBefore_cutAt : CutAt [] (some [("W", .int 2)]) pixelBefore :=
  .entries front_nil pixelEntry_writable (by decide) pixelBefore_written

/-- A parenthesis behind the whole content costs nothing; one behind the first entry of the
image leaves the image with this entry and costs all that follows. -/
theorem readAll_strayByte_pixel :
    CutAt pixel none (pixelBefore ++ pixelAfter) ∧
    CutAt [] (some [("W", .int 2)]) pixelBefore ∧
    Front pixel [] (pixelBefore ++ pixelAfter) ∧
    readAll (pixelBefore ++ pixelAfter ++ Byte.ofChar ')' :: Byte.ofAscii "[(") =
      readAll (pixelBefore ++ pixelAfter ++ Byte.ofAscii "[(") ∧
    readAll (pixelBefore ++ Byte.ofChar ')' :: pixelAfter) =
      [image [.dict [("W", .int 2)]]] ∧
    readAll (pixelBefore ++ pixelAfter) = pixel ∧
    readAll (pixelBefore ++ Byte.ofChar ')' :: pixelAfter) ≠ pixel := by
  have hbehind : CutAt pixel none (pixelBefore ++ pixelAfter) := .topLevel pixel_front
  obtain ⟨hkept, -, -⟩ := readAll_strayByte hbehind (Byte.ofAscii "[(")
  obtain ⟨-, hcut, hread⟩ := readAll_strayByte pixelBefore_cutAt pixelAfter
  obtain ⟨hback, hiff⟩ := hread pixel pixel_front
  have hother : readAll (pixelBefore ++ Byte.ofChar ')' :: pixelAfter) ≠ pixel := by
    intro h
    cases hiff.1 h
  exact ⟨hbehind, pixelBefore_cutAt, pixel_front, hkept rfl, hcut _ rfl, hback, hother⟩

/-- Between the entries of an image a closing parenthesis does not leave the operations as they
are: the second entry, the data and the operation behind the image are lost. -/
theorem strayByte_cutsImage :
    Front pixel [] (Byte.ofAscii "BI /W 2  /H 1 ID x EI Q ") ∧
    readAll (Byte.ofAscii "BI /W 2  /H 1 ID x EI Q ") = pixel ∧
    readAll (Byte.ofAscii "BI /W 2 ) /H 1 ID x EI Q ") = [image [.dict [("W", .int 2)]]] ∧
    readAll (Byte.ofAscii "BI /W 2 ) /H 1 ID x EI Q ") ≠
      readAll (Byte.ofAscii "BI /W 2  /H 1 ID x EI Q ") := by
  have hread : readAll (Byte.ofAscii "BI /W 2  /H 1 ID x EI Q ") = pixel := pixel_front.readAll
  have hcut : readAll (Byte.ofAscii "BI /W 2 ) /H 1 ID x EI Q ") =
      [image [.dict [("W", .int 2)]]] :=
    front_nil.readAll_cutImage pixelEntry_writable (by decide) pixelBefore_written pixelAfter
  refine ⟨pixel_front, hread, hcut, ?_⟩
  rw [hread, hcut, pixel]
  simp

end Operation

end PageText
