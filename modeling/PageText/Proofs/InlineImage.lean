import PageText.Proofs.Writing

/-!
# Inline images

An inline image stands in page content as `BI`, the entries of its dictionary, `ID`, one blank,
the data, one blank and `EI`. The data may be any bytes at all, as long as the end of the image
does not occur in them: it may begin with blanks, hold `EI` within a longer word, or be empty.
This module says where an image ends and shows that an image that is written so is read as one
operation with its entries and its data, and that what follows its `EI` is read as if it stood
alone.
-/

namespace PageText

namespace Token

/-- The only token that means a name is the name. -/
theorem eq_name_of_lexeme {token : Token} {text : String} (h : token.lexeme = .name text) :
    token = .name text := by
  cases token with
  | name text' =>
    cases h
    rfl
  | _ => cases h

/-- The words around the entries of an image are tokens. -/
theorem read?_imageWord {word rest : List UInt8}
    (hw : word = Byte.ofAscii "BI" ∨ word = Byte.ofAscii "ID") (h : EndsWord rest) :
    read? (word ++ rest) = some (.keyword word, rest) := by
  rcases hw with rfl | rfl
  · exact read?_word (by decide) (List.all_eq_true.1 rfl) h
  · exact read?_word (by decide) (List.all_eq_true.1 rfl) h

end Token

/-- A blank of an image is a blank between tokens. -/
theorem Byte.isBlank_of_isAsciiBlank {b : UInt8} (h : isAsciiBlank b = true) :
    isBlank b = true := by
  simp only [isAsciiBlank, Bool.or_eq_true] at h
  simp only [isBlank, Bool.or_eq_true]
  tauto

/-- A word ends before a blank of an image. -/
theorem Token.endsWord_of_isAsciiBlank {b : UInt8} (h : Byte.isAsciiBlank b = true)
    (rest : List UInt8) : EndsWord (b :: rest) :=
  (Gap.blank (Byte.isBlank_of_isAsciiBlank h)).endsWord rest

namespace Operation

/-- Whether an image that these bytes follow ends here: with a blank, `EI`, and the end of the
word. -/
def IsImageEnd (bytes : List UInt8) : Prop :=
  ∃ blank rest, bytes = blank :: (Byte.ofAscii "EI" ++ rest) ∧
    Byte.isAsciiBlank blank = true ∧ Token.EndsWord rest

/-- The end of an image is what its reader looks for. -/
theorem endsImage_iff (bytes : List UInt8) : endsImage bytes = true ↔ IsImageEnd bytes := by
  constructor
  · intro h
    unfold endsImage at h
    split at h
    · rename_i blank e i rest
      simp only [Bool.and_eq_true, beq_iff_eq, Bool.not_eq_true', Option.any_eq_false] at h
      obtain ⟨⟨⟨hblank, rfl⟩, rfl⟩, hword⟩ := h
      exact ⟨blank, rest, rfl, hblank, by simpa [Token.EndsWord] using hword⟩
    · cases h
  · rintro ⟨blank, rest, rfl, hblank, hword⟩
    have hrest : rest.head?.any Byte.isRegular = false := by
      cases rest with
      | nil => rfl
      | cons b rest => exact hword b rfl
    have hend : Byte.ofAscii "EI" = [Byte.ofChar 'E', Byte.ofChar 'I'] := rfl
    simp [hend, endsImage, hblank, hrest]

/-- Whether an image ends here can be decided. -/
instance (bytes : List UInt8) : Decidable (IsImageEnd bytes) :=
  decidable_of_iff _ (endsImage_iff bytes)

/-- The data of an image ends at the first end of an image, and what follows that is left. -/
theorem splitImage_append {data rest : List UInt8} {blank : UInt8}
    (hb : Byte.isAsciiBlank blank = true) (hr : Token.EndsWord rest)
    (hd : ∀ position < data.length,
      ¬IsImageEnd ((data ++ blank :: (Byte.ofAscii "EI" ++ rest)).drop position)) :
    splitImage (data ++ blank :: (Byte.ofAscii "EI" ++ rest)) = (data, rest) := by
  induction data with
  | nil =>
    have hend : endsImage (blank :: (Byte.ofAscii "EI" ++ rest)) = true :=
      (endsImage_iff _).2 ⟨blank, rest, rfl, hb, hr⟩
    rw [List.nil_append, splitImage, if_pos hend]
    rfl
  | cons b data ih =>
    have hfirst : ¬endsImage (b :: (data ++ blank :: (Byte.ofAscii "EI" ++ rest))) = true := by
      rw [endsImage_iff]
      exact hd 0 (Nat.zero_lt_succ _)
    have hothers : ∀ position < data.length,
        ¬IsImageEnd ((data ++ blank :: (Byte.ofAscii "EI" ++ rest)).drop position) := by
      intro position hp
      exact hd (position + 1) (Nat.succ_lt_succ hp)
    rw [List.cons_append, splitImage, if_neg hfirst, ih hothers]

/-- Reading an image without the proofs that its definition carries along. -/
theorem readImage_eq (entries : Dict) (bytes : List UInt8) :
    readImage entries bytes =
      match Token.read? bytes with
      | none => (image [.dict entries], [])
      | some (.keyword word, rest) =>
        if word = Byte.ofAscii "ID" then
          (image [.dict entries, .str (splitImage (dropSeparator rest)).1],
            (splitImage (dropSeparator rest)).2)
        else readImage entries rest
      | some (.name key, rest) =>
        match Operand.read? rest with
        | some (value, rest') => readImage (entries.insert key value) rest'
        | none => readImage entries rest
      | some (_, rest) => readImage entries rest := by
  rw [readImage]
  split
  · rename_i h
    rw [h]
  · rename_i h
    rw [h]
  · rename_i h
    rw [h]
    dsimp only
    split
    · rename_i k
      rw [k]
    · rename_i k
      rw [k]
  · rename_i token rest hword hname h
    rw [h]
    cases token with
    | keyword word => exact absurd rfl (hword word)
    | name key => exact absurd rfl (hname key)
    | _ => rfl

/-- What may be skipped before the next entry makes no difference to reading an image. -/
theorem readImage_gap {gap : List UInt8} (hg : Token.Gap gap) (entries : Dict)
    (rest : List UInt8) : readImage entries (gap ++ rest) = readImage entries rest := by
  rw [readImage_eq entries (gap ++ rest), readImage_eq entries rest,
    Token.read?_congr (hg.skipBlank_append rest)]

/-- A key and its value are one entry. -/
theorem readImage_entry {bytes rest rest' : List UInt8} {key : String} {value : Object}
    (hk : Token.read? bytes = some (.name key, rest))
    (hv : Operand.read? rest = some (value, rest')) (entries : Dict) :
    readImage entries bytes = readImage (entries.insert key value) rest' := by
  rw [readImage_eq, hk]
  simp only [hv]

/-- Written entries are collected in order. -/
theorem readImage_entries {entries : Dict}
    (he : ∀ entry ∈ entries, entry.2.Writable Operand.maxNesting) (before : Dict)
    (hk : ((before ++ entries).map Prod.fst).Nodup) {bytes : List UInt8}
    (hw : Lexeme.Written (Object.entryLexemes entries) bytes) (rest : List UInt8) :
    readImage before (bytes ++ rest) = readImage (before ++ entries) rest := by
  induction entries generalizing before bytes with
  | nil =>
    cases hw
    rw [List.nil_append, List.append_nil]
  | cons entry entries ih =>
    obtain ⟨key, value⟩ := entry
    obtain ⟨hvalue, hentries⟩ := List.forall_mem_cons.1 he
    rw [Object.entryLexemes] at hw
    cases hw with
    | @cons _ _ word gap _ hs hg hw =>
      obtain ⟨first, others, rfl, hfirst, hothers⟩ := Lexeme.Written.append_iff.1 hw
      have hassoc : word ++ gap ++ (first ++ others) ++ rest =
          word ++ (gap ++ (first ++ (others ++ rest))) := by simp only [List.append_assoc]
      obtain ⟨token, hread, hname⟩ :=
        hs.read? trivial (hg.endsWord (first ++ (others ++ rest)))
      rw [Token.eq_name_of_lexeme hname] at hread
      obtain ⟨gap', hg', hfound⟩ := Operand.read?_written hvalue hfirst (others ++ rest)
      have hoperand : Operand.read? (gap ++ (first ++ (others ++ rest))) =
          some (value, gap' ++ (others ++ rest)) := by
        rw [Operand.read?, Operand.finish?_gap hg]
        exact hfound
      rw [hassoc, readImage_entry hread hoperand, readImage_gap hg',
        Dict.insert_of_nodup hk, ih hentries _ (by simpa using hk) hothers,
        List.append_assoc, List.singleton_append]

/-- Behind `ID` one blank separates the data, which is taken up to the end of the image. -/
theorem readImage_data {data rest : List UInt8} {separator blank : UInt8}
    (hs : Byte.isAsciiBlank separator = true) (hb : Byte.isAsciiBlank blank = true)
    (hr : Token.EndsWord rest)
    (hd : ∀ position < data.length,
      ¬IsImageEnd ((data ++ blank :: (Byte.ofAscii "EI" ++ rest)).drop position))
    (entries : Dict) :
    readImage entries
        (Byte.ofAscii "ID" ++ separator :: (data ++ blank :: (Byte.ofAscii "EI" ++ rest))) =
      (image [.dict entries, .str data], rest) := by
  have hread := Token.read?_imageWord (Or.inr rfl) (Token.endsWord_of_isAsciiBlank hs
    (data ++ blank :: (Byte.ofAscii "EI" ++ rest)))
  rw [readImage_eq, hread]
  simp only [if_true, dropSeparator, if_pos hs, splitImage_append hb hr hd]

/-- From the keyword of an image on its entries are collected; operands before it are dropped. -/
theorem nextFrom?_of_image {bytes rest : List UInt8}
    (h : Token.read? bytes = some (.keyword (Byte.ofAscii "BI"), rest)) (operands : List Object) :
    nextFrom? operands bytes = some (readImage [] rest) := by
  obtain ⟨b, tail, hskip, hat⟩ := Token.exists_of_read? h
  rw [nextFrom?_eq, hskip]
  simp only [hat, if_true]

/-- The beginning of an image with entries: `BI`, and each key with its value. -/
def beginLexemes (entries : Dict) : List Lexeme :=
  .operator "BI" :: Object.entryLexemes entries

/-- Written entries are collected from the beginning of their image on. -/
theorem nextFrom?_imageBegin {entries : Dict}
    (he : ∀ entry ∈ entries, entry.2.Writable Operand.maxNesting)
    (hk : (entries.map Prod.fst).Nodup) {bytes : List UInt8}
    (hw : Lexeme.Written (beginLexemes entries) bytes) (operands : List Object)
    (rest : List UInt8) : nextFrom? operands (bytes ++ rest) = some (readImage entries rest) := by
  rw [beginLexemes] at hw
  cases hw with
  | @cons _ _ word gap dict hs hg hw =>
    cases hs with
    | operator =>
      have hword : Text.Utf8.encode "BI".toList = Byte.ofAscii "BI" := by decide
      have hread := Token.read?_imageWord (Or.inl rfl) (hg.endsWord (dict ++ rest))
      rw [hword, List.append_assoc, List.append_assoc, nextFrom?_of_image hread,
        readImage_gap hg, readImage_entries he [] hk hw, List.nil_append]

/-- The beginning of an image can be written. -/
theorem exists_imageBegin {entries : Dict}
    (he : ∀ entry ∈ entries, entry.2.Writable Operand.maxNesting) :
    ∃ bytes, Lexeme.Written (beginLexemes entries) bytes := by
  have hentries : ∀ lexeme ∈ Object.entryLexemes entries, lexeme.Writable := by
    intro lexeme hm
    rw [Object.entryLexemes_eq] at hm
    obtain ⟨entry, hentry, hl⟩ := List.mem_flatMap.1 hm
    rcases List.mem_cons.1 hl with rfl | hl
    · exact trivial
    · exact (he entry hentry).lexemes lexeme hl
  obtain ⟨dict, hdict⟩ := Lexeme.Written.exists_written hentries
  have hblank : Token.Gap [0x20] := .blank (by decide)
  exact ⟨_, .cons (.operator "BI") hblank hdict⟩

/-- An inline image is carried whole and costs nothing else. Entries that page content can hold
can be written, and however they are, reading gives the image with these entries and the data
between the blank behind `ID` and the first end of an image, and then what the rest gives on its
own. -/
theorem readAll_image {entries : Dict}
    (he : ∀ entry ∈ entries, entry.2.Writable Operand.maxNesting)
    (hk : (entries.map Prod.fst).Nodup) :
    (∃ bytes, Lexeme.Written (beginLexemes entries) bytes) ∧
      ∀ bytes data separator blank rest, Lexeme.Written (beginLexemes entries) bytes →
        Byte.isAsciiBlank separator = true → Byte.isAsciiBlank blank = true →
        Token.EndsWord rest →
        (∀ position < data.length,
          ¬IsImageEnd ((data ++ blank :: (Byte.ofAscii "EI" ++ rest)).drop position)) →
        readAll (bytes ++ (Byte.ofAscii "ID" ++
            separator :: (data ++ blank :: (Byte.ofAscii "EI" ++ rest)))) =
          image [.dict entries, .str data] :: readAll rest := by
  refine ⟨exists_imageBegin he, ?_⟩
  intro bytes data separator blank rest hw hs hb hr hd
  refine readAll_of_next? ?_
  rw [next?, nextFrom?_imageBegin he hk hw, readImage_data hs hb hr hd]

/-- The entries of a small image. -/
def maskEntries : Dict := [("IM", .bool true), ("D", .array [.null])]

/-- They can stand in page content. -/
theorem maskEntries_writable :
    ∀ entry ∈ maskEntries, entry.2.Writable Operand.maxNesting := by
  have hflag : (Object.bool true).Writable Operand.maxNesting := .bool true
  have hitems : (Object.array [.null]).Writable Operand.maxNesting :=
    .array (List.forall_mem_singleton.2 .null)
  simp only [maskEntries, List.forall_mem_cons]
  exact ⟨hflag, hitems, by simp⟩

/-- One way to write them, with a comment in a gap. -/
def maskBegin : List UInt8 := Byte.ofAscii "BI /IM true%D\n/D [ null ] "

/-- The entries of the small image are written so. -/
theorem maskBegin_written : Lexeme.Written (beginLexemes maskEntries) maskBegin := by
  have hblank : Token.Gap [0x20] := .blank (by decide)
  have hcomment : Token.Gap (Byte.ofAscii "%D\n") :=
    @Token.Gap.comment [0x44] 0x0A (List.forall_mem_singleton.2 rfl) rfl
  have hmask : Spelling.Name.Spells "IM".toList (Byte.ofAscii "IM") :=
    .cons (.plain (by decide)) (.cons (.plain (by decide)) .nil)
  have hdecode : Spelling.Name.Spells "D".toList (Byte.ofAscii "D") :=
    .cons (.plain (by decide)) .nil
  exact .cons (.operator "BI") hblank (.cons (.name hmask) hblank (.cons (.bool true) hcomment
    (.cons (.name hdecode) hblank (.cons .arrayOpen hblank (.cons .null hblank
      (.cons .arrayClose hblank .nil))))))

/-- Data that begins with blanks, holds `EI` in longer words and ends in one of them. -/
def maskData : List UInt8 := Byte.ofAscii "\n EIx-EI"

/-- The law for a small image with such data, before a tail that has no end. -/
theorem readAll_image_mask :
    (∀ entry ∈ maskEntries, entry.2.Writable Operand.maxNesting) ∧
    (maskEntries.map Prod.fst).Nodup ∧
    Lexeme.Written (beginLexemes maskEntries) maskBegin ∧
    Byte.isAsciiBlank 0x0D = true ∧ Byte.isAsciiBlank 0x0A = true ∧
    Token.EndsWord (Byte.ofAscii "[(") ∧
    (∀ position < maskData.length,
      ¬IsImageEnd ((maskData ++
        0x0A :: (Byte.ofAscii "EI" ++ Byte.ofAscii "[(")).drop position)) ∧
    readAll (maskBegin ++ (Byte.ofAscii "ID" ++
        0x0D :: (maskData ++ 0x0A :: (Byte.ofAscii "EI" ++ Byte.ofAscii "[(")))) =
      image [.dict maskEntries, .str maskData] :: readAll (Byte.ofAscii "[(") := by
  have hkeys : (maskEntries.map Prod.fst).Nodup := by decide
  have hword : Token.EndsWord (Byte.ofAscii "[(") := by
    intro b hb
    cases hb
    decide
  have hdata : ∀ position < maskData.length,
      ¬IsImageEnd ((maskData ++
        0x0A :: (Byte.ofAscii "EI" ++ Byte.ofAscii "[(")).drop position) := by decide +kernel
  exact ⟨maskEntries_writable, hkeys, maskBegin_written, rfl, rfl, hword, hdata,
    (readAll_image maskEntries_writable hkeys).2 _ _ _ _ _ maskBegin_written rfl rfl hword hdata⟩

end Operation

end PageText
