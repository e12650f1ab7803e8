import PageText.Proofs.Utf8
import PageText.Spelling.Hex
import PageText.Spelling.Literal
import PageText.Spelling.Name

/-!
# Written strings and names

How byte strings and names may be written, and that each such form is read back:
hexadecimal digits with blanks anywhere, literal bodies with escaped parentheses, and
names with escaped bytes. The brackets and the slash around these belong to the
lexemes and are not treated here.
-/

namespace PageText.Byte

/-- A property of all bytes may be checked byte by byte. -/
theorem forall_of_fin {p : UInt8 → Prop} (h : ∀ n : Fin 256, p (UInt8.ofFin n)) (b : UInt8) :
    p b :=
  h b.toFin

/-- A digit is no delimiter, so it may stand within a word. -/
theorem isRegular_of_isHexDigit {b : UInt8} (hb : isHexDigit b = true) : isRegular b = true := by
  have h : ∀ b : UInt8, isHexDigit b = true → isRegular b = true :=
    forall_of_fin (by decide +kernel)
  exact h b hb

/-- Bytes past ASCII belong to words. -/
theorem isRegular_of_le {b : UInt8} (hb : 0x80 ≤ b) : isRegular b = true := by
  have h : ∀ b : UInt8, 0x80 ≤ b → isRegular b = true := forall_of_fin (by decide +kernel)
  exact h b hb

/-- Hexadecimal digits are ASCII. -/
theorem lt_of_isHexDigit {b : UInt8} (hb : isHexDigit b = true) : b < 0x80 := by
  have h : ∀ b : UInt8, isHexDigit b = true → b < 0x80 := forall_of_fin (by decide +kernel)
  exact h b hb

/-- No blank has a hexadecimal value. -/
theorem hexValue?_of_isBlank {b : UInt8} (hb : isBlank b = true) : hexValue? b = none := by
  have h : ∀ b : UInt8, isBlank b = true → hexValue? b = none :=
    forall_of_fin (by decide +kernel)
  exact h b hb

/-- An ASCII character survives the passage through its byte. -/
theorem toLatin1_ofChar {c : Char} (hc : c.toNat < 0x80) : toLatin1 (ofChar c) = c := by
  rw [toLatin1, ofChar, Text.Utf8.toNat_toUInt8 (by omega), Char.ofNat_toNat]

/-- A byte survives the passage through its character. -/
theorem ofChar_toLatin1 (b : UInt8) : ofChar (toLatin1 b) = b := by
  revert b
  exact forall_of_fin (by decide +kernel)

/-- Two digits of either letter case spell the upper and the lower half of a byte. -/
structure SpelledBy (b high low : UInt8) : Prop where
  /-- The first digit has the value of the upper four bits. -/
  upper : hexValue? high = some (b / 16)
  /-- The second digit has the value of the lower four bits. -/
  lower : hexValue? low = some (b % 16)

/-- The two halves of a byte make the byte. -/
theorem ofHexPair_div_mod (b : UInt8) : ofHexPair (b / 16) (b % 16) = b := by
  revert b
  exact forall_of_fin (by decide +kernel)

/-- Each byte has two digits that spell it. -/
theorem exists_spelledBy (b : UInt8) : ∃ high low, SpelledBy b high low := by
  have hdigit : ∀ v : UInt8, v < 16 → ∃ d, hexValue? d = some v := by
    have h : ∀ n : Fin 16, ∃ d ∈ ofAscii "0123456789abcdef", hexValue? d = some n.val.toUInt8 := by
      decide
    intro v hv
    obtain ⟨d, -, hd⟩ := h ⟨v.toNat, hv⟩
    exact ⟨d, by rw [hd, Nat.toUInt8_eq, UInt8.ofNat_toNat]⟩
  have hb : b / 16 < 16 ∧ b % 16 < 16 := by
    revert b
    exact forall_of_fin (by decide +kernel)
  obtain ⟨high, hh⟩ := hdigit _ hb.1
  obtain ⟨low, hl⟩ := hdigit _ hb.2
  exact ⟨high, low, hh, hl⟩

namespace SpelledBy

variable {b high low : UInt8}

/-- The first digit is a digit. -/
theorem isHexDigit_high (h : SpelledBy b high low) : isHexDigit high = true := by
  rw [isHexDigit, h.upper]
  rfl

/-- The second digit is a digit. -/
theorem isHexDigit_low (h : SpelledBy b high low) : isHexDigit low = true := by
  rw [isHexDigit, h.lower]
  rfl

end SpelledBy

end PageText.Byte

namespace PageText.Spelling.Hex

/-- The bodies that spell a byte string: two digits a byte, blanks anywhere. -/
inductive Spells : List UInt8 → List UInt8 → Prop where
  /-- Nothing spells the empty string. -/
  | nil : Spells [] []
  /-- A blank between bytes, before the first or after the last one. -/
  | blank {b : UInt8} {bytes body : List UInt8} (hb : Byte.isBlank b = true)
      (hs : Spells bytes body) : Spells bytes (b :: body)
  /-- A byte, with blanks between its two digits. -/
  | byte {b high low : UInt8} {gap bytes body : List UInt8} (hb : Byte.SpelledBy b high low)
      (hg : ∀ g ∈ gap, Byte.isBlank g = true) (hs : Spells bytes body) :
      Spells (b :: bytes) (high :: (gap ++ low :: body))

/-- A body holds digits and blanks only. -/
theorem Spells.mem {bytes body : List UInt8} (h : Spells bytes body) :
    ∀ b ∈ body, (Byte.isHexDigit b || Byte.isBlank b) = true := by
  induction h with
  | nil => exact fun b hb => absurd hb List.not_mem_nil
  | blank hb _ ih =>
    refine List.forall_mem_cons.2 ⟨?_, ih⟩
    rw [hb, Bool.or_true]
  | byte hb hg _ ih =>
    refine List.forall_mem_cons.2 ⟨?_, List.forall_mem_append.2 ⟨?_, ?_⟩⟩
    · rw [hb.isHexDigit_high, Bool.true_or]
    · intro g hmem
      rw [hg g hmem, Bool.or_true]
    · refine List.forall_mem_cons.2 ⟨?_, ih⟩
      rw [hb.isHexDigit_low, Bool.true_or]

/-- Blanks have no digits. -/
theorem filterMap_of_isBlank {gap : List UInt8} (hg : ∀ g ∈ gap, Byte.isBlank g = true) :
    gap.filterMap Byte.hexValue? = [] :=
  List.filterMap_eq_nil_iff.2 fun g hm => Byte.hexValue?_of_isBlank (hg g hm)

/-- The body of a string is read back. -/
theorem Spells.decode {bytes body : List UInt8} (h : Spells bytes body) :
    decode body = bytes := by
  induction h with
  | nil => rfl
  | blank hb _ ih =>
    rw [← ih, Hex.decode, List.filterMap_cons_none (Byte.hexValue?_of_isBlank hb), Hex.decode]
  | @byte b high low gap bytes body hb hg _ ih =>
    rw [Hex.decode] at ih
    rw [Hex.decode, List.filterMap_cons_some hb.upper, List.filterMap_append,
      filterMap_of_isBlank hg, List.nil_append, List.filterMap_cons_some hb.lower, joinPairs, ih,
      Byte.ofHexPair_div_mod]

/-- The body of a hexadecimal string ends at its bracket. -/
theorem body?_of_forall {raw : List UInt8}
    (h : ∀ b ∈ raw, (Byte.isHexDigit b || Byte.isBlank b) = true) (rest : List UInt8) :
    body? (raw ++ Byte.ofChar '>' :: rest) = some (raw, rest) := by
  have hend : (Byte.isHexDigit (Byte.ofChar '>') || Byte.isBlank (Byte.ofChar '>')) = false := by
    decide
  rw [Hex.body?, List.dropWhile_append_of_pos h, List.takeWhile_append_of_pos h,
    List.dropWhile_cons_of_neg (by simp [hend]), List.takeWhile_cons_of_neg (by simp [hend])]
  simp

/-- The digits and blanks that spell a string are its body. -/
theorem Spells.body? {bytes body : List UInt8} (h : Spells bytes body) (rest : List UInt8) :
    body? (body ++ Byte.ofChar '>' :: rest) = some (body, rest) :=
  body?_of_forall h.mem rest

/-- Each byte string has a body. -/
theorem exists_spells (bytes : List UInt8) : ∃ body, Spells bytes body := by
  induction bytes with
  | nil => exact ⟨[], .nil⟩
  | cons b bytes ih =>
    obtain ⟨body, hs⟩ := ih
    obtain ⟨high, low, hb⟩ := Byte.exists_spelledBy b
    have hg : ∀ g ∈ ([] : List UInt8), Byte.isBlank g = true :=
      fun g hm => absurd hm List.not_mem_nil
    exact ⟨_, .byte hb hg hs⟩

end PageText.Spelling.Hex

namespace PageText.Spelling.Literal

/-- The bytes that a literal body may not hold as they are. -/
def isSpecial (b : UInt8) : Bool :=
  b == Byte.ofChar '(' || b == Byte.ofChar ')' || b == backslash

/-- Write a byte in a literal body. -/
def escapeByte (b : UInt8) : List UInt8 := if isSpecial b then [backslash, b] else [b]

/-- Write a byte string as a literal body: parentheses and backslashes are escaped,
all else, line ends included, stands as it is. -/
def escape (bytes : List UInt8) : List UInt8 := bytes.flatMap escapeByte

/-- The three bytes that are escaped. -/
theorem isSpecial_iff (b : UInt8) :
    isSpecial b = true ↔ b = Byte.ofChar '(' ∨ b = Byte.ofChar ')' ∨ b = backslash := by
  simp only [isSpecial, Bool.or_eq_true, beq_iff_eq, or_assoc]

/-- A byte that is not escaped neither opens nor closes nor protects anything. -/
theorem bodyFrom?_plain {b : UInt8} (hb : isSpecial b = false) (depth : Nat)
    (rest : List UInt8) :
    bodyFrom? depth false (b :: rest) =
      (bodyFrom? depth false rest).map fun found => (b :: found.1, found.2) := by
  have hn : ¬isSpecial b = true := by simp [hb]
  rw [isSpecial_iff] at hn
  simp only [not_or] at hn
  simp only [bodyFrom?, beq_iff_eq, hn.1, hn.2.1, hn.2.2, Bool.false_eq_true, if_false]

/-- An escaped byte is passed over together with its backslash. -/
theorem bodyFrom?_escaped (b : UInt8) (depth : Nat) (rest : List UInt8) :
    bodyFrom? depth false (backslash :: b :: rest) =
      (bodyFrom? depth false rest).map fun found => (backslash :: b :: found.1, found.2) := by
  simp only [bodyFrom?, beq_self_eq_true, Bool.false_eq_true, if_true, if_false, Option.map_map]
  rfl

/-- The body of an escaped string ends at the parenthesis after it. -/
theorem body?_escape (bytes rest : List UInt8) :
    body? (escape bytes ++ Byte.ofChar ')' :: rest) = some (escape bytes, rest) := by
  rw [body?]
  induction bytes with
  | nil => rfl
  | cons b bytes ih =>
    have hs : escape (b :: bytes) = escapeByte b ++ escape bytes := rfl
    rw [hs, escapeByte]
    split
    · simp only [List.cons_append, List.nil_append, bodyFrom?_escaped, ih, Option.map_some]
    · rename_i hb
      rw [List.singleton_append, List.cons_append, bodyFrom?_plain (by simpa using hb), ih]
      rfl

/-- An escaped string is read back. -/
theorem decode_escape (bytes : List UInt8) : decode (escape bytes) = bytes := by
  rw [decode]
  induction bytes with
  | nil => rfl
  | cons b bytes ih =>
    have hs : escape (b :: bytes) = escapeByte b ++ escape bytes := rfl
    rw [hs, escapeByte]
    by_cases hb : isSpecial b = true
    · have hread : read .escape b = ([b], .nothing) := by
        rcases (isSpecial_iff b).1 hb with rfl | rfl | rfl <;> rfl
      have hslash : read .nothing backslash = ([], .escape) := rfl
      simp only [if_pos hb, List.cons_append, List.nil_append, decodeFrom, hslash, hread, ih]
    · have hread : read .nothing b = ([b], .nothing) := by
        rw [isSpecial_iff] at hb
        simp only [not_or] at hb
        simp only [read, readPlain, beq_iff_eq, hb.2.2, if_false]
      simp only [if_neg hb, List.cons_append, List.nil_append, decodeFrom, hread, ih]

end PageText.Spelling.Literal

namespace PageText.Spelling.Name

/-- The characters of a name that have to be escaped: the number sign, which begins an
escape, and the ASCII characters that would end the name. -/
def isSpecial (c : Char) : Bool :=
  c == '#' || (c.toNat < 0x80 && !Byte.isRegular (Byte.ofChar c))

/-- How a character of a name is written. -/
inductive SpellsChar (c : Char) : List UInt8 → Prop where
  /-- As a number sign and the digits of its byte. -/
  | escaped {high low : UInt8} (hc : isSpecial c = true)
      (hb : Byte.SpelledBy (Byte.ofChar c) high low) :
      SpellsChar c [Byte.ofChar '#', high, low]
  /-- As its own bytes. -/
  | plain (hc : isSpecial c = false) : SpellsChar c (Text.Utf8.encodeChar c)

/-- How the characters of a name are written, one after the other. -/
inductive Spells : List Char → List UInt8 → Prop where
  /-- The empty name. -/
  | nil : Spells [] []
  /-- A character and the rest of the name. -/
  | cons {c : Char} {text : List Char} {first bytes : List UInt8} (hc : SpellsChar c first)
      (hs : Spells text bytes) : Spells (c :: text) (first ++ bytes)

/-- A special character is ASCII. -/
theorem lt_of_isSpecial {c : Char} (hc : isSpecial c = true) : c.toNat < 0x80 := by
  simp only [isSpecial, Bool.or_eq_true, beq_iff_eq, Bool.and_eq_true, decide_eq_true_eq] at hc
  rcases hc with rfl | hc
  · decide
  · exact hc.1

/-- All bytes of a written character belong to words. -/
theorem SpellsChar.isRegular {c : Char} {bytes : List UInt8} (h : SpellsChar c bytes) :
    ∀ b ∈ bytes, Byte.isRegular b = true := by
  cases h with
  | escaped _ hb =>
    simp only [List.forall_mem_cons, List.not_mem_nil, false_implies, implies_true, and_true]
    exact ⟨by decide, Byte.isRegular_of_isHexDigit hb.isHexDigit_high,
      Byte.isRegular_of_isHexDigit hb.isHexDigit_low⟩
  | plain hc =>
    by_cases ha : c.toNat < 0x80
    · rw [Text.Utf8.encodeChar_ascii ha]
      intro b hb
      rw [List.mem_singleton.1 hb]
      simp only [isSpecial, Bool.or_eq_false_iff, Bool.and_eq_false_iff, decide_eq_false_iff_not,
        Bool.not_eq_false'] at hc
      exact hc.2.resolve_left fun hn => hn ha
    · intro b hb
      exact Byte.isRegular_of_le (Text.Utf8.le_of_mem_encodeChar (by omega) b hb)

/-- All bytes of a written name belong to words. -/
theorem Spells.isRegular {text : List Char} {bytes : List UInt8} (h : Spells text bytes) :
    ∀ b ∈ bytes, Byte.isRegular b = true := by
  induction h with
  | nil => exact fun b hb => absurd hb List.not_mem_nil
  | cons hc _ ih => exact List.forall_mem_append.2 ⟨hc.isRegular, ih⟩

/-- A character other than the number sign stands for itself, whatever follows. -/
theorem decode_cons_of_ne {c : Char} (hc : c ≠ '#') (rest : List Char) :
    decode (c :: rest) = c :: decode rest := by
  match rest with
  | [] => rfl
  | [_] => rfl
  | _ :: _ :: _ => rw [decode, if_neg hc]

/-- A complete escape stands for its character. -/
theorem decode_escape {high low e : Char} (he : escaped? high low = some e) (rest : List Char) :
    decode ('#' :: high :: low :: rest) = e :: decode rest := by
  rw [decode, if_pos rfl, he]

/-- The character of a digit has the value of the digit. -/
theorem hexValue?_toLatin1 {d : UInt8} (hd : Byte.isHexDigit d = true) :
    hexValue? (Byte.toLatin1 d) = Byte.hexValue? d := by
  have hlt : (Byte.toLatin1 d).toNat < 128 := by
    have h : ∀ b : UInt8, b < 0x80 → (Byte.toLatin1 b).toNat < 128 :=
      Byte.forall_of_fin (by decide +kernel)
    exact h d (Byte.lt_of_isHexDigit hd)
  rw [hexValue?, if_pos hlt, Byte.ofChar_toLatin1]

/-- Two digits that spell a byte make the escape of the character of its code. -/
theorem escaped?_of_spelledBy {b high low : UInt8} (hb : Byte.SpelledBy b high low) :
    escaped? (Byte.toLatin1 high) (Byte.toLatin1 low) = some (Byte.toLatin1 b) := by
  rw [escaped?, hexValue?_toLatin1 hb.isHexDigit_high, hexValue?_toLatin1 hb.isHexDigit_low,
    hb.upper, hb.lower]
  show some (Byte.toLatin1 (Byte.ofHexPair _ _)) = _
  rw [Byte.ofHexPair_div_mod]

/-- Between characters an ASCII byte is the character of its code. -/
theorem decodeFrom_of_lt {b : UInt8} (hb : b < 0x80) (rest : List UInt8) :
    Text.Utf8.decodeFrom none (b :: rest) =
      Byte.toLatin1 b :: Text.Utf8.decodeFrom none rest := by
  have hn := Text.Utf8.decodeFrom_ascii (n := b.toNat) hb rest
  rwa [Nat.toUInt8_eq, UInt8.ofNat_toNat] at hn

/-- An escaped byte is read as the character of its code, whatever bytes follow. -/
theorem decode_spelledBy {b high low : UInt8} (hb : Byte.SpelledBy b high low)
    (rest : List UInt8) :
    decode (Text.Utf8.decodeFrom none (Byte.ofChar '#' :: high :: low :: rest)) =
      Byte.toLatin1 b :: decode (Text.Utf8.decodeFrom none rest) := by
  have hsign : Byte.toLatin1 (Byte.ofChar '#') = '#' := by decide
  rw [decodeFrom_of_lt (by decide), decodeFrom_of_lt (Byte.lt_of_isHexDigit hb.isHexDigit_high),
    decodeFrom_of_lt (Byte.lt_of_isHexDigit hb.isHexDigit_low), hsign,
    decode_escape (escaped?_of_spelledBy hb)]

/-- A written character is read back, whatever bytes follow. -/
theorem SpellsChar.decode {c : Char} {bytes : List UInt8} (h : SpellsChar c bytes)
    (rest : List UInt8) :
    decode (Text.Utf8.decodeFrom none (bytes ++ rest)) =
      c :: decode (Text.Utf8.decodeFrom none rest) := by
  cases h with
  | @escaped high low hc hb =>
    simp only [List.cons_append, List.nil_append]
    rw [decode_spelledBy hb, Byte.toLatin1_ofChar (lt_of_isSpecial hc)]
  | plain hc =>
    have hne : c ≠ '#' := by
      rintro rfl
      exact absurd hc (by decide)
    rw [Text.Utf8.decodeFrom_encodeChar, decode_cons_of_ne hne]

/-- A written name is read back. -/
theorem Spells.ofBytes {text : List Char} {bytes : List UInt8} (h : Spells text bytes) :
    ofBytes bytes = String.ofList text := by
  have hd : decode (Text.Utf8.decodeFrom none bytes) = text := by
    induction h with
    | nil => rfl
    | cons hc _ ih => rw [hc.decode, ih]
  rw [Name.ofBytes, Text.Utf8.decodeLossy, hd]

/-- Each name can be written. -/
theorem exists_spells (text : List Char) : ∃ bytes, Spells text bytes := by
  induction text with
  | nil => exact ⟨[], .nil⟩
  | cons c text ih =>
    obtain ⟨bytes, hs⟩ := ih
    cases hc : isSpecial c with
    | true =>
      obtain ⟨high, low, hb⟩ := Byte.exists_spelledBy (Byte.ofChar c)
      exact ⟨_, .cons (.escaped hc hb) hs⟩
    | false => exact ⟨_, .cons (.plain hc) hs⟩

end PageText.Spelling.Name
