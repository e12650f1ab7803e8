import PageText.Proofs.Decimal
import PageText.Token

/-!
# Written tokens

A lexeme is what a token means once its spelling no longer matters. This module says
how each lexeme may be written and what may stand between two of them, and shows that
reading a token off any such text gives the lexeme and stops at the right byte. Which
lexemes make an operand or an operation is decided elsewhere.
-/

namespace PageText

namespace Token

/-- What may separate tokens: blanks, and comments with the line end that closes them,
in any mix but not nothing. -/
inductive Gap : List UInt8 → Prop where
  /-- One blank. -/
  | blank {b : UInt8} (hb : Byte.isBlank b = true) : Gap [b]
  /-- A comment up to and with its line end. -/
  | comment {text : List UInt8} {last : UInt8} (ht : ∀ b ∈ text, Byte.isLineEnd b = false)
      (hl : Byte.isLineEnd last = true) : Gap (Byte.ofChar '%' :: (text ++ [last]))
  /-- One gap after another. -/
  | append {first second : List UInt8} (hf : Gap first) (hs : Gap second) :
      Gap (first ++ second)

/-- Whether a word ends where this input begins. -/
def EndsWord (bytes : List UInt8) : Prop := ∀ b ∈ bytes.head?, Byte.isRegular b = false

/-- The text of a comment is skipped. -/
theorem skipFrom_comment {text : List UInt8} (ht : ∀ b ∈ text, Byte.isLineEnd b = false)
    (rest : List UInt8) : skipFrom true (text ++ rest) = skipFrom true rest := by
  induction text with
  | nil => rfl
  | cons b text ih =>
    obtain ⟨hb, htext⟩ := List.forall_mem_cons.1 ht
    rw [List.cons_append, skipFrom, hb]
    exact ih htext

/-- A gap is skipped as a whole, whatever follows. -/
theorem Gap.skipBlank_append {gap : List UInt8} (h : Gap gap) (rest : List UInt8) :
    skipBlank (gap ++ rest) = skipBlank rest := by
  induction h generalizing rest with
  | blank hb => rw [List.singleton_append, skipBlank, skipFrom, if_pos hb, skipBlank]
  | @comment text last ht hl =>
    have hp : ¬Byte.isBlank (Byte.ofChar '%') = true := by decide
    rw [List.cons_append, List.append_assoc, skipBlank, skipFrom, if_neg hp,
      if_pos (beq_self_eq_true _), skipFrom_comment ht, List.singleton_append, skipFrom, hl]
    rfl
  | append _ _ ihf ihs => rw [List.append_assoc, ihf, ihs]

/-- A gap begins with a byte of no word. -/
theorem Gap.exists_cons {gap : List UInt8} (h : Gap gap) :
    ∃ b rest, gap = b :: rest ∧ Byte.isRegular b = false := by
  induction h with
  | @blank b hb =>
    refine ⟨b, [], rfl, ?_⟩
    rw [Byte.isRegular, (Byte.isBlank_iff b).1 hb]
    rfl
  | comment _ _ => exact ⟨_, _, rfl, by decide⟩
  | @append first second _ _ ihf _ =>
    obtain ⟨b, rest, rfl, hb⟩ := ihf
    exact ⟨b, rest ++ second, rfl, hb⟩

/-- A word ends before a gap. -/
theorem Gap.endsWord {gap : List UInt8} (h : Gap gap) (rest : List UInt8) :
    EndsWord (gap ++ rest) := by
  obtain ⟨b, more, rfl, hb⟩ := h.exists_cons
  simpa [EndsWord] using hb

/-- Where no word goes on, none is taken. -/
theorem EndsWord.takeWhile {bytes : List UInt8} (h : EndsWord bytes) :
    bytes.takeWhile Byte.isRegular = [] := by
  cases bytes with
  | nil => rfl
  | cons b bytes => exact List.takeWhile_cons_of_neg (by simpa using h b rfl)

/-- Where no word goes on, nothing is dropped. -/
theorem EndsWord.dropWhile {bytes : List UInt8} (h : EndsWord bytes) :
    bytes.dropWhile Byte.isRegular = bytes := by
  cases bytes with
  | nil => rfl
  | cons b bytes => exact List.dropWhile_cons_of_neg (by simpa using h b rfl)

/-- Nothing is skipped before a byte that is neither blank nor begins a comment. -/
theorem read?_cons {b : UInt8} (hb : Byte.role b ≠ .blank) (hp : Byte.role b ≠ .percent)
    (rest : List UInt8) : read? (b :: rest) = readAt? b rest := by
  have hblank : ¬Byte.isBlank b = true := fun h => hb ((Byte.isBlank_iff b).1 h)
  have hpercent : ¬(b == Byte.ofChar '%') = true := by
    rw [beq_iff_eq]
    rintro rfl
    exact hp (by decide)
  rw [read?, skipBlank, skipFrom, if_neg hblank, if_neg hpercent]

/-- A token that is read begins after what may be skipped. -/
theorem exists_of_read? {bytes rest : List UInt8} {token : Token}
    (h : read? bytes = some (token, rest)) :
    ∃ b tail, skipBlank bytes = b :: tail ∧ readAt? b tail = some (token, rest) := by
  rw [read?] at h
  cases hs : skipBlank bytes with
  | nil =>
    rw [hs] at h
    cases h
  | cons b tail =>
    rw [hs] at h
    exact ⟨b, tail, rfl, h⟩

/-- Reading a token skips what may stand before it. -/
theorem read?_congr {bytes bytes' : List UInt8} (h : skipBlank bytes = skipBlank bytes') :
    read? bytes = read? bytes' := by
  rw [read?, read?, h]

/-- A run of regular bytes is one token. -/
theorem read?_word {word rest : List UInt8} (hn : word ≠ [])
    (hw : ∀ b ∈ word, Byte.isRegular b = true) (hr : EndsWord rest) :
    read? (word ++ rest) = some (ofWord word, rest) := by
  obtain ⟨b, word, rfl⟩ := List.exists_cons_of_ne_nil hn
  obtain ⟨hb, hword⟩ := List.forall_mem_cons.1 hw
  have hrole : Byte.role b = .regular := by simpa [Byte.isRegular] using hb
  rw [List.cons_append, read?_cons (by simp [hrole]) (by simp [hrole]), readAt?, hrole,
    List.takeWhile_append_of_pos hword, List.dropWhile_append_of_pos hword, hr.takeWhile,
    hr.dropWhile, List.append_nil]

/-- A slash and the word after it are one token. -/
theorem read?_name {word rest : List UInt8} (hw : ∀ b ∈ word, Byte.isRegular b = true)
    (hr : EndsWord rest) :
    read? (Byte.ofChar '/' :: (word ++ rest)) =
      some (name (Spelling.Name.ofBytes word), rest) := by
  have hrole : Byte.role (Byte.ofChar '/') = .slash := by decide
  rw [read?_cons (by simp [hrole]) (by simp [hrole]), readAt?, hrole,
    List.takeWhile_append_of_pos hw, List.dropWhile_append_of_pos hw, hr.takeWhile,
    hr.dropWhile, List.append_nil]

/-- A literal string is one token, from its parenthesis to the matching one. -/
theorem read?_literal {bytes raw rest : List UInt8}
    (h : Spelling.Literal.body? bytes = some (raw, rest)) :
    read? (Byte.ofChar '(' :: bytes) = some (literal raw, rest) := by
  have hrole : Byte.role (Byte.ofChar '(') = .parenOpen := by decide
  rw [read?_cons (by simp [hrole]) (by simp [hrole]), readAt?, hrole, h]
  rfl

/-- A hexadecimal string is one token, from bracket to bracket. -/
theorem read?_hex {bytes body : List UInt8} (h : Spelling.Hex.Spells bytes body)
    (rest : List UInt8) :
    read? (Byte.ofChar '<' :: (body ++ Byte.ofChar '>' :: rest)) = some (hex body, rest) := by
  have hrole : Byte.role (Byte.ofChar '<') = .angleOpen := by decide
  have hno : Byte.isHexDigit (Byte.ofChar '<') = false ∧
      Byte.isBlank (Byte.ofChar '<') = false := by decide
  have hhead : ¬((body ++ Byte.ofChar '>' :: rest).head? == some (Byte.ofChar '<')) = true := by
    rw [beq_iff_eq]
    cases hb : body with
    | nil =>
      rw [List.nil_append, List.head?_cons, Option.some.injEq]
      decide
    | cons b body =>
      rw [List.cons_append, List.head?_cons, Option.some.injEq]
      rintro rfl
      have hm := h.mem _ (hb ▸ List.mem_cons_self)
      rw [hno.1, hno.2] at hm
      cases hm
  rw [read?_cons (by simp [hrole]) (by simp [hrole]), readAt?, hrole]
  simp only [if_neg hhead, h.body?]
  rfl

/-- A bracket that opens an array is one token. -/
theorem read?_arrayOpen (rest : List UInt8) :
    read? (Byte.ofChar '[' :: rest) = some (arrayOpen, rest) := by
  have hrole : Byte.role (Byte.ofChar '[') = .squareOpen := by decide
  rw [read?_cons (by simp [hrole]) (by simp [hrole]), readAt?, hrole]

/-- A bracket that closes an array is one token. -/
theorem read?_arrayClose (rest : List UInt8) :
    read? (Byte.ofChar ']' :: rest) = some (arrayClose, rest) := by
  have hrole : Byte.role (Byte.ofChar ']') = .squareClose := by decide
  rw [read?_cons (by simp [hrole]) (by simp [hrole]), readAt?, hrole]

/-- Two opening angle brackets are one token. -/
theorem read?_dictOpen (rest : List UInt8) :
    read? (Byte.ofChar '<' :: Byte.ofChar '<' :: rest) = some (dictOpen, rest) := by
  have hrole : Byte.role (Byte.ofChar '<') = .angleOpen := by decide
  rw [read?_cons (by simp [hrole]) (by simp [hrole]), readAt?, hrole]
  rfl

/-- Two closing angle brackets are one token. -/
theorem read?_dictClose (rest : List UInt8) :
    read? (Byte.ofChar '>' :: Byte.ofChar '>' :: rest) = some (dictClose, rest) := by
  have hrole : Byte.role (Byte.ofChar '>') = .angleClose := by decide
  rw [read?_cons (by simp [hrole]) (by simp [hrole]), readAt?, hrole]
  rfl

end Token

/-- A mnemonic that is read as an operator: one word that is neither a number nor a
reserved word, and does not begin an inline image. -/
structure IsMnemonic (mnemonic : String) : Prop where
  /-- It is not empty. -/
  ne_empty : mnemonic ≠ ""
  /-- Its bytes make one word. -/
  regular : ∀ b ∈ Text.Utf8.encode mnemonic.toList, Byte.isRegular b = true
  /-- It spells no number. -/
  not_numeral : ∀ n : Number.Numeral, ¬n.SpelledBy (Text.Utf8.encode mnemonic.toList)
  /-- It is not reserved. -/
  not_reserved : mnemonic ∉ ["true", "false", "null"]
  /-- It does not begin an inline image. -/
  not_image : mnemonic ≠ "BI"

/-- What a token means, whatever its spelling was. -/
inductive Lexeme where
  /-- The absent value. -/
  | null
  /-- A truth value. -/
  | bool (value : Bool)
  /-- An integer. -/
  | int (value : Int)
  /-- A number with a point. -/
  | real (value : Float)
  /-- A byte string of either spelling. -/
  | str (bytes : List UInt8)
  /-- A name. -/
  | name (text : String)
  /-- The beginning of an array. -/
  | arrayOpen
  /-- The end of an array. -/
  | arrayClose
  /-- The beginning of a dictionary. -/
  | dictOpen
  /-- The end of a dictionary. -/
  | dictClose
  /-- An operator. -/
  | operator (mnemonic : String)

/-- The meaning of a token. -/
def Token.lexeme : Token → Lexeme
  | .int n => .int n
  | .real x => .real x
  | .literal raw => .str (Spelling.Literal.decode raw)
  | .hex raw => .str (Spelling.Hex.decode raw)
  | .name text => .name text
  | .bool value => .bool value
  | .null => .null
  | .arrayOpen => .arrayOpen
  | .arrayClose => .arrayClose
  | .dictOpen => .dictOpen
  | .dictClose => .dictClose
  | .keyword word => .operator (Text.Utf8.textOf word)

namespace Lexeme

/-- How a lexeme may be written. -/
inductive Spells : Lexeme → List UInt8 → Prop where
  /-- The absent value by its word. -/
  | null : Spells .null (Byte.ofAscii "null")
  /-- A truth value by its word. -/
  | bool (value : Bool) : Spells (.bool value) (Byte.ofAscii (if value then "true" else "false"))
  /-- An integer by a sign and digits. -/
  | int {n : Number.Numeral} {word : List UInt8} (hn : n.fraction = none)
      (hw : n.SpelledBy word) : Spells (.int n.integer) word
  /-- A real number by a sign, digits and a point that round to it. -/
  | real {n : Number.Numeral} {word : List UInt8} {value : Float} (hn : n.fraction ≠ none)
      (hw : n.SpelledBy word) (hx : n.RoundsTo value) : Spells (.real value) word
  /-- A string in parentheses. -/
  | literal (bytes : List UInt8) : Spells (.str bytes)
      (Byte.ofChar '(' :: (Spelling.Literal.escape bytes ++ [Byte.ofChar ')']))
  /-- A string by hexadecimal digits. -/
  | hex {bytes body : List UInt8} (hs : Spelling.Hex.Spells bytes body) :
      Spells (.str bytes) (Byte.ofChar '<' :: (body ++ [Byte.ofChar '>']))
  /-- A name after its slash. -/
  | name {text : String} {word : List UInt8} (hs : Spelling.Name.Spells text.toList word) :
      Spells (.name text) (Byte.ofChar '/' :: word)
  /-- An opening bracket. -/
  | arrayOpen : Spells .arrayOpen (Byte.ofAscii "[")
  /-- A closing bracket. -/
  | arrayClose : Spells .arrayClose (Byte.ofAscii "]")
  /-- Two opening angle brackets. -/
  | dictOpen : Spells .dictOpen (Byte.ofAscii "<<")
  /-- Two closing angle brackets. -/
  | dictClose : Spells .dictClose (Byte.ofAscii ">>")
  /-- An operator by the bytes of its mnemonic. -/
  | operator (mnemonic : String) :
      Spells (.operator mnemonic) (Text.Utf8.encode mnemonic.toList)

/-- The lexemes that a token can mean. Integers are bounded; a real number needs digits
that round to it; a mnemonic must not be read as anything else. -/
def Writable : Lexeme → Prop
  | .int value => value.natAbs ≤ Number.Numeral.integerLimit
  | .real value => ∃ (n : Number.Numeral) (word : List UInt8),
      n.fraction ≠ none ∧ n.SpelledBy word ∧ n.RoundsTo value
  | .operator mnemonic => IsMnemonic mnemonic
  | _ => True

/-- Lexemes one after the other, each with a gap behind it. -/
inductive Written : List Lexeme → List UInt8 → Prop where
  /-- Nothing. -/
  | nil : Written [] []
  /-- A lexeme, a gap, and the other lexemes. -/
  | cons {lexeme : Lexeme} {lexemes : List Lexeme} {word gap bytes : List UInt8}
      (hs : lexeme.Spells word) (hg : Token.Gap gap) (hw : Written lexemes bytes) :
      Written (lexeme :: lexemes) (word ++ gap ++ bytes)

/-- A digit spells its value. -/
theorem spells_digit {d : UInt8} (hd : Byte.isDigit d = true) :
    (int (Number.Numeral.integer ⟨false, [d], none⟩)).Spells [d] :=
  .int rfl ⟨⟨List.forall_mem_singleton.2 hd, List.forall_mem_nil _,
    Or.inl (List.cons_ne_nil _ _)⟩, [], .none, rfl⟩

end Lexeme

/-- A mnemonic is not empty as bytes either. -/
theorem IsMnemonic.encode_ne_nil {mnemonic : String} (h : IsMnemonic mnemonic) :
    Text.Utf8.encode mnemonic.toList ≠ [] := by
  intro he
  have ht := Text.Utf8.textOf_encode mnemonic
  rw [he] at ht
  exact h.ne_empty ht.symm

/-- A mnemonic is read as a keyword. -/
theorem IsMnemonic.ofWord {mnemonic : String} (h : IsMnemonic mnemonic) :
    Token.ofWord (Text.Utf8.encode mnemonic.toList) =
      .keyword (Text.Utf8.encode mnemonic.toList) := by
  have hnum : Number.Numeral.ofWord? (Text.Utf8.encode mnemonic.toList) = none := by
    cases hf : Number.Numeral.ofWord? (Text.Utf8.encode mnemonic.toList) with
    | none => rfl
    | some n => exact absurd (Number.Numeral.ofWord?_eq_some_iff.1 hf) (h.not_numeral n)
  have hne : ∀ text ∈ ["true", "false", "null"],
      Text.Utf8.encode mnemonic.toList ≠ Byte.ofAscii text := by
    have hback : ∀ text ∈ ["true", "false", "null"],
        Text.Utf8.textOf (Byte.ofAscii text) = text := by decide
    intro text hm he
    have ht := Text.Utf8.textOf_encode mnemonic
    rw [he, hback text hm] at ht
    exact h.not_reserved (ht ▸ hm)
  simp only [List.forall_mem_cons] at hne
  rw [Token.ofWord, hnum]
  simp only [if_neg hne.1, if_neg hne.2.1, if_neg hne.2.2.1]

namespace Lexeme

/-- Reading a token off a written lexeme gives its meaning and stops where the gap
begins, whatever follows. -/
theorem Spells.read? {lexeme : Lexeme} {word rest : List UInt8} (h : lexeme.Spells word)
    (hw : lexeme.Writable) (hr : Token.EndsWord rest) :
    ∃ token, Token.read? (word ++ rest) = some (token, rest) ∧ token.lexeme = lexeme := by
  cases h with
  | null => exact ⟨_, Token.read?_word (by decide) (List.all_eq_true.1 rfl) hr, rfl⟩
  | bool value =>
    cases value with
    | true => exact ⟨_, Token.read?_word (by decide) (List.all_eq_true.1 rfl) hr, rfl⟩
    | false => exact ⟨_, Token.read?_word (by decide) (List.all_eq_true.1 rfl) hr, rfl⟩
  | int hn hs =>
    refine ⟨_, Token.read?_word hs.ne_nil hs.isRegular hr, ?_⟩
    rw [Token.ofWord, Number.Numeral.ofWord?_eq_some_iff.2 hs]
    simp only [Number.Numeral.toInt?_of_natAbs_le hn hw, Token.lexeme]
  | @real n _ value hn hs hx =>
    refine ⟨_, Token.read?_word hs.ne_nil hs.isRegular hr, ?_⟩
    have hint : n.toInt? = none := by
      obtain ⟨fraction, hf⟩ := Option.ne_none_iff_exists'.1 hn
      rw [Number.Numeral.toInt?, hf]
    rw [Token.ofWord, Number.Numeral.ofWord?_eq_some_iff.2 hs, hx.unique n.roundsTo_toFloat]
    simp only [hint, Token.lexeme]
  | literal bytes =>
    refine ⟨.literal (Spelling.Literal.escape bytes), ?_, ?_⟩
    · have hb := Spelling.Literal.body?_escape bytes rest
      rw [List.cons_append, List.append_assoc]
      exact Token.read?_literal hb
    · rw [Token.lexeme, Spelling.Literal.decode_escape]
  | @hex bytes body hs =>
    refine ⟨.hex body, ?_, ?_⟩
    · rw [List.cons_append, List.append_assoc]
      exact Token.read?_hex hs rest
    · rw [Token.lexeme, hs.decode]
  | name hs =>
    refine ⟨_, Token.read?_name hs.isRegular hr, ?_⟩
    rw [Token.lexeme, hs.ofBytes, String.ofList_toList]
  | arrayOpen => exact ⟨_, Token.read?_arrayOpen rest, rfl⟩
  | arrayClose => exact ⟨_, Token.read?_arrayClose rest, rfl⟩
  | dictOpen => exact ⟨_, Token.read?_dictOpen rest, rfl⟩
  | dictClose => exact ⟨_, Token.read?_dictClose rest, rfl⟩
  | operator mnemonic =>
    have hm : IsMnemonic mnemonic := hw
    refine ⟨_, Token.read?_word hm.encode_ne_nil hm.regular hr, ?_⟩
    rw [hm.ofWord, Token.lexeme, Text.Utf8.textOf_encode]

/-- Each lexeme that a token can mean has a spelling. -/
theorem Writable.exists_spells {lexeme : Lexeme} (h : lexeme.Writable) :
    ∃ word, lexeme.Spells word := by
  cases lexeme with
  | null => exact ⟨_, .null⟩
  | bool value => exact ⟨_, .bool value⟩
  | int value =>
    obtain ⟨n, word, hw, hn, rfl⟩ := Number.Numeral.exists_integer value
    exact ⟨word, .int hn hw⟩
  | real value =>
    obtain ⟨n, word, hn, hw, hx⟩ := h
    exact ⟨word, .real hn hw hx⟩
  | str bytes => exact ⟨_, .literal bytes⟩
  | name text =>
    obtain ⟨word, hs⟩ := Spelling.Name.exists_spells text.toList
    exact ⟨_, .name hs⟩
  | arrayOpen => exact ⟨_, .arrayOpen⟩
  | arrayClose => exact ⟨_, .arrayClose⟩
  | dictOpen => exact ⟨_, .dictOpen⟩
  | dictClose => exact ⟨_, .dictClose⟩
  | operator mnemonic => exact ⟨_, .operator mnemonic⟩

namespace Written

/-- What is written in two parts may be read in two parts. -/
theorem append_iff {first second : List Lexeme} {bytes : List UInt8} :
    Written (first ++ second) bytes ↔
      ∃ before after, bytes = before ++ after ∧ Written first before ∧ Written second after := by
  constructor
  · intro h
    induction first generalizing bytes with
    | nil => exact ⟨[], bytes, rfl, .nil, h⟩
    | cons lexeme first ih =>
      cases h with
      | cons hs hg hw =>
        obtain ⟨before, after, rfl, hf, hsecond⟩ := ih hw
        exact ⟨_, after, (List.append_assoc _ _ _).symm, .cons hs hg hf, hsecond⟩
  · rintro ⟨before, after, rfl, hf, hs⟩
    induction hf with
    | nil => exact hs
    | cons hw hg _ ih =>
      rw [List.append_assoc]
      exact .cons hw hg ih

/-- Lexemes that tokens can mean can be written. -/
theorem exists_written {lexemes : List Lexeme} (h : ∀ lexeme ∈ lexemes, lexeme.Writable) :
    ∃ bytes, Written lexemes bytes := by
  induction lexemes with
  | nil => exact ⟨[], .nil⟩
  | cons lexeme lexemes ih =>
    obtain ⟨hl, hrest⟩ := List.forall_mem_cons.1 h
    obtain ⟨word, hs⟩ := hl.exists_spells
    obtain ⟨bytes, hw⟩ := ih hrest
    exact ⟨_, .cons hs (.blank (b := 0x20) (by decide)) hw⟩

end Written

end Lexeme

end PageText
