import PageText.Proofs.HexText
import PageText.Proofs.Utf8

/-!
# Names that spell a character

What a glyph name stands for if the table does not have it: the convention lets it spell the code
of a character in four hexadecimal digits behind `uni`, or in four to six behind `u`. Names are read
by this grammar, but with one liberty. The first of the characters that should all be digits may be
a plus sign, so that a digit too few is no obstacle.
-/

namespace PageText.Font.GlyphName

open ToUnicode (Digit numberOf)

/-! ## The grammar -/

/-- A name that spells a code behind a mark, by a sign and digits which together are as many
characters as the mark asks for. -/
inductive SpelledWith (sign : List Char) : List Char → Nat → Prop where
  /-- Four characters behind the longer mark. -/
  | four {digits : List Digit} (hl : sign.length + digits.length = 4) :
      SpelledWith sign ('u' :: 'n' :: 'i' :: (sign ++ digits.map Digit.char)) (numberOf digits)
  /-- Four to six characters behind the shorter mark. The name cannot begin with the longer one,
  whose second letter is neither a sign nor a digit. -/
  | upToSix {digits : List Digit} (hl : 4 ≤ sign.length + digits.length)
      (hu : sign.length + digits.length ≤ 6) :
      SpelledWith sign ('u' :: (sign ++ digits.map Digit.char)) (numberOf digits)

/-- A name that spells a code by the convention, in digits alone. -/
def Spelled : List Char → Nat → Prop := SpelledWith []

/-- A name that spells a code with a plus sign in the place of a digit. -/
def SpelledWithPlus : List Char → Nat → Prop := SpelledWith ['+']

/-! ## Digits and numbers -/

/-- Only a written digit is read as one. -/
theorem digit?_eq_some_iff {c : Char} {n : Nat} :
    digit? c = some n ↔ ∃ digit : Digit, digit.char = c ∧ digit.value.val = n := by
  constructor
  · intro h
    have hall : ∀ code < 128, ∀ n ∈ digit? (Char.ofNat code),
        ∃ value capital, Digit.char ⟨value, capital⟩ = Char.ofNat code ∧ value.val = n := by
      decide
    by_cases hascii : c.toNat < 128
    · have hread := hall c.toNat hascii
      rw [Char.ofNat_toNat] at hread
      obtain ⟨value, capital, hchar, hvalue⟩ := hread n h
      exact ⟨⟨value, capital⟩, hchar, hvalue⟩
    · rw [digit?, if_neg hascii] at h
      cases h
  · rintro ⟨digit, rfl, rfl⟩
    exact ToUnicode.digit?_char digit

/-- Neither a plus sign nor a letter of the longer mark is a digit. -/
theorem char_ne (digit : Digit) : digit.char ≠ '+' ∧ digit.char ≠ 'n' := by
  have hall : ∀ value capital, Digit.char ⟨value, capital⟩ ≠ '+' ∧
      Digit.char ⟨value, capital⟩ ≠ 'n' := by
    decide
  exact hall digit.value digit.capital

/-- No written digits begin with a plus sign. -/
theorem head?_ne_plus (digits : List Digit) : (digits.map Digit.char).head? ≠ some '+' := by
  cases digits with
  | nil => exact nofun
  | cons digit digits => exact fun h => (char_ne digit).1 (Option.some.inj h)

/-- A run of characters is read as a number exactly if they are digits. -/
theorem digits?_eq_some_iff {text : List Char} {value n : Nat} : digits? value text = some n ↔
    ∃ digits : List Digit, digits.map Digit.char = text ∧
      digits.foldl (fun n digit => n * 16 + digit.value.val) value = n := by
  induction text generalizing value with
  | nil =>
    constructor
    · rintro ⟨⟩
      exact ⟨[], rfl, rfl⟩
    · rintro ⟨digits, hnil, rfl⟩
      rw [List.map_eq_nil_iff.1 hnil]
      rfl
  | cons c text ih =>
    rw [digits?, Option.bind_eq_bind, Option.bind_eq_some_iff]
    constructor
    · rintro ⟨d, hd, hrest⟩
      obtain ⟨digit, rfl, rfl⟩ := digit?_eq_some_iff.1 hd
      obtain ⟨digits, rfl, hn⟩ := ih.1 hrest
      exact ⟨digit :: digits, rfl, hn⟩
    · rintro ⟨digits, htext, hn⟩
      obtain ⟨digit, digits, rfl, hc, htext⟩ := List.map_eq_cons_iff.1 htext
      exact ⟨digit.value, digit?_eq_some_iff.2 ⟨digit, hc, rfl⟩, ih.2 ⟨digits, htext, hn⟩⟩

/-- What is read as a number: digits, of which there is at least one, with or without a plus sign
before them. -/
theorem number?_eq_some_iff {text : List Char} {n : Nat} : number? text = some n ↔
    ∃ sign, (sign = [] ∨ sign = ['+']) ∧ ∃ digits : List Digit, digits ≠ [] ∧
      text = sign ++ digits.map Digit.char ∧ numberOf digits = n := by
  have hread (rest : List Char) : (if rest.isEmpty then none else digits? 0 rest) = some n ↔
      ∃ digits : List Digit, digits ≠ [] ∧ rest = digits.map Digit.char ∧ numberOf digits = n := by
    rw [Option.ite_none_left_eq_some, digits?_eq_some_iff, List.isEmpty_iff]
    constructor
    · rintro ⟨hne, digits, rfl, hn⟩
      exact ⟨digits, mt List.map_eq_nil_iff.2 hne, rfl, hn⟩
    · rintro ⟨digits, hne, rfl, hn⟩
      exact ⟨mt List.map_eq_nil_iff.1 hne, digits, rfl, hn⟩
  rw [number?, hread]
  split
  · rename_i hplus
    obtain ⟨rest, rfl⟩ : ∃ rest, text = '+' :: rest := List.head?_eq_some_iff.1 hplus
    constructor
    · rintro ⟨digits, hne, hrest, hn⟩
      exact ⟨['+'], Or.inr rfl, digits, hne, congrArg ('+' :: ·) hrest, hn⟩
    · rintro ⟨sign, rfl | rfl, digits, hne, htext, hn⟩
      · exact absurd ((congrArg List.head? htext).symm.trans hplus) (head?_ne_plus digits)
      · exact ⟨digits, hne, (List.cons.inj htext).2, hn⟩
  · rename_i hplus
    constructor
    · rintro ⟨digits, hne, htext, hn⟩
      exact ⟨[], Or.inl rfl, digits, hne, htext, hn⟩
    · rintro ⟨sign, rfl | rfl, digits, hne, htext, hn⟩
      · exact ⟨digits, hne, htext, hn⟩
      · exact absurd (congrArg List.head? htext) hplus

/-- What stands behind the mark of a name, if it is as long as the mark asks for. The shorter mark
is none where the longer one can be read. -/
theorem spelled?_eq_some_iff {text code : List Char} : spelled? text = some code ↔
    (text = 'u' :: 'n' :: 'i' :: code ∧ code.length = 4) ∨
      text = 'u' :: code ∧ (∀ rest, code ≠ 'n' :: 'i' :: rest) ∧ 4 ≤ code.length ∧
        code.length ≤ 6 := by
  unfold spelled?
  split
  · rename_i found
    rw [Option.ite_none_right_eq_some, Option.some.injEq]
    constructor
    · rintro ⟨hl, rfl⟩
      exact Or.inl ⟨rfl, hl⟩
    · rintro (⟨htext, hl⟩ | ⟨htext, hmark, -⟩)
      · cases htext
        exact ⟨hl, rfl⟩
      · cases htext
        exact absurd rfl (hmark found)
  · rename_i found hmark
    rw [Option.ite_none_right_eq_some, Option.some.injEq, Bool.and_eq_true, decide_eq_true_iff,
      decide_eq_true_iff]
    constructor
    · rintro ⟨hl, rfl⟩
      exact Or.inr ⟨rfl, fun rest hrest => hmark rest hrest, hl⟩
    · rintro (⟨htext, -⟩ | ⟨htext, -, hl⟩)
      · cases htext
        exact absurd rfl (hmark code)
      · cases htext
        exact ⟨hl, rfl⟩
  · rename_i hlong hshort
    refine ⟨nofun, ?_⟩
    rintro (⟨rfl, -⟩ | ⟨rfl, -⟩)
    · exact absurd rfl (hlong code)
    · exact absurd rfl (hshort code)

/-- A number is the scalar value of one character at most. -/
theorem ofScalar?_eq_some_iff {n : Nat} {c : Char} : ofScalar? n = some c ↔ c.toNat = n := by
  have hvalid : (n < 0xD800 || (0xE000 ≤ n && n < 0x110000)) = true ↔ n.isValidChar := by
    simp only [Nat.isValidChar, Bool.or_eq_true, Bool.and_eq_true, decide_eq_true_iff]
    omega
  rw [ofScalar?, Option.ite_none_right_eq_some, hvalid, Option.some.injEq]
  constructor
  · rintro ⟨hn, rfl⟩
    exact Text.Utf8.toNat_ofNat hn
  · rintro rfl
    exact ⟨c.valid, Char.ofNat_toNat c⟩

/-! ## Names -/

/-- The characters of the table are those of its scalar values. -/
theorem toNat_of_mem_table {entry : String × Nat} (h : entry ∈ table) :
    (Char.ofNat entry.2).toNat = entry.2 := by
  have hall : ∀ entry ∈ table, (Char.ofNat entry.2).toNat = entry.2 := by
    decide +kernel
  exact hall entry h

variable {sign text : List Char} {n : Nat}

/-- There are digits in a name that spells a code, as the sign is shorter than what the mark asks
for. -/
theorem digits_ne_nil {digits : List Digit} (hs : sign = [] ∨ sign = ['+'])
    (hl : 4 ≤ sign.length + digits.length) : digits ≠ [] := by
  rintro rfl
  rcases hs with rfl | rfl
  · exact absurd hl (by decide)
  · exact absurd hl (by decide)

/-- A name spells a code with a sign exactly if the sign and the digits of the code stand behind
its mark. -/
theorem spelledWith_iff (hs : sign = [] ∨ sign = ['+']) : SpelledWith sign text n ↔
    ∃ digits : List Digit, digits ≠ [] ∧ numberOf digits = n ∧
      spelled? text = some (sign ++ digits.map Digit.char) := by
  simp only [spelled?_eq_some_iff, List.length_append, List.length_map]
  constructor
  · rintro (@⟨digits, hl⟩ | @⟨digits, hl, hu⟩)
    · exact ⟨digits, digits_ne_nil hs (Nat.le_of_eq hl.symm), rfl, Or.inl ⟨rfl, hl⟩⟩
    · refine ⟨digits, digits_ne_nil hs hl, rfl, Or.inr ⟨rfl, fun rest hrest => ?_, hl, hu⟩⟩
      rcases hs with rfl | rfl
      · obtain ⟨digit, _, -, hc, -⟩ := List.map_eq_cons_iff.1 hrest
        exact (char_ne digit).2 hc
      · cases hrest
  · rintro ⟨digits, -, rfl, ⟨rfl, hl⟩ | ⟨rfl, -, hl, hu⟩⟩
    · exact .four hl
    · exact .upToSix hl hu

/-- A name that spells a code by the convention has no plus sign. -/
theorem Spelled.not_mem (h : Spelled text n) : '+' ∉ text := by
  have hdigits (digits : List Digit) : '+' ∉ digits.map Digit.char := by
    rintro hm
    obtain ⟨digit, -, hc⟩ := List.mem_map.1 hm
    exact (char_ne digit).1 hc
  rcases h with @⟨digits, -⟩ | @⟨digits, -, -⟩
  · simpa using hdigits digits
  · simpa using hdigits digits

/-- A name that spells a code with a plus sign has one. -/
theorem SpelledWithPlus.mem (h : SpelledWithPlus text n) : '+' ∈ text := by
  rcases h with @⟨digits, -⟩ | @⟨digits, -, -⟩ <;> simp

/-- A name that the table does not have stands for the character whose code it spells, by the
convention or with a plus sign in the place of a digit. -/
theorem toChar?_of_lookup_eq_none {name : String}
    (ht : table.lookup (String.ofList (base name)) = none) {c : Char} : toChar? name = some c ↔
      Spelled (base name) c.toNat ∨ SpelledWithPlus (base name) c.toNat := by
  simp only [toChar?, ht, Option.bind_eq_bind, Option.bind_eq_some_iff, number?_eq_some_iff,
    ofScalar?_eq_some_iff, Spelled, SpelledWithPlus, spelledWith_iff (Or.inl rfl),
    spelledWith_iff (Or.inr rfl)]
  constructor
  · rintro ⟨code, hcode, _, ⟨sign, rfl | rfl, digits, hne, rfl, rfl⟩, hc⟩
    · exact Or.inl ⟨digits, hne, hc.symm, hcode⟩
    · exact Or.inr ⟨digits, hne, hc.symm, hcode⟩
  · rintro (⟨digits, hne, hn, hcode⟩ | ⟨digits, hne, hn, hcode⟩)
    · exact ⟨_, hcode, _, ⟨[], Or.inl rfl, digits, hne, rfl, hn⟩, rfl⟩
    · exact ⟨_, hcode, _, ⟨['+'], Or.inr rfl, digits, hne, rfl, hn⟩, rfl⟩

/-- What a glyph name stands for: the character that the table has for the part before the first
period, else the one whose code this part spells by the convention or with a plus sign in the place
of a digit. So it is the convention that decides, with an exception for every name of the second
kind, which spells nothing by the convention and yet stands for a character. -/
theorem toChar?_eq (name : String) :
    (∀ scalar, table.lookup (String.ofList (base name)) = some scalar →
      ∃ c, toChar? name = some c ∧ c.toNat = scalar) ∧
    (table.lookup (String.ofList (base name)) = none →
      ∀ c, (toChar? name = some c ↔
          Spelled (base name) c.toNat ∨ SpelledWithPlus (base name) c.toNat) ∧
        ((toChar? name = some c ↔ Spelled (base name) c.toNat) ↔
          ¬SpelledWithPlus (base name) c.toNat)) := by
  constructor
  · intro scalar hscalar
    obtain ⟨before, after, htable, -⟩ := List.lookup_eq_some_iff.1 hscalar
    refine ⟨Char.ofNat scalar, by simp only [toChar?, hscalar], ?_⟩
    refine @toNat_of_mem_table (String.ofList (base name), scalar) ?_
    rw [htable]
    exact List.mem_append_right before List.mem_cons_self
  · intro ht c
    have heither := @toChar?_of_lookup_eq_none name ht c
    refine ⟨heither, fun hsame hplus => ?_, fun hplus => ?_⟩
    · exact (hsame.1 (heither.2 (Or.inr hplus))).not_mem hplus.mem
    · rw [heither]
      exact or_iff_left hplus

/-- A suffix of a name makes no difference, be it a name of the table or one that spells a code. -/
theorem toChar?_eq_suffixed :
    table.lookup (String.ofList (base "a.sc")) = some 0x61 ∧
      (∃ c, toChar? "a.sc" = some c ∧ c.toNat = 0x61) ∧
      table.lookup (String.ofList (base "u1D70C.alt")) = none ∧
      Spelled (base "u1D70C.alt") 0x1D70C ∧ toChar? "u1D70C.alt" = some '𝜌' := by
  have htable : table.lookup (String.ofList (base "a.sc")) = some 0x61 := by decide +kernel
  have hnone : table.lookup (String.ofList (base "u1D70C.alt")) = none := by decide +kernel
  have hspelled : Spelled (base "u1D70C.alt") 0x1D70C :=
    @SpelledWith.upToSix [] [⟨1, false⟩, ⟨13, true⟩, ⟨7, false⟩, ⟨0, false⟩, ⟨12, true⟩]
      (by decide) (by decide)
  exact ⟨htable, (toChar?_eq "a.sc").1 _ htable, hnone, hspelled,
    (((toChar?_eq "u1D70C.alt").2 hnone '𝜌').1).2 (Or.inl hspelled)⟩

/-- A name with a plus sign and a digit too few stands for a character, and spells none by the
convention. -/
theorem plusSign_accepted :
    table.lookup (String.ofList (base "uni+041")) = none ∧ toChar? "uni+041" = some 'A' ∧
      ∀ n, ¬Spelled (base "uni+041") n := by
  have hplus : '+' ∈ base "uni+041" := by decide
  exact ⟨by decide +kernel, by decide +kernel, fun _ hspelled => hspelled.not_mem hplus⟩

end PageText.Font.GlyphName
