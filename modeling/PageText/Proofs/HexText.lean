import Mathlib.Algebra.Group.Nat.Defs
import Mathlib.Data.List.Induction
import PageText.Font.ToUnicode
import PageText.Proofs.Utf16

/-!
# Codes and texts in hexadecimal digits

How a character map may spell a code and a text: digits of either letter case, up to eight for
a code and four for each 16-bit unit of a text, where blanks may stand between the digits of a
text. Reading a spelling gives back what was spelled.
-/

namespace PageText.Font.ToUnicode

open PageText.Text

/-! ## Digits -/

/-- A hexadecimal digit as it is written. -/
structure Digit where
  /-- What it counts. -/
  value : Fin 16
  /-- Whether it is a capital, should it be a letter. -/
  capital : Bool

/-- The character of a digit. -/
def Digit.char (digit : Digit) : Char :=
  let n := digit.value.val
  Char.ofNat (if n < 10 then 0x30 + n else if digit.capital then 0x37 + n else 0x57 + n)

/-- The number that digits spell. -/
def numberOf (digits : List Digit) : Nat :=
  digits.foldl (fun n digit => n * 16 + digit.value) 0

/-- A written digit is read as its value. -/
theorem digit?_char (digit : Digit) : GlyphName.digit? digit.char = some digit.value.val := by
  have hall : ∀ value capital, GlyphName.digit? (Digit.char ⟨value, capital⟩) = some value.val := by
    decide
  exact hall digit.value digit.capital

/-- A written digit is a hexadecimal digit. -/
theorem isHex_char (digit : Digit) : isHex digit.char = true := by
  rw [isHex, digit?_char, Option.isSome_some]

/-- No hexadecimal digit is blank. -/
theorem isHex_of_isBlank {c : Char} (hc : Blank.isBlank c = true) : isHex c = false := by
  have hascii : ∀ n < 128, Blank.isBlank (Char.ofNat n) = true → isHex (Char.ofNat n) = false := by
    decide
  by_cases hn : c.toNat < 128
  · have hb := hascii c.toNat hn
    rw [Char.ofNat_toNat] at hb
    exact hb hc
  · rw [isHex, GlyphName.digit?, if_neg hn, Option.isSome_none]

/-- One more digit makes a number sixteen times as large and adds its value. -/
theorem numberOf_concat (digits : List Digit) (digit : Digit) :
    numberOf (digits ++ [digit]) = numberOf digits * 16 + digit.value := by
  rw [numberOf, List.foldl_append, ← numberOf, List.foldl_cons, List.foldl_nil]

/-- A number is bounded by the count of its digits. -/
theorem numberOf_lt (digits : List Digit) : numberOf digits < 16 ^ digits.length := by
  induction digits using List.reverseRecOn with
  | nil => exact Nat.one_pos
  | append_singleton digits digit ih =>
    have hd := digit.value.isLt
    rw [numberOf_concat, List.length_append, List.length_singleton, Nat.pow_succ]
    omega

/-- Written digits are read as the number they spell. -/
theorem hexNumber_map_char (digits : List Digit) :
    hexNumber (digits.map Digit.char) = numberOf digits := by
  simp only [hexNumber, numberOf, List.foldl_map, digit?_char, Option.getD_some]

/-- Every number below the bound that a count of digits sets has that many digits. -/
theorem exists_digits {count n : Nat} (hn : n < 16 ^ count) :
    ∃ digits : List Digit, digits.length = count ∧ numberOf digits = n := by
  induction count generalizing n with
  | zero => exact ⟨[], rfl, (Nat.lt_one_iff.1 hn).symm⟩
  | succ count ih =>
    rw [Nat.pow_succ] at hn
    obtain ⟨digits, hlength, hnumber⟩ := ih (Nat.div_lt_of_lt_mul (Nat.mul_comm _ 16 ▸ hn))
    have hlast : n % 16 < 16 := Nat.mod_lt n (by decide)
    refine ⟨digits ++ [⟨⟨n % 16, hlast⟩, false⟩], ?_, ?_⟩
    · rw [List.length_append, hlength, List.length_singleton]
    · rw [numberOf_concat, hnumber]
      exact Nat.div_add_mod' n 16

/-! ## Codes -/

/-- A code in one to eight digits. -/
inductive SpellsCode : Nat → List Char → Prop where
  /-- The number of the digits, whatever their letter case and whether or not zeros lead. -/
  | digits {digits : List Digit} (hne : digits ≠ []) (hl : digits.length ≤ 8) :
      SpellsCode (numberOf digits) (digits.map Digit.char)

namespace SpellsCode

variable {code : Nat} {source : List Char}

/-- A code has a digit. -/
theorem ne_nil (h : SpellsCode code source) : source ≠ [] := by
  obtain ⟨hne, -⟩ := h
  exact mt List.map_eq_nil_iff.1 hne

/-- A code has digits only. -/
theorem isHex (h : SpellsCode code source) : ∀ c ∈ source, isHex c = true := by
  obtain ⟨-, -⟩ := h
  rw [List.forall_mem_map]
  exact fun digit _ => isHex_char digit

/-- Reading a spelled code gives back the code, which eight digits keep within its bound. -/
theorem code? (h : SpellsCode code source) : code? source = some code := by
  obtain ⟨-, hl⟩ := h
  rename_i digits
  have hlt : numberOf digits < codeBound :=
    Nat.lt_of_lt_of_le (numberOf_lt digits) (Nat.pow_le_pow_right (by decide) hl)
  rw [ToUnicode.code?, hexNumber_map_char]
  exact if_pos hlt

end SpellsCode

/-- Every code within the bound can be spelled. -/
theorem exists_spellsCode {code : Nat} (hc : code < codeBound) :
    ∃ source, SpellsCode code source := by
  have hpow : codeBound = 16 ^ 8 := by decide
  obtain ⟨digits, hlength, rfl⟩ := exists_digits (hpow ▸ hc)
  have hne : digits ≠ [] := List.ne_nil_of_length_pos (by rw [hlength]; decide)
  exact ⟨_, .digits hne (Nat.le_of_eq hlength)⟩

/-! ## Texts -/

/-- Units in four digits each. -/
inductive SpellsUnits : List UInt16 → List Digit → Prop where
  /-- No units have no digits. -/
  | nil : SpellsUnits [] []
  /-- The four digits of the first unit come first. -/
  | cons {unit : UInt16} {units : List UInt16} {a b c d : Digit} {digits : List Digit}
      (hv : numberOf [a, b, c, d] = unit.toNat) (h : SpellsUnits units digits) :
      SpellsUnits (unit :: units) (a :: b :: c :: d :: digits)

/-- A text with at least one character, by the digits of its units and blanks between them. -/
structure SpellsText (text : String) (destination : List Char) : Prop where
  /-- There is something to spell. -/
  nonempty : text ≠ ""
  /-- Apart from blanks there are the digits of the units and nothing else. -/
  spelled : ∃ digits, SpellsUnits (Utf16.encode text.toList) digits ∧
    destination.filter (fun c => !Blank.isBlank c) = digits.map Digit.char

/-- There are four digits to a unit. -/
theorem SpellsUnits.length {units : List UInt16} {digits : List Digit}
    (h : SpellsUnits units digits) : digits.length = 4 * units.length := by
  induction h with
  | nil => rfl
  | cons _ _ ih =>
    simp only [List.length_cons, ih]
    omega

/-- Spelled units are read back. -/
theorem SpellsUnits.unitsOf {units : List UInt16} {digits : List Digit}
    (h : SpellsUnits units digits) : unitsOf (digits.map Digit.char) = units := by
  induction h with
  | nil => rfl
  | @cons unit _ a b c d _ hv _ ih =>
    have hfour := hexNumber_map_char [a, b, c, d]
    simp only [List.map_cons, List.map_nil] at hfour
    simp only [List.map_cons, ToUnicode.unitsOf]
    rw [ih, hfour, hv, Nat.toUInt16_eq, UInt16.ofNat_toNat]

namespace SpellsText

variable {text : String} {destination : List Char}

/-- A spelling has digits and blanks only. -/
theorem mem (h : SpellsText text destination) :
    ∀ c ∈ destination, (isHex c || Blank.isBlank c) = true := by
  obtain ⟨digits, -, hd⟩ := h.spelled
  intro c hc
  cases hb : Blank.isBlank c with
  | true => rw [Bool.or_true]
  | false =>
    have hm : c ∈ digits.map Digit.char := hd ▸ List.mem_filter.2 ⟨hc, by rw [hb, Bool.not_false]⟩
    obtain ⟨digit, -, rfl⟩ := List.mem_map.1 hm
    rw [isHex_char, Bool.true_or]

/-- The digits of a spelling are what is not blank in it. -/
theorem filter_isHex (h : SpellsText text destination) :
    destination.filter isHex = destination.filter fun c => !Blank.isBlank c := by
  refine List.filter_congr fun c hc => ?_
  cases hb : Blank.isBlank c with
  | true => rw [isHex_of_isBlank hb, Bool.not_true]
  | false =>
    have hm := h.mem c hc
    rwa [hb, Bool.or_false] at hm

/-- Reading a spelled text gives back the text. -/
theorem text? (h : SpellsText text destination) : text? destination = some text := by
  obtain ⟨digits, hu, hd⟩ := h.spelled
  have hunits : Utf16.encode text.toList ≠ [] :=
    Utf16.encode_ne_nil fun hnil => h.nonempty (String.toList_eq_nil_iff.1 hnil)
  have hlength := hu.length
  have hpos := List.length_pos_iff.2 hunits
  have hne : (digits.map Digit.char).isEmpty = false := by
    rw [List.isEmpty_eq_false_iff, ← List.length_pos_iff, List.length_map]
    omega
  have hmissing : (4 - (digits.map Digit.char).length % 4) % 4 = 0 := by
    rw [List.length_map]
    omega
  simp only [ToUnicode.text?, h.filter_isHex, hd, hne, hmissing, Bool.false_eq_true, if_false,
    List.replicate_zero, List.nil_append, hu.unitsOf, Utf16.textOf_encode]

end SpellsText

/-- All units can be spelled. -/
theorem exists_spellsUnits (units : List UInt16) : ∃ digits, SpellsUnits units digits := by
  induction units with
  | nil => exact ⟨[], .nil⟩
  | cons unit units ih =>
    obtain ⟨digits, hd⟩ := ih
    match exists_digits (show unit.toNat < 16 ^ 4 from unit.toNat_lt) with
    | ⟨[a, b, c, d], _, hnumber⟩ => exact ⟨_, .cons hnumber hd⟩

/-- Every text with a character can be spelled. -/
theorem exists_spellsText {text : String} (ht : text ≠ "") :
    ∃ destination, SpellsText text destination := by
  obtain ⟨digits, hd⟩ := exists_spellsUnits (Utf16.encode text.toList)
  have hall : ∀ c ∈ digits.map Digit.char, (!Blank.isBlank c) = true := by
    rw [List.forall_mem_map]
    intro digit _
    rw [Bool.not_eq_true', Bool.eq_false_iff]
    exact fun hb => Bool.false_ne_true ((isHex_of_isBlank hb).symm.trans (isHex_char digit))
  exact ⟨_, ht, digits, hd, List.filter_eq_self.2 hall⟩

/-! ## Consecutive texts -/

/-- Units of which the last one is moved on, wrapping around after the greatest unit. -/
def lastMovedOn (place : Nat) : List UInt16 → List UInt16
  | [] => []
  | [unit] => [((unit.toNat + place) % 0x10000).toUInt16]
  | unit :: next :: units => unit :: lastMovedOn place (next :: units)

/-- The text of a place in a range has the units of the first text, the last one moved on. -/
theorem textAt_eq (first : String) (place : Nat) :
    textAt first place =
      Utf16.textOf (lastMovedOn place (Utf16.encode first.toList)) := by
  have hlast (unit : UInt16) :
      unit + place.toUInt16 = ((unit.toNat + place) % 0x10000).toUInt16 := by
    have hplace : place.toUInt16.toNat = place % 0x10000 := by
      rw [Nat.toUInt16_eq, UInt16.toNat_ofNat']
    have hmod : (unit.toNat + place) % 0x10000 < 0x10000 := Nat.mod_lt _ (by decide)
    rw [← UInt16.toNat_inj, UInt16.toNat_add, Utf16.toNat_toUInt16 hmod, hplace]
    exact Nat.add_mod_mod _ _ _
  have hunits (units : List UInt16) :
      units.dropLast ++ (units.getLast?.map (· + place.toUInt16)).toList =
        lastMovedOn place units := by
    induction units with
    | nil => rfl
    | cons unit units ih =>
      cases units with
      | nil => exact congrArg (fun moved => [moved]) (hlast unit)
      | cons next units =>
        rw [List.dropLast_cons_cons, List.getLast?_cons_cons, List.cons_append, ih, lastMovedOn]
  rw [textAt, hunits]

end PageText.Font.ToUnicode
