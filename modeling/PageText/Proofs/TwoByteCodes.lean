import PageText.Font.Composite
import PageText.Proofs.Assembly
import PageText.Proofs.Search
import PageText.Proofs.Utf16

/-!
# Glyphs of two-byte codes

A string shown in a composite font has a glyph for every two bytes and for a last byte without a
partner, each with the width and the mapped text of its own code. Where codes are units of UTF-16
the texts are made piece by piece; they stay aligned with the codes, and joined they are the
decoding of all units at once.
-/

namespace PageText.Font.CompositeFont

open PageText.Text

/-! ## Codes -/

/-- The code at a place: the number of two bytes, the first one the higher, or a last byte. -/
def codeAt? (bytes : List UInt8) (place : Nat) : Option Nat :=
  match bytes[2 * place]?, bytes[2 * place + 1]? with
  | some high, some low => some (256 * high.toNat + low.toNat)
  | some last, none => some last.toNat
  | none, _ => none

/-- There is a code for every two bytes and one for a byte without a partner. -/
theorem length_codes (bytes : List UInt8) : (codes bytes).length = (bytes.length + 1) / 2 := by
  induction bytes using codes.induct with
  | case1 => rfl
  | case2 last =>
    rw [codes, List.length_singleton, List.length_singleton]
  | case3 high low rest ih =>
    rw [codes, List.length_cons, ih]
    simp only [List.length_cons]
    omega

/-- Codes are read place by place. -/
theorem getElem?_codes (bytes : List UInt8) (place : Nat) :
    (codes bytes)[place]? = codeAt? bytes place := by
  induction bytes using codes.induct generalizing place with
  | case1 => rfl
  | case2 last => cases place <;> rfl
  | case3 high low rest ih =>
    cases place with
    | zero =>
      rw [codes, List.getElem?_cons_zero, Nat.mul_comm]
      rfl
    | succ place =>
      have hplace : 2 * (place + 1) = 2 * place + 1 + 1 := by omega
      rw [codes, List.getElem?_cons_succ, ih, codeAt?, codeAt?, hplace]
      simp only [List.getElem?_cons_succ]

/-! ## Units of UTF-16 -/

/-- The two halves of a pair stand at the place and right behind it. -/
def IsPairAt (codes : List Nat) (place : Nat) (high low : Nat) : Prop :=
  codes[place]? = some high ∧ codes[place + 1]? = some low ∧
    Utf16.isHigh high.toUInt16 = true ∧ Utf16.isLow low.toUInt16 = true

/-- Texts of units, one for each code: the text of a pair stands with its first half, and none
with its second, and any other unit has its text alone. -/
structure Aligned (codes : List Nat) (texts : List String) : Prop where
  /-- Every code has a text. -/
  length : texts.length = codes.length
  /-- A pair has one text. -/
  pair {place high low : Nat} (h : IsPairAt codes place high low) :
    texts[place]? = some (Utf16.textOf [high.toUInt16, low.toUInt16]) ∧
      texts[place + 1]? = some ""
  /-- A code that is in no pair has a text of its own. -/
  single {place code : Nat} (hcode : codes[place]? = some code)
    (hfirst : ∀ low, ¬IsPairAt codes place code low)
    (hsecond : ∀ before high, place = before + 1 → ¬IsPairAt codes before high code) :
    texts[place]? = some (Utf16.textOf [code.toUInt16])

/-- Every code has a text. -/
theorem length_unitTexts (codes : List Nat) : (unitTexts codes).length = codes.length := by
  induction codes using unitTexts.induct with
  | case1 => rfl
  | case2 last => rfl
  | case3 first second rest hpair ih =>
    rw [unitTexts, if_pos hpair, List.length_cons, List.length_cons, ih]
    rfl
  | case4 first second rest hpair ih =>
    rw [unitTexts, if_neg hpair, List.length_cons, ih]
    rfl

/-- The text of a pair stands with its first half, and none with its second. -/
theorem unitTexts_of_pair {codes : List Nat} {place high low : Nat}
    (h : IsPairAt codes place high low) :
    (unitTexts codes)[place]? = some (Utf16.textOf [high.toUInt16, low.toUInt16]) ∧
      (unitTexts codes)[place + 1]? = some "" := by
  obtain ⟨hhigh, hlow, hh, hl⟩ := h
  induction codes using unitTexts.induct generalizing place with
  | case1 => cases hhigh
  | case2 last => cases hlow
  | case3 first second rest hpair ih =>
    rw [unitTexts, if_pos hpair]
    obtain ⟨-, hsecond⟩ := Bool.and_eq_true_iff.1 hpair
    match place with
    | 0 =>
      cases hhigh
      cases hlow
      exact ⟨rfl, rfl⟩
    | 1 =>
      -- The second half of a pair does not begin another one.
      cases hhigh
      rw [Utf16.isHigh_of_isLow hsecond] at hh
      cases hh
    | place + 2 => exact ih hhigh hlow
  | case4 first second rest hpair ih =>
    rw [unitTexts, if_neg hpair]
    cases place with
    | zero =>
      cases hhigh
      cases hlow
      exact absurd (Bool.and_eq_true_iff.2 ⟨hh, hl⟩) hpair
    | succ place => exact ih hhigh hlow

/-- A code that is in no pair has the text of its unit alone. -/
theorem unitTexts_of_not_pair {codes : List Nat} {place code : Nat}
    (hcode : codes[place]? = some code) (hfirst : ∀ low, ¬IsPairAt codes place code low)
    (hsecond : ∀ before high, place = before + 1 → ¬IsPairAt codes before high code) :
    (unitTexts codes)[place]? = some (Utf16.textOf [code.toUInt16]) := by
  induction codes using unitTexts.induct generalizing place with
  | case1 => cases hcode
  | case2 last =>
    cases place with
    | zero =>
      cases hcode
      rfl
    | succ place => cases hcode
  | case3 first second rest hpair ih =>
    rw [unitTexts, if_pos hpair]
    obtain ⟨hh, hl⟩ := Bool.and_eq_true_iff.1 hpair
    match place with
    | 0 =>
      cases hcode
      exact absurd ⟨rfl, rfl, hh, hl⟩ (hfirst second)
    | 1 =>
      cases hcode
      exact absurd ⟨rfl, rfl, hh, hl⟩ (hsecond 0 first rfl)
    | place + 2 =>
      refine ih hcode hfirst fun before high hbefore => ?_
      exact hsecond (before + 2) high (congrArg (· + 2) hbefore)
  | case4 first second rest hpair ih =>
    rw [unitTexts, if_neg hpair]
    cases place with
    | zero =>
      cases hcode
      rfl
    | succ place =>
      refine ih hcode hfirst fun before high hbefore => ?_
      exact hsecond (before + 1) high (congrArg (· + 1) hbefore)

/-- The texts that the font makes are aligned with the codes. -/
theorem aligned_unitTexts (codes : List Nat) : Aligned codes (unitTexts codes) where
  length := length_unitTexts codes
  pair := unitTexts_of_pair
  single := unitTexts_of_not_pair

/-- The texts of the units, joined, are the text of all units. -/
theorem join_unitTexts (codes : List Nat) :
    String.join (unitTexts codes) = Utf16.textOf (codes.map Nat.toUInt16) := by
  have hcons (c : Char) (text : List Char) :
      String.ofList [c] ++ String.ofList text = String.ofList (c :: text) :=
    String.ofList_append.symm
  induction codes using unitTexts.induct with
  | case1 => rfl
  | case2 last => rw [unitTexts, String.join_cons, String.join_nil, String.append_empty]; rfl
  | case3 first second rest hpair ih =>
    rw [unitTexts, if_pos hpair, String.join_cons, String.join_cons, String.empty_append, ih]
    simp only [Utf16.textOf, List.map_cons, Utf16.decodeLossy, if_pos hpair, hcons]
  | case4 first second rest hpair ih =>
    rw [unitTexts, if_neg hpair, String.join_cons, ih]
    simp only [Utf16.textOf, List.map_cons, Utf16.decodeLossy, if_neg hpair, hcons]

/-! ## Which fonts have codes that are units -/

/-- The encoding names that say that codes are units of UTF-16. -/
def NamesUnits (encoding : String) : Prop :=
  "Uni".toList <+: encoding.toList ∧
    ("UCS2".toList <:+: encoding.toList ∨ "UTF16".toList <:+: encoding.toList)

/-- The encoding names are told by their letters. -/
theorem isUtf16Encoding_iff (encoding : String) :
    isUtf16Encoding encoding = true ↔ NamesUnits encoding := by
  have hucs : "UCS2".toList ≠ [] := by decide
  have hutf : "UTF16".toList ≠ [] := by decide
  simp only [isUtf16Encoding, NamesUnits, Bool.and_eq_true, Bool.or_eq_true,
    List.isPrefixOf_iff_prefix, Search.isSome_breakOn?_iff hucs,
    Search.isSome_breakOn?_iff hutf]

/-- Whether an encoding entry says that codes are units of UTF-16. -/
def saysUnits : Option Object → Bool
  | some (.name encoding) => isUtf16Encoding encoding
  | _ => false

/-- Only a name says so. -/
theorem saysUnits_iff (entry : Option Object) :
    saysUnits entry = true ↔ ∃ encoding, entry = some (.name encoding) ∧ NamesUnits encoding := by
  unfold saysUnits
  split
  · simp only [isUtf16Encoding_iff, Option.some.injEq, Object.name.injEq, exists_eq_left']
  · rename_i hname
    refine iff_of_false Bool.false_ne_true ?_
    rintro ⟨encoding, rfl, -⟩
    exact hname encoding rfl

/-- A font that is loaded has units for codes exactly if its encoding is a name that says so. -/
theorem utf16Codes_of_load {inflater : Inflater} {resolver : Resolver} {dict : Dict}
    {font : CompositeFont} (h : load inflater resolver dict = .ok font) :
    font.utf16Codes = true ↔ ∃ encoding,
      dict.resolve? "Encoding" resolver = .ok (some (.name encoding)) ∧ NamesUnits encoding := by
  obtain ⟨entry, hentry, h⟩ := Error.exists_of_bind h
  obtain ⟨descendants, -, h⟩ := Error.exists_of_bind h
  -- Whatever the descendants are, the map is loaded last and the flag is not touched again.
  have hflag {name : String} {widths : Std.TreeMap Nat Float32} {default : Float32}
      (h : (do
        let toUnicode ← SimpleFont.loadToUnicode inflater resolver dict
        pure (CompositeFont.mk name toUnicode (saysUnits entry) widths default)) =
          Except.ok font) : font.utf16Codes = saysUnits entry := by
    obtain ⟨toUnicode, -, h⟩ := Error.exists_of_bind h
    cases h
    rfl
  have hentries : font.utf16Codes = saysUnits entry := by
    dsimp only at h
    split at h
    · exact hflag h
    · obtain ⟨descendant, -, h⟩ := Error.exists_of_bind h
      split at h
      · obtain ⟨widths, -, h⟩ := Error.exists_of_bind h
        exact hflag h
      · cases h
    · cases h
  simp only [hentries, saysUnits_iff, hentry, Except.ok.injEq]

/-! ## Glyphs -/

/-- Every code has a text, whichever way the font makes it. -/
theorem length_texts (font : CompositeFont) (codes : List Nat) :
    (font.texts codes).length = codes.length := by
  unfold texts
  split
  · exact List.length_map _
  · split
    · exact length_unitTexts codes
    · exact List.length_map _

/-- There is a glyph for every code. -/
theorem length_decode (font : CompositeFont) (bytes : List UInt8) :
    (font.decode bytes).length = (bytes.length + 1) / 2 := by
  rw [decode, List.length_zipWith, length_texts, Nat.min_self, length_codes]

/-- A glyph has its code, the width of the code and the text at the place of the code. -/
theorem getElem?_decode {font : CompositeFont} {bytes : List UInt8} {place : Nat} {glyph : Glyph}
    (h : (font.decode bytes)[place]? = some glyph) :
    codeAt? bytes place = some glyph.code ∧ glyph.isWordSpace = false ∧
      glyph.width = font.codeWidth glyph.code ∧
        (font.texts (codes bytes))[place]? = some glyph.unicode := by
  rw [decode, List.getElem?_zipWith_eq_some, getElem?_codes] at h
  obtain ⟨code, text, hcode, htext, rfl⟩ := h
  exact ⟨hcode, rfl, rfl, htext⟩

/-- The codes of the glyphs are those of the string. -/
theorem map_code_decode (font : CompositeFont) (bytes : List UInt8) :
    (font.decode bytes).map Glyph.code = codes bytes := by
  have hlength := font.length_texts (codes bytes)
  rw [decode, List.map_zipWith, ← List.map_uncurry_zip_eq_zipWith]
  exact List.map_fst_zip (Nat.le_of_eq hlength.symm)

/-- The texts of the glyphs are those that the font gives to the codes. -/
theorem map_unicode_decode (font : CompositeFont) (bytes : List UInt8) :
    (font.decode bytes).map Glyph.unicode = font.texts (codes bytes) := by
  have hlength := font.length_texts (codes bytes)
  rw [decode, List.map_zipWith, ← List.map_uncurry_zip_eq_zipWith]
  exact List.map_snd_zip (Nat.le_of_eq hlength)

/-- With a map, the text of a glyph is what the map has for its code. -/
theorem unicode_of_toUnicode {font : CompositeFont} {bytes : List UInt8} {place : Nat}
    {glyph : Glyph} (h : (font.decode bytes)[place]? = some glyph) {map : ToUnicode}
    (hmap : font.toUnicode = some map) : glyph.unicode = map[glyph.code]?.getD "" := by
  obtain ⟨hcode, -, -, htext⟩ := getElem?_decode h
  rw [← getElem?_codes] at hcode
  rw [texts, hmap] at htext
  dsimp only at htext
  rw [List.getElem?_map, hcode, Option.map_some] at htext
  exact (Option.some.inj htext).symm

/-- A string shown in a composite font keeps every byte. There is a glyph for every two bytes and
one for a last byte by itself; none is a word space, and each has the width of its own code and,
with a map, the text that the map gives to its code. Without a map, where codes are units of
UTF-16, the texts are aligned with the codes, and joined they are what the units mean together;
and codes are units in the fonts whose encoding says so. -/
theorem decode_keeps (font : CompositeFont) (bytes : List UInt8) :
    (font.decode bytes).length = (bytes.length + 1) / 2 ∧
    (∀ place glyph, (font.decode bytes)[place]? = some glyph →
      codeAt? bytes place = some glyph.code ∧ glyph.isWordSpace = false ∧
        glyph.width = font.codeWidth glyph.code ∧
          ∀ map, font.toUnicode = some map → glyph.unicode = map[glyph.code]?.getD "") ∧
    (font.toUnicode = none → font.utf16Codes = true →
      Aligned ((font.decode bytes).map Glyph.code) ((font.decode bytes).map Glyph.unicode) ∧
        Utf16.Means ((font.decode bytes).map fun glyph => glyph.code.toUInt16)
          (Glyph.textOf (font.decode bytes)).toList) ∧
    ∀ inflater resolver dict, load inflater resolver dict = .ok font →
      (font.utf16Codes = true ↔ ∃ encoding,
        dict.resolve? "Encoding" resolver = .ok (some (.name encoding)) ∧
          NamesUnits encoding) := by
  refine ⟨length_decode font bytes, fun place glyph h => ?_, fun hmap hunits => ?_,
    fun inflater resolver dict h => utf16Codes_of_load h⟩
  · obtain ⟨hcode, hspace, hwidth, -⟩ := getElem?_decode h
    exact ⟨hcode, hspace, hwidth, fun map hmap => unicode_of_toUnicode h hmap⟩
  · have htexts : font.texts (codes bytes) = unitTexts (codes bytes) := by
      rw [texts, hmap]
      exact if_pos hunits
    have hcodes : ((font.decode bytes).map fun glyph => glyph.code.toUInt16) =
        (codes bytes).map Nat.toUInt16 := by
      rw [← map_code_decode font bytes, List.map_map]
      rfl
    rw [map_code_decode, map_unicode_decode, Glyph.textOf_eq_join, map_unicode_decode, hcodes,
      htexts, join_unitTexts, Utf16.textOf, String.toList_ofList]
    exact ⟨aligned_unitTexts _, Utf16.means_decodeLossy _⟩

/-- A font whose codes are units of UTF-16. -/
def unitFont : CompositeFont := { plain "Units" with utf16Codes := true }

/-- A second half without a first one, a pair, a first half without a second one, and a last byte
by itself. -/
theorem decode_keeps_reversed :
    (unitFont.toUnicode = none ∧ unitFont.utf16Codes = true) ∧
      (Glyph.textOf
          (unitFont.decode [0xDF, 0x0C, 0xD8, 0x35, 0xDF, 0x0C, 0xD8, 0x35, 0x41])).toList =
        [Char.ofNat 0xFFFD, Char.ofNat 0x1D70C, Char.ofNat 0xFFFD, 'A'] := by
  have hunits : unitFont.toUnicode = none ∧ unitFont.utf16Codes = true := ⟨rfl, rfl⟩
  obtain ⟨-, -, hmeans, -⟩ :=
    decode_keeps unitFont [0xDF, 0x0C, 0xD8, 0x35, 0xDF, 0x0C, 0xD8, 0x35, 0x41]
  have hnotLow : ∀ u ∈ ([0x41] : List UInt16).head?, Utf16.isLow u = false := fun _ hu => by
    obtain rfl := Option.some.inj hu
    decide
  exact ⟨hunits, (hmeans hunits.1 hunits.2).2.unique (.loneLow (by decide)
    (.pair (by decide) (by decide) (by decide)
      (.loneHigh (by decide) hnotLow (.plain (by decide) (by decide) (by decide) .nil))))⟩

end PageText.Font.CompositeFont
