import Mathlib.Data.List.Forall2
import Mathlib.Data.List.Induction
import PageText.Font.Simple

/-!
# Texts of one-byte codes

An array of changes to an encoding carries a running code: an integer sets it, and each name takes
it and moves it on by one. Here the running code at a place is told from the items before the place,
and the name of a code is the last one that stands at it. A font that is built from such an array
gives a byte the text of its map, else the character of that name, even if it is none, else that of
its encoding. Names without a running code, or with one that no byte has, change nothing.
-/

namespace PageText.Font.SimpleFont

/-! ## The names of an array -/

/-- The running code behind some items: the latest integer among them, moved on by the number of
names behind it. Before the first integer there is none. -/
def RunsTo (before : List Object) (code : Int) : Prop :=
  ∃ lead latest since, before = lead ++ .int latest :: since ∧
    (∀ item ∈ since, item.asInt? = none) ∧
      code = latest + (since.countP fun item => item.asName?.isSome)

/-- A name stands at a place, and the items before it lead to the code. -/
def NameAt (items : List Object) (place : Nat) (code : Int) (name : String) : Prop :=
  items[place]? = some (.name name) ∧ RunsTo (items.take place) code

/-- A name takes the code, and no name behind it does. -/
def LastNameAt (items : List Object) (code : Int) (name : String) : Prop :=
  ∃ place, NameAt items place code name ∧
    ∀ later other, place < later → ¬NameAt items later code other

/-! ## The running code -/

/-- The running code behind one more item. -/
def advance : Option Int → Object → Option Int
  | _, .int start => some start
  | code, .name _ => code.map (· + 1)
  | code, _ => code

/-- An integer at the end is the running code. -/
theorem runsTo_int {before : List Object} {start code : Int} :
    RunsTo (before ++ [.int start]) code ↔ start = code := by
  constructor
  · rintro ⟨lead, latest, since, hsplit, hsince, rfl⟩
    cases since using List.reverseRecOn with
    | nil =>
      obtain ⟨-, hlast⟩ := List.append_inj' hsplit rfl
      cases hlast
      exact (Int.add_zero start).symm
    | append_singleton init last =>
      rw [← List.cons_append, ← List.append_assoc] at hsplit
      obtain ⟨-, hlast⟩ := List.append_inj' hsplit rfl
      cases hlast
      have hno := hsince (.int start) (List.mem_append_right _ List.mem_cons_self)
      cases hno
  · rintro rfl
    exact ⟨before, start, [], rfl, fun _ h => absurd h List.not_mem_nil, (Int.add_zero start).symm⟩

/-- Any other item at the end moves the running code on if it is a name. -/
theorem runsTo_concat {item : Object} (hitem : item.asInt? = none) {before : List Object}
    {code : Int} : RunsTo (before ++ [item]) code ↔
      ∃ former, RunsTo before former ∧
        code = former + ([item].countP fun item => item.asName?.isSome) := by
  constructor
  · rintro ⟨lead, latest, since, hsplit, hsince, rfl⟩
    cases since using List.reverseRecOn with
    | nil =>
      obtain ⟨-, hlast⟩ := List.append_inj' hsplit rfl
      cases hlast
      cases hitem
    | append_singleton init last =>
      rw [← List.cons_append, ← List.append_assoc] at hsplit
      obtain ⟨hbefore, hlast⟩ := List.append_inj' hsplit rfl
      cases hlast
      obtain ⟨hinit, -⟩ := List.forall_mem_append.1 hsince
      refine ⟨_, ⟨lead, latest, init, hbefore, hinit, rfl⟩, ?_⟩
      rw [List.countP_append]
      omega
  · rintro ⟨former, ⟨lead, latest, since, rfl, hsince, rfl⟩, rfl⟩
    refine ⟨lead, latest, since ++ [item], ?_, ?_, ?_⟩
    · rw [List.append_assoc, List.cons_append]
    · exact List.forall_mem_append.2 ⟨hsince, List.forall_mem_singleton.2 hitem⟩
    · rw [List.countP_append]
      omega

/-- The running code is what the items make of it one after the other. -/
theorem runsTo_iff_foldl {before : List Object} {code : Int} :
    RunsTo before code ↔ before.foldl advance none = some code := by
  induction before using List.reverseRecOn generalizing code with
  | nil =>
    refine iff_of_false ?_ nofun
    rintro ⟨lead, latest, since, hsplit, -⟩
    cases lead <;> cases hsplit
  | append_singleton before item ih =>
    rw [List.foldl_append, List.foldl_cons, List.foldl_nil]
    cases item with
    | int start => rw [runsTo_int, advance, Option.some.injEq]
    | name text =>
      rw [runsTo_concat rfl, advance, Option.map_eq_some_iff]
      simp [ih, Object.asName?, eq_comm]
    | _ =>
      rw [runsTo_concat rfl]
      simp [ih, Object.asName?, advance]

/-- The names of an array in two parts: the second part starts with the running code that the
first one leaves. -/
theorem differenceNames_append (code : Option Int) (former later : List Object) :
    differenceNames code (former ++ later) =
      differenceNames code former ++ differenceNames (former.foldl advance code) later := by
  induction former generalizing code with
  | nil => rfl
  | cons item former ih =>
    rw [List.cons_append, List.foldl_cons]
    cases item with
    | name text =>
      cases code with
      | none => exact ih none
      | some code =>
        simp only [differenceNames, ih]
        split
        · rfl
        · rfl
    | _ => simp only [differenceNames, ih, advance]

/-- A name at a code that a byte has is a change. -/
theorem differenceNames_of_byte {code : Int} (hcode : 0 ≤ code ∧ code ≤ 255) (name : String)
    (rest : List Object) : differenceNames (some code) (.name name :: rest) =
      (code.toNat.toUInt8, name) :: differenceNames (some (code + 1)) rest := by
  have hcond : (0 ≤ code && code ≤ 255) = true := by
    rw [Bool.and_eq_true, decide_eq_true_eq, decide_eq_true_eq]
    exact hcode
  rw [differenceNames, if_pos hcond]

/-- A name at a code that no byte has is none. -/
theorem differenceNames_of_not_byte {code : Int} (hcode : ¬(0 ≤ code ∧ code ≤ 255))
    (name : String) (rest : List Object) :
    differenceNames (some code) (.name name :: rest) = differenceNames (some (code + 1)) rest := by
  have hcond : ¬(0 ≤ code && code ≤ 255) = true := by
    rw [Bool.and_eq_true, decide_eq_true_eq, decide_eq_true_eq]
    exact hcode
  rw [differenceNames, if_neg hcond]

/-- A running code is the value of a byte only within the range of bytes. -/
theorem toUInt8_eq_iff {code : Int} (hzero : 0 ≤ code) (hbyte : code ≤ 255) (byte : UInt8) :
    byte = code.toNat.toUInt8 ↔ code = byte.toNat := by
  have hlt : code.toNat < 256 := by omega
  rw [← UInt8.toNat_inj, Nat.toUInt8_eq, UInt8.toNat_ofNat', Nat.mod_eq_of_lt hlt]
  omega

/-- One item names a byte only if it is a name and the byte is the running code. -/
theorem lookup_differenceNames_singleton (code : Option Int) (item : Object) (byte : UInt8) :
    (differenceNames code [item]).reverse.lookup byte =
      if code = some (byte.toNat : Int) then item.asName? else none := by
  cases item with
  | name text =>
    cases code with
    | none => rfl
    | some code =>
      have hlt := byte.toNat_lt
      by_cases hrange : 0 ≤ code ∧ code ≤ 255
      · have hbyte := toUInt8_eq_iff hrange.1 hrange.2 byte
        rw [differenceNames_of_byte hrange]
        simp only [differenceNames, List.reverse_singleton, List.lookup_cons, List.lookup_nil,
          Option.some.injEq, Object.asName?]
        by_cases hcode : code = byte.toNat
        · rw [if_pos hcode, beq_iff_eq.2 (hbyte.2 hcode)]
        · rw [if_neg hcode, beq_false_of_ne fun h => hcode (hbyte.1 h)]
      · have hno : ¬some code = some (byte.toNat : Int) := by
          rw [Option.some.injEq]
          omega
        rw [if_neg hno, differenceNames_of_not_byte hrange]
        rfl
  | _ => simp [differenceNames, Object.asName?]

/-! ## The last name of a code -/

/-- A name of an array with one more item stands among the others, or is the last item. -/
theorem nameAt_concat {items : List Object} {item : Object} {place : Nat} {code : Int}
    {name : String} : NameAt (items ++ [item]) place code name ↔
      NameAt items place code name ∨
        place = items.length ∧ item = .name name ∧ RunsTo items code := by
  unfold NameAt
  rcases Nat.lt_trichotomy place items.length with hlt | rfl | hgt
  · have hne : place ≠ items.length := Nat.ne_of_lt hlt
    rw [List.getElem?_append_left hlt, List.take_append_of_le_length (Nat.le_of_lt hlt)]
    simp only [hne, false_and, or_false]
  · have hnone : items[items.length]? = none := List.getElem?_eq_none (Nat.le_refl _)
    rw [List.getElem?_concat_length, List.take_left, hnone]
    simp
  · have hnone : items[place]? = none := List.getElem?_eq_none (Nat.le_of_lt hgt)
    have hnone' : (items ++ [item])[place]? = none :=
      List.getElem?_eq_none (by rw [List.length_append, List.length_singleton]; omega)
    have hne : place ≠ items.length := Nat.ne_of_gt hgt
    rw [hnone, hnone']
    simp [hne]

/-- A name stands within the array. -/
theorem NameAt.lt {items : List Object} {place : Nat} {code : Int} {name : String}
    (h : NameAt items place code name) : place < items.length :=
  (List.getElem?_eq_some_iff.1 h.1).1

/-- If the last item takes a code, it is the last name there. -/
theorem lastNameAt_concat_of_name {items : List Object} {last : String} {code : Int}
    (hcode : RunsTo items code) {name : String} :
    LastNameAt (items ++ [.name last]) code name ↔ name = last := by
  have hlast : NameAt (items ++ [.name last]) items.length code last :=
    nameAt_concat.2 (.inr ⟨rfl, rfl, hcode⟩)
  constructor
  · rintro ⟨place, hname, hnone⟩
    rcases nameAt_concat.1 hname with hbefore | ⟨-, heq, -⟩
    · exact absurd hlast (hnone _ _ hbefore.lt)
    · exact (Object.name.inj heq).symm
  · rintro rfl
    refine ⟨items.length, hlast, fun later other hlater hother => ?_⟩
    have hlt := hother.lt
    rw [List.length_append, List.length_singleton] at hlt
    omega

/-- If the last item takes another code or none, the last name is the one before it. -/
theorem lastNameAt_concat_of_not {items : List Object} {item : Object} {code : Int}
    (h : ∀ name, item = .name name → ¬RunsTo items code) {name : String} :
    LastNameAt (items ++ [item]) code name ↔ LastNameAt items code name := by
  have hiff {place : Nat} {other : String} :
      NameAt (items ++ [item]) place code other ↔ NameAt items place code other := by
    rw [nameAt_concat]
    exact or_iff_left fun hlast => h other hlast.2.1 hlast.2.2
  simp only [LastNameAt, hiff]

/-- If a name takes a code, a last one does. -/
theorem NameAt.exists_last {items : List Object} {place : Nat} {code : Int} {name : String}
    (h : NameAt items place code name) : ∃ last, LastNameAt items code last := by
  induction items using List.reverseRecOn generalizing place name with
  | nil => exact absurd h.lt (Nat.not_lt_zero place)
  | append_singleton items item ih =>
    by_cases hlast : ∃ last, item = .name last ∧ RunsTo items code
    · obtain ⟨last, rfl, hcode⟩ := hlast
      exact ⟨last, (lastNameAt_concat_of_name hcode).2 rfl⟩
    · have hnot : ∀ last, item = .name last → ¬RunsTo items code :=
        fun last heq hcode => hlast ⟨last, heq, hcode⟩
      rcases nameAt_concat.1 h with hbefore | ⟨-, heq, hcode⟩
      · obtain ⟨last, hname⟩ := ih hbefore
        exact ⟨last, (lastNameAt_concat_of_not hnot).2 hname⟩
      · exact absurd hcode (hnot name heq)

/-- The changes of an array hold for a byte the last name that takes it as its code. -/
theorem lookup_differenceNames {items : List Object} {byte : UInt8} {name : String} :
    (differenceNames none items).reverse.lookup byte = some name ↔
      LastNameAt items byte.toNat name := by
  induction items using List.reverseRecOn generalizing name with
  | nil =>
    refine iff_of_false nofun ?_
    rintro ⟨place, hname, -⟩
    exact Nat.not_lt_zero _ hname.lt
  | append_singleton items item ih =>
    rw [differenceNames_append, List.reverse_append, List.lookup_append,
      lookup_differenceNames_singleton]
    by_cases hcode : RunsTo items byte.toNat
    · rw [if_pos (runsTo_iff_foldl.1 hcode)]
      cases hname : item.asName? with
      | some last =>
        obtain rfl : item = .name last := by
          cases item with
          | name text => rw [Option.some.inj hname]
          | _ => cases hname
        rw [lastNameAt_concat_of_name hcode, Option.some_or, Option.some.injEq, eq_comm]
      | none =>
        have hnot : ∀ name, item = .name name → ¬RunsTo items byte.toNat := by
          rintro name rfl
          cases hname
        rw [lastNameAt_concat_of_not hnot, Option.none_or, ih]
    · rw [if_neg fun h => hcode (runsTo_iff_foldl.2 h), Option.none_or, ih,
        lastNameAt_concat_of_not fun _ _ => hcode]

/-! ## Texts -/

/-- The entry of a font dictionary that names the encoding from which the changes start, or the
encoding from which the kind of font starts. -/
def baseEncoding (dict entries : Dict) : Encoding :=
  let start := if (dict.get? "Subtype").bind Object.asName? = some "TrueType" then
    Encoding.winAnsi else Encoding.standard
  (((entries.get? "BaseEncoding").bind Object.asName?).bind Encoding.ofName?).getD start

/-- The fonts that are built from an encoding, an array of changes and a map, step by step or from
a font dictionary. -/
inductive BuiltFrom (items : List Object) : SimpleFont → Encoding → Option ToUnicode → Prop where
  /-- A font without changes is given those of the array. -/
  | changed (base : SimpleFont) (hfresh : base.differences = []) :
      BuiltFrom items (base.withDifferences (differenceNames none items)) base.encoding
        base.toUnicode
  /-- A font dictionary is loaded whose encoding is a dictionary with the array. -/
  | loaded {inflater : Inflater} {resolver : Resolver} {dict entries : Dict} {font : SimpleFont}
      {map : Option ToUnicode} (hload : load inflater resolver dict = .ok font)
      (hencoding : dict.resolve? "Encoding" resolver = .ok (some (.dict entries)))
      (hchanges : entries.resolve? "Differences" resolver = .ok (some (.array items)))
      (hmap : loadToUnicode inflater resolver dict = .ok map) :
      BuiltFrom items font (baseEncoding dict entries) map

/-- The text of a byte by the three layers: what the map has; else the character of the last name
at the byte, or nothing if the name has none; else the character of the encoding, or nothing. -/
inductive TextOf (encoding : Encoding) (items : List Object) (map : Option ToUnicode)
    (byte : UInt8) : String → Prop where
  /-- The map has the code. -/
  | mapped {text : String} (hmap : (map.bind fun map => map[byte.toNat]?) = some text) :
      TextOf encoding items map byte text
  /-- The map does not have the code, but a name takes it. -/
  | named {name : String} (hmap : (map.bind fun map => map[byte.toNat]?) = none)
      (hname : LastNameAt items byte.toNat name) :
      TextOf encoding items map byte (String.ofList (GlyphName.toChar? name).toList)
  /-- Neither has the map the code nor does a name take it. -/
  | encoded (hmap : (map.bind fun map => map[byte.toNat]?) = none)
      (hname : ∀ place name, ¬NameAt items place byte.toNat name) :
      TextOf encoding items map byte (String.ofList (encoding.decode byte).toList)

/-- Looking up among changed values. -/
theorem lookup_map_toChar? (names : List (UInt8 × String)) (byte : UInt8) :
    (names.map fun (code, name) => (code, GlyphName.toChar? name)).lookup byte =
      (names.lookup byte).map GlyphName.toChar? := by
  induction names with
  | nil => rfl
  | cons entry names ih =>
    obtain ⟨code, name⟩ := entry
    rw [List.map_cons, List.lookup_cons, List.lookup_cons, ih]
    cases byte == code <;> rfl

/-- An encoding that is a dictionary with an array of changes is loaded as its base and the names
of the array. -/
theorem loadEncoding_of_changes {resolver : Resolver} {dict entries : Dict} {items : List Object}
    (hencoding : dict.resolve? "Encoding" resolver = .ok (some (.dict entries)))
    (hchanges : entries.resolve? "Differences" resolver = .ok (some (.array items)))
    (start : Encoding) : loadEncoding resolver start dict =
      .ok ((((entries.get? "BaseEncoding").bind Object.asName?).bind Encoding.ofName?).getD start,
        differenceNames none items) := by
  rw [loadEncoding, hencoding]
  simp only [bind, Except.bind, hchanges]
  rfl

/-- However a font is built, it has the encoding, the changes and the map. -/
theorem BuiltFrom.parts {items : List Object} {font : SimpleFont} {encoding : Encoding}
    {map : Option ToUnicode} (h : BuiltFrom items font encoding map) :
    font.encoding = encoding ∧ font.toUnicode = map ∧
      font.differences = (differenceNames none items).map fun (code, name) =>
        (code, GlyphName.toChar? name) := by
  cases h with
  | changed base hfresh =>
    refine ⟨rfl, rfl, ?_⟩
    rw [withDifferences, hfresh, List.nil_append]
  | loaded hload hencoding hchanges hmap =>
    rw [load, loadEncoding_of_changes hencoding hchanges] at hload
    obtain ⟨parts, hparts, hload⟩ := Error.exists_of_bind hload
    cases hparts
    obtain ⟨widths, -, hload⟩ := Error.exists_of_bind hload
    obtain ⟨missing, -, hload⟩ := Error.exists_of_bind hload
    obtain ⟨scale, -, hload⟩ := Error.exists_of_bind hload
    obtain ⟨found, hfound, hload⟩ := Error.exists_of_bind hload
    rw [hmap] at hfound
    cases hfound
    cases hload
    exact ⟨rfl, rfl, List.nil_append _⟩

/-- The text of a byte is told by its layers. -/
theorem BuiltFrom.textOf {items : List Object} {font : SimpleFont} {encoding : Encoding}
    {map : Option ToUnicode} (h : BuiltFrom items font encoding map) (byte : UInt8) :
    TextOf encoding items map byte (font.unicode byte) := by
  obtain ⟨hencoding, hmap, hchanges⟩ := h.parts
  rw [unicode, encoded?, hmap, hencoding, hchanges, ← List.map_reverse, lookup_map_toChar?]
  cases hfound : map.bind fun map => map[byte.toNat]? with
  | some text => exact .mapped hfound
  | none =>
    cases hname : (differenceNames none items).reverse.lookup byte with
    | some name => exact .named hfound (lookup_differenceNames.1 hname)
    | none =>
      refine .encoded hfound fun place name hat => ?_
      obtain ⟨last, hlast⟩ := hat.exists_last
      rw [lookup_differenceNames.2 hlast] at hname
      cases hname

/-- The texts of the glyphs are the texts of the bytes. -/
theorem map_unicode_decode (font : SimpleFont) (bytes : List UInt8) :
    (font.decode bytes).map Glyph.unicode = bytes.map font.unicode := by
  rw [decode, List.map_map]
  rfl

/-- Fonts with the same names at the same codes have the same texts. -/
theorem BuiltFrom.unicode_congr {items items' : List Object} {font font' : SimpleFont}
    {encoding : Encoding} {map : Option ToUnicode} (h : BuiltFrom items font encoding map)
    (h' : BuiltFrom items' font' encoding map)
    (hnames : differenceNames none items' = differenceNames none items) :
    font'.unicode = font.unicode := by
  obtain ⟨hencoding, hmap, hchanges⟩ := h.parts
  obtain ⟨hencoding', hmap', hchanges'⟩ := h'.parts
  funext byte
  rw [unicode, unicode, encoded?, encoded?, hencoding, hencoding', hmap, hmap', hchanges,
    hchanges', hnames]

/-- Items before the first integer name nothing. -/
theorem differenceNames_of_asInt?_eq_none {lead : List Object}
    (hlead : ∀ item ∈ lead, item.asInt? = none) (items : List Object) :
    differenceNames none (lead ++ items) = differenceNames none items := by
  induction lead with
  | nil => rfl
  | cons item lead ih =>
    obtain ⟨hitem, hrest⟩ := List.forall_mem_cons.1 hlead
    rw [← ih hrest]
    cases item with
    | int start => cases hitem
    | _ => rfl

/-- A name without a running code, or with one that no byte has, may be any other name. -/
theorem differenceNames_rename {before : List Object}
    (hbefore : ∀ code, RunsTo before code → code < 0 ∨ 255 < code) (name other : String)
    (after : List Object) :
    differenceNames none (before ++ .name other :: after) =
      differenceNames none (before ++ .name name :: after) := by
  rw [differenceNames_append, differenceNames_append]
  congr 1
  cases hcode : before.foldl advance none with
  | none => rfl
  | some code =>
    have hout := hbefore code (runsTo_iff_foldl.2 hcode)
    have hrange : ¬(0 ≤ code ∧ code ≤ 255) := by omega
    rw [differenceNames_of_not_byte hrange, differenceNames_of_not_byte hrange]

/-- A font that is built from an encoding, an array of changes and a map gives each byte of a string
the text of the first layer that has it. What stands before the first integer of the array is left
out of account, and so is the name at a running code that no byte has. -/
theorem decode_layers {items : List Object} {font : SimpleFont} {encoding : Encoding}
    {map : Option ToUnicode} (h : BuiltFrom items font encoding map) (bytes : List UInt8) :
    List.Forall₂ (TextOf encoding items map) bytes ((font.decode bytes).map Glyph.unicode) ∧
    (∀ lead rest other, items = lead ++ rest → (∀ item ∈ lead, item.asInt? = none) →
      BuiltFrom rest other encoding map →
        (other.decode bytes).map Glyph.unicode = (font.decode bytes).map Glyph.unicode) ∧
    ∀ before name renamed after other, items = before ++ .name name :: after →
      (∀ code, RunsTo before code → code < 0 ∨ 255 < code) →
        BuiltFrom (before ++ .name renamed :: after) other encoding map →
          (other.decode bytes).map Glyph.unicode = (font.decode bytes).map Glyph.unicode := by
  simp only [map_unicode_decode]
  refine ⟨?_, ?_, ?_⟩
  · rw [List.forall₂_map_right_iff, List.forall₂_same]
    exact fun byte _ => h.textOf byte
  · rintro lead rest other rfl hlead hrest
    rw [h.unicode_congr hrest (differenceNames_of_asInt?_eq_none hlead rest).symm]
  · rintro before name renamed after other rfl hbefore hrenamed
    rw [h.unicode_congr hrenamed (differenceNames_rename hbefore name renamed after)]

/-- Changes with a name before the first integer, a name without a character, a code that is named
twice, and names at codes on either side of the bytes that differ from one by 256. -/
def mixedChanges : List Object :=
  [.name "A", .int 65, .name "B", .name "g17", .null, .name "D", .int 65, .name "C", .int 325,
    .name "F", .int (-187), .name "G"]

/-- A font without changes whose map has one code. -/
def mappedFont : SimpleFont :=
  { plain "Mapped" .winAnsi with toUnicode := some (ToUnicode.ofEntries [(68, "Z")]) }

/-- A code that is named twice, one whose name has no character, one behind an item that is no
name, one that the map has, and two of the encoding. -/
theorem decode_layers_mixed :
    BuiltFrom mixedChanges (mappedFont.withDifferences (differenceNames none mixedChanges))
      .winAnsi mappedFont.toUnicode ∧
    List.Forall₂ (TextOf .winAnsi mixedChanges mappedFont.toUnicode) [65, 66, 67, 68, 69, 70]
      ["C", "", "D", "Z", "E", "F"] := by
  have hbuilt : BuiltFrom mixedChanges
      (mappedFont.withDifferences (differenceNames none mixedChanges)) .winAnsi
      mappedFont.toUnicode := .changed mappedFont rfl
  have htexts : ((mappedFont.withDifferences (differenceNames none mixedChanges)).decode
      [65, 66, 67, 68, 69, 70]).map Glyph.unicode = ["C", "", "D", "Z", "E", "F"] := by
    decide
  obtain ⟨hlayers, -, -⟩ := decode_layers hbuilt [65, 66, 67, 68, 69, 70]
  rw [htexts] at hlayers
  exact ⟨hbuilt, hlayers⟩

end PageText.Font.SimpleFont
