import PageText.Proofs.CharacterMap

/-!
# Ranges whose texts are listed in an array

An array gives a range of codes their texts one by one, as lines that list the codes singly do.
An item without a digit spells no text. A line without one leaves its own code without a text,
but an item without one is left out before the codes are handed to the items: the items behind
it move on to earlier codes. So array and lines agree exactly if such items come last.
-/

namespace PageText.Font.ToUnicode

open PageText.Text

/-! ## Destinations without digits -/

/-- The destination has a digit. -/
def hasDigit (destination : List Char) : Bool := destination.any isHex

/-- A destination spells no text exactly if it has no digit. -/
theorem text?_eq_none_iff {destination : List Char} :
    text? destination = none ↔ hasDigit destination = false := by
  have hempty : (destination.filter isHex).isEmpty = !hasDigit destination := by
    rw [Bool.eq_iff_iff, List.isEmpty_iff, List.filter_eq_nil_iff, Bool.not_eq_true', hasDigit,
      List.any_eq_false]
  simp only [text?, hempty]
  cases hasDigit destination <;> simp

/-! ## Lines -/

/-- A code and the destination that is listed for it. -/
structure Line where
  /-- The code. -/
  code : Nat
  /-- The destination, which may have no digit. -/
  destination : List Char

namespace Line

/-- What a line stores, if its destination spells a text. -/
def entry? (line : Line) : Option (Nat × String) :=
  (text? line.destination).map fun text => (line.code, text)

/-- The code in brackets and the destination in brackets. -/
inductive Written : Line → List Char → Prop where
  /-- There may be blanks between the two. -/
  | tokens {code : Nat} {source gap destination : List Char} (hc : SpellsCode code source)
      (hg : IsGap gap) (hd : IsDestination destination) :
      Written ⟨code, destination⟩ (inBrackets source ++ (gap ++ inBrackets destination))

/-- A line is read, whatever follows, and stores what it has to store. -/
theorem Written.single? {line : Line} {one : List Char} (h : line.Written one) :
    ReadAs single? singleEntries one line.entry?.toList := by
  obtain @⟨code, source, gap, destination, hc, hg, hd⟩ := h
  refine ⟨List.cons_ne_nil _ _, (source, destination), ?_, single?_tokens hc hg hd⟩
  simp only [singleEntries, hc.code?, entry?]
  cases text? destination <;> rfl

/-- No mark begins in a line. -/
theorem Written.clear {line : Line} {one : List Char} (h : line.Written one) : Clear one := by
  obtain ⟨hc, hg, hd⟩ := h
  exact hc.clear.append (hg.clear.append hd.clear)

end Line

/-- Bytes with one section, which lists the lines in a row. -/
def ListsLines (lines : List Line) (bytes : List UInt8) : Prop :=
  ∃ body, InARow Line.Written lines body ∧ Holds [(.single, body)] bytes

/-- A file of lines stores what the lines store. -/
theorem ListsLines.entries {lines : List Line} {bytes : List UInt8} (h : ListsLines lines bytes) :
    entries (Utf8.decodeLossy bytes) = lines.filterMap Line.entry? := by
  obtain ⟨body, hrow, hholds⟩ := h
  have hclear : Clear body := hrow.clear fun _ _ => Line.Written.clear
  have hread : (Search.allMatches single? body).flatMap singleEntries =
      lines.flatMap fun line => line.entry?.toList :=
    hrow.flatMap_allMatches (fun _ rest hc => single?_of_isBlank hc rest)
      fun _ _ => Line.Written.single?
  rw [entries_of_holds hholds (List.forall_mem_singleton.2 hclear),
    List.filterMap_eq_flatMap_toList, ← hread]
  simp

/-! ## Arrays -/

/-- A range of codes and the array of its destinations. -/
structure RangeArray where
  /-- The first code. -/
  low : Nat
  /-- The last code. -/
  high : Nat
  /-- The destinations, any of which may have no digit. -/
  destinations : List (List Char)

namespace RangeArray

/-- The last code does not come before the first and is not too far from it. -/
structure Proper (array : RangeArray) : Prop where
  /-- There is a code. -/
  low_le : array.low ≤ array.high
  /-- The range is believed. -/
  high_lt : array.high < array.low + 0x10000

/-- The first code, the last code and the destinations in square brackets. -/
inductive Written : RangeArray → List Char → Prop where
  /-- There may be blanks between all of them. -/
  | tokens {low high : Nat} {first gap last gap' body : List Char}
      {destinations : List (List Char)} (hl : SpellsCode low first) (hg : IsGap gap)
      (hh : SpellsCode high last) (hg' : IsGap gap')
      (hd : InARow WrittenDestination destinations body) :
      Written ⟨low, high, destinations⟩
        (inBrackets first ++ (gap ++ (inBrackets last ++ (gap' ++ ('[' :: (body ++ [']']))))))

/-- Bytes with one section, which lists the range. -/
def ListedIn (array : RangeArray) (bytes : List UInt8) : Prop :=
  ∃ body, InARow Written [array] body ∧ Holds [(.range, body)] bytes

/-- How many codes there are from the first to the last. -/
def width (array : RangeArray) : Nat := array.high - array.low + 1

/-- The lines that list the codes of the range singly: the code at a place with the destination
at the same place, as long as there are both. -/
def lines (array : RangeArray) : List Line :=
  (array.destinations.take array.width).zipIdx.map fun (destination, place) =>
    ⟨array.low + place, destination⟩

/-- The array without the items that spell no text. -/
def spelled (array : RangeArray) : RangeArray :=
  { array with destinations := array.destinations.filter hasDigit }

/-- Behind an item without a digit that stands at a code of the range no item has one. -/
def EmptyLast (array : RangeArray) : Prop :=
  ∀ place later earlier item, place < array.width → place < later →
    array.destinations[place]? = some earlier → array.destinations[later]? = some item →
    hasDigit earlier = false → hasDigit item = false

variable {array : RangeArray} {bytes : List UInt8}

/-- No mark begins in the listing of a range with an array. -/
theorem Written.clear {one : List Char} (h : array.Written one) : Clear one := by
  obtain ⟨hl, hg, hh, hg', hd⟩ := h
  exact hl.clear.append (hg.clear.append (hh.clear.append (hg'.clear.append (clear_array hd))))

/-- The range with the texts that its items spell, one after the other. -/
def asSpan (array : RangeArray) : Span :=
  ⟨array.low, array.high, .listed (array.destinations.filterMap text?)⟩

/-- A range with an array is read, whatever follows, and stores the texts that its items
spell. -/
theorem Written.range? {one : List Char} (h : array.Written one) :
    ReadAs range? rangeEntries one array.asSpan.entries := by
  obtain ⟨hl, hg, hh, hg', hd⟩ := h
  exact range?_tokens hl hg hh hg' (readTarget_array hd)

/-- A file with an array stores the texts that its items spell. -/
theorem ListedIn.entries (h : array.ListedIn bytes) :
    entries (Utf8.decodeLossy bytes) = array.asSpan.entries := by
  obtain ⟨body, hrow, hholds⟩ := h
  have hclear : Clear body := hrow.clear fun _ _ => Written.clear
  have hread : (Search.allMatches ToUnicode.range? body).flatMap rangeEntries =
      [array].flatMap fun array => array.asSpan.entries :=
    hrow.flatMap_allMatches (fun _ rest hc => range?_of_isBlank hc rest) fun _ _ => Written.range?
  rw [List.flatMap_singleton] at hread
  rw [entries_of_holds hholds (List.forall_mem_singleton.2 hclear), ← hread]
  simp

/-- The text of a code, if the range has it at a place. -/
def storedAt (array : RangeArray) (textOf? : Nat → Option String) : List (Nat × String) :=
  (List.range array.width).filterMap fun place =>
    (textOf? place).map fun text => (array.low + place, text)

/-- An array stores the texts that its items spell, from the first code on. -/
theorem entries_asSpan (hp : array.Proper) :
    array.asSpan.entries =
      array.storedAt fun place => (array.destinations.filterMap text?)[place]? := by
  rw [Span.entries, Span.width, asSpan, if_pos ⟨hp.low_le, hp.high_lt⟩]
  rfl

/-- The lines of a range store the texts of the items at their places. -/
theorem entries_lines (array : RangeArray) :
    array.lines.filterMap Line.entry? =
      array.storedAt fun place => array.destinations[place]?.bind text? := by
  rw [lines, zipIdx_take_eq, storedAt, List.map_filterMap, List.filterMap_filterMap]
  refine List.filterMap_congr fun place _ => ?_
  cases array.destinations[place]? <;> rfl

/-- The map of a range has the texts at their places. -/
theorem getElem?_storedAt (array : RangeArray) (textOf? : Nat → Option String) {place : Nat}
    (hplace : place < array.width) :
    (ofEntries (array.storedAt textOf?))[array.low + place]? = textOf? place := by
  have hfind (count : Nat) :
      (((List.range count).filterMap fun place =>
          (textOf? place).map fun text => (array.low + place, text)).reverse.find?
        fun entry => entry.1 = array.low + place).map Prod.snd =
        if place < count then textOf? place else none := by
    induction count with
    | zero => rfl
    | succ count ih =>
      rw [List.range_succ, List.filterMap_append, List.reverse_append, List.find?_append]
      by_cases hc : place = count
      · subst hc
        rw [if_pos (Nat.lt_succ_self place), Option.map_or, ih, if_neg (Nat.lt_irrefl place),
          Option.or_none]
        cases htext : textOf? place <;> simp [htext]
      · have hlt : place < count + 1 ↔ place < count := by omega
        simp only [hlt]
        rw [← ih]
        cases htext : textOf? count <;> simp [htext, Ne.symm hc]
  rw [getElem?_ofEntries, storedAt, hfind, if_pos hplace]

/-- Maps of a range are the same exactly if they have the same texts at its places. -/
theorem ofEntries_storedAt_inj (array : RangeArray) (textOf? textOf?' : Nat → Option String) :
    ofEntries (array.storedAt textOf?) = ofEntries (array.storedAt textOf?') ↔
      ∀ place < array.width, textOf? place = textOf?' place := by
  constructor
  · intro hsame place hplace
    rw [← getElem?_storedAt array textOf? hplace, hsame, getElem?_storedAt array textOf?' hplace]
  · intro htexts
    refine congrArg ofEntries (List.filterMap_congr fun place hp => ?_)
    rw [htexts place (List.mem_range.1 hp)]

/-! ## Arrays against lines -/

variable {α β : Type} {image? : α → Option β} {items : List α} {count : Nat}

/-- Elements without an image come last, as far as the first ones of a list are concerned. -/
def NoneLast (image? : α → Option β) (items : List α) (count : Nat) : Prop :=
  ∀ place later earlier item, place < count → place < later →
    items[place]? = some earlier → items[later]? = some item →
    image? earlier = none → image? item = none

/-- Leaving out elements without an image keeps the places of the others if those come last. -/
theorem NoneLast.getElem?_filterMap (hlast : NoneLast image? items count) {place : Nat}
    (hplace : place < count) : (items.filterMap image?)[place]? = items[place]?.bind image? := by
  induction items generalizing place count with
  | nil => rfl
  | cons first items ih =>
    cases himage : image? first with
    | some image =>
      rw [List.filterMap_cons_some himage]
      cases place with
      | zero => exact himage.symm
      | succ place =>
        have hrest : NoneLast image? items (count - 1) :=
          fun place later earlier item hp hl =>
            hlast (place + 1) (later + 1) earlier item (by omega) (by omega)
        exact ih hrest (by omega)
    | none =>
      have hnone : ∀ item ∈ items, image? item = none := fun item hm => by
        obtain ⟨later, hlater⟩ := List.mem_iff_getElem?.1 hm
        exact hlast 0 (later + 1) first item (by omega) (by omega) rfl hlater himage
      rw [List.filterMap_cons_none himage, List.filterMap_eq_nil_iff.2 hnone]
      cases place with
      | zero => exact himage.symm
      | succ place =>
        cases hitem : items[place]? with
        | none => simp [hitem]
        | some item => simp [hitem, hnone item (List.mem_of_getElem? hitem)]

/-- If leaving out elements without an image keeps places, then those come last. -/
theorem noneLast_of_getElem?_filterMap
    (hkeep : ∀ place < count, (items.filterMap image?)[place]? = items[place]?.bind image?) :
    NoneLast image? items count := by
  intro place later earlier item hplace hlater he hi hnone
  induction items generalizing place count later with
  | nil => cases he
  | cons first items ih =>
    obtain ⟨later, rfl⟩ := Nat.exists_eq_succ_of_ne_zero (Nat.ne_zero_of_lt hlater)
    rw [List.getElem?_cons_succ] at hi
    cases himage : image? first with
    | some image =>
      rw [List.filterMap_cons_some himage] at hkeep
      cases place with
      | zero =>
        cases he
        cases himage.symm.trans hnone
      | succ place =>
        have hrest : ∀ place < count - 1,
            (items.filterMap image?)[place]? = items[place]?.bind image? :=
          fun place hp => hkeep (place + 1) (by omega)
        exact ih hrest place later (by omega) (by omega) he hi
    | none =>
      have hfirst := hkeep 0 (by omega)
      rw [List.filterMap_cons_none himage, List.getElem?_cons_zero, Option.bind_some, himage,
        List.getElem?_eq_none_iff, Nat.le_zero, List.length_eq_zero_iff,
        List.filterMap_eq_nil_iff] at hfirst
      exact hfirst item (List.mem_of_getElem? hi)

/-- Items without a digit are those that spell no text. -/
theorem emptyLast_iff : array.EmptyLast ↔ NoneLast text? array.destinations array.width := by
  simp only [EmptyLast, NoneLast, text?_eq_none_iff]

/-- The items that have a digit spell the texts of all items. -/
theorem filter_bind_text? (destinations : List (List Char)) (place : Nat) :
    (destinations.filter hasDigit)[place]?.bind text? =
      (destinations.filterMap text?)[place]? := by
  have hfilter : (destinations.filter hasDigit).filterMap text? =
      destinations.filterMap text? := by
    rw [List.filterMap_filter]
    refine List.filterMap_congr fun destination _ => ?_
    split
    · rfl
    · exact (text?_eq_none_iff.2 (Bool.eq_false_iff.2 ‹_›)).symm
  rw [← hfilter]
  have hlast : NoneLast text? (destinations.filter hasDigit) (place + 1) := by
    intro first later earlier item _ _ he _ hnone
    have hdigit := (List.mem_filter.1 (List.mem_of_getElem? he)).2
    cases hdigit.symm.trans (text?_eq_none_iff.1 hnone)
  exact (hlast.getElem?_filterMap (Nat.lt_succ_self place)).symm

/-- An array against lines. The map of a file that lists a range with an array is the map of the
lines that hand the codes, from the first on, to the items that have a digit. It is the map of
the lines that hand each code the item at its own place exactly if behind an item without a digit
that stands at a code there is none with a digit. -/
theorem ofBytes_array (harray : array.ListedIn bytes) (hp : array.Proper) :
    (∀ bytes', ListsLines array.spelled.lines bytes' → ofBytes bytes = ofBytes bytes') ∧
      ∀ bytes', ListsLines array.lines bytes' →
        (ofBytes bytes = ofBytes bytes' ↔ array.EmptyLast) := by
  have hstored := harray.entries.trans (entries_asSpan hp)
  constructor
  · intro bytes' hlines
    have htexts : (fun place => array.spelled.destinations[place]?.bind text?) =
        fun place => (array.destinations.filterMap text?)[place]? :=
      funext (filter_bind_text? array.destinations)
    rw [ofBytes, ofBytes, hlines.entries, entries_lines, hstored, htexts]
    rfl
  · intro bytes' hlines
    rw [ofBytes, ofBytes, hlines.entries, entries_lines, hstored, ofEntries_storedAt_inj,
      emptyLast_iff]
    exact ⟨noneLast_of_getElem?_filterMap, fun hlast _ => hlast.getElem?_filterMap⟩

/-! ## An array with a gap -/

/-- A range of three codes whose second item has no digit. -/
def gapArray : RangeArray := ⟨1, 3, ["0041".toList, [], "0043".toList]⟩

/-- A file that lists the range. -/
def gapFile : List UInt8 :=
  Utf8.encode "beginbfrange\n<01> <03> [<0041> <> <0043>]\nendbfrange".toList

/-- A file that lists each of its codes with the item at its place. -/
def gapLines : List UInt8 :=
  Utf8.encode "beginbfchar\n<01> <0041>\n<02> <>\n<03> <0043>\nendbfchar".toList

/-- A file that hands its codes to the items that have a digit. -/
def closedLines : List UInt8 :=
  Utf8.encode "beginbfchar\n<01> <0041>\n<02> <0043>\nendbfchar".toList

/-- The codes of the range in two digits. -/
theorem spellsCode_gap :
    SpellsCode 1 "01".toList ∧ SpellsCode 2 "02".toList ∧ SpellsCode 3 "03".toList :=
  ⟨@SpellsCode.digits [⟨0, false⟩, ⟨1, false⟩] (by decide) (by decide),
    @SpellsCode.digits [⟨0, false⟩, ⟨2, false⟩] (by decide) (by decide),
    @SpellsCode.digits [⟨0, false⟩, ⟨3, false⟩] (by decide) (by decide)⟩

/-- The items of the range. -/
theorem isDestination_gap :
    IsDestination "0041".toList ∧ IsDestination [] ∧ IsDestination "0043".toList :=
  ⟨List.all_eq_true.1 (by decide), fun _ hm => (List.not_mem_nil hm).elim,
    List.all_eq_true.1 (by decide)⟩

/-- There is a blank between tokens, and a line end between lines. -/
theorem isGap_gap : IsGap [' '] ∧ IsGap ['\n'] :=
  ⟨List.forall_mem_singleton.2 (by decide), List.forall_mem_singleton.2 (by decide)⟩

/-- The range is a proper one. -/
theorem gapArray_proper : gapArray.Proper := ⟨by decide, by decide⟩

/-- The range is listed in its file. -/
theorem gapFile_listed : gapArray.ListedIn gapFile := by
  obtain ⟨h1, -, h3⟩ := spellsCode_gap
  obtain ⟨hA, hnone, hC⟩ := isDestination_gap
  obtain ⟨hspace, hline⟩ := isGap_gap
  have hitems := InARow.cons isGap_nil (WrittenDestination.token hA)
    (.cons hspace (WrittenDestination.token hnone)
      (.cons hspace (WrittenDestination.token hC) (.nil isGap_nil)))
  exact ⟨_, .cons hline (.tokens h1 hspace h3 hspace hitems) (.nil hline),
    holds_section .range "\n<01> <03> [<0041> <> <0043>]\n".toList⟩

/-- Its codes are listed singly in the file of lines. -/
theorem gapLines_listed : ListsLines gapArray.lines gapLines := by
  obtain ⟨h1, h2, h3⟩ := spellsCode_gap
  obtain ⟨hA, hnone, hC⟩ := isDestination_gap
  obtain ⟨hspace, hline⟩ := isGap_gap
  exact ⟨_, .cons hline (.tokens h1 hspace hA) (.cons hline (.tokens h2 hspace hnone)
    (.cons hline (.tokens h3 hspace hC) (.nil hline))),
    holds_section .single "\n<01> <0041>\n<02> <>\n<03> <0043>\n".toList⟩

/-- The items with digits are listed for the first two codes. -/
theorem closedLines_listed : ListsLines gapArray.spelled.lines closedLines := by
  obtain ⟨h1, h2, -⟩ := spellsCode_gap
  obtain ⟨hA, -, hC⟩ := isDestination_gap
  obtain ⟨hspace, hline⟩ := isGap_gap
  exact ⟨_, .cons hline (.tokens h1 hspace hA) (.cons hline (.tokens h2 hspace hC) (.nil hline)),
    holds_section .single "\n<01> <0041>\n<02> <0043>\n".toList⟩

/-- The item without a digit does not come last: the array has the map of the two lines and not
that of the three. -/
theorem ofBytes_array_gap :
    gapArray.ListedIn gapFile ∧ gapArray.Proper ∧ ListsLines gapArray.spelled.lines closedLines ∧
      ListsLines gapArray.lines gapLines ∧ ofBytes gapFile = ofBytes closedLines ∧
      ofBytes gapFile ≠ ofBytes gapLines := by
  have harray := ofBytes_array gapFile_listed gapArray_proper
  refine ⟨gapFile_listed, gapArray_proper, closedLines_listed, gapLines_listed,
    harray.1 _ closedLines_listed, fun hsame => ?_⟩
  have hlast := (harray.2 _ gapLines_listed).1 hsame
  cases hlast 1 2 [] "0043".toList (by decide) (by decide) rfl rfl rfl

/-- The last item of the array moves on to the code of the item without a digit, where the lines
list no text; its own code loses the text that the lines list. -/
theorem gapFile_shifted :
    gapArray.Proper ∧ gapArray.ListedIn gapFile ∧ ListsLines gapArray.lines gapLines ∧
      (ofBytes gapFile)[2]? = some "C" ∧ (ofBytes gapLines)[2]? = none ∧
      (ofBytes gapFile)[3]? = none ∧ (ofBytes gapLines)[3]? = some "C" := by
  have harray : ofBytes gapFile = _ :=
    congrArg ofEntries (gapFile_listed.entries.trans (entries_asSpan gapArray_proper))
  have hlines : ofBytes gapLines = _ :=
    congrArg ofEntries (gapLines_listed.entries.trans (entries_lines gapArray))
  have hplace (textOf? : Nat → Option String) (place : Nat) (hp : place < 3) :
      (ofEntries (gapArray.storedAt textOf?))[1 + place]? = textOf? place :=
    getElem?_storedAt gapArray textOf? hp
  rw [harray, hlines]
  exact ⟨gapArray_proper, gapFile_listed, gapLines_listed,
    (hplace _ 1 (by decide)).trans (by decide), (hplace _ 1 (by decide)).trans (by decide),
    (hplace _ 2 (by decide)).trans (by decide), (hplace _ 2 (by decide)).trans (by decide)⟩

end RangeArray

end PageText.Font.ToUnicode
