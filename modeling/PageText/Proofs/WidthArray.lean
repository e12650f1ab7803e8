import PageText.Filter.Zlib
import PageText.Font.Composite

/-!
# Width arrays of composite fonts

A width array lists entries of two forms, told apart by their second item: a code and an array of
widths for consecutive codes, or two codes and one width for all codes between them. Read one after
the other the entries set what they list and nothing else, and of several entries for a code the
last one counts. What an entry may not set, codes past the largest one and ranges that are reversed
or too long, leaves the reading of the entries after it in step.
-/

namespace PageText.Font.CompositeFont

/-! ## Entries -/

/-- One entry of a width array. -/
inductive WidthEntry where
  /-- Widths for consecutive codes from the first one on. -/
  | list (first : Nat) (items : List Object)
  /-- One width for all codes from the first one to the last. -/
  | range (first last : Fin codeBound) (width : Object)

namespace WidthEntry

/-- The items of an array that write the entry. -/
def written : WidthEntry → List Object
  | list first items => [.int first, .array items]
  | range first last width => [.int first.val, .int last.val, width]

/-- The width that the entry gives to a code, if it covers the code with a number. A list covers
a code by the item at its place, as long as there are codes; a range covers the codes from its
first to its last, if these are in order and not too far apart. -/
def width? : WidthEntry → Nat → Option Float32
  | list first items, code =>
    if first ≤ code ∧ code < codeBound then items[code - first]?.bind Object.asNumber? else none
  | range first last width, code =>
    if first.val ≤ code ∧ code ≤ last.val ∧ last.val ≤ first.val + 65535 then width.asNumber?
    else none

/-- What reading the entry sets. -/
def widths : WidthEntry → List (Nat × Float32)
  | list first items => listWidths first items
  | range first last width => rangeWidths first.val (.int last.val) width

end WidthEntry

/-- The width that a list of entries gives to a code: that of the last entry with one. -/
def lastWidth? (entries : List WidthEntry) (code : Nat) : Option Float32 :=
  entries.reverse.findSome? fun entry => entry.width? code

/-! ## Reading entries -/

/-- An integer in range holds its code. The integer is kept a variable: comparing the cast of a
natural number with the bound is nothing that may be evaluated. -/
theorem code?_of_lt {n : Int} (hzero : 0 ≤ n) (hbound : n < codeBound) :
    code? (.int n) = some n.toNat := by
  have hrange : (0 ≤ n && n < codeBound) = true :=
    Bool.and_eq_true_iff.2 ⟨decide_eq_true hzero, decide_eq_true hbound⟩
  exact if_pos hrange

/-- An integer past the range holds no code. -/
theorem code?_of_le {n : Int} (hbound : codeBound ≤ n) : code? (.int n) = none := by
  have hrange : ¬(0 ≤ n && n < codeBound) = true := by
    rw [Bool.and_eq_true, decide_eq_true_eq, decide_eq_true_eq]
    omega
  exact if_neg hrange

/-- A code is held by the integer that writes it. -/
theorem code?_written (code : Fin codeBound) : code? (.int code.val) = some code.val :=
  code?_of_lt (Int.natCast_nonneg code.val) (Int.ofNat_lt.2 code.isLt)

/-- An item that holds no code begins no entry and is passed over. -/
theorem arrayWidths_of_code?_eq_none {start : Object} (hstart : code? start = none)
    (rest : List Object) : arrayWidths (start :: rest) = arrayWidths rest := by
  match rest with
  | [] => rfl
  | [second] => simp only [arrayWidths, hstart]
  | second :: third :: rest => rw [arrayWidths, hstart]

/-- A code and an array are read as a list, and reading goes on behind them. -/
theorem arrayWidths_of_array {start : Object} {first : Nat} (hstart : code? start = some first)
    (items rest : List Object) :
    arrayWidths (start :: .array items :: rest) = listWidths first items ++ arrayWidths rest := by
  cases rest with
  | nil => simp only [arrayWidths, hstart, List.append_nil]
  | cons third rest => rw [arrayWidths, hstart]

/-- Two codes and an object are read as a range, and reading goes on behind them. -/
theorem arrayWidths_of_int {start : Object} {first : Nat} (hstart : code? start = some first)
    (last : Int) (width : Object) (rest : List Object) :
    arrayWidths (start :: .int last :: width :: rest) =
      rangeWidths first (.int last) width ++ arrayWidths rest := by
  rw [arrayWidths, hstart]

/-- A list from past the largest code on sets nothing. -/
theorem listWidths_of_le {first : Nat} (hfirst : codeBound ≤ first) (items : List Object) :
    listWidths first items = [] := by
  cases items with
  | nil => rfl
  | cons item items => rw [listWidths, if_neg (Nat.not_lt.2 hfirst)]

/-- Entries written one after the other are read one after the other. A list from past the
largest code on begins with no code, so both its items are passed over. -/
theorem arrayWidths_written (entries : List WidthEntry) :
    arrayWidths (entries.flatMap WidthEntry.written) = entries.flatMap WidthEntry.widths := by
  induction entries with
  | nil => rfl
  | cons entry entries ih =>
    rw [List.flatMap_cons, List.flatMap_cons, ← ih]
    cases entry with
    | list first items =>
      by_cases hfirst : first < codeBound
      · exact arrayWidths_of_array (code?_written ⟨first, hfirst⟩) items _
      · have hle : codeBound ≤ first := Nat.le_of_not_lt hfirst
        have hno : code? (.int first) = none := code?_of_le (Int.ofNat_le.2 hle)
        have harray : code? (.array items) = none := rfl
        have hnothing : (WidthEntry.list first items).widths = [] := listWidths_of_le hle items
        rw [hnothing, List.nil_append]
        exact (arrayWidths_of_code?_eq_none hno _).trans (arrayWidths_of_code?_eq_none harray _)
    | range first last width => exact arrayWidths_of_int (code?_written first) _ width _

/-! ## Setting widths -/

/-- Widths are set in order. -/
theorem setWidths_append (former later : List (Nat × Float32)) (map : Std.TreeMap Nat Float32) :
    setWidths (former ++ later) map = setWidths later (setWidths former map) :=
  List.foldl_append

/-- Setting a width changes that of its own code only. -/
theorem getElem?_setWidth (map : Std.TreeMap Nat Float32) (code other : Nat) (width : Float32) :
    (map.insert code width)[other]? = if code = other then some width else map[other]? := by
  simp only [Std.TreeMap.getElem?_insert, Std.LawfulEqCmp.compare_eq_iff_eq]

/-- The first item of a list is for its first code, and the others are a list from the next
code on. -/
theorem width?_list_cons (first : Nat) (item : Object) (items : List Object) (code : Nat) :
    (WidthEntry.list first (item :: items)).width? code =
      if first = code ∧ first < codeBound then item.asNumber?
      else (WidthEntry.list (first + 1) items).width? code := by
  simp only [WidthEntry.width?]
  by_cases hfirst : first = code
  · subst hfirst
    have hpast : ¬(first + 1 ≤ first ∧ first < codeBound) := by omega
    rw [if_neg hpast, Nat.sub_self, List.getElem?_cons_zero, Option.bind_some]
    simp only [Nat.le_refl, true_and]
  · have hother : ¬(first = code ∧ first < codeBound) := fun h => hfirst h.1
    rw [if_neg hother]
    by_cases hcover : first + 1 ≤ code ∧ code < codeBound
    · have hcover' : first ≤ code ∧ code < codeBound := ⟨by omega, hcover.2⟩
      have hplace : code - first = code - (first + 1) + 1 := by omega
      rw [if_pos hcover, if_pos hcover', hplace, List.getElem?_cons_succ]
    · have hcover' : ¬(first ≤ code ∧ code < codeBound) := fun h => hcover ⟨by omega, h.2⟩
      rw [if_neg hcover, if_neg hcover']

/-- A list gives nothing to the codes before its first. -/
theorem width?_list_of_lt {first code : Nat} (hcode : code < first) (items : List Object) :
    (WidthEntry.list first items).width? code = none :=
  if_neg fun h => Nat.not_lt.2 h.1 hcode

/-- A list sets the widths that it gives and leaves all others. -/
theorem getElem?_setWidths_list (first : Nat) (items : List Object)
    (map : Std.TreeMap Nat Float32) (code : Nat) :
    (setWidths (listWidths first items) map)[code]? =
      ((WidthEntry.list first items).width? code).or map[code]? := by
  induction items generalizing first map with
  | nil =>
    have hnone : (WidthEntry.list first []).width? code = none := ite_self _
    rw [hnone]
    rfl
  | cons item items ih =>
    rw [width?_list_cons]
    by_cases hbound : first < codeBound
    · have hnext := width?_list_of_lt (Nat.lt_succ_self first) items
      rw [listWidths, if_pos hbound]
      cases hitem : item.asNumber? with
      | some width =>
        have hset : setWidths ((first, width) :: listWidths (first + 1) items) map =
            setWidths (listWidths (first + 1) items) (map.insert first width) := rfl
        simp only [hset, ih, getElem?_setWidth]
        by_cases hfirst : first = code
        · subst hfirst
          rw [hnext, if_pos rfl, if_pos ⟨rfl, hbound⟩]
          rfl
        · rw [if_neg hfirst, if_neg fun h => hfirst h.1]
      | none =>
        simp only [ih]
        by_cases hfirst : first = code
        · subst hfirst
          rw [hnext, if_pos ⟨rfl, hbound⟩]
        · rw [if_neg fun h => hfirst h.1]
    · have hle : codeBound ≤ first := Nat.le_of_not_lt hbound
      have hnone : (WidthEntry.list (first + 1) items).width? code = none :=
        if_neg fun h => by omega
      rw [listWidths_of_le hle, if_neg fun h => hbound h.2, hnone]
      rfl

/-- Setting one width for codes in a row. -/
theorem getElem?_setWidths_row (first count : Nat) (width : Float32)
    (map : Std.TreeMap Nat Float32) (code : Nat) :
    (setWidths ((List.range count).map fun offset => (first + offset, width)) map)[code]? =
      if first ≤ code ∧ code < first + count then some width else map[code]? := by
  induction count with
  | zero =>
    rw [if_neg (by omega)]
    rfl
  | succ count ih =>
    have hset : setWidths [(first + count, width)] (setWidths
        ((List.range count).map fun offset => (first + offset, width)) map) =
        (setWidths ((List.range count).map fun offset => (first + offset, width)) map).insert
          (first + count) width := rfl
    rw [List.range_succ, List.map_append, List.map_singleton, setWidths_append, hset,
      getElem?_setWidth, ih]
    by_cases hlast : first + count = code
    · rw [if_pos hlast, if_pos (by omega)]
    · by_cases hrow : first ≤ code ∧ code < first + count
      · rw [if_neg hlast, if_pos hrow, if_pos (by omega)]
      · rw [if_neg hlast, if_neg hrow, if_neg (by omega)]

/-- A range with a number sets it for a row of codes, if the range is in order and not too
long. -/
theorem rangeWidths_of_number {final width : Object} {last : Nat} {number : Float32}
    (hlast : code? final = some last) (hwidth : width.asNumber? = some number) (first : Nat) :
    rangeWidths first final width =
      if first ≤ last ∧ last ≤ first + 65535 then
        (List.range (last - first + 1)).map fun offset => (first + offset, number)
      else [] := by
  have hcond : (first ≤ last && last - first < rangeLimit) = true ↔
      first ≤ last ∧ last ≤ first + 65535 := by
    have hlimit : rangeLimit = 65535 + 1 := rfl
    rw [Bool.and_eq_true, decide_eq_true_eq, decide_eq_true_eq]
    omega
  simp only [rangeWidths, hlast, hwidth, hcond]

/-- A range sets its width for the codes that it covers, if it is in order and not too long. -/
theorem getElem?_setWidths_rangeWidths {final : Object} {last : Nat}
    (hlast : code? final = some last) (first : Nat) (width : Object)
    (map : Std.TreeMap Nat Float32) (code : Nat) :
    (setWidths (rangeWidths first final width) map)[code]? =
      (if first ≤ code ∧ code ≤ last ∧ last ≤ first + 65535 then width.asNumber?
        else none).or map[code]? := by
  cases hwidth : width.asNumber? with
  | none =>
    rw [rangeWidths, hlast, hwidth, ite_self]
    rfl
  | some number =>
    rw [rangeWidths_of_number hlast hwidth]
    by_cases hrange : first ≤ last ∧ last ≤ first + 65535
    · rw [if_pos hrange, getElem?_setWidths_row]
      by_cases hcover : first ≤ code ∧ code < first + (last - first + 1)
      · rw [if_pos hcover, if_pos (by omega)]
        rfl
      · rw [if_neg hcover, if_neg (by omega)]
        rfl
    · rw [if_neg hrange, if_neg (by omega)]
      rfl

/-- Reading an entry sets the widths that the entry gives and leaves all others. -/
theorem getElem?_setWidths_entry (entry : WidthEntry) (map : Std.TreeMap Nat Float32)
    (code : Nat) :
    (setWidths entry.widths map)[code]? = (entry.width? code).or map[code]? := by
  cases entry with
  | list first items => exact getElem?_setWidths_list first items map code
  | range first last width =>
    exact getElem?_setWidths_rangeWidths (code?_written last) first.val width map code

/-- After all entries a code has the width that the last of them gives it. -/
theorem getElem?_setWidths_entries (entries : List WidthEntry) (map : Std.TreeMap Nat Float32)
    (code : Nat) :
    (setWidths (entries.flatMap WidthEntry.widths) map)[code]? =
      (lastWidth? entries code).or map[code]? := by
  induction entries generalizing map with
  | nil => rfl
  | cons entry entries ih =>
    have hlast : lastWidth? (entry :: entries) code =
        (lastWidth? entries code).or (entry.width? code) := by
      rw [lastWidth?, List.reverse_cons, List.findSome?_append, List.findSome?_singleton]
      rfl
    rw [List.flatMap_cons, setWidths_append, ih, getElem?_setWidths_entry, hlast, Option.or_assoc]

/-- The widths of an array of written entries are those that its last entries give. -/
theorem getElem?_setWidths_written (entries : List WidthEntry) (code : Nat) :
    (setWidths (arrayWidths (entries.flatMap WidthEntry.written)) ∅)[code]? =
      lastWidth? entries code := by
  rw [arrayWidths_written, getElem?_setWidths_entries, Std.TreeMap.getElem?_emptyc, Option.or_none]

/-! ## Loading -/

/-- The descendant of a font dictionary: the dictionary to which the first item of its array of
descendants resolves. -/
def HasDescendant (resolver : Resolver) (dict descendant : Dict) : Prop :=
  ∃ first others object,
    dict.resolve? "DescendantFonts" resolver = .ok (some (.array (first :: others))) ∧
      first.resolve resolver = .ok object ∧ object.asDict? = some descendant

/-- The width array of a descendant writes the entries one after the other. The array and each of
its items may stand behind references. -/
def WritesWidths (resolver : Resolver) (descendant : Dict) (entries : List WidthEntry) : Prop :=
  ∃ items, descendant.resolve? "W" resolver = .ok (some (.array items)) ∧
    items.mapM (Object.resolve resolver) = .ok (entries.flatMap WidthEntry.written)

/-- The width that a descendant gives to the codes without one of their own. -/
def defaultOf (descendant : Dict) : Float32 :=
  ((descendant.get? "DW").bind Object.asNumber?).getD 1000.0

/-- An object that is no reference stands for itself. -/
theorem resolve_of_asRef?_eq_none {object : Object} (h : object.asRef? = none)
    (resolver : Resolver) : object.resolve resolver = .ok object :=
  Object.resolveWithin_of_direct h _

/-- Objects of which none is a reference stand for themselves. -/
theorem mapM_resolve_of_direct {items : List Object} (h : ∀ item ∈ items, item.asRef? = none)
    (resolver : Resolver) : items.mapM (Object.resolve resolver) = .ok items := by
  induction items with
  | nil => rfl
  | cons item items ih =>
    obtain ⟨hitem, hitems⟩ := List.forall_mem_cons.1 h
    rw [List.mapM_cons, resolve_of_asRef?_eq_none hitem, ih hitems]
    rfl

/-- Entries written in place, without references, are written by the array. -/
theorem writesWidths_of_direct {descendant : Dict} {entries : List WidthEntry}
    (harray : descendant.get? "W" = some (.array (entries.flatMap WidthEntry.written)))
    (hdirect : ∀ item ∈ entries.flatMap WidthEntry.written, item.asRef? = none)
    (resolver : Resolver) : WritesWidths resolver descendant entries := by
  refine ⟨_, ?_, mapM_resolve_of_direct hdirect resolver⟩
  rw [Dict.resolve?, harray]
  rfl

/-- The widths of a descendant are those of its array, beside its default. -/
theorem loadWidths_eq {resolver : Resolver} {descendant : Dict} {entries : List WidthEntry}
    (h : WritesWidths resolver descendant entries) :
    loadWidths resolver descendant =
      .ok (setWidths (arrayWidths (entries.flatMap WidthEntry.written)) ∅,
        defaultOf descendant) := by
  obtain ⟨items, harray, hitems⟩ := h
  rw [loadWidths, harray]
  simp only [bind, Except.bind, hitems]
  rfl

/-- A font whose descendant has a width array is loaded, and gives every code the width of the
last entry that covers the code with a number, or the default width if there is none. The other
parts of the dictionary only have to resolve. -/
theorem load_widthArray {inflater : Inflater} {resolver : Resolver} {dict descendant : Dict}
    {entries : List WidthEntry} {encoding : Option Object} {map : Option ToUnicode}
    (hencoding : dict.resolve? "Encoding" resolver = .ok encoding)
    (hdescendant : HasDescendant resolver dict descendant)
    (hwidths : WritesWidths resolver descendant entries)
    (hmap : SimpleFont.loadToUnicode inflater resolver dict = .ok map) :
    ∃ font, load inflater resolver dict = .ok font ∧
      ∀ code, font.codeWidth code = (lastWidth? entries code).getD (defaultOf descendant) := by
  obtain ⟨first, others, object, hfonts, hfirst, hdict⟩ := hdescendant
  rw [load, hencoding, hfonts]
  simp only [bind, Except.bind, hfirst, hdict, loadWidths_eq hwidths, hmap]
  refine ⟨_, rfl, fun code => ?_⟩
  rw [codeWidth, getElem?_setWidths_written]

/-- Entries of both forms: a list with an item that is no number, a range, one that is reversed,
one that is too long, a list past the largest code, and a list within the range. -/
def mixedEntries : List WidthEntry :=
  [.list 1 [.int 500, .name "x", .int 600],
    .range ⟨10, by decide⟩ ⟨12, by decide⟩ (.int 250),
    .range ⟨12, by decide⟩ ⟨10, by decide⟩ (.int 700),
    .range ⟨100, by decide⟩ ⟨65636, by decide⟩ (.int 700),
    .list 4294967295 [.int 300, .int 400],
    .list 11 [.int 275]]

/-- A descendant with these entries and a default width. -/
def mixedDescendant : Dict :=
  [("DW", .int 900), ("W", .array (mixedEntries.flatMap WidthEntry.written))]

/-- A font with this descendant. -/
def mixedFont : Dict := [("DescendantFonts", .array [.dict mixedDescendant])]

/-- Each code has the width of the last entry for it, and the entries behind those that set
nothing are read. -/
theorem load_widthArray_mixed :
    (mixedFont.resolve? "Encoding" .none = .ok none ∧
      HasDescendant .none mixedFont mixedDescendant ∧
      WritesWidths .none mixedDescendant mixedEntries ∧
      SimpleFont.loadToUnicode .standard .none mixedFont = .ok none) ∧
    ∃ font, load .standard .none mixedFont = .ok font ∧
      [1, 2, 3, 10, 11, 12, 100, 4294967295, 0].map font.codeWidth =
        [500, 900, 600, 250, 275, 250, 900, 300, 900].map Number.Binary32.ofInteger := by
  have hdescendant : HasDescendant .none mixedFont mixedDescendant :=
    ⟨.dict mixedDescendant, [], .dict mixedDescendant, rfl, rfl, rfl⟩
  have hdirect : (mixedEntries.flatMap WidthEntry.written).all (fun item => item.asRef?.isNone) =
      true := rfl
  have hwidths : WritesWidths .none mixedDescendant mixedEntries :=
    writesWidths_of_direct rfl
      (fun item hitem => Option.isNone_iff_eq_none.1 (List.all_eq_true.1 hdirect item hitem)) _
  obtain ⟨font, hfont, hcode⟩ :=
    @load_widthArray .standard .none mixedFont mixedDescendant mixedEntries none none rfl
      hdescendant hwidths rfl
  refine ⟨⟨rfl, hdescendant, hwidths, rfl⟩, font, hfont, ?_⟩
  simp only [List.map_cons, List.map_nil, hcode]
  rfl

end PageText.Font.CompositeFont
