import Std.Data.TreeMap
import PageText.Font.GlyphName
import PageText.Text.Search
import PageText.Text.Utf8
import PageText.Text.Utf16

/-!
# Maps from codes to text

A font may carry a map that lists the text of its codes, one by one or by ranges.
Only the two kinds of sections that list text are read, first all single codes and
then all ranges, and a later listing of a code replaces an earlier one. What does
not have the form of a listing is passed over.
-/

namespace PageText.Font

/-- The text of each code. -/
abbrev ToUnicode := Std.TreeMap Nat String

namespace ToUnicode

/-- Codes are numbers below this bound. -/
def codeBound : Nat := 0x100000000

/-- Ranges that span this many codes or more are not believed. -/
def rangeBound : Nat := 0x10000

/-- A hexadecimal digit. -/
def isHex (c : Char) : Bool := (GlyphName.digit? c).isSome

/-- The value of a run of hexadecimal digits. -/
def hexNumber (digits : List Char) : Nat :=
  digits.foldl (fun n c => n * 16 + (GlyphName.digit? c).getD 0) 0

/-- The code that digits spell, if it is within the bound. -/
def code? (digits : List Char) : Option Nat :=
  let n := hexNumber digits
  if n < codeBound then some n else none

/-- Digits in groups of four, as 16-bit units. -/
def unitsOf : List Char → List UInt16
  | a :: b :: c :: d :: rest => (hexNumber [a, b, c, d]).toUInt16 :: unitsOf rest
  | _ => []

/-- The text that a destination spells. Blanks between digits are ignored, and
zeros are added on the left to fill the first unit; no digits spell no text. -/
def text? (destination : List Char) : Option String :=
  let digits := destination.filter isHex
  if digits.isEmpty then none
  else
    let missing := (4 - digits.length % 4) % 4
    some (Text.Utf16.textOf (unitsOf (List.replicate missing '0' ++ digits)))

/-- The text of a place in a range: the last unit of the first text is moved on by
the place, wrapping around. -/
def textAt (first : String) (place : Nat) : String :=
  let units := Text.Utf16.encode first.toList
  Text.Utf16.textOf (units.dropLast ++ (units.getLast?.map (· + place.toUInt16)).toList)

/-- Read `<`, then characters of a class, then `>`. -/
def bracketed? (isBody : Char → Bool) : List Char → Option (List Char × List Char)
  | '<' :: rest =>
    match rest.dropWhile isBody with
    | '>' :: after => some (rest.takeWhile isBody, after)
    | _ => none
  | _ => none

/-- Read the digits of a code; there has to be at least one. -/
def source? (text : List Char) : Option (List Char × List Char) := do
  let (digits, after) ← bracketed? isHex text
  if digits.isEmpty then none else pure (digits, after)

/-- Read a destination: digits and blanks. -/
def destination? (text : List Char) : Option (List Char × List Char) :=
  bracketed? (fun c => isHex c || Text.Blank.isBlank c) text

/-- Skip blanks. -/
def skipBlank (text : List Char) : List Char := text.dropWhile Text.Blank.isBlank

/-- Read the listing of one code: its digits and its destination. -/
def single? (text : List Char) : Option ((List Char × List Char) × List Char) := do
  let (source, text) ← source? text
  let (destination, text) ← destination? (skipBlank text)
  pure ((source, destination), text)

/-- What a range of codes is mapped to. -/
inductive Target where
  /-- Consecutive texts from one on. -/
  | consecutive (destination : List Char)
  /-- The texts of a list in brackets. -/
  | listed (items : List Char)

/-- Read the target of a range. -/
def target? (text : List Char) : Option (Target × List Char) :=
  match destination? text with
  | some (destination, after) => some (.consecutive destination, after)
  | none =>
    match text with
    | '[' :: rest =>
      match rest.dropWhile (· != ']') with
      | _ :: after => some (.listed (rest.takeWhile (· != ']')), after)
      | [] => none
    | _ => none

/-- The listing of a range: digits of its first and last code, and its target. -/
structure Range where
  /-- Digits of the first code. -/
  low : List Char
  /-- Digits of the last code. -/
  high : List Char
  /-- The texts. -/
  target : Target

/-- Read the listing of a range. -/
def range? (text : List Char) : Option (Range × List Char) := do
  let (low, text) ← source? text
  let (high, text) ← source? (skipBlank text)
  let (target, text) ← target? (skipBlank text)
  pure (⟨low, high, target⟩, text)

/-- The codes that a single listing gives text to. -/
def singleEntries (listing : List Char × List Char) : List (Nat × String) :=
  match code? listing.1, text? listing.2 with
  | some code, some text => [(code, text)]
  | _, _ => []

/-- The texts of the first `count` codes of a range. Items of a list that spell no
text are left out before the codes are handed to them. -/
def targetTexts (count : Nat) : Target → List String
  | .consecutive destination =>
    match text? destination with
    | none => []
    | some first => (List.range count).map (textAt first)
  | .listed items => ((Text.Search.allMatches destination? items).filterMap text?).take count

/-- The codes that the listing of a range gives text to. -/
def rangeEntries (range : Range) : List (Nat × String) :=
  match code? range.low, code? range.high with
  | some low, some high =>
    if low ≤ high && high - low < rangeBound then
      (targetTexts (high - low + 1) range.target).zipIdx.map fun (text, place) =>
        (low + place, text)
    else []
  | _, _ => []

/-- The listings of all sections between two marks. -/
def listings {α : Type} (opening closing : String) (reader : List Char → Option (α × List Char))
    (text : List Char) : List α :=
  (Text.Search.sections opening.toList closing.toList text).flatMap
    (Text.Search.allMatches reader)

/-- Everything that a map lists, in the order in which it takes effect. -/
def entries (text : List Char) : List (Nat × String) :=
  (listings "beginbfchar" "endbfchar" single? text).flatMap singleEntries ++
    (listings "beginbfrange" "endbfrange" range? text).flatMap rangeEntries

/-- The map that listings make, later ones replacing earlier ones. -/
def ofEntries (entries : List (Nat × String)) : ToUnicode :=
  entries.foldl (fun map entry => map.insert entry.1 entry.2) ∅

/-- The map that the data of a stream lists. -/
def ofBytes (data : List UInt8) : ToUnicode :=
  ofEntries (entries (Text.Utf8.decodeLossy data))

end ToUnicode

end PageText.Font
