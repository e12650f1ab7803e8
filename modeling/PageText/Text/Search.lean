/-!
# Searching text

Sections between two marks, and the matches of a pattern that do not overlap. Both
read from the left and take the earliest place; a section that is never closed is
no section. White space in text is the Unicode property White_Space, as the 25
characters that have it; bytes of page content use the smaller classes of
`PageText.Byte`.
-/

namespace PageText.Text

namespace Blank

/-- The characters with the Unicode property White_Space. -/
def isBlank (c : Char) : Bool :=
  let n := c.toNat
  (0x09 ≤ n && n ≤ 0x0D) || n == 0x20 || n == 0x85 || n == 0xA0 || n == 0x1680 ||
  (0x2000 ≤ n && n ≤ 0x200A) || n == 0x2028 || n == 0x2029 || n == 0x202F ||
  n == 0x205F || n == 0x3000

/-- A text without any character that shows; the empty text counts. -/
def allBlank (text : String) : Bool := text.toList.all isBlank

end Blank

namespace Search

/-- Split at the first place where `mark` stands: what is before it and after it.
The mark is taken to have at least one character. -/
def breakOn? (mark : List Char) : List Char → Option (List Char × List Char)
  | [] => none
  | c :: rest =>
    if mark.isPrefixOf (c :: rest) then some ([], rest.drop (mark.length - 1))
    else (breakOn? mark rest).map fun found => (c :: found.1, found.2)

/-- What follows a mark is shorter than the text. -/
theorem length_lt_of_breakOn? {mark text before after : List Char}
    (h : breakOn? mark text = some (before, after)) : after.length < text.length := by
  induction text generalizing before with
  | nil => cases h
  | cons c rest ih =>
    rw [breakOn?] at h
    split at h
    · cases h
      simp only [List.length_drop, List.length_cons]
      omega
    · obtain ⟨found, eq, same⟩ := Option.map_eq_some_iff.1 h
      cases same
      exact Nat.lt_succ_of_lt (ih eq)

/-- The texts between an opening mark and the closing mark that follows it first. -/
def sections (opening closing : List Char) (text : List Char) : List (List Char) :=
  match _h : breakOn? opening text with
  | none => []
  | some (_, inside) =>
    match _k : breakOn? closing inside with
    | none => []
    | some (body, after) => body :: sections opening closing after
  termination_by text.length
  decreasing_by exact Nat.lt_trans (length_lt_of_breakOn? _k) (length_lt_of_breakOn? _h)

/-- All matches from the left. `reader` recognises a match at the start of a text
and gives what follows it; `skip` counts the characters that still belong to the
match before. -/
def matchesFrom {α : Type} (reader : List Char → Option (α × List Char)) :
    Nat → List Char → List α
  | _, [] => []
  | skip + 1, _ :: rest => matchesFrom reader skip rest
  | 0, c :: rest =>
    match reader (c :: rest) with
    | none => matchesFrom reader 0 rest
    | some (found, after) => found :: matchesFrom reader (rest.length - after.length) rest

/-- All matches of a reader in a text, none overlapping another. -/
def allMatches {α : Type} (reader : List Char → Option (α × List Char)) (text : List Char) :
    List α :=
  matchesFrom reader 0 text

end Search

end PageText.Text
