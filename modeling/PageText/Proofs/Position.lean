import Mathlib.Data.List.Infix
import PageText.Operation
import PageText.Proofs.TokenSequence

/-!
# Reading by position

The readers of strings and inline images walk along their input and never ask how long it
is. Here both are done by positions instead: every index and every slice is checked against
the length, and `none` stands for one that lies outside. The main statements say that it
never comes to that and that the readers find the same either way, although a backslash
moves the position by two, past the end if it comes to that.
-/

namespace PageText

namespace Slice

/-- The bytes from a position on, which may be the end but not lie past it. -/
def from? (bytes : List UInt8) (start : Nat) : Option (List UInt8) :=
  if start ≤ bytes.length then some (bytes.drop start) else none

/-- The bytes before a position, which may be the end but not lie past it. -/
def upTo? (bytes : List UInt8) (stop : Nat) : Option (List UInt8) :=
  if stop ≤ bytes.length then some (bytes.take stop) else none

/-- The bytes before the place where two parts meet. -/
theorem upTo?_append (first second : List UInt8) :
    upTo? (first ++ second) first.length = some first := by
  rw [upTo?, if_pos (by simp), List.take_left]

/-- The bytes behind the place where two parts meet. -/
theorem from?_append (first second : List UInt8) :
    from? (first ++ second) first.length = some second := by
  rw [from?, if_pos (by simp), List.drop_left]

/-- Before a position behind the first byte lies that byte as well. -/
theorem upTo?_cons (b : UInt8) (bytes : List UInt8) (stop : Nat) :
    upTo? (b :: bytes) (stop + 1) = (upTo? bytes stop).map (b :: ·) := by
  simp only [upTo?, List.length_cons, Nat.add_le_add_iff_right]
  split <;> rfl

/-- From a position behind the first byte on that byte does not matter. -/
theorem from?_cons (b : UInt8) (bytes : List UInt8) (start : Nat) :
    from? (b :: bytes) (start + 1) = from? bytes start := by
  simp only [from?, List.length_cons, Nat.add_le_add_iff_right, List.drop_succ_cons]

end Slice

namespace Spelling.Literal

/-- Scan by position for the end of a string, with the number of parentheses still open, and
say how many are open at the end and where that is. A backslash takes the byte after it
along. -/
def scan? (bytes : List UInt8) (depth position : Nat) : Option (Nat × Nat) :=
  if 0 < depth ∧ position < bytes.length then
    match bytes[position]? with
    | none => none
    | some b =>
      if b == backslash then scan? bytes depth (position + 2)
      else if b == Byte.ofChar '(' then scan? bytes (depth + 1) (position + 1)
      else if b == Byte.ofChar ')' then scan? bytes (depth - 1) (position + 1)
      else scan? bytes depth (position + 1)
  else some (depth, position)
  termination_by bytes.length - position

/-- The body of a string whose opening parenthesis has been read, by position: all before
the closing parenthesis, and what is behind it. -/
def bodyByPosition? (bytes : List UInt8) : Option (Option (List UInt8 × List UInt8)) := do
  let (depth, position) ← scan? bytes 1 0
  if depth ≠ 0 ∨ bytes.length < position then pure none
  else
    let rest ← Slice.from? bytes position
    let raw ← if 0 < position then Slice.upTo? bytes (position - 1) else none
    pure (some (raw, rest))

/-- Past the end the scan stops. -/
theorem scan?_of_le {bytes : List UInt8} {position : Nat} (h : bytes.length ≤ position)
    (depth : Nat) : scan? bytes depth position = some (depth, position) := by
  rw [scan?, if_neg (fun hin => absurd hin.2 (by omega))]

/-- With no parenthesis open the scan stops. -/
theorem scan?_closed (bytes : List UInt8) (position : Nat) :
    scan? bytes 0 position = some (0, position) := by
  rw [scan?, if_neg (fun hin => absurd hin.1 (by omega))]

/-- At a byte within the string the scan looks at it and goes on. -/
theorem scan?_append (before bytes : List UInt8) (b : UInt8) (depth : Nat) :
    scan? (before ++ b :: bytes) (depth + 1) before.length =
      if b == backslash then scan? (before ++ b :: bytes) (depth + 1) (before.length + 2)
      else if b == Byte.ofChar '(' then
        scan? (before ++ b :: bytes) (depth + 1 + 1) (before.length + 1)
      else if b == Byte.ofChar ')' then scan? (before ++ b :: bytes) depth (before.length + 1)
      else scan? (before ++ b :: bytes) (depth + 1) (before.length + 1) := by
  have hin : 0 < depth + 1 ∧ before.length < (before ++ b :: bytes).length := by simp
  have hat : (before ++ b :: bytes)[before.length]? = some b := by simp
  rw [scan?, if_pos hin, hat]
  rfl

/-- What a scan by position has to find for a string that begins at a position: the place
right behind its closing parenthesis, or that something is still open. -/
def FoundBy (start : Nat) (found : Option (Nat × Nat)) : Option (List UInt8 × List UInt8) → Prop
  | some (raw, _) => found = some (0, start + raw.length + 1)
  | none => ∃ depth position, found = some (depth + 1, position)

/-- A byte that is kept moves the beginning by one. -/
theorem FoundBy.map {start : Nat} {found : Option (Nat × Nat)}
    {body : Option (List UInt8 × List UInt8)} (h : FoundBy (start + 1) found body) (b : UInt8) :
    FoundBy start found (body.map fun part => (b :: part.1, part.2)) := by
  cases body with
  | none => exact h
  | some part =>
    have hfound : found = some (0, start + 1 + part.1.length + 1) := h
    have hplace : start + 1 + part.1.length + 1 = start + (b :: part.1).length + 1 := by
      rw [List.length_cons]
      omega
    rw [hfound, hplace]
    rfl

/-- The scan by position finds the end of a string. An escape that is pending puts the
position one further, and the bytes already passed carry the induction. -/
theorem foundBy_scan? (depth : Nat) (escaped : Bool) (before bytes : List UInt8) :
    FoundBy before.length
      (scan? (before ++ bytes) (depth + 1) (before.length + escaped.toNat))
      (bodyFrom? depth escaped bytes) := by
  induction bytes generalizing depth escaped before with
  | nil =>
    refine ⟨depth, before.length + escaped.toNat, scan?_of_le ?_ _⟩
    rw [List.append_nil]
    omega
  | cons b bytes ih =>
    have keep (depth : Nat) (escaped : Bool) : FoundBy before.length
        (scan? (before ++ b :: bytes) (depth + 1) (before.length + 1 + escaped.toNat))
        ((bodyFrom? depth escaped bytes).map fun part => (b :: part.1, part.2)) := by
      have hnext := ih depth escaped (before ++ [b])
      rw [List.append_assoc, List.length_append] at hnext
      exact hnext.map b
    cases escaped with
    | true =>
      simp only [bodyFrom?, if_true]
      exact keep depth false
    | false =>
      simp only [bodyFrom?, Bool.false_eq_true, if_false, Bool.toNat_false, Nat.add_zero,
        scan?_append]
      cases hslash : b == backslash with
      | true => exact keep depth true
      | false =>
        cases hopen : b == Byte.ofChar '(' with
        | true => exact keep (depth + 1) false
        | false =>
          cases hclose : b == Byte.ofChar ')' with
          | false => exact keep depth false
          | true =>
            cases depth with
            | zero => exact scan?_closed _ _
            | succ depth => exact keep depth false

/-- Reading a string by position stays within the bytes and finds the same string. -/
theorem bodyByPosition?_eq (bytes : List UInt8) : bodyByPosition? bytes = some (body? bytes) := by
  have hscan : FoundBy 0 (scan? bytes 1 0) (body? bytes) := foundBy_scan? 0 false [] bytes
  rw [bodyByPosition?]
  cases hbody : body? bytes with
  | none =>
    rw [hbody] at hscan
    obtain ⟨depth, position, hfound⟩ := hscan
    rw [hfound]
    simp
  | some part =>
    rw [hbody] at hscan
    obtain ⟨raw, rest⟩ := part
    have hfound : scan? bytes 1 0 = some (0, 0 + raw.length + 1) := hscan
    obtain ⟨hbytes, -⟩ := of_bodyFrom? hbody
    have hend : (raw ++ [Byte.ofChar ')']).length = 0 + raw.length + 1 := by
      rw [List.length_append, List.length_singleton, Nat.zero_add]
    have hrest : Slice.from? bytes (0 + raw.length + 1) = some rest := by
      rw [hbytes, ← hend, List.append_cons]
      exact Slice.from?_append _ rest
    have hraw : Slice.upTo? bytes (0 + raw.length + 1 - 1) = some raw := by
      rw [hbytes, Nat.add_sub_cancel, Nat.zero_add]
      exact Slice.upTo?_append raw _
    have hin : ¬((0 : Nat) ≠ 0 ∨ bytes.length < 0 + raw.length + 1) := by
      rw [hbytes, List.length_append, List.length_cons]
      omega
    rw [hfound]
    simp only [Option.bind_eq_bind, Option.bind_some, if_neg hin, hrest]
    rw [if_pos (by omega), hraw]
    rfl

end Spelling.Literal

namespace Operation

/-- The position of the blank before the end of an inline image, the first one there is. -/
def endPosition? (bytes : List UInt8) : Option Nat := bytes.tails.findIdx? endsImage

/-- Split the bytes of an inline image from what follows its end, by position. -/
def splitByPosition? (bytes : List UInt8) : Option (List UInt8 × List UInt8) :=
  match endPosition? bytes with
  | none => some (bytes, [])
  | some position => do
    let data ← Slice.upTo? bytes position
    let rest ← Slice.from? bytes (position + 3)
    pure (data, rest)

/-- The end of an image takes three bytes. -/
theorem three_le_of_endsImage {bytes : List UInt8} (h : endsImage bytes = true) :
    3 ≤ bytes.length := by
  unfold endsImage at h
  split at h
  · simp
  · cases h

/-- Splitting an inline image by position stays within the bytes and splits it the same. -/
theorem splitByPosition?_eq (bytes : List UInt8) :
    splitByPosition? bytes = some (splitImage bytes) := by
  induction bytes with
  | nil => rfl
  | cons b bytes ih =>
    rw [splitByPosition?, endPosition?, List.tails_cons, List.findIdx?_cons, splitImage]
    cases hend : endsImage (b :: bytes) with
    | true =>
      have hin := three_le_of_endsImage hend
      simp only [if_true, Slice.upTo?, Slice.from?, Nat.zero_add, if_pos hin,
        if_pos (Nat.zero_le _)]
      rfl
    | false =>
      rw [splitByPosition?, endPosition?] at ih
      simp only [Bool.false_eq_true, if_false]
      cases hfound : bytes.tails.findIdx? endsImage with
      | none =>
        rw [hfound] at ih
        rw [← Option.some.inj ih]
        rfl
      | some position =>
        rw [hfound] at ih
        dsimp only at ih
        obtain ⟨data, hdata, hrest⟩ := Option.bind_eq_some_iff.1 ih
        obtain ⟨rest, hrest, hsplit⟩ := Option.bind_eq_some_iff.1 hrest
        rw [← Option.some.inj hsplit]
        have hover : position + 1 + 3 = position + 3 + 1 := by omega
        simp only [Option.map_some, Slice.upTo?_cons, hover, Slice.from?_cons, hdata, hrest]
        rfl

end Operation

end PageText
