import PageText.Filter.AsciiHex
import PageText.Proofs.Spelling

/-!
# The hexadecimal filter reads what strings read

The filter goes through its data once, with at most one digit pending, and refuses what is
neither digit nor blank; a hexadecimal string leaves out what is no digit and joins the rest in
pairs. On data that the filter accepts the two agree, and both read every spelling of a byte
string back, also one whose last digit zero is left out.
-/

namespace PageText.Spelling.Hex

/-- The bodies that spell a byte string, where a last digit zero need not be written. -/
inductive SpellsShort (bytes : List UInt8) : List UInt8 → Prop where
  /-- All digits. -/
  | whole {body : List UInt8} (hs : Spells bytes body) : SpellsShort bytes body
  /-- All digits but the last one, a zero. -/
  | cut {front gap : List UInt8} (hg : ∀ g ∈ gap, Byte.isBlank g = true)
      (hs : Spells bytes (front ++ Byte.ofChar '0' :: gap)) : SpellsShort bytes (front ++ gap)

/-- A spelling has two digits for each byte. -/
theorem Spells.length_digits {bytes body : List UInt8} (h : Spells bytes body) :
    (body.filterMap Byte.hexValue?).length = 2 * bytes.length := by
  induction h with
  | nil => rfl
  | blank hb _ ih => rw [List.filterMap_cons_none (Byte.hexValue?_of_isBlank hb), ih]
  | @byte b high low gap bytes body hb hg _ ih =>
    rw [List.filterMap_cons_some hb.upper, List.filterMap_append, filterMap_of_isBlank hg,
      List.nil_append, List.filterMap_cons_some hb.lower, List.length_cons, List.length_cons, ih,
      List.length_cons]
    omega

/-- A digit without a partner is joined with a zero, written or not. -/
theorem joinPairs_concat_zero {digits : List UInt8} (h : digits.length % 2 = 1) :
    joinPairs (digits ++ [0]) = joinPairs digits := by
  induction digits using joinPairs.induct with
  | case1 => cases h
  | case2 high => rfl
  | case3 high low digits ih =>
    have hodd : digits.length % 2 = 1 := by
      simp only [List.length_cons] at h
      omega
    rw [List.cons_append, List.cons_append, joinPairs, joinPairs, ih hodd]

namespace SpellsShort

variable {bytes body : List UInt8}

/-- A body holds digits and blanks only. -/
theorem mem (h : SpellsShort bytes body) :
    ∀ b ∈ body, (Byte.isHexDigit b || Byte.isBlank b) = true := by
  cases h with
  | whole hs => exact hs.mem
  | cut _ hs =>
    intro b hb
    refine hs.mem b ?_
    rw [List.mem_append, List.mem_cons]
    exact (List.mem_append.1 hb).imp_right .inr

/-- The body of a string is read back. -/
theorem decode (h : SpellsShort bytes body) : decode body = bytes := by
  cases h with
  | whole hs => exact hs.decode
  | @cut front gap hg hs =>
    have hgap := filterMap_of_isBlank hg
    have hzero : Byte.hexValue? (Byte.ofChar '0') = some 0 := by decide
    have hdigits : (front ++ Byte.ofChar '0' :: gap).filterMap Byte.hexValue? =
        front.filterMap Byte.hexValue? ++ [0] := by
      rw [List.filterMap_append, List.filterMap_cons_some hzero, hgap]
    have hodd : (front.filterMap Byte.hexValue?).length % 2 = 1 := by
      have hlength := hs.length_digits
      rw [hdigits, List.length_append, List.length_singleton] at hlength
      omega
    calc Hex.decode (front ++ gap)
        = joinPairs (front.filterMap Byte.hexValue?) := by
          rw [Hex.decode, List.filterMap_append, hgap, List.append_nil]
      _ = joinPairs (front.filterMap Byte.hexValue? ++ [0]) := (joinPairs_concat_zero hodd).symm
      _ = Hex.decode (front ++ Byte.ofChar '0' :: gap) := by rw [Hex.decode, hdigits]
      _ = bytes := hs.decode

end SpellsShort

end PageText.Spelling.Hex

namespace PageText.Filter.AsciiHex

open PageText.Spelling

/-- The data before the end mark, or all of it without one. -/
def payload (bytes : List UInt8) : List UInt8 := bytes.takeWhile (· != Byte.ofChar '>')

/-- A byte that the filter takes: a digit, or one that it skips. -/
def isTaken (b : UInt8) : Bool := Byte.isHexDigit b || Byte.isBlank b

/-- The filter skips what separates tokens, NUL included. -/
theorem isSkipped_eq (b : UInt8) : isSkipped b = Byte.isBlank b := by
  revert b
  exact Byte.forall_of_fin (by decide +kernel)

/-- The digits and the blanks, one by one. -/
theorem isTaken_iff (b : UInt8) :
    isTaken b = true ↔ b ∈ Byte.ofAscii "0123456789ABCDEFabcdef" ∨
      b ∈ [0x20, 0x09, 0x0A, 0x0C, 0x0D, 0x00] := by
  revert b
  exact Byte.forall_of_fin (by decide +kernel)

/-- The end mark is not taken. -/
theorem isTaken_endMark : isTaken (Byte.ofChar '>') = false := by decide

/-- What the filter gives: its payload read as a string is read, the pending digit first, or a
report on the first byte of the payload that it does not take. -/
theorem decodeFrom_eq (pending : Option UInt8) (bytes : List UInt8) :
    decodeFrom pending bytes =
      match (payload bytes).find? (!isTaken ·) with
      | some b => .error (invalidDigit b)
      | none =>
        .ok (Hex.joinPairs (pending.toList ++ (payload bytes).filterMap Byte.hexValue?)) := by
  have hend (pending : Option UInt8) :
      flush pending = Hex.joinPairs (pending.toList ++ []) := by cases pending <;> rfl
  induction bytes generalizing pending with
  | nil => exact congrArg Except.ok (hend pending)
  | cons b bytes ih =>
    rw [decodeFrom]
    by_cases hmark : b = Byte.ofChar '>'
    · have hp : payload (b :: bytes) = [] :=
        List.takeWhile_cons_of_neg (by rw [hmark, bne_self_eq_false]; decide)
      rw [if_pos (beq_iff_eq.2 hmark), hp, hend]
      rfl
    have hp : payload (b :: bytes) = b :: payload bytes :=
      List.takeWhile_cons_of_pos (bne_iff_ne.2 hmark)
    rw [if_neg (mt beq_iff_eq.1 hmark), isSkipped_eq, hp]
    by_cases hblank : Byte.isBlank b = true
    · have htaken : (!isTaken b) = false := by rw [isTaken, hblank, Bool.or_true, Bool.not_true]
      rw [if_pos hblank, List.find?_cons_of_neg (by rw [htaken]; decide),
        List.filterMap_cons_none (Byte.hexValue?_of_isBlank hblank)]
      exact ih pending
    rw [if_neg hblank]
    cases hdigit : Byte.hexValue? b with
    | none =>
      have htaken : (!isTaken b) = true := by
        rw [isTaken, Byte.isHexDigit, hdigit, Bool.eq_false_iff.2 hblank]
        rfl
      rw [List.find?_cons_of_pos (p := (!isTaken ·)) htaken]
    | some digit =>
      have htaken : (!isTaken b) = false := by
        rw [isTaken, Byte.isHexDigit, hdigit]
        rfl
      rw [List.find?_cons_of_neg (by rw [htaken]; decide), List.filterMap_cons_some hdigit]
      cases pending with
      | none => exact ih (some digit)
      | some high =>
        dsimp only
        rw [ih none]
        cases (payload bytes).find? (!isTaken ·) <;> rfl

/-- The filter succeeds exactly if it takes every byte of its payload. -/
theorem exists_decode_iff (bytes : List UInt8) :
    (∃ out, decode bytes = .ok out) ↔ ∀ b ∈ payload bytes, isTaken b = true := by
  rw [decode, decodeFrom_eq]
  cases hfound : (payload bytes).find? (!isTaken ·) with
  | none =>
    have hall := List.find?_eq_none.1 hfound
    refine iff_of_true ⟨_, rfl⟩ fun b hb => ?_
    simpa using hall b hb
  | some b =>
    have hb : isTaken b = false := by simpa using List.find?_some hfound
    refine iff_of_false (fun ⟨_, h⟩ => nomatch h) fun hall => ?_
    exact Bool.false_ne_true (hb.symm.trans (hall b (List.mem_of_find?_eq_some hfound)))

/-- A payload that the filter takes is decoded as the body of a string. -/
theorem decode_of_taken {bytes : List UInt8} (h : ∀ b ∈ payload bytes, isTaken b = true) :
    decode bytes = .ok (Hex.decode (payload bytes)) := by
  have hnone : (payload bytes).find? (!isTaken ·) = none :=
    List.find?_eq_none.2 fun b hb => by rw [h b hb]; decide
  rw [decode, decodeFrom_eq, hnone, Hex.decode]
  rfl

/-- Bytes that are taken are all payload, up to the end or an end mark. -/
theorem payload_of_taken {bytes : List UInt8} (h : ∀ b ∈ bytes, isTaken b = true)
    {rest : List UInt8} (hr : ∀ b ∈ rest.head?, b = Byte.ofChar '>') :
    payload (bytes ++ rest) = bytes := by
  have hne : ∀ b ∈ bytes, (b != Byte.ofChar '>') = true := fun b hb =>
    bne_iff_ne.2 fun heq =>
      Bool.false_ne_true (isTaken_endMark.symm.trans (heq ▸ h b hb))
  rw [payload, List.takeWhile_append_of_pos hne]
  cases rest with
  | nil => exact List.append_nil bytes
  | cons b rest =>
    rw [List.takeWhile_cons_of_neg (by rw [hr b rfl, bne_self_eq_false]; decide),
      List.append_nil]

/-- The filter and hexadecimal strings agree. The filter succeeds exactly if every byte before
the first end mark is a digit or a blank, and then gives what a string with these bytes holds.
Both give a byte string back from each of its spellings, with the digits in either case, blanks
anywhere and a last digit zero written or not; for the filter an end mark may follow, and then
anything. -/
theorem decode_agrees_with_strings :
    (∀ bytes : List UInt8,
      ((∃ out, decode bytes = .ok out) ↔
        ∀ b ∈ payload bytes, b ∈ Byte.ofAscii "0123456789ABCDEFabcdef" ∨
          b ∈ [0x20, 0x09, 0x0A, 0x0C, 0x0D, 0x00]) ∧
      ∀ out, decode bytes = .ok out → out = Hex.decode (payload bytes)) ∧
    ∀ string spelling : List UInt8, Hex.SpellsShort string spelling →
      Hex.decode spelling = string ∧ decode spelling = .ok string ∧
        ∀ rest, decode (spelling ++ Byte.ofChar '>' :: rest) = .ok string := by
  refine ⟨fun bytes => ⟨?_, fun out hout => ?_⟩, fun string spelling hs => ?_⟩
  · simp only [exists_decode_iff, isTaken_iff]
  · have htaken := (exists_decode_iff bytes).1 ⟨out, hout⟩
    rw [decode_of_taken htaken] at hout
    exact (Except.ok.inj hout).symm
  · have hfilter {rest : List UInt8} (hr : ∀ b ∈ rest.head?, b = Byte.ofChar '>') :
        decode (spelling ++ rest) = .ok string := by
      have hp : payload (spelling ++ rest) = spelling := payload_of_taken hs.mem hr
      have htaken : ∀ b ∈ payload (spelling ++ rest), isTaken b = true := by
        rw [hp]
        exact hs.mem
      rw [decode_of_taken htaken, hp, hs.decode]
    have hall : decode (spelling ++ []) = .ok string := hfilter fun _ hm => nomatch hm
    rw [List.append_nil] at hall
    exact ⟨hs.decode, hall, fun rest => hfilter fun b hb => (Option.some.inj hb).symm⟩

/-- A string spelled in both letter cases, with blanks between the digits and without its last
zero, is read before an end mark. -/
theorem decode_agrees_with_strings_mixed :
    Hex.SpellsShort [0x4A, 0xB0] (Byte.ofAscii "4\na B\t") ∧
      decode (Byte.ofAscii "4\na B\t>x") = .ok [0x4A, 0xB0] := by
  have hblank : ∀ c ∈ ['\n', ' ', '\t'], Byte.isBlank (Byte.ofChar c) = true :=
    List.all_eq_true.1 (by decide)
  have hgap {c : Char} (hc : c ∈ ['\n', ' ', '\t']) :
      ∀ g ∈ [Byte.ofChar c], Byte.isBlank g = true := List.forall_mem_singleton.2 (hblank c hc)
  have hlast : Hex.Spells [0xB0] (Byte.ofAscii "B0\t") :=
    @Hex.Spells.byte 0xB0 _ _ [] _ _ ⟨by decide, by decide⟩ (fun _ hm => nomatch hm)
      (.blank (by decide) .nil)
  have hs : Hex.Spells [0x4A, 0xB0] (Byte.ofAscii "4\na B0\t") :=
    @Hex.Spells.byte 0x4A _ _ [Byte.ofChar '\n'] _ _ ⟨by decide, by decide⟩ (hgap (by decide))
      (.blank (by decide) hlast)
  have hshort : Hex.SpellsShort [0x4A, 0xB0] (Byte.ofAscii "4\na B\t") :=
    @Hex.SpellsShort.cut _ (Byte.ofAscii "4\na B") [Byte.ofChar '\t'] (hgap (by decide)) hs
  exact ⟨hshort, (decode_agrees_with_strings.2 _ _ hshort).2.2 [Byte.ofChar 'x']⟩

end PageText.Filter.AsciiHex
