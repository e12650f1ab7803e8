import PageText.Text.Utf8
import Mathlib.Tactic.IntervalCases

/-!
# Decoding undoes encoding

Text written as UTF-8 is read back character by character, and what follows it is
decoded as if it stood alone. The replacement of broken input, which decoding also
does, is not described here; encoded text contains none.
-/

namespace PageText.Text.Utf8

/-- A natural number below 256 is the value of its byte. -/
theorem toNat_toUInt8 {n : Nat} (hn : n < 256) : n.toUInt8.toNat = n := by
  simp only [Nat.toUInt8_eq, UInt8.toNat_ofNat']
  omega

/-- The value of a character that has one is kept. -/
theorem toNat_ofNat {n : Nat} (hvalid : n.isValidChar) : (Char.ofNat n).toNat = n := by
  rw [Char.ofNat, dif_pos hvalid]
  rfl

/-- A byte below 0x80 is a character by itself. -/
theorem decodeFrom_ascii {n : Nat} (hn : n < 0x80) (rest : List UInt8) :
    decodeFrom none (n.toUInt8 :: rest) = Char.ofNat n :: decodeFrom none rest := by
  have hv := toNat_toUInt8 (n := n) (by omega)
  have h : n.toUInt8 < 0x80 := by
    rw [UInt8.lt_iff_toNat_lt, hv]
    exact hn
  simp only [decodeFrom, feed, feedFirst, if_pos h, hv, List.singleton_append]

/-- The first byte of two leaves one byte owed. -/
theorem decodeFrom_two {k : Nat} (hl : 2 ≤ k) (hu : k < 32) (rest : List UInt8) :
    decodeFrom none ((0xC0 + k).toUInt8 :: rest) =
      decodeFrom (some ⟨1, 0x80, 0xBF, k⟩) rest := by
  interval_cases k <;> rfl

/-- The first byte of three; the bounds on the second shut out overlong forms and
surrogates. -/
theorem decodeFrom_three {k : Nat} (hk : k < 16) (rest : List UInt8) :
    decodeFrom none ((0xE0 + k).toUInt8 :: rest) =
      decodeFrom (some ⟨2, if k = 0 then 0xA0 else 0x80, if k = 13 then 0x9F else 0xBF, k⟩)
        rest := by
  interval_cases k <;> rfl

/-- The first byte of four; the bounds on the second shut out overlong forms and values
past the last plane. -/
theorem decodeFrom_four {k : Nat} (hk : k < 5) (rest : List UInt8) :
    decodeFrom none ((0xF0 + k).toUInt8 :: rest) =
      decodeFrom (some ⟨3, if k = 0 then 0x90 else 0x80, if k = 4 then 0x8F else 0xBF, k⟩)
        rest := by
  interval_cases k <;> rfl

/-- A byte with six bits `k` continues a character whose bounds it keeps. -/
theorem feed_tail {owed bits k : Nat} {least greatest : UInt8} (hk : k < 64)
    (hl : least.toNat ≤ 0x80 + k) (hu : 0x80 + k ≤ greatest.toNat) :
    feed (some ⟨owed, least, greatest, bits⟩) (0x80 + k).toUInt8 =
      if owed ≤ 1 then ([Char.ofNat (bits * 64 + k)], none)
      else ([], some ⟨owed - 1, 0x80, 0xBF, bits * 64 + k⟩) := by
  have hv := toNat_toUInt8 (n := 0x80 + k) (by omega)
  have hin : (least ≤ (0x80 + k).toUInt8 && (0x80 + k).toUInt8 ≤ greatest) = true := by
    simp only [Bool.and_eq_true, decide_eq_true_eq, UInt8.le_iff_toNat_le, hv]
    exact ⟨hl, hu⟩
  have hm : (0x80 + k) % 64 = k := by omega
  simp only [feed, if_pos hin, hv, hm]

/-- A byte that is not the last one leaves the character unfinished. -/
theorem decodeFrom_more {bits k : Nat} {least greatest : UInt8} (owed : Nat) (hk : k < 64)
    (hl : least.toNat ≤ 0x80 + k) (hu : 0x80 + k ≤ greatest.toNat) (rest : List UInt8) :
    decodeFrom (some ⟨owed + 2, least, greatest, bits⟩) ((0x80 + k).toUInt8 :: rest) =
      decodeFrom (some ⟨owed + 1, 0x80, 0xBF, bits * 64 + k⟩) rest := by
  have ho : ¬owed + 2 ≤ 1 := by omega
  simp only [decodeFrom, feed_tail hk hl hu, if_neg ho, List.nil_append]
  rfl

/-- The last byte of a character finishes it. -/
theorem decodeFrom_last {bits k : Nat} (hk : k < 64) (rest : List UInt8) :
    decodeFrom (some ⟨1, 0x80, 0xBF, bits⟩) ((0x80 + k).toUInt8 :: rest) =
      Char.ofNat (bits * 64 + k) :: decodeFrom none rest := by
  have hl : (0x80 : UInt8).toNat ≤ 0x80 + k := Nat.le_add_right _ _
  have hu : 0x80 + k ≤ (0xBF : UInt8).toNat := by
    show _ ≤ 0xBF
    omega
  simp only [decodeFrom, feed_tail hk hl hu, if_pos (Nat.le_refl 1), List.singleton_append]

/-- The bytes of a character decode to it, whatever follows. The bounds on the second
byte hold because surrogates and values past the last plane are no characters. -/
theorem decodeFrom_encodeChar (c : Char) (rest : List UInt8) :
    decodeFrom none (encodeChar c ++ rest) = c :: decodeFrom none rest := by
  have hc : Char.ofNat c.toNat = c := Char.ofNat_toNat c
  have hvalid : c.toNat < 0xD800 ∨ 0xDFFF < c.toNat ∧ c.toNat < 0x110000 := c.valid
  unfold encodeChar
  generalize c.toNat = n at hc hvalid
  dsimp only
  by_cases h1 : n < 0x80
  · rw [if_pos h1, List.singleton_append, decodeFrom_ascii h1, hc]
  rw [if_neg h1]
  by_cases h2 : n < 0x800
  · have hbits : n / 64 * 64 + n % 64 = n := by omega
    rw [if_pos h2, List.cons_append, List.singleton_append,
      decodeFrom_two (by omega) (by omega), decodeFrom_last (by omega), hbits, hc]
  rw [if_neg h2]
  by_cases h3 : n < 0x10000
  · have hbits : (n / 4096 * 64 + n / 64 % 64) * 64 + n % 64 = n := by omega
    have hl : (if n / 4096 = 0 then 0xA0 else 0x80 : UInt8).toNat ≤ 0x80 + n / 64 % 64 := by
      split
      · show 0xA0 ≤ _
        omega
      · exact Nat.le_add_right _ _
    have hu : 0x80 + n / 64 % 64 ≤ (if n / 4096 = 13 then 0x9F else 0xBF : UInt8).toNat := by
      split
      · show _ ≤ 0x9F
        omega
      · show _ ≤ 0xBF
        omega
    rw [if_pos h3, List.cons_append, List.cons_append, List.singleton_append,
      decodeFrom_three (by omega), decodeFrom_more 0 (by omega) hl hu,
      decodeFrom_last (by omega), hbits, hc]
  · have hbits : ((n / 262144 * 64 + n / 4096 % 64) * 64 + n / 64 % 64) * 64 + n % 64 = n := by
      omega
    have hl : (if n / 262144 = 0 then 0x90 else 0x80 : UInt8).toNat ≤ 0x80 + n / 4096 % 64 := by
      split
      · show 0x90 ≤ _
        omega
      · exact Nat.le_add_right _ _
    have hu : 0x80 + n / 4096 % 64 ≤ (if n / 262144 = 4 then 0x8F else 0xBF : UInt8).toNat := by
      split
      · show _ ≤ 0x8F
        omega
      · show _ ≤ 0xBF
        omega
    have hl' : (0x80 : UInt8).toNat ≤ 0x80 + n / 64 % 64 := Nat.le_add_right _ _
    have hu' : 0x80 + n / 64 % 64 ≤ (0xBF : UInt8).toNat := by
      show _ ≤ 0xBF
      omega
    rw [if_neg h3, List.cons_append, List.cons_append, List.cons_append, List.singleton_append,
      decodeFrom_four (by omega), decodeFrom_more 1 (by omega) hl hu,
      decodeFrom_more 0 (by omega) hl' hu', decodeFrom_last (by omega), hbits, hc]

/-- Decoding undoes encoding, and what follows is decoded as if it stood alone. -/
theorem decodeFrom_encode (text : List Char) (rest : List UInt8) :
    decodeFrom none (encode text ++ rest) = text ++ decodeFrom none rest := by
  induction text with
  | nil => rfl
  | cons c text ih =>
    have hs : encode (c :: text) = encodeChar c ++ encode text := rfl
    rw [hs, List.append_assoc, decodeFrom_encodeChar, ih, List.cons_append]

/-- Encoded text is read back. -/
theorem decodeLossy_encode (text : List Char) : decodeLossy (encode text) = text := by
  have h := decodeFrom_encode text []
  simpa only [decodeLossy, List.append_nil, decodeFrom] using h

/-- The text of an encoded text is the text. -/
theorem textOf_encode (text : String) : textOf (encode text.toList) = text := by
  rw [textOf, decodeLossy_encode, String.ofList_toList]

/-- The bytes of a character past ASCII lie past ASCII. -/
theorem le_of_mem_encodeChar {c : Char} (hc : 0x80 ≤ c.toNat) :
    ∀ b ∈ encodeChar c, 0x80 ≤ b := by
  have hvalid : c.toNat < 0xD800 ∨ 0xDFFF < c.toNat ∧ c.toNat < 0x110000 := c.valid
  have hle {n : Nat} (hl : 0x80 ≤ n) (hu : n < 256) : (0x80 : UInt8) ≤ n.toUInt8 := by
    rw [UInt8.le_iff_toNat_le, toNat_toUInt8 hu]
    exact hl
  unfold encodeChar
  generalize c.toNat = n at hc hvalid
  have h1 : ¬n < 0x80 := by omega
  dsimp only
  rw [if_neg h1]
  split
  · simp only [List.forall_mem_cons, List.not_mem_nil, false_implies, implies_true, and_true]
    exact ⟨hle (by omega) (by omega), hle (by omega) (by omega)⟩
  · split
    · simp only [List.forall_mem_cons, List.not_mem_nil, false_implies, implies_true, and_true]
      exact ⟨hle (by omega) (by omega), hle (by omega) (by omega), hle (by omega) (by omega)⟩
    · simp only [List.forall_mem_cons, List.not_mem_nil, false_implies, implies_true, and_true]
      exact ⟨hle (by omega) (by omega), hle (by omega) (by omega), hle (by omega) (by omega),
        hle (by omega) (by omega)⟩

/-- An ASCII character is its own byte. -/
theorem encodeChar_ascii {c : Char} (hc : c.toNat < 0x80) : encodeChar c = [c.toNat.toUInt8] := by
  simp only [encodeChar, if_pos hc]

end PageText.Text.Utf8
