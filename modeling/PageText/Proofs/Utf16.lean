import PageText.Proofs.Utf8
import PageText.Text.Utf16

/-!
# Decoding undoes encoding in 16-bit units

A unit that is no surrogate stands for its character, and a pair of surrogates for one past
the first plane. No surrogate is a character, so the units of a text are read back as the text.
Decoding is not limited to the units of a text: what it makes of surrogates without a partner is
stated here as a relation of its own, which holds for the decoded text and for no other.
-/

namespace PageText.Text.Utf16

/-- A natural number below 65536 is the value of its unit. -/
theorem toNat_toUInt16 {n : Nat} (hn : n < 0x10000) : n.toUInt16.toNat = n := by
  simp only [Nat.toUInt16_eq, UInt16.toNat_ofNat']
  omega

/-- The first halves of pairs, by value. -/
theorem isHigh_iff (u : UInt16) : isHigh u = true ↔ 0xD800 ≤ u.toNat ∧ u.toNat ≤ 0xDBFF := by
  simp only [isHigh, Bool.and_eq_true, decide_eq_true_eq, UInt16.le_iff_toNat_le,
    UInt16.reduceToNat]

/-- The second halves of pairs, by value. -/
theorem isLow_iff (u : UInt16) : isLow u = true ↔ 0xDC00 ≤ u.toNat ∧ u.toNat ≤ 0xDFFF := by
  simp only [isLow, Bool.and_eq_true, decide_eq_true_eq, UInt16.le_iff_toNat_le,
    UInt16.reduceToNat]

/-- No unit is in both halves of a pair. -/
theorem isHigh_of_isLow {u : UInt16} (hl : isLow u = true) : isHigh u = false := by
  rw [isLow_iff] at hl
  rw [Bool.eq_false_iff, ne_eq, isHigh_iff]
  omega

/-- The text that units mean if none is refused: a first half right before a second one makes
a character with it, and any other surrogate is replaced. -/
inductive Means : List UInt16 → List Char → Prop where
  /-- No units mean the empty text. -/
  | nil : Means [] []
  /-- Each half of a pair gives ten bits of a character past the first plane. -/
  | pair {high low : UInt16} {units : List UInt16} {c : Char} {text : List Char}
      (hh : isHigh high = true) (hl : isLow low = true)
      (hc : c.toNat = 0x10000 + (high.toNat - 0xD800) * 0x400 + (low.toNat - 0xDC00))
      (hr : Means units text) : Means (high :: low :: units) (c :: text)
  /-- A unit that is no surrogate is the number of its character. -/
  | plain {u : UInt16} {units : List UInt16} {c : Char} {text : List Char}
      (hh : isHigh u = false) (hl : isLow u = false) (hc : c.toNat = u.toNat)
      (hr : Means units text) : Means (u :: units) (c :: text)
  /-- A first half without a second one after it. -/
  | loneHigh {high : UInt16} {units : List UInt16} {text : List Char}
      (hh : isHigh high = true) (hn : ∀ u ∈ units.head?, isLow u = false)
      (hr : Means units text) : Means (high :: units) (Char.ofNat 0xFFFD :: text)
  /-- A second half that none before it has used up. -/
  | loneLow {low : UInt16} {units : List UInt16} {text : List Char}
      (hl : isLow low = true) (hr : Means units text) :
      Means (low :: units) (Char.ofNat 0xFFFD :: text)

/-- The character of a pair has the bits of both halves. -/
theorem toNat_join {high low : UInt16} (hh : isHigh high = true) (hl : isLow low = true) :
    (join high low).toNat = 0x10000 + (high.toNat - 0xD800) * 0x400 + (low.toNat - 0xDC00) := by
  rw [isHigh_iff] at hh
  rw [isLow_iff] at hl
  have hvalue : 0x10000 + high.toNat % 1024 * 1024 + low.toNat % 1024 =
      0x10000 + (high.toNat - 0xD800) * 0x400 + (low.toNat - 0xDC00) := by omega
  rw [join, hvalue]
  exact Utf8.toNat_ofNat (Or.inr ⟨by omega, by omega⟩)

/-- The character of a unit that is no surrogate has its number. -/
theorem toNat_single {u : UInt16} (hh : isHigh u = false) (hl : isLow u = false) :
    (single u).toNat = u.toNat := by
  have hlt := u.toNat_lt
  rw [single, hh, hl, Bool.or_self, if_neg Bool.false_ne_true]
  rw [Bool.eq_false_iff, ne_eq, isHigh_iff] at hh
  rw [Bool.eq_false_iff, ne_eq, isLow_iff] at hl
  have hvalid : u.toNat < 0xD800 ∨ 0xDFFF < u.toNat ∧ u.toNat < 0x110000 := by omega
  exact Utf8.toNat_ofNat hvalid

/-- Decoding gives the text that units mean. -/
theorem means_decodeLossy (units : List UInt16) : Means units (decodeLossy units) := by
  have hlone {u : UInt16} {units : List UInt16} (hr : Means units (decodeLossy units))
      (hn : isHigh u = true → ∀ v ∈ units.head?, isLow v = false) :
      Means (u :: units) (single u :: decodeLossy units) := by
    have hreplaced (hu : (isHigh u || isLow u) = true) : single u = Char.ofNat 0xFFFD :=
      if_pos hu
    cases hh : isHigh u with
    | true =>
      rw [hreplaced (by rw [hh, Bool.true_or])]
      exact .loneHigh hh (hn hh) hr
    | false =>
      cases hl : isLow u with
      | true =>
        rw [hreplaced (by rw [hl, Bool.or_true])]
        exact .loneLow hl hr
      | false => exact .plain hh hl (toNat_single hh hl) hr
  induction units using decodeLossy.induct with
  | case1 => exact .nil
  | case2 u => exact hlone .nil fun _ _ hm => nomatch hm
  | case3 u v rest hpair ih =>
    obtain ⟨hh, hl⟩ := Bool.and_eq_true_iff.1 hpair
    rw [decodeLossy, if_pos hpair]
    exact .pair hh hl (toNat_join hh hl) ih
  | case4 u v rest hpair ih =>
    rw [decodeLossy, if_neg hpair]
    refine hlone ih fun hh v hv => ?_
    cases hv
    rw [Bool.and_eq_true, not_and, Bool.not_eq_true] at hpair
    exact hpair hh

/-- Units mean one text only. -/
theorem Means.unique {units : List UInt16} {text other : List Char} (h : Means units text)
    (ho : Means units other) : text = other := by
  have hno {u : UInt16} (hh : isHigh u = true) (hn : isHigh u = false) : False :=
    Bool.false_ne_true (hn.symm.trans hh)
  have hnl {u : UInt16} (hl : isLow u = true) (hn : isLow u = false) : False :=
    Bool.false_ne_true (hn.symm.trans hl)
  induction h generalizing other with
  | nil => cases ho; rfl
  | pair hh hl hc _ ih =>
    cases ho with
    | pair _ _ hc' hr => rw [ih hr, Char.toNat_inj.1 (hc.trans hc'.symm)]
    | plain hh' => exact (hno hh hh').elim
    | loneHigh _ hn => exact (hnl hl (hn _ rfl)).elim
    | loneLow hl' => exact (hno hh (isHigh_of_isLow hl')).elim
  | plain hh hl hc _ ih =>
    cases ho with
    | pair hh' => exact (hno hh' hh).elim
    | plain _ _ hc' hr => rw [ih hr, Char.toNat_inj.1 (hc.trans hc'.symm)]
    | loneHigh hh' => exact (hno hh' hh).elim
    | loneLow hl' => exact (hnl hl' hl).elim
  | loneHigh hh hn _ ih =>
    cases ho with
    | pair _ hl' => exact (hnl hl' (hn _ rfl)).elim
    | plain hh' => exact (hno hh hh').elim
    | loneHigh _ _ hr => rw [ih hr]
    | loneLow hl' => exact (hno hh (isHigh_of_isLow hl')).elim
  | loneLow hl _ ih =>
    cases ho with
    | pair hh' => exact (hno hh' (isHigh_of_isLow hl)).elim
    | plain _ hl' => exact (hnl hl hl').elim
    | loneHigh hh' => exact (hno hh' (isHigh_of_isLow hl)).elim
    | loneLow _ hr => rw [ih hr]

/-- A unit that is no surrogate is decoded by itself. -/
theorem decodeLossy_cons {u : UInt16} (hh : isHigh u = false) (hl : isLow u = false)
    (rest : List UInt16) : decodeLossy (u :: rest) = Char.ofNat u.toNat :: decodeLossy rest := by
  have hs : single u = Char.ofNat u.toNat := by
    rw [single, hh, hl]
    rfl
  cases rest with
  | nil => exact congrArg (fun c => [c]) hs
  | cons v rest => rw [decodeLossy, hh, Bool.false_and, if_neg Bool.false_ne_true, hs]

/-- The units of a character are decoded to it, whatever follows. -/
theorem decodeLossy_encodeChar (c : Char) (rest : List UInt16) :
    decodeLossy (encodeChar c ++ rest) = c :: decodeLossy rest := by
  have hc : Char.ofNat c.toNat = c := Char.ofNat_toNat c
  have hvalid : c.toNat < 0xD800 ∨ 0xDFFF < c.toNat ∧ c.toNat < 0x110000 := c.valid
  unfold encodeChar
  generalize c.toNat = n at hc hvalid
  dsimp only
  by_cases hplane : n < 0x10000
  · have hv := toNat_toUInt16 hplane
    have hh : isHigh n.toUInt16 = false := by
      rw [Bool.eq_false_iff, ne_eq, isHigh_iff, hv]
      omega
    have hl : isLow n.toUInt16 = false := by
      rw [Bool.eq_false_iff, ne_eq, isLow_iff, hv]
      omega
    rw [if_pos hplane, List.singleton_append, decodeLossy_cons hh hl, hv, hc]
  · have hhigh := toNat_toUInt16 (n := 0xD800 + (n - 0x10000) / 1024) (by omega)
    have hlow := toNat_toUInt16 (n := 0xDC00 + (n - 0x10000) % 1024) (by omega)
    have hh : isHigh (0xD800 + (n - 0x10000) / 1024).toUInt16 = true := by
      rw [isHigh_iff, hhigh]
      omega
    have hl : isLow (0xDC00 + (n - 0x10000) % 1024).toUInt16 = true := by
      rw [isLow_iff, hlow]
      omega
    have hvalue : 0x10000 + (0xD800 + (n - 0x10000) / 1024) % 1024 * 1024 +
        (0xDC00 + (n - 0x10000) % 1024) % 1024 = n := by omega
    rw [if_neg hplane, List.cons_append, List.singleton_append, decodeLossy, hh, hl,
      Bool.and_self, if_pos rfl, join, hhigh, hlow, hvalue, hc]

/-- The units of a text are decoded to it. -/
theorem decodeLossy_encode (text : List Char) : decodeLossy (encode text) = text := by
  induction text with
  | nil => rfl
  | cons c text ih => rw [encode, List.flatMap_cons, decodeLossy_encodeChar, ← encode, ih]

/-- The text of the units of a text is the text. -/
theorem textOf_encode (text : String) : textOf (encode text.toList) = text := by
  rw [textOf, decodeLossy_encode, String.ofList_toList]

/-- Every character has units. -/
theorem encodeChar_ne_nil (c : Char) : encodeChar c ≠ [] := by
  unfold encodeChar
  dsimp only
  split <;> exact List.cons_ne_nil _ _

/-- Only the empty text has no units. -/
theorem encode_ne_nil {text : List Char} (ht : text ≠ []) : encode text ≠ [] := by
  obtain ⟨c, text, rfl⟩ := List.exists_cons_of_ne_nil ht
  rw [encode, List.flatMap_cons]
  exact List.append_ne_nil_of_left_ne_nil (encodeChar_ne_nil c) _

end PageText.Text.Utf16
