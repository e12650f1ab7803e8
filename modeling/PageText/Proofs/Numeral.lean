import PageText.Number.Numeral
import PageText.Proofs.Spelling
import Mathlib.Data.List.TakeWhile

/-!
# The grammar of numerals

A word is read as a numeral exactly if it is an optional sign, digits, and at most one
point with a digit on one of its sides. The grammar is stated here on its own; what
double-precision number a numeral denotes is left to its definition.
-/

namespace PageText.Number

/-- One more digit on the right. -/
theorem digitsValue_concat (digits : List UInt8) (b : UInt8) :
    digitsValue (digits ++ [b]) = digitsValue digits * 10 + Byte.digitValue b := by
  rw [digitsValue, List.foldl_append]
  rfl

/-- Each natural number is spelled by decimal digits. -/
theorem exists_digits (n : Nat) :
    ∃ digits, digits ≠ [] ∧ (∀ b ∈ digits, Byte.isDigit b = true) ∧ digitsValue digits = n := by
  have hdigit : ∀ v : Fin 10, Byte.isDigit (0x30 + v.val.toUInt8) = true ∧
      Byte.digitValue (0x30 + v.val.toUInt8) = v.val := by decide
  induction n using Nat.strong_induction_on with
  | _ n ih =>
    obtain ⟨hd, hv⟩ := hdigit ⟨n % 10, Nat.mod_lt _ (by decide)⟩
    by_cases hn : n < 10
    · refine ⟨[0x30 + (n % 10).toUInt8], List.cons_ne_nil _ _, ?_, ?_⟩
      · intro b hb
        rw [List.mem_singleton.1 hb]
        exact hd
      · have hz : digitsValue [0x30 + (n % 10).toUInt8] =
            0 * 10 + Byte.digitValue (0x30 + (n % 10).toUInt8) := rfl
        rw [hz, hv]
        simp only
        omega
    · obtain ⟨digits, -, hall, hvalue⟩ := ih (n / 10) (by omega)
      refine ⟨digits ++ [0x30 + (n % 10).toUInt8], by simp, ?_, ?_⟩
      · intro b hb
        rcases List.mem_append.1 hb with hb | hb
        · exact hall b hb
        · rw [List.mem_singleton.1 hb]
          exact hd
      · rw [digitsValue_concat, hvalue, hv]
        simp only
        omega

namespace Numeral

/-- How a sign may be written: a minus sign, or a plus sign or nothing. -/
inductive Signs : Bool → List UInt8 → Prop where
  /-- No sign. -/
  | none : Signs false []
  /-- A plus sign. -/
  | plus : Signs false [Byte.ofChar '+']
  /-- A minus sign. -/
  | minus : Signs true [Byte.ofChar '-']

/-- The digits of a numeral with its point. -/
def body (n : Numeral) : List UInt8 :=
  match n.fraction with
  | none => n.whole
  | some fraction => n.whole ++ Byte.ofChar '.' :: fraction

/-- Only digits stand around the point, and at least one does. -/
structure Proper (n : Numeral) : Prop where
  /-- Digits before the point. -/
  whole : ∀ b ∈ n.whole, Byte.isDigit b = true
  /-- Digits after the point. -/
  fraction : ∀ b ∈ n.fraction.getD [], Byte.isDigit b = true
  /-- On at least one side. -/
  nonempty : n.whole ≠ [] ∨ n.fraction.getD [] ≠ []

/-- A word that spells the numeral: a sign, and the digits with the point. -/
structure SpelledBy (n : Numeral) (word : List UInt8) : Prop extends Proper n where
  /-- The sign comes first. -/
  word_eq : ∃ sign, Signs n.negative sign ∧ word = sign ++ n.body

/-- What a word without its sign is read as. -/
def ofUnsigned? (negative : Bool) (unsigned : List UInt8) : Option Numeral :=
  let whole := unsigned.takeWhile Byte.isDigit
  match unsigned.dropWhile Byte.isDigit with
  | [] => if whole.isEmpty then none else some ⟨negative, whole, none⟩
  | b :: fraction =>
    if b == Byte.ofChar '.' && fraction.all Byte.isDigit &&
        !(whole.isEmpty && fraction.isEmpty) then
      some ⟨negative, whole, some fraction⟩
    else none

/-- A point is no digit, so it ends the digits before it. -/
theorem isDigit_point : Byte.isDigit (Byte.ofChar '.') = false := by decide

/-- Digits and a point are read back. -/
theorem ofUnsigned?_body {n : Numeral} (hn : n.Proper) :
    ofUnsigned? n.negative n.body = some n := by
  obtain ⟨negative, whole, fraction⟩ := n
  obtain ⟨hw, hf, hne⟩ := hn
  cases fraction with
  | none =>
    have he : whole.isEmpty = false := by
      simpa using hne.resolve_right (by simp)
    rw [ofUnsigned?, body, List.takeWhile_eq_self_iff.2 hw, List.dropWhile_eq_nil_iff.2 hw]
    simp only [he, Bool.false_eq_true, if_false]
  | some fraction =>
    have hp : ¬Byte.isDigit (Byte.ofChar '.') = true := by simp [isDigit_point]
    have hall : fraction.all Byte.isDigit = true := List.all_eq_true.2 hf
    have hany : (whole.isEmpty && fraction.isEmpty) = false := by
      simpa [Decidable.imp_iff_not_or] using hne
    simp only [ofUnsigned?, body, List.takeWhile_append_of_pos hw, List.dropWhile_append_of_pos hw,
      List.takeWhile_cons_of_neg hp, List.dropWhile_cons_of_neg hp, List.append_nil,
      beq_self_eq_true, hall, hany, Bool.not_false, Bool.and_true, if_true]

/-- What is read is proper, and its digits and point are what stood there. -/
theorem of_ofUnsigned? {negative : Bool} {unsigned : List UInt8} {n : Numeral}
    (h : ofUnsigned? negative unsigned = some n) :
    n.Proper ∧ n.negative = negative ∧ unsigned = n.body := by
  have hsplit := List.takeWhile_append_dropWhile (p := Byte.isDigit) (l := unsigned)
  have hw : ∀ b ∈ unsigned.takeWhile Byte.isDigit, Byte.isDigit b = true := by
    intro b hb
    exact List.all_eq_true.1 List.all_takeWhile b hb
  unfold ofUnsigned? at h
  dsimp only at h
  split at h
  · rename_i hd
    split at h
    · cases h
    · rename_i he
      cases h
      refine ⟨⟨hw, by simp, Or.inl (by simpa using he)⟩, rfl, ?_⟩
      rw [hd, List.append_nil] at hsplit
      exact hsplit.symm
  · rename_i b fraction hd
    split at h
    · rename_i hc
      cases h
      simp only [Bool.and_eq_true, beq_iff_eq, Bool.not_eq_true', Bool.and_eq_false_iff] at hc
      refine ⟨⟨hw, List.all_eq_true.1 hc.1.2, ?_⟩, rfl, ?_⟩
      · simpa using hc.2
      · rw [hd, hc.1.1] at hsplit
        exact hsplit.symm
    · cases h

/-- A word is read by its sign and the rest. -/
theorem ofWord?_eq (word : List UInt8) :
    ofWord? word = match word with
      | [] => none
      | b :: rest =>
        if b = Byte.ofChar '+' then ofUnsigned? false rest
        else if b = Byte.ofChar '-' then ofUnsigned? true rest
        else ofUnsigned? false word := by
  cases word with
  | nil => rfl
  | cons b rest =>
    have hword : ofWord? (b :: rest) = ofUnsigned? (some b == some (Byte.ofChar '-'))
        (if (b == Byte.ofChar '+' || b == Byte.ofChar '-') = true then rest else b :: rest) := rfl
    rw [hword]
    by_cases hp : b = Byte.ofChar '+'
    · subst hp
      rfl
    · by_cases hm : b = Byte.ofChar '-'
      · subst hm
        rfl
      · have hnone : (b == Byte.ofChar '+' || b == Byte.ofChar '-') = false := by
          rw [beq_eq_false_iff_ne.2 hp, beq_eq_false_iff_ne.2 hm, Bool.or_self]
        have hminus : (some b == some (Byte.ofChar '-')) = false :=
          beq_eq_false_iff_ne.2 fun h => hm (Option.some.inj h)
        rw [hnone, hminus, if_neg Bool.false_ne_true]
        simp only [if_neg hp, if_neg hm]

/-- The first byte of digits and point is no sign. -/
theorem Proper.body_ne_sign {n : Numeral} (hn : n.Proper) {b : UInt8} {rest : List UInt8}
    (hb : n.body = b :: rest) : b ≠ Byte.ofChar '+' ∧ b ≠ Byte.ofChar '-' := by
  have hno : ∀ b : UInt8, Byte.isDigit b = true ∨ b = Byte.ofChar '.' →
      b ≠ Byte.ofChar '+' ∧ b ≠ Byte.ofChar '-' := Byte.forall_of_fin (by decide +kernel)
  apply hno
  obtain ⟨negative, whole, fraction⟩ := n
  cases whole with
  | nil =>
    cases fraction with
    | none => cases hb
    | some fraction =>
      cases hb
      exact Or.inr rfl
  | cons d whole =>
    have hd := hn.whole d List.mem_cons_self
    cases fraction with
    | none =>
      cases hb
      exact Or.inl hd
    | some fraction =>
      cases hb
      exact Or.inl hd

/-- Digits and a point do not make an empty word. -/
theorem Proper.body_ne_nil {n : Numeral} (hn : n.Proper) : n.body ≠ [] := by
  obtain ⟨negative, whole, fraction⟩ := n
  cases fraction with
  | none => simpa [body] using hn.nonempty
  | some fraction => simp [body]

/-- A word is read as a numeral exactly if it spells it. -/
theorem ofWord?_eq_some_iff {word : List UInt8} {n : Numeral} :
    ofWord? word = some n ↔ n.SpelledBy word := by
  constructor
  · intro h
    rw [ofWord?_eq] at h
    split at h
    · cases h
    · rename_i b rest
      split at h
      · rename_i hb
        obtain ⟨hp, hs, he⟩ := of_ofUnsigned? h
        refine ⟨hp, _, hs ▸ Signs.plus, ?_⟩
        rw [hb, he, List.singleton_append]
      · split at h
        · rename_i hb
          obtain ⟨hp, hs, he⟩ := of_ofUnsigned? h
          refine ⟨hp, _, hs ▸ Signs.minus, ?_⟩
          rw [hb, he, List.singleton_append]
        · obtain ⟨hp, hs, he⟩ := of_ofUnsigned? h
          exact ⟨hp, _, hs ▸ Signs.none, he⟩
  · rintro ⟨hp, sign, hs, rfl⟩
    have hread := ofUnsigned?_body hp
    rw [ofWord?_eq]
    generalize n.negative = negative at hs hread
    cases hs with
    | none =>
      rw [List.nil_append]
      cases hb : n.body with
      | nil => exact absurd hb hp.body_ne_nil
      | cons b rest =>
        obtain ⟨hplus, hminus⟩ := hp.body_ne_sign hb
        rw [hb] at hread
        simp only [if_neg hplus, if_neg hminus, hread]
    | plus => simp only [List.singleton_append, if_true, hread]
    | minus =>
      have hpm : ¬Byte.ofChar '-' = Byte.ofChar '+' := by decide
      simp only [List.singleton_append, if_neg hpm, if_true, hread]

/-- The integer that a numeral without a point denotes, whatever its size. -/
def integer (n : Numeral) : Int :=
  if n.negative then -(digitsValue n.whole : Int) else digitsValue n.whole

/-- A numeral without a point is read as its integer within the limit. -/
theorem toInt?_of_natAbs_le {n : Numeral} (hn : n.fraction = none)
    (hl : n.integer.natAbs ≤ integerLimit) : n.toInt? = some n.integer := by
  have hsize : digitsValue n.whole ≤ integerLimit := by
    simp only [integer] at hl
    split at hl <;> omega
  rw [toInt?, hn]
  simp only [if_pos hsize, integer]

/-- Every integer has a numeral. -/
theorem exists_integer (value : Int) :
    ∃ n word, SpelledBy n word ∧ n.fraction = none ∧ n.integer = value := by
  obtain ⟨digits, hne, hall, hvalue⟩ := exists_digits value.natAbs
  by_cases hv : value < 0
  · refine ⟨⟨true, digits, none⟩, _, ⟨⟨hall, by simp, Or.inl hne⟩, _, .minus, rfl⟩, rfl, ?_⟩
    simp only [integer, hvalue, if_true]
    omega
  · refine ⟨⟨false, digits, none⟩, _, ⟨⟨hall, by simp, Or.inl hne⟩, _, .none, rfl⟩, rfl, ?_⟩
    simp only [integer, hvalue, Bool.false_eq_true, if_false]
    omega

/-- A sign may stand within a word. -/
theorem Signs.isRegular {negative : Bool} {sign : List UInt8} (h : Signs negative sign) :
    ∀ b ∈ sign, Byte.isRegular b = true := by
  rw [← List.all_eq_true]
  cases h <;> decide

/-- A decimal digit may stand within a word. -/
theorem isRegular_of_isDigit {b : UInt8} (hb : Byte.isDigit b = true) :
    Byte.isRegular b = true := by
  apply Byte.isRegular_of_isHexDigit
  simp only [Byte.isHexDigit, Byte.hexValue?, if_pos hb, Option.isSome_some]

/-- A spelled numeral is one word. -/
theorem SpelledBy.isRegular {n : Numeral} {word : List UInt8} (h : n.SpelledBy word) :
    ∀ b ∈ word, Byte.isRegular b = true := by
  obtain ⟨hp, sign, hs, rfl⟩ := h
  have hbody : ∀ b ∈ n.body, Byte.isRegular b = true := by
    obtain ⟨negative, whole, fraction⟩ := n
    cases fraction with
    | none => exact fun b hb => isRegular_of_isDigit (hp.whole b hb)
    | some fraction =>
      refine List.forall_mem_append.2 ⟨fun b hb => isRegular_of_isDigit (hp.whole b hb), ?_⟩
      refine List.forall_mem_cons.2 ⟨by decide, fun b hb => ?_⟩
      exact isRegular_of_isDigit (hp.fraction b hb)
  exact List.forall_mem_append.2 ⟨hs.isRegular, hbody⟩

/-- A spelled numeral is not empty. -/
theorem SpelledBy.ne_nil {n : Numeral} {word : List UInt8} (h : n.SpelledBy word) :
    word ≠ [] := by
  obtain ⟨hp, sign, -, rfl⟩ := h
  exact fun he => hp.body_ne_nil (List.append_eq_nil_iff.1 he).2

end Numeral

end PageText.Number
