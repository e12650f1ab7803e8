import PageText.Proofs.Decimal
import PageText.Proofs.Lexeme

/-!
# What a run of regular bytes means

A run of regular bytes is one token, however long it is. It is a number exactly if all of it has
the form of a numeral: an integer if there is no point and the magnitude is not too large, else
the nearest double. A run that is no numeral is one of three reserved words or a keyword; none of
its bytes are left for another token.
-/

namespace PageText.Token

open Number

/-! ## The first word of an input -/

/-- Blanks and comments, or nothing. -/
def IsSkipped (gap : List UInt8) : Prop := gap = [] ∨ Gap gap

/-- More may be skipped behind a gap. -/
theorem Gap.append_skipped {first gap : List UInt8} (hf : Gap first) (hg : IsSkipped gap) :
    Gap (first ++ gap) := by
  rcases hg with rfl | hg
  · rwa [List.append_nil]
  · exact hf.append hg

/-- What is skipped before something else are blanks and comments; if the input begins in a
comment, the rest of it up to its line end stands before them. -/
theorem exists_skipFrom (bytes : List UInt8) :
    (skipFrom false bytes ≠ [] →
      ∃ gap, IsSkipped gap ∧ bytes = gap ++ skipFrom false bytes) ∧
    (skipFrom true bytes ≠ [] →
      ∃ text last gap, (∀ b ∈ text, Byte.isLineEnd b = false) ∧ Byte.isLineEnd last = true ∧
        IsSkipped gap ∧ bytes = text ++ last :: (gap ++ skipFrom true bytes)) := by
  induction bytes with
  | nil => exact ⟨fun h => absurd rfl h, fun h => absurd rfl h⟩
  | cons b bytes ih =>
    obtain ⟨ihOutside, ihInside⟩ := ih
    constructor
    · intro hne
      rw [skipFrom] at hne ⊢
      split at hne
      · rename_i hb
        obtain ⟨gap, hgap, hbytes⟩ := ihOutside hne
        refine ⟨b :: gap, Or.inr ((Gap.blank hb).append_skipped hgap), ?_⟩
        rw [if_pos hb, List.cons_append, ← hbytes]
      · rename_i hb
        rw [if_neg hb]
        split at hne
        · rename_i hpercent
          obtain ⟨text, last, gap, htext, hlast, hgap, hbytes⟩ := ihInside hne
          rw [beq_iff_eq] at hpercent
          refine ⟨_, Or.inr ((Gap.comment htext hlast).append_skipped hgap), ?_⟩
          rw [if_pos (beq_iff_eq.2 hpercent), hpercent]
          simpa using hbytes
        · rename_i hpercent
          exact ⟨[], Or.inl rfl, by rw [if_neg hpercent, List.nil_append]⟩
    · intro hne
      rw [skipFrom] at hne ⊢
      cases hb : Byte.isLineEnd b with
      | true =>
        rw [hb] at hne
        obtain ⟨gap, hgap, hbytes⟩ := ihOutside hne
        exact ⟨[], b, gap, List.forall_mem_nil _, hb, hgap, congrArg (b :: ·) hbytes⟩
      | false =>
        rw [hb] at hne
        obtain ⟨text, last, gap, htext, hlast, hgap, hbytes⟩ := ihInside hne
        exact ⟨b :: text, last, gap, List.forall_mem_cons.2 ⟨hb, htext⟩, hlast, hgap,
          congrArg (b :: ·) hbytes⟩

/-- What may be skipped, then regular bytes as far as they go, and what follows them. -/
structure FirstWord (bytes word rest : List UInt8) : Prop where
  /-- Only blanks and comments stand before the word. -/
  skipped : ∃ gap, IsSkipped gap ∧ bytes = gap ++ (word ++ rest)
  /-- There is a word. -/
  ne_nil : word ≠ []
  /-- A word has regular bytes. -/
  regular : ∀ b ∈ word, Byte.isRegular b = true
  /-- It ends where they end. -/
  ends : EndsWord rest

/-- An input has a first word if its first byte that is not skipped is regular. -/
theorem exists_firstWord {bytes : List UInt8} {b : UInt8} (h : (skipBlank bytes).head? = some b)
    (hb : Byte.isRegular b = true) : ∃ word rest, FirstWord bytes word rest := by
  obtain ⟨tail, htail⟩ : ∃ tail, skipBlank bytes = b :: tail := List.head?_eq_some_iff.1 h
  obtain ⟨gap, hgap, hbytes⟩ := (exists_skipFrom bytes).1 (by
    rw [← skipBlank, htail]
    exact List.cons_ne_nil b tail)
  refine ⟨b :: tail.takeWhile Byte.isRegular, tail.dropWhile Byte.isRegular, ⟨gap, hgap, ?_⟩,
    List.cons_ne_nil _ _, ?_, ?_⟩
  · rw [hbytes, ← skipBlank, htail, List.cons_append, List.takeWhile_append_dropWhile]
  · exact List.forall_mem_cons.2 ⟨hb, fun c hc => List.mem_takeWhile_imp hc⟩
  · intro c hc
    have hstop := List.head?_dropWhile_not Byte.isRegular tail
    rw [Option.mem_def.1 hc] at hstop
    exact hstop

/-- The first word is read as a whole. -/
theorem FirstWord.read? {bytes word rest : List UInt8} (h : FirstWord bytes word rest) :
    read? bytes = some (ofWord word, rest) := by
  obtain ⟨gap, hgap, rfl⟩ := h.skipped
  have hskip : skipBlank (gap ++ (word ++ rest)) = skipBlank (word ++ rest) := by
    rcases hgap with rfl | hgap
    · rw [List.nil_append]
    · exact hgap.skipBlank_append _
  rw [read?_congr hskip, read?_word h.ne_nil h.regular h.ends]

/-! ## Meanings -/

/-- The words that stand for themselves. -/
def reserved : List (List UInt8) := ["true", "false", "null"].map Byte.ofAscii

/-- What a word means. -/
inductive Means (word : List UInt8) : Token → Prop where
  /-- A numeral without a point is an integer if its magnitude is not too large. -/
  | int {n : Numeral} (hn : n.SpelledBy word) (hp : n.fraction = none)
      (hl : n.integer.natAbs ≤ 2 ^ 63 - 1) : Means word (.int n.integer)
  /-- Every other numeral is the double that it rounds to. -/
  | real {n : Numeral} {x : Float} (hn : n.SpelledBy word)
      (hl : n.fraction = none → 2 ^ 63 - 1 < n.integer.natAbs) (hx : n.RoundsTo x) :
      Means word (.real x)
  /-- The words for truth values. -/
  | bool (value : Bool) (hw : word = Byte.ofAscii (if value then "true" else "false")) :
      Means word (.bool value)
  /-- The word for null. -/
  | null (hw : word = Byte.ofAscii "null") : Means word .null
  /-- A word that is neither a numeral nor reserved stands for itself. -/
  | keyword (hn : ∀ n : Numeral, ¬n.SpelledBy word) (hw : word ∉ reserved) :
      Means word (.keyword word)

/-- A numeral with a point or too large a magnitude is no integer. -/
theorem toInt?_eq_none {n : Numeral} (h : n.fraction = none → 2 ^ 63 - 1 < n.integer.natAbs) :
    n.toInt? = none := by
  rw [Numeral.toInt?]
  cases hf : n.fraction with
  | some fraction => rfl
  | none =>
    have hlarge := h hf
    have hsize : n.integer.natAbs = digitsValue n.whole := by
      rw [Numeral.integer]
      split <;> omega
    have hlimit : ¬digitsValue n.whole ≤ Numeral.integerLimit := by
      rw [Numeral.integerLimit]
      omega
    exact if_neg hlimit

/-- A word is read as what it means. -/
theorem Means.eq_ofWord {word : List UInt8} {token : Token} (h : Means word token) :
    token = ofWord word := by
  have hnumeral {n : Numeral} (hn : n.SpelledBy word) : Numeral.ofWord? word = some n :=
    Numeral.ofWord?_eq_some_iff.2 hn
  cases h with
  | int hn hp hl =>
    rw [ofWord, hnumeral hn]
    simp only [Numeral.toInt?_of_natAbs_le hp hl]
  | @real n x hn hl hx =>
    rw [ofWord, hnumeral hn]
    simp only [toInt?_eq_none hl, hx.unique n.roundsTo_toFloat]
  | bool value hw =>
    subst hw
    cases value <;> rfl
  | null hw =>
    subst hw
    rfl
  | keyword hn hw =>
    have hnone : Numeral.ofWord? word = none :=
      Option.eq_none_iff_forall_ne_some.2 fun n h => hn n (Numeral.ofWord?_eq_some_iff.1 h)
    have hw' : word ≠ Byte.ofAscii "true" ∧ word ≠ Byte.ofAscii "false" ∧
        word ≠ Byte.ofAscii "null" := by
      simpa [reserved] using hw
    simp only [ofWord, hnone, if_neg hw'.1, if_neg hw'.2.1, if_neg hw'.2.2]

/-- Every word means what it is read as. -/
theorem means_ofWord (word : List UInt8) : Means word (ofWord word) := by
  rw [ofWord]
  split
  · rename_i n hn
    have hspelled := Numeral.ofWord?_eq_some_iff.1 hn
    by_cases hint : n.fraction = none ∧ n.integer.natAbs ≤ 2 ^ 63 - 1
    · simp only [Numeral.toInt?_of_natAbs_le hint.1 hint.2]
      exact .int hspelled hint.1 hint.2
    · have hlarge : n.fraction = none → 2 ^ 63 - 1 < n.integer.natAbs := fun hp =>
        not_le.1 fun hl => hint ⟨hp, hl⟩
      simp only [toInt?_eq_none hlarge]
      exact .real hspelled hlarge n.roundsTo_toFloat
  · rename_i hn
    split
    · exact .bool true ‹_›
    split
    · exact .bool false ‹_›
    split
    · exact .null ‹_›
    · refine .keyword (fun n h => ?_) ?_
      · rw [Numeral.ofWord?_eq_some_iff.2 h] at hn
        cases hn
      · simp [reserved, *]

/-- A run of regular bytes is one token. An input has one where the first byte that is not skipped
is regular; there it is read as a whole and nothing behind it is, and the token is what the run
means, which is a single token. -/
theorem read?_firstWord (bytes : List UInt8) :
    (∀ b, (skipBlank bytes).head? = some b → Byte.isRegular b = true →
      ∃ word rest, FirstWord bytes word rest) ∧
    ∀ word rest, FirstWord bytes word rest →
      ∃ token, read? bytes = some (token, rest) ∧ ∀ other, Means word other ↔ other = token :=
  ⟨fun _ => exists_firstWord, fun word _ h =>
    ⟨_, h.read?, fun _ => ⟨Means.eq_ofWord, fun he => he ▸ means_ofWord word⟩⟩⟩

/-- A comment, and a number that ends where a name begins. -/
def signedInput : List UInt8 := Byte.ofAscii "%c\n+17/N"

/-- The number is the first word. -/
theorem signedInput_firstWord :
    FirstWord signedInput (Byte.ofAscii "+17") (Byte.ofAscii "/N") := by
  have hcomment : Gap (Byte.ofAscii "%c\n") :=
    @Gap.comment [0x63] 0x0A (List.forall_mem_singleton.2 rfl) rfl
  exact ⟨⟨_, Or.inr hcomment, rfl⟩, List.cons_ne_nil _ _, by decide +kernel,
    by unfold EndsWord; decide +kernel⟩

/-- The sign belongs to the number, and the name does not. -/
theorem read?_firstWord_signed :
    ((skipBlank signedInput).head? = some (Byte.ofChar '+') ∧
      ∃ word rest, FirstWord signedInput word rest) ∧
    FirstWord signedInput (Byte.ofAscii "+17") (Byte.ofAscii "/N") ∧
      read? signedInput = some (.int 17, Byte.ofAscii "/N") := by
  obtain ⟨hexists, hevery⟩ := read?_firstWord signedInput
  have hhead : (skipBlank signedInput).head? = some (Byte.ofChar '+') := by decide +kernel
  obtain ⟨token, hread, hmeans⟩ := hevery _ _ signedInput_firstWord
  have hspelled : (⟨false, Byte.ofAscii "17", none⟩ : Numeral).SpelledBy (Byte.ofAscii "+17") :=
    ⟨⟨by decide +kernel, List.forall_mem_nil _, Or.inl (List.cons_ne_nil _ _)⟩, _, .plus, rfl⟩
  have hint : Means (Byte.ofAscii "+17") (.int 17) := .int hspelled rfl (by decide)
  rw [(hmeans _).1 hint]
  exact ⟨⟨hhead, hexists _ hhead (by decide)⟩, signedInput_firstWord, hread⟩

end PageText.Token
