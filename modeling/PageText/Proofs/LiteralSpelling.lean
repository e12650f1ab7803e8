import PageText.Proofs.Lexeme

/-!
# All spellings of a literal string

A byte of a literal string may be written in several ways, and line ends may be hidden behind a
backslash anywhere. The scan for the closing parenthesis knows nothing of this: it passes over a
backslash with the byte after it and counts parentheses. The decoder counts no parentheses. This
module says which bodies spell a byte string, and that the two readings agree on all of them:
the scan ends where the spelling does, and decoding gives the bytes back.
-/

namespace PageText.Spelling.Literal

/-- The letters that name a byte after a backslash, each with that byte. -/
def namedEscapes : List (UInt8 × UInt8) :=
  [(Byte.ofChar 'n', 0x0A), (Byte.ofChar 'r', 0x0D), (Byte.ofChar 't', 0x09),
    (Byte.ofChar 'b', 0x08), (Byte.ofChar 'f', 0x0C)]

/-- Whether a backslash before the byte changes its meaning. Any other byte stands for itself
after a backslash. -/
def changesMeaning (b : UInt8) : Bool :=
  (namedEscapes.map Prod.fst).contains b || Byte.isOctal b || Byte.isLineEnd b

/-- The number that octal digits spell, going on from the number that those before them spell. -/
def octalValue (value : Nat) (digits : List UInt8) : Nat :=
  digits.foldl (fun value d => value * 8 + Byte.digitValue d) value

/-- A piece of a body without parentheses that count: the bytes that it stands for, and those
that it is written with. Some pieces depend on the byte `next` after them, absent where the
body ends. -/
inductive SpellsPiece (next : Option UInt8) : List UInt8 → List UInt8 → Prop where
  /-- A byte as it is. -/
  | plain {b : UInt8} (hb : isSpecial b = false) : SpellsPiece next [b] [b]
  /-- A backslash and the byte. -/
  | escaped {b : UInt8} (hb : changesMeaning b = false) : SpellsPiece next [b] [backslash, b]
  /-- A backslash and the letter that names the byte. -/
  | named {letter b : UInt8} (hb : (letter, b) ∈ namedEscapes) :
      SpellsPiece next [b] [backslash, letter]
  /-- A backslash and one to three octal digits, of which the byte keeps the low eight bits.
  Less than three only stand where no further digit follows. -/
  | octal {digits : List UInt8} (hd : ∀ d ∈ digits, Byte.isOctal d = true)
      (hn : digits ≠ []) (hl : digits.length ≤ 3)
      (hnext : digits.length < 3 → ∀ b ∈ next, Byte.isOctal b = false) :
      SpellsPiece next [(octalValue 0 digits).toUInt8] (backslash :: digits)
  /-- A hidden line feed. -/
  | lineFeed : SpellsPiece next [] [backslash, 0x0A]
  /-- A hidden pair of carriage return and line feed. -/
  | returnLineFeed : SpellsPiece next [] [backslash, 0x0D, 0x0A]
  /-- A hidden carriage return, which must not be taken for the first half of a pair. -/
  | carriageReturn (hnext : next ≠ some 0x0A) : SpellsPiece next [] [backslash, 0x0D]

/-- The bodies that spell a byte string. Parentheses may stand as they are where they
balance. -/
inductive Spells : List UInt8 → List UInt8 → Prop where
  /-- Nothing spells the empty string. -/
  | nil : Spells [] []
  /-- A piece, and what follows it. -/
  | piece {first written bytes body : List UInt8} (hp : SpellsPiece body.head? first written)
      (hs : Spells bytes body) : Spells (first ++ bytes) (written ++ body)
  /-- A pair of parentheses with what is between them, and what follows it. -/
  | group {inner innerBody bytes body : List UInt8} (hi : Spells inner innerBody)
      (hs : Spells bytes body) :
      Spells (Byte.ofChar '(' :: (inner ++ Byte.ofChar ')' :: bytes))
        (Byte.ofChar '(' :: (innerBody ++ Byte.ofChar ')' :: body))

/-- An octal digit is no parenthesis and no backslash. -/
theorem isSpecial_of_isOctal {b : UInt8} (hb : Byte.isOctal b = true) : isSpecial b = false := by
  have h : ∀ b : UInt8, Byte.isOctal b = true → isSpecial b = false :=
    Byte.forall_of_fin (by decide +kernel)
  exact h b hb

/-- Bytes that are not escaped are passed over one by one. -/
theorem bodyFrom?_run {run : List UInt8} (hr : ∀ b ∈ run, isSpecial b = false) (depth : Nat)
    (rest : List UInt8) :
    bodyFrom? depth false (run ++ rest) =
      (bodyFrom? depth false rest).map fun found => (run ++ found.1, found.2) := by
  induction run with
  | nil => simp only [List.nil_append, Option.map_id']
  | cons b run ih =>
    obtain ⟨hb, hrun⟩ := List.forall_mem_cons.1 hr
    rw [List.cons_append, bodyFrom?_plain hb, ih hrun, Option.map_map]
    rfl

/-- The scan passes over a piece as a whole. -/
theorem SpellsPiece.bodyFrom? {next : Option UInt8} {first written : List UInt8}
    (h : SpellsPiece next first written) (depth : Nat) (rest : List UInt8) :
    bodyFrom? depth false (written ++ rest) =
      (bodyFrom? depth false rest).map fun found => (written ++ found.1, found.2) := by
  have hafter {d : UInt8} {run : List UInt8} (hr : ∀ b ∈ run, isSpecial b = false) :
      Literal.bodyFrom? depth false (backslash :: d :: (run ++ rest)) =
        (Literal.bodyFrom? depth false rest).map
          fun found => (backslash :: d :: (run ++ found.1), found.2) := by
    rw [bodyFrom?_escaped, bodyFrom?_run hr, Option.map_map]
    rfl
  have hnone : ∀ b ∈ ([] : List UInt8), isSpecial b = false := List.forall_mem_nil _
  cases h with
  | plain hb => exact bodyFrom?_plain hb depth rest
  | escaped hb => exact hafter hnone
  | named hb => exact hafter hnone
  | @octal digits hd hn hl hnext =>
    obtain ⟨d, digits, rfl⟩ := List.exists_cons_of_ne_nil hn
    exact hafter fun b hb => isSpecial_of_isOctal (hd b (List.mem_cons_of_mem d hb))
  | lineFeed => exact hafter hnone
  | returnLineFeed => exact hafter (List.forall_mem_singleton.2 (by decide))
  | carriageReturn hnext => exact hafter hnone

/-- The scan passes over a body that spells a byte string, and is as deep after it as before. -/
theorem Spells.bodyFrom? {bytes body : List UInt8} (h : Spells bytes body) (depth : Nat)
    (rest : List UInt8) :
    bodyFrom? depth false (body ++ rest) =
      (bodyFrom? depth false rest).map fun found => (body ++ found.1, found.2) := by
  induction h generalizing depth rest with
  | nil => simp only [List.nil_append, Option.map_id']
  | piece hp _ ih =>
    rw [List.append_assoc, hp.bodyFrom?, ih, Option.map_map]
    simp only [Function.comp_def, List.append_assoc]
  | @group inner innerBody bytes body _ _ ihi ihs =>
    have hopen (rest : List UInt8) :
        Literal.bodyFrom? depth false (Byte.ofChar '(' :: rest) =
          (Literal.bodyFrom? (depth + 1) false rest).map
            fun found => (Byte.ofChar '(' :: found.1, found.2) := rfl
    have hclose (rest : List UInt8) :
        Literal.bodyFrom? (depth + 1) false (Byte.ofChar ')' :: rest) =
          (Literal.bodyFrom? depth false rest).map
            fun found => (Byte.ofChar ')' :: found.1, found.2) := rfl
    rw [List.cons_append, List.append_assoc, List.cons_append, hopen, ihi, hclose, ihs]
    simp only [Option.map_map, Function.comp_def, List.append_assoc, List.cons_append]

/-- What an octal escape makes of the digits that it may still take, and of what follows them:
the digits are its own, and the next byte is not. -/
theorem decodeFrom_octal {digits : List UInt8} (hd : ∀ d ∈ digits, Byte.isOctal d = true)
    {value more : Nat} (hmore : 0 < more) (hl : digits.length ≤ more) {rest : List UInt8}
    (hr : digits.length < more → ∀ b ∈ rest.head?, Byte.isOctal b = false) :
    decodeFrom (.octal value more) (digits ++ rest) =
      (octalValue value digits).toUInt8 :: decodeFrom .nothing rest := by
  induction digits generalizing value more with
  | nil =>
    cases rest with
    | nil => rfl
    | cons b rest =>
      have hb : ¬Byte.isOctal b = true := by simpa using hr hmore b rfl
      simp only [List.nil_append, decodeFrom, read, if_neg hb, List.cons_append]
      rfl
  | cons d digits ih =>
    obtain ⟨hfirst, hdigits⟩ := List.forall_mem_cons.1 hd
    rw [List.length_cons] at hl hr
    simp only [List.cons_append, decodeFrom, read, if_pos hfirst]
    by_cases hlast : more ≤ 1
    · have hnone : digits = [] := List.eq_nil_of_length_eq_zero (by omega)
      rw [if_pos hlast, hnone]
      rfl
    · have hroom : 0 < more - 1 := by omega
      have hfit : digits.length ≤ more - 1 := by omega
      rw [if_neg hlast]
      exact ih hdigits hroom hfit fun hlt => hr (by omega)

/-- A byte that stands for itself after a backslash is read as itself there. -/
theorem readEscaped_of_changesMeaning {b : UInt8} (hb : changesMeaning b = false) :
    readEscaped b = ([b], .nothing) := by
  simp only [changesMeaning, namedEscapes, List.map_cons, List.map_nil, List.contains_cons,
    List.contains_nil, Bool.or_false, Bool.or_eq_false_iff, Byte.isLineEnd] at hb
  obtain ⟨⟨⟨hn, hr, ht, hbs, hf⟩, ho⟩, hcr, hlf⟩ := hb
  simp only [readEscaped, hn, hr, ht, hbs, hf, ho, hcr, hlf, Bool.false_eq_true, if_false]

/-- A letter that names a byte is read as that byte after a backslash. -/
theorem readEscaped_of_named {letter b : UInt8} (hb : (letter, b) ∈ namedEscapes) :
    readEscaped letter = ([b], .nothing) := by
  have h : ∀ entry ∈ namedEscapes, readEscaped entry.1 = ([entry.2], .nothing) := by
    simp only [namedEscapes, List.forall_mem_cons, List.not_mem_nil, false_imp_iff, implies_true,
      and_true]
    exact ⟨rfl, rfl, rfl, rfl, rfl⟩
  exact h _ hb

/-- An octal digit after a backslash begins an octal escape. -/
theorem readEscaped_of_isOctal {b : UInt8} (hb : Byte.isOctal b = true) :
    readEscaped b = ([], .octal (Byte.digitValue b) 2) := by
  have hother : ∀ b : UInt8, Byte.isOctal b = true →
      (b == Byte.ofChar 'n') = false ∧ (b == Byte.ofChar 'r') = false ∧
      (b == Byte.ofChar 't') = false ∧ (b == Byte.ofChar 'b') = false ∧
      (b == Byte.ofChar 'f') = false ∧ (b == 0x0A) = false ∧ (b == 0x0D) = false :=
    Byte.forall_of_fin (by decide +kernel)
  obtain ⟨hn, hr, ht, hbs, hf, hlf, hcr⟩ := hother b hb
  simp only [readEscaped, hn, hr, ht, hbs, hf, hlf, hcr, hb, Bool.false_eq_true, if_false,
    if_true]

/-- A backslash and the byte after it, where that byte completes the escape. -/
theorem decodeFrom_escape {b : UInt8} {made : List UInt8} (hb : readEscaped b = (made, .nothing))
    (rest : List UInt8) :
    decodeFrom .nothing (backslash :: b :: rest) = made ++ decodeFrom .nothing rest := by
  have hslash : read .nothing backslash = ([], .escape) := rfl
  have hread : read .escape b = (made, .nothing) := hb
  simp only [decodeFrom, hslash, hread, List.nil_append]

/-- A piece is decoded to the bytes that it stands for, if what follows it is as it asks for. -/
theorem SpellsPiece.decodeFrom {first written rest : List UInt8}
    (h : SpellsPiece rest.head? first written) :
    decodeFrom .nothing (written ++ rest) = first ++ decodeFrom .nothing rest := by
  have hslash : read .nothing backslash = ([], .escape) := rfl
  cases h with
  | @plain b hb =>
    have hplain : ¬(b == backslash) = true := fun h =>
      Bool.false_ne_true (hb.symm.trans ((isSpecial_iff b).2 (Or.inr (Or.inr (beq_iff_eq.1 h)))))
    have hread : read .nothing b = ([b], .nothing) := if_neg hplain
    simp only [List.cons_append, List.nil_append, Literal.decodeFrom, hread]
  | escaped hb => exact decodeFrom_escape (readEscaped_of_changesMeaning hb) rest
  | named hb => exact decodeFrom_escape (readEscaped_of_named hb) rest
  | @octal digits hd hn hl hnext =>
    obtain ⟨d, digits, rfl⟩ := List.exists_cons_of_ne_nil hn
    obtain ⟨hfirst, hdigits⟩ := List.forall_mem_cons.1 hd
    have hread : read .escape d = ([], .octal (Byte.digitValue d) 2) :=
      readEscaped_of_isOctal hfirst
    have hvalue : octalValue 0 (d :: digits) = octalValue (Byte.digitValue d) digits := by
      simp only [octalValue, List.foldl_cons, Nat.zero_mul, Nat.zero_add]
    rw [List.length_cons] at hl hnext
    have hfit : digits.length ≤ 2 := by omega
    have hstop : digits.length < 2 → ∀ b ∈ rest.head?, Byte.isOctal b = false :=
      fun hlt => hnext (by omega)
    simp only [List.cons_append, Literal.decodeFrom, hslash, hread, List.nil_append]
    rw [decodeFrom_octal hdigits Nat.two_pos hfit hstop, hvalue]
  | lineFeed => exact decodeFrom_escape rfl rest
  | returnLineFeed =>
    have hreturn : read .escape 0x0D = ([], .lineEnd) := rfl
    have hfeed : read .lineEnd 0x0A = ([], .nothing) := rfl
    simp only [List.cons_append, List.nil_append, Literal.decodeFrom, hslash, hreturn, hfeed]
  | carriageReturn hnext =>
    have hreturn : read .escape 0x0D = ([], .lineEnd) := rfl
    simp only [List.cons_append, List.nil_append, Literal.decodeFrom, hslash, hreturn]
    cases rest with
    | nil => rfl
    | cons b rest =>
      have hb : ¬(b == 0x0A) = true := fun h => hnext (congrArg some (beq_iff_eq.1 h))
      have hread : read .lineEnd b = read .nothing b := if_neg hb
      simp only [Literal.decodeFrom, hread]

/-- What may stand at the end of a body may stand before a closing parenthesis. -/
theorem SpellsPiece.before_close {first written : List UInt8}
    (h : SpellsPiece none first written) :
    SpellsPiece (some (Byte.ofChar ')')) first written := by
  cases h with
  | plain hb => exact .plain hb
  | escaped hb => exact .escaped hb
  | named hb => exact .named hb
  | octal hd hn hl _ =>
    refine .octal hd hn hl fun _ b hb => ?_
    rw [← Option.some.inj hb]
    decide
  | lineFeed => exact .lineFeed
  | returnLineFeed => exact .returnLineFeed
  | carriageReturn _ => exact .carriageReturn (by decide)

/-- A body is decoded to the bytes that it spells, at the end and before a closing
parenthesis. -/
theorem Spells.decodeFrom {bytes body rest : List UInt8} (h : Spells bytes body)
    (hr : ∀ b ∈ rest.head?, b = Byte.ofChar ')') :
    decodeFrom .nothing (body ++ rest) = bytes ++ decodeFrom .nothing rest := by
  have hparen {b : UInt8} (hb : b ≠ backslash) (rest : List UInt8) :
      Literal.decodeFrom .nothing (b :: rest) = b :: Literal.decodeFrom .nothing rest := by
    have hread : read .nothing b = ([b], .nothing) := if_neg (mt beq_iff_eq.1 hb)
    simp only [Literal.decodeFrom, hread, List.cons_append, List.nil_append]
  induction h generalizing rest with
  | nil => rfl
  | @piece first written bytes body hp _ ih =>
    have hpiece : SpellsPiece (body ++ rest).head? first written := by
      cases body with
      | cons b body => exact hp
      | nil =>
        cases rest with
        | nil => exact hp
        | cons b rest =>
          have hb : b = Byte.ofChar ')' := hr b rfl
          rw [hb]
          exact SpellsPiece.before_close hp
    rw [List.append_assoc, hpiece.decodeFrom, ih hr, List.append_assoc]
  | group _ _ ihi ihs =>
    have hclose : ∀ rest : List UInt8,
        ∀ b ∈ (Byte.ofChar ')' :: rest).head?, b = Byte.ofChar ')' :=
      fun _ b hb => (Option.some.inj hb).symm
    simp only [List.cons_append, List.append_assoc]
    rw [hparen (by decide), ihi (hclose _), hparen (by decide), ihs hr]

/-- However a byte string is spelled, the token ends at the parenthesis that closes the
spelling, whatever follows it, and decoding gives the byte string. -/
theorem read?_spelled {bytes body : List UInt8} (h : Spells bytes body) (rest : List UInt8) :
    Token.read? (Byte.ofChar '(' :: (body ++ Byte.ofChar ')' :: rest)) =
        some (.literal body, rest) ∧
      decode body = bytes := by
  constructor
  · have hend : Literal.bodyFrom? 0 false (Byte.ofChar ')' :: rest) = some ([], rest) := rfl
    have hbody : body? (body ++ Byte.ofChar ')' :: rest) = some (body, rest) := by
      rw [body?, h.bodyFrom?, hend, Option.map_some, List.append_nil]
    exact Token.read?_literal hbody
  · have hdecode : Literal.decodeFrom .nothing (body ++ []) = bytes ++ [] := by
      refine h.decodeFrom fun b hb => ?_
      cases hb
    rwa [List.append_nil, List.append_nil] at hdecode

/-- A body with most kinds of pieces: parentheses around an octal escape of one digit, one of
three digits that is too large for a byte and has a digit after it, a named byte, two hidden
line ends and an escaped parenthesis. -/
def mixedBody : List UInt8 := Byte.ofAscii "(\\7)\\5011\\n\\\r\\\n\\)"

/-- The bytes that it spells. -/
def mixedBytes : List UInt8 := Byte.ofAscii "(\x07)A1\n)"

/-- The mixed body is read back before a tail that begins like its own end. -/
theorem read?_spelled_mixed : Spells mixedBytes mixedBody ∧
    Token.read? (Byte.ofChar '(' :: (mixedBody ++ Byte.ofChar ')' :: Byte.ofAscii ")1")) =
      some (.literal mixedBody, Byte.ofAscii ")1") ∧
    decode mixedBody = mixedBytes := by
  have hbell : SpellsPiece none [0x07] (Byte.ofAscii "\\7") := by
    refine @SpellsPiece.octal none [0x37] (List.all_eq_true.1 rfl) (by decide) (by decide) ?_
    intro _ b hb
    cases hb
  have hinner : Spells [0x07] (Byte.ofAscii "\\7") := @Spells.piece _ _ [] [] hbell .nil
  have hparen : Spells (Byte.ofAscii ")") (Byte.ofAscii "\\)") :=
    @Spells.piece _ _ [] [] (.escaped (by decide)) .nil
  have hends : Spells (Byte.ofAscii ")") (Byte.ofAscii "\\\r\\\n\\)") :=
    @Spells.piece _ _ _ _ (.carriageReturn (by decide)) (@Spells.piece _ _ _ _ .lineFeed hparen)
  have hnamed : Spells (Byte.ofAscii "1\n)") (Byte.ofAscii "1\\n\\\r\\\n\\)") :=
    @Spells.piece _ _ _ _ (.plain (by decide))
      (@Spells.piece _ _ _ _ (@SpellsPiece.named _ 0x6E 0x0A (by decide)) hends)
  have houter : Spells (Byte.ofAscii "A1\n)") (Byte.ofAscii "\\5011\\n\\\r\\\n\\)") :=
    @Spells.piece _ _ _ _ (@SpellsPiece.octal _ [0x35, 0x30, 0x31] (List.all_eq_true.1 rfl)
      (by decide) (by decide) fun h => absurd h (by decide)) hnamed
  have hmixed : Spells mixedBytes mixedBody := .group hinner houter
  exact ⟨hmixed, read?_spelled hmixed (Byte.ofAscii ")1")⟩

end PageText.Spelling.Literal
