import Mathlib.Data.List.Induction
import PageText.Document
import PageText.Filter.Zlib
import PageText.Proofs.Lexeme

/-!
# Token sequences

The tokens of a text are read one after the other until none can be read. A token takes a
front part of the text, and depends on nothing behind it except that no word may go on
there; the line end between two parts of page content sees to that, and ends a comment as
well. So the tokens of the parts stay what they are when the parts are joined. Which
operations they make is not decided here: an array may begin in one part and end in the
next.
-/

namespace PageText

namespace Spelling

/-- A byte of a literal string ends the string, or is kept and leaves a depth and an escape
for the bytes after it; which of the two does not depend on these. -/
theorem Literal.bodyFrom?_cons (depth : Nat) (escaped : Bool) (b : UInt8) :
    (b = Byte.ofChar ')' ∧ ∀ rest, bodyFrom? depth escaped (b :: rest) = some ([], rest)) ∨
    ∃ depth' escaped', ∀ rest, bodyFrom? depth escaped (b :: rest) =
      (bodyFrom? depth' escaped' rest).map fun found => (b :: found.1, found.2) := by
  cases escaped with
  | true => exact Or.inr ⟨depth, false, fun rest => by simp only [bodyFrom?, if_true]⟩
  | false =>
    simp only [bodyFrom?, Bool.false_eq_true, if_false]
    cases hslash : b == backslash with
    | true => exact Or.inr ⟨depth, true, fun _ => rfl⟩
    | false =>
      cases hopen : b == Byte.ofChar '(' with
      | true => exact Or.inr ⟨depth + 1, false, fun _ => rfl⟩
      | false =>
        cases hclose : b == Byte.ofChar ')' with
        | false => exact Or.inr ⟨depth, false, fun _ => rfl⟩
        | true =>
          cases depth with
          | zero => exact Or.inl ⟨beq_iff_eq.1 hclose, fun _ => rfl⟩
          | succ depth => exact Or.inr ⟨depth, false, fun _ => rfl⟩

/-- A literal string is its body and the parenthesis after it, whatever follows. -/
theorem Literal.of_bodyFrom? {depth : Nat} {escaped : Bool} {bytes raw rest : List UInt8}
    (h : bodyFrom? depth escaped bytes = some (raw, rest)) :
    bytes = raw ++ Byte.ofChar ')' :: rest ∧
      ∀ more, bodyFrom? depth escaped (raw ++ Byte.ofChar ')' :: more) = some (raw, more) := by
  induction bytes generalizing depth escaped raw with
  | nil => cases h
  | cons b bytes ih =>
    rcases bodyFrom?_cons depth escaped b with ⟨rfl, hend⟩ | ⟨depth', escaped', hkeep⟩
    · rw [hend] at h
      cases h
      exact ⟨rfl, hend⟩
    · rw [hkeep] at h
      obtain ⟨⟨raw', rest'⟩, found, made⟩ := Option.map_eq_some_iff.1 h
      cases made
      obtain ⟨rfl, hmore⟩ := ih found
      exact ⟨rfl, fun more => by rw [List.cons_append, hkeep, hmore, Option.map_some]⟩

/-- A hexadecimal string is its body and the bracket after it. -/
theorem Hex.of_body? {bytes raw rest : List UInt8} (h : body? bytes = some (raw, rest)) :
    bytes = raw ++ Byte.ofChar '>' :: rest ∧
      ∀ b ∈ raw, (Byte.isHexDigit b || Byte.isBlank b) = true := by
  have hsplit := List.takeWhile_append_dropWhile
    (p := fun b => Byte.isHexDigit b || Byte.isBlank b) (l := bytes)
  unfold body? at h
  dsimp only at h
  split at h
  · rename_i b tail hdrop
    split at h
    · rename_i hb
      cases h
      rw [hdrop, beq_iff_eq.1 hb] at hsplit
      exact ⟨hsplit.symm, List.all_eq_true.1 List.all_takeWhile⟩
    · cases h
  · cases h

end Spelling

namespace Token

/-- What is not skipped begins where it does for every rest. -/
theorem exists_of_skipFrom {inComment : Bool} {bytes tail : List UInt8} {b : UInt8}
    (h : skipFrom inComment bytes = b :: tail) :
    ∃ gap, bytes = gap ++ b :: tail ∧
      ∀ more, skipFrom inComment (gap ++ b :: more) = b :: more := by
  induction bytes generalizing inComment with
  | nil => cases inComment <;> cases h
  | cons c bytes ih =>
    have skip {inComment' : Bool}
        (hc : ∀ rest, skipFrom inComment (c :: rest) = skipFrom inComment' rest) :
        ∃ gap, c :: bytes = gap ++ b :: tail ∧
          ∀ more, skipFrom inComment (gap ++ b :: more) = b :: more := by
      rw [hc] at h
      obtain ⟨gap, rfl, hmore⟩ := ih h
      exact ⟨c :: gap, rfl, fun more => by rw [List.cons_append, hc, hmore]⟩
    cases inComment with
    | true => exact skip fun _ => rfl
    | false =>
      by_cases hblank : Byte.isBlank c = true
      · exact skip fun _ => by rw [skipFrom, if_pos hblank]
      by_cases hpercent : (c == Byte.ofChar '%') = true
      · exact skip fun _ => by rw [skipFrom, if_neg hblank, if_pos hpercent]
      · have hstay (rest : List UInt8) : skipFrom false (c :: rest) = c :: rest := by
          rw [skipFrom, if_neg hblank, if_neg hpercent]
        rw [hstay] at h
        cases h
        exact ⟨[], rfl, hstay⟩

/-- Where only blanks and comments are left, a line end leads back to tokens. -/
theorem skipFrom_append_of_eq_nil {inComment : Bool} {bytes : List UInt8}
    (h : skipFrom inComment bytes = []) (more : List UInt8) :
    skipFrom inComment (bytes ++ 0x0A :: more) = skipBlank more := by
  induction bytes generalizing inComment with
  | nil => cases inComment <;> rfl
  | cons b bytes ih =>
    rw [List.cons_append]
    cases inComment with
    | true => exact ih h
    | false =>
      rw [skipFrom] at h ⊢
      split
      · rw [if_pos ‹_›] at h
        exact ih h
      rw [if_neg ‹_›] at h
      split
      · rw [if_pos ‹_›] at h
        exact ih h
      · rw [if_neg ‹_›] at h
        cases h

/-- No word goes on behind a run of regular bytes. -/
theorem endsWord_dropWhile (bytes : List UInt8) :
    EndsWord (bytes.dropWhile Byte.isRegular) := by
  intro b hb
  have hhead := List.head?_dropWhile_not Byte.isRegular bytes
  rw [Option.mem_def.1 hb] at hhead
  simpa using hhead

/-- A run of regular bytes is what it is wherever no word goes on behind it. -/
theorem EndsWord.split {more : List UInt8} (h : EndsWord more) (bytes : List UInt8) :
    (bytes.takeWhile Byte.isRegular ++ more).takeWhile Byte.isRegular =
        bytes.takeWhile Byte.isRegular ∧
      (bytes.takeWhile Byte.isRegular ++ more).dropWhile Byte.isRegular = more := by
  have hrun : ∀ b ∈ bytes.takeWhile Byte.isRegular, Byte.isRegular b = true :=
    fun b hb => List.mem_takeWhile_imp hb
  rw [List.takeWhile_append_of_pos hrun, List.dropWhile_append_of_pos hrun, h.takeWhile,
    h.dropWhile, List.append_nil]
  exact ⟨rfl, rfl⟩

/-- A token takes a front part of its input. No other byte matters to it, except that a word
must not go on behind it. -/
theorem exists_front_of_readAt? {b : UInt8} {bytes rest : List UInt8} {token : Token}
    (h : readAt? b bytes = some (token, rest)) :
    ∃ front, bytes = front ++ rest ∧
      ∀ more, (EndsWord rest → EndsWord more) → readAt? b (front ++ more) = some (token, more) := by
  unfold readAt? at h ⊢
  cases role : Byte.role b <;> simp only [role] at h ⊢
  case regular | slash =>
    cases h
    refine ⟨_, List.takeWhile_append_dropWhile.symm, fun more hmore => ?_⟩
    obtain ⟨htake, hdrop⟩ := EndsWord.split (hmore (endsWord_dropWhile _)) bytes
    rw [htake, hdrop]
  case parenOpen =>
    obtain ⟨⟨raw, rest'⟩, found, made⟩ := Option.map_eq_some_iff.1 h
    cases made
    obtain ⟨hbytes, hmore⟩ := Spelling.Literal.of_bodyFrom? found
    refine ⟨raw ++ [Byte.ofChar ')'], by rw [hbytes, List.append_assoc]; rfl, fun more _ => ?_⟩
    rw [List.append_assoc, Spelling.Literal.body?, List.singleton_append, hmore]
    rfl
  case squareOpen | squareClose | brace =>
    cases h
    exact ⟨[], rfl, fun _ _ => rfl⟩
  case angleOpen =>
    cases hdouble : bytes.head? == some b with
    | true =>
      rw [if_pos hdouble] at h
      cases h
      obtain ⟨tail, rfl⟩ := List.head?_eq_some_iff.1 (beq_iff_eq.1 hdouble)
      refine ⟨[b], rfl, fun more _ => ?_⟩
      simp
    | false =>
      rw [hdouble, if_neg Bool.false_ne_true] at h
      obtain ⟨⟨raw, rest'⟩, found, made⟩ := Option.map_eq_some_iff.1 h
      cases made
      obtain ⟨hbytes, hraw⟩ := Spelling.Hex.of_body? found
      refine ⟨raw ++ [Byte.ofChar '>'], by rw [hbytes, List.append_assoc]; rfl, fun more _ => ?_⟩
      have hhead : (raw ++ [Byte.ofChar '>'] ++ more).head? = bytes.head? := by
        rw [hbytes]
        cases raw <;> rfl
      rw [hhead, hdouble, if_neg Bool.false_ne_true, List.append_assoc, List.singleton_append,
        Spelling.Hex.body?_of_forall hraw]
      rfl
  case angleClose =>
    cases hdouble : bytes.head? == some b with
    | true =>
      rw [if_pos hdouble] at h
      cases h
      obtain ⟨tail, rfl⟩ := List.head?_eq_some_iff.1 (beq_iff_eq.1 hdouble)
      refine ⟨[b], rfl, fun more _ => ?_⟩
      simp
    | false =>
      rw [hdouble, if_neg Bool.false_ne_true] at h
      cases h
  case blank | percent | parenClose => cases h

/-- Together with what is skipped before it, a token takes a front part of its input that is
not empty, and depends on nothing behind it except as a word does. -/
theorem exists_front_of_read? {bytes rest : List UInt8} {token : Token}
    (h : read? bytes = some (token, rest)) :
    ∃ front, front ≠ [] ∧ bytes = front ++ rest ∧
      ∀ more, (EndsWord rest → EndsWord more) → read? (front ++ more) = some (token, more) := by
  obtain ⟨b, tail, hskip, hread⟩ := exists_of_read? h
  obtain ⟨gap, rfl, hgap⟩ := exists_of_skipFrom hskip
  obtain ⟨front, rfl, hmore⟩ := exists_front_of_readAt? hread
  refine ⟨gap ++ b :: front, by simp, by simp, fun more he => ?_⟩
  have hbegin : skipBlank (gap ++ b :: front ++ more) = b :: (front ++ more) := by
    rw [List.append_assoc]
    exact hgap (front ++ more)
  rw [read?, hbegin]
  exact hmore more he

/-- A token stays what it is where no word goes on behind the text that it was read from. -/
theorem read?_append {bytes rest more : List UInt8} {token : Token}
    (h : read? bytes = some (token, rest)) (he : EndsWord more) :
    read? (bytes ++ more) = some (token, rest ++ more) := by
  obtain ⟨front, -, rfl, hmore⟩ := exists_front_of_read? h
  rw [List.append_assoc]
  refine hmore (rest ++ more) fun hrest => ?_
  cases rest with
  | nil => exact he
  | cons b rest => exact hrest

/-- The tokens of a text up to where none can be read, and what is left there after blanks and
comments. -/
def readAll (bytes : List UInt8) : List Token × List UInt8 :=
  match _h : read? bytes with
  | none => ([], skipBlank bytes)
  | some (token, rest) =>
    let found := readAll rest
    (token :: found.1, found.2)
  termination_by bytes.length
  decreasing_by exact length_lt_of_read? _h

/-- A text is made of tokens if they can be read up to its end. -/
def IsWhole (bytes : List UInt8) : Prop := (readAll bytes).2 = []

/-- Where no token can be read there are none. -/
theorem readAll_of_none {bytes : List UInt8} (h : read? bytes = none) :
    readAll bytes = ([], skipBlank bytes) := by
  rw [readAll]
  split
  · rfl
  · rename_i found
    rw [h] at found
    cases found

/-- The first token comes before those of the rest. -/
theorem readAll_of_some {bytes rest : List UInt8} {token : Token}
    (h : read? bytes = some (token, rest)) :
    readAll bytes = (token :: (readAll rest).1, (readAll rest).2) := by
  rw [readAll]
  split
  · rename_i found
    rw [h] at found
    cases found
  · rename_i found
    rw [h] at found
    cases found
    rfl

/-- What may be skipped makes no difference to the tokens. -/
theorem readAll_congr {bytes bytes' : List UInt8} (h : skipBlank bytes = skipBlank bytes') :
    readAll bytes = readAll bytes' := by
  have hread : read? bytes = read? bytes' := read?_congr h
  cases hr : read? bytes' with
  | none => rw [readAll_of_none hr, readAll_of_none (hread.trans hr), h]
  | some found => rw [readAll_of_some hr, readAll_of_some (hread.trans hr)]

/-- Behind a text that is made of tokens a line end keeps its tokens what they are, and those
of the text after it follow. -/
theorem IsWhole.readAll_append {bytes : List UInt8} (h : IsWhole bytes) (more : List UInt8) :
    readAll (bytes ++ 0x0A :: more) =
      ((readAll bytes).1 ++ (readAll more).1, (readAll more).2) := by
  fun_induction readAll bytes with
  | case1 bytes hnone =>
    rw [IsWhole, readAll_of_none hnone] at h
    exact readAll_congr (skipFrom_append_of_eq_nil h more)
  | case2 bytes token rest hsome found ih =>
    have hrest : IsWhole rest := by
      rw [IsWhole, readAll_of_some hsome] at h
      exact h
    have hnoWord : EndsWord (0x0A :: more) := by
      intro b hb
      cases hb
      decide
    rw [readAll_of_some (read?_append hsome hnoWord), ih hrest]
    rfl

/-- The empty text has no tokens. -/
theorem readAll_nil : readAll [] = ([], []) := readAll_of_none rfl

end Token

namespace Document

/-- Parts of page content that are made of tokens have them all when they are joined, in
order. The text joined so far carries the induction. -/
theorem readAll_joinParts {parts : List (List UInt8)} (h : ∀ part ∈ parts, Token.IsWhole part) :
    Token.readAll (joinParts parts) =
      (parts.flatMap fun part => (Token.readAll part).1, []) := by
  induction parts using List.reverseRecOn with
  | nil => exact Token.readAll_nil
  | append_singleton earlier part ih =>
    obtain ⟨hearlier, hpart⟩ := List.forall_mem_append.1 h
    have hlast : Token.IsWhole part := hpart part (List.mem_singleton_self part)
    have hjoined := ih hearlier
    have hstep : joinParts (earlier ++ [part]) =
        (if (joinParts earlier).isEmpty then joinParts earlier
          else joinParts earlier ++ [0x0A]) ++ part := by
      rw [joinParts, List.foldl_append]
      rfl
    have hends : Token.readAll part = ((Token.readAll part).1, []) := Prod.ext rfl hlast
    rw [hstep, List.flatMap_append, List.flatMap_singleton]
    cases hempty : (joinParts earlier).isEmpty with
    | true =>
      rw [if_pos rfl, List.isEmpty_iff.1 hempty, List.nil_append, hends]
      rw [List.isEmpty_iff.1 hempty, Token.readAll_nil] at hjoined
      rw [← (Prod.mk.inj hjoined).1]
      rfl
    | false =>
      have hwhole : Token.IsWhole (joinParts earlier) := by rw [Token.IsWhole, hjoined]
      rw [if_neg Bool.false_ne_true, List.append_assoc, List.singleton_append,
        hwhole.readAll_append, hjoined, hends]

/-- An object is a part of page content with the given data: it leads to a stream whose
filters, undone, give these. -/
def IsPart (inflater : Inflater) (document : Document) (object : Object) (data : List UInt8) :
    Prop :=
  ∃ entries raw, object.resolve document.resolver = .ok (.stream entries raw) ∧
    Object.decodedData inflater (.stream entries raw) = .ok data

/-- The data of the parts can be read one after the other. -/
theorem mapM_part {inflater : Inflater} {document : Document} {parts : List Object}
    {data : List (List UInt8)} (h : List.Forall₂ (document.IsPart inflater) parts data) :
    parts.mapM (document.part inflater) = .ok data := by
  induction h with
  | nil => rfl
  | @cons object bytes parts data hfirst _ ih =>
    obtain ⟨entries, raw, hresolve, hdecode⟩ := hfirst
    have hpart : document.part inflater object = .ok bytes := by
      rw [part, hresolve]
      exact hdecode
    rw [List.mapM_cons, hpart, ih]
    rfl

/-- Tokens never run together across the parts of page content. Where the parts, decoded, are
each made of tokens up to their end, the content of the page can be read, and its tokens are
those of the first part, then those of the second, and so on to the end. A part may be empty,
may end in a comment, or may leave an array open for the next one to close. -/
theorem content_tokens {inflater : Inflater} {document : Document} {page : Dict}
    {parts : List Object} {data : List (List UInt8)}
    (hc : page.resolve? "Contents" document.resolver = .ok (some (.array parts)))
    (hp : List.Forall₂ (document.IsPart inflater) parts data)
    (hw : ∀ bytes ∈ data, Token.IsWhole bytes) :
    ∃ content, document.content inflater page = .ok content ∧
      Token.readAll content = (data.flatMap fun bytes => (Token.readAll bytes).1, []) := by
  refine ⟨joinParts data, ?_, readAll_joinParts hw⟩
  rw [content, hc]
  change joinParts <$> parts.mapM (document.part inflater) = .ok (joinParts data)
  rw [mapM_part hp]
  rfl

/-- A document that stores the first part of the page below. -/
def splitArray : Document := ⟨[(⟨1, 0⟩, .stream [] (Byte.ofAscii "[1% one"))], []⟩

/-- The end of an array, deflated, without the checksum of the envelope. -/
def deflatedEnd : Object :=
  .stream [("Filter", .name "FlateDecode")]
    [0x78, 0x01, 0x01, 0x02, 0x00, 0xFD, 0xFF, 0x32, 0x5D]

/-- A page with an array that begins in its first part and ends in its last one. -/
def splitArrayPage : Dict := [("Contents", .array [.ref ⟨1, 0⟩, .stream [] [], deflatedEnd])]

/-- An array that is split between parts, of which the first ends in a comment, the second is
empty and the third is cut short, has the tokens that it would have in one. -/
theorem content_tokens_split :
    splitArrayPage.resolve? "Contents" splitArray.resolver =
        .ok (some (.array [.ref ⟨1, 0⟩, .stream [] [], deflatedEnd])) ∧
      List.Forall₂ (splitArray.IsPart .standard) [.ref ⟨1, 0⟩, .stream [] [], deflatedEnd]
        [Byte.ofAscii "[1% one", [], Byte.ofAscii "2]"] ∧
      (∀ bytes ∈ [Byte.ofAscii "[1% one", [], Byte.ofAscii "2]"], Token.IsWhole bytes) ∧
      ∃ content, splitArray.content .standard splitArrayPage = .ok content ∧
        Token.readAll content =
          ([.arrayOpen, .int 1, .int 2, .arrayClose], []) := by
  have hc : splitArrayPage.resolve? "Contents" splitArray.resolver =
      .ok (some (.array [.ref ⟨1, 0⟩, .stream [] [], deflatedEnd])) := rfl
  have hend : deflatedEnd.decodedData .standard = .ok (Byte.ofAscii "2]") :=
    Error.ok_of_toOption (by decide +kernel)
  have hp : List.Forall₂ (splitArray.IsPart .standard)
      [.ref ⟨1, 0⟩, .stream [] [], deflatedEnd]
      [Byte.ofAscii "[1% one", [], Byte.ofAscii "2]"] :=
    .cons ⟨_, _, rfl, rfl⟩ (.cons ⟨_, _, rfl, rfl⟩ (.cons ⟨_, _, rfl, hend⟩ .nil))
  have hfirst : Token.readAll (Byte.ofAscii "[1% one") = ([.arrayOpen, .int 1], []) := by
    have hopen : Token.read? (Byte.ofAscii "[1% one") =
        some (.arrayOpen, Byte.ofAscii "1% one") := rfl
    have hone : Token.read? (Byte.ofAscii "1% one") = some (.int 1, Byte.ofAscii "% one") := rfl
    have hnone : Token.read? (Byte.ofAscii "% one") = none := rfl
    rw [Token.readAll_of_some hopen, Token.readAll_of_some hone, Token.readAll_of_none hnone]
    rfl
  have hlast : Token.readAll (Byte.ofAscii "2]") = ([.int 2, .arrayClose], []) := by
    have htwo : Token.read? (Byte.ofAscii "2]") = some (.int 2, Byte.ofAscii "]") := rfl
    have hclose : Token.read? (Byte.ofAscii "]") = some (.arrayClose, []) := rfl
    rw [Token.readAll_of_some htwo, Token.readAll_of_some hclose, Token.readAll_nil]
  have hw : ∀ bytes ∈ [Byte.ofAscii "[1% one", [], Byte.ofAscii "2]"], Token.IsWhole bytes := by
    simp only [List.forall_mem_cons, Token.IsWhole, hfirst, hlast, Token.readAll_nil,
      List.not_mem_nil, false_implies, implies_true, and_self]
  obtain ⟨content, hcontent, htokens⟩ := content_tokens hc hp hw
  refine ⟨hc, hp, hw, content, hcontent, ?_⟩
  rw [htokens, List.flatMap_cons, List.flatMap_cons, List.flatMap_singleton, hfirst, hlast,
    Token.readAll_nil]
  rfl

end Document

end PageText
