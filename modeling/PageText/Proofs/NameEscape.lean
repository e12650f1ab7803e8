import PageText.Proofs.Lexeme
import PageText.Proofs.Replacement

/-!
# Names with escaped bytes

A name can be written with any of its bytes as a number sign and two digits. Reading takes
the bytes between two escapes for text, each run by itself, and an escape for the character
of the code that its digits give. For ASCII bytes this is the character that they are in the
text as well, and it makes no difference which of them are escaped. A byte past ASCII is a
part of a character only, and its escape is a character of its own; so an escape of such a
byte always makes the name longer.
-/

namespace PageText.Text.Utf8

/-- Whether a byte may begin a character, as opposed to the bytes that only continue one. -/
def begins (b : UInt8) : Bool := b < 0x80 || 0xC0 ≤ b

/-- One byte more is at most one character more. -/
theorem countP_begins_cons_le (b : UInt8) (bytes : List UInt8) :
    (b :: bytes).countP begins ≤ bytes.countP begins + 1 := by
  rw [List.countP_cons]
  split <;> omega

/-- A byte that continues a character does not count. -/
theorem countP_begins_cons {b : UInt8} (hb : begins b = false) (bytes : List UInt8) :
    (b :: bytes).countP begins = bytes.countP begins :=
  List.countP_cons_of_neg (by rw [hb]; decide)

/-- A byte that begins no character is replaced where it continues none. -/
theorem decodeFrom_none_of_not_begins {b : UInt8} (hb : begins b = false) (rest : List UInt8) :
    decodeFrom none (b :: rest) = replacement :: decodeFrom none rest := by
  have h : ∀ b : UInt8, begins b = false →
      (feedFirst b).1 = [replacement] ∧ (feedFirst b).2.isNone = true :=
    Byte.forall_of_fin (by decide +kernel)
  obtain ⟨hshown, hopened⟩ := h b hb
  rw [decodeFrom, feed, hshown, Option.isNone_iff_eq_none.1 hopened, List.singleton_append]

/-- A byte that begins a character continues none. -/
theorem decodeFrom_some_of_begins {pending : Pending} (hp : pending.Proper) {b : UInt8}
    (hb : begins b = true) (rest : List UInt8) :
    decodeFrom (some pending) (b :: rest) = replacement :: decodeFrom none (b :: rest) := by
  have hout : ¬(pending.least ≤ b && b ≤ pending.greatest) = true := by
    have hleast := hp.least
    have hgreatest := hp.greatest
    simp only [begins, Bool.or_eq_true, decide_eq_true_eq, UInt8.lt_iff_toNat_lt,
      UInt8.le_iff_toNat_le, UInt8.reduceToNat] at hb
    simp only [Bool.and_eq_true, decide_eq_true_eq, UInt8.le_iff_toNat_le]
    omega
  simp only [decodeFrom, feed, if_neg hout, List.cons_append]

/-- Decoding makes at least one character of each byte that begins one, and one more of what
was unfinished. -/
theorem countP_begins_le_decodeFrom {pending : Option Pending}
    (hp : ∀ proper ∈ pending, proper.Proper) (bytes : List UInt8) :
    bytes.countP begins + pending.toList.length ≤ (decodeFrom pending bytes).length := by
  induction bytes generalizing pending with
  | nil => cases pending <;> exact Nat.le_refl _
  | cons b bytes ih =>
    have hone := countP_begins_cons_le b bytes
    have hnone : (b :: bytes).countP begins ≤ (decodeFrom none (b :: bytes)).length := by
      rcases decodeFrom_none_cases b with ⟨-, hs⟩ | ⟨next, hn, hs⟩ | hs
      · rw [hs, List.length_cons]
        exact hone.trans (Nat.succ_le_succ (ih proper_none))
      · rw [hs]
        exact hone.trans (ih hn.some)
      · rw [hs, List.length_cons]
        exact hone.trans (Nat.succ_le_succ (ih proper_none))
    cases pending with
    | none => exact hnone
    | some pending =>
      have hproper : pending.Proper := hp pending rfl
      cases hb : begins b with
      | true =>
        rw [decodeFrom_some_of_begins hproper hb, List.length_cons]
        exact Nat.succ_le_succ hnone
      | false =>
        have hsame := countP_begins_cons hb bytes
        rcases decodeFrom_some_cases hproper b with ⟨-, next, hn, hs⟩ | ⟨-, c, -, hs⟩ | hs
        · rw [hs, hsame]
          exact ih hn.some
        · rw [hs, hsame, List.length_cons]
          exact Nat.succ_le_succ (ih proper_none)
        · rw [hs, List.length_cons]
          exact Nat.succ_le_succ hnone

/-- A byte from 0xC0 on begins a character. -/
theorem begins_toUInt8 {n : Nat} (hl : 0xC0 ≤ n) (hu : n < 256) : begins n.toUInt8 = true := by
  have hle : (0xC0 : UInt8) ≤ n.toUInt8 := by
    rw [UInt8.le_iff_toNat_le, toNat_toUInt8 hu]
    exact hl
  rw [begins, decide_eq_true hle, Bool.or_true]

/-- A byte with six bits `k` continues a character. -/
theorem begins_tail {k : Nat} (hk : k < 64) : begins (0x80 + k).toUInt8 = false := by
  interval_cases k <;> rfl

/-- The first byte of a character begins it and the others continue it; there are others
unless the first is ASCII. -/
theorem exists_encodeChar (c : Char) :
    ∃ first tail, encodeChar c = first :: tail ∧ begins first = true ∧
      (∀ b ∈ tail, begins b = false) ∧ (0x80 ≤ first → tail ≠ []) := by
  have hvalid : c.toNat < 0xD800 ∨ 0xDFFF < c.toNat ∧ c.toNat < 0x110000 := c.valid
  unfold encodeChar
  generalize c.toNat = n at hvalid
  dsimp only
  by_cases h1 : n < 0x80
  · have hlt : n.toUInt8 < 0x80 := by
      rw [UInt8.lt_iff_toNat_lt, toNat_toUInt8 (by omega)]
      exact h1
    rw [if_pos h1]
    refine ⟨_, _, rfl, ?_, List.forall_mem_nil _, fun hle => absurd hlt (UInt8.not_lt.2 hle)⟩
    rw [begins, decide_eq_true hlt, Bool.true_or]
  rw [if_neg h1]
  by_cases h2 : n < 0x800
  · rw [if_pos h2]
    refine ⟨_, _, rfl, begins_toUInt8 (by omega) (by omega), ?_, fun _ => List.cons_ne_nil _ _⟩
    exact List.forall_mem_singleton.2 (begins_tail (by omega))
  rw [if_neg h2]
  by_cases h3 : n < 0x10000
  · rw [if_pos h3]
    refine ⟨_, _, rfl, begins_toUInt8 (by omega) (by omega), ?_, fun _ => List.cons_ne_nil _ _⟩
    exact List.forall_mem_cons.2 ⟨begins_tail (by omega),
      List.forall_mem_singleton.2 (begins_tail (by omega))⟩
  · rw [if_neg h3]
    refine ⟨_, _, rfl, begins_toUInt8 (by omega) (by omega), ?_, fun _ => List.cons_ne_nil _ _⟩
    exact List.forall_mem_cons.2 ⟨begins_tail (by omega), List.forall_mem_cons.2
      ⟨begins_tail (by omega), List.forall_mem_singleton.2 (begins_tail (by omega))⟩⟩

/-- The bytes of a text that begin characters are as many as its characters. -/
theorem countP_begins_encode (text : List Char) : (encode text).countP begins = text.length := by
  induction text with
  | nil => rfl
  | cons c text ih =>
    obtain ⟨first, tail, hc, hfirst, htail, -⟩ := exists_encodeChar c
    have hnone : tail.countP begins = 0 :=
      List.countP_eq_zero.2 fun b hb => by rw [htail b hb]; decide
    rw [encode, List.flatMap_cons, List.countP_append, hc, List.countP_cons_of_pos hfirst, hnone]
    change 0 + 1 + (encode text).countP begins = text.length + 1
    rw [ih]
    omega

/-- In a text a byte past ASCII that begins a character is followed by one that continues
it. -/
theorem exists_of_encode_eq {text : List Char} {before after : List UInt8} {b : UInt8}
    (h : encode text = before ++ b :: after) (hb : begins b = true) (hp : 0x80 ≤ b) :
    ∃ next rest, after = next :: rest ∧ begins next = false := by
  induction text generalizing before with
  | nil => cases before <;> cases h
  | cons c text ih =>
    obtain ⟨first, tail, hc, hfirst, htail, hmore⟩ := exists_encodeChar c
    rw [encode, List.flatMap_cons, hc, List.cons_append] at h
    cases before with
    | nil =>
      obtain ⟨rfl, hafter⟩ := List.cons.inj h
      obtain ⟨next, tail, rfl⟩ := List.exists_cons_of_ne_nil (hmore hp)
      exact ⟨next, _, hafter.symm, htail next List.mem_cons_self⟩
    | cons a before =>
      obtain ⟨-, hsplit⟩ := List.cons.inj h
      rcases List.append_eq_append_iff.1 hsplit with ⟨between, hbefore, hrest⟩ |
        ⟨between, htail', hrest⟩
      · exact ih hrest
      · cases between with
        | nil => exact @ih [] hrest.symm
        | cons d between =>
          obtain ⟨rfl, -⟩ := List.cons.inj hrest
          have hcontinues : begins b = false := htail b (by rw [htail']; simp)
          rw [hb] at hcontinues
          cases hcontinues

end PageText.Text.Utf8

namespace PageText.Spelling.Name

/-- One byte of a name as it is written. -/
inductive WrittenByte where
  /-- As it is. -/
  | raw (b : UInt8)
  /-- As a number sign and its digits, of either letter case. -/
  | escaped {b high low : UInt8} (h : Byte.SpelledBy b high low)

namespace WrittenByte

/-- The byte. -/
def byte : WrittenByte → UInt8
  | raw b => b
  | @escaped b _ _ _ => b

/-- Whether the byte is escaped. -/
def isEscaped : WrittenByte → Bool
  | raw _ => false
  | escaped _ => true

/-- What is written. -/
def spelling : WrittenByte → List UInt8
  | raw b => [b]
  | @escaped _ high low _ => [Byte.ofChar '#', high, low]

end WrittenByte

/-- What is written for a whole name. -/
def spelled (name : List WrittenByte) : List UInt8 := name.flatMap WrittenByte.spelling

/-- What a written name is read as, behind a run of raw bytes: each run is text by itself,
and between two runs stands the character of an escape. -/
def readFrom (run : List UInt8) : List WrittenByte → List Char
  | [] => Text.Utf8.decodeLossy run
  | .raw b :: name => readFrom (run ++ [b]) name
  | @WrittenByte.escaped b _ _ _ :: name =>
    Text.Utf8.decodeLossy run ++ Byte.toLatin1 b :: readFrom [] name

/-- What is no number sign stands for itself. -/
theorem decode_append_of_not_mem {text : List Char} (ht : '#' ∉ text) (rest : List Char) :
    decode (text ++ rest) = text ++ decode rest := by
  induction text with
  | nil => rfl
  | cons c text ih =>
    obtain ⟨hc, htail⟩ := List.ne_and_not_mem_of_not_mem_cons ht
    rw [List.cons_append, decode_cons_of_ne (Ne.symm hc), ih htail, List.cons_append]

/-- A text without number signs is a name as it is. -/
theorem decode_of_not_mem {text : List Char} (ht : '#' ∉ text) : decode text = text := by
  have hplain := decode_append_of_not_mem ht []
  rwa [List.append_nil, decode, List.append_nil] at hplain

/-- Bytes without a number sign are no text with one. -/
theorem sign_not_mem_decodeLossy {bytes : List UInt8} (hb : Byte.ofChar '#' ∉ bytes) :
    '#' ∉ Text.Utf8.decodeLossy bytes := by
  intro hmem
  obtain ⟨before, after, hsplit⟩ := List.append_of_mem hmem
  have hascii : ∀ c ∈ ['#'], Text.Utf8.IsAscii c := by
    rw [List.forall_mem_singleton]
    exact ⟨by decide, by decide⟩
  have hinfix : ['#'] <:+: Text.Utf8.decodeFrom none bytes :=
    ⟨before, after, by rw [← Text.Utf8.decodeLossy, hsplit]; simp⟩
  have hfound := Text.Utf8.encode_occurs hascii (List.cons_ne_nil _ _) Text.Utf8.proper_none hinfix
  exact hb (hfound.subset List.mem_cons_self)

/-- A written name is read run by run and escape by escape. The bytes of a run are ASCII or
stay past it when they are decoded, so the sign of an escape ends the run that is carried
along. -/
theorem decode_spelled {run : List UInt8} (hrun : Byte.ofChar '#' ∉ run)
    {name : List WrittenByte} (hname : Byte.ofChar '#' ∉ name.map WrittenByte.byte) :
    decode (Text.Utf8.decodeFrom none (run ++ spelled name)) = readFrom run name := by
  induction name generalizing run with
  | nil =>
    rw [spelled, List.flatMap_nil, List.append_nil, readFrom, ← Text.Utf8.decodeLossy,
      decode_of_not_mem (sign_not_mem_decodeLossy hrun)]
  | cons first name ih =>
    obtain ⟨hfirst, htail⟩ := List.ne_and_not_mem_of_not_mem_cons hname
    cases first with
    | raw b =>
      have hmore : Byte.ofChar '#' ∉ run ++ [b] := by
        simp only [List.mem_append, List.mem_singleton, not_or]
        exact ⟨hrun, hfirst⟩
      have hspelled : run ++ spelled (.raw b :: name) = run ++ [b] ++ spelled name := by
        rw [List.append_assoc]
        rfl
      rw [hspelled, ih hmore htail, readFrom]
    | @escaped b high low hb =>
      have hspelled : run ++ spelled (.escaped hb :: name) =
          run ++ Byte.ofChar '#' :: (high :: low :: spelled name) := rfl
      have hrest := ih List.not_mem_nil htail
      rw [List.nil_append] at hrest
      rw [hspelled, Text.Utf8.decodeFrom_append Text.Utf8.proper_none (by decide),
        ← Text.Utf8.decodeLossy, decode_append_of_not_mem (sign_not_mem_decodeLossy hrun),
        decode_spelledBy hb, hrest, readFrom]

/-- Where only ASCII is escaped, a written name is read as its bytes are. -/
theorem readFrom_of_ascii {name : List WrittenByte}
    (hname : ∀ written ∈ name, written.isEscaped = true → written.byte < 0x80)
    (run : List UInt8) :
    readFrom run name = Text.Utf8.decodeLossy (run ++ name.map WrittenByte.byte) := by
  induction name generalizing run with
  | nil => rw [readFrom, List.map_nil, List.append_nil]
  | cons first name ih =>
    obtain ⟨hfirst, htail⟩ := List.forall_mem_cons.1 hname
    cases first with
    | raw b =>
      rw [readFrom, ih htail, List.append_assoc]
      rfl
    | @escaped b high low hb =>
      have hlt : b < 0x80 := hfirst rfl
      have hsplit := Text.Utf8.decodeFrom_append Text.Utf8.proper_none hlt run
        (name.map WrittenByte.byte)
      rw [decodeFrom_of_lt hlt] at hsplit
      rw [readFrom, ih htail]
      exact hsplit.symm

/-- An escape separates what stands before it from what stands behind it. -/
theorem readFrom_append_escaped (run : List UInt8) (before after : List WrittenByte)
    {b high low : UInt8} (hb : Byte.SpelledBy b high low) :
    readFrom run (before ++ .escaped hb :: after) =
      readFrom run before ++ Byte.toLatin1 b :: readFrom [] after := by
  induction before generalizing run with
  | nil => rfl
  | cons first before ih =>
    cases first with
    | raw d => exact ih (run ++ [d])
    | escaped hd => rw [List.cons_append, readFrom, readFrom, ih, List.append_assoc,
        List.cons_append]

/-- A run that does not begin with a character begins with a replacement. -/
theorem readFrom_cons_of_not_begins {b : UInt8} (hb : Text.Utf8.begins b = false)
    (run : List UInt8) (name : List WrittenByte) :
    readFrom (b :: run) name = Text.Utf8.replacement :: readFrom run name := by
  induction name generalizing run with
  | nil => exact Text.Utf8.decodeFrom_none_of_not_begins hb run
  | cons first name ih =>
    cases first with
    | raw d => exact ih (run ++ [d])
    | escaped hd =>
      rw [readFrom, readFrom, Text.Utf8.decodeLossy, Text.Utf8.decodeFrom_none_of_not_begins hb]
      rfl

/-- However a name is written, each byte that begins a character leaves one when read. -/
theorem countP_begins_le_readFrom (run : List UInt8) (name : List WrittenByte) :
    (run ++ name.map WrittenByte.byte).countP Text.Utf8.begins ≤ (readFrom run name).length := by
  have hrun (run : List UInt8) :
      run.countP Text.Utf8.begins ≤ (Text.Utf8.decodeLossy run).length :=
    Text.Utf8.countP_begins_le_decodeFrom Text.Utf8.proper_none run
  induction name generalizing run with
  | nil =>
    rw [List.map_nil, List.append_nil]
    exact hrun run
  | cons first name ih =>
    cases first with
    | raw b =>
      have hmore := ih (run ++ [b])
      rw [List.append_assoc] at hmore
      exact hmore
    | @escaped b high low hb =>
      have hone := Text.Utf8.countP_begins_cons_le (WrittenByte.escaped hb).byte
        (name.map WrittenByte.byte)
      have hbefore := hrun run
      have hafter := ih []
      rw [List.nil_append] at hafter
      rw [List.map_cons, List.countP_append, readFrom, List.length_append, List.length_cons]
      omega

/-- An escape of a byte that continues a character is one character more. -/
theorem countP_begins_lt_of_continues (before after : List WrittenByte) {b high low : UInt8}
    (hb : Byte.SpelledBy b high low) (hcontinues : Text.Utf8.begins b = false) :
    ((before ++ .escaped hb :: after).map WrittenByte.byte).countP Text.Utf8.begins <
      (readFrom [] (before ++ .escaped hb :: after)).length := by
  have hbefore := countP_begins_le_readFrom [] before
  have hafter := countP_begins_le_readFrom [] after
  have hnone : ((WrittenByte.escaped hb).byte :: after.map WrittenByte.byte).countP
      Text.Utf8.begins = (after.map WrittenByte.byte).countP Text.Utf8.begins :=
    Text.Utf8.countP_begins_cons hcontinues _
  rw [List.nil_append] at hbefore hafter
  rw [readFrom_append_escaped, List.map_append, List.map_cons, List.countP_append,
    List.length_append, List.length_cons]
  omega

/-- An escape that separates the first byte of a character from the next one is one character
more: the next byte is replaced if it is raw, and is an escape too if it is not. -/
theorem countP_begins_lt_of_separated (before after : List WrittenByte) {b high low : UInt8}
    (hb : Byte.SpelledBy b high low) {next : WrittenByte}
    (hnext : Text.Utf8.begins next.byte = false) :
    ((before ++ .escaped hb :: next :: after).map WrittenByte.byte).countP Text.Utf8.begins <
      (readFrom [] (before ++ .escaped hb :: next :: after)).length := by
  cases next with
  | escaped hd =>
    have hlt := countP_begins_lt_of_continues (before ++ [.escaped hb]) after hd hnext
    rwa [List.append_assoc] at hlt
  | raw d =>
    have hreplaced : readFrom [] (.raw d :: after) = Text.Utf8.replacement :: readFrom [] after :=
      readFrom_cons_of_not_begins hnext [] after
    have hbefore := countP_begins_le_readFrom [] before
    have hafter := countP_begins_le_readFrom [] after
    have hnone : ((WrittenByte.raw d).byte :: after.map WrittenByte.byte).countP
        Text.Utf8.begins = (after.map WrittenByte.byte).countP Text.Utf8.begins :=
      Text.Utf8.countP_begins_cons hnext _
    have hone := Text.Utf8.countP_begins_cons_le (WrittenByte.escaped hb).byte
      ((WrittenByte.raw d).byte :: after.map WrittenByte.byte)
    rw [List.nil_append] at hbefore hafter
    rw [readFrom_append_escaped, hreplaced, List.map_append, List.map_cons, List.map_cons,
      List.countP_append, List.length_append, List.length_cons, List.length_cons]
    omega

/-- A text that is written with an escape of a byte past ASCII is read as a longer one. -/
theorem length_lt_readFrom {text : List Char} {name : List WrittenByte}
    (hname : name.map WrittenByte.byte = Text.Utf8.encode text) {written : WrittenByte}
    (hmem : written ∈ name) (hescaped : written.isEscaped = true)
    (hpast : 0x80 ≤ written.byte) : text.length < (readFrom [] name).length := by
  obtain ⟨before, after, rfl⟩ := List.append_of_mem hmem
  rw [← Text.Utf8.countP_begins_encode, ← hname]
  cases written with
  | raw b => cases hescaped
  | @escaped b high low hb =>
    cases hbegins : Text.Utf8.begins b with
    | false => exact countP_begins_lt_of_continues before after hb hbegins
    | true =>
      -- The escape counts for the character, so the byte after it is one too many.
      have hsplit : Text.Utf8.encode text =
          before.map WrittenByte.byte ++ b :: after.map WrittenByte.byte := by
        rw [← hname, List.map_append]
        rfl
      obtain ⟨d, bytes, hafter, hd⟩ := Text.Utf8.exists_of_encode_eq hsplit hbegins hpast
      obtain ⟨next, after, rfl, rfl, rfl⟩ := List.map_eq_cons_iff.1 hafter
      exact countP_begins_lt_of_separated before after hb hd

/-- A text is read back from a written name exactly if only ASCII is escaped. -/
theorem readFrom_eq_iff {text : List Char} {name : List WrittenByte}
    (hname : name.map WrittenByte.byte = Text.Utf8.encode text) :
    readFrom [] name = text ↔
      ∀ written ∈ name, written.isEscaped = true → written.byte < 0x80 := by
  constructor
  · intro hread written hmem hescaped
    by_contra hpast
    have hlt := length_lt_readFrom hname hmem hescaped (UInt8.not_lt.1 hpast)
    rw [hread] at hlt
    exact Nat.lt_irrefl _ hlt
  · intro hascii
    rw [readFrom_of_ascii hascii, List.nil_append, hname, Text.Utf8.decodeLossy_encode]

/-- Where the bytes of a name are regular, so are those that write it. -/
theorem isRegular_spelled {name : List WrittenByte}
    (hname : ∀ b ∈ name.map WrittenByte.byte, Byte.isRegular b = true) :
    ∀ b ∈ spelled name, Byte.isRegular b = true := by
  intro b hb
  obtain ⟨written, hmem, hin⟩ := List.mem_flatMap.1 hb
  cases written with
  | raw d =>
    rw [List.mem_singleton.1 hin]
    exact hname d (List.mem_map_of_mem (f := WrittenByte.byte) hmem)
  | @escaped d high low hd =>
    have hall : ∀ b ∈ [Byte.ofChar '#', high, low], Byte.isRegular b = true := by
      simp only [List.forall_mem_cons, List.not_mem_nil, false_implies, implies_true, and_true]
      exact ⟨by decide, Byte.isRegular_of_isHexDigit hd.isHexDigit_high,
        Byte.isRegular_of_isHexDigit hd.isHexDigit_low⟩
    exact hall b hin

end PageText.Spelling.Name

namespace PageText.Token

open Spelling.Name

/-- A name whose bytes are a text is read as that text if they are raw. If some of them are
escaped, the runs of raw bytes are read as texts by themselves and each escape as one
character, and this is the same name exactly if none of the escaped bytes lies past ASCII. -/
theorem read?_writtenName {text : List Char} {name : List WrittenByte} {rest : List UInt8}
    (hname : name.map WrittenByte.byte = Text.Utf8.encode text)
    (hregular : ∀ b ∈ Text.Utf8.encode text, Byte.isRegular b = true)
    (hsign : Byte.ofChar '#' ∉ Text.Utf8.encode text) (hrest : EndsWord rest) :
    read? (Byte.ofChar '/' :: (Text.Utf8.encode text ++ rest)) =
      some (.name (String.ofList text), rest) ∧
    read? (Byte.ofChar '/' :: (spelled name ++ rest)) =
      some (.name (String.ofList (readFrom [] name)), rest) ∧
    (String.ofList (readFrom [] name) = String.ofList text ↔
      ∀ written ∈ name, written.isEscaped = true → written.byte < 0x80) := by
  refine ⟨?_, ?_, ?_⟩
  · rw [read?_name hregular hrest, ofBytes, decode_of_not_mem (sign_not_mem_decodeLossy hsign),
      Text.Utf8.decodeLossy_encode]
  · rw [← hname] at hregular hsign
    have hread := decode_spelled List.not_mem_nil hsign
    rw [List.nil_append] at hread
    rw [read?_name (isRegular_spelled hregular) hrest, ofBytes, Text.Utf8.decodeLossy, hread]
  · rw [String.ofList_inj, readFrom_eq_iff hname]

/-- A name with an accent, whose second letter is escaped. -/
def escapedLetter : List WrittenByte :=
  [.raw 0x63, @WrittenByte.escaped 0x61 0x36 0x31 ⟨by decide, by decide⟩, .raw 0x66, .raw 0xC3,
    .raw 0xA9]

/-- The same name with the two bytes of the accented letter escaped. -/
def escapedAccent : List WrittenByte :=
  [.raw 0x63, .raw 0x61, .raw 0x66, @WrittenByte.escaped 0xC3 0x43 0x33 ⟨by decide, by decide⟩,
    @WrittenByte.escaped 0xA9 0x41 0x39 ⟨by decide, by decide⟩]

/-- The escape of an ASCII letter makes no difference to a name with an accent. -/
theorem read?_escapedLetter :
    escapedLetter.map WrittenByte.byte = Text.Utf8.encode "café".toList ∧
    (∀ b ∈ Text.Utf8.encode "café".toList, Byte.isRegular b = true) ∧
    Byte.ofChar '#' ∉ Text.Utf8.encode "café".toList ∧ EndsWord [] ∧
    read? (Byte.ofChar '/' :: (spelled escapedLetter ++ [])) =
      some (.name (String.ofList "café".toList), []) := by
  have hname : escapedLetter.map WrittenByte.byte = Text.Utf8.encode "café".toList := by
    decide +kernel
  have hregular : ∀ b ∈ Text.Utf8.encode "café".toList, Byte.isRegular b = true := by
    decide +kernel
  have hsign : Byte.ofChar '#' ∉ Text.Utf8.encode "café".toList := by decide +kernel
  have hrest : EndsWord [] := nofun
  obtain ⟨-, hread, hsame⟩ := read?_writtenName hname hregular hsign hrest
  refine ⟨hname, hregular, hsign, hrest, ?_⟩
  rw [hread, hsame.2 (by decide)]

/-- The escapes of the bytes of the accented letter make two characters of it. -/
theorem read?_escapedAccent :
    escapedAccent.map WrittenByte.byte = Text.Utf8.encode "café".toList ∧
    Byte.ofChar '/' :: spelled escapedAccent = Byte.ofAscii "/caf#C3#A9" ∧
    read? (Byte.ofChar '/' :: Text.Utf8.encode "café".toList) = some (.name "café", []) ∧
    read? (Byte.ofChar '/' :: spelled escapedAccent) = some (.name "cafÃ©", []) ∧
    "cafÃ©" ≠ "café" :=
  ⟨by decide +kernel, by decide +kernel, rfl, rfl, by decide⟩

end PageText.Token
