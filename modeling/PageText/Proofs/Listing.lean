import PageText.Proofs.HexText
import PageText.Proofs.Search

/-!
# Listings as they are written

A listing of one code and the listing of a range, with blanks between their tokens, and the law
that reading one gives what it stores and leaves what follows it untouched. Between listings in
a row there is nothing that a reader could begin at.
-/

namespace PageText.Font.ToUnicode

open PageText.Text

/-! ## Tokens -/

/-- White space, or nothing. -/
def IsGap (gap : List Char) : Prop := ∀ c ∈ gap, Blank.isBlank c = true

/-- Tokens may stand next to each other. -/
theorem isGap_nil : IsGap [] := fun _ hm => nomatch hm

/-- Characters in angle brackets. -/
def inBrackets (body : List Char) : List Char := '<' :: (body ++ ['>'])

/-- Characters that a reader takes end at one that it does not take. -/
theorem span_append {isBody : Char → Bool} {body : List Char}
    (hbody : ∀ c ∈ body, isBody c = true) {c : Char} (hc : isBody c = false) (rest : List Char) :
    (body ++ c :: rest).takeWhile isBody = body ∧
      (body ++ c :: rest).dropWhile isBody = c :: rest := by
  have hstop : ¬isBody c = true := by rw [hc]; exact Bool.false_ne_true
  rw [List.takeWhile_append_of_pos hbody, List.takeWhile_cons_of_neg hstop, List.append_nil,
    List.dropWhile_append_of_pos hbody, List.dropWhile_cons_of_neg hstop]
  exact ⟨rfl, rfl⟩

/-- What stands in brackets is read, if the reader takes all of it and stops at the bracket. -/
theorem bracketed?_inBrackets {isBody : Char → Bool} {body : List Char}
    (hbody : ∀ c ∈ body, isBody c = true) (hend : isBody '>' = false) (rest : List Char) :
    bracketed? isBody (inBrackets body ++ rest) = some (body, rest) := by
  obtain ⟨htake, hdrop⟩ := span_append hbody hend rest
  rw [inBrackets, List.cons_append, List.append_assoc, List.singleton_append, bracketed?, hdrop,
    htake]
  rfl

/-- A code in brackets is read as its digits. -/
theorem SpellsCode.source? {code : Nat} {source : List Char} (h : SpellsCode code source)
    (rest : List Char) : source? (inBrackets source ++ rest) = some (source, rest) := by
  have hne : source.isEmpty = false := List.isEmpty_eq_false_iff.2 h.ne_nil
  rw [ToUnicode.source?, bracketed?_inBrackets h.isHex (by decide)]
  exact if_neg (by rw [hne]; exact Bool.false_ne_true)

/-- What stands in the brackets of a text: digits and blanks, or nothing. -/
def IsDestination (destination : List Char) : Prop :=
  ∀ c ∈ destination, (isHex c || Blank.isBlank c) = true

/-- A spelled text is a destination. -/
theorem SpellsText.isDestination {text : String} {destination : List Char}
    (h : SpellsText text destination) : IsDestination destination := h.mem

/-- A destination in brackets is read. -/
theorem IsDestination.destination? {destination : List Char} (h : IsDestination destination)
    (rest : List Char) :
    destination? (inBrackets destination ++ rest) = some (destination, rest) :=
  bracketed?_inBrackets h (by decide) rest

/-- A character that is neither a digit nor blank is not in a destination. -/
theorem IsDestination.notMem {destination : List Char} (h : IsDestination destination) {c : Char}
    (hhex : isHex c = false) (hblank : Blank.isBlank c = false) : c ∉ destination := fun hm =>
  absurd (h c hm) (by rw [hhex, hblank]; decide)

/-- Blanks before anything else are skipped. -/
theorem skipBlank_append {gap : List Char} (hg : IsGap gap) {c : Char}
    (hc : Blank.isBlank c = false) (rest : List Char) :
    skipBlank (gap ++ c :: rest) = c :: rest :=
  (span_append hg hc rest).2

/-- Blanks before a bracket are skipped. -/
theorem skipBlank_inBrackets {gap : List Char} (hg : IsGap gap) (body rest : List Char) :
    skipBlank (gap ++ (inBrackets body ++ rest)) = inBrackets body ++ rest :=
  skipBlank_append hg (by decide) _

/-- Only an opening bracket begins what stands in brackets. -/
theorem bracketed?_of_ne {isBody : Char → Bool} {c : Char} (hc : c ≠ '<') (rest : List Char) :
    bracketed? isBody (c :: rest) = none := by
  unfold bracketed?
  split
  · rename_i heq
    exact absurd (List.cons.inj heq).1 hc
  · rfl

/-- What stands in brackets does not begin at a blank. -/
theorem bracketed?_of_isBlank {isBody : Char → Bool} {c : Char} (hc : Blank.isBlank c = true)
    (rest : List Char) : bracketed? isBody (c :: rest) = none :=
  bracketed?_of_ne (by rintro rfl; exact absurd hc (by decide)) rest

/-! ## Listings in a row -/

/-- The reader reads the text, which is not empty, whatever follows it, and finds something of
the meaning that is expected. -/
structure ReadAs {β γ : Type} (reader : List Char → Option (β × List Char))
    (meaning : β → List γ) (text : List Char) (expected : List γ) : Prop where
  /-- There is something to read. -/
  ne_nil : text ≠ []
  /-- It is read up to its end. -/
  found : ∃ found, meaning found = expected ∧ ∀ rest, reader (text ++ rest) = some (found, rest)

/-- Listings one after the other, each written in its way, with blanks before, between and
after them. -/
inductive InARow {α : Type} (written : α → List Char → Prop) : List α → List Char → Prop where
  /-- Blanks alone list nothing. -/
  | nil {gap : List Char} (hg : IsGap gap) : InARow written [] gap
  /-- Blanks, a listing and what comes after it. -/
  | cons {gap one rest : List Char} {listing : α} {listings : List α} (hg : IsGap gap)
      (hw : written listing one) (hr : InARow written listings rest) :
      InARow written (listing :: listings) (gap ++ (one ++ rest))

/-- What holds of a gap, of every listing and of two texts joined holds of listings in a row. -/
theorem InARow.induct {α : Type} {written : α → List Char → Prop} {p : List Char → Prop}
    {listings : List α} {text : List Char} (h : InARow written listings text)
    (hgap : ∀ gap, IsGap gap → p gap)
    (hone : ∀ listing one, written listing one → p one)
    (happend : ∀ text rest, p text → p rest → p (text ++ rest)) : p text := by
  induction h with
  | nil hg => exact hgap _ hg
  | cons hg hw _ ih => exact happend _ _ (hgap _ hg) (happend _ _ (hone _ _ hw) ih)

/-- A reader that reads each listing and does not begin at a blank finds the listings in a row;
so, if it gives each its meaning, they mean together what they mean in turn. -/
theorem InARow.flatMap_allMatches {α β γ : Type} {written : α → List Char → Prop}
    {reader : List Char → Option (β × List Char)} {meaning : β → List γ} {expected : α → List γ}
    {listings : List α} {text : List Char}
    (hblank : ∀ c rest, Blank.isBlank c = true → reader (c :: rest) = none)
    (hread : ∀ listing one, written listing one → ReadAs reader meaning one (expected listing))
    (h : InARow written listings text) :
    (Search.allMatches reader text).flatMap meaning = listings.flatMap expected := by
  have hskip {gap : List Char} (hg : IsGap gap) (rest : List Char) :
      Search.allMatches reader (gap ++ rest) = Search.allMatches reader rest :=
    Search.allMatches_append_of_none fun c hc rest => hblank c rest (hg c hc)
  induction h with
  | nil hg =>
    have hnone := hskip hg []
    rw [List.append_nil] at hnone
    rw [hnone]
    rfl
  | cons hg hw _ ih =>
    obtain ⟨hne, found, hmeaning, hfound⟩ := hread _ _ hw
    rw [hskip hg, Search.allMatches_append_of_some hne (hfound _), List.flatMap_cons,
      List.flatMap_cons, hmeaning, ih]

/-- Listings that can be written can be written in a row. -/
theorem exists_inARow {α : Type} {written : α → List Char → Prop} {listings : List α}
    (h : ∀ listing ∈ listings, ∃ one, written listing one) :
    ∃ text, InARow written listings text := by
  induction listings with
  | nil => exact ⟨[], .nil isGap_nil⟩
  | cons listing listings ih =>
    obtain ⟨⟨one, hone⟩, hlistings⟩ := List.forall_mem_cons.1 h
    obtain ⟨text, htext⟩ := ih hlistings
    exact ⟨_, .cons isGap_nil hone htext⟩

/-! ## Single codes -/

/-- A code and its text. -/
structure Single where
  /-- The code. -/
  code : Nat
  /-- The text. -/
  text : String

/-- What a listing of one code stores. -/
def Single.entry (single : Single) : Nat × String := (single.code, single.text)

/-- The code is within its bound and there is a text. -/
structure Single.Listable (single : Single) : Prop where
  /-- The code has at most eight digits. -/
  code : single.code < codeBound
  /-- The text is not empty. -/
  text : single.text ≠ ""

/-- The code in brackets and the text in brackets. -/
inductive Single.Written : Single → List Char → Prop where
  /-- There may be blanks between the two. -/
  | tokens {code : Nat} {text : String} {source gap destination : List Char}
      (hc : SpellsCode code source) (hg : IsGap gap) (ht : SpellsText text destination) :
      Written ⟨code, text⟩ (inBrackets source ++ (gap ++ inBrackets destination))

/-- A code within its bound and a text can be written. -/
theorem Single.Listable.exists_written {single : Single} (h : single.Listable) :
    ∃ one, single.Written one := by
  obtain ⟨source, hc⟩ := exists_spellsCode h.code
  obtain ⟨destination, ht⟩ := exists_spellsText h.text
  exact ⟨_, .tokens hc isGap_nil ht⟩

/-- A code in brackets and a destination in brackets are read, whatever follows. -/
theorem single?_tokens {code : Nat} {source gap destination : List Char}
    (hc : SpellsCode code source) (hg : IsGap gap) (hd : IsDestination destination)
    (rest : List Char) :
    single? (inBrackets source ++ (gap ++ inBrackets destination) ++ rest) =
      some ((source, destination), rest) := by
  simp only [ToUnicode.single?, List.append_assoc, hc.source?, skipBlank_inBrackets hg,
    hd.destination?, Option.bind_eq_bind, Option.bind_some, Option.pure_def]

/-- The listing of one code does not begin at a blank. -/
theorem single?_of_isBlank {c : Char} (hc : Blank.isBlank c = true) (rest : List Char) :
    single? (c :: rest) = none := by
  rw [ToUnicode.single?, ToUnicode.source?, bracketed?_of_isBlank hc]
  rfl

/-- A listing of one code is read, whatever follows, and stores the code and the text. -/
theorem Single.Written.single? {single : Single} {one : List Char} (h : single.Written one) :
    ReadAs single? singleEntries one [single.entry] := by
  obtain @⟨code, text, source, gap, destination, hc, hg, ht⟩ := h
  refine ⟨List.cons_ne_nil _ _, (source, destination), ?_,
    single?_tokens hc hg ht.isDestination⟩
  simp only [singleEntries, hc.code?, ht.text?, entry]

/-- The listings of single codes in a row store the codes and the texts. -/
theorem InARow.singleEntries {singles : List Single} {body : List Char}
    (h : InARow Single.Written singles body) :
    (Search.allMatches ToUnicode.single? body).flatMap singleEntries =
      singles.map Single.entry := by
  have hread : ∀ single one, Single.Written single one →
      ReadAs ToUnicode.single? ToUnicode.singleEntries one [single.entry] :=
    fun _ _ => Single.Written.single?
  rw [h.flatMap_allMatches (fun _ rest hc => single?_of_isBlank hc rest) hread,
    ← List.map_eq_flatMap]

/-! ## Ranges -/

/-- The texts of a range of codes. -/
inductive Texts where
  /-- Consecutive texts from one on. -/
  | consecutive (first : String)
  /-- The texts of an array. -/
  | listed (items : List String)

/-- A range of codes and their texts. -/
structure Span where
  /-- The first code. -/
  low : Nat
  /-- The last code. -/
  high : Nat
  /-- The texts. -/
  texts : Texts

/-- The text of a place in a range, if there is one. -/
def Texts.at? (place : Nat) : Texts → Option String
  | consecutive first =>
    some (Utf16.textOf (lastMovedOn place (Utf16.encode first.toList)))
  | listed items => items[place]?

/-- How many codes there are in a range. A range whose last code comes before its first, or is
too far from it, has none. -/
def Span.width (span : Span) : Nat :=
  if span.low ≤ span.high ∧ span.high < span.low + 0x10000 then span.high - span.low + 1 else 0

/-- What the listing of a range stores: each code that has a text, by its place. -/
def Span.entries (span : Span) : List (Nat × String) :=
  (List.range span.width).filterMap fun place =>
    (span.texts.at? place).map fun text => (span.low + place, text)

/-- An item of an array is a text in brackets. -/
inductive WrittenItem : String → List Char → Prop where
  /-- The text is spelled between the brackets. -/
  | token {text : String} {destination : List Char} (ht : SpellsText text destination) :
      WrittenItem text (inBrackets destination)

/-- The texts of a range are the first text in brackets, or an array. -/
inductive Texts.Written : Texts → List Char → Prop where
  /-- The first text in brackets. -/
  | consecutive {first : String} {destination : List Char} (ht : SpellsText first destination) :
      Written (.consecutive first) (inBrackets destination)
  /-- The items of an array in square brackets. -/
  | listed {items : List String} {body : List Char} (hi : InARow WrittenItem items body) :
      Written (.listed items) ('[' :: (body ++ [']']))

/-- The first code, the last code and the texts. -/
inductive Span.Written : Span → List Char → Prop where
  /-- There may be blanks between the three. -/
  | tokens {low high : Nat} {texts : Texts} {first gap last gap' target : List Char}
      (hl : SpellsCode low first) (hg : IsGap gap) (hh : SpellsCode high last) (hg' : IsGap gap')
      (ht : texts.Written target) :
      Written ⟨low, high, texts⟩
        (inBrackets first ++ (gap ++ (inBrackets last ++ (gap' ++ target))))

/-- There are no empty texts in a range. -/
def Texts.Listable : Texts → Prop
  | consecutive first => first ≠ ""
  | listed items => ∀ item ∈ items, item ≠ ""

/-- Both codes are within their bound and there are no empty texts. -/
structure Span.Listable (span : Span) : Prop where
  /-- The first code has at most eight digits. -/
  low : span.low < codeBound
  /-- The last code has at most eight digits. -/
  high : span.high < codeBound
  /-- No text is empty. -/
  texts : span.texts.Listable

/-- Texts that are not empty can be written. -/
theorem Texts.Listable.exists_written {texts : Texts} (h : texts.Listable) :
    ∃ target, texts.Written target := by
  cases texts with
  | consecutive first =>
    obtain ⟨destination, ht⟩ := exists_spellsText h
    exact ⟨_, .consecutive ht⟩
  | listed items =>
    obtain ⟨body, hi⟩ := exists_inARow fun item hm => by
      obtain ⟨destination, ht⟩ := exists_spellsText (h item hm)
      exact ⟨_, WrittenItem.token ht⟩
    exact ⟨_, .listed hi⟩

/-- Codes within their bound and texts that are not empty can be written. -/
theorem Span.Listable.exists_written {span : Span} (h : span.Listable) :
    ∃ one, span.Written one := by
  obtain ⟨first, hl⟩ := exists_spellsCode h.low
  obtain ⟨last, hh⟩ := exists_spellsCode h.high
  obtain ⟨target, ht⟩ := h.texts.exists_written
  exact ⟨_, .tokens hl isGap_nil hh isGap_nil ht⟩

/-- An item of an array is a destination in brackets, whether or not it spells a text. -/
inductive WrittenDestination : List Char → List Char → Prop where
  /-- The destination stands between the brackets. -/
  | token {destination : List Char} (hd : IsDestination destination) :
      WrittenDestination destination (inBrackets destination)

/-- The items of an array are read back. -/
theorem allMatches_destinations {destinations : List (List Char)} {body : List Char}
    (h : InARow WrittenDestination destinations body) :
    Search.allMatches destination? body = destinations := by
  have hread : ∀ destination one, WrittenDestination destination one →
      ReadAs destination? (fun destination => [destination]) one [destination] := by
    rintro destination one ⟨hd⟩
    exact ⟨List.cons_ne_nil _ _, _, rfl, hd.destination?⟩
  have hblank : ∀ c rest, Blank.isBlank c = true → destination? (c :: rest) = none :=
    fun _ rest hc => bracketed?_of_isBlank hc rest
  rw [← List.flatMap_singleton' (Search.allMatches destination? body),
    h.flatMap_allMatches hblank hread, List.flatMap_singleton']

/-- Items of an array do not close it. -/
theorem notMem_destinations {destinations : List (List Char)} {body : List Char}
    (h : InARow WrittenDestination destinations body) : ']' ∉ body := by
  refine h.induct (p := fun text => ']' ∉ text) (fun gap hg hm => ?_) ?_ ?_
  · exact absurd (hg ']' hm) (by decide)
  · rintro _ _ ⟨hd⟩
    have hitem := hd.notMem (c := ']') (by decide) (by decide)
    simp [inBrackets, hitem]
  · exact fun text rest ht hr hm => (List.mem_append.1 hm).elim ht hr

/-- Texts in a row are destinations in a row, which spell them. -/
theorem InARow.exists_destinations {items : List String} {body : List Char}
    (h : InARow WrittenItem items body) :
    ∃ destinations, InARow WrittenDestination destinations body ∧
      destinations.filterMap text? = items := by
  induction h with
  | nil hg => exact ⟨[], .nil hg, rfl⟩
  | cons hg hw _ ih =>
    obtain ⟨ht⟩ := hw
    obtain ⟨destinations, hrow, hitems⟩ := ih
    refine ⟨_ :: destinations, .cons hg (.token ht.isDestination) hrow, ?_⟩
    rw [List.filterMap_cons_some ht.text?, hitems]

/-- The first texts of a list by their places. -/
theorem zipIdx_take_eq {α : Type} (items : List α) (count : Nat) :
    (items.take count).zipIdx =
      (List.range count).filterMap fun place => items[place]?.map fun item => (item, place) := by
  induction count with
  | zero => rfl
  | succ count ih =>
    rw [List.range_succ, List.filterMap_append, ← ih, List.take_add_one, List.zipIdx_append]
    congr 1
    cases hi : items[count]? with
    | none => simp [hi]
    | some item =>
      obtain ⟨hlt, -⟩ := List.getElem?_eq_some_iff.1 hi
      simp [hi, Nat.min_eq_left hlt.le]

/-- The target of a range is read, whatever follows, and gives the texts to their places. -/
structure ReadTarget (texts : Texts) (target : List Char) : Prop where
  /-- It begins with a bracket of either kind. -/
  exists_cons : ∃ c rest, target = c :: rest ∧ Blank.isBlank c = false
  /-- It is read up to its end. -/
  found : ∃ found, (∀ count, (targetTexts count found).zipIdx =
      (List.range count).filterMap fun place =>
        (texts.at? place).map fun text => (text, place)) ∧
    ∀ rest, target? (target ++ rest) = some (found, rest)

/-- An array gives the texts that its items spell to the places from the first on. -/
theorem readTarget_array {destinations : List (List Char)} {body : List Char}
    (h : InARow WrittenDestination destinations body) :
    ReadTarget (.listed (destinations.filterMap text?)) ('[' :: (body ++ [']'])) := by
  refine ⟨⟨'[', _, rfl, by decide⟩, .listed body, fun count => ?_, fun rest => ?_⟩
  · simp only [targetTexts, allMatches_destinations h, zipIdx_take_eq, Texts.at?]
  · have hall : ∀ c ∈ body, (c != ']') = true := fun c hc =>
      bne_iff_ne.2 fun he => notMem_destinations h (he ▸ hc)
    have hnone : destination? ('[' :: (body ++ ']' :: rest)) = none :=
      bracketed?_of_ne (by decide) _
    obtain ⟨htake, hdrop⟩ := span_append (c := ']') hall (by decide) rest
    rw [List.cons_append, List.append_assoc, List.singleton_append, ToUnicode.target?, hnone]
    simp only [hdrop, htake]

/-- The texts of a range are read as they are written. -/
theorem Texts.Written.readTarget {texts : Texts} {target : List Char} (h : texts.Written target) :
    ReadTarget texts target := by
  cases h with
  | @consecutive first destination ht =>
    refine ⟨⟨'<', _, rfl, by decide⟩, .consecutive destination, fun count => ?_, fun rest => ?_⟩
    · have htexts : targetTexts count (.consecutive destination) =
          ((List.range count).map (textAt first)).take count := by
        rw [List.take_of_length_le (by simp)]
        simp only [targetTexts, ht.text?]
      rw [htexts, zipIdx_take_eq]
      refine List.filterMap_congr fun place hp => ?_
      simp [List.mem_range.1 hp, at?, textAt_eq]
    · unfold ToUnicode.target?
      rw [ht.isDestination.destination?]
  | listed hi =>
    obtain ⟨destinations, hrow, rfl⟩ := hi.exists_destinations
    exact readTarget_array hrow

/-- The tokens of a range are read, whatever follows, and store the texts of its places. -/
theorem range?_tokens {low high : Nat} {texts : Texts} {first gap last gap' target : List Char}
    (hl : SpellsCode low first) (hg : IsGap gap) (hh : SpellsCode high last) (hg' : IsGap gap')
    (ht : ReadTarget texts target) :
    ReadAs range? rangeEntries (inBrackets first ++ (gap ++ (inBrackets last ++ (gap' ++ target))))
      (Span.entries ⟨low, high, texts⟩) := by
  obtain ⟨⟨c, after, hc, hblank⟩, found, htexts, hfound⟩ := ht
  refine ⟨List.cons_ne_nil _ _, ⟨first, last, found⟩, ?_, fun rest => ?_⟩
  · have hwidth : (low ≤ high && high - low < rangeBound) = true ↔
        low ≤ high ∧ high < low + 0x10000 := by
      rw [Bool.and_eq_true, decide_eq_true_eq, decide_eq_true_eq, rangeBound]
      omega
    simp only [rangeEntries, hl.code?, hh.code?, Span.entries, Span.width, hwidth]
    split
    · rw [htexts, List.map_filterMap]
      simp only [Option.map_map]
      rfl
    · rfl
  · have hskip : skipBlank (gap' ++ (target ++ rest)) = target ++ rest := by
      rw [hc, List.cons_append, skipBlank_append hg' hblank]
    simp only [ToUnicode.range?, List.append_assoc, hl.source?, skipBlank_inBrackets hg,
      hh.source?, hskip, hfound, Option.bind_eq_bind, Option.bind_some, Option.pure_def]

/-- The listing of a range does not begin at a blank. -/
theorem range?_of_isBlank {c : Char} (hc : Blank.isBlank c = true) (rest : List Char) :
    range? (c :: rest) = none := by
  rw [ToUnicode.range?, ToUnicode.source?, bracketed?_of_isBlank hc]
  rfl

/-- A listing of a range is read, whatever follows, and stores the texts of its places. -/
theorem Span.Written.range? {span : Span} {one : List Char} (h : span.Written one) :
    ReadAs range? rangeEntries one span.entries := by
  obtain ⟨hl, hg, hh, hg', ht⟩ := h
  exact range?_tokens hl hg hh hg' ht.readTarget

/-- The listings of ranges in a row store the texts of their places. -/
theorem InARow.rangeEntries {spans : List Span} {body : List Char}
    (h : InARow Span.Written spans body) :
    (Search.allMatches ToUnicode.range? body).flatMap rangeEntries =
      spans.flatMap Span.entries := by
  exact h.flatMap_allMatches (fun _ rest hc => range?_of_isBlank hc rest)
    fun _ _ => Span.Written.range?

end PageText.Font.ToUnicode
