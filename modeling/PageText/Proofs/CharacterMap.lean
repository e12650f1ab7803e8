import PageText.Proofs.Listing
import PageText.Proofs.Replacement

/-!
# A character map means what it lists

A file lists codes and ranges in sections of two kinds, in any order and with any bytes outside
of the sections that do not open one. Each kind of sections is found although it is searched
for in all of the file: no mark begins in a section of the other kind, nor reaches over the end
of what stands outside. So the map read from a file holds what its sections list.
-/

namespace PageText.Font.ToUnicode

open PageText.Text

/-! ## Marks -/

/-- The characters of listings that are no digits. -/
def isSeparator (c : Char) : Bool := Blank.isBlank c || ['<', '>', '[', ']'].contains c

/-- The two kinds of sections that list text. -/
inductive Kind where
  /-- Sections that list single codes. -/
  | single
  /-- Sections that list ranges of codes. -/
  | range
deriving DecidableEq

namespace Kind

/-- The mark that opens a section. -/
def opening : Kind → List Char
  | single => "beginbfchar".toList
  | range => "beginbfrange".toList

/-- The mark that closes a section. -/
def closing : Kind → List Char
  | single => "endbfchar".toList
  | range => "endbfrange".toList

/-- Both marks of a kind. -/
def marks (kind : Kind) : List (List Char) := [kind.opening, kind.closing]

variable (kind other : Kind)

/-- An opening mark begins with the same letter for both kinds. -/
theorem head?_opening : kind.opening.head? = some 'b' := by
  cases kind <;> decide

/-- Opening marks are ASCII. -/
theorem isAscii_opening : ∀ c ∈ kind.opening, Utf8.IsAscii c := by
  have hall : kind.opening.all (fun c => 0 < c.toNat && c.toNat < 0x80) = true := by
    cases kind <;> decide
  intro c hc
  have hascii := List.all_eq_true.1 hall c hc
  rwa [Bool.and_eq_true, decide_eq_true_eq, decide_eq_true_eq] at hascii

/-- Marks have the letter n, which is no digit, and nothing of what listings have besides
digits. -/
theorem of_mem_marks {mark : List Char} (hm : mark ∈ kind.marks) :
    'n' ∈ mark ∧ ∀ c ∈ mark, isSeparator c = false := by
  have hall : kind.marks.all (fun mark => mark.contains 'n' && mark.all (!isSeparator ·)) =
      true := by
    cases kind <;> decide
  have hmark := List.all_eq_true.1 hall mark hm
  rw [Bool.and_eq_true, List.contains_iff_mem, List.all_eq_true] at hmark
  exact ⟨hmark.1, fun c hc => Bool.not_eq_true' _ ▸ hmark.2 c hc⟩

/-- No opening mark begins in a closing one. -/
theorem opening_apart_closing : Search.Apart kind.opening other.closing := by
  cases kind <;> cases other <;> decide

/-- No opening mark begins in another one. -/
theorem opening_apart_opening (hne : other ≠ kind) :
    Search.Apart kind.opening other.opening := by
  cases kind <;> cases other <;> first | exact absurd rfl hne | decide

/-- No opening mark ends within the beginning of an opening mark. -/
theorem opening_apart_tail : Search.Apart other.opening kind.opening.tail := by
  cases kind <;> cases other <;> decide

end Kind

/-! ## Bodies of sections -/

/-- No mark begins in the text. -/
def Clear (text : List Char) : Prop :=
  ∀ kind : Kind, ∀ mark ∈ kind.marks, Search.Apart mark text

/-- Texts in which no mark begins may be joined. -/
theorem Clear.append {text rest : List Char} (h : Clear text) (hr : Clear rest) :
    Clear (text ++ rest) := fun kind mark hm => (h kind mark hm).append (hr kind mark hm)

/-- No mark begins among characters that marks do not have. -/
theorem clear_of_forall {text : List Char} (h : ∀ c ∈ text, isSeparator c = true) :
    Clear text := by
  intro kind mark hm
  obtain ⟨hn, hmark⟩ := kind.of_mem_marks hm
  refine .of_notMem (List.ne_nil_of_mem hn) fun c hc hcm => ?_
  exact Bool.false_ne_true ((hmark c hcm).symm.trans (h c hc))

/-- No mark begins in blanks. -/
theorem IsGap.clear {gap : List Char} (hg : IsGap gap) : Clear gap :=
  clear_of_forall fun c hc => by rw [isSeparator, hg c hc, Bool.true_or]

/-- No mark begins in a token, although some of their letters are digits. -/
theorem clear_inBrackets {body : List Char} (hbody : 'n' ∉ body) : Clear (inBrackets body) := by
  intro kind mark hm
  obtain ⟨hn, hmark⟩ := kind.of_mem_marks hm
  have hend : '>' ∉ mark := fun hc => absurd (hmark '>' hc) (by decide)
  have hlacks : 'n' ∉ ('<' :: body) ++ ['>'] := by
    simp [hbody]
  exact .of_concat hend hn hlacks

/-- No mark begins in a code. -/
theorem SpellsCode.clear {code : Nat} {source : List Char} (h : SpellsCode code source) :
    Clear (inBrackets source) :=
  clear_inBrackets fun hm => absurd (h.isHex 'n' hm) (by decide)

/-- No mark begins in a destination. -/
theorem IsDestination.clear {destination : List Char} (h : IsDestination destination) :
    Clear (inBrackets destination) :=
  clear_inBrackets (h.notMem (by decide) (by decide))

/-- No mark begins in listings in a row if none begins in a listing. -/
theorem InARow.clear {α : Type} {written : α → List Char → Prop} {listings : List α}
    {text : List Char} (h : InARow written listings text)
    (hone : ∀ listing one, written listing one → Clear one) : Clear text :=
  h.induct (fun _ hg => hg.clear) hone fun _ _ => Clear.append

/-- No mark begins in the listing of one code. -/
theorem Single.Written.clear {single : Single} {one : List Char} (h : single.Written one) :
    Clear one := by
  obtain ⟨hc, hg, ht⟩ := h
  exact hc.clear.append (hg.clear.append ht.isDestination.clear)

/-- No mark begins in an array. -/
theorem clear_array {destinations : List (List Char)} {body : List Char}
    (h : InARow WrittenDestination destinations body) : Clear ('[' :: (body ++ [']'])) := by
  have hbracket {c : Char} (hc : isSeparator c = true) : Clear [c] :=
    clear_of_forall (List.forall_mem_singleton.2 hc)
  have hitems : Clear body := h.clear fun _ _ ⟨hd⟩ => hd.clear
  exact (hbracket (c := '[') (by decide)).append (hitems.append (hbracket (by decide)))

/-- No mark begins in the texts of a range. -/
theorem Texts.Written.clear {texts : Texts} {target : List Char} (h : texts.Written target) :
    Clear target := by
  cases h with
  | consecutive ht => exact ht.isDestination.clear
  | listed hi =>
    obtain ⟨destinations, hrow, -⟩ := hi.exists_destinations
    exact clear_array hrow

/-- No mark begins in the listing of a range. -/
theorem Span.Written.clear {span : Span} {one : List Char} (h : span.Written one) :
    Clear one := by
  obtain ⟨hl, hg, hh, hg', ht⟩ := h
  exact hl.clear.append (hg.clear.append (hh.clear.append (hg'.clear.append ht.clear)))

/-! ## Sections of a file -/

/-- Bytes that do not open a section. A closing mark among them has nothing to close. -/
def IsOutside (outside : List UInt8) : Prop :=
  ∀ kind : Kind, ¬Utf8.encode kind.opening <:+: outside

/-- Bytes that hold sections with the given bodies, in this order and with others outside. -/
inductive Holds : List (Kind × List Char) → List UInt8 → Prop where
  /-- Bytes outside of sections hold none. -/
  | nil {outside : List UInt8} (ho : IsOutside outside) : Holds [] outside
  /-- Bytes outside of sections, a section between its marks, and what comes after it. -/
  | cons {outside rest : List UInt8} {kind : Kind} {body : List Char}
      {bodies : List (Kind × List Char)} (ho : IsOutside outside) (hr : Holds bodies rest) :
      Holds ((kind, body) :: bodies)
        (outside ++ (Utf8.encode (kind.opening ++ (body ++ kind.closing)) ++ rest))

/-- No section is opened in the text of bytes that do not open one. -/
theorem IsOutside.not_occurs {outside : List UInt8} (ho : IsOutside outside) (kind : Kind) :
    ¬kind.opening <:+: Utf8.decodeLossy outside := fun hi =>
  have hne : kind.opening ≠ [] :=
    List.ne_nil_of_mem (kind.of_mem_marks List.mem_cons_self).1
  ho kind (Utf8.encode_occurs kind.isAscii_opening hne Utf8.proper_none hi)

/-- A section of the kind that is searched for is found behind text that does not open one. -/
theorem sections_own {kind : Kind} {outside body : List Char}
    (ho : ¬kind.opening <:+: outside) (hbody : Clear body) (rest : List Char) :
    Search.sections kind.opening kind.closing
        (outside ++ (kind.opening ++ (body ++ (kind.closing ++ rest)))) =
      body :: Search.sections kind.opening kind.closing rest := by
  have hclosing : kind.closing ∈ kind.marks := List.mem_cons_of_mem _ List.mem_cons_self
  have hne {mark : List Char} (hm : mark ∈ kind.marks) : mark ≠ [] :=
    List.ne_nil_of_mem (kind.of_mem_marks hm).1
  have hopen := Search.breakOn?_append_of_free ho (kind.opening_apart_tail kind)
    (body ++ (kind.closing ++ rest))
  have hclose := (hbody kind _ hclosing).breakOn?_append (kind.closing ++ rest)
  rw [Search.breakOn?_mark (hne List.mem_cons_self), Option.map_some] at hopen
  rw [Search.breakOn?_mark (hne hclosing), Option.map_some] at hclose
  rw [Search.sections_of_found hopen hclose, List.append_nil]

/-- A section of the other kind is passed over with all that stands before it. -/
theorem sections_other {kind other : Kind} (hk : other ≠ kind) {outside body : List Char}
    (ho : ¬kind.opening <:+: outside) (hbody : Clear body) (rest : List Char) :
    Search.sections kind.opening kind.closing
        (outside ++ (other.opening ++ (body ++ (other.closing ++ rest)))) =
      Search.sections kind.opening kind.closing rest := by
  have hopen := Search.breakOn?_append_of_free ho (kind.opening_apart_tail other)
    (body ++ (other.closing ++ rest))
  rw [Search.sections_append hopen,
    Search.sections_append ((kind.opening_apart_opening other hk).breakOn?_append _),
    Search.sections_append ((hbody kind _ List.mem_cons_self).breakOn?_append _),
    Search.sections_append ((kind.opening_apart_closing other).breakOn?_append _)]

/-- The sections of a kind are found in all of a file, in order, if no mark begins in any
body. -/
theorem Holds.sections {bodies : List (Kind × List Char)} {bytes : List UInt8}
    (h : Holds bodies bytes) (hclear : ∀ body ∈ bodies, Clear body.2) (kind : Kind) :
    Search.sections kind.opening kind.closing (Utf8.decodeLossy bytes) =
      (bodies.filter fun body => body.1 = kind).map Prod.snd := by
  induction h with
  | nil ho => exact Search.sections_of_none (Search.breakOn?_eq_none (ho.not_occurs kind))
  | @cons outside rest other body bodies ho _ ih =>
    obtain ⟨hbody, hbodies⟩ := List.forall_mem_cons.1 hclear
    have hhead : (other.opening ++ (body ++ other.closing)).head? = some 'b' := by
      rw [List.head?_append, other.head?_opening, Option.some_or]
    rw [Utf8.decodeLossy_append_encode hhead (by decide), List.append_assoc, List.append_assoc]
    by_cases hk : other = kind
    · subst hk
      rw [sections_own (ho.not_occurs other) hbody, ih hbodies,
        List.filter_cons_of_pos (by simp), List.map_cons]
    · rw [sections_other hk (ho.not_occurs kind) hbody, ih hbodies,
        List.filter_cons_of_neg (by simpa using hk)]

/-- A file may be one section and nothing else. -/
theorem holds_section (kind : Kind) (body : List Char) :
    Holds [(kind, body)] (Utf8.encode (kind.opening ++ (body ++ kind.closing))) := by
  have hnothing : IsOutside [] := fun kind => by cases kind <;> decide
  have hholds := @Holds.cons [] [] kind body [] hnothing (.nil hnothing)
  rwa [List.nil_append, List.append_nil] at hholds

/-! ## Maps -/

/-- What a section lists. -/
inductive Section where
  /-- Single codes. -/
  | singles (listings : List Single)
  /-- Ranges of codes. -/
  | ranges (listings : List Span)

namespace Section

/-- The single codes that a section lists. -/
def singleListings : Section → List Single
  | singles listings => listings
  | ranges _ => []

/-- The ranges that a section lists. -/
def rangeListings : Section → List Span
  | singles _ => []
  | ranges listings => listings

/-- The listings of a section stand in a row in its body. -/
inductive Written : Section → Kind × List Char → Prop where
  /-- Single codes have sections of their own. -/
  | singles {listings : List Single} {body : List Char}
      (h : InARow Single.Written listings body) : Written (.singles listings) (.single, body)
  /-- Ranges have sections of their own. -/
  | ranges {listings : List Span} {body : List Char}
      (h : InARow Span.Written listings body) : Written (.ranges listings) (.range, body)

/-- Everything in the section can be listed. -/
def Listable : Section → Prop
  | singles listings => ∀ listing ∈ listings, listing.Listable
  | ranges listings => ∀ listing ∈ listings, listing.Listable

/-- What can be listed can be written as the body of a section. -/
theorem Listable.exists_written {part : Section} (h : part.Listable) :
    ∃ body, part.Written body := by
  cases part with
  | singles listings =>
    obtain ⟨body, hb⟩ := exists_inARow fun listing hm => (h listing hm).exists_written
    exact ⟨_, .singles hb⟩
  | ranges listings =>
    obtain ⟨body, hb⟩ := exists_inARow fun listing hm => (h listing hm).exists_written
    exact ⟨_, .ranges hb⟩

/-- No mark begins in the body of a section. -/
theorem Written.clear {part : Section} {body : Kind × List Char} (h : part.Written body) :
    Clear body.2 := by
  cases h with
  | singles h => exact h.clear fun _ _ => Single.Written.clear
  | ranges h => exact h.clear fun _ _ => Span.Written.clear

end Section

/-- Bytes in which sections are written one after the other. -/
def Written (parts : List Section) (bytes : List UInt8) : Prop :=
  ∃ bodies, List.Forall₂ Section.Written parts bodies ∧ Holds bodies bytes

/-- What sections store: the single codes of all sections, and after them the ranges of all
sections, each in the order of the file. -/
def stored (parts : List Section) : List (Nat × String) :=
  (parts.flatMap Section.singleListings).map Single.entry ++
    (parts.flatMap Section.rangeListings).flatMap Span.entries

/-- Everything that can be listed can be written, in sections as they are given. -/
theorem exists_written {parts : List Section} (h : ∀ part ∈ parts, part.Listable) :
    ∃ bytes, Written parts bytes := by
  have hnothing : IsOutside [] := fun kind => by cases kind <;> decide
  induction parts with
  | nil => exact ⟨[], [], .nil, .nil hnothing⟩
  | cons part parts ih =>
    obtain ⟨hpart, hparts⟩ := List.forall_mem_cons.1 h
    obtain ⟨⟨kind, body⟩, hbody⟩ := hpart.exists_written
    obtain ⟨bytes, bodies, hbodies, hholds⟩ := ih hparts
    exact ⟨_, (kind, body) :: bodies, .cons hbody hbodies, .cons hnothing hholds⟩

/-- What is read from the bodies of one kind is what their sections list, if each of them is
read as what its section lists, and the other sections list nothing of that kind. -/
theorem flatMap_bodies {γ : Type} {parts : List Section} {bodies : List (Kind × List Char)}
    (h : List.Forall₂ Section.Written parts bodies) {kind : Kind} {read : List Char → List γ}
    {listed : Section → List γ}
    (hown : ∀ part body, part.Written (kind, body) → read body = listed part)
    (hother : ∀ part other body, other ≠ kind → part.Written (other, body) →
      listed part = []) :
    ((bodies.filter fun body => body.1 = kind).map Prod.snd).flatMap read =
      parts.flatMap listed := by
  induction h with
  | nil => rfl
  | @cons part body parts bodies hw _ ih =>
    obtain ⟨other, body⟩ := body
    by_cases hk : other = kind
    · subst hk
      rw [List.filter_cons_of_pos (by simp), List.map_cons, List.flatMap_cons, List.flatMap_cons,
        hown part body hw, ih]
    · rw [List.filter_cons_of_neg (by simpa using hk), List.flatMap_cons,
        hother part other body hk hw, List.nil_append, ih]

/-- No mark begins in the bodies of sections. -/
theorem clear_of_written {parts : List Section} {bodies : List (Kind × List Char)}
    (h : List.Forall₂ Section.Written parts bodies) : ∀ body ∈ bodies, Clear body.2 := by
  induction h with
  | nil => exact fun _ hm => nomatch hm
  | cons hw _ ih => exact List.forall_mem_cons.2 ⟨hw.clear, ih⟩

/-- What is read from a file is what is read from its sections: the single codes of all of them,
and after them the ranges of all of them. -/
theorem entries_of_holds {bodies : List (Kind × List Char)} {bytes : List UInt8}
    (h : Holds bodies bytes) (hclear : ∀ body ∈ bodies, Clear body.2) :
    entries (Utf8.decodeLossy bytes) =
      ((bodies.filter fun body => body.1 = .single).map Prod.snd).flatMap
          (fun body => (Search.allMatches single? body).flatMap singleEntries) ++
        ((bodies.filter fun body => body.1 = .range).map Prod.snd).flatMap
          (fun body => (Search.allMatches range? body).flatMap rangeEntries) := by
  have hsingles : Search.sections "beginbfchar".toList "endbfchar".toList
      (Utf8.decodeLossy bytes) = _ := h.sections hclear .single
  have hranges : Search.sections "beginbfrange".toList "endbfrange".toList
      (Utf8.decodeLossy bytes) = _ := h.sections hclear .range
  rw [entries, listings, listings, hsingles, hranges, List.flatMap_assoc, List.flatMap_assoc]

/-- What is read from a file is what its sections store. -/
theorem entries_of_written {parts : List Section} {bytes : List UInt8} (h : Written parts bytes) :
    entries (Utf8.decodeLossy bytes) = stored parts := by
  obtain ⟨bodies, hw, hb⟩ := h
  have hreadSingles : ((bodies.filter fun body => body.1 = .single).map Prod.snd).flatMap
      (fun body => (Search.allMatches single? body).flatMap singleEntries) =
        parts.flatMap fun part => part.singleListings.map Single.entry := by
    refine flatMap_bodies hw (fun part body hp => ?_) fun part other body hk hp => ?_
    · cases hp with
      | singles hp => exact hp.singleEntries
    · cases hp with
      | singles => exact absurd rfl hk
      | ranges => rfl
  have hreadRanges : ((bodies.filter fun body => body.1 = .range).map Prod.snd).flatMap
      (fun body => (Search.allMatches range? body).flatMap rangeEntries) =
        parts.flatMap fun part => part.rangeListings.flatMap Span.entries := by
    refine flatMap_bodies hw (fun part body hp => ?_) fun part other body hk hp => ?_
    · cases hp with
      | ranges hp => exact hp.rangeEntries
    · cases hp with
      | singles => rfl
      | ranges => exact absurd rfl hk
  rw [entries_of_holds hb (clear_of_written hw), hreadSingles, hreadRanges, stored,
    List.map_flatMap, List.flatMap_assoc]

/-- The text of a code is the last one that is stored for it. -/
theorem getElem?_ofEntries (entries : List (Nat × String)) (code : Nat) :
    (ofEntries entries)[code]? =
      (entries.reverse.find? fun entry => entry.1 = code).map Prod.snd := by
  rw [ofEntries]
  induction entries using List.reverseRecOn with
  | nil => exact Std.TreeMap.getElem?_emptyc
  | append_singleton entries entry ih =>
    rw [List.foldl_append, List.foldl_cons, List.foldl_nil, Std.TreeMap.getElem?_insert, ih,
      List.reverse_append, List.reverse_singleton, List.singleton_append, List.find?_cons]
    by_cases hc : entry.1 = code
    · rw [if_pos (Std.LawfulEqCmp.compare_eq_iff_eq.2 hc), decide_eq_true hc]
      rfl
    · rw [if_neg fun he => hc (Std.LawfulEqCmp.compare_eq_iff_eq.1 he), decide_eq_false hc]

/-- A character map means what it lists. Sections that list codes within their bounds and texts
that are not empty can be written. Read from any bytes in which sections are written, the map is
the empty one with the single codes of all sections stored in it, in the order of the file, and
after them the ranges of all sections. So the text of a code is the last one stored for it. -/
theorem ofBytes_written (parts : List Section) :
    ((∀ part ∈ parts, part.Listable) → ∃ bytes, Written parts bytes) ∧
    ∀ bytes, Written parts bytes →
      ofBytes bytes = (stored parts).foldl (fun map entry => map.insert entry.1 entry.2) ∅ ∧
      ∀ code, (ofBytes bytes)[code]? =
        ((stored parts).reverse.find? fun entry => entry.1 = code).map Prod.snd := by
  refine ⟨exists_written, fun bytes h => ?_⟩
  have hmap : ofBytes bytes = ofEntries (stored parts) := by
    rw [ofBytes, entries_of_written h]
  exact ⟨hmap, fun code => by rw [hmap, getElem?_ofEntries]⟩

/-- A file with a section of each kind. -/
def letterFile : List UInt8 :=
  Utf8.encode "2 beginbfchar <3> <0041> endbfchar\nbeginbfrange <20> <22><00 42> endbfrange".toList

/-- What the file lists. -/
def letterParts : List Section :=
  [.singles [⟨3, "A"⟩], .ranges [⟨0x20, 0x22, .consecutive "B"⟩]]

/-- The letters are written in the file. -/
theorem letterFile_written : Written letterParts letterFile := by
  have hgap : IsGap [' '] := List.forall_mem_singleton.2 (by decide)
  have hA : SpellsText "A" "0041".toList :=
    ⟨by decide, [⟨0, false⟩, ⟨0, false⟩, ⟨4, false⟩, ⟨1, false⟩], .cons rfl .nil, by decide⟩
  have hB : SpellsText "B" "00 42".toList :=
    ⟨by decide, [⟨0, false⟩, ⟨0, false⟩, ⟨4, false⟩, ⟨2, false⟩], .cons rfl .nil, by decide⟩
  have h3 : SpellsCode 3 "3".toList := @SpellsCode.digits [⟨3, false⟩] (by decide) (by decide)
  have h20 : SpellsCode 0x20 "20".toList :=
    @SpellsCode.digits [⟨2, false⟩, ⟨0, false⟩] (by decide) (by decide)
  have h22 : SpellsCode 0x22 "22".toList :=
    @SpellsCode.digits [⟨2, false⟩, ⟨2, false⟩] (by decide) (by decide)
  have hsingle := InARow.cons hgap (Single.Written.tokens h3 hgap hA) (.nil hgap)
  have hrange := InARow.cons hgap
    (Span.Written.tokens h20 hgap h22 isGap_nil (.consecutive hB)) (.nil hgap)
  have htwo : IsOutside (Utf8.encode "2 ".toList) := fun kind => by cases kind <;> decide
  have hline : IsOutside (Utf8.encode "\n".toList) := fun kind => by cases kind <;> decide
  have hend : IsOutside [] := fun kind => by cases kind <;> decide
  have hfile : letterFile = Utf8.encode "2 ".toList ++
      (Utf8.encode (Kind.single.opening ++ (" <3> <0041> ".toList ++ Kind.single.closing)) ++
        (Utf8.encode "\n".toList ++ (Utf8.encode (Kind.range.opening ++
          (" <20> <22><00 42> ".toList ++ Kind.range.closing)) ++ []))) := by
    simp only [letterFile, Utf8.encode, ← List.flatMap_append, List.append_nil]
    exact congrArg (List.flatMap Utf8.encodeChar) (by decide)
  rw [hfile]
  exact ⟨_, .cons (.singles hsingle) (.cons (.ranges hrange) .nil),
    .cons htwo (.cons hline (.nil hend))⟩

/-- What the file lists can be listed. -/
theorem letterParts_listable : ∀ part ∈ letterParts, part.Listable := by
  have hA : Section.Listable (.singles [⟨3, "A"⟩]) :=
    List.forall_mem_singleton.2 ⟨by decide, by decide⟩
  have hB : Section.Listable (.ranges [⟨0x20, 0x22, .consecutive "B"⟩]) :=
    List.forall_mem_singleton.2 ⟨by decide, by decide, show "B" ≠ "" by decide⟩
  exact List.forall_mem_cons.2 ⟨hA, List.forall_mem_singleton.2 hB⟩

/-- A range of three codes ends two letters after its first text. -/
theorem ofBytes_written_letters :
    (∀ part ∈ letterParts, part.Listable) ∧ (∃ bytes, Written letterParts bytes) ∧
      Written letterParts letterFile ∧ (ofBytes letterFile)[0x22]? = some "D" := by
  obtain ⟨hexists, hmeans⟩ := ofBytes_written letterParts
  obtain ⟨-, htext⟩ := hmeans letterFile letterFile_written
  exact ⟨letterParts_listable, hexists letterParts_listable, letterFile_written,
    (htext 0x22).trans (by decide)⟩

end PageText.Font.ToUnicode
