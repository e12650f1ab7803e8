import PageText.Proofs.InlineImage
import PageText.Proofs.Word

/-!
# What is read can be written

Reading an operand off any bytes at all gives an object that page content can hold: its
numbers are those of numerals, its keys are distinct, and it nests no deeper than one operand
may. So the objects that can be read are exactly those that can be written. The operands of an
operation are such objects as well, except that the dictionary of an inline image is only put
together from such objects, and so may nest one level deeper than any operand.
-/

namespace PageText

namespace Number.Numeral

/-- With a point behind its digits a numeral without one rounds to the same. -/
theorem exists_fraction {n : Numeral} {word : List UInt8} (h : n.SpelledBy word) {x : Float}
    (hx : n.RoundsTo x) : ∃ (m : Numeral) (other : List UInt8),
      m.fraction ≠ none ∧ m.SpelledBy other ∧ m.RoundsTo x := by
  obtain ⟨negative, whole, fraction⟩ := n
  cases fraction with
  | some fraction => exact ⟨_, word, Option.some_ne_none fraction, h, hx⟩
  | none =>
    obtain ⟨⟨hwhole, -, hne⟩, sign, hsign, -⟩ := h
    have hproper : Proper ⟨negative, whole, some []⟩ := ⟨hwhole, List.forall_mem_nil _, hne⟩
    exact ⟨⟨negative, whole, some []⟩, _, Option.some_ne_none [], ⟨hproper, sign, hsign, rfl⟩,
      hx.nearest, hx.sign⟩

end Number.Numeral

namespace Token

/-- A word that is no keyword means something that can be written. -/
theorem Means.writable {word : List UInt8} {token : Token} (h : Means word token) :
    token = .keyword word ∨ token.lexeme.Writable := by
  cases h with
  | int _ _ hl => exact Or.inr hl
  | @real n x hn _ hx =>
    obtain ⟨m, other, hm, hspelled, hvalue⟩ := Number.Numeral.exists_fraction hn hx
    exact Or.inr ⟨m, other, hm, hspelled, hvalue⟩
  | bool value _ => exact Or.inr trivial
  | null _ => exact Or.inr trivial
  | keyword _ _ => exact Or.inl rfl

/-- A token that is no keyword means something that can be written. -/
theorem writable_of_readAt? {b : UInt8} {bytes rest : List UInt8} {token : Token}
    (h : readAt? b bytes = some (token, rest)) :
    (∃ word, token = .keyword word) ∨ token.lexeme.Writable := by
  unfold readAt? at h
  cases role : Byte.role b <;> simp only [role] at h
  case regular =>
    cases h
    exact (means_ofWord _).writable.imp_left fun h => ⟨_, h⟩
  case brace =>
    cases h
    exact Or.inl ⟨_, rfl⟩
  case slash | squareOpen | squareClose =>
    cases h
    exact Or.inr trivial
  case parenOpen =>
    obtain ⟨_, -, rfl, rfl⟩ := by simpa using h
    exact Or.inr trivial
  case angleOpen =>
    split at h
    · cases h
      exact Or.inr trivial
    · obtain ⟨_, -, rfl, rfl⟩ := by simpa using h
      exact Or.inr trivial
  case angleClose =>
    split at h
    · cases h
      exact Or.inr trivial
    · cases h
  case blank | percent | parenClose => cases h

end Token

namespace Dict

/-- The entries that a dictionary in page content can hold, with values that nest at most
`depth` deep. -/
structure Writable (depth : Nat) (entries : Dict) : Prop where
  /-- No key occurs twice. -/
  nodup : (entries.map Prod.fst).Nodup
  /-- The values can be written. -/
  values : ∀ entry ∈ entries, entry.2.Writable depth

/-- There may be no entries. -/
theorem writable_nil {depth : Nat} : Writable depth [] :=
  ⟨List.nodup_nil, List.forall_mem_nil _⟩

/-- Only the key that is set can be new. -/
theorem eq_or_mem_of_mem_insert {entries : Dict} {key : String} {value : Object}
    {entry : String × Object} (h : entry ∈ entries.insert key value) :
    entry = (key, value) ∨ entry ∈ entries := by
  induction entries with
  | nil => exact Or.inl (List.mem_singleton.1 h)
  | cons first entries ih =>
    rw [insert] at h
    split at h
    · rcases List.mem_cons.1 h with rfl | h
      · exact Or.inl rfl
      · exact Or.inr (List.mem_cons_of_mem _ h)
    · rcases List.mem_cons.1 h with rfl | h
      · exact Or.inr List.mem_cons_self
      · exact (ih h).imp_right (List.mem_cons_of_mem _)

/-- Setting a key leaves the keys distinct. -/
theorem nodup_insert {entries : Dict} (h : (entries.map Prod.fst).Nodup) (key : String)
    (value : Object) : ((entries.insert key value).map Prod.fst).Nodup := by
  induction entries with
  | nil => exact List.nodup_singleton key
  | cons first entries ih =>
    obtain ⟨hfirst, hentries⟩ := List.nodup_cons.1 h
    rw [insert]
    split
    · rename_i hkey
      rw [List.map_cons, ← hkey]
      exact List.nodup_cons.2 ⟨hfirst, hentries⟩
    · rename_i hkey
      rw [List.map_cons, List.nodup_cons]
      refine ⟨fun hmem => ?_, ih hentries⟩
      obtain ⟨entry, hentry, hsame⟩ := List.mem_map.1 hmem
      rcases eq_or_mem_of_mem_insert hentry with rfl | hentry
      · exact hkey hsame.symm
      · exact hfirst (hsame ▸ List.mem_map_of_mem hentry)

/-- Entries stay writable when a key is set. -/
theorem Writable.insert {depth : Nat} {entries : Dict} (h : entries.Writable depth)
    (key : String) {value : Object} (hv : value.Writable depth) :
    (entries.insert key value).Writable depth := by
  refine ⟨nodup_insert h.nodup key value, fun entry hentry => ?_⟩
  rcases eq_or_mem_of_mem_insert hentry with rfl | hentry
  · exact hv
  · exact h.values entry hentry

end Dict

/-- What an open container holds can be written, nested at most `depth` deep. -/
def Frame.Writable (depth : Nat) : Frame → Prop
  | .array items => ∀ item ∈ items, item.Writable depth
  | .dict entries => entries.Writable depth
  | .entry entries _ => entries.Writable depth

namespace Operand

/-- Open containers in which `depth` more may be opened, each inside the one before it. What
they hold can be written there. -/
inductive Fits : Nat → List Frame → Prop where
  /-- No container is open. -/
  | nil : Fits maxNesting []
  /-- One more container is open. -/
  | cons {depth : Nat} {frame : Frame} {outer : List Frame} (hf : frame.Writable depth)
      (ho : Fits (depth + 1) outer) : Fits depth (frame :: outer)

/-- The open containers and those that may still be opened make up the limit. -/
theorem Fits.length_add {depth : Nat} {frames : List Frame} (h : Fits depth frames) :
    frames.length + depth = maxNesting := by
  induction h with
  | nil => exact Nat.zero_add maxNesting
  | cons _ _ ih =>
    rw [List.length_cons]
    omega

/-- A finished operand can be written, and an unfinished one has open containers that fit. -/
def KeepsFit : Progress → Prop
  | .refused => True
  | .complete object => object.Writable maxNesting
  | .more frames => ∃ depth, Fits depth frames

/-- An object that fits may be handed over. -/
theorem Fits.give {depth : Nat} {frames : List Frame} (h : Fits depth frames) {object : Object}
    (ho : object.Writable depth) : KeepsFit (give frames object) := by
  cases h with
  | nil => exact ho
  | @cons _ frame outer hf houter =>
    cases frame with
    | array items =>
      exact ⟨depth, .cons (List.forall_mem_append.2 ⟨hf, List.forall_mem_singleton.2 ho⟩) houter⟩
    | dict entries => exact trivial
    | entry entries key => exact ⟨depth, .cons (hf.insert key ho) houter⟩

/-- A name that becomes a key leaves the values as they are. -/
theorem Fits.giveName {depth : Nat} {frames : List Frame} (h : Fits depth frames)
    (text : String) : KeepsFit (giveName frames text) := by
  have hvalue := h.give (.name text)
  cases h with
  | nil => exact hvalue
  | @cons _ frame outer hf houter =>
    cases frame with
    | array items => exact hvalue
    | dict entries => exact ⟨depth, .cons hf houter⟩
    | entry entries key => exact hvalue

/-- An empty container is opened only where its depth is left. -/
theorem Fits.push {depth : Nat} {frames : List Frame} (h : Fits depth frames) {frame : Frame}
    (hf : ∀ depth, frame.Writable depth) : KeepsFit (push frame frames) := by
  have hroom := h.length_add
  have hopened : KeepsFit
      (if frames.length < maxNesting then .more (frame :: frames) else .refused) := by
    split
    · obtain ⟨left, rfl⟩ : ∃ left, depth = left + 1 := ⟨depth - 1, by omega⟩
      exact ⟨left, .cons (hf left) h⟩
    · exact trivial
  cases frames with
  | nil => exact hopened
  | cons inner outer =>
    cases inner with
    | array items => exact hopened
    | dict entries => exact trivial
    | entry entries key => exact hopened

/-- An array that is closed is one level deeper than its items. -/
theorem Fits.closeArray {depth : Nat} {frames : List Frame} (h : Fits depth frames) :
    KeepsFit (closeArray frames) := by
  cases h with
  | nil => exact trivial
  | @cons _ frame outer hf houter =>
    cases frame with
    | array items => exact houter.give (.array hf)
    | dict entries => exact trivial
    | entry entries key => exact trivial

/-- A dictionary that is closed is one level deeper than its values. -/
theorem Fits.closeDict {depth : Nat} {frames : List Frame} (h : Fits depth frames) :
    KeepsFit (closeDict frames) := by
  cases h with
  | nil => exact trivial
  | @cons _ frame outer hf houter =>
    cases frame with
    | array items => exact trivial
    | dict entries => exact houter.give (.dict hf.nodup hf.values)
    | entry entries key => exact trivial

/-- Each token that means something writable keeps what has been read so; there is one case
for each meaning. -/
theorem Fits.stepLexeme {depth : Nat} {frames : List Frame} (h : Fits depth frames)
    {lexeme : Lexeme} (hl : lexeme.Writable) : KeepsFit (stepLexeme frames lexeme) := by
  cases lexeme with
  | null => exact h.give .null
  | bool value => exact h.give (.bool value)
  | int value => exact h.give (.int hl)
  | real value =>
    obtain ⟨n, word, hn, hw, hx⟩ := hl
    exact h.give (.real hn hw hx)
  | str bytes => exact h.give (.str bytes)
  | name text => exact h.giveName text
  | arrayOpen => exact h.push fun _ => List.forall_mem_nil _
  | arrayClose => exact h.closeArray
  | dictOpen => exact h.push fun _ => Dict.writable_nil
  | dictClose => exact h.closeDict
  | operator mnemonic => exact trivial

/-- Each token that is read keeps what has been read writable. -/
theorem Fits.step {depth : Nat} {frames : List Frame} (h : Fits depth frames)
    {bytes rest : List UInt8} {token : Token} (hr : Token.read? bytes = some (token, rest)) :
    KeepsFit (step frames token) := by
  obtain ⟨b, tail, -, hat⟩ := Token.exists_of_read? hr
  rcases Token.writable_of_readAt? hat with ⟨word, rfl⟩ | hl
  · exact trivial
  · rw [step_eq]
    exact h.stepLexeme hl

/-- Whatever is finished from open containers that fit can be written. -/
theorem Fits.writable_of_finish? {depth : Nat} {frames : List Frame} (h : Fits depth frames)
    {bytes rest : List UInt8} {object : Object}
    (hf : finish? frames bytes = some (object, rest)) : object.Writable maxNesting := by
  fun_induction finish? frames bytes generalizing depth with
  | case1 => cases hf
  | case2 => cases hf
  | case3 frames bytes token after hread object' hstep =>
    have hkeeps := h.step hread
    rw [hstep] at hkeeps
    cases hf
    exact hkeeps
  | case4 frames bytes token after hread frames' hstep ih =>
    have hkeeps := h.step hread
    rw [hstep] at hkeeps
    obtain ⟨left, hleft⟩ := hkeeps
    exact ih hleft hf

/-- Every object that is read, off any bytes, can be written. -/
theorem writable_of_read? {bytes rest : List UInt8} {object : Object}
    (h : read? bytes = some (object, rest)) : object.Writable maxNesting :=
  Fits.nil.writable_of_finish? h

/-- The objects that can be read are those that can be written. -/
theorem exists_read?_iff (object : Object) :
    (∃ bytes rest, read? bytes = some (object, rest)) ↔ object.Writable maxNesting := by
  constructor
  · rintro ⟨bytes, rest, h⟩
    exact writable_of_read? h
  · intro h
    obtain ⟨bytes, hw⟩ := Lexeme.Written.exists_written h.lexemes
    obtain ⟨gap, -, hread⟩ := read?_written h hw []
    exact ⟨_, _, hread⟩

end Operand

namespace Operation

/-- The operations that reading gives: ordinary ones, whose operands can be written, and inline
images, whose entries can. An image without data is one that was not read to its end. -/
inductive Obtained : Operation → Prop where
  /-- An operation with its operands. -/
  | plain {operation : Operation}
      (ho : ∀ operand ∈ operation.operands, operand.Writable Operand.maxNesting) :
      Obtained operation
  /-- An image with its entries, and its data if they were found. -/
  | inlineImage {entries : Dict} (he : entries.Writable Operand.maxNesting)
      (data : Option (List UInt8)) :
      Obtained (image (.dict entries :: data.toList.map .str))

/-- An image is read with entries that can be written. -/
theorem obtained_readImage {entries : Dict} (he : entries.Writable Operand.maxNesting)
    (bytes : List UInt8) : Obtained (readImage entries bytes).1 := by
  fun_induction readImage entries bytes with
  | case1 => exact .inlineImage he none
  | case2 => exact .inlineImage he (some _)
  | case3 _ _ _ _ _ _ ih => exact ih he
  | case4 entries _ key _ _ value _ hvalue ih =>
    exact ih (he.insert key (Operand.writable_of_read? hvalue))
  | case5 _ _ _ _ _ _ ih => exact ih he
  | case6 _ _ _ _ _ _ _ ih => exact ih he

/-- An operation is read with operands that can be written if those found before can. Where an
operand is refused, the next one is looked for one byte later, within the refused one, and is
written no deeper for that. -/
theorem obtained_of_nextFrom? {operands : List Object}
    (ho : ∀ operand ∈ operands, operand.Writable Operand.maxNesting)
    {bytes rest : List UInt8} {operation : Operation}
    (h : nextFrom? operands bytes = some (operation, rest)) : Obtained operation := by
  fun_induction nextFrom? operands bytes with
  | case1 => cases h
  | case2 operands bytes b tail skip _ ih => exact ih ho h
  | case3 operands bytes b tail skip after read =>
    have himage := obtained_readImage Dict.writable_nil after
    rw [Option.some.inj h] at himage
    exact himage
  | case4 operands bytes b tail skip word after read _ =>
    cases h
    exact .plain ho
  | case5 operands bytes b tail skip token after _ read operand after' found ih =>
    have hfound : Operand.read? bytes = some (operand, after') := by
      rw [Operand.read?_eq, Token.read?, skip]
      simp only [read, Option.bind_some, found]
    have hoperand := Operand.writable_of_read? hfound
    exact ih (List.forall_mem_append.2 ⟨ho, List.forall_mem_singleton.2 hoperand⟩) h
  | case6 operands bytes b tail skip token after _ read _ ih => exact ih ho h

/-- All operations of a content are obtained so. -/
theorem obtained_of_mem_readAll {bytes : List UInt8} {operation : Operation}
    (h : operation ∈ readAll bytes) : Obtained operation := by
  fun_induction readAll bytes with
  | case1 => cases h
  | case2 bytes first rest hnext ih =>
    rcases List.mem_cons.1 h with rfl | h
    · exact obtained_of_nextFrom? (List.forall_mem_nil _) hnext
    · exact ih h

end Operation

end PageText
