import PageText.Operation
import PageText.Operator
import PageText.Proofs.Lexeme

/-!
# Reading undoes writing

Operands and operations as sequences of lexemes, and the law that reading such a
sequence, however it is spelled and spaced, gives back what was written and leaves the
input after it untouched. That input may be anything: each written token ends at its
gap, so nothing after the last gap can reach back.
-/

namespace PageText

namespace Object

mutual

/-- The lexemes of an object. Streams and references cannot stand in page content. -/
def lexemes : Object → List Lexeme
  | .null => [.null]
  | .bool value => [.bool value]
  | .int value => [.int value]
  | .real value => [.real value]
  | .str bytes => [.str bytes]
  | .name text => [.name text]
  | .array items => .arrayOpen :: (itemLexemes items ++ [.arrayClose])
  | .dict entries => .dictOpen :: (entryLexemes entries ++ [.dictClose])
  | .stream .. => []
  | .ref _ => []

/-- The lexemes of the items of an array. -/
def itemLexemes : List Object → List Lexeme
  | [] => []
  | item :: items => lexemes item ++ itemLexemes items

/-- The lexemes of the entries of a dictionary, each value after its key. -/
def entryLexemes : List (String × Object) → List Lexeme
  | [] => []
  | (key, value) :: entries => .name key :: (lexemes value ++ entryLexemes entries)

end

/-- The objects that page content can hold, with arrays and dictionaries nested at most
`depth` deep. -/
inductive Writable : Nat → Object → Prop where
  /-- The absent value. -/
  | null {depth : Nat} : Writable depth .null
  /-- A truth value. -/
  | bool {depth : Nat} (value : Bool) : Writable depth (.bool value)
  /-- An integer within the limit. -/
  | int {depth : Nat} {value : Int} (hv : value.natAbs ≤ Number.Numeral.integerLimit) :
      Writable depth (.int value)
  /-- A real number that some digits with a point round to. -/
  | real {depth : Nat} {n : Number.Numeral} {word : List UInt8} {value : Float}
      (hn : n.fraction ≠ none) (hw : n.SpelledBy word) (hx : n.RoundsTo value) :
      Writable depth (.real value)
  /-- A byte string. -/
  | str {depth : Nat} (bytes : List UInt8) : Writable depth (.str bytes)
  /-- A name. -/
  | name {depth : Nat} (text : String) : Writable depth (.name text)
  /-- An array, one level deeper than its items. -/
  | array {depth : Nat} {items : List Object} (hi : ∀ item ∈ items, Writable depth item) :
      Writable (depth + 1) (.array items)
  /-- A dictionary with distinct keys, one level deeper than its values. -/
  | dict {depth : Nat} {entries : List (String × Object)}
      (hk : (entries.map Prod.fst).Nodup)
      (he : ∀ entry ∈ entries, Writable depth entry.2) : Writable (depth + 1) (.dict entries)

/-- Items are written one after the other. -/
theorem itemLexemes_eq (items : List Object) :
    itemLexemes items = items.flatMap Object.lexemes := by
  induction items with
  | nil => rfl
  | cons item items ih => rw [itemLexemes, ih, List.flatMap_cons]

/-- Entries are written one after the other. -/
theorem entryLexemes_eq (entries : List (String × Object)) :
    entryLexemes entries = entries.flatMap fun entry => .name entry.1 :: entry.2.lexemes := by
  induction entries with
  | nil => rfl
  | cons entry entries ih => rw [entryLexemes, ih, List.flatMap_cons, List.cons_append]

/-- The lexemes of an object that page content can hold can be written. -/
theorem Writable.lexemes {depth : Nat} {object : Object} (h : object.Writable depth) :
    ∀ lexeme ∈ object.lexemes, lexeme.Writable := by
  induction h with
  | null => exact List.forall_mem_singleton.2 trivial
  | bool value => exact List.forall_mem_singleton.2 trivial
  | int hv => exact List.forall_mem_singleton.2 hv
  | real hn hw hx => exact List.forall_mem_singleton.2 ⟨_, _, hn, hw, hx⟩
  | str bytes => exact List.forall_mem_singleton.2 trivial
  | name text => exact List.forall_mem_singleton.2 trivial
  | array _ ih =>
    rw [Object.lexemes, itemLexemes_eq, List.forall_mem_cons, List.forall_mem_append]
    refine ⟨trivial, fun lexeme hm => ?_, List.forall_mem_singleton.2 trivial⟩
    obtain ⟨item, hi, hl⟩ := List.mem_flatMap.1 hm
    exact ih item hi lexeme hl
  | dict _ _ ih =>
    rw [Object.lexemes, entryLexemes_eq, List.forall_mem_cons, List.forall_mem_append]
    refine ⟨trivial, fun lexeme hm => ?_, List.forall_mem_singleton.2 trivial⟩
    obtain ⟨entry, he, hl⟩ := List.mem_flatMap.1 hm
    rcases List.mem_cons.1 hl with rfl | hl
    · exact trivial
    · exact ih entry he lexeme hl

end Object

/-- A new key goes to the end of a dictionary. -/
theorem Dict.insert_of_notMem {entries : Dict} {key : String}
    (hk : key ∉ entries.map Prod.fst) (value : Object) :
    entries.insert key value = entries ++ [(key, value)] := by
  induction entries with
  | nil => rfl
  | cons entry entries ih =>
    rw [List.map_cons, List.mem_cons, not_or] at hk
    rw [Dict.insert, if_neg (Ne.symm hk.1), ih hk.2, List.cons_append]

/-- Where all keys are distinct, an entry goes to the end of those before it. -/
theorem Dict.insert_of_nodup {before entries : Dict} {key : String} {value : Object}
    (hk : ((before ++ (key, value) :: entries).map Prod.fst).Nodup) :
    before.insert key value = before ++ [(key, value)] := by
  rw [List.map_append, List.map_cons] at hk
  have hnew : key ∉ before.map Prod.fst := fun hm =>
    (List.nodup_append.1 hk).2.2 key hm key List.mem_cons_self rfl
  exact insert_of_notMem hnew value

namespace Operand

/-- What becomes of an operand after a token, given the input behind it. -/
def resume : Progress → List UInt8 → Option (Object × List UInt8)
  | .refused, _ => none
  | .complete object, rest => some (object, rest)
  | .more frames, rest => finish? frames rest

/-- What a lexeme makes of an operand. -/
def stepLexeme (frames : List Frame) : Lexeme → Progress
  | .null => give frames .null
  | .bool value => give frames (.bool value)
  | .int value => give frames (.int value)
  | .real value => give frames (.real value)
  | .str bytes => give frames (.str bytes)
  | .name text => giveName frames text
  | .arrayOpen => push (.array []) frames
  | .arrayClose => closeArray frames
  | .dictOpen => push (.dict []) frames
  | .dictClose => closeDict frames
  | .operator _ => .refused

/-- A token counts by its meaning alone. -/
theorem step_eq (frames : List Frame) (token : Token) :
    step frames token = stepLexeme frames token.lexeme := by
  cases token <;> rfl

/-- Finishing an operand takes a token and goes on. -/
theorem finish?_eq (frames : List Frame) (bytes : List UInt8) :
    finish? frames bytes =
      (Token.read? bytes).bind fun found => resume (step frames found.1) found.2 := by
  rw [finish?]
  split
  · rename_i h
    rw [h]
    rfl
  · rename_i token rest h
    rw [h, Option.bind_some]
    cases step frames token <;> rfl

/-- A gap before an operand, or within one, makes no difference. -/
theorem finish?_gap {gap : List UInt8} (hg : Token.Gap gap) (frames : List Frame)
    (rest : List UInt8) : finish? frames (gap ++ rest) = finish? frames rest := by
  rw [finish?_eq, finish?_eq, Token.read?_congr (hg.skipBlank_append rest)]

/-- A written lexeme takes its step and leaves the gap behind it. -/
theorem finish?_lexeme {lexeme : Lexeme} {word gap : List UInt8} (hs : lexeme.Spells word)
    (hw : lexeme.Writable) (hg : Token.Gap gap) (frames : List Frame) (rest : List UInt8) :
    finish? frames (word ++ gap ++ rest) = resume (stepLexeme frames lexeme) (gap ++ rest) := by
  obtain ⟨token, hr, rfl⟩ := hs.read? hw (hg.endsWord rest)
  rw [finish?_eq, List.append_assoc, hr, Option.bind_some, step_eq]

/-- Whether a value may stand next, which it may not where a key is due. -/
def TakesValue (frames : List Frame) : Prop := ∀ entries outer, frames ≠ .dict entries :: outer

/-- A value may stand first. -/
theorem takesValue_nil : TakesValue [] := by
  rintro _ _ ⟨⟩

/-- A value may stand in an array. -/
theorem takesValue_array (items : List Object) (outer : List Frame) :
    TakesValue (.array items :: outer) := by
  rintro _ _ ⟨⟩

/-- A value may stand behind a key. -/
theorem takesValue_entry (entries : Dict) (key : String) (outer : List Frame) :
    TakesValue (.entry entries key :: outer) := by
  rintro _ _ ⟨⟩

/-- Where a value may stand, a name is one. -/
theorem TakesValue.giveName {frames : List Frame} (h : TakesValue frames) (text : String) :
    giveName frames text = give frames (.name text) := by
  match frames with
  | [] => rfl
  | .array _ :: _ => rfl
  | .entry _ _ :: _ => rfl
  | .dict entries :: outer => exact absurd rfl (h entries outer)

/-- Where a value may stand, a container may be opened within the limit. -/
theorem TakesValue.push {frames : List Frame} (h : TakesValue frames)
    (hd : frames.length < maxNesting) (frame : Frame) :
    push frame frames = .more (frame :: frames) := by
  match frames with
  | [] => rfl
  | .array items :: outer => simp only [Operand.push, if_pos hd]
  | .entry entries key :: outer => simp only [Operand.push, if_pos hd]
  | .dict entries :: outer => exact absurd rfl (h entries outer)

/-- An object that is read back wherever a value may stand and its nesting fits: what is
written of it acts as the object itself, and leaves a gap. -/
def ReadsBack (depth : Nat) (object : Object) : Prop :=
  ∀ frames, TakesValue frames → frames.length + depth ≤ maxNesting →
    ∀ bytes, Lexeme.Written object.lexemes bytes → ∀ rest,
      ∃ gap, Token.Gap gap ∧
        finish? frames (bytes ++ rest) = resume (give frames object) (gap ++ rest)

/-- An object of one lexeme is read back if the lexeme acts as the object does. -/
theorem readsBack_of_lexeme {depth : Nat} {object : Object} (lexeme : Lexeme)
    (hl : object.lexemes = [lexeme]) (hw : lexeme.Writable)
    (hstep : ∀ frames, TakesValue frames → stepLexeme frames lexeme = give frames object) :
    ReadsBack depth object := by
  intro frames hf _ bytes hbytes rest
  rw [hl] at hbytes
  cases hbytes with
  | @cons _ _ word gap _ hs hg hnil =>
    cases hnil
    refine ⟨gap, hg, ?_⟩
    rw [List.append_nil, finish?_lexeme hs hw hg, hstep frames hf]

/-- The items of an open array are read back one after the other. -/
theorem finish?_items {depth : Nat} {items : List Object}
    (hi : ∀ item ∈ items, ReadsBack depth item) (before : List Object) (outer : List Frame)
    (hd : outer.length + 1 + depth ≤ maxNesting) {bytes : List UInt8}
    (hw : Lexeme.Written (Object.itemLexemes items) bytes) (rest : List UInt8) :
    finish? (.array before :: outer) (bytes ++ rest) =
      finish? (.array (before ++ items) :: outer) rest := by
  induction items generalizing before bytes with
  | nil =>
    cases hw
    rw [List.nil_append, List.append_nil]
  | cons item items ih =>
    obtain ⟨hitem, hitems⟩ := List.forall_mem_cons.1 hi
    obtain ⟨first, others, rfl, hfirst, hothers⟩ := Lexeme.Written.append_iff.1 hw
    have hf := takesValue_array before outer
    obtain ⟨gap, hg, hread⟩ := hitem _ hf hd _ hfirst (others ++ rest)
    rw [List.append_assoc, hread, give, resume, finish?_gap hg, ih hitems _ hothers,
      List.append_assoc, List.singleton_append]

/-- The entries of an open dictionary are read back one after the other, and distinct
keys keep their order. -/
theorem finish?_entries {depth : Nat} {entries : List (String × Object)}
    (he : ∀ entry ∈ entries, ReadsBack depth entry.2) (before : Dict) (outer : List Frame)
    (hk : ((before ++ entries).map Prod.fst).Nodup)
    (hd : outer.length + 1 + depth ≤ maxNesting) {bytes : List UInt8}
    (hw : Lexeme.Written (Object.entryLexemes entries) bytes) (rest : List UInt8) :
    finish? (.dict before :: outer) (bytes ++ rest) =
      finish? (.dict (before ++ entries) :: outer) rest := by
  induction entries generalizing before bytes with
  | nil =>
    cases hw
    rw [List.nil_append, List.append_nil]
  | cons entry entries ih =>
    obtain ⟨key, value⟩ := entry
    obtain ⟨hvalue, hentries⟩ := List.forall_mem_cons.1 he
    rw [Object.entryLexemes] at hw
    cases hw with
    | @cons _ _ word gap _ hs hg hw =>
      obtain ⟨first, others, rfl, hfirst, hothers⟩ := Lexeme.Written.append_iff.1 hw
      have hf := takesValue_entry before key outer
      obtain ⟨gap', hg', hread⟩ := hvalue _ hf hd _ hfirst (others ++ rest)
      have hassoc : word ++ gap ++ (first ++ others) ++ rest =
          word ++ gap ++ (first ++ (others ++ rest)) := by simp only [List.append_assoc]
      rw [hassoc, finish?_lexeme hs trivial hg, stepLexeme, giveName, resume, finish?_gap hg,
        hread, give, resume, finish?_gap hg', Dict.insert_of_nodup hk,
        ih hentries _ (by simpa using hk) hothers, List.append_assoc, List.singleton_append]

/-- A container is read back if its opening lexeme opens a frame, what is inside fills the
frame, and its closing lexeme makes the object of the filled frame. The open frame takes
one level of the nesting. -/
theorem readsBack_of_frame {depth : Nat} {object : Object} {first last : Lexeme}
    {body : List Lexeme} (opened filled : Frame)
    (hobject : object.lexemes = first :: (body ++ [last])) (hf : first.Writable)
    (hl : last.Writable) (hopen : ∀ frames, stepLexeme frames first = push opened frames)
    (hclose : ∀ frames, stepLexeme (filled :: frames) last = give frames object)
    (hbody : ∀ outer, outer.length + 1 + depth ≤ maxNesting → ∀ bytes,
      Lexeme.Written body bytes → ∀ rest,
        finish? (opened :: outer) (bytes ++ rest) = finish? (filled :: outer) rest) :
    ReadsBack (depth + 1) object := by
  intro frames hframes hd bytes hw rest
  rw [hobject] at hw
  cases hw with
  | @cons _ _ word gap _ hs hg hw =>
    obtain ⟨inside, close, rfl, hinside, hclosing⟩ := Lexeme.Written.append_iff.1 hw
    cases hclosing with
    | @cons _ _ word' gap' _ hs' hg' hnil =>
      cases hnil
      have hassoc : word ++ gap ++ (inside ++ (word' ++ gap' ++ [])) ++ rest =
          word ++ gap ++ (inside ++ (word' ++ gap' ++ rest)) := by
        simp only [List.append_assoc, List.append_nil]
      have hroom : frames.length < maxNesting := by omega
      have hnesting : frames.length + 1 + depth ≤ maxNesting := by omega
      refine ⟨gap', hg', ?_⟩
      rw [hassoc, finish?_lexeme hs hf hg, hopen, hframes.push hroom, resume, finish?_gap hg,
        hbody frames hnesting inside hinside, finish?_lexeme hs' hl hg', hclose]

/-- Every object that page content can hold is read back. The induction follows the
nesting. -/
theorem readsBack {depth : Nat} {object : Object} (h : object.Writable depth) :
    ReadsBack depth object := by
  induction h with
  | null => exact readsBack_of_lexeme .null rfl trivial fun _ _ => rfl
  | bool value => exact readsBack_of_lexeme (.bool value) rfl trivial fun _ _ => rfl
  | @int depth value hv => exact readsBack_of_lexeme (.int value) rfl hv fun _ _ => rfl
  | @real depth n word value hn hw hx =>
    exact readsBack_of_lexeme (.real value) rfl ⟨n, word, hn, hw, hx⟩ fun _ _ => rfl
  | str bytes => exact readsBack_of_lexeme (.str bytes) rfl trivial fun _ _ => rfl
  | name text => exact readsBack_of_lexeme (.name text) rfl trivial fun _ hf => hf.giveName text
  | @array depth items _ ih =>
    have hobject : (Object.array items).lexemes =
        .arrayOpen :: (Object.itemLexemes items ++ [.arrayClose]) := by rw [Object.lexemes]
    refine readsBack_of_frame (.array []) (.array items) hobject trivial trivial
      (fun _ => rfl) (fun _ => rfl) ?_
    intro outer hd bytes hw rest
    exact finish?_items ih [] outer hd hw rest
  | @dict depth entries hk _ ih =>
    have hobject : (Object.dict entries).lexemes =
        .dictOpen :: (Object.entryLexemes entries ++ [.dictClose]) := by rw [Object.lexemes]
    refine readsBack_of_frame (.dict []) (.dict entries) hobject trivial trivial
      (fun _ => rfl) (fun _ => rfl) ?_
    intro outer hd bytes hw rest
    exact finish?_entries ih [] outer hk hd hw rest

/-- A written operand is read, up to a gap behind it. -/
theorem read?_written {object : Object} (h : object.Writable maxNesting) {bytes : List UInt8}
    (hw : Lexeme.Written object.lexemes bytes) (rest : List UInt8) :
    ∃ gap, Token.Gap gap ∧ read? (bytes ++ rest) = some (object, gap ++ rest) := by
  obtain ⟨gap, hg, hread⟩ := readsBack h [] takesValue_nil (by simp) bytes hw rest
  exact ⟨gap, hg, hread⟩

end Operand

/-- Every standard mnemonic is read as an operator. -/
theorem Operator.isMnemonic (operator : Operator) : IsMnemonic operator.mnemonic where
  ne_empty := by cases operator <;> decide
  regular := by
    rw [← List.all_eq_true]
    cases operator <;> decide
  not_numeral n h := by
    have hword : Number.Numeral.ofWord? (Text.Utf8.encode operator.mnemonic.toList) = none := by
      cases operator <;> rfl
    rw [Number.Numeral.ofWord?_eq_some_iff.2 h] at hword
    cases hword
  not_reserved := by cases operator <;> decide
  not_image := by cases operator <;> decide

namespace Operation

/-- The lexemes of an operation: its operands, then its operator. -/
def lexemes (operation : Operation) : List Lexeme :=
  operation.operands.flatMap Object.lexemes ++ [.operator operation.operator]

/-- The operations that page content can hold, inline images apart. -/
structure Writable (operation : Operation) : Prop where
  /-- The operator is read as one. -/
  mnemonic : IsMnemonic operation.operator
  /-- The operands fit the nesting of one operand. -/
  operands : ∀ operand ∈ operation.operands, operand.Writable Operand.maxNesting

/-- Operations written one after the other, with a gap behind each lexeme. -/
def Written (operations : List Operation) (bytes : List UInt8) : Prop :=
  Lexeme.Written (operations.flatMap lexemes) bytes

/-- The lexemes of an operation that page content can hold can be written. -/
theorem Writable.lexemes {operation : Operation} (h : operation.Writable) :
    ∀ lexeme ∈ operation.lexemes, lexeme.Writable := by
  refine List.forall_mem_append.2 ⟨fun lexeme hm => ?_, List.forall_mem_singleton.2 h.mnemonic⟩
  obtain ⟨operand, ho, hl⟩ := List.mem_flatMap.1 hm
  exact (h.operands operand ho).lexemes lexeme hl

/-- Reading an operation without the proofs that its definition carries along. -/
theorem nextFrom?_eq (operands : List Object) (bytes : List UInt8) :
    nextFrom? operands bytes =
      match Token.skipBlank bytes with
      | [] => none
      | b :: tail =>
        match Token.readAt? b tail with
        | none => nextFrom? operands tail
        | some (.keyword word, rest) =>
          if word = Byte.ofAscii "BI" then some (readImage [] rest)
          else some (⟨Text.Utf8.textOf word, operands⟩, rest)
        | some (token, rest) =>
          match Operand.ofToken? token rest with
          | some (operand, rest') => nextFrom? (operands ++ [operand]) rest'
          | none => nextFrom? operands tail := by
  rw [nextFrom?]
  split
  · rename_i hs
    rw [hs]
  · rename_i b tail hs
    simp only [hs]
    split
    · rename_i hk
      rw [hk]
    · rename_i hk
      rw [hk]
    · rename_i token rest hn hk
      rw [hk]
      cases token with
      | keyword word => exact absurd rfl (hn word)
      | _ =>
        dsimp only
        split
        · rename_i ho
          rw [ho]
        · rename_i ho
          rw [ho]

/-- What may be skipped before an operation makes no difference to reading it. -/
theorem nextFrom?_gap {gap : List UInt8} (hg : Token.Gap gap) (operands : List Object)
    (rest : List UInt8) : nextFrom? operands (gap ++ rest) = nextFrom? operands rest := by
  rw [nextFrom?_eq operands (gap ++ rest), nextFrom?_eq operands rest, hg.skipBlank_append rest]

/-- A keyword ends an operation. -/
theorem nextFrom?_of_keyword {bytes word rest : List UInt8}
    (h : Token.read? bytes = some (.keyword word, rest)) (hw : word ≠ Byte.ofAscii "BI")
    (operands : List Object) :
    nextFrom? operands bytes = some (⟨Text.Utf8.textOf word, operands⟩, rest) := by
  obtain ⟨b, tail, hs, hk⟩ := Token.exists_of_read? h
  rw [nextFrom?_eq, hs]
  simp only [hk, if_neg hw]

/-- An operand is collected. -/
theorem nextFrom?_of_operand {bytes rest : List UInt8} {operand : Object}
    (h : Operand.read? bytes = some (operand, rest)) (operands : List Object) :
    nextFrom? operands bytes = nextFrom? (operands ++ [operand]) rest := by
  rw [Operand.read?_eq] at h
  obtain ⟨⟨token, after⟩, hr, ho⟩ := Option.bind_eq_some_iff.1 h
  obtain ⟨b, tail, hs, hk⟩ := Token.exists_of_read? hr
  rw [nextFrom?_eq, hs]
  cases token with
  | keyword word => cases ho
  | _ => simp only [hk, ho]

/-- Written operands are collected in order. -/
theorem nextFrom?_operands {operands : List Object}
    (ho : ∀ operand ∈ operands, operand.Writable Operand.maxNesting) (before : List Object)
    {bytes : List UInt8} (hw : Lexeme.Written (operands.flatMap Object.lexemes) bytes)
    (rest : List UInt8) :
    nextFrom? before (bytes ++ rest) = nextFrom? (before ++ operands) rest := by
  induction operands generalizing before bytes with
  | nil =>
    cases hw
    rw [List.nil_append, List.append_nil]
  | cons operand operands ih =>
    obtain ⟨hoperand, hothers⟩ := List.forall_mem_cons.1 ho
    obtain ⟨first, others, rfl, hfirst, hrest⟩ := Lexeme.Written.append_iff.1 hw
    obtain ⟨gap, hg, hread⟩ := Operand.read?_written hoperand hfirst (others ++ rest)
    rw [List.append_assoc, nextFrom?_of_operand hread, nextFrom?_gap hg, ih hothers _ hrest,
      List.append_assoc, List.singleton_append]

/-- A written operation is read as a whole, up to a gap behind it. -/
theorem next?_written {operation : Operation} (h : operation.Writable) {bytes : List UInt8}
    (hw : Lexeme.Written operation.lexemes bytes) (rest : List UInt8) :
    ∃ gap, Token.Gap gap ∧ next? (bytes ++ rest) = some (operation, gap ++ rest) := by
  obtain ⟨before, last, rfl, hbefore, hlast⟩ := Lexeme.Written.append_iff.1 hw
  cases hlast with
  | @cons _ _ word gap _ hs hg hnil =>
    cases hnil
    refine ⟨gap, hg, ?_⟩
    cases hs with
    | operator =>
      have hm := h.mnemonic
      have himage : Text.Utf8.encode operation.operator.toList ≠ Byte.ofAscii "BI" := by
        intro he
        have ht := Text.Utf8.textOf_encode operation.operator
        rw [he] at ht
        exact hm.not_image ht.symm
      have hread := Token.read?_word hm.encode_ne_nil hm.regular (hg.endsWord rest)
      rw [hm.ofWord] at hread
      rw [next?, List.append_nil, List.append_assoc, List.append_assoc,
        nextFrom?_operands h.operands [] hbefore, nextFrom?_of_keyword hread himage,
        Text.Utf8.textOf_encode, List.nil_append]

/-- Reading all operations takes the first one and goes on. -/
theorem readAll_of_next? {bytes rest : List UInt8} {operation : Operation}
    (h : next? bytes = some (operation, rest)) : readAll bytes = operation :: readAll rest := by
  rw [readAll]
  split
  · rename_i hn
    rw [h] at hn
    cases hn
  · rename_i hn
    rw [h] at hn
    cases hn
    rfl

/-- What may be skipped before operations makes no difference to reading them. -/
theorem readAll_gap {gap : List UInt8} (hg : Token.Gap gap) (rest : List UInt8) :
    readAll (gap ++ rest) = readAll rest := by
  rw [readAll.eq_def (gap ++ rest), readAll.eq_def rest, next?, nextFrom?_gap hg, ← next?]

/-- Written operations are read back, and what follows them is read as if it stood
alone. -/
theorem readAll_append {operations : List Operation}
    (h : ∀ operation ∈ operations, operation.Writable) {bytes : List UInt8}
    (hw : Written operations bytes) (rest : List UInt8) :
    readAll (bytes ++ rest) = operations ++ readAll rest := by
  induction operations generalizing bytes with
  | nil =>
    cases hw
    rfl
  | cons operation operations ih =>
    obtain ⟨hfirst, hothers⟩ := List.forall_mem_cons.1 h
    obtain ⟨first, others, rfl, hf, ho⟩ := Lexeme.Written.append_iff.1 hw
    obtain ⟨gap, hg, hread⟩ := next?_written hfirst hf (others ++ rest)
    rw [List.append_assoc, readAll_of_next? hread, readAll_gap hg, ih hothers ho,
      List.cons_append]

/-- Written operations without anything behind them are read back as a whole. -/
theorem readAll_of_written {operations : List Operation}
    (h : ∀ operation ∈ operations, operation.Writable) {bytes : List UInt8}
    (hw : Written operations bytes) : readAll bytes = operations := by
  have hread := readAll_append h hw []
  have hnone : readAll [] = [] := by
    rw [readAll, next?, nextFrom?]
    rfl
  rwa [List.append_nil, hnone, List.append_nil] at hread

/-- Reading undoes writing, with any tail: operations that page content can hold can be
written, and however they are, they are read back and what follows them is read as if it
stood alone. -/
theorem readAll_written {operations : List Operation}
    (h : ∀ operation ∈ operations, operation.Writable) :
    (∃ bytes, Written operations bytes) ∧
      ∀ bytes rest, Written operations bytes →
        readAll (bytes ++ rest) = operations ++ readAll rest := by
  constructor
  · refine Lexeme.Written.exists_written fun lexeme hm => ?_
    obtain ⟨operation, ho, hl⟩ := List.mem_flatMap.1 hm
    exact (h operation ho).lexemes lexeme hl
  · intro bytes rest hw
    exact readAll_append h hw rest

/-- An operator without operands can be written. -/
theorem writable_bare (operator : Operator) : Writable ⟨operator.mnemonic, []⟩ :=
  ⟨Operator.isMnemonic operator, List.forall_mem_nil _⟩

/-- The operation that shows a string can be written. -/
theorem writable_showText (bytes : List UInt8) :
    Writable ⟨Operator.mnemonic .showText, [.str bytes]⟩ :=
  ⟨Operator.isMnemonic .showText, List.forall_mem_singleton.2 (.str bytes)⟩

/-- The operation that selects a font in a size can be written if the size can. -/
theorem writable_setFont (name : String) {size : Int}
    (hs : size.natAbs ≤ Number.Numeral.integerLimit) :
    Writable ⟨Operator.mnemonic .setFont, [.name name, .int size]⟩ :=
  ⟨Operator.isMnemonic .setFont,
    List.forall_mem_cons.2 ⟨.name name, List.forall_mem_singleton.2 (.int hs)⟩⟩

/-- Operations that show one letter, in a text object of their own. -/
def letter : List Operation := [⟨"BT", []⟩, ⟨"Tj", [.str [0x41]]⟩, ⟨"ET", []⟩]

/-- The operations for one letter can be written. -/
theorem letter_writable : ∀ operation ∈ letter, operation.Writable := by
  simp only [letter, List.forall_mem_cons]
  exact ⟨writable_bare .beginText, writable_showText [0x41], writable_bare .endText, by simp⟩

/-- One way to write them, with a comment in a gap. -/
def letterBytes : List UInt8 := Byte.ofAscii "BT (A)%a\nTj ET "

/-- The operations for one letter are written so. -/
theorem letter_written : Written letter letterBytes := by
  have hblank : Token.Gap [0x20] := .blank (by decide)
  have hcomment : Token.Gap (Byte.ofAscii "%a\n") :=
    @Token.Gap.comment [0x61] 0x0A (List.forall_mem_singleton.2 rfl) rfl
  exact .cons (.operator "BT") hblank (.cons (.literal [0x41]) hcomment
    (.cons (.operator "Tj") hblank (.cons (.operator "ET") hblank .nil)))

/-- The law for one letter before a tail that has no end. -/
theorem readAll_written_letter : (∀ operation ∈ letter, operation.Writable) ∧
    Written letter letterBytes ∧
    readAll (letterBytes ++ Byte.ofAscii "[(") = letter ++ readAll (Byte.ofAscii "[(") :=
  ⟨letter_writable, letter_written, (readAll_written letter_writable).2 _ _ letter_written⟩

/-- The operations for one letter are read back. -/
theorem readAll_letterBytes : readAll letterBytes = letter :=
  readAll_of_written letter_writable letter_written

end Operation

end PageText
