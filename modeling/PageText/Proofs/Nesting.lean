import PageText.Proofs.Writing

/-!
# How deep operands nest

The tokens of an operand, whatever they are spelled like, have a depth: that to which arrays and
dictionaries nest in it. A written operand is read up to its last token if its depth is within
the limit of one operand, and is refused if it is not; and nothing else is read as an operand.
-/

namespace PageText

namespace Token

/-- Tokens that stand one after the other at the beginning of a text, and what follows them. -/
inductive Reads : List Token → List UInt8 → List UInt8 → Prop where
  /-- Nothing has been read yet. -/
  | nil (bytes : List UInt8) : Reads [] bytes bytes
  /-- One token, then the others. -/
  | cons {token : Token} {tokens : List Token} {bytes after rest : List UInt8}
      (hr : read? bytes = some (token, after)) (hs : Reads tokens after rest) :
      Reads (token :: tokens) bytes rest

/-- Tokens are read in two parts. -/
theorem reads_append {first second : List Token} {bytes rest : List UInt8} :
    Reads (first ++ second) bytes rest ↔
      ∃ between, Reads first bytes between ∧ Reads second between rest := by
  constructor
  · intro h
    induction first generalizing bytes with
    | nil => exact ⟨bytes, .nil bytes, h⟩
    | cons token first ih =>
      cases h with
      | cons hr hs =>
        obtain ⟨between, hfirst, hsecond⟩ := ih hs
        exact ⟨between, .cons hr hfirst, hsecond⟩
  · rintro ⟨between, hf, hs⟩
    induction hf with
    | nil => exact hs
    | cons hr _ ih => exact .cons hr (ih hs)

/-- The token is an operand of its own. -/
def IsValue : Token → Prop
  | .arrayOpen => False
  | .arrayClose => False
  | .dictOpen => False
  | .dictClose => False
  | .keyword _ => False
  | _ => True

end Token

namespace Operand

/-- The greatest of some depths, and zero if there are none. -/
def deepest (depths : List Nat) : Nat := depths.foldr max 0

/-- The tokens of an operand, with the depth to which arrays and dictionaries nest in it. Keys
may be repeated. -/
inductive Nested : Nat → List Token → Prop where
  /-- One token. -/
  | value {token : Token} (hv : token.IsValue) : Nested 0 [token]
  /-- The items of an array between brackets, each with its depth. -/
  | array {items : List (Nat × List Token)} (hi : ∀ item ∈ items, Nested item.1 item.2) :
      Nested (deepest (items.map (·.1)) + 1)
        (.arrayOpen :: (items.flatMap (·.2) ++ [.arrayClose]))
  /-- The entries of a dictionary between brackets, each key with a value and its depth. -/
  | dict {entries : List (String × Nat × List Token)}
      (he : ∀ entry ∈ entries, Nested entry.2.1 entry.2.2) :
      Nested (deepest (entries.map (·.2.1)) + 1)
        (.dictOpen :: (entries.flatMap (fun entry => .name entry.1 :: entry.2.2) ++ [.dictClose]))

/-- Tokens that act as one object wherever a value may stand and the depth is left, and that are
refused where it is not. -/
def Acts (depth : Nat) (tokens : List Token) : Prop :=
  ∃ object, ∀ frames bytes rest, TakesValue frames → frames.length ≤ maxNesting →
    Token.Reads tokens bytes rest →
      finish? frames bytes =
        if frames.length + depth ≤ maxNesting then resume (give frames object) rest else none

/-- Tokens that leave an open container of some kind open with more in it if the depth within it
is left, and that are refused if it is not. -/
def Fills (kind : Frame → Prop) (depth : Nat) (tokens : List Token) : Prop :=
  ∀ frame, kind frame → ∃ filled, kind filled ∧ ∀ outer bytes rest, outer.length < maxNesting →
    Token.Reads tokens bytes rest →
      finish? (frame :: outer) bytes =
        if outer.length + 1 + depth ≤ maxNesting then finish? (filled :: outer) rest else none

/-- Reading goes on with what the first token makes of the open containers. -/
theorem finish?_reads {token : Token} {bytes rest : List UInt8}
    (h : Token.read? bytes = some (token, rest)) (frames : List Frame) :
    finish? frames bytes = resume (step frames token) rest := by
  rw [finish?_eq, h, Option.bind_some]

/-- A token that is an operand acts as one. -/
theorem acts_value {token : Token} (h : token.IsValue) : Acts 0 [token] := by
  obtain ⟨object, hobject⟩ :
      ∃ object, ∀ frames, TakesValue frames → step frames token = give frames object := by
    cases token with
    | name text => exact ⟨.name text, fun frames hf => hf.giveName text⟩
    | arrayOpen | arrayClose | dictOpen | dictClose | keyword => exact h.elim
    | _ => exact ⟨_, fun _ _ => rfl⟩
  refine ⟨object, fun frames bytes rest hf hlength hr => ?_⟩
  cases hr with
  | cons hr hnil =>
    cases hnil
    rw [finish?_reads hr, hobject frames hf, Nat.add_zero, if_pos hlength]

/-- Parts that fill a container do so one after the other, to the greatest of their depths. -/
theorem fills_flatMap {α : Type} {kind : Frame → Prop} {depth : α → Nat}
    {tokens : α → List Token} {parts : List α}
    (h : ∀ part ∈ parts, Fills kind (depth part) (tokens part)) :
    Fills kind (deepest (parts.map depth)) (parts.flatMap tokens) := by
  induction parts with
  | nil =>
    intro frame hk
    refine ⟨frame, hk, fun outer bytes rest hroom hr => ?_⟩
    cases hr
    exact (if_pos hroom).symm
  | cons part parts ih =>
    obtain ⟨hpart, hparts⟩ := List.forall_mem_cons.1 h
    intro frame hk
    obtain ⟨between, hbetween, hfirst⟩ := hpart frame hk
    obtain ⟨filled, hfilled, hothers⟩ := ih hparts between hbetween
    refine ⟨filled, hfilled, fun outer bytes rest hroom hr => ?_⟩
    obtain ⟨middle, hr, hrest⟩ := Token.reads_append.1 hr
    have hgreatest : deepest ((part :: parts).map depth) =
        max (depth part) (deepest (parts.map depth)) := rfl
    rw [hfirst outer bytes middle hroom hr, hothers outer middle rest hroom hrest, hgreatest,
      ← ite_and]
    exact if_congr (by omega) rfl rfl

/-- What fills a container acts as an operand between a token that opens the container and one
that makes an object of it. The open container takes one level of the depth. -/
theorem Fills.acts {kind : Frame → Prop} {depth : Nat} {body : List Token}
    (h : Fills kind depth body) {first last : Token} (opened : Frame) (hk : kind opened)
    (hopen : ∀ frames, step frames first = push opened frames)
    (hclose : ∀ frame, kind frame →
      ∃ object, ∀ frames, step (frame :: frames) last = give frames object) :
    Acts (depth + 1) (first :: (body ++ [last])) := by
  obtain ⟨filled, hfilled, hbody⟩ := h opened hk
  obtain ⟨object, hobject⟩ := hclose filled hfilled
  refine ⟨object, fun frames bytes rest hf _ hr => ?_⟩
  cases hr with
  | @cons _ _ _ after _ hr hs =>
    obtain ⟨between, hinside, hlast⟩ := Token.reads_append.1 hs
    cases hlast with
    | cons hlast hnil =>
      cases hnil
      rw [finish?_reads hr, hopen]
      by_cases hroom : frames.length < maxNesting
      · rw [hf.push hroom, resume, hbody frames after between hroom hinside,
          finish?_reads hlast, hobject]
        exact if_congr (by omega) rfl rfl
      · have hrefused : push opened frames = .refused := by
          unfold push
          split
          · rfl
          · exact if_neg hroom
        rw [hrefused, if_neg (by omega)]
        rfl

/-- The open container is an array. -/
def IsArray (frame : Frame) : Prop := ∃ items, frame = .array items

/-- The open container is a dictionary where a key comes next. -/
def IsDict (frame : Frame) : Prop := ∃ entries, frame = .dict entries

/-- An operand is an item of an array. -/
theorem Acts.fills_array {depth : Nat} {tokens : List Token} (h : Acts depth tokens) :
    Fills IsArray depth tokens := by
  obtain ⟨object, hobject⟩ := h
  rintro _ ⟨items, rfl⟩
  refine ⟨.array (items ++ [object]), ⟨_, rfl⟩, fun outer bytes rest hroom hr => ?_⟩
  exact hobject _ bytes rest (takesValue_array items outer) hroom hr

/-- A key and an operand are an entry of a dictionary. -/
theorem Acts.fills_dict {depth : Nat} {tokens : List Token} (h : Acts depth tokens)
    (key : String) : Fills IsDict depth (.name key :: tokens) := by
  obtain ⟨object, hobject⟩ := h
  rintro _ ⟨entries, rfl⟩
  refine ⟨.dict (entries.insert key object), ⟨_, rfl⟩, fun outer bytes rest hroom hr => ?_⟩
  cases hr with
  | cons hr hs =>
    rw [finish?_reads hr]
    exact hobject _ _ rest (takesValue_entry entries key outer) hroom hs

/-- The tokens of an operand act as one object, or are refused for their depth. The induction
follows the nesting. -/
theorem Nested.acts {depth : Nat} {tokens : List Token} (h : Nested depth tokens) :
    Acts depth tokens := by
  induction h with
  | value hv => exact acts_value hv
  | array _ ih =>
    refine (fills_flatMap fun item hi => (ih item hi).fills_array).acts (.array [])
      ⟨[], rfl⟩ (fun _ => rfl) ?_
    rintro _ ⟨items, rfl⟩
    exact ⟨.array items, fun _ => rfl⟩
  | dict _ ih =>
    refine (fills_flatMap fun entry he => (ih entry he).fills_dict entry.1).acts (.dict [])
      ⟨[], rfl⟩ (fun _ => rfl) ?_
    rintro _ ⟨entries, rfl⟩
    exact ⟨.dict entries, fun _ => rfl⟩

/-- A written operand is read exactly if its nesting is within the limit. -/
theorem Nested.read? {depth : Nat} {tokens : List Token} (h : Nested depth tokens)
    {bytes rest : List UInt8} (hr : Token.Reads tokens bytes rest) :
    ∃ object, Operand.read? bytes =
      if depth ≤ maxNesting then some (object, rest) else none := by
  obtain ⟨object, hobject⟩ := h.acts
  refine ⟨object, ?_⟩
  rw [Operand.read?, hobject [] bytes rest takesValue_nil (Nat.zero_le _) hr, List.length_nil,
    Nat.zero_add]
  rfl

/-! ## Only written operands are read -/

/-- The tokens read since an operand began, by the containers that they leave open. -/
inductive Began : List Frame → List Token → Prop where
  /-- No token has been read. -/
  | nil : Began [] []
  /-- Behind some items of an array. -/
  | array {objects : List Object} {outer : List Frame} {before : List Token}
      {items : List (Nat × List Token)} (ho : Began outer before)
      (hi : ∀ item ∈ items, Nested item.1 item.2) :
      Began (.array objects :: outer) (before ++ .arrayOpen :: items.flatMap (·.2))
  /-- Behind some entries of a dictionary. -/
  | dict {values : Dict} {outer : List Frame} {before : List Token}
      {entries : List (String × Nat × List Token)} (ho : Began outer before)
      (he : ∀ entry ∈ entries, Nested entry.2.1 entry.2.2) :
      Began (.dict values :: outer)
        (before ++ .dictOpen :: entries.flatMap fun entry => .name entry.1 :: entry.2.2)
  /-- Behind a key that follows them. -/
  | entry {values : Dict} {key : String} {outer : List Frame} {before : List Token}
      (hd : Began (.dict values :: outer) before) :
      Began (.entry values key :: outer) (before ++ [.name key])

/-- What the tokens read so far are: the beginning of an operand, or one that is finished. -/
def Grows (tokens : List Token) : Progress → Prop
  | .refused => True
  | .complete _ => ∃ depth, Nested depth tokens
  | .more frames => Began frames tokens

/-- An operand within an open container goes on with the one around it. -/
theorem Began.give {frames : List Frame} {before : List Token} (h : Began frames before)
    {depth : Nat} {tokens : List Token} (hn : Nested depth tokens) (object : Object) :
    Grows (before ++ tokens) (give frames object) := by
  cases h with
  | nil => exact ⟨depth, hn⟩
  | @array objects outer before items ho hi =>
    have hitems : ∀ item ∈ items ++ [(depth, tokens)], Nested item.1 item.2 :=
      List.forall_mem_append.2 ⟨hi, List.forall_mem_singleton.2 hn⟩
    have hgrown : Began (.array (objects ++ [object]) :: outer) _ := .array ho hitems
    change Began _ _
    simpa using hgrown
  | dict => exact trivial
  | @entry values key outer before hd =>
    cases hd with
    | @dict _ _ before entries ho he =>
      have hentries : ∀ entry ∈ entries ++ [(key, depth, tokens)], Nested entry.2.1 entry.2.2 :=
        List.forall_mem_append.2 ⟨he, List.forall_mem_singleton.2 hn⟩
      have hgrown : Began (.dict (values.insert key object) :: outer) _ := .dict ho hentries
      change Began _ _
      simpa using hgrown

/-- A name is an operand or a key. -/
theorem Began.giveName {frames : List Frame} {before : List Token} (h : Began frames before)
    (text : String) : Grows (before ++ [.name text]) (giveName frames text) := by
  have hname : Nested 0 [.name text] := .value trivial
  have hvalue := h.give hname (.name text)
  cases h with
  | nil => exact hvalue
  | array => exact hvalue
  | dict ho he => exact .entry (.dict ho he)
  | entry => exact hvalue

/-- A container is opened or refused. -/
theorem Began.push {frames : List Frame} {frame : Frame} {tokens : List Token}
    (h : Began (frame :: frames) tokens) : Grows tokens (push frame frames) := by
  unfold Operand.push
  split
  · exact trivial
  · split
    · exact h
    · exact trivial

/-- A closed array is an operand. -/
theorem Began.closeArray {frames : List Frame} {before : List Token} (h : Began frames before) :
    Grows (before ++ [.arrayClose]) (closeArray frames) := by
  cases h with
  | nil => exact trivial
  | @array objects outer before items ho hi =>
    have hgiven := ho.give (.array hi) (.array objects)
    simpa [Operand.closeArray] using hgiven
  | dict => exact trivial
  | entry => exact trivial

/-- A closed dictionary is an operand. -/
theorem Began.closeDict {frames : List Frame} {before : List Token} (h : Began frames before) :
    Grows (before ++ [.dictClose]) (closeDict frames) := by
  cases h with
  | nil => exact trivial
  | array => exact trivial
  | @dict values outer before entries ho he =>
    have hgiven := ho.give (.dict he) (.dict values)
    simpa [Operand.closeDict] using hgiven
  | entry => exact trivial

/-- One token more keeps what has been read the beginning of an operand, or finishes it. -/
theorem Began.step {frames : List Frame} {before : List Token} (h : Began frames before)
    (token : Token) : Grows (before ++ [token]) (step frames token) := by
  cases token with
  | name text => exact h.giveName text
  | arrayOpen => exact Began.push (.array h (List.forall_mem_nil _))
  | dictOpen => exact Began.push (.dict h (List.forall_mem_nil _))
  | arrayClose => exact h.closeArray
  | dictClose => exact h.closeDict
  | keyword word => exact trivial
  | _ => exact h.give (.value (by exact trivial)) _

/-- The tokens up to the end of an operand finish what has been read. -/
theorem Began.exists_nested {frames : List Frame} {before : List Token} (h : Began frames before)
    {bytes rest : List UInt8} {object : Object}
    (hf : finish? frames bytes = some (object, rest)) :
    ∃ depth tokens, Token.Reads tokens bytes rest ∧ Nested depth (before ++ tokens) := by
  fun_induction finish? frames bytes generalizing before with
  | case1 => cases hf
  | case2 => cases hf
  | case3 frames bytes token after hread object' hstep =>
    have hgrows := h.step token
    rw [hstep] at hgrows
    obtain ⟨depth, hnested⟩ := hgrows
    cases hf
    exact ⟨depth, [token], .cons hread (.nil rest), hnested⟩
  | case4 frames bytes token after hread frames' hstep ih =>
    have hgrows := h.step token
    rw [hstep] at hgrows
    obtain ⟨depth, tokens, hreads, hnested⟩ := ih hgrows hf
    rw [List.append_assoc, List.singleton_append] at hnested
    exact ⟨depth, token :: tokens, .cons hread hreads, hnested⟩

/-- An operand is read exactly where a written one stands that nests within the limit, and up
to its end. -/
theorem exists_read?_iff_nested {bytes rest : List UInt8} :
    (∃ object, read? bytes = some (object, rest)) ↔
      ∃ depth tokens, depth ≤ maxNesting ∧ Nested depth tokens ∧
        Token.Reads tokens bytes rest := by
  constructor
  · rintro ⟨object, h⟩
    obtain ⟨depth, tokens, hreads, hnested⟩ := Began.nil.exists_nested h
    obtain ⟨object', hread⟩ := hnested.read? hreads
    have hdepth : depth ≤ maxNesting := by
      by_contra hdeep
      rw [if_neg hdeep, h] at hread
      cases hread
    exact ⟨depth, tokens, hdepth, hnested, hreads⟩
  · rintro ⟨depth, tokens, hdepth, hnested, hreads⟩
    obtain ⟨object, hread⟩ := hnested.read? hreads
    rw [if_pos hdepth] at hread
    exact ⟨object, hread⟩

end Operand

end PageText
