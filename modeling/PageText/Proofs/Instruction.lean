import PageText.Interpreter.Instruction

/-!
# What an instruction was read from

Operands are read by few readers, shared by the operators. Each lemma here says which
operands a reader accepts and what it makes of them, so that other modules need not open
any reader. Complaints about operands are not treated here.
-/

namespace PageText

/-- The standard registry knows an operator by its own mnemonic only. -/
theorem Registry.eq_mnemonic_of_lookup? {mnemonic : String} {operator : Operator}
    (h : Registry.standard.lookup? mnemonic = some operator) : mnemonic = operator.mnemonic := by
  rw [lookup?, List.lookup_eq_some_iff] at h
  obtain ⟨before, after, hentries, -⟩ := h
  have hm : (mnemonic, operator) ∈ Registry.standard.entries := by
    rw [hentries]
    exact List.mem_append_right before List.mem_cons_self
  obtain ⟨found, -, hfound⟩ := List.mem_map.1 hm
  cases hfound
  rfl

/-- The standard registry knows every operator by its mnemonic. -/
theorem Registry.lookup?_mnemonic (operator : Operator) :
    Registry.standard.lookup? operator.mnemonic = some operator := by
  cases operator <;> decide

/-- Different operators have different standard mnemonics. -/
theorem Operator.eq_of_mnemonic_eq {operator operator' : Operator}
    (h : operator.mnemonic = operator'.mnemonic) : operator = operator' := by
  have hl := Registry.lookup?_mnemonic operator
  rw [h, Registry.lookup?_mnemonic] at hl
  exact (Option.some.inj hl).symm

namespace Instruction

open Error (exists_of_bind)

variable {mnemonic : String} {operand : Object} {operands : List Object}
  {instruction : Instruction}

/-- Only a name is read as one. -/
theorem eq_of_name {text : String} (h : name mnemonic operand = .ok text) :
    operand = .name text := by
  cases operand with
  | name found =>
    cases h
    rfl
  | _ => cases h

/-- Only a string is read as one. -/
theorem eq_of_bytes {found : List UInt8} (h : bytes mnemonic operand = .ok found) :
    operand = .str found := by
  cases operand with
  | str found =>
    cases h
    rfl
  | _ => cases h

/-- Only an array is read as one. -/
theorem eq_of_elements {items : List Object} (h : elements mnemonic operand = .ok items) :
    operand = .array items := by
  cases operand with
  | array items =>
    cases h
    rfl
  | _ => cases h

/-- Only what holds a number is read as one. -/
theorem asNumber?_of_number {x : Float32} (h : number mnemonic operand = .ok x) :
    operand.asNumber? = some x := by
  unfold number at h
  cases hn : operand.asNumber? with
  | none =>
    rw [hn] at h
    cases h
  | some found =>
    rw [hn] at h
    cases h
    rfl

/-- No operands are read where none are. -/
theorem of_noOperands {made : Instruction}
    (h : noOperands mnemonic made operands = .ok instruction) :
    operands = [] ∧ instruction = made := by
  cases operands with
  | nil =>
    cases h
    exact ⟨rfl, rfl⟩
  | cons operand operands => cases h

/-- One operand is read where one is. -/
theorem of_oneOperand {α : Type} {read : String → Object → Except Error α}
    {make : α → Instruction} (h : oneOperand mnemonic read make operands = .ok instruction) :
    ∃ operand a, operands = [operand] ∧ read mnemonic operand = .ok a ∧ instruction = make a := by
  match operands, h with
  | [operand], h =>
    rw [oneOperand] at h
    cases ha : read mnemonic operand with
    | error error =>
      rw [ha] at h
      cases h
    | ok a =>
      rw [ha] at h
      cases h
      exact ⟨operand, a, rfl, ha, rfl⟩

/-- One name is read where one is. -/
theorem of_oneName {make : String → Instruction}
    (h : oneOperand mnemonic name make operands = .ok instruction) :
    ∃ text, operands = [.name text] ∧ instruction = make text := by
  obtain ⟨operand, text, hone, hread, hmade⟩ := of_oneOperand h
  rw [eq_of_name hread] at hone
  exact ⟨text, hone, hmade⟩

/-- One string is read where one is. -/
theorem of_oneString {make : List UInt8 → Instruction}
    (h : oneOperand mnemonic bytes make operands = .ok instruction) :
    ∃ found, operands = [.str found] ∧ instruction = make found := by
  obtain ⟨operand, found, hone, hread, hmade⟩ := of_oneOperand h
  rw [eq_of_bytes hread] at hone
  exact ⟨found, hone, hmade⟩

/-- One array is read where one is. -/
theorem of_oneArray {make : List Object → Instruction}
    (h : oneOperand mnemonic elements make operands = .ok instruction) :
    ∃ items, operands = [.array items] ∧ instruction = make items := by
  obtain ⟨operand, items, hone, hread, hmade⟩ := of_oneOperand h
  rw [eq_of_elements hread] at hone
  exact ⟨items, hone, hmade⟩

/-- Two operands are read where two are. -/
theorem of_twoOperands {α β : Type} {first : String → Object → Except Error α}
    {second : String → Object → Except Error β} {make : α → β → Instruction}
    (h : twoOperands mnemonic first second make operands = .ok instruction) :
    ∃ x y a b, operands = [x, y] ∧ first mnemonic x = .ok a ∧ second mnemonic y = .ok b ∧
      instruction = make a b := by
  match operands, h with
  | [x, y], h =>
    obtain ⟨a, ha, h⟩ := exists_of_bind h
    obtain ⟨b, hb, h⟩ := exists_of_bind h
    cases h
    exact ⟨x, y, a, b, rfl, ha, hb, rfl⟩

/-- Two numbers and a string are read where three operands are. -/
theorem of_spacedText (h : spacedText mnemonic operands = .ok instruction) :
    ∃ x y word char found, operands = [x, y, .str found] ∧ number mnemonic x = .ok word ∧
      number mnemonic y = .ok char ∧ instruction = nextLineShowTextSpaced word char found := by
  match operands, h with
  | [x, y, z], h =>
    obtain ⟨word, hword, h⟩ := exists_of_bind h
    obtain ⟨char, hchar, h⟩ := exists_of_bind h
    obtain ⟨found, hfound, h⟩ := exists_of_bind h
    cases h
    rw [eq_of_bytes hfound]
    exact ⟨x, y, word, char, found, rfl, hword, hchar, rfl⟩

/-- A transform is read where six operands are. -/
theorem of_sixNumbers {make : Matrix → Instruction}
    (h : sixNumbers mnemonic make operands = .ok instruction) :
    ∃ m, instruction = make m ∧ operands.mapM (number mnemonic) =
      .ok [m.a, m.b, m.c, m.d, m.e, m.f] := by
  match operands, h with
  | [a, b, c, d, e, f], h =>
    obtain ⟨a, ha, h⟩ := exists_of_bind h
    obtain ⟨b, hb, h⟩ := exists_of_bind h
    obtain ⟨c, hc, h⟩ := exists_of_bind h
    obtain ⟨d, hd, h⟩ := exists_of_bind h
    obtain ⟨e, he, h⟩ := exists_of_bind h
    obtain ⟨f, hf, h⟩ := exists_of_bind h
    cases h
    refine ⟨_, rfl, ?_⟩
    simp only [List.mapM_cons, List.mapM_nil, ha, hb, hc, hd, he, hf]
    rfl

/-- The operator that an instruction can be read from. -/
def operator : Instruction → Operator
  | saveState => .saveState
  | restoreState => .restoreState
  | concatMatrix _ => .concatMatrix
  | setParameters _ => .setParameters
  | setCharSpacing _ => .setCharSpacing
  | setWordSpacing _ => .setWordSpacing
  | setHorizontalScaling _ => .setHorizontalScaling
  | setLeading _ => .setLeading
  | setFont _ _ => .setFont
  | setRenderMode _ => .setRenderMode
  | setRise _ => .setRise
  | beginText => .beginText
  | endText => .endText
  | moveText _ _ => .moveText
  | moveTextSetLeading _ _ => .moveTextSetLeading
  | setTextMatrix _ => .setTextMatrix
  | nextLine => .nextLine
  | showText _ => .showText
  | showTextArray _ => .showTextArray
  | nextLineShowText _ => .nextLineShowText
  | nextLineShowTextSpaced _ _ _ => .nextLineShowTextSpaced
  | invokeXObject _ => .invokeXObject
  | beginMarkedContent _ => .beginMarkedContent
  | beginMarkedContentWithProperties _ _ => .beginMarkedContentWithProperties
  | endMarkedContent => .endMarkedContent

/-- Only saving is read from the operator that saves. -/
theorem operator_eq_saveState : instruction.operator = .saveState ↔ instruction = .saveState := by
  cases instruction <;> simp only [operator, reduceCtorEq]

/-- Only restoring is read from the operator that restores. -/
theorem operator_eq_restoreState :
    instruction.operator = .restoreState ↔ instruction = .restoreState := by
  cases instruction <;> simp only [operator, reduceCtorEq]

/-- An instruction is read from its own operator only. -/
theorem operator_of_read {kind : Operator} (h : read mnemonic kind operands = .ok instruction) :
    instruction.operator = kind := by
  cases kind with
  | saveState | restoreState | beginText | endText | nextLine | endMarkedContent =>
    obtain ⟨-, rfl⟩ := of_noOperands h
    rfl
  | setParameters | setCharSpacing | setWordSpacing | setHorizontalScaling | setLeading
  | setRenderMode | setRise | showText | showTextArray | nextLineShowText | invokeXObject
  | beginMarkedContent =>
    obtain ⟨operand, a, -, -, rfl⟩ := of_oneOperand h
    rfl
  | setFont | moveText | moveTextSetLeading | beginMarkedContentWithProperties =>
    obtain ⟨x, y, a, b, -, -, -, rfl⟩ := of_twoOperands h
    rfl
  | nextLineShowTextSpaced =>
    obtain ⟨x, y, word, char, bytes, -, -, -, rfl⟩ := of_spacedText h
    rfl
  | concatMatrix | setTextMatrix =>
    obtain ⟨m, rfl, -⟩ := of_sixNumbers h
    rfl

/-- Whatever is wrong is the operands of the named operator. -/
def Complains {α : Type} (mnemonic : String) (result : Except Error α) : Prop :=
  ∀ error, result = .error error → ∃ reason, error = .malformedOperands mnemonic reason

namespace Complains

variable {α β : Type}

/-- A success complains about nothing. -/
theorem ok (a : α) : Complains mnemonic (.ok a) := nofun

/-- A complaint about the operands. -/
theorem error (reason : String) :
    Complains mnemonic (.error (.malformedOperands mnemonic reason) : Except Error α) := by
  rintro _ ⟨⟩
  exact ⟨reason, rfl⟩

/-- Readers one after the other complain as each of them does. -/
theorem bind {first : Except Error α} {next : α → Except Error β}
    (hf : Complains mnemonic first) (hn : ∀ a, Complains mnemonic (next a)) :
    Complains mnemonic (first >>= next) := by
  cases first with
  | error error =>
    rintro _ ⟨⟩
    exact hf error rfl
  | ok a => exact hn a

/-- Making something of what was read adds no complaint. -/
theorem map {first : Except Error α} (hf : Complains mnemonic first) (make : α → β) :
    Complains mnemonic (make <$> first) := by
  cases first with
  | error error =>
    rintro _ ⟨⟩
    exact hf error rfl
  | ok a => exact nofun

end Complains

/-- A reader of a number complains about its operand. -/
theorem complains_number (operand : Object) : Complains mnemonic (number mnemonic operand) := by
  unfold number
  split
  · exact .ok _
  · exact .error _

/-- A reader of a name complains about its operand. -/
theorem complains_name (operand : Object) : Complains mnemonic (name mnemonic operand) := by
  unfold name
  split
  · exact .ok _
  · exact .error _

/-- A reader of a string complains about its operand. -/
theorem complains_bytes (operand : Object) : Complains mnemonic (bytes mnemonic operand) := by
  unfold bytes
  split
  · exact .ok _
  · exact .error _

/-- A reader of a rendering mode complains about its operand. -/
theorem complains_renderMode (operand : Object) :
    Complains mnemonic (renderMode mnemonic operand) := by
  unfold renderMode
  split
  · exact .ok _
  · exact .error _

/-- A reader of an array complains about its operand. -/
theorem complains_elements (operand : Object) :
    Complains mnemonic (elements mnemonic operand) := by
  unfold elements
  split
  · exact .ok _
  · exact .error _

/-- Without operands only their number is complained about. -/
theorem complains_noOperands (made : Instruction) (operands : List Object) :
    Complains mnemonic (noOperands mnemonic made operands) := by
  cases operands with
  | nil => exact .ok made
  | cons operand operands => exact .error _

/-- A single operand is complained about by its reader. -/
theorem complains_oneOperand {α : Type} {read : String → Object → Except Error α}
    (hr : ∀ operand, Complains mnemonic (read mnemonic operand)) (make : α → Instruction)
    (operands : List Object) : Complains mnemonic (oneOperand mnemonic read make operands) := by
  unfold oneOperand
  split
  · exact (hr _).map make
  · exact .error _

/-- Two operands are complained about by their readers. -/
theorem complains_twoOperands {α β : Type} {first : String → Object → Except Error α}
    {second : String → Object → Except Error β}
    (hf : ∀ operand, Complains mnemonic (first mnemonic operand))
    (hs : ∀ operand, Complains mnemonic (second mnemonic operand))
    (make : α → β → Instruction) (operands : List Object) :
    Complains mnemonic (twoOperands mnemonic first second make operands) := by
  unfold twoOperands
  split
  · exact (hf _).bind fun a => (hs _).bind fun b => .ok (make a b)
  · exact .error _

/-- Two numbers and a string are complained about by their readers. -/
theorem complains_spacedText (operands : List Object) :
    Complains mnemonic (spacedText mnemonic operands) := by
  unfold spacedText
  split
  · exact (complains_number _).bind fun word => (complains_number _).bind fun char =>
      (complains_bytes _).bind fun string => .ok (nextLineShowTextSpaced word char string)
  · exact .error _

/-- The numbers of a transform are complained about by their reader. -/
theorem complains_sixNumbers (make : Matrix → Instruction) (operands : List Object) :
    Complains mnemonic (sixNumbers mnemonic make operands) := by
  unfold sixNumbers
  split
  · exact (complains_number _).bind fun a => (complains_number _).bind fun b =>
      (complains_number _).bind fun c => (complains_number _).bind fun d =>
      (complains_number _).bind fun e => (complains_number _).bind fun f =>
      .ok (make ⟨a, b, c, d, e, f⟩)
  · exact .error _

/-- An instruction that cannot be read fails by its operands, and the complaint names the
operator that stands in the content. -/
theorem complains_read (kind : Operator) (operands : List Object) :
    Complains mnemonic (read mnemonic kind operands) := by
  cases kind with
  | saveState | restoreState | beginText | endText | nextLine | endMarkedContent =>
    exact complains_noOperands _ operands
  | setCharSpacing | setWordSpacing | setHorizontalScaling | setLeading | setRise =>
    exact complains_oneOperand complains_number _ operands
  | setParameters | invokeXObject | beginMarkedContent =>
    exact complains_oneOperand complains_name _ operands
  | showText | nextLineShowText => exact complains_oneOperand complains_bytes _ operands
  | showTextArray => exact complains_oneOperand complains_elements _ operands
  | setRenderMode => exact complains_oneOperand complains_renderMode _ operands
  | setFont => exact complains_twoOperands complains_name complains_number _ operands
  | moveText | moveTextSetLeading =>
    exact complains_twoOperands complains_number complains_number _ operands
  | beginMarkedContentWithProperties =>
    exact complains_twoOperands complains_name (fun operand => .ok operand) _ operands
  | nextLineShowTextSpaced => exact complains_spacedText operands
  | concatMatrix | setTextMatrix => exact complains_sixNumbers _ operands

end Instruction

end PageText
