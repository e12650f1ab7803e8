import PageText.Proofs.Binary32
import PageText.Proofs.Run

/-!
# Derived text operators

Some text operators are short forms: inside a text object each of them leads to the same
outcome as the operators that it stands for, executed one after the other. This holds of
failures as well, so an expansion stops exactly where its short form does. Outside a text
object the two may differ, and so they may where an operand is of another type.
-/

namespace PageText

namespace Outcome

/-- Nothing comes after what nothing follows. -/
theorem andThen_done (outcome : Outcome) : outcome.andThen done = outcome := by
  obtain ⟨state, events, error⟩ := outcome
  cases error with
  | some error => rfl
  | none => exact congrArg (Outcome.mk state · none) (List.append_nil events)

/-- Only the state that a success leads to matters to what comes next. -/
theorem andThen_congr {first : Outcome} {next next' : StreamState → Outcome}
    (h : first.error = none → next first.state = next' first.state) :
    first.andThen next = first.andThen next' := by
  cases he : first.error with
  | some error => rw [andThen_of_error he, andThen_of_error he]
  | none => rw [andThen_of_success he, andThen_of_success he, h he]

end Outcome

namespace StreamState

variable {state : StreamState}

/-- Inside a text object the text position can be moved by every operator. -/
theorem withPosition_mnemonic (hp : state.position ≠ none) (mnemonic mnemonic' : String)
    (change : TextPosition → TextPosition) :
    state.withPosition mnemonic change = state.withPosition mnemonic' change := by
  obtain ⟨position, hp⟩ := Option.ne_none_iff_exists'.1 hp
  rw [withPosition_of_position hp, withPosition_of_position hp]

/-- Inside a text object every operator shows a string alike, also where no font is set. -/
theorem showText_mnemonic (hp : state.position ≠ none) (mnemonic mnemonic' : String)
    (bytes : List UInt8) : state.showText mnemonic bytes = state.showText mnemonic' bytes := by
  obtain ⟨position, hp⟩ := Option.ne_none_iff_exists'.1 hp
  unfold showText
  rw [hp]

/-- Inside a text object every operator shows a string on the next line alike. -/
theorem nextLine_showText_mnemonic (hp : state.position ≠ none)
    (mnemonic mnemonic' mnemonic'' : String) (bytes : List UInt8) :
    ((state.nextLine mnemonic).andThen fun next => next.showText mnemonic bytes) =
      (state.nextLine mnemonic').andThen fun next => next.showText mnemonic'' bytes := by
  have hline : state.nextLine mnemonic = state.nextLine mnemonic' :=
    withPosition_mnemonic hp mnemonic mnemonic' _
  rw [hline]
  refine Outcome.andThen_congr fun _ => ?_
  exact showText_mnemonic (withPosition_position hp mnemonic' _) mnemonic mnemonic'' bytes

/-- A text array of one string shows that string. -/
theorem showElements_singleton (mnemonic : String) (bytes : List UInt8) :
    showElements mnemonic [.str bytes] state = state.showText mnemonic bytes :=
  Outcome.andThen_done _

end StreamState

/-- Every single-precision number is held by an operand. -/
theorem Object.asNumber?_real_widen (x : Float32) :
    (Object.real (Number.Binary32.widen x)).asNumber? = some x := by
  rw [asNumber?, Number.Binary32.narrow_widen]

namespace Instruction

variable {mnemonic : String} {x y : Object} {a b : Float32}

/-- An operand that holds a number is read as it. -/
theorem number_of_asNumber? (hx : x.asNumber? = some a) : number mnemonic x = .ok a := by
  rw [number, hx]

/-- One operand that holds a number is read as it. -/
theorem oneOperand_number (hx : x.asNumber? = some a) (make : Float32 → Instruction) :
    oneOperand mnemonic number make [x] = .ok (make a) := by
  rw [oneOperand, number_of_asNumber? hx]
  rfl

/-- Two operands that hold numbers are read as them. -/
theorem twoOperands_number (hx : x.asNumber? = some a) (hy : y.asNumber? = some b)
    (make : Float32 → Float32 → Instruction) :
    twoOperands mnemonic number number make [x, y] = .ok (make a b) := by
  rw [twoOperands, number_of_asNumber? hx, number_of_asNumber? hy]
  rfl

end Instruction

namespace Setup

variable {setup : Setup} {forms : FormRunner} {state : StreamState} {x y : Object}
  {a b : Float32}

/-- Setting the leading changes the graphics state only. -/
theorem step_setLeading (hr : setup.registry = .standard) (hx : x.asNumber? = some a) :
    setup.step forms state ⟨"TL", [x]⟩ =
      .done (state.modifyGraphics fun g => { g with leading := a }) := by
  have hread : Instruction.read "TL" .setLeading [x] = .ok (.setLeading a) :=
    Instruction.oneOperand_number hx .setLeading
  exact step_standard hr .setLeading nofun hread

/-- Setting the space after word spaces changes the graphics state only. -/
theorem step_setWordSpacing (hr : setup.registry = .standard) (hx : x.asNumber? = some a) :
    setup.step forms state ⟨"Tw", [x]⟩ =
      .done (state.modifyGraphics fun g => { g with wordSpacing := a }) := by
  have hread : Instruction.read "Tw" .setWordSpacing [x] = .ok (.setWordSpacing a) :=
    Instruction.oneOperand_number hx .setWordSpacing
  exact step_standard hr .setWordSpacing nofun hread

/-- Setting the space after glyphs changes the graphics state only. -/
theorem step_setCharSpacing (hr : setup.registry = .standard) (hx : x.asNumber? = some a) :
    setup.step forms state ⟨"Tc", [x]⟩ =
      .done (state.modifyGraphics fun g => { g with charSpacing := a }) := by
  have hread : Instruction.read "Tc" .setCharSpacing [x] = .ok (.setCharSpacing a) :=
    Instruction.oneOperand_number hx .setCharSpacing
  exact step_standard hr .setCharSpacing nofun hread

section TextObject

variable (hr : setup.registry = .standard) (hp : state.position ≠ none)
include hr hp

/-- Inside a text object a line is started where the operands say. -/
theorem step_moveText (hx : x.asNumber? = some a) (hy : y.asNumber? = some b) :
    setup.step forms state ⟨"Td", [x, y]⟩ = state.moveText "Td" a b := by
  have hread : Instruction.read "Td" .moveText [x, y] = .ok (.moveText a b) :=
    Instruction.twoOperands_number hx hy .moveText
  exact step_standard hr .moveText (fun _ => hp) hread

/-- Inside a text object the leading is set before a line is started. -/
theorem step_moveTextSetLeading (hx : x.asNumber? = some a) (hy : y.asNumber? = some b) :
    setup.step forms state ⟨"TD", [x, y]⟩ =
      (state.modifyGraphics fun g => { g with leading := -b }).moveText "TD" a b := by
  have hread : Instruction.read "TD" .moveTextSetLeading [x, y] = .ok (.moveTextSetLeading a b) :=
    Instruction.twoOperands_number hx hy .moveTextSetLeading
  exact step_standard hr .moveTextSetLeading (fun _ => hp) hread

/-- Inside a text object the next line is started. -/
theorem step_nextLine : setup.step forms state ⟨"T*", []⟩ = state.nextLine "T*" := by
  have hread : Instruction.read "T*" .nextLine [] = .ok .nextLine := rfl
  exact step_standard hr .nextLine (fun _ => hp) hread

/-- Inside a text object a string is shown. -/
theorem step_showText (bytes : List UInt8) :
    setup.step forms state ⟨"Tj", [.str bytes]⟩ = state.showText "Tj" bytes := by
  have hread : Instruction.read "Tj" .showText [.str bytes] = .ok (.showText bytes) := rfl
  exact step_standard hr .showText (fun _ => hp) hread

/-- Inside a text object the elements of a text array are shown. -/
theorem step_showTextArray (elements : List Object) :
    setup.step forms state ⟨"TJ", [.array elements]⟩ =
      StreamState.showElements "TJ" elements state := by
  have hread : Instruction.read "TJ" .showTextArray [.array elements] =
      .ok (.showTextArray elements) := rfl
  exact step_standard hr .showTextArray (fun _ => hp) hread

/-- Inside a text object a string is shown on the next line. -/
theorem step_nextLineShowText (bytes : List UInt8) :
    setup.step forms state ⟨"'", [.str bytes]⟩ =
      (state.nextLine "'").andThen fun next => next.showText "'" bytes := by
  have hread : Instruction.read "'" .nextLineShowText [.str bytes] =
      .ok (.nextLineShowText bytes) := rfl
  exact step_standard hr .nextLineShowText (fun _ => hp) hread

/-- Inside a text object a string is shown on the next line after both spacings are set. -/
theorem step_nextLineShowTextSpaced (hx : x.asNumber? = some a) (hy : y.asNumber? = some b)
    (bytes : List UInt8) :
    setup.step forms state ⟨"\"", [x, y, .str bytes]⟩ =
      ((state.modifyGraphics fun g => { g with wordSpacing := a, charSpacing := b }).nextLine
        "\"").andThen fun next => next.showText "\"" bytes := by
  have hread : Instruction.read "\"" .nextLineShowTextSpaced [x, y, .str bytes] =
      .ok (.nextLineShowTextSpaced a b bytes) := by
    rw [Instruction.read, Instruction.spacedText, Instruction.number_of_asNumber? hx,
      Instruction.number_of_asNumber? hy]
    rfl
  exact step_standard hr .nextLineShowTextSpaced (fun _ => hp) hread

end TextObject

/-- Inside a text object each derived text operator leads to the same outcome as the
operators that it stands for: the same state, events and error, whether or not there is one.
Operands may be any objects that hold the numbers in question, and a text array may hold
anything. -/
theorem step_derived (hr : setup.registry = .standard) (hp : state.position ≠ none) :
    (∀ zero down : Object, zero.asNumber? = some 0.0 →
      down.asNumber? = some (-state.graphics.leading) →
        setup.step forms state ⟨"T*", []⟩ = setup.step forms state ⟨"Td", [zero, down]⟩) ∧
    (∀ (x y up : Object) (a b : Float32), x.asNumber? = some a → y.asNumber? = some b →
      up.asNumber? = some (-b) →
        setup.step forms state ⟨"TD", [x, y]⟩ =
          (setup.step forms state ⟨"TL", [up]⟩).andThen fun next =>
            setup.step forms next ⟨"Td", [x, y]⟩) ∧
    (∀ bytes : List UInt8,
      setup.step forms state ⟨"'", [.str bytes]⟩ =
        (setup.step forms state ⟨"T*", []⟩).andThen fun next =>
          setup.step forms next ⟨"Tj", [.str bytes]⟩) ∧
    (∀ (x y : Object) (a b : Float32) (bytes : List UInt8), x.asNumber? = some a →
      y.asNumber? = some b →
        setup.step forms state ⟨"\"", [x, y, .str bytes]⟩ =
          (setup.step forms state ⟨"Tw", [x]⟩).andThen fun next =>
            (setup.step forms next ⟨"Tc", [y]⟩).andThen fun next =>
              setup.step forms next ⟨"'", [.str bytes]⟩) ∧
    (∀ bytes : List UInt8,
      setup.step forms state ⟨"TJ", [.array [.str bytes]]⟩ =
        setup.step forms state ⟨"Tj", [.str bytes]⟩) ∧
    ∀ first second : List Object,
      setup.step forms state ⟨"TJ", [.array (first ++ second)]⟩ =
        (setup.step forms state ⟨"TJ", [.array first]⟩).andThen fun next =>
          setup.step forms next ⟨"TJ", [.array second]⟩ := by
  refine ⟨fun zero down hzero hdown => ?_, fun x y up a b hx hy hup => ?_, fun bytes => ?_,
    fun x y a b bytes hx hy => ?_, fun bytes => ?_, fun first second => ?_⟩
  · rw [step_nextLine hr hp, step_moveText hr hp hzero hdown]
    exact StreamState.withPosition_mnemonic hp "T*" "Td" _
  · have hled : (state.modifyGraphics fun g => { g with leading := -b }).position ≠ none := hp
    rw [step_moveTextSetLeading hr hp hx hy, step_setLeading hr hup, Outcome.done_andThen,
      step_moveText hr hled hx hy]
    exact StreamState.withPosition_mnemonic hled "TD" "Td" _
  · rw [step_nextLineShowText hr hp, step_nextLine hr hp,
      StreamState.nextLine_showText_mnemonic hp "'" "T*" "Tj"]
    refine Outcome.andThen_congr fun _ => ?_
    have hline : (state.nextLine "T*").state.position ≠ none :=
      StreamState.withPosition_position hp "T*" _
    rw [step_showText hr hline]
  · have hword : (state.modifyGraphics fun g => { g with wordSpacing := a }).position ≠ none := hp
    have hchar : ((state.modifyGraphics fun g => { g with wordSpacing := a }).modifyGraphics
        fun g => { g with charSpacing := b }).position ≠ none := hword
    have hboth : (state.modifyGraphics fun g =>
        { g with wordSpacing := a, charSpacing := b }).position ≠ none := hp
    rw [step_nextLineShowTextSpaced hr hp hx hy, step_setWordSpacing hr hx, Outcome.done_andThen,
      step_setCharSpacing hr hy, Outcome.done_andThen, step_nextLineShowText hr hchar,
      StreamState.modifyGraphics_modifyGraphics]
    exact StreamState.nextLine_showText_mnemonic hboth "\"" "'" "'" bytes
  · rw [step_showTextArray hr hp, step_showText hr hp, StreamState.showElements_singleton]
    exact StreamState.showText_mnemonic hp "TJ" "Tj" bytes
  · rw [step_showTextArray hr hp, step_showTextArray hr hp, StreamState.showElements_append]
    refine Outcome.andThen_congr fun _ => ?_
    rw [step_showTextArray hr (StreamState.showElements_position hp "TJ" first)]

/-- A text object with lines twelve apart, in which no font is set. -/
def unsetText : StreamState :=
  { StreamState.idle { GraphicsState.initial with leading := 12.0 } with
    position := some .origin }

/-- Each derived text operator and its expansion where no font is set: the ones that move
succeed, the ones that show a string fail alike after moving. -/
theorem step_derived_unset :
    standard.registry = .standard ∧ unsetText.position ≠ none ∧
    standard.invoke unsetText ⟨"T*", []⟩ =
      standard.invoke unsetText ⟨"Td", [.int 0, .real (Number.Binary32.widen (-12.0))]⟩ ∧
    (standard.invoke unsetText ⟨"TD", [.int 3, .int (-7)]⟩ =
      (standard.invoke unsetText ⟨"TL", [.int 7]⟩).andThen fun next =>
        standard.invoke next ⟨"Td", [.int 3, .int (-7)]⟩) ∧
    (standard.invoke unsetText ⟨"'", [.str [0x41]]⟩ =
      (standard.invoke unsetText ⟨"T*", []⟩).andThen fun next =>
        standard.invoke next ⟨"Tj", [.str [0x41]]⟩) ∧
    (standard.invoke unsetText ⟨"\"", [.int 1, .int 2, .str [0x41]]⟩ =
      (standard.invoke unsetText ⟨"Tw", [.int 1]⟩).andThen fun next =>
        (standard.invoke next ⟨"Tc", [.int 2]⟩).andThen fun next =>
          standard.invoke next ⟨"'", [.str [0x41]]⟩) ∧
    standard.invoke unsetText ⟨"TJ", [.array [.str [0x41]]]⟩ =
      standard.invoke unsetText ⟨"Tj", [.str [0x41]]⟩ ∧
    standard.invoke unsetText ⟨"TJ", [.array ([.int 5] ++ [.null])]⟩ =
      (standard.invoke unsetText ⟨"TJ", [.array [.int 5]]⟩).andThen fun next =>
        standard.invoke next ⟨"TJ", [.array [.null]]⟩ := by
  have hr : standard.registry = .standard := rfl
  have hp : unsetText.position ≠ none := Option.some_ne_none _
  have hzero : Object.asNumber? (.int 0) = some 0.0 := by decide
  have hdown : (Object.real (Number.Binary32.widen (-12.0))).asNumber? =
      some (-unsetText.graphics.leading) := Object.asNumber?_real_widen _
  have hup : Object.asNumber? (.int 7) = some (-Number.Binary32.ofInteger (-7)) := by decide
  obtain ⟨hline, hled, hquote, hspaced, hsingle, happend⟩ :=
    @step_derived standard standard.pageForms unsetText hr hp
  exact ⟨hr, hp, hline _ _ hzero hdown, hled _ _ _ _ _ rfl rfl hup, hquote _,
    hspaced _ _ _ _ _ rfl rfl, hsingle _, happend _ _⟩

end Setup

end PageText
