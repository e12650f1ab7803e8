import Mathlib.Data.Set.Card
import Mathlib.Order.Bounds.Basic
import PageText.Proofs.Artifact

/-!
# Matched openings

Every closing of marked content is matched with the nearest opening before it that is still
unmatched, and is passed over if there is none. This says which openings are unmatched at each
point of a list of operations, without a stack: it looks at the whole history, and at nothing
but the openings and closings in it. The interpreter keeps a stack instead. This module shows
that the stack holds just the unmatched openings, the last one on top, so that tag, identifier
and artifact flag of what is shown are told by the matching. Forms are left out: they run with a
copy of the stack, which `PageText.Proofs.Artifact` follows.
-/

namespace PageText

/-- The properties of a sequence give the identifier: as an integer, in the dictionary that
they are, or in the property list that they name. -/
inductive Object.GivesMcid (resources : Resources) : Object → Int → Prop where
  /-- They are a dictionary. -/
  | inPlace {entries : Dict} {mcid : Int} (hm : Dict.get? entries "MCID" = some (.int mcid)) :
      GivesMcid resources (.dict entries) mcid
  /-- They name a property list. -/
  | byName {name : String} {entries : Dict} {mcid : Int}
      (hp : resources.properties? name = some entries)
      (hm : Dict.get? entries "MCID" = some (.int mcid)) :
      GivesMcid resources (.name name) mcid

namespace Operation

/-- The operation opens a marked-content sequence. -/
def IsOpening (operation : Operation) : Prop :=
  operation.operator = "BMC" ∨ operation.operator = "BDC"

/-- The operation closes a marked-content sequence. -/
def IsClosing (operation : Operation) : Prop := operation.operator = "EMC"

/-- The operation opens or closes a marked-content sequence. -/
def IsBracket (operation : Operation) : Prop := operation.IsOpening ∨ operation.IsClosing

instance : DecidablePred IsOpening := fun operation =>
  inferInstanceAs (Decidable (operation.operator = "BMC" ∨ operation.operator = "BDC"))

instance : DecidablePred IsClosing := fun operation =>
  inferInstanceAs (Decidable (operation.operator = "EMC"))

instance : DecidablePred IsBracket := fun operation =>
  inferInstanceAs (Decidable (operation.IsOpening ∨ operation.IsClosing))

/-- No opening is a closing. -/
theorem IsOpening.not_isClosing {operation : Operation} (h : operation.IsOpening) :
    ¬operation.IsClosing := by
  intro hc
  rcases h with h | h
  · exact absurd (h.symm.trans hc) (by decide)
  · exact absurd (h.symm.trans hc) (by decide)

/-- The tag that an opening names. -/
def HasTag (tag : String) (operation : Operation) : Prop :=
  operation.operands.head? = some (.name tag)

/-- The identifier that the properties of an opening give. -/
def HasMcid (resources : Resources) (mcid : Int) (operation : Operation) : Prop :=
  ∃ tag properties, operation = ⟨"BDC", [tag, properties]⟩ ∧
    properties.GivesMcid resources mcid

/-- There is an operation at the position, and it has the property. -/
def At (operations : List Operation) (position : Nat) (p : Operation → Prop) : Prop :=
  ∃ operation ∈ operations[position]?, p operation

instance (operations : List Operation) (position : Nat) (p : Operation → Prop)
    [DecidablePred p] : Decidable (At operations position p) :=
  inferInstanceAs (Decidable (∃ operation ∈ operations[position]?, p operation))

/-- The opening at a position is not matched with any closing before the bound. -/
def OpenBefore (operations : List Operation) (partner : Nat → Option Nat)
    (bound position : Nat) : Prop :=
  position < bound ∧ At operations position IsOpening ∧
    ∀ closing < bound, partner closing ≠ some position

/-- Which opening each closing is matched with: the last one before it that no closing in
between is matched with, and none if there is no such opening. -/
def IsMatching (operations : List Operation) (partner : Nat → Option Nat) : Prop :=
  ∀ closing opening, partner closing = some opening ↔
    At operations closing IsClosing ∧
      IsGreatest {position | OpenBefore operations partner closing position} opening

variable {operations : List Operation} {partner : Nat → Option Nat} {position : Nat}

/-- At one position there is one operation. -/
theorem at_iff {p : Operation → Prop} {operation : Operation}
    (h : operations[position]? = some operation) : At operations position p ↔ p operation := by
  simp only [At, h, Option.mem_some_iff, exists_eq_left']

/-- Where a closing is, no opening is. -/
theorem At.not_opening (h : At operations position IsClosing) :
    ¬At operations position IsOpening := by
  obtain ⟨operation, hoperation, hclosing⟩ := h
  rw [at_iff hoperation]
  exact fun hopening => hopening.not_isClosing hclosing

/-- There is no more than one matching, because each closing only looks at those before it. -/
theorem IsMatching.unique {other : Nat → Option Nat} (h : IsMatching operations partner)
    (ho : IsMatching operations other) : other = partner := by
  funext closing
  induction closing using Nat.strongRecOn with
  | ind closing ih =>
    have hopen (position : Nat) : OpenBefore operations other closing position ↔
        OpenBefore operations partner closing position := by
      have hmatched : (∀ earlier < closing, other earlier ≠ some position) ↔
          ∀ earlier < closing, partner earlier ≠ some position :=
        forall₂_congr fun earlier hlt => by rw [ih earlier hlt]
      rw [OpenBefore, OpenBefore, hmatched]
    refine Option.ext fun opening => ?_
    rw [ho closing opening, h closing opening]
    simp only [hopen]

/-- The positions of the openings on a stack that is kept from the start, the last one on
top. -/
def openPositions (operations : List Operation) : Nat → List Nat
  | 0 => []
  | bound + 1 =>
    if At operations bound IsOpening then bound :: openPositions operations bound
    else if At operations bound IsClosing then (openPositions operations bound).tail
    else openPositions operations bound

/-- An opening goes on top of the stack. -/
theorem openPositions_of_opening {bound : Nat} (h : At operations bound IsOpening) :
    openPositions operations (bound + 1) = bound :: openPositions operations bound := by
  rw [openPositions, if_pos h]

/-- A closing takes the top off the stack. -/
theorem openPositions_of_closing {bound : Nat} (h : At operations bound IsClosing) :
    openPositions operations (bound + 1) = (openPositions operations bound).tail := by
  rw [openPositions, if_neg h.not_opening, if_pos h]

/-- Any other operation leaves the stack alone. -/
theorem openPositions_of_other {bound : Nat} (ho : ¬At operations bound IsOpening)
    (hc : ¬At operations bound IsClosing) :
    openPositions operations (bound + 1) = openPositions operations bound := by
  rw [openPositions, if_neg ho, if_neg hc]

/-- The positions on the stack fall from top to bottom, and all of them are behind. -/
theorem openPositions_sorted (operations : List Operation) (bound : Nat) :
    (bound :: openPositions operations bound).Pairwise (· > ·) := by
  induction bound with
  | zero => exact List.pairwise_singleton _ 0
  | succ bound ih =>
    have hlater {positions : List Nat} (hp : positions.Pairwise (· > ·))
        (hb : ∀ position ∈ positions, position ≤ bound) :
        ((bound + 1) :: positions).Pairwise (· > ·) :=
      List.pairwise_cons.2 ⟨fun position hm => Nat.lt_succ_of_le (hb position hm), hp⟩
    obtain ⟨hbehind, hsorted⟩ := List.pairwise_cons.1 ih
    by_cases hopening : At operations bound IsOpening
    · rw [openPositions_of_opening hopening]
      refine hlater ih fun position hm => ?_
      rcases List.mem_cons.1 hm with rfl | hm
      · exact Nat.le_refl position
      · exact Nat.le_of_lt (hbehind position hm)
    · by_cases hclosing : At operations bound IsClosing
      · rw [openPositions_of_closing hclosing]
        exact hlater hsorted.tail fun position hm =>
          Nat.le_of_lt (hbehind position (List.mem_of_mem_tail hm))
      · rw [openPositions_of_other hopening hclosing]
        exact hlater hsorted fun position hm => Nat.le_of_lt (hbehind position hm)

/-- The greatest of falling numbers is the first one. -/
theorem isGreatest_iff_head? {positions : List Nat} (hp : positions.Pairwise (· > ·))
    {greatest : Nat} :
    IsGreatest {position | position ∈ positions} greatest ↔ positions.head? = some greatest := by
  cases positions with
  | nil =>
    exact iff_of_false (fun h => List.not_mem_nil h.1) (Option.some_ne_none greatest).symm
  | cons first others =>
    obtain ⟨hfirst, -⟩ := List.pairwise_cons.1 hp
    have hbound : IsGreatest {position | position ∈ first :: others} first := by
      refine ⟨List.mem_cons_self, fun position hm => ?_⟩
      rcases List.mem_cons.1 hm with rfl | hm
      · exact Nat.le_refl position
      · exact Nat.le_of_lt (hfirst position hm)
    rw [List.head?_cons, Option.some.injEq]
    exact ⟨fun h => hbound.unique h, fun h => h ▸ hbound⟩

/-- Each closing with the opening on top of the stack. -/
def topPartner (operations : List Operation) (closing : Nat) : Option Nat :=
  if At operations closing IsClosing then (openPositions operations closing).head? else none

/-- An opening on top of the stack is behind. -/
theorem lt_of_topPartner {closing opening : Nat}
    (h : topPartner operations closing = some opening) : opening < closing := by
  rw [topPartner] at h
  split at h
  · have hsorted := openPositions_sorted operations closing
    exact (List.pairwise_cons.1 hsorted).1 opening (List.mem_of_mem_head? h)
  · cases h

/-- One operation further an opening is open if it stands there, or was open and is not taken
there. -/
theorem openBefore_succ_iff {bound : Nat} :
    OpenBefore operations (topPartner operations) (bound + 1) position ↔
      position = bound ∧ At operations bound IsOpening ∨
      OpenBefore operations (topPartner operations) bound position ∧
        topPartner operations bound ≠ some position := by
  by_cases hp : position = bound
  · have hbehind (closing : Nat) (hc : closing < bound + 1) :
        topPartner operations closing ≠ some bound := by
      intro htop
      have := lt_of_topPartner htop
      omega
    rw [hp]
    constructor
    · exact fun h => Or.inl ⟨rfl, h.2.1⟩
    · rintro (⟨-, hopening⟩ | ⟨hopen, -⟩)
      · exact ⟨Nat.lt_succ_self bound, hopening, hbehind⟩
      · exact absurd hopen.1 (Nat.lt_irrefl bound)
  · have hlt : position < bound + 1 ↔ position < bound := by omega
    simp only [OpenBefore, hlt, Nat.forall_lt_succ_right, hp, false_and, false_or, and_assoc]

/-- Without the first of falling numbers all others are left. -/
theorem mem_tail_iff {positions : List Nat} (hp : positions.Pairwise (· > ·)) :
    position ∈ positions.tail ↔ position ∈ positions ∧ positions.head? ≠ some position := by
  cases positions with
  | nil => exact iff_of_false List.not_mem_nil fun h => List.not_mem_nil h.1
  | cons first others =>
    have hfirst : first ∉ others := fun hm =>
      Nat.lt_irrefl first ((List.pairwise_cons.1 hp).1 first hm)
    simp only [List.tail_cons, List.mem_cons, List.head?_cons, ne_eq, Option.some.injEq]
    constructor
    · intro hm
      refine ⟨Or.inr hm, ?_⟩
      rintro rfl
      exact hfirst hm
    · rintro ⟨rfl | hm, hne⟩
      · exact absurd rfl hne
      · exact hm

/-- On the stack are the openings that no closing has taken from its top. -/
theorem mem_openPositions_iff (bound : Nat) :
    position ∈ openPositions operations bound ↔
      OpenBefore operations (topPartner operations) bound position := by
  induction bound with
  | zero => exact iff_of_false List.not_mem_nil fun h => Nat.not_lt_zero _ h.1
  | succ bound ih =>
    have hsorted := (openPositions_sorted operations bound).of_cons
    rw [openBefore_succ_iff, ← ih]
    by_cases hopening : At operations bound IsOpening
    · have hnone : topPartner operations bound = none :=
        if_neg fun hclosing => hclosing.not_opening hopening
      rw [openPositions_of_opening hopening, List.mem_cons, hnone]
      simp only [hopening, ne_eq, reduceCtorEq, not_false_iff, and_true]
    · simp only [hopening, and_false, false_or]
      by_cases hclosing : At operations bound IsClosing
      · rw [openPositions_of_closing hclosing, topPartner, if_pos hclosing,
          mem_tail_iff hsorted]
      · rw [openPositions_of_other hopening hclosing, topPartner, if_neg hclosing]
        simp only [ne_eq, reduceCtorEq, not_false_iff, and_true]

/-- The stack matches as it should. -/
theorem topPartner_isMatching (operations : List Operation) :
    IsMatching operations (topPartner operations) := by
  intro closing opening
  have hsorted := (openPositions_sorted operations closing).of_cons
  simp only [← mem_openPositions_iff]
  rw [isGreatest_iff_head? hsorted, topPartner]
  split
  · rename_i hclosing
    exact ⟨fun h => ⟨hclosing, h⟩, fun h => h.2⟩
  · rename_i hclosing
    exact iff_of_false (Option.some_ne_none opening).symm fun h => hclosing h.1

/-- The operation opens the sequence. -/
structure Opens (resources : Resources) (sequence : MarkedSequence) (operation : Operation) :
    Prop where
  /-- It names its tag. -/
  tag : operation.HasTag sequence.tag
  /-- It gives its identifier, if there is one. -/
  mcid (mcid : Int) : sequence.mcid = some mcid ↔ operation.HasMcid resources mcid

variable {resources : Resources} {sequence : MarkedSequence}

/-- The opening at a position has no tag but that of its sequence. -/
theorem at_hasTag_iff (h : At operations position (Opens resources sequence)) {tag : String} :
    At operations position (HasTag tag) ↔ sequence.tag = tag := by
  obtain ⟨operation, hoperation, hopens⟩ := h
  rw [at_iff hoperation, HasTag, hopens.tag, Option.some.injEq, Object.name.injEq]

/-- The opening at a position has no identifier but that of its sequence. -/
theorem at_hasMcid_iff (h : At operations position (Opens resources sequence)) {mcid : Int} :
    At operations position (HasMcid resources mcid) ↔ sequence.mcid = some mcid := by
  obtain ⟨operation, hoperation, hopens⟩ := h
  rw [at_iff hoperation, hopens.mcid]

end Operation

/-- The marked content is what the openings at some positions make. -/
structure MarkedContext.MadeBy (context : MarkedContext) (resources : Resources)
    (operations : List Operation) (openings : Set Nat) : Prop where
  /-- The tag is that of the last opening. -/
  tag (tag : String) : context.tag = some tag ↔ ∃ opening, IsGreatest openings opening ∧
    Operation.At operations opening (Operation.HasTag tag)
  /-- It is missing only if there is no opening. -/
  tag_eq_none : context.tag = none ↔ openings = ∅
  /-- The identifier is that of the last opening that has one. -/
  mcid (mcid : Int) : context.mcid = some mcid ↔ ∃ opening,
    IsGreatest {position | position ∈ openings ∧
      ∃ found, Operation.At operations position (Operation.HasMcid resources found)} opening ∧
    Operation.At operations opening (Operation.HasMcid resources mcid)
  /-- It lies in an artifact if any of the openings is tagged as one. -/
  inArtifact : context.inArtifact = true ↔ ∃ opening ∈ openings,
    Operation.At operations opening (Operation.HasTag "Artifact")

/-- The sequences are those that the openings at the positions open, in this order. -/
abbrev OpenedAt (resources : Resources) (operations : List Operation) :
    List MarkedSequence → List Nat → Prop :=
  List.Forall₂ fun sequence position =>
    Operation.At operations position (Operation.Opens resources sequence)

namespace OpenedAt

variable {resources : Resources} {operations : List Operation}
  {sequences : List MarkedSequence} {positions : List Nat}

/-- The identifier found first is that of the last opening that has one. -/
theorem findSome?_mcid_iff (h : OpenedAt resources operations sequences positions)
    (hp : positions.Pairwise (· > ·)) {mcid : Int} :
    sequences.findSome? MarkedSequence.mcid = some mcid ↔ ∃ opening,
      IsGreatest {position | position ∈ positions ∧
        ∃ found, Operation.At operations position (Operation.HasMcid resources found)} opening ∧
      Operation.At operations opening (Operation.HasMcid resources mcid) := by
  induction h with
  | nil =>
    refine iff_of_false (Option.some_ne_none mcid).symm ?_
    rintro ⟨_, h, _⟩
    exact List.not_mem_nil h.1.1
  | @cons sequence position sequences positions hfirst _ ih =>
    obtain ⟨hbefore, hsorted⟩ := List.pairwise_cons.1 hp
    rw [List.findSome?_cons]
    cases hmcid : sequence.mcid with
    | some found =>
      have hhas : Operation.At operations position (Operation.HasMcid resources found) :=
        (Operation.at_hasMcid_iff hfirst).2 hmcid
      have hgreatest : IsGreatest {other | other ∈ position :: positions ∧
          ∃ found, Operation.At operations other (Operation.HasMcid resources found)}
          position := by
        refine ⟨⟨List.mem_cons_self, found, hhas⟩, fun other hother => ?_⟩
        rcases List.mem_cons.1 hother.1 with rfl | hm
        · exact Nat.le_refl other
        · exact Nat.le_of_lt (hbefore other hm)
      have hiff : Operation.At operations position (Operation.HasMcid resources mcid) ↔
          sequence.mcid = some mcid := Operation.at_hasMcid_iff hfirst
      rw [hmcid] at hiff
      dsimp only
      rw [← hiff]
      constructor
      · exact fun h => ⟨position, hgreatest, h⟩
      · rintro ⟨opening, hopening, h⟩
        rwa [hgreatest.unique hopening]
    | none =>
      have hnot (found : Int) :
          ¬Operation.At operations position (Operation.HasMcid resources found) := by
        rw [Operation.at_hasMcid_iff hfirst, hmcid]
        exact (Option.some_ne_none found).symm
      have hrest : {other | other ∈ position :: positions ∧
          ∃ found, Operation.At operations other (Operation.HasMcid resources found)} =
          {other | other ∈ positions ∧
            ∃ found, Operation.At operations other (Operation.HasMcid resources found)} := by
        refine Set.ext fun other => and_congr_left ?_
        rintro ⟨found, hfound⟩
        rw [List.mem_cons]
        refine or_iff_right ?_
        rintro rfl
        exact hnot found hfound
      dsimp only
      rw [hrest, ih hsorted]

/-- One of the sequences has the tag if one of the openings does. -/
theorem exists_tag_iff (h : OpenedAt resources operations sequences positions) {tag : String} :
    (∃ sequence ∈ sequences, sequence.tag = tag) ↔
      ∃ opening ∈ positions, Operation.At operations opening (Operation.HasTag tag) := by
  induction h with
  | nil => simp only [List.not_mem_nil, false_and, exists_false]
  | cons hfirst _ ih =>
    rw [List.exists_mem_cons_iff, List.exists_mem_cons_iff, ih,
      Operation.at_hasTag_iff hfirst]

/-- Open sequences make the marked content that their openings do. -/
theorem madeBy (h : OpenedAt resources operations sequences positions)
    (hp : positions.Pairwise (· > ·)) :
    (MarkedContext.ofSequences sequences).MadeBy resources operations
      {position | position ∈ positions} where
  tag tag := by
    simp only [Operation.isGreatest_iff_head? hp]
    cases h with
    | nil =>
      refine iff_of_false (Option.some_ne_none tag).symm ?_
      rintro ⟨_, h, _⟩
      cases h
    | @cons sequence position sequences positions hfirst _ =>
      simp only [MarkedContext.ofSequences, List.head?_cons, Option.map_some, Option.some.injEq,
        exists_eq_left', Operation.at_hasTag_iff hfirst]
  tag_eq_none := by
    cases h with
    | nil => exact iff_of_true rfl (Set.eq_empty_of_forall_notMem fun _ => List.not_mem_nil)
    | @cons sequence position sequences positions _ _ =>
      refine iff_of_false (Option.some_ne_none sequence.tag) fun hempty => ?_
      have hm : position ∈ {other | other ∈ position :: positions} := List.mem_cons_self
      rw [hempty] at hm
      exact hm
  mcid mcid := h.findSome?_mcid_iff hp
  inArtifact := by
    rw [MarkedContext.inArtifact_ofSequences_iff]
    exact h.exists_tag_iff

/-- There are as many open sequences as openings. -/
theorem length_eq (h : OpenedAt resources operations sequences positions)
    (hp : positions.Pairwise (· > ·)) :
    sequences.length = {position | position ∈ positions}.ncard := by
  have hnodup : positions.Nodup := hp.imp fun hgt => Nat.ne_of_gt hgt
  have hset : {position | position ∈ positions} = (positions.toFinset : Set Nat) :=
    (List.coe_toFinset positions).symm
  rw [List.Forall₂.length_eq h, hset, Set.ncard_coe_finset, List.toFinset_card_of_nodup hnodup]

end OpenedAt

/-- The properties give the identifier that the interpreter finds. -/
theorem StreamState.mcid?_eq_some_iff {state : StreamState} {properties : Object} {mcid : Int} :
    state.mcid? properties = some mcid ↔
      properties.GivesMcid state.activeResources mcid := by
  have hvalue {entries : Dict} :
      (Dict.get? entries "MCID").bind Object.asInt? = some mcid ↔
        Dict.get? entries "MCID" = some (.int mcid) := by
    rw [Option.bind_eq_some_iff]
    constructor
    · rintro ⟨value, hget, hint⟩
      cases value with
      | int found =>
        cases hint
        exact hget
      | _ => cases hint
    · exact fun hget => ⟨_, hget, rfl⟩
  cases properties with
  | dict entries =>
    refine hvalue.trans ⟨.inPlace, fun h => ?_⟩
    cases h with
    | inPlace hm => exact hm
  | name name =>
    cases hp : state.activeResources.properties? name with
    | none =>
      rw [mcid?, hp]
      refine iff_of_false (Option.some_ne_none mcid).symm fun h => ?_
      cases h with
      | byName hlist _ => cases hp.symm.trans hlist
    | some entries =>
      rw [mcid?, hp]
      refine hvalue.trans ⟨.byName hp, fun h => ?_⟩
      cases h with
      | byName hlist hm =>
        cases hp.symm.trans hlist
        exact hm
  | _ =>
    refine iff_of_false (Option.some_ne_none mcid).symm fun h => ?_
    cases h

/-- The operators that open or close marked content. -/
def Operator.brackets : List Operator :=
  [.beginMarkedContent, .beginMarkedContentWithProperties, .endMarkedContent]

/-- An instruction of any other operator is no bracket. -/
theorem Instruction.bracket?_eq_none {instruction : Instruction}
    (h : instruction.operator ∉ Operator.brackets) (state : StreamState) :
    instruction.bracket? state = none := by
  cases instruction with
  | beginMarkedContent | beginMarkedContentWithProperties | endMarkedContent =>
    simp only [operator, Operator.brackets, List.mem_cons, true_or, or_true, not_true] at h
  | _ => rfl

/-- Brackets are known by their mnemonics. -/
theorem Operation.isBracket_iff {operator : Operator} {operands : List Object} :
    (Operation.mk operator.mnemonic operands).IsBracket ↔ operator ∈ Operator.brackets := by
  have hmnemonic (other : Operator) :
      operator.mnemonic = other.mnemonic ↔ operator = other :=
    ⟨Operator.eq_of_mnemonic_eq, congrArg Operator.mnemonic⟩
  have hplain : operator.mnemonic = "BMC" ↔ operator = .beginMarkedContent :=
    hmnemonic .beginMarkedContent
  have hlisted : operator.mnemonic = "BDC" ↔ operator = .beginMarkedContentWithProperties :=
    hmnemonic .beginMarkedContentWithProperties
  have hclosing : operator.mnemonic = "EMC" ↔ operator = .endMarkedContent :=
    hmnemonic .endMarkedContent
  simp only [IsBracket, IsOpening, IsClosing, hplain, hlisted, hclosing, Operator.brackets,
    List.mem_cons, List.not_mem_nil, or_false, or_assoc]

namespace Setup

variable {setup : Setup} {forms : FormRunner} {state : StreamState} {operation : Operation}
  {operations : List Operation}

/-- What an operation that succeeds is to the open sequences is told by its operator and its
operands. -/
theorem bracket?_cases (hr : setup.registry = .standard)
    (hs : (setup.step forms state operation).error = none) :
    (operation.IsOpening ∧ ∃ sequence, operation.Opens state.activeResources sequence ∧
      setup.bracket? state operation = some (.opening sequence)) ∨
    (operation.IsClosing ∧ setup.bracket? state operation = some .closing) ∨
    (¬operation.IsBracket ∧ setup.bracket? state operation = none) := by
  obtain ⟨mnemonic, operands⟩ := operation
  cases hl : setup.registry.lookup? mnemonic with
  | none =>
    have hunknown (operator : Operator) : mnemonic ≠ operator.mnemonic := by
      rintro rfl
      rw [hr, Registry.lookup?_mnemonic] at hl
      cases hl
    refine Or.inr (Or.inr ⟨?_, ?_⟩)
    · rintro ((h | h) | h)
      · exact hunknown .beginMarkedContent h
      · exact hunknown .beginMarkedContentWithProperties h
      · exact hunknown .endMarkedContent h
    · rw [bracket?, hl]
  | some operator =>
    obtain ⟨-, instruction, hread, -⟩ := exists_read_of_success hl hs
    have hbracket : setup.bracket? state ⟨mnemonic, operands⟩ = instruction.bracket? state := by
      rw [bracket?, hl]
      simp only [hread]
    rw [hbracket]
    rw [hr] at hl
    cases Registry.eq_mnemonic_of_lookup? hl
    cases operator with
    | beginMarkedContent =>
      obtain ⟨tag, rfl, rfl⟩ := Instruction.of_oneName hread
      refine Or.inl ⟨Or.inl rfl, ⟨tag, none⟩, ⟨rfl, fun mcid => ?_⟩, rfl⟩
      have hother : "BMC" ≠ "BDC" := by decide
      refine iff_of_false (Option.some_ne_none mcid).symm ?_
      rintro ⟨_, _, h, _⟩
      exact hother (congrArg Operation.operator h)
    | beginMarkedContentWithProperties =>
      obtain ⟨first, properties, tag, _, rfl, htag, hproperties, rfl⟩ :=
        Instruction.of_twoOperands hread
      cases Instruction.eq_of_name htag
      cases hproperties
      refine Or.inl ⟨Or.inr rfl, ⟨tag, state.mcid? properties⟩, ⟨rfl, fun mcid => ?_⟩, rfl⟩
      rw [StreamState.mcid?_eq_some_iff]
      constructor
      · exact fun h => ⟨_, properties, rfl, h⟩
      · rintro ⟨_, _, ⟨⟩, h⟩
        exact h
    | endMarkedContent =>
      obtain ⟨-, rfl⟩ := Instruction.of_noOperands hread
      exact Or.inr (Or.inl ⟨rfl, rfl⟩)
    | _ =>
      refine Or.inr (Or.inr ⟨mt Operation.isBracket_iff.1 (by decide), ?_⟩)
      refine Instruction.bracket?_eq_none ?_ state
      rw [Instruction.operator_of_read hread]
      decide

/-- A run that succeeds, one operation further: the operation succeeds, and the run ends and
delivers as it does. -/
theorem runFrom_take_succ {count bound : Nat}
    (hs : (setup.runFrom forms count state operations).error = none)
    (ho : operations[bound]? = some operation) :
    (setup.step forms (setup.runFrom forms count state (operations.take bound)).state
        operation).error = none ∧
      setup.runFrom forms count state (operations.take (bound + 1)) =
        { setup.step forms (setup.runFrom forms count state (operations.take bound)).state
            operation with
          events := (setup.runFrom forms count state (operations.take bound)).events ++
            (setup.step forms (setup.runFrom forms count state (operations.take bound)).state
              operation).events } := by
  have htake : operations.take (bound + 1) = operations.take bound ++ [operation] := by
    rw [List.take_add_one, ho]
    rfl
  have hprefix : (setup.runFrom forms count state (operations.take (bound + 1))).error = none := by
    have hsplit := List.take_append_drop (bound + 1) operations
    rw [← hsplit, runFrom_append] at hs
    exact (Outcome.andThen_error_eq_none_iff.1 hs).1
  rw [htake] at hprefix ⊢
  have hreaches := runFrom_reaches hprefix
  rw [runFrom_append] at hprefix ⊢
  obtain ⟨hbefore, hlast⟩ := Outcome.andThen_error_eq_none_iff.1 hprefix
  obtain ⟨hallowed, hstep, -⟩ := runFrom_cons_error_eq_none_iff.1 hlast
  refine ⟨hstep, ?_⟩
  rw [Outcome.andThen_of_success hbefore, runFrom_cons_of_allowed hallowed,
    Outcome.andThen_of_success hstep]
  simp only [runFrom, Outcome.done, List.append_nil, hstep]

/-- What the operation at a position delivers when the operations are run. -/
def deliveredAt (setup : Setup) (state : StreamState) (operations : List Operation)
    (position : Nat) : List Event :=
  match operations[position]? with
  | none => []
  | some operation =>
    (setup.invoke (setup.run state (operations.take position)).state operation).events

/-- A run that succeeds delivers what its operations deliver, in order. -/
theorem run_events (hs : (setup.run state operations).error = none) :
    (setup.run state operations).events =
      (List.range operations.length).flatMap (setup.deliveredAt state operations) := by
  have hprefix (bound : Nat) (hb : bound ≤ operations.length) :
      (setup.run state (operations.take bound)).events =
        (List.range bound).flatMap (setup.deliveredAt state operations) := by
    induction bound with
    | zero => rfl
    | succ bound ih =>
      have ho : operations[bound]? = some operations[bound] := List.getElem?_eq_getElem hb
      have hdelivered : setup.deliveredAt state operations bound =
          (setup.invoke (setup.run state (operations.take bound)).state
            operations[bound]).events := by
        rw [deliveredAt, ho]
      obtain ⟨-, hnext⟩ := runFrom_take_succ hs ho
      rw [List.range_succ, List.flatMap_append, List.flatMap_singleton, ← ih (by omega),
        hdelivered, run, hnext]
      rfl
  have hwhole := hprefix operations.length (Nat.le_refl _)
  rwa [List.take_length] at hwhole

/-- The open sequences after an operation are those before it, with the bracket applied that it
is. -/
theorem step_marked_of_bracket? (state : StreamState) (operation : Operation) :
    (setup.step forms state operation).state.marked =
      match setup.bracket? state operation with
      | none => state.marked
      | some bracket => bracket.apply state.marked := by
  rw [step_marked, brackets_singleton]
  cases setup.bracket? state operation <;> rfl

/-- The open sequences are those that the openings on the stack of positions open. The
resources that names refer to stay the same. -/
theorem runFrom_openedAt {count : Nat} (hr : setup.registry = .standard)
    (hnone : state.marked = []) (hs : (setup.runFrom forms count state operations).error = none)
    (bound : Nat) (hb : bound ≤ operations.length) :
    (setup.runFrom forms count state (operations.take bound)).state.activeResources =
        state.activeResources ∧
      OpenedAt state.activeResources operations
        (setup.runFrom forms count state (operations.take bound)).state.marked
        (Operation.openPositions operations bound) := by
  induction bound with
  | zero =>
    refine ⟨rfl, ?_⟩
    have hstart : (setup.runFrom forms count state (operations.take 0)).state.marked = [] := hnone
    rw [hstart]
    exact .nil
  | succ bound ih =>
    have ho : operations[bound]? = some operations[bound] := List.getElem?_eq_getElem hb
    obtain ⟨hsame, hopen⟩ := ih (by omega)
    obtain ⟨hstep, hnext⟩ := runFrom_take_succ hs ho
    rw [hnext]
    refine ⟨(step_activeResources _ _).trans hsame, ?_⟩
    dsimp only
    rw [step_marked_of_bracket?]
    rcases bracket?_cases hr hstep with
      ⟨hopening, sequence, hopens, hbracket⟩ | ⟨hclosing, hbracket⟩ | ⟨hother, hbracket⟩
    · rw [hsame] at hopens
      rw [hbracket, Operation.openPositions_of_opening ((Operation.at_iff ho).2 hopening)]
      exact .cons ⟨_, ho, hopens⟩ hopen
    · have hdrop := List.forall₂_drop 1 hopen
      rw [List.drop_one, List.drop_one] at hdrop
      rw [hbracket, Operation.openPositions_of_closing ((Operation.at_iff ho).2 hclosing)]
      exact hdrop
    · obtain ⟨hopening, hclosing⟩ := not_or.1 hother
      rw [hbracket, Operation.openPositions_of_other (mt (Operation.at_iff ho).1 hopening)
        (mt (Operation.at_iff ho).1 hclosing)]
      exact hopen

/-- Fewer operations are allowed if more of them are. -/
theorem exceeds?_of_le {count count' : Nat} (hc : count' ≤ count)
    (he : setup.exceeds? count = none) : setup.exceeds? count' = none := by
  unfold exceeds? at he ⊢
  cases hm : setup.limits.maxOperations with
  | none => rfl
  | some limit =>
    simp only [hm, ite_eq_right_iff, reduceCtorEq, imp_false] at he
    exact if_neg (by omega)

/-- A bracket that succeeds in one state succeeds in every state: all that it needs is
operands. -/
theorem step_error_of_isBracket (hr : setup.registry = .standard) (hb : operation.IsBracket)
    (hs : (setup.step forms state operation).error = none) (state' : StreamState) :
    (setup.step forms state' operation).error = none := by
  obtain ⟨mnemonic, operands⟩ := operation
  cases hl : setup.registry.lookup? mnemonic with
  | none =>
    rw [step_of_unknown hl]
    rfl
  | some operator =>
    obtain ⟨-, instruction, hread, -⟩ := exists_read_of_success hl hs
    have hmnemonic : mnemonic = operator.mnemonic :=
      Registry.eq_mnemonic_of_lookup? (hr ▸ hl)
    rw [hmnemonic, Operation.isBracket_iff] at hb
    have hfree : ∀ operator ∈ Operator.brackets, operator.needsTextObject = false := by decide
    have hplace : operator.needsTextObject = true → state'.position ≠ none := fun hneeds =>
      absurd ((hfree operator hb).symm.trans hneeds) Bool.false_ne_true
    rw [step_of_read hl hplace hread]
    cases operator with
    | beginMarkedContent =>
      obtain ⟨tag, -, rfl⟩ := Instruction.of_oneName hread
      rfl
    | beginMarkedContentWithProperties =>
      obtain ⟨_, _, tag, properties, -, -, -, rfl⟩ := Instruction.of_twoOperands hread
      rfl
    | endMarkedContent =>
      obtain ⟨-, rfl⟩ := Instruction.of_noOperands hread
      rfl
    | _ => exact absurd hb (by decide)

/-- Where nothing but brackets is left of operations that succeed, the rest succeeds as well and
leaves the same sequences open. Other operations may have changed all else in the state. -/
theorem runFrom_filter_isBracket (hr : setup.registry = .standard) {count count' : Nat}
    {state' : StreamState} (hc : count' ≤ count) (hm : state'.marked = state.marked)
    (hres : state'.resources = state.resources)
    (hs : (setup.runFrom forms count state operations).error = none) :
    (setup.runFrom forms count' state' (operations.filter Operation.IsBracket)).error = none ∧
      (setup.runFrom forms count' state' (operations.filter Operation.IsBracket)).state.marked =
        (setup.runFrom forms count state operations).state.marked := by
  induction operations generalizing count count' state state' with
  | nil => exact ⟨rfl, hm⟩
  | cons operation operations ih =>
    obtain ⟨he, hfirst, hrest⟩ := runFrom_cons_error_eq_none_iff.1 hs
    have hmarked := @step_marked_of_bracket? setup forms state operation
    have hresources := @step_resources setup forms state operation
    rw [runFrom_cons_of_allowed he, Outcome.andThen_of_success hfirst]
    by_cases hb : operation.IsBracket
    · have he' := exceeds?_of_le hc he
      have hfirst' := step_error_of_isBracket hr hb hfirst state'
      have hmarked' := @step_marked_of_bracket? setup forms state' operation
      have hresources' := @step_resources setup forms state' operation
      rw [bracket?_congr hres, hm, ← hmarked] at hmarked'
      rw [hres, ← hresources] at hresources'
      have hkept : (operation :: operations).filter Operation.IsBracket =
          operation :: operations.filter Operation.IsBracket :=
        List.filter_cons_of_pos (decide_eq_true hb)
      rw [hkept, runFrom_cons_of_allowed he', Outcome.andThen_of_success hfirst']
      exact ih (by omega) hmarked' hresources' hrest
    · have hnone : setup.bracket? state operation = none := by
        rcases bracket?_cases hr hfirst with ⟨hopening, -⟩ | ⟨hclosing, -⟩ | ⟨-, hnone⟩
        · exact absurd (Or.inl hopening) hb
        · exact absurd (Or.inr hclosing) hb
        · exact hnone
      rw [hnone] at hmarked
      have hdropped : (operation :: operations).filter Operation.IsBracket =
          operations.filter Operation.IsBracket :=
        List.filter_cons_of_neg (by simpa using hb)
      rw [hdropped]
      exact ih (by omega) (hm.trans hmarked.symm) (hres.trans hresources.symm) hrest

/-- Only an invocation enters a form. -/
theorem enteredForm?_eq_none {levels : Nat} (h : operation.operator ≠ "Do") :
    setup.enteredForm? levels state operation = none := by
  cases he : setup.enteredForm? levels state operation with
  | none => rfl
  | some entered =>
    obtain ⟨_, _, _, _, _, -, rfl, -⟩ := of_enteredForm? he
    exact absurd rfl h

/-- Marked content follows the matching of brackets. For operations that succeed from the start
of a stream and invoke nothing there is one matching of closings with openings. What is shown at
a position has the tag of the last opening before it that is unmatched there, the identifier of
the last such opening that has one, and is an artifact if any of them is tagged as one; and as
many sequences are open at the end as openings are unmatched there. Nothing but openings and
closings matters for this: without all other operations the open sequences are the same. -/
theorem run_matching {setup : Setup} {base : GraphicsState} {resources : Resources}
    {operations : List Operation} (hr : setup.registry = .standard)
    (hd : ∀ operation ∈ operations, operation.operator ≠ "Do")
    (hs : (setup.run (.start base resources) operations).error = none) :
    (setup.run (.start base resources) operations).events =
        (List.range operations.length).flatMap
          (setup.deliveredAt (.start base resources) operations) ∧
      ∃ partner, Operation.IsMatching operations partner ∧
        (∀ other, Operation.IsMatching operations other → other = partner) ∧
        (∀ position, ∀ event ∈ setup.deliveredAt (.start base resources) operations position,
          event.marked.MadeBy resources operations
              {opening | Operation.OpenBefore operations partner position opening} ∧
            event.marked = (setup.run (.start base resources)
              ((operations.take position).filter Operation.IsBracket)).state.markedContext) ∧
        (setup.run (.start base resources) operations).state.marked.length =
          {opening | Operation.OpenBefore operations partner operations.length opening}.ncard := by
  have hopen (bound : Nat) (hb : bound ≤ operations.length) :
      OpenedAt resources operations
        (setup.run (.start base resources) (operations.take bound)).state.marked
        (Operation.openPositions operations bound) :=
    (runFrom_openedAt hr rfl hs bound hb).2
  have hsorted (bound : Nat) : (Operation.openPositions operations bound).Pairwise (· > ·) :=
    (Operation.openPositions_sorted operations bound).of_cons
  refine ⟨run_events hs, Operation.topPartner operations,
    Operation.topPartner_isMatching operations,
    fun other ho => (Operation.topPartner_isMatching operations).unique ho, ?_, ?_⟩
  · intro position event hm
    rw [deliveredAt] at hm
    cases ho : operations[position]? with
    | none =>
      rw [ho] at hm
      cases hm
    | some operation =>
      rw [ho] at hm
      have hmember : operation ∈ operations := List.mem_of_getElem? ho
      have hlt : position < operations.length := (List.getElem?_eq_some_iff.1 ho).1
      have hmarked : event.marked =
          (setup.run (.start base resources) (operations.take position)).state.markedContext :=
        step_events_marked hr (enteredForm?_eq_none (hd operation hmember)) hm
      have hbefore : (setup.run (.start base resources) (operations.take position)).error =
          none := by
        have hsplit := List.take_append_drop position operations
        rw [← hsplit, run, runFrom_append] at hs
        exact (Outcome.andThen_error_eq_none_iff.1 hs).1
      obtain ⟨-, hfilter⟩ := runFrom_filter_isBracket hr (Nat.le_refl 0) rfl rfl hbefore
      simp only [← Operation.mem_openPositions_iff]
      constructor
      · rw [hmarked]
        exact (hopen position (Nat.le_of_lt hlt)).madeBy (hsorted position)
      · rw [hmarked, StreamState.markedContext, StreamState.markedContext, run, run, hfilter]
  · have hwhole := hopen operations.length (Nat.le_refl _)
    rw [List.take_length] at hwhole
    simp only [← Operation.mem_openPositions_iff]
    exact hwhole.length_eq (hsorted operations.length)

/-- A font, and a property list with an identifier. -/
def crossingResources : Resources :=
  ⟨[("F", .simple (.plain "F" .standard))], [], [], [("L", [("MCID", .int 3)])]⟩

/-- Marked content that crosses a saved state and a text object. A letter is shown inside of an
artifact, another one after that has been closed together with the state. A closing too many
follows, and an opening is left. -/
def crossingOperations : List Operation :=
  [⟨"Tf", [.name "F", .int 1]⟩, ⟨"BMC", [.name "P"]⟩, ⟨"q", []⟩,
    ⟨"BDC", [.name "Span", .name "L"]⟩, ⟨"BMC", [.name "Artifact"]⟩, ⟨"BT", []⟩,
    ⟨"Tj", [.str [0x41]]⟩, ⟨"EMC", []⟩, ⟨"Q", []⟩, ⟨"Tj", [.str [0x42]]⟩, ⟨"EMC", []⟩,
    ⟨"ET", []⟩, ⟨"EMC", []⟩, ⟨"EMC", []⟩, ⟨"BMC", [.name "P"]⟩]

/-- The matching tells what surrounds the two letters, and that one sequence is left. -/
theorem run_matching_crossing : standard.registry = .standard ∧
    (∀ operation ∈ crossingOperations, operation.operator ≠ "Do") ∧
    (standard.run (.start .initial crossingResources) crossingOperations).error = none ∧
    ((standard.run (.start .initial crossingResources) crossingOperations).events.map
      fun event => (event.marked.tag, event.marked.mcid, event.marked.inArtifact)) =
        [(some "Artifact", some 3, true), (some "Span", some 3, false)] ∧
    ∃ partner, Operation.IsMatching crossingOperations partner ∧
      (∀ position, ∀ event ∈ standard.deliveredAt (.start .initial crossingResources)
          crossingOperations position,
        event.marked.MadeBy crossingResources crossingOperations
          {opening | Operation.OpenBefore crossingOperations partner position opening}) ∧
      (standard.run (.start .initial crossingResources) crossingOperations).state.marked.length =
        {opening | Operation.OpenBefore crossingOperations partner 15 opening}.ncard := by
  have hr : standard.registry = .standard := rfl
  have hd : ∀ operation ∈ crossingOperations, operation.operator ≠ "Do" := by
    simp only [crossingOperations, List.forall_mem_cons, List.not_mem_nil, false_imp_iff,
      implies_true, and_true]
    decide
  have hs : (standard.run (.start .initial crossingResources) crossingOperations).error = none :=
    rfl
  obtain ⟨-, partner, hmatching, -, hevents, hopen⟩ := run_matching hr hd hs
  exact ⟨hr, hd, hs, rfl, partner, hmatching,
    fun position event hm => (hevents position event hm).1, hopen⟩

end Setup

end PageText
