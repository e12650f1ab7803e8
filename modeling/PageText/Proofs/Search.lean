import Mathlib.Data.List.Infix
import PageText.Text.Search

/-!
# Where marks and matches are found

A search passes over text in which no occurrence of its mark begins. An occurrence may begin
in one piece of a text and end in the next, so what is said of a piece is said of every end of
it. Sections and matches of texts that are put together from pieces follow from that.
-/

namespace PageText.Text.Search

/-! ## The first mark -/

/-- No occurrence of the mark begins in the text, whatever stands behind it: no end of the text
begins with the mark or is the beginning of one. -/
def Apart (mark text : List Char) : Prop :=
  ∀ tail, tail <:+ text → tail ≠ [] → ¬mark <+: tail ∧ ¬tail <+: mark

instance (mark text : List Char) : Decidable (Apart mark text) :=
  decidable_of_iff (∀ tail ∈ text.tails, tail ≠ [] → ¬mark <+: tail ∧ ¬tail <+: mark)
    (by simp only [Apart, List.mem_tails])

variable {mark opening closing text rest : List Char}

/-- No occurrence of a mark begins in a text that it is apart from and ends behind it. -/
theorem Apart.not_begins (h : Apart mark text) {tail : List Char} (ht : tail <:+ text)
    (hne : tail ≠ []) (rest : List Char) : ¬mark <+: tail ++ rest := fun hp =>
  (List.prefix_or_prefix_of_prefix hp (List.prefix_append tail rest)).elim
    (h tail ht hne).1 (h tail ht hne).2

/-- A mark is apart from texts that are joined if it is apart from each. -/
theorem Apart.append (h : Apart mark text) (hr : Apart mark rest) : Apart mark (text ++ rest) := by
  intro tail ht hne
  rcases List.suffix_or_suffix_of_suffix ht (List.suffix_append text rest) with hs | ⟨front, rfl⟩
  · exact hr tail hs hne
  cases front with
  | nil => exact hr rest List.suffix_rfl hne
  | cons c front =>
    have hfront := List.suffix_append_self_iff.1 ht
    have hcons := List.cons_ne_nil c front
    exact ⟨h.not_begins hfront hcons rest,
      fun hp => (h _ hfront hcons).2 ((List.prefix_append _ rest).trans hp)⟩

/-- A mark is apart from characters that are not in it. -/
theorem Apart.of_notMem (hmark : mark ≠ []) (h : ∀ c ∈ text, c ∉ mark) : Apart mark text := by
  intro tail ht hne
  obtain ⟨c, tail, rfl⟩ := List.exists_cons_of_ne_nil hne
  obtain ⟨d, mark, rfl⟩ := List.exists_cons_of_ne_nil hmark
  have hc := h c (ht.subset List.mem_cons_self)
  refine ⟨fun hp => ?_, fun hp => ?_⟩ <;> obtain ⟨rfl, -⟩ := List.cons_prefix_cons.1 hp
  · exact hc List.mem_cons_self
  · exact hc List.mem_cons_self

/-- A mark is apart from a text that lacks one of its characters and ends in a character that
is not in it. -/
theorem Apart.of_concat {front : List Char} {c d : Char} (hc : c ∉ mark) (hd : d ∈ mark)
    (hd' : d ∉ front ++ [c]) : Apart mark (front ++ [c]) := by
  intro tail ht hne
  refine ⟨fun hp => hd' (ht.subset (hp.subset hd)), fun hp => ?_⟩
  rcases List.suffix_concat_iff.1 ht with rfl | ⟨before, rfl, -⟩
  · exact hne rfl
  · exact hc (hp.subset List.mem_concat_self)

/-- Text is passed over if no occurrence of the mark begins in it. -/
theorem breakOn?_append (h : ∀ tail, tail <:+ text → tail ≠ [] → ¬mark <+: tail ++ rest) :
    breakOn? mark (text ++ rest) =
      (breakOn? mark rest).map fun found => (text ++ found.1, found.2) := by
  induction text with
  | nil => exact Option.map_id.symm ▸ rfl
  | cons c text ih =>
    have hc : mark.isPrefixOf (c :: (text ++ rest)) = false :=
      Bool.eq_false_iff.2 fun hp =>
        h (c :: text) List.suffix_rfl (List.cons_ne_nil _ _) (List.isPrefixOf_iff_prefix.1 hp)
    have htext := ih fun tail ht => h tail (ht.trans (List.suffix_cons c text))
    rw [List.cons_append, breakOn?, hc, if_neg Bool.false_ne_true, htext, Option.map_map]
    rfl

/-- Text that the mark is apart from is passed over. -/
theorem Apart.breakOn?_append (h : Apart mark text) (rest : List Char) :
    breakOn? mark (text ++ rest) =
      (breakOn? mark rest).map fun found => (text ++ found.1, found.2) :=
  Search.breakOn?_append fun _ ht hne => h.not_begins ht hne rest

/-- An occurrence of the mark that begins in a text without the mark reaches over its end. -/
theorem exists_reaching {tail : List Char} (hfree : ¬mark <:+: text) (ht : tail <:+ text)
    (hne : tail ≠ []) (hp : mark <+: tail ++ rest) :
    ∃ reaching, reaching <:+ mark.tail ∧ reaching ≠ [] ∧ reaching <+: rest := by
  rcases List.prefix_or_prefix_of_prefix hp (List.prefix_append tail rest) with hm | hm
  · exact absurd (hm.isInfix.trans ht.isInfix) hfree
  obtain ⟨reaching, rfl⟩ := hm
  obtain ⟨c, tail, rfl⟩ := List.exists_cons_of_ne_nil hne
  refine ⟨reaching, List.suffix_append tail reaching, ?_, (List.prefix_append_right_inj _).1 hp⟩
  rintro rfl
  rw [List.append_nil] at hfree
  exact hfree ht.isInfix

/-- A text without the mark is passed over where a word follows in which no occurrence that
reaches over the end of the text can end. -/
theorem breakOn?_append_of_free {word : List Char} (hfree : ¬mark <:+: text)
    (hword : Apart word mark.tail) (rest : List Char) :
    breakOn? mark (text ++ (word ++ rest)) =
      (breakOn? mark (word ++ rest)).map fun found => (text ++ found.1, found.2) := by
  refine breakOn?_append fun tail ht hne hp => ?_
  obtain ⟨reaching, hr, hrne, hrp⟩ := exists_reaching hfree ht hne hp
  rcases List.prefix_or_prefix_of_prefix hrp (List.prefix_append word rest) with hw | hw
  · exact (hword reaching hr hrne).2 hw
  · exact (hword reaching hr hrne).1 hw

/-- In a text without the mark no mark is found. -/
theorem breakOn?_eq_none (hfree : ¬mark <:+: text) : breakOn? mark text = none := by
  have hends : ∀ tail, tail <:+ text → tail ≠ [] → ¬mark <+: tail ++ [] := by
    intro tail ht hne hp
    obtain ⟨reaching, -, hrne, hrp⟩ := exists_reaching hfree ht hne hp
    exact hrne (List.prefix_nil.1 hrp)
  have hnone := breakOn?_append hends
  rwa [List.append_nil] at hnone

/-- A mark is found exactly if it stands somewhere in the text. -/
theorem isSome_breakOn?_iff (hmark : mark ≠ []) (text : List Char) :
    (breakOn? mark text).isSome = true ↔ mark <:+: text := by
  constructor
  · intro h
    by_contra hfree
    rw [breakOn?_eq_none hfree] at h
    cases h
  · intro h
    induction text with
    | nil => exact absurd (List.infix_nil.1 h) hmark
    | cons c text ih =>
      rw [breakOn?]
      split
      · rfl
      · rename_i hprefix
        rw [Option.isSome_map]
        refine ih ((List.infix_cons_iff.1 h).resolve_left fun hp => hprefix ?_)
        exact List.isPrefixOf_iff_prefix.2 hp

/-- A mark is found where it stands. -/
theorem breakOn?_mark (hmark : mark ≠ []) (rest : List Char) :
    breakOn? mark (mark ++ rest) = some ([], rest) := by
  obtain ⟨c, mark, rfl⟩ := List.exists_cons_of_ne_nil hmark
  have hp : (c :: mark).isPrefixOf (c :: (mark ++ rest)) = true :=
    List.isPrefixOf_iff_prefix.2 (List.prefix_append (c :: mark) rest)
  rw [List.cons_append, breakOn?, if_pos hp, List.length_cons, Nat.add_sub_cancel,
    List.drop_left]

/-! ## Sections -/

/-- Without an opening mark there is no section. -/
theorem sections_of_none (ho : breakOn? opening text = none) :
    sections opening closing text = [] := by
  rw [sections]
  split
  · rfl
  · rename_i hsome
    rw [ho] at hsome
    cases hsome

/-- An opening mark that is never closed opens no section. -/
theorem sections_of_unclosed {before inside : List Char}
    (ho : breakOn? opening text = some (before, inside)) (hc : breakOn? closing inside = none) :
    sections opening closing text = [] := by
  rw [sections]
  split
  · rfl
  · rename_i hsome
    cases ho.symm.trans hsome
    split
    · rfl
    · rename_i hsome
      rw [hc] at hsome
      cases hsome

/-- The first section is what stands between the first opening mark and the closing mark after
it. -/
theorem sections_of_found {before inside body after : List Char}
    (ho : breakOn? opening text = some (before, inside))
    (hc : breakOn? closing inside = some (body, after)) :
    sections opening closing text = body :: sections opening closing after := by
  rw [sections]
  split
  · rename_i hnone
    rw [ho] at hnone
    cases hnone
  · rename_i hsome
    cases ho.symm.trans hsome
    split
    · rename_i hnone
      rw [hc] at hnone
      cases hnone
    · rename_i hsome
      cases hc.symm.trans hsome
      rfl

/-- Text that the search for the opening mark passes over has no part in the sections. -/
theorem sections_append
    (h : breakOn? opening (text ++ rest) =
      (breakOn? opening rest).map fun found => (text ++ found.1, found.2)) :
    sections opening closing (text ++ rest) = sections opening closing rest := by
  cases ho : breakOn? opening rest with
  | none =>
    rw [ho] at h
    rw [sections_of_none h, sections_of_none ho]
  | some found =>
    rw [ho] at h
    cases hc : breakOn? closing found.2 with
    | none => rw [sections_of_unclosed h hc, sections_of_unclosed ho hc]
    | some inside => rw [sections_of_found h hc, sections_of_found ho hc]

/-! ## Matches -/

variable {α : Type} {reader : List Char → Option (α × List Char)}

/-- The characters of a match are not looked at again. -/
theorem matchesFrom_append (text rest : List Char) :
    matchesFrom reader text.length (text ++ rest) = allMatches reader rest := by
  induction text with
  | nil => rfl
  | cons c text ih => rw [List.length_cons, List.cons_append, matchesFrom, ih]

/-- A match at the start of a text comes first, and the others are those of the text behind
it. -/
theorem allMatches_append_of_some {found : α} (hne : text ≠ [])
    (h : reader (text ++ rest) = some (found, rest)) :
    allMatches reader (text ++ rest) = found :: allMatches reader rest := by
  obtain ⟨c, text, rfl⟩ := List.exists_cons_of_ne_nil hne
  have hlength : (text ++ rest).length - rest.length = text.length := by
    rw [List.length_append, Nat.add_sub_cancel]
  rw [List.cons_append] at h ⊢
  rw [allMatches, matchesFrom, h]
  dsimp only
  rw [hlength, matchesFrom_append]

/-- Characters that no match begins with are passed over. -/
theorem allMatches_append_of_none (h : ∀ c ∈ text, ∀ rest, reader (c :: rest) = none) :
    allMatches reader (text ++ rest) = allMatches reader rest := by
  induction text with
  | nil => rfl
  | cons c text ih =>
    obtain ⟨hc, htext⟩ := List.forall_mem_cons.1 h
    rw [List.cons_append, allMatches, matchesFrom, hc]
    exact ih htext

end PageText.Text.Search
