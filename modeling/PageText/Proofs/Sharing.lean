import PageText.Filter.Zlib
import PageText.Proofs.Reload

/-!
# Sharing what was read

Fonts and resources that are read once and shared are those that reading without memory
gives at each use. What is remembered is right at every moment, whatever the order in which
entries are visited and however far the resources above have been read; this is where no
resources stand again below themselves, the topmost ones excepted, and forms do not nest too
deep.
-/

namespace PageText.Resources

/-- What is remembered while the resources of the given references are being read: fonts and
resources are those that reading without memory, as `plain` does, gives. The topmost resources
are not among them. -/
structure Memory.Right (inflater : Inflater) (resolver : Resolver) (top : Option Ref)
    (plain : Object → Option Resources) (loading : List Ref) (memory : Memory) : Prop where
  /-- Fonts are right. -/
  fonts : ∀ target font, memory.fonts.lookup target = some font →
    (Font.load inflater resolver (.ref target)).toOption = some font
  /-- Resources are right. -/
  resources : ∀ target known, memory.resources.lookup target = some known →
    some target ≠ top ∧ ∃ found, plain (.ref target) = some found ∧
      Resources.Alike known found
  /-- These are being read. -/
  loading : memory.loading = loading

namespace Loader

/-- A step that remembers does as one without memory: both fail, or both succeed with related
results. What held of the memory before gives what holds of it after. -/
def Agrees (before after : Memory → Prop) {α β : Type} (R : α → β → Prop) (step : Loader α)
    (plain : Option β) : Prop :=
  ∀ memory, before memory →
    match step.run memory with
    | .ok (a, left) => after left ∧ ∃ b, plain = some b ∧ R a b
    | .error _ => plain = none

section Agrees

variable {before between after : Memory → Prop} {α β γ δ : Type} {R : α → β → Prop}
  {S : γ → δ → Prop}

/-- Results can be returned. -/
theorem Agrees.pure {a : α} {b : β} (h : R a b) : Agrees before before R (pure a) (some b) :=
  fun _ hm => ⟨hm, b, rfl, h⟩

/-- Steps agree one after the other. -/
theorem Agrees.bind {step : Loader α} {plain : Option β} {next : α → Loader γ}
    {next' : β → Option δ} (h : Agrees before between R step plain)
    (hn : ∀ a b, plain = some b → R a b → Agrees between after S (next a) (next' b)) :
    Agrees before after S (step >>= next) (plain >>= next') := by
  intro memory hm
  have hfirst := h memory hm
  rw [StateT.run_bind]
  cases hs : step.run memory with
  | error error =>
    rw [hs] at hfirst
    rw [hfirst]
    rfl
  | ok result =>
    rw [hs] at hfirst
    obtain ⟨hleft, b, hb, hr⟩ := hfirst
    rw [hb]
    exact hn result.1 b hb hr result.2 hleft

/-- A step whose result is known without memory goes before. -/
theorem Agrees.bind_some {step : Loader α} {b : β} {next : α → Loader γ} {plain : Option δ}
    (h : Agrees before between R step (some b))
    (hn : ∀ a, R a b → Agrees between after S (next a) plain) :
    Agrees before after S (step >>= next) plain := by
  have hplain : (some b >>= fun _ => plain) = plain := rfl
  rw [← hplain]
  refine h.bind fun a b' hb hr => ?_
  cases hb
  exact hn a hr

/-- What needs no memory is done alike. -/
theorem Agrees.lift_bind {step : Except Error α} {next : α → Loader γ} {next' : α → Option δ}
    (hn : ∀ a, step = .ok a → Agrees before after S (next a) (next' a)) :
    Agrees before after S ((liftM step : Loader α) >>= next) (step.toOption >>= next') := by
  intro memory hm
  cases step with
  | error error => rfl
  | ok a => exact hn a rfl memory hm

/-- What needs no memory leaves it. -/
theorem Agrees.lift (step : Except Error α) :
    Agrees before before Eq (liftM step : Loader α) step.toOption := by
  cases step with
  | error error => exact fun _ _ => rfl
  | ok a => exact .pure rfl

/-- Looking at the memory tells what is known of it. -/
theorem Agrees.get_bind {next : Memory → Loader α} {plain : Option β}
    (h : ∀ memory, before memory → Agrees before after R (next memory) plain) :
    Agrees before after R (get >>= next) plain :=
  fun memory hm => h memory hm memory hm

/-- Changing the memory changes what is known of it. -/
theorem Agrees.modify_bind {change : Memory → Memory} {next : PUnit → Loader α}
    {plain : Option β} (hc : ∀ memory, before memory → between (change memory))
    (h : Agrees between after R (next ⟨⟩) plain) :
    Agrees before after R (modify change >>= next) plain :=
  fun memory hm => h (change memory) (hc memory hm)

/-- Results can be related more loosely. -/
theorem Agrees.imp {step : Loader α} {plain : Option β} {R' : α → β → Prop}
    (h : Agrees before after R step plain) (hR : ∀ a b, R a b → R' a b) :
    Agrees before after R' step plain := by
  intro memory hm
  have hone := h memory hm
  cases hs : step.run memory with
  | error error =>
    rw [hs] at hone
    exact hone
  | ok result =>
    rw [hs] at hone
    obtain ⟨hleft, b, hb, hr⟩ := hone
    exact ⟨hleft, b, hb, hR _ _ hr⟩

/-- Results can be changed. -/
theorem Agrees.map {step : Loader α} {plain : Option β} {f : α → γ} {g : β → δ}
    (h : Agrees before after R step plain) (hS : ∀ a b, R a b → S (f a) (g b)) :
    Agrees before after S (f <$> step) (g <$> plain) := by
  rw [map_eq_pure_bind, map_eq_pure_bind]
  exact h.bind fun a b _ hr => .pure (hS a b hr)

/-- Steps that agree for each element agree for the list. -/
theorem Agrees.mapM {f : γ → Loader α} {g : γ → Option β} {xs : List γ}
    (h : ∀ x ∈ xs, Agrees before before R (f x) (g x)) :
    Agrees before before (List.Forall₂ R) (xs.mapM f) (xs.mapM g) := by
  induction xs with
  | nil => exact .pure .nil
  | cons x xs ih =>
    rw [List.mapM_cons, List.mapM_cons]
    refine (h x List.mem_cons_self).bind fun a b _ hr => ?_
    exact (ih fun y hy => h y (List.mem_cons_of_mem x hy)).bind fun as bs _ hrs =>
      .pure (.cons hr hrs)

/-- Entries are read alike if each is. -/
theorem Agrees.readEntries {read : Object → Loader (Option α)}
    {read' : Object → Option (Option β)} {stored : Dict}
    (h : ∀ entry ∈ stored, Agrees before before (Option.Rel R) (read entry.2) (read' entry.2)) :
    Agrees before before (List.Forall₂ fun x y => x.1 = y.1 ∧ R x.2 y.2)
      (readEntries read stored) (readEntries read' stored) := by
  have hone : ∀ entry ∈ stored, Agrees before before
      (Option.Rel fun x y => x.1 = y.1 ∧ R x.2 y.2) (readEntry read entry)
      (readEntry read' entry) := by
    intro entry he
    refine (h entry he).bind fun a b _ hr => .pure ?_
    cases hr with
    | none => exact .none
    | some hr => exact .some ⟨rfl, hr⟩
  exact (Agrees.mapM hone).bind fun results results' _ hr =>
    .pure (List.rel_filterMap (fun _ _ => id) hr)

/-- A part is read alike if its entries are, in whatever order they are visited. -/
theorem Agrees.readPart {order : VisitOrder} {resolver : Resolver} {dict : Dict} {key : String}
    {read : Object → Loader (Option α)} {read' : Object → Option (Option β)}
    (hv : ∀ memory, before memory → before { memory with visits := memory.visits + 1 })
    (hn : ∀ stored, part resolver dict key = .ok stored → (stored.map Prod.fst).Nodup)
    (h : ∀ stored, part resolver dict key = .ok stored → ∀ entry ∈ stored,
      Agrees before before (Option.Rel R) (read entry.2) (read' entry.2)) :
    Agrees before before (ByName R) (readPart order resolver dict key read)
      (reloadPart resolver dict key read') := by
  refine .lift_bind fun stored hpart memory hm => ?_
  have hperm := order.perm memory.visits stored
  have hread := Agrees.readEntries (fun entry he => h stored hpart entry (hperm.mem_iff.1 he))
    { memory with visits := memory.visits + 1 } (hv memory hm)
  have hrun : (visit order stored >>= Loader.readEntries read).run memory =
      (Loader.readEntries read (order.arrange memory.visits stored)).run
        { memory with visits := memory.visits + 1 } := rfl
  rw [hrun]
  cases hs : (Loader.readEntries read (order.arrange memory.visits stored)).run
      { memory with visits := memory.visits + 1 } with
  | error error =>
    rw [hs] at hread
    cases hp : Loader.readEntries read' stored with
    | none => rfl
    | some found =>
      obtain ⟨found', hfound', -⟩ := readEntries_perm hperm.symm
        ((hperm.map Prod.fst).nodup_iff.2 (hn stored hpart)) hp
      rw [hread] at hfound'
      cases hfound'
  | ok result =>
    rw [hs] at hread
    obtain ⟨hleft, found, hfound, hr⟩ := hread
    obtain ⟨found', hfound', hsame⟩ := readEntries_perm hperm (hn stored hpart) hfound
    refine ⟨hleft, found', hfound', fun name => ?_⟩
    rw [← hsame name]
    exact byName_of_forall₂ hr name

end Agrees

end Loader

namespace Memory.Right

variable {inflater : Inflater} {resolver : Resolver} {top : Option Ref}
  {plain : Object → Option Resources}
  {loading : List Ref} {memory : Memory}

/-- Nothing is remembered at first. -/
theorem empty : Right inflater resolver top plain [] ⟨[], [], [], 0⟩ := ⟨nofun, nofun, rfl⟩

/-- Visits are only counted. -/
theorem visited (h : memory.Right inflater resolver top plain loading) :
    Right inflater resolver top plain loading { memory with visits := memory.visits + 1 } :=
  ⟨h.fonts, h.resources, h.loading⟩

/-- A font that was read can be remembered. -/
theorem withFont (h : memory.Right inflater resolver top plain loading) {target : Ref} {font : Font}
    (hf : Font.load inflater resolver (.ref target) = .ok font) :
    Right inflater resolver top plain loading
      { memory with fonts := (target, font) :: memory.fonts } := by
  refine ⟨fun target' font' hl => ?_, h.resources, h.loading⟩
  rw [List.lookup_cons] at hl
  by_cases ht : target' = target
  · subst ht
    rw [beq_self_eq_true] at hl
    cases hl
    rw [hf]
    rfl
  · rw [beq_eq_false_iff_ne.2 ht] at hl
    exact h.fonts target' font' hl

/-- Resources that were read can be remembered, but for the topmost ones. -/
theorem withResources (h : memory.Right inflater resolver top plain loading) {target : Ref}
    {known found : Resources} (ht : some target ≠ top)
    (hp : plain (.ref target) = some found) (ha : Resources.Alike known found) :
    Right inflater resolver top plain loading
      { memory with resources := (target, known) :: memory.resources } := by
  refine ⟨h.fonts, fun target' known' hl => ?_, h.loading⟩
  rw [List.lookup_cons] at hl
  by_cases ht' : target' = target
  · subst ht'
    rw [beq_self_eq_true] at hl
    cases hl
    exact ⟨ht, found, hp, ha⟩
  · rw [beq_eq_false_iff_ne.2 ht'] at hl
    exact h.resources target' known' hl

/-- Resources begin to be read. -/
theorem opened (h : memory.Right inflater resolver top plain loading) (target : Ref) :
    Right inflater resolver top plain (target :: loading)
      { memory with loading := target :: memory.loading } :=
  ⟨h.fonts, h.resources, congrArg _ h.loading⟩

/-- Resources have been read. -/
theorem closed {target : Ref} (h : memory.Right inflater resolver top plain (target :: loading))
    (ht : target ∉ loading) :
    Right inflater resolver top plain loading
      { memory with loading := memory.loading.filter (· != target) } := by
  refine ⟨h.fonts, h.resources, ?_⟩
  have hne : ∀ other ∈ loading, (other != target) = true := fun other ho =>
    bne_iff_ne.2 fun he => ht (he ▸ ho)
  simp only [h.loading, List.filter_cons, bne_self_eq_false, Bool.false_eq_true, if_false]
  exact List.filter_eq_self.2 hne

end Memory.Right

namespace Loader

/-- Steps agree while the resources of the given references are being read. -/
abbrev AgreesWhile (inflater : Inflater) (resolver : Resolver) (top : Option Ref)
    (plain : Object → Option Resources) (here : List Ref) {α β : Type} (R : α → β → Prop)
    (step : Loader α) (found : Option β) : Prop :=
  Agrees (Memory.Right inflater resolver top plain here)
    (Memory.Right inflater resolver top plain here) R step found

section Steps

variable {inflater : Inflater} {resolver : Resolver} {top : Option Ref}
  {plain : Object → Option Resources}
  {here : List Ref}

/-- A font is the one that is read without memory. -/
theorem font?_agrees (object : Object) :
    AgreesWhile inflater resolver top plain here Eq (font? inflater resolver object)
      (some (Font.load inflater resolver object).toOption) := by
  unfold font?
  cases ht : object.asRef? with
  | none => exact .pure rfl
  | some target =>
    have hobject : object = .ref target := Object.eq_ref_of_asRef? ht
    subst hobject
    refine .get_bind fun memory hm => ?_
    cases hl : memory.fonts.lookup target with
    | some font =>
      rw [hm.fonts target font hl]
      exact .pure rfl
    | none =>
      cases hf : Font.load inflater resolver (.ref target) with
      | error error => exact .pure rfl
      | ok font => exact .modify_bind (fun memory hm => hm.withFont hf) (.pure rfl)

/-- A parameter set is the one that is read without memory. -/
theorem parameterSet_agrees (object : Object) :
    AgreesWhile inflater resolver top plain here Eq (parameterSet inflater resolver object)
      (reloadParameters inflater resolver object) := by
  refine .lift_bind fun entry _ => ?_
  cases entry with
  | none => exact .pure rfl
  | some pair =>
    obtain ⟨fontObject, size⟩ := pair
    refine (font?_agrees fontObject).bind_some fun font hfont => ?_
    rw [hfont]
    exact .pure rfl

/-- The resources of a form are those that are read without memory, if reading them one level
down is. -/
theorem formResources_agrees {nested : Option (Object → Loader Resources)} {own : Object}
    (htop : ∀ target, top = some target → target ∈ here)
    (hopen : ¬own.IsRefTo top → ∀ target, own.asRef? = some target → target ∉ here)
    (hnested : ¬own.IsRefTo top → ∃ load, nested = some load ∧
      AgreesWhile inflater resolver top plain here Resources.Alike (load own) (plain own)) :
    AgreesWhile inflater resolver top plain here (Option.Rel Resources.Alike)
      (formResources nested own) (reloadForm top plain own) := by
  refine .get_bind fun memory hm => ?_
  rw [reloadForm]
  by_cases hown : own.IsRefTo top
  · obtain ⟨target, ht⟩ := Option.ne_none_iff_exists'.1 hown.1
    have hnone : memory.resources.lookup target = none := by
      cases hl : memory.resources.lookup target with
      | none => rfl
      | some known => exact absurd (ht.symm.trans hown.2) (hm.resources target known hl).1
    have hcontains : memory.loading.contains target = true := by
      rw [hm.loading]
      exact List.contains_iff_mem.2 (htop target (hown.2.symm.trans ht))
    rw [if_pos hown, ht, Option.bind_some, hnone]
    simp only [Option.any_some, hcontains, if_true]
    exact .pure .none
  · rw [if_neg hown]
    obtain ⟨load, rfl, hload⟩ := hnested hown
    cases ht : own.asRef? with
    | none =>
      simp only [Option.bind_none, Option.any_none, Bool.false_eq_true, if_false]
      exact hload.bind fun loaded found _ hr => .pure (.some hr)
    | some target =>
      have hobject : own = .ref target := Object.eq_ref_of_asRef? ht
      subst hobject
      have hother : some target ≠ top := fun he => hown ⟨Option.some_ne_none target, he⟩
      have hcontains : memory.loading.contains target = false := by
        rw [hm.loading]
        exact Bool.eq_false_iff.2 fun h => hopen hown target rfl (List.contains_iff_mem.1 h)
      cases hl : memory.resources.lookup target with
      | some known =>
        obtain ⟨-, found, hfound, hr⟩ := hm.resources target known hl
        rw [Option.bind_some, hl, hfound]
        exact .pure (.some hr)
      | none =>
        simp only [Option.bind_some, hl, Option.any_some, hcontains, Bool.false_eq_true, if_false]
        refine hload.bind fun loaded found hfound hr => ?_
        exact .modify_bind (fun memory hm => hm.withResources hother hfound hr) (.pure (.some hr))

/-- An external object is the one that is read without memory, if the resources of its own
are. -/
theorem xobject?_agrees {nested : Option (Object → Loader Resources)} {object : Object}
    (hown : ∀ outline own, outline? inflater resolver object = .ok (some outline) →
      outline.own? = some own → AgreesWhile inflater resolver top plain here
        (Option.Rel Resources.Alike) (formResources nested own) (reloadForm top plain own)) :
    AgreesWhile inflater resolver top plain here (Option.Rel XObject.Alike)
      (xobject? inflater resolver nested object)
      (reloadXObject inflater resolver top plain object) := by
  rw [reloadXObject]
  refine .lift_bind fun outline houtline => ?_
  cases outline with
  | none => exact .pure .none
  | some outline =>
    cases ho : outline.own? with
    | none =>
      simp only [ho]
      exact .pure (.some (outline.complete_alike .none))
    | some own =>
      simp only [ho]
      exact (hown outline own houtline ho).bind fun _ _ _ hr =>
        .pure (.some (outline.complete_alike hr))

/-- The resources of an object are those that are read without memory, if those of the forms
in it are. -/
theorem entries_agrees {order : VisitOrder} {nested : Option (Object → Loader Resources)}
    {object : Object} (hr : ∀ target found, resolver target = .ok found → found.KeysApart)
    (ho : object.KeysApart)
    (hown : ∀ own, Owns inflater resolver object own → AgreesWhile inflater resolver top plain here
      (Option.Rel Resources.Alike) (formResources nested own) (reloadForm top plain own)) :
    AgreesWhile inflater resolver top plain here Resources.Alike
      (entries inflater order resolver nested object)
      (reloadWith inflater resolver top plain object) := by
  refine .lift_bind fun resolved hresolved => ?_
  cases hd : resolved.asDict? with
  | none =>
    exact .pure (.of_byName (fun _ => .none) (fun _ => .none) (fun _ => .none) fun _ => .none)
  | some dict =>
    have hkeys (key : String) (stored : Dict) (hpart : part resolver dict key = .ok stored) :
        (stored.map Prod.fst).Nodup := by
      cases keysApart_of_resolve hr ho hresolved with
      | intro apart values => exact (keysApart_of_part hr (values dict hd) hpart).1
    refine (Agrees.readPart (fun _ hm => hm.visited) (hkeys "Font") fun _ _ entry _ =>
      (font?_agrees entry.2).imp fun _ _ => rel_eq_iff.2).bind fun fonts fonts' _ hfonts => ?_
    refine (Agrees.readPart (fun _ hm => hm.visited) (hkeys "ExtGState") fun _ _ entry _ =>
      (parameterSet_agrees entry.2).map fun _ _ h => .some h).bind
        fun parameters parameters' _ hparameters => ?_
    refine (Agrees.readPart (fun _ hm => hm.visited) (hkeys "Properties") fun _ _ entry _ =>
      (Agrees.lift _).imp fun _ _ => rel_eq_iff.2).bind
        fun properties properties' _ hproperties => ?_
    refine (Agrees.readPart (fun _ hm => hm.visited) (hkeys "XObject")
      fun stored hpart entry he => xobject?_agrees fun outline own houtline hown' => ?_).bind
        fun xobjects xobjects' _ hxobjects => ?_
    · exact hown own ⟨stored, entry, outline, ⟨resolved, dict, hresolved, hd, hpart⟩, he, houtline,
        hown'⟩
    · exact .pure (.of_byName hfonts hparameters hproperties hxobjects)

end Steps

/-- Resources are those that are read without memory, if they are so while their reference is
one of those being read. -/
theorem loadWith_agrees {inflater : Inflater} {resolver : Resolver} {top : Option Ref}
    {plain : Object → Option Resources} {above : List Ref} {order : VisitOrder}
    {nested : Option (Object → Loader Resources)} {object : Object}
    {found : Option Resources} (hnot : ∀ target, object.asRef? = some target → target ∉ above)
    (h : AgreesWhile inflater resolver top plain (object.asRef?.toList ++ above) Resources.Alike
      (entries inflater order resolver nested object) found) :
    AgreesWhile inflater resolver top plain above Resources.Alike
      (loadWith inflater order resolver nested object) found := by
  unfold loadWith
  cases ht : object.asRef? with
  | none =>
    rw [ht] at h
    exact h
  | some target =>
    rw [ht] at h
    refine .modify_bind (fun memory hm => hm.opened target) ?_
    rw [← bind_pure found]
    refine h.bind fun loaded reloaded _ hr => ?_
    exact .modify_bind (fun memory hm => hm.closed (hnot target ht)) (.pure hr)

section Descent

variable {inflater : Inflater} {resolver : Resolver} {topmost : Object}
  {plain : Object → Option Resources} {order : VisitOrder}
  (hr : ∀ target found, resolver target = .ok found → found.KeysApart)
  (ho : topmost.KeysApart) (hw : WellNested inflater resolver topmost)
  (hp : ∀ {above depth object}, Descent inflater resolver topmost above depth object →
    plain object = reloadWith inflater resolver topmost.asRef? plain object)
include hr ho hw hp

/-- Resources are those that are read without memory, if those of the forms in them are one
level down. Forms that name the topmost resources are not read. -/
theorem loadWith_agrees_of_nested {nested : Option (Object → Loader Resources)}
    {above : List Ref} {depth : Nat} {object : Object}
    (hd : Descent inflater resolver topmost above depth object)
    (hnested : ∀ own, Owns inflater resolver object own → ¬own.IsRefTo topmost.asRef? →
      ∃ load, nested = some load ∧ AgreesWhile inflater resolver topmost.asRef? plain
        (object.asRef?.toList ++ above) Resources.Alike (load own) (plain own)) :
    AgreesWhile inflater resolver topmost.asRef? plain above Resources.Alike
      (loadWith inflater order resolver nested object) (plain object) := by
  rw [hp hd]
  refine loadWith_agrees (hw.notMem hd) (entries_agrees hr (keysApart_of_descent hr ho hd) ?_)
  exact fun own howns => formResources_agrees (fun target ht => hd.top_mem ht)
    (fun hother target ht => hw.notMem (.form hd howns hother) target ht) (hnested own howns)

/-- With enough levels left for the forms below, resources are those that are read without
memory. The induction is on the levels left, which grow fewer as resources stand deeper. -/
theorem loadAt_agrees {levels : Nat} {above : List Ref} {depth : Nat} {object : Object}
    (hd : Descent inflater resolver topmost above depth object) (hl : depth + levels = maxNesting) :
    AgreesWhile inflater resolver topmost.asRef? plain above Resources.Alike
      (loadAt inflater order resolver levels object) (plain object) := by
  induction levels generalizing above depth object with
  | zero =>
    refine loadWith_agrees_of_nested hr ho hw hp hd fun own howns hother => ?_
    have hdeep := hw.depth_le (.form hd howns hother)
    omega
  | succ levels ih =>
    refine loadWith_agrees_of_nested hr ho hw hp hd fun own howns hother => ⟨_, rfl, ?_⟩
    exact ih (.form hd howns hother) (by omega)

end Descent

end Loader

/-- In whatever order entries are visited, loading fails where reading without memory does, and
gives alike resources where that succeeds. -/
theorem loadInOrder_alike (order : VisitOrder) {inflater : Inflater} {resolver : Resolver}
    {object : Object} {levels : Nat}
    (hr : ∀ target found, resolver target = .ok found → found.KeysApart)
    (ho : object.KeysApart) (hw : WellNested inflater resolver object) (hl : maxNesting < levels) :
    Option.Rel Resources.Alike (loadInOrder inflater order resolver object).toOption
      (reload inflater resolver object.asRef? levels object) := by
  have hplain {above : List Ref} {depth : Nat} {inner : Object}
      (hd : Descent inflater resolver object above depth inner) :
      reload inflater resolver object.asRef? levels inner =
        reloadWith inflater resolver object.asRef?
          (reload inflater resolver object.asRef? levels) inner :=
    (reload_succ hw hd (Nat.lt_add_left depth hl)).symm
  have hload : Loader.Agrees _ _ _ (Loader.loadAt inflater order resolver maxNesting object) _ :=
    Loader.loadAt_agrees hr ho hw hplain .top (Nat.zero_add maxNesting)
  have hrun := hload ⟨[], [], [], 0⟩ .empty
  unfold loadInOrder
  cases hs : (Loader.loadAt inflater order resolver maxNesting object).run ⟨[], [], [], 0⟩ with
  | error error =>
    rw [hs] at hrun
    rw [hrun]
    exact .none
  | ok result =>
    rw [hs] at hrun
    obtain ⟨-, plain, hplain, hr⟩ := hrun
    rw [hplain]
    exact .some hr

/-- Loading succeeds where what it is alike to is there. -/
theorem exists_of_rel_some {loaded : Except Error Resources} {plain : Resources}
    (h : Option.Rel Resources.Alike loaded.toOption (some plain)) :
    ∃ found, loaded = .ok found ∧ Resources.Alike found plain := by
  cases loaded with
  | error error => cases h
  | ok found =>
    cases h with
    | some h => exact ⟨found, rfl, h⟩

/-- Sharing fonts and resources makes no difference: resources that nest well are loaded as
reading them without memory gives them, in whatever order entries are visited and however many
levels more there are for reading them; and both succeed where nothing in them is unreadable. -/
theorem load_alike (inflater : Inflater) (resolver : Resolver) (object : Object) (levels : Nat)
    (hr : ∀ target found, resolver target = .ok found → found.KeysApart)
    (ho : object.KeysApart) (hw : WellNested inflater resolver object) (hl : maxNesting < levels) :
    Option.Rel Resources.Alike (load inflater resolver object).toOption
        (reload inflater resolver object.asRef? levels object) ∧
      (∀ order, Option.Rel Resources.Alike (loadInOrder inflater order resolver object).toOption
        (reload inflater resolver object.asRef? levels object)) ∧
      ((∀ above depth inner, Descent inflater resolver object above depth inner →
        Readable inflater resolver inner) →
        ∃ plain, reload inflater resolver object.asRef? levels object = some plain ∧
          (∃ found, load inflater resolver object = .ok found ∧ Resources.Alike found plain) ∧
          ∀ order, ∃ found, loadInOrder inflater order resolver object = .ok found ∧
            Resources.Alike found plain) := by
  have halike (order : VisitOrder) := loadInOrder_alike order hr ho hw hl
  refine ⟨halike .stored, halike, fun hread => ?_⟩
  obtain ⟨plain, hplain⟩ := exists_reload hw hread .top (Nat.lt_add_left 0 hl)
  rw [hplain] at halike
  exact ⟨plain, hplain, exists_of_rel_some (halike .stored),
    fun order => exists_of_rel_some (halike order)⟩

/-- A document in which two names give one form, so that its resources are shared, and a third
name gives a form that names the topmost resources. -/
def sharedForms : Resolver := fun target =>
  match target.id with
  | 1 => .ok (.dict [("XObject",
      .dict [("A", .ref ⟨2, 0⟩), ("B", .ref ⟨2, 0⟩), ("C", .ref ⟨3, 0⟩)])])
  | 2 => .ok (.stream [("Subtype", .name "Form"), ("Resources", .ref ⟨4, 0⟩)] [])
  | 3 => .ok (.stream [("Subtype", .name "Form"), ("Resources", .ref ⟨1, 0⟩)] [])
  | 4 => .ok (.dict [])
  | _ => Resolver.none target

/-- An external object of the topmost resources of the document has an outline with resources
that are shared or topmost. -/
theorem sharedForms_outline? {stored : Dict}
    (h : HasPart sharedForms (.ref ⟨1, 0⟩) "XObject" stored) {entry : String × Object}
    (he : entry ∈ stored) : ∃ own, (own = .ref ⟨4, 0⟩ ∨ own = .ref ⟨1, 0⟩) ∧
      Loader.outline? .standard sharedForms entry.2 =
        .ok (some (.form [] .identity (some own))) := by
  have hstored : stored = [("A", .ref ⟨2, 0⟩), ("B", .ref ⟨2, 0⟩), ("C", .ref ⟨3, 0⟩)] :=
    HasPart.unique ⟨_, _, rfl, rfl, rfl⟩ h
  rw [hstored] at he
  simp only [List.mem_cons, List.not_mem_nil, or_false] at he
  rcases he with rfl | rfl | rfl
  · exact ⟨_, Or.inl rfl, rfl⟩
  · exact ⟨_, Or.inl rfl, rfl⟩
  · exact ⟨_, Or.inr rfl, rfl⟩

/-- Below the topmost resources of the document there are only the shared ones. -/
theorem sharedForms_descent {above : List Ref} {depth : Nat} {object : Object}
    (h : Descent .standard sharedForms (.ref ⟨1, 0⟩) above depth object) :
    (above = [] ∧ depth = 0 ∧ object = .ref ⟨1, 0⟩) ∨
      above = [⟨1, 0⟩] ∧ depth = 1 ∧ object = .ref ⟨4, 0⟩ := by
  induction h with
  | top => exact Or.inl ⟨rfl, rfl, rfl⟩
  | @form above depth object own _ owns other ih =>
    obtain ⟨stored, entry, outline, hpart, hentry, houtline, hown⟩ := owns
    rcases ih with ⟨rfl, rfl, rfl⟩ | ⟨rfl, rfl, rfl⟩
    · obtain ⟨own', hcases, houtline'⟩ := sharedForms_outline? hpart hentry
      cases houtline.symm.trans houtline'
      cases hown
      rcases hcases with rfl | rfl
      · exact Or.inr ⟨rfl, rfl, rfl⟩
      · exact absurd ⟨nofun, rfl⟩ other
    · have hempty : stored = [] := HasPart.unique ⟨_, _, rfl, rfl, rfl⟩ hpart
      rw [hempty] at hentry
      cases hentry

/-- No key occurs twice in the document. -/
theorem sharedForms_keysApart (target : Ref) (found : Object)
    (h : sharedForms target = .ok found) : found.KeysApart := by
  have hnil : ∀ entry ∈ ([] : Dict), entry.2.KeysApart := nofun
  have hform (own : Ref) :
      (Object.stream [("Subtype", .name "Form"), ("Resources", .ref own)] []).KeysApart := by
    have hkeys : ["Subtype", "Resources"].Nodup := by decide
    exact .of_some rfl hkeys (List.forall_mem_cons.2 ⟨.of_none rfl,
      List.forall_mem_cons.2 ⟨.of_none rfl, hnil⟩⟩)
  unfold sharedForms at h
  split at h <;> cases h
  · refine .of_some rfl (by decide) (List.forall_mem_cons.2 ⟨?_, hnil⟩)
    exact .of_some rfl (by decide) (List.forall_mem_cons.2 ⟨.of_none rfl,
      List.forall_mem_cons.2 ⟨.of_none rfl, List.forall_mem_cons.2 ⟨.of_none rfl, hnil⟩⟩⟩)
  · exact hform _
  · exact hform _
  · exact .of_some rfl (by decide) hnil

/-- Nothing in the document is unreadable. -/
theorem sharedForms_readable {above : List Ref} {depth : Nat} {object : Object}
    (h : Descent .standard sharedForms (.ref ⟨1, 0⟩) above depth object) :
    Readable .standard sharedForms object := by
  have hnone {object : Object} {key : String} {stored : Dict}
      (hempty : HasPart sharedForms object key []) (hs : HasPart sharedForms object key stored)
      (entry : String × Object) (he : entry ∈ stored) : False := by
    cases HasPart.unique hempty hs
    cases he
  rcases sharedForms_descent h with ⟨-, -, rfl⟩ | ⟨-, -, rfl⟩
  · refine ⟨⟨_, rfl⟩, ?_, ?_, ?_, ?_⟩
    · rintro _ _ ⟨⟩ ⟨⟩
      simp only [List.forall_mem_cons]
      exact ⟨⟨_, rfl⟩, ⟨_, rfl⟩, ⟨_, rfl⟩, ⟨_, rfl⟩, nofun⟩
    · exact fun stored hs entry he => (hnone ⟨_, _, rfl, rfl, rfl⟩ hs entry he).elim
    · exact fun stored hs entry he => (hnone ⟨_, _, rfl, rfl, rfl⟩ hs entry he).elim
    · intro stored hs entry he
      obtain ⟨own, -, houtline⟩ := sharedForms_outline? hs he
      exact ⟨_, houtline⟩
  · refine ⟨⟨_, rfl⟩, ?_, ?_, ?_, ?_⟩
    · rintro _ _ ⟨⟩ ⟨⟩
      simp only [List.forall_mem_cons]
      exact ⟨⟨_, rfl⟩, ⟨_, rfl⟩, ⟨_, rfl⟩, ⟨_, rfl⟩, nofun⟩
    · exact fun stored hs entry he => (hnone ⟨_, _, rfl, rfl, rfl⟩ hs entry he).elim
    · exact fun stored hs entry he => (hnone ⟨_, _, rfl, rfl, rfl⟩ hs entry he).elim
    · exact fun stored hs entry he => (hnone ⟨_, _, rfl, rfl, rfl⟩ hs entry he).elim

/-- Every other visit meets the entries from the last one to the first. -/
def alternating : VisitOrder where
  arrange visit entries := if visit % 2 = 0 then entries else entries.reverse
  perm visit entries := by
    split
    · exact List.Perm.refl _
    · exact entries.reverse_perm

/-- The resources of the document are loaded as reading them without memory gives them, also
where every other visit meets the entries in reverse. -/
theorem load_alike_sharedForms :
    ∃ plain, reload .standard sharedForms (some ⟨1, 0⟩) 17 (.ref ⟨1, 0⟩) = some plain ∧
      (∃ found, load .standard sharedForms (.ref ⟨1, 0⟩) = .ok found ∧
        Resources.Alike found plain) ∧
      ∃ found, loadInOrder .standard alternating sharedForms (.ref ⟨1, 0⟩) = .ok found ∧
        Resources.Alike found plain := by
  have hw : WellNested .standard sharedForms (.ref ⟨1, 0⟩) := by
    constructor
    · intro above depth object h
      rcases sharedForms_descent h with ⟨-, rfl, -⟩ | ⟨-, rfl, -⟩ <;> decide
    · intro above depth object h
      rcases sharedForms_descent h with ⟨rfl, -, rfl⟩ | ⟨rfl, -, rfl⟩
      · exact nofun
      · rintro _ ⟨⟩
        decide
  obtain ⟨-, -, hboth⟩ :=
    load_alike .standard sharedForms (.ref ⟨1, 0⟩) 17 sharedForms_keysApart (.of_none rfl) hw
      (by decide)
  obtain ⟨plain, hplain, hload, horder⟩ :=
    hboth fun above depth inner hd => sharedForms_readable hd
  exact ⟨plain, hplain, hload, horder alternating⟩

end PageText.Resources
