import Mathlib.Data.List.Forall2
import Mathlib.Data.List.Perm.Basic
import PageText.Resources.Load

/-!
# Loading without memory

A second way to read resources, which remembers nothing: fonts and resources are read anew at
each use, and only the reference of the topmost resources is known, so that forms that name
it get none of their own. Cycles make it fail, as it goes only so many levels deep; where
resources nest well, levels beyond those make no difference. Resources are compared by what
can be found in them by name, all the way down.
-/

namespace PageText

/-- Whether an object is the given reference. -/
def Object.IsRefTo (object : Object) (target : Option Ref) : Prop :=
  object.asRef? ≠ none ∧ object.asRef? = target

instance (object : Object) (target : Option Ref) : Decidable (object.IsRefTo target) :=
  inferInstanceAs (Decidable (object.asRef? ≠ none ∧ object.asRef? = target))

/-- No key occurs twice in the dictionaries of an object, as in what the readers build. -/
inductive Object.KeysApart : Object → Prop
  /-- What holds for the entries holds for the object. -/
  | intro {object : Object}
      (apart : ∀ dict, object.asDict? = some dict → (dict.map Prod.fst).Nodup)
      (values : ∀ dict, object.asDict? = some dict → ∀ entry ∈ dict, KeysApart entry.2) :
      KeysApart object

/-- What holds no entries has no key twice. -/
theorem Object.KeysApart.of_none {object : Object} (h : object.asDict? = none) :
    object.KeysApart := by
  refine .intro ?_ ?_ <;> rw [h] <;> exact nofun

/-- Keys are apart in an object if they are among its entries and in each of them. -/
theorem Object.KeysApart.of_some {object : Object} {dict : Dict} (h : object.asDict? = some dict)
    (hn : (dict.map Prod.fst).Nodup) (hv : ∀ entry ∈ dict, entry.2.KeysApart) :
    object.KeysApart := by
  refine .intro ?_ ?_ <;> rw [h] <;> rintro _ ⟨⟩
  · exact hn
  · exact hv

mutual

/-- Two external objects are the same but for the order in which entries are stored. -/
inductive XObject.Alike : XObject → XObject → Prop
  /-- Objects that are no forms are the same. -/
  | other (subtype : String) : XObject.Alike (.other subtype) (.other subtype)
  /-- Forms without resources of their own are the same. -/
  | bare (content : List UInt8) (matrix : Matrix) :
    XObject.Alike (.form content matrix none) (.form content matrix none)
  /-- Resources of forms are alike. -/
  | form (content : List UInt8) (matrix : Matrix) {first second : Resources}
      (own : Resources.Alike first second) :
    XObject.Alike (.form content matrix (some first)) (.form content matrix (some second))

/-- Two resources give the same for every name. -/
inductive Resources.Alike : Resources → Resources → Prop
  /-- The same names give fonts, parameter sets and property lists that are the same, and
  external objects that are alike. -/
  | intro {first second : Resources}
      (fonts : ∀ name, first.font? name = second.font? name)
      (parameters : ∀ name, first.parameters? name = second.parameters? name)
      (properties : ∀ name, first.properties? name = second.properties? name)
      (xobjects : ∀ name, Option.Rel XObject.Alike (first.xobject? name) (second.xobject? name)) :
    Resources.Alike first second

end

/-- Alike resources make an external object alike. -/
theorem Resources.Outline.complete_alike (outline : Resources.Outline)
    {first second : Option Resources} (h : Option.Rel Resources.Alike first second) :
    XObject.Alike (outline.complete first) (outline.complete second) := by
  cases outline with
  | other subtype => exact .other subtype
  | form content matrix own =>
    cases h with
    | none => exact .bare content matrix
    | some h => exact .form content matrix h

namespace Resources

open Error (exists_of_bind)

/-- A part of a resource dictionary, read without memory. -/
def reloadPart (resolver : Resolver) (dict : Dict) (key : String) {α : Type}
    (read : Object → Option (Option α)) : Option (List (String × α)) := do
  let stored ← (Loader.part resolver dict key).toOption
  Loader.readEntries read stored

/-- The parameter set of an object, read without memory. -/
def reloadParameters (inflater : Inflater) (resolver : Resolver) (object : Object) :
    Option ParameterSet := do
  match ← (Loader.fontEntry? resolver object).toOption with
  | none => pure ⟨none⟩
  | some (font, size) =>
    pure ⟨do pure (← (Font.load inflater resolver font).toOption, ← size.asNumber?)⟩

section Reload

variable (inflater : Inflater) (resolver : Resolver) (top : Option Ref)
  (nested : Object → Option Resources)

/-- The resources of a form, read without memory. -/
def reloadForm (own : Object) : Option (Option Resources) := do
  if own.IsRefTo top then pure none
  else
    let found ← nested own
    pure (some found)

/-- The external object of an object, read without memory. -/
def reloadXObject (object : Object) : Option (Option XObject) := do
  match ← (Loader.outline? inflater resolver object).toOption with
  | none => pure none
  | some outline =>
    match outline.own? with
    | none => pure (some (outline.complete none))
    | some own =>
      let resources ← reloadForm top nested own
      pure (some (outline.complete resources))

/-- The resources of an object, read without memory; `nested` reads those of forms. -/
def reloadWith (object : Object) : Option Resources := do
  let resolved ← (object.resolve resolver).toOption
  match resolved.asDict? with
  | none => pure .empty
  | some dict =>
    let fonts ← reloadPart resolver dict "Font" fun object =>
      pure (Font.load inflater resolver object).toOption
    let parameters ← reloadPart resolver dict "ExtGState" fun object =>
      some <$> reloadParameters inflater resolver object
    let properties ← reloadPart resolver dict "Properties" fun object =>
      (Loader.propertyList? resolver object).toOption
    let xobjects ← reloadPart resolver dict "XObject" (reloadXObject inflater resolver top nested)
    pure ⟨fonts, parameters, xobjects, properties⟩

/-- The resources of an object, read without memory and anew at each use, as long as they nest
less than the given number of levels deep; `top` is the reference of the topmost ones. -/
def reload : Nat → Object → Option Resources
  | 0, _ => none
  | levels + 1, object => reloadWith inflater resolver top (reload levels) object

end Reload

/-- Two lists of entries give the same for every name, up to a relation. -/
def ByName {α β : Type} (R : α → β → Prop) (first : List (String × α))
    (second : List (String × β)) : Prop :=
  ∀ name, Option.Rel R (first.lookup name) (second.lookup name)

section Entries

variable {α β : Type}

/-- Entries related one by one are related name by name. -/
theorem byName_of_forall₂ {R : α → β → Prop} {first : List (String × α)}
    {second : List (String × β)}
    (h : List.Forall₂ (fun x y => x.1 = y.1 ∧ R x.2 y.2) first second) : ByName R first second := by
  intro name
  induction h with
  | nil => exact .none
  | @cons x y first second hxy _ ih =>
    obtain ⟨key, x⟩ := x
    obtain ⟨key', y⟩ := y
    obtain ⟨rfl, hr⟩ := hxy
    rw [List.lookup_cons, List.lookup_cons]
    cases name == key with
    | true => exact .some hr
    | false => exact ih

/-- Where no key occurs twice a key gives the value it stands with. -/
theorem lookup_eq_some_iff_mem {entries : List (String × α)} (hn : (entries.map Prod.fst).Nodup)
    {key : String} {value : α} : entries.lookup key = some value ↔ (key, value) ∈ entries := by
  induction entries with
  | nil => exact ⟨nofun, nofun⟩
  | cons entry entries ih =>
    obtain ⟨key', value'⟩ := entry
    obtain ⟨hnot, hn⟩ := List.nodup_cons.1 hn
    rw [List.lookup_cons, List.mem_cons, Prod.mk.injEq]
    by_cases hkey : key = key'
    · subst hkey
      have hmem : (key, value) ∉ entries := fun h => hnot (List.mem_map.2 ⟨_, h, rfl⟩)
      rw [beq_self_eq_true]
      constructor
      · rintro ⟨⟩
        exact Or.inl ⟨rfl, rfl⟩
      · rintro (⟨-, rfl⟩ | h)
        · rfl
        · exact absurd h hmem
    · simp only [beq_eq_false_iff_ne.2 hkey, hkey, false_and, false_or, ih hn]

/-- What a key gives is stored. -/
theorem mem_of_lookup_eq_some {entries : List (String × α)} {key : String} {value : α}
    (h : entries.lookup key = some value) : (key, value) ∈ entries := by
  obtain ⟨before, after, rfl, -⟩ := List.lookup_eq_some_iff.1 h
  exact List.mem_append_right before List.mem_cons_self

/-- The order of entries makes no difference to what a key gives. -/
theorem lookup_perm {first second : List (String × α)} (hp : first.Perm second)
    (hn : (second.map Prod.fst).Nodup) (key : String) : first.lookup key = second.lookup key := by
  have hn' : (first.map Prod.fst).Nodup := (hp.map Prod.fst).nodup_iff.2 hn
  ext value
  rw [lookup_eq_some_iff_mem hn', lookup_eq_some_iff_mem hn, hp.mem_iff]

/-- All entries can be mapped exactly if each can. -/
theorem mapM_eq_some_iff {f : α → Option β} {xs : List α} {ys : List β} :
    xs.mapM f = some ys ↔ List.Forall₂ (fun x y => f x = some y) xs ys := by
  induction xs generalizing ys with
  | nil =>
    rw [List.mapM_nil, List.forall₂_nil_left_iff]
    exact ⟨fun h => (Option.some.inj h).symm, fun h => congrArg some h.symm⟩
  | cons x xs ih =>
    rw [List.mapM_cons, List.forall₂_cons_left_iff]
    simp only [← ih, Option.bind_eq_bind, Option.bind_eq_some_iff, Option.pure_def,
      Option.some.injEq]
    constructor
    · rintro ⟨y, hy, rest, hrest, rfl⟩
      exact ⟨y, rest, hy, hrest, rfl⟩
    · rintro ⟨y, rest, hy, hrest, rfl⟩
      exact ⟨y, hy, rest, hrest, rfl⟩

/-- Values that may be missing are related by equality if they are equal. -/
theorem rel_eq_iff {first second : Option α} : Option.Rel Eq first second ↔ first = second := by
  constructor
  · rintro (⟨rfl⟩ | _)
    · rfl
    · rfl
  · rintro rfl
    cases first with
    | none => exact .none
    | some value => exact .some rfl

/-- Resources are alike if each of their parts gives the same for every name. -/
theorem Alike.of_byName {first second : Resources} (hf : ByName Eq first.fonts second.fonts)
    (hs : ByName Eq first.parameters second.parameters)
    (hp : ByName Eq first.properties second.properties)
    (hx : ByName XObject.Alike first.xobjects second.xobjects) : Alike first second :=
  .intro (fun name => rel_eq_iff.1 (hf name)) (fun name => rel_eq_iff.1 (hs name))
    (fun name => rel_eq_iff.1 (hp name)) hx

variable {read : Object → Option (Option α)} {stored visited : Dict} {found : List (String × α)}

/-- An entry that gives something gives it under its own name. -/
theorem key_of_readEntry {entry : String × Object} {x : String × α}
    (h : Loader.readEntry read entry = some (some x)) : x.1 = entry.1 := by
  obtain ⟨value, -, hvalue⟩ := Option.bind_eq_some_iff.1 h
  obtain ⟨_, -, rfl⟩ := Option.map_eq_some_iff.1 (Option.some.inj hvalue)
  rfl

/-- Entries are read exactly if each is. -/
theorem readEntries_eq_some_iff : Loader.readEntries read stored = some found ↔
    ∃ results, List.Forall₂ (fun entry result => Loader.readEntry read entry = some result)
      stored results ∧ results.filterMap id = found := by
  simp only [← mapM_eq_some_iff, Loader.readEntries, Option.bind_eq_bind,
    Option.bind_eq_some_iff, Option.pure_def, Option.some.injEq]

/-- Only keys of stored entries are found. -/
theorem keys_sublist_of_readEntries (h : Loader.readEntries read stored = some found) :
    (found.map Prod.fst).Sublist (stored.map Prod.fst) := by
  obtain ⟨results, hr, rfl⟩ := readEntries_eq_some_iff.1 h
  clear h
  induction hr with
  | nil => exact List.Sublist.refl []
  | @cons entry result stored results hone _ ih =>
    cases result with
    | none => exact ih.cons _
    | some x =>
      have hcons : (some x :: results).filterMap id = x :: results.filterMap id := rfl
      rw [hcons, List.map_cons, List.map_cons, key_of_readEntry hone]
      exact ih.cons_cons _

/-- The order in which entries are visited makes no difference to what is found by name. -/
theorem readEntries_perm (hp : visited.Perm stored) (hn : (stored.map Prod.fst).Nodup)
    (h : Loader.readEntries read visited = some found) :
    ∃ found', Loader.readEntries read stored = some found' ∧
      ∀ name, found.lookup name = found'.lookup name := by
  obtain ⟨results, hr, rfl⟩ := readEntries_eq_some_iff.1 h
  obtain ⟨results', hr', hp'⟩ := List.perm_comp_forall₂ hp.symm hr
  have hread := readEntries_eq_some_iff.2 ⟨results', hr', rfl⟩
  have hn' : ((results'.filterMap id).map Prod.fst).Nodup :=
    (keys_sublist_of_readEntries hread).nodup hn
  exact ⟨_, hread, lookup_perm (hp'.symm.filterMap id) hn'⟩

/-- Entries that are read alike are read alike together. -/
theorem readEntries_congr {read' : Object → Option (Option α)}
    (h : ∀ entry ∈ stored, read entry.2 = read' entry.2) :
    Loader.readEntries read stored = Loader.readEntries read' stored := by
  have hmap : stored.mapM (Loader.readEntry read) = stored.mapM (Loader.readEntry read') := by
    induction stored with
    | nil => rfl
    | cons entry stored ih =>
      rw [List.mapM_cons, List.mapM_cons, ih fun other ho => h other (List.mem_cons_of_mem _ ho),
        Loader.readEntry, Loader.readEntry, h entry List.mem_cons_self]
  rw [Loader.readEntries, Loader.readEntries, hmap]

/-- Where every entry can be read all of them can. -/
theorem exists_readEntries (h : ∀ entry ∈ stored, ∃ result, read entry.2 = some result) :
    ∃ found, Loader.readEntries read stored = some found := by
  suffices hr : ∃ results, List.Forall₂
      (fun entry result => Loader.readEntry read entry = some result) stored results by
    obtain ⟨results, hr⟩ := hr
    exact ⟨_, readEntries_eq_some_iff.2 ⟨results, hr, rfl⟩⟩
  induction stored with
  | nil => exact ⟨[], .nil⟩
  | cons entry stored ih =>
    obtain ⟨result, hone⟩ := h entry List.mem_cons_self
    obtain ⟨results, hr⟩ := ih fun other ho => h other (List.mem_cons_of_mem _ ho)
    exact ⟨result.map (entry.1, ·) :: results, .cons (by rw [Loader.readEntry, hone]; rfl) hr⟩

end Entries

/-- The entries of a part of the resources of an object. -/
def HasPart (resolver : Resolver) (object : Object) (key : String) (stored : Dict) : Prop :=
  ∃ resolved dict, object.resolve resolver = .ok resolved ∧ resolved.asDict? = some dict ∧
    Loader.part resolver dict key = .ok stored

/-- A part has one list of entries. -/
theorem HasPart.unique {resolver : Resolver} {object : Object} {key : String}
    {stored stored' : Dict} (h : HasPart resolver object key stored)
    (h' : HasPart resolver object key stored') : stored' = stored := by
  obtain ⟨resolved, dict, hresolved, hdict, hpart⟩ := h
  obtain ⟨resolved', dict', hresolved', hdict', hpart'⟩ := h'
  cases hresolved.symm.trans hresolved'
  cases hdict.symm.trans hdict'
  exact Except.ok.inj (hpart'.symm.trans hpart)

/-- An object is the resources that a form among the external objects of another one has of
its own. -/
def Owns (inflater : Inflater) (resolver : Resolver) (object own : Object) : Prop :=
  ∃ stored entry outline, HasPart resolver object "XObject" stored ∧ entry ∈ stored ∧
    Loader.outline? inflater resolver entry.2 = .ok (some outline) ∧ outline.own? = some own

/-- An object stands the given number of levels below the topmost resources, with the given
references of resources above it. Forms that name the topmost resources lead no further. -/
inductive Descent (inflater : Inflater) (resolver : Resolver) (topmost : Object) :
    List Ref → Nat → Object → Prop
  /-- Above the topmost resources there is nothing. -/
  | top : Descent inflater resolver topmost [] 0 topmost
  /-- Resources of forms are one level further down. -/
  | form {above : List Ref} {depth : Nat} {object own : Object}
      (here : Descent inflater resolver topmost above depth object)
      (owns : Owns inflater resolver object own)
      (other : ¬own.IsRefTo topmost.asRef?) :
      Descent inflater resolver topmost (object.asRef?.toList ++ above) (depth + 1) own

/-- Resources of forms nest as far as they are read, and none stand again below themselves,
the topmost ones excepted. -/
structure WellNested (inflater : Inflater) (resolver : Resolver) (topmost : Object) : Prop where
  /-- No resources stand too deep. -/
  depth_le : ∀ {above depth object}, Descent inflater resolver topmost above depth object →
    depth ≤ maxNesting
  /-- No resources have their own reference above them. -/
  notMem : ∀ {above depth object}, Descent inflater resolver topmost above depth object →
    ∀ target, object.asRef? = some target → target ∉ above

/-- The reference of the topmost resources is never lost from sight. -/
theorem Descent.top_mem {inflater : Inflater} {resolver : Resolver} {topmost object : Object}
    {above : List Ref} {depth : Nat} (h : Descent inflater resolver topmost above depth object)
    {target : Ref} (ht : topmost.asRef? = some target) : target ∈ object.asRef?.toList ++ above := by
  induction h with
  | top => exact List.mem_append_left _ (Option.mem_toList.2 ht)
  | form _ _ _ ih => exact List.mem_append_right _ ih

/-- Reading the resources of an object itself, without those of forms, meets no failure but
that of fonts. -/
structure Readable (inflater : Inflater) (resolver : Resolver) (object : Object) : Prop where
  /-- The object can be resolved. -/
  resolves : ∃ resolved, object.resolve resolver = .ok resolved
  /-- The parts can be read. -/
  parts : ∀ resolved dict, object.resolve resolver = .ok resolved →
    resolved.asDict? = some dict → ∀ key ∈ ["Font", "ExtGState", "Properties", "XObject"],
    ∃ stored, Loader.part resolver dict key = .ok stored
  /-- The parameter sets can be read. -/
  parameters : ∀ stored, HasPart resolver object "ExtGState" stored → ∀ entry ∈ stored,
    ∃ found, Loader.fontEntry? resolver entry.2 = .ok found
  /-- The property lists can be read. -/
  properties : ∀ stored, HasPart resolver object "Properties" stored → ∀ entry ∈ stored,
    ∃ found, Loader.propertyList? resolver entry.2 = .ok found
  /-- The external objects can be read. -/
  xobjects : ∀ stored, HasPart resolver object "XObject" stored → ∀ entry ∈ stored,
    ∃ found, Loader.outline? inflater resolver entry.2 = .ok found

section KeysApart

variable {inflater : Inflater} {resolver : Resolver} {object : Object}
  (hr : ∀ target found, resolver target = .ok found → found.KeysApart)
include hr

/-- Following references keeps keys apart. -/
theorem keysApart_of_resolve (ho : object.KeysApart) {found : Object}
    (h : object.resolve resolver = .ok found) : found.KeysApart := by
  have hwithin (turns : Nat) (object : Object) (ho : object.KeysApart)
      (h : object.resolveWithin resolver turns = .ok found) : found.KeysApart := by
    induction turns generalizing object with
    | zero => cases h
    | succ turns ih =>
      cases object with
      | ref target =>
        rw [Object.resolveWithin] at h
        cases hn : resolver target with
        | error error =>
          rw [hn] at h
          cases h
        | ok next =>
          rw [hn] at h
          exact ih next (hr target next hn) h
      | _ =>
        cases h
        exact ho
  exact hwithin _ _ ho h

/-- The keys of a part of a resource dictionary are apart, and so are those in its entries. -/
theorem keysApart_of_part {dict stored : Dict} {key : String}
    (hd : ∀ entry ∈ dict, entry.2.KeysApart)
    (h : Loader.part resolver dict key = .ok stored) :
    (stored.map Prod.fst).Nodup ∧ ∀ entry ∈ stored, entry.2.KeysApart := by
  obtain ⟨resolved, hresolved, h⟩ := exists_of_bind h
  rw [Dict.resolve?, Dict.get?] at hresolved
  cases hvalue : dict.lookup key with
  | none =>
    rw [hvalue] at hresolved
    cases hresolved
    cases h
    exact ⟨List.nodup_nil, nofun⟩
  | some value =>
    rw [hvalue] at hresolved
    obtain ⟨found, hfound, hsome⟩ := exists_of_bind hresolved
    cases hsome
    have happart : found.KeysApart :=
      keysApart_of_resolve hr (hd _ (mem_of_lookup_eq_some hvalue)) hfound
    cases found with
    | dict entries =>
      cases h
      cases happart with
      | intro apart values => exact ⟨apart stored rfl, values stored rfl⟩
    | null =>
      cases h
      exact ⟨List.nodup_nil, nofun⟩
    | _ => cases h

/-- The resources that a form has of its own keep keys apart if the form does. -/
theorem keysApart_of_outline? (ho : object.KeysApart) {outline : Outline} {own : Object}
    (h : Loader.outline? inflater resolver object = .ok (some outline))
    (hown : outline.own? = some own) : own.KeysApart := by
  obtain ⟨resolved, hresolved, h⟩ := exists_of_bind h
  have happart : resolved.KeysApart := keysApart_of_resolve hr ho hresolved
  cases resolved with
  | stream dict data =>
    dsimp only at h
    split at h
    · cases h
      cases hown
    · split at h
      · cases h
      · obtain ⟨matrix, -, h⟩ := exists_of_bind h
        cases h
        cases happart with
        | intro apart values => exact values dict rfl _ (mem_of_lookup_eq_some hown)
  | _ => cases h

/-- Wherever resources stand below others whose keys are apart, their keys are apart. -/
theorem keysApart_of_descent (ho : object.KeysApart) {above : List Ref} {depth : Nat}
    {inner : Object} (h : Descent inflater resolver object above depth inner) :
    inner.KeysApart := by
  induction h with
  | top => exact ho
  | @form above depth inner own _ owns _ ih =>
    obtain ⟨stored, entry, outline, ⟨resolved, dict, hresolved, hdict, hpart⟩, hentry, houtline,
      hown⟩ := owns
    cases keysApart_of_resolve hr ih hresolved with
    | intro apart values =>
      have hstored := (keysApart_of_part hr (values dict hdict) hpart).2
      exact keysApart_of_outline? hr (hstored entry hentry) houtline hown

end KeysApart

section Levels

variable {inflater : Inflater} {resolver : Resolver} {topmost : Object}

/-- Steps that go on alike from what was read lead to the same. -/
theorem toOption_bind_congr {α β : Type} {read : Except Error α} {next next' : α → Option β}
    (h : ∀ a, read = .ok a → next a = next' a) :
    (read.toOption >>= next) = (read.toOption >>= next') := by
  cases read with
  | error error => rfl
  | ok a => exact h a rfl

/-- It makes no difference to an external object what would be read but for the resources of
its own. -/
theorem reloadXObject_congr {top : Option Ref} {nested nested' : Object → Option Resources}
    {object : Object}
    (h : ∀ outline own, Loader.outline? inflater resolver object = .ok (some outline) →
      outline.own? = some own → ¬own.IsRefTo top → nested own = nested' own) :
    reloadXObject inflater resolver top nested object =
      reloadXObject inflater resolver top nested' object := by
  refine toOption_bind_congr fun outline houtline => ?_
  cases outline with
  | none => rfl
  | some outline =>
    dsimp only
    cases ho : outline.own? with
    | none => rfl
    | some own =>
      by_cases htop : own.IsRefTo top
      · simp only [reloadForm, htop, if_true]
      · simp only [reloadForm, htop, if_false, h outline own houtline ho htop]

/-- It makes no difference to resources what would be read but for those of their forms. -/
theorem reloadWith_congr {top : Option Ref} {nested nested' : Object → Option Resources}
    {object : Object}
    (h : ∀ own, Owns inflater resolver object own → ¬own.IsRefTo top → nested own = nested' own) :
    reloadWith inflater resolver top nested object =
      reloadWith inflater resolver top nested' object := by
  refine toOption_bind_congr fun resolved hresolved => ?_
  cases hd : resolved.asDict? with
  | none => rfl
  | some dict =>
    have hxobjects :
        reloadPart resolver dict "XObject" (reloadXObject inflater resolver top nested) =
          reloadPart resolver dict "XObject" (reloadXObject inflater resolver top nested') :=
      toOption_bind_congr fun stored hpart => readEntries_congr fun entry he =>
        reloadXObject_congr fun outline own houtline hown =>
          h own ⟨stored, entry, outline, ⟨resolved, dict, hresolved, hd, hpart⟩, he, houtline, hown⟩
    dsimp only
    rw [hxobjects]

/-- Levels beyond the deepest resources make no difference. -/
theorem reload_succ (hw : WellNested inflater resolver topmost) {levels : Nat} {above : List Ref}
    {depth : Nat} {object : Object} (hd : Descent inflater resolver topmost above depth object)
    (hl : maxNesting < depth + levels) :
    reload inflater resolver topmost.asRef? (levels + 1) object =
      reload inflater resolver topmost.asRef? levels object := by
  induction levels generalizing above depth object with
  | zero =>
    have hdepth := hw.depth_le hd
    omega
  | succ levels ih =>
    exact reloadWith_congr fun own howns hother => ih (.form hd howns hother) (by omega)

end Levels

section Success

variable {inflater : Inflater} {resolver : Resolver} {topmost : Object}

/-- Steps of which each gives something give something together. -/
theorem exists_bind {α β : Type} {step : Option α} {next : α → Option β}
    (hs : ∃ a, step = some a) (hn : ∀ a, step = some a → ∃ b, next a = some b) :
    ∃ b, step >>= next = some b := by
  obtain ⟨a, rfl⟩ := hs
  exact hn a rfl

/-- A part is read if it is there and its entries are read. -/
theorem exists_reloadPart {α : Type} {dict : Dict} {key : String}
    {read : Object → Option (Option α)}
    (hp : ∃ stored, Loader.part resolver dict key = .ok stored)
    (h : ∀ stored, Loader.part resolver dict key = .ok stored → ∀ entry ∈ stored,
      ∃ result, read entry.2 = some result) :
    ∃ found, reloadPart resolver dict key read = some found := by
  obtain ⟨stored, hpart⟩ := hp
  rw [reloadPart, hpart]
  exact exists_readEntries (h stored hpart)

/-- A parameter set is read if its font entry is. -/
theorem exists_reloadParameters {object : Object}
    (h : ∃ found, Loader.fontEntry? resolver object = .ok found) :
    ∃ found, reloadParameters inflater resolver object = some found := by
  obtain ⟨entry, hentry⟩ := h
  rw [reloadParameters, hentry]
  rcases entry with _ | ⟨font, size⟩
  · exact ⟨_, rfl⟩
  · exact ⟨_, rfl⟩

/-- An external object is read if its outline is, and the resources of its own. -/
theorem exists_reloadXObject {top : Option Ref} {nested : Object → Option Resources}
    {object : Object} (h : ∃ found, Loader.outline? inflater resolver object = .ok found)
    (hown : ∀ outline own, Loader.outline? inflater resolver object = .ok (some outline) →
      outline.own? = some own → ¬own.IsRefTo top → ∃ found, nested own = some found) :
    ∃ found, reloadXObject inflater resolver top nested object = some found := by
  obtain ⟨outline, houtline⟩ := h
  rw [reloadXObject, houtline]
  refine exists_bind ⟨outline, rfl⟩ fun outline' hsame => ?_
  cases hsame
  cases outline with
  | none => exact ⟨_, rfl⟩
  | some outline =>
    dsimp only
    cases ho : outline.own? with
    | none => exact ⟨_, rfl⟩
    | some own =>
      refine exists_bind ?_ fun resources _ => ⟨_, rfl⟩
      by_cases hother : own.IsRefTo top
      · exact ⟨none, if_pos hother⟩
      · rw [reloadForm, if_neg hother]
        exact exists_bind (hown outline own houtline ho hother) fun found _ => ⟨_, rfl⟩

/-- Resources are read if the object is readable and the resources of its forms are read. -/
theorem exists_reloadWith {top : Option Ref} {nested : Object → Option Resources}
    {object : Object} (h : Readable inflater resolver object)
    (hown : ∀ own, Owns inflater resolver object own → ¬own.IsRefTo top →
      ∃ found, nested own = some found) :
    ∃ found, reloadWith inflater resolver top nested object = some found := by
  obtain ⟨resolved, hresolved⟩ := h.resolves
  rw [reloadWith, hresolved]
  refine exists_bind ⟨resolved, rfl⟩ fun resolved' hsame => ?_
  cases hsame
  cases hd : resolved.asDict? with
  | none => exact ⟨_, rfl⟩
  | some dict =>
    have hparts := h.parts resolved dict hresolved hd
    refine exists_bind (exists_reloadPart (hparts "Font" (by decide))
      fun _ _ entry _ => ⟨_, rfl⟩) fun fonts _ => ?_
    refine exists_bind (exists_reloadPart (hparts "ExtGState" (by decide))
      fun stored hpart entry he => ?_) fun parameters _ => ?_
    · obtain ⟨found, hfound⟩ := exists_reloadParameters
        (h.parameters stored ⟨resolved, dict, hresolved, hd, hpart⟩ entry he)
      rw [hfound]
      exact ⟨_, rfl⟩
    refine exists_bind (exists_reloadPart (hparts "Properties" (by decide))
      fun stored hpart entry he => ?_) fun properties _ => ?_
    · obtain ⟨found, hfound⟩ :=
        h.properties stored ⟨resolved, dict, hresolved, hd, hpart⟩ entry he
      rw [hfound]
      exact ⟨found, rfl⟩
    refine exists_bind (exists_reloadPart (hparts "XObject" (by decide))
      fun stored hpart entry he => ?_) fun xobjects _ => ⟨_, rfl⟩
    have hstored : HasPart resolver object "XObject" stored :=
      ⟨resolved, dict, hresolved, hd, hpart⟩
    exact exists_reloadXObject (h.xobjects stored hstored entry he)
      fun outline own houtline ho =>
        hown own ⟨stored, entry, outline, hstored, he, houtline, ho⟩

/-- Well-nested resources are read if all of them are readable. The induction is on the levels
left, of which there are enough for the deepest resources. -/
theorem exists_reload (hw : WellNested inflater resolver topmost)
    (hread : ∀ above depth object, Descent inflater resolver topmost above depth object →
      Readable inflater resolver object)
    {levels : Nat} {above : List Ref} {depth : Nat} {object : Object}
    (hd : Descent inflater resolver topmost above depth object) (hl : maxNesting < depth + levels) :
    ∃ found, reload inflater resolver topmost.asRef? levels object = some found := by
  induction levels generalizing above depth object with
  | zero =>
    have hdepth := hw.depth_le hd
    omega
  | succ levels ih =>
    exact exists_reloadWith (hread _ _ _ hd) fun own howns hother =>
      ih (.form hd howns hother) (by omega)

end Success

end Resources

end PageText
