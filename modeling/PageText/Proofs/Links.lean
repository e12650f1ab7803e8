import PageText.Document
import PageText.Filter.Zlib

/-!
# Following links

References lead from object to object, and the parents of a page tree from node to node. Either
way links are followed one after the other, and only a bounded number of times, because a chain
may come back to where it was. What is found is told here by the chain that leads to it. A
reference costs a turn and so does the object at the end: of the hops that are made the last one
that may be made is in vain.
-/

namespace PageText

/-! ## Chains -/

/-- One thing leads to another over a number of links. -/
inductive Leads {α : Type} (next : α → α → Prop) : Nat → α → α → Prop where
  /-- Without a link there is no getting away. -/
  | here {a : α} : Leads next 0 a a
  /-- Behind the first link come the others. -/
  | link {links : Nat} {a b c : α} (first : next a b) (rest : Leads next links b c) :
      Leads next (links + 1) a c

namespace Leads

variable {α : Type} {next : α → α → Prop} {a b c : α} {links others : Nat}

/-- A chain can be continued by another one. -/
theorem trans (h : Leads next links a b) (h' : Leads next others b c) :
    Leads next (links + others) a c := by
  induction h with
  | here => rwa [Nat.zero_add]
  | link first _ ih =>
    rw [Nat.add_right_comm]
    exact .link first (ih h')

/-- A chain passes something after every smaller number of links. -/
theorem exists_of_le (h : Leads next links a c) (hle : others ≤ links) :
    ∃ b, Leads next others a b := by
  induction h generalizing others with
  | here =>
    rw [Nat.le_zero.1 hle]
    exact ⟨_, .here⟩
  | link first _ ih =>
    cases others with
    | zero => exact ⟨_, .here⟩
    | succ others =>
      obtain ⟨b, hb⟩ := ih (Nat.le_of_succ_le_succ hle)
      exact ⟨b, .link first hb⟩

/-- What leads back to itself does so any number of times. -/
theorem repeated (h : Leads next links a a) (times : Nat) : Leads next (links * times) a a := by
  induction times with
  | zero => exact .here
  | succ times ih =>
    rw [Nat.mul_succ]
    exact ih.trans h

/-- A chain that comes back to something has no end. -/
theorem exists_of_cycle (h : Leads next others a b) (hcycle : Leads next (links + 1) b b)
    (count : Nat) : ∃ c, Leads next count a c := by
  have hlong : count ≤ others + (links + 1) * count :=
    Nat.le_add_left_of_le (Nat.le_mul_of_pos_left count (Nat.succ_pos links))
  exact (h.trans (hcycle.repeated count)).exists_of_le hlong

end Leads

/-! ## References -/

namespace Object

/-- One object is a reference, and the other is what the resolver gives for it. -/
def Refers (resolver : Resolver) (object next : Object) : Prop :=
  ∃ target, object = .ref target ∧ resolver target = .ok next

variable {resolver : Resolver} {object last : Object} {hops : Nat}

/-- Each hop of a chain takes one turn. -/
theorem resolveWithin_of_leads (h : Leads (Refers resolver) hops object last) (turns : Nat) :
    resolveWithin resolver (hops + turns) object = resolveWithin resolver turns last := by
  induction h with
  | here => rw [Nat.zero_add]
  | link first _ ih =>
    obtain ⟨target, rfl, hnext⟩ := first
    rw [Nat.add_right_comm, resolveWithin, hnext]
    exact ih

/-- After fewer hops than there are turns a turn is left. -/
theorem resolve_of_leads (h : Leads (Refers resolver) hops object last)
    (hlt : hops < maxReferenceChain) :
    ∃ turns, object.resolve resolver = resolveWithin resolver (turns + 1) last := by
  obtain ⟨turns, hturns⟩ := Nat.exists_eq_add_of_lt hlt
  refine ⟨turns, ?_⟩
  rw [resolve, hturns, Nat.add_assoc, resolveWithin_of_leads h]

/-- A reference fails as its resolver does. -/
theorem resolveWithin_of_error {target : Ref} {error : Error}
    (h : resolver target = .error error) (turns : Nat) :
    resolveWithin resolver (turns + 1) (.ref target) = .error error := by
  rw [resolveWithin, h]
  rfl

/-- After as many hops as there are turns no turn is left, whatever was found. -/
theorem resolve_of_long (h : Leads (Refers resolver) maxReferenceChain object last) :
    object.resolve resolver = .error (.recursionLimitExceeded maxReferenceChain) :=
  resolveWithin_of_leads h 0

/-- Within any number of hops a chain ends at an object that is no reference or breaks off at a
reference that cannot be resolved, or it is longer. -/
theorem exists_end (resolver : Resolver) (object : Object) (count : Nat) :
    (∃ hops < count, ∃ found, Leads (Refers resolver) hops object found ∧ found.asRef? = none) ∨
    (∃ hops < count, ∃ target error, Leads (Refers resolver) hops object (.ref target) ∧
      resolver target = .error error) ∨
    ∃ last, Leads (Refers resolver) count object last := by
  induction count generalizing object with
  | zero => exact Or.inr (Or.inr ⟨object, .here⟩)
  | succ count ih =>
    cases href : object.asRef? with
    | none => exact Or.inl ⟨0, Nat.succ_pos count, object, .here, href⟩
    | some target =>
      have hobject : object = .ref target := eq_ref_of_asRef? href
      subst hobject
      cases hnext : resolver target with
      | error error => exact Or.inr (Or.inl ⟨0, Nat.succ_pos count, target, error, .here, hnext⟩)
      | ok next =>
        have hfirst : Refers resolver (.ref target) next := ⟨target, rfl, hnext⟩
        rcases ih next with ⟨hops, hlt, found, hleads, hdirect⟩ |
          ⟨hops, hlt, broken, error, hleads, herror⟩ | ⟨last, hleads⟩
        · exact Or.inl ⟨hops + 1, Nat.succ_lt_succ hlt, found, .link hfirst hleads, hdirect⟩
        · exact Or.inr (Or.inl ⟨hops + 1, Nat.succ_lt_succ hlt, broken, error,
            .link hfirst hleads, herror⟩)
        · exact Or.inr (Or.inr ⟨last, .link hfirst hleads⟩)

/-- An object that is no reference is found where it is fewer hops away than the bound. -/
theorem resolve_of_direct (hlt : hops < maxReferenceChain)
    (h : Leads (Refers resolver) hops object last) (hdirect : last.asRef? = none) :
    object.resolve resolver = .ok last := by
  obtain ⟨turns, hturns⟩ := resolve_of_leads h hlt
  rw [hturns, resolveWithin_of_direct hdirect]

/-- A hop before the bound that fails is reported. -/
theorem resolve_of_broken {target : Ref} {error : Error} (hlt : hops < maxReferenceChain)
    (h : Leads (Refers resolver) hops object (.ref target))
    (herror : resolver target = .error error) : object.resolve resolver = .error error := by
  obtain ⟨turns, hturns⟩ := resolve_of_leads h hlt
  rw [hturns, resolveWithin_of_error herror]

/-- An object is found exactly if it is no reference and fewer hops away than the bound. -/
theorem resolve_eq_ok_iff {found : Object} : object.resolve resolver = .ok found ↔
    ∃ hops < maxReferenceChain, Leads (Refers resolver) hops object found ∧
      found.asRef? = none := by
  constructor
  · intro hok
    rcases exists_end resolver object maxReferenceChain with
      ⟨hops, hlt, other, hleads, hdirect⟩ | ⟨hops, hlt, target, error, hleads, herror⟩ |
      ⟨last, hleads⟩
    · cases (resolve_of_direct hlt hleads hdirect).symm.trans hok
      exact ⟨hops, hlt, hleads, hdirect⟩
    · cases (resolve_of_broken hlt hleads herror).symm.trans hok
    · cases (resolve_of_long hleads).symm.trans hok
  · rintro ⟨hops, hlt, hleads, hdirect⟩
    exact resolve_of_direct hlt hleads hdirect

/-- There is an error exactly if a hop before the bound fails or all the hops up to the bound
can be made. -/
theorem resolve_eq_error_iff {error : Error} : object.resolve resolver = .error error ↔
    (∃ hops < maxReferenceChain, ∃ target, Leads (Refers resolver) hops object (.ref target) ∧
      resolver target = .error error) ∨
    error = .recursionLimitExceeded maxReferenceChain ∧
      ∃ last, Leads (Refers resolver) maxReferenceChain object last := by
  constructor
  · intro hfails
    rcases exists_end resolver object maxReferenceChain with
      ⟨hops, hlt, found, hleads, hdirect⟩ | ⟨hops, hlt, target, other, hleads, herror⟩ |
      ⟨last, hleads⟩
    · cases (resolve_of_direct hlt hleads hdirect).symm.trans hfails
    · cases (resolve_of_broken hlt hleads herror).symm.trans hfails
      exact Or.inl ⟨hops, hlt, target, hleads, herror⟩
    · cases (resolve_of_long hleads).symm.trans hfails
      exact Or.inr ⟨rfl, last, hleads⟩
  · rintro (⟨hops, hlt, target, hleads, herror⟩ | ⟨rfl, last, hleads⟩)
    · exact resolve_of_broken hlt hleads herror
    · exact resolve_of_long hleads

/-- What following references leads to. An object is found exactly if it is no reference and
fewer hops away than the bound. There is an error exactly if a hop before the bound fails, which
is then reported, or if as many hops as the bound can be made: then the bound is reported, also
where the last hop has found an object that is no reference. So it is with every chain that comes
back to something. -/
theorem resolve_chain (resolver : Resolver) (object : Object) :
    (∀ found, object.resolve resolver = .ok found ↔
      ∃ hops < maxReferenceChain, Leads (Refers resolver) hops object found ∧
        found.asRef? = none) ∧
    (∀ error, object.resolve resolver = .error error ↔
      (∃ hops < maxReferenceChain, ∃ target, Leads (Refers resolver) hops object (.ref target) ∧
        resolver target = .error error) ∨
      error = .recursionLimitExceeded maxReferenceChain ∧
        ∃ last, Leads (Refers resolver) maxReferenceChain object last) ∧
    ∀ approach length again, Leads (Refers resolver) approach object again →
      Leads (Refers resolver) (length + 1) again again →
        object.resolve resolver = .error (.recursionLimitExceeded maxReferenceChain) := by
  refine ⟨fun _ => resolve_eq_ok_iff, fun _ => resolve_eq_error_iff, ?_⟩
  intro approach length again happroach hcycle
  obtain ⟨last, hlast⟩ := happroach.exists_of_cycle hcycle maxReferenceChain
  exact resolve_of_long hlast

/-! ## A flight of stairs -/

/-- References that lead down to a number, one by one, and beside them some that lead to
themselves. -/
def stairs : Resolver
  | ⟨0, 0⟩ => .error (.objectNotFound 0 0)
  | ⟨1, 0⟩ => .ok (.int 7)
  | ⟨id + 2, 0⟩ => .ok (.ref ⟨id + 1, 0⟩)
  | ⟨id, generation + 1⟩ => .ok (.ref ⟨id, generation + 1⟩)

/-- The number is as many hops away as the stairs have steps. -/
theorem leads_stairs (steps : Nat) :
    Leads (Refers stairs) (steps + 1) (.ref ⟨steps + 1, 0⟩) (.int 7) := by
  induction steps with
  | zero => exact .link ⟨⟨1, 0⟩, rfl, rfl⟩ .here
  | succ steps ih => exact .link ⟨⟨steps + 2, 0⟩, rfl, rfl⟩ ih

/-- From the step before the bound the number is found, and nothing comes of a reference to
itself. -/
theorem resolve_chain_stairs :
    Leads (Refers stairs) 31 (.ref ⟨31, 0⟩) (.int 7) ∧
      (Object.ref ⟨31, 0⟩).resolve stairs = .ok (.int 7) ∧
      Leads (Refers stairs) 1 (.ref ⟨5, 1⟩) (.ref ⟨5, 1⟩) ∧
      (Object.ref ⟨5, 1⟩).resolve stairs = .error (.recursionLimitExceeded 32) := by
  have hself : Leads (Refers stairs) 1 (.ref ⟨5, 1⟩) (.ref ⟨5, 1⟩) := .link ⟨_, rfl, rfl⟩ .here
  exact ⟨leads_stairs 30, ((resolve_chain stairs _).1 _).2 ⟨31, by decide, leads_stairs 30, rfl⟩,
    hself, (resolve_chain stairs _).2.2 0 0 _ .here hself⟩

/-- From the step at the bound every hop can be made and the number is reached, and yet it is
not found. -/
theorem stairs_tooLong :
    Leads (Refers stairs) maxReferenceChain (.ref ⟨32, 0⟩) (.int 7) ∧
      (Object.int 7).asRef? = none ∧ (Object.ref ⟨32, 0⟩).resolve stairs ≠ .ok (.int 7) ∧
      (Object.ref ⟨32, 0⟩).resolve stairs = .error (.recursionLimitExceeded 32) := by
  have hlimit : (Object.ref ⟨32, 0⟩).resolve stairs = .error (.recursionLimitExceeded 32) :=
    resolve_of_long (leads_stairs 31)
  refine ⟨leads_stairs 31, rfl, ?_, hlimit⟩
  rw [hlimit]
  exact nofun

end Object

/-! ## Page trees -/

namespace Document

/-- A node that has no resources leaves them to its parent, a dictionary. -/
structure LeavesTo (resolver : Resolver) (node parent : Dict) : Prop where
  /-- The node has no resources. -/
  bare : node.get? "Resources" = none
  /-- Its entry for the parent leads to the dictionary. -/
  parent : node.resolve? "Parent" resolver = .ok (some (.dict parent))

variable {inflater : Inflater} {resolver : Resolver} {page node : Dict} {links : Nat}

/-- Each node that leaves the resources to its parent is one that is asked. -/
theorem resourcesWithin_of_leads (h : Leads (LeavesTo resolver) links page node) (nodes : Nat) :
    resourcesWithin inflater resolver (links + nodes) page =
      resourcesWithin inflater resolver nodes node := by
  induction h with
  | here => rw [Nat.zero_add]
  | link first _ ih =>
    rw [Nat.add_right_comm, resourcesWithin, first.bare, first.parent]
    exact ih

/-- A node above fewer links than there are nodes to ask is asked itself. -/
theorem inheritedResources_of_leads (h : Leads (LeavesTo resolver) links page node)
    (hlt : links < maxTreeDepth) :
    ∃ nodes, inheritedResources inflater resolver page =
      resourcesWithin inflater resolver (nodes + 1) node := by
  obtain ⟨nodes, hnodes⟩ := Nat.exists_eq_add_of_lt hlt
  refine ⟨nodes, ?_⟩
  rw [inheritedResources, hnodes, Nat.add_assoc, resourcesWithin_of_leads h]

/-- Where as many nodes as may be asked have no resources, the bound is reported. -/
theorem inheritedResources_of_long (h : Leads (LeavesTo resolver) maxTreeDepth page node) :
    inheritedResources inflater resolver page = .error (.recursionLimitExceeded maxTreeDepth) :=
  resourcesWithin_of_leads h 0

/-- A node with resources provides them. -/
theorem resourcesWithin_of_own {own : Object} (h : node.get? "Resources" = some own)
    (nodes : Nat) : resourcesWithin inflater resolver (nodes + 1) node =
      Resources.load inflater resolver own := by
  rw [resourcesWithin, h]

section Bare

variable (hbare : node.get? "Resources" = none)
include hbare

/-- A node without resources whose parent is missing or no dictionary provides none. -/
theorem resourcesWithin_of_top {found : Option Object}
    (h : node.resolve? "Parent" resolver = .ok found) (htop : ∀ parent, found ≠ some (.dict parent))
    (nodes : Nat) : resourcesWithin inflater resolver (nodes + 1) node = .ok .empty := by
  rw [resourcesWithin, hbare, h]
  cases found with
  | none => rfl
  | some object =>
    cases object with
    | dict parent => exact absurd rfl (htop parent)
    | _ => rfl

/-- A node without resources whose parent cannot be resolved fails as that does. -/
theorem resourcesWithin_of_broken {error : Error}
    (h : node.resolve? "Parent" resolver = .error error) (nodes : Nat) :
    resourcesWithin inflater resolver (nodes + 1) node = .error error := by
  rw [resourcesWithin, hbare, h]
  rfl

end Bare

/-- Where the resources of a page come from. Up to the bound the first node that has some provides
them, by loading them alone, whatever the nodes above it hold. If there is no such node before
the tree ends, with a parent that is missing or no dictionary, there are no resources, and if a
parent cannot be resolved before, its error is reported. If all nodes that may be asked leave the
resources to their parents, the bound is reported; so it is where the parents of nodes without
resources come back to one of them. -/
theorem inheritedResources_nearest (inflater : Inflater) (resolver : Resolver) (page : Dict) :
    (∀ links < maxTreeDepth, ∀ node, Leads (LeavesTo resolver) links page node →
      (∀ own, node.get? "Resources" = some own →
        inheritedResources inflater resolver page = Resources.load inflater resolver own) ∧
      (node.get? "Resources" = none →
        (∀ found, node.resolve? "Parent" resolver = .ok found →
          (∀ parent, found ≠ some (.dict parent)) →
            inheritedResources inflater resolver page = .ok .empty) ∧
        ∀ error, node.resolve? "Parent" resolver = .error error →
          inheritedResources inflater resolver page = .error error)) ∧
    (∀ top, Leads (LeavesTo resolver) maxTreeDepth page top →
      inheritedResources inflater resolver page = .error (.recursionLimitExceeded maxTreeDepth)) ∧
    ∀ approach length again, Leads (LeavesTo resolver) approach page again →
      Leads (LeavesTo resolver) (length + 1) again again →
        inheritedResources inflater resolver page =
          .error (.recursionLimitExceeded maxTreeDepth) := by
  refine ⟨fun links hlt node hleads => ?_, fun _ => inheritedResources_of_long, ?_⟩
  · obtain ⟨nodes, hnodes⟩ := inheritedResources_of_leads hleads hlt
    rw [hnodes]
    exact ⟨fun _ hown => resourcesWithin_of_own hown nodes,
      fun hbare => ⟨fun _ hfound htop => resourcesWithin_of_top hbare hfound htop nodes,
        fun _ herror => resourcesWithin_of_broken hbare herror nodes⟩⟩
  · intro approach length again happroach hcycle
    obtain ⟨top, htop⟩ := happroach.exists_of_cycle hcycle maxTreeDepth
    exact inheritedResources_of_long htop

/-- A node with resources under one that has some as well, and a node that is its own parent. -/
def nodes : Resolver
  | ⟨1, 0⟩ => .ok (.dict [("Resources", .dict []), ("Parent", .ref ⟨2, 0⟩)])
  | ⟨2, 0⟩ => .ok (.dict [("Resources", .null)])
  | ⟨3, 0⟩ => .ok (.dict [("Parent", .ref ⟨3, 0⟩)])
  | ⟨id, generation⟩ => .error (.objectNotFound id generation)

/-- A page without resources under each of these nodes, under a missing one, and under none. -/
theorem inheritedResources_nearest_nodes :
    inheritedResources .standard nodes [("Parent", .ref ⟨1, 0⟩)] =
        Resources.load .standard nodes (.dict []) ∧
      inheritedResources .standard nodes [("Parent", .ref ⟨3, 0⟩)] =
        .error (.recursionLimitExceeded 64) ∧
      inheritedResources .standard nodes [("Parent", .ref ⟨4, 0⟩)] = .error (.objectNotFound 4 0) ∧
      inheritedResources .standard nodes [("Parent", .null)] = .ok .empty := by
  have hown : Leads (LeavesTo nodes) 1 [("Parent", .ref ⟨1, 0⟩)]
      [("Resources", .dict []), ("Parent", .ref ⟨2, 0⟩)] := .link ⟨rfl, rfl⟩ .here
  have hself : Leads (LeavesTo nodes) 1 [("Parent", .ref ⟨3, 0⟩)] [("Parent", .ref ⟨3, 0⟩)] :=
    .link ⟨rfl, rfl⟩ .here
  exact ⟨((inheritedResources_nearest .standard nodes _).1 1 (by decide) _ hown).1 _ rfl,
    (inheritedResources_nearest .standard nodes _).2.2 0 0 _ .here hself,
    (((inheritedResources_nearest .standard nodes _).1 0 (by decide) _ .here).2 rfl).2 _ rfl,
    (((inheritedResources_nearest .standard nodes _).1 0 (by decide) _ .here).2 rfl).1 _ rfl
      fun _ => nofun⟩

end Document

end PageText
