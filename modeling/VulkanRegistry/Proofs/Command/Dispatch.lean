/-
Where the owners of a handle lead.

A walk goes from a handle to its owner, to the owner of that, and so on.  There is only one way
to go, so of two walks from a handle one goes on where the other stops, and what is said of the
first root that is met cannot depend on the walk.  A walk that has no root before it ends or
comes back to itself has met everything that can be met at all: no walk from there finds a root.

A command is classified by such a walk from its first parameter, and by nothing else about its
parameters (`classify_followsOwners`).
-/
import VulkanRegistry.Command.Dispatch
import VulkanRegistry.Proofs.Outcome
import VulkanRegistry.Proofs.Trail
import VulkanRegistry.Proofs.TypeTable.Lookup
import VulkanRegistry.Proofs.TypeTable.Outline
import VulkanRegistry.TypeTable.Link

namespace VulkanRegistry

namespace TypeTable

/-! ### Walks over owners -/

/-- A type is another name for a type, or is no other name and stands for itself. -/
inductive StandsFor (types : TypeTable) : TypeId → TypeId → Prop
  | alias {id target : TypeId} (h : types.kind? id = some (.aliasTo target)) :
      StandsFor types id target
  | self {id : TypeId} (h : ∀ target, types.kind? id ≠ some (.aliasTo target)) :
      StandsFor types id id

/-- A handle is owned by the type that its parent stands for. -/
def IsOwner (types : TypeTable) (id owner : TypeId) : Prop :=
  ∃ layout parent, types.handle? id = some layout ∧ layout.parent = some parent ∧
    types.StandsFor parent owner

/-- A walk over owners: it starts at the handle, and every type is followed by its owner. -/
structure OwnerWalk (types : TypeTable) (handle : TypeId) (walk : List TypeId) : Prop where
  head : walk.head? = some handle
  links : walk.IsChain types.IsOwner

/-- The type is one of those at which a call arrives. -/
def IsRoot (types : TypeTable) (id : TypeId) : Prop :=
  types.nameOf id = "VkDevice" ∨ types.nameOf id = "VkSwapchainKHR" ∨
    types.nameOf id = "VkInstance"

/-- On a walk from the handle, the first root that is met has this name. -/
def MeetsFirst (types : TypeTable) (handle : TypeId) (name : String) : Prop :=
  ∃ front root, types.OwnerWalk handle (front ++ [root]) ∧ (∀ id ∈ front, ¬ types.IsRoot id) ∧
    types.IsRoot root ∧ types.nameOf root = name

/-- A walk from the handle ends at a type without an owner before it meets a root. -/
def EndsRootless (types : TypeTable) (handle : TypeId) : Prop :=
  ∃ front last, types.OwnerWalk handle (front ++ [last]) ∧
    (∀ id ∈ front ++ [last], ¬ types.IsRoot id) ∧ ∀ owner, ¬ types.IsOwner last owner

/-- A walk from the handle comes back to a type before it meets a root. -/
def LoopsRootless (types : TypeTable) (handle : TypeId) : Prop :=
  ∃ front again, types.OwnerWalk handle (front ++ [again]) ∧ (∀ id ∈ front, ¬ types.IsRoot id) ∧
    again ∈ front

/-- The member is a plain value of a handle type. -/
def IsPlainHandle (types : TypeTable) (m : Member) : Prop :=
  m.modifiers = [] ∧ ∃ layout, types.handle? m.base = some layout

section Owners

variable {types : TypeTable} {id other : TypeId}

theorem canonical_eq_iff : types.canonical id = other ↔ types.StandsFor id other := by
  have halias : ∀ target, (types.kind? id).bind TypeKind.aliasTarget? = some target ↔
      types.kind? id = some (.aliasTo target) := by
    simp [Option.bind_eq_some_iff, TypeKind.aliasTarget?_eq_some]
  unfold canonical
  cases htarget : (types.kind? id).bind TypeKind.aliasTarget? with
  | some target =>
      have hkind := (halias target).mp htarget
      constructor
      · rintro rfl
        exact .alias hkind
      · rintro (h | h)
        · rw [hkind, Option.some.injEq, TypeKind.aliasTo.injEq] at h
          exact h
        · exact absurd hkind (h target)
  | none =>
      have hplain : ∀ target, types.kind? id ≠ some (.aliasTo target) := by
        intro target hkind
        rw [(halias target).mpr hkind] at htarget
        cases htarget
      constructor
      · rintro rfl
        exact .self hplain
      · rintro (h | h)
        · exact absurd h (hplain other)
        · rfl

/-- The step of the table goes from a handle to its owner. -/
theorem owner?_eq_some_iff : types.owner? id = some other ↔ types.IsOwner id other := by
  simp only [owner?, IsOwner, Option.map_eq_some_iff, Option.bind_eq_some_iff, canonical_eq_iff]
  constructor
  · rintro ⟨parent, ⟨layout, hlayout, hparent⟩, hstands⟩
    exact ⟨layout, parent, hlayout, hparent, hstands⟩
  · rintro ⟨layout, parent, hlayout, hparent, hstands⟩
    exact ⟨parent, ⟨layout, hlayout, hparent⟩, hstands⟩

theorem owner?_eq_none_iff : types.owner? id = none ↔ ∀ owner, ¬ types.IsOwner id owner := by
  simp only [Option.eq_none_iff_forall_ne_some, ne_eq, owner?_eq_some_iff]

end Owners

/-! ### What a walk meets -/

section Walks

variable {types : TypeTable} {handle : TypeId}

theorem OwnerWalk.chain {walk : List TypeId} (h : types.OwnerWalk handle walk) :
    walk.IsChain (Trail.Links types.owner?) :=
  h.links.imp fun _ _ => owner?_eq_some_iff.mpr

theorem ownerWalk_of_chain {walk : List TypeId} (hhead : walk.head? = some handle)
    (hchain : walk.IsChain (Trail.Links types.owner?)) : types.OwnerWalk handle walk :=
  ⟨hhead, hchain.imp fun _ _ => owner?_eq_some_iff.mp⟩

theorem OwnerWalk.handle_mem {walk : List TypeId} (h : types.OwnerWalk handle walk) :
    handle ∈ walk :=
  List.mem_of_head? h.head

theorem OwnerWalk.leads {walk : List TypeId} (h : types.OwnerWalk handle walk) {id : TypeId}
    (hid : id ∈ walk) : Trail.Leads types.owner? handle id :=
  Trail.leads_of_isChain h.chain h.head hid

/-- A walk may be broken off behind any of its types. -/
theorem OwnerWalk.front {front back : List TypeId} {id : TypeId}
    (h : types.OwnerWalk handle (front ++ id :: back)) :
    types.OwnerWalk handle (front ++ [id]) := by
  have hlinks := h.links
  rw [List.append_cons] at hlinks
  refine ⟨?_, hlinks.left_of_append⟩
  cases front with
  | nil => exact h.head
  | cons first front => exact h.head

/-- A walk may go on to the owner of its last type. -/
theorem OwnerWalk.concat {walk : List TypeId} {last owner : TypeId}
    (h : types.OwnerWalk handle walk) (hlast : walk.getLast? = some last)
    (hlink : types.owner? last = some owner) : types.OwnerWalk handle (walk ++ [owner]) := by
  refine ⟨by rw [List.head?_append, h.head]; rfl, ?_⟩
  refine h.links.append (List.isChain_singleton owner) ?_
  intro x hx y hy
  rw [hlast, Option.mem_some_iff] at hx
  rw [List.head?_cons, Option.mem_some_iff] at hy
  rw [← hx, ← hy]
  exact owner?_eq_some_iff.mp hlink

/-- Where a walk to a root goes on to a root that is met first, it is that root. -/
theorem eq_of_front {front later : List TypeId} {root last : TypeId}
    (h : front ++ [root] <+: later ++ [last]) (hroot : types.IsRoot root)
    (hlater : ∀ id ∈ later, ¬ types.IsRoot id) : root = last := by
  have hmem : root ∈ later ++ [last] := h.subset (by simp)
  rcases List.mem_append.mp hmem with hmem | hmem
  · exact absurd hroot (hlater root hmem)
  · exact List.mem_singleton.mp hmem

/-- At most one root is met first. -/
theorem MeetsFirst.name_eq {name other : String} (h : types.MeetsFirst handle name)
    (hother : types.MeetsFirst handle other) : name = other := by
  obtain ⟨front, root, hwalk, hfront, hroot, rfl⟩ := h
  obtain ⟨front', root', hwalk', hfront', hroot', rfl⟩ := hother
  have hhead := hwalk.head.trans hwalk'.head.symm
  rcases Trail.prefix_or_prefix hwalk.chain hwalk'.chain hhead with hprefix | hprefix
  · rw [eq_of_front hprefix hroot hfront']
  · rw [eq_of_front hprefix hroot' hfront]

/-- What owners do not lead out of and has no root keeps a walk from roots. -/
theorem not_meetsFirst_of_closed {ids : List TypeId} (hhandle : handle ∈ ids)
    (hclosed : ∀ a ∈ ids, ∀ b, types.owner? a = some b → b ∈ ids)
    (hrootless : ∀ id ∈ ids, ¬ types.IsRoot id) (name : String) :
    ¬ types.MeetsFirst handle name := by
  intro h
  obtain ⟨front, root, hwalk, -, hroot, -⟩ := h
  exact hrootless root (Trail.mem_of_leads hclosed hhandle (hwalk.leads (by simp))) hroot

/-- A walk that ends without a root has met all there is to meet. -/
theorem EndsRootless.not_meetsFirst (h : types.EndsRootless handle) (name : String) :
    ¬ types.MeetsFirst handle name := by
  obtain ⟨front, last, hwalk, hrootless, hends⟩ := h
  refine not_meetsFirst_of_closed hwalk.handle_mem ?_ hrootless name
  intro a ha b hlink
  rcases List.mem_append.mp ha with ha | ha
  · obtain ⟨c, hc, hnext⟩ := Trail.exists_next_of_isChain hwalk.chain ha
    rw [hlink, Option.some.injEq] at hnext
    rw [hnext]
    exact hc
  · rw [List.mem_singleton.mp ha, owner?_eq_some_iff] at hlink
    exact absurd hlink (hends b)

/-- So has one that comes back to a type: what it met goes round and round. -/
theorem LoopsRootless.exists_round (h : types.LoopsRootless handle) :
    ∃ ids : List TypeId, handle ∈ ids ∧ (∀ id ∈ ids, ¬ types.IsRoot id) ∧
      ∀ a ∈ ids, ∃ b ∈ ids, types.owner? a = some b := by
  obtain ⟨front, again, hwalk, hrootless, hagain⟩ := h
  have hfront : ∀ id ∈ front ++ [again], id ∈ front := by
    intro id hid
    rcases List.mem_append.mp hid with hid | hid
    · exact hid
    · rw [List.mem_singleton.mp hid]
      exact hagain
  refine ⟨front, hfront handle hwalk.handle_mem, hrootless, ?_⟩
  intro a ha
  obtain ⟨b, hb, hlink⟩ := Trail.exists_next_of_isChain hwalk.chain ha
  exact ⟨b, hfront b hb, hlink⟩

theorem closed_of_round {ids : List TypeId}
    (hround : ∀ a ∈ ids, ∃ b ∈ ids, types.owner? a = some b) :
    ∀ a ∈ ids, ∀ b, types.owner? a = some b → b ∈ ids := by
  intro a ha b hlink
  obtain ⟨c, hc, hnext⟩ := hround a ha
  rw [hlink, Option.some.injEq] at hnext
  rw [hnext]
  exact hc

theorem LoopsRootless.not_meetsFirst (h : types.LoopsRootless handle) (name : String) :
    ¬ types.MeetsFirst handle name := by
  obtain ⟨ids, hhandle, hrootless, hround⟩ := h.exists_round
  exact not_meetsFirst_of_closed hhandle (closed_of_round hround) hrootless name

/-- A walk does not both end and come back. -/
theorem LoopsRootless.not_endsRootless (h : types.LoopsRootless handle) :
    ¬ types.EndsRootless handle := by
  intro hends
  obtain ⟨front, last, hwalk, -, hlast⟩ := hends
  obtain ⟨ids, hhandle, -, hround⟩ := h.exists_round
  have hleads : Trail.Leads types.owner? handle last := hwalk.leads (by simp)
  have hmem := Trail.mem_of_leads (closed_of_round hround) hhandle hleads
  obtain ⟨b, -, hlink⟩ := hround last hmem
  exact hlast b (owner?_eq_some_iff.mp hlink)

end Walks

/-! ### What the trail of owners shows -/

theorem ofRoot?_eq_none_iff {types : TypeTable} {id : TypeId} :
    DispatchClass.ofRoot? (types.nameOf id) = none ↔ ¬ types.IsRoot id := by
  unfold DispatchClass.ofRoot? IsRoot
  by_cases hdevice : types.nameOf id = "VkDevice" ∨ types.nameOf id = "VkSwapchainKHR"
  · rw [if_pos hdevice, ← or_assoc]
    simp [hdevice]
  · rw [if_neg hdevice, ← or_assoc]
    by_cases hinstance : types.nameOf id = "VkInstance" <;> simp [hdevice, hinstance]

theorem ownerWalk_ownerTrail (types : TypeTable) (handle : TypeId) :
    types.OwnerWalk handle (types.ownerTrail handle).path := by
  refine ownerWalk_of_chain ?_ Trail.isChain_path
  rw [ownerTrail, Trail.follow, Trail.path_followFrom]
  rfl

/-- What is no type of the table is no root and has no owner. -/
theorem rootless_of_not_mem_ids {types : TypeTable} {id : TypeId} (h : id ∉ types.ids) :
    ¬ types.IsRoot id ∧ types.owner? id = none := by
  have hnone : types.get? id = none := by
    rw [mem_ids] at h
    exact get?_eq_none_iff.mpr (Nat.not_lt.mp h)
  simp [IsRoot, nameOf, owner?, handle?, kind?, hnone]

section Trails

variable {types : TypeTable} {handle : TypeId}

/-- A trail that shows a root shows the first one. -/
theorem meetsFirst_of_findSome? {found : DispatchClass}
    (h : (types.ownerTrail handle).path.findSome? (DispatchClass.ofRoot? ∘ types.nameOf) =
      some found) :
    ∃ name, types.MeetsFirst handle name ∧ DispatchClass.ofRoot? name = some found := by
  obtain ⟨front, root, back, hpath, hroot, hfront⟩ := List.findSome?_eq_some_iff.mp h
  have hwalk := types.ownerWalk_ownerTrail handle
  rw [hpath] at hwalk
  refine ⟨types.nameOf root, ⟨front, root, hwalk.front, ?_, ?_, rfl⟩, hroot⟩
  · intro id hid
    exact ofRoot?_eq_none_iff.mp (hfront id hid)
  · by_contra hnot
    rw [← ofRoot?_eq_none_iff] at hnot
    simp [hnot] at hroot

/-- A trail without a root that comes back to a type is a walk that does. -/
theorem loopsRootless_of_cycles {again : TypeId}
    (hrootless : ∀ id ∈ (types.ownerTrail handle).path, ¬ types.IsRoot id)
    (h : (types.ownerTrail handle).ending = .cycles again) : types.LoopsRootless handle := by
  have hloop := Trail.closesLoop_of_cycles h
  exact ⟨_, again, ownerWalk_of_chain hloop.head hloop.links, hrootless,
    (Trail.loops_of_cycles h).1⟩

/-- A trail without a root that does not come back is a walk that ends, in the table or where
it leaves it. -/
theorem endsRootless_of_not_cycles
    (hrootless : ∀ id ∈ (types.ownerTrail handle).path, ¬ types.IsRoot id)
    (h : ∀ again, (types.ownerTrail handle).ending ≠ .cycles again) :
    types.EndsRootless handle := by
  have hwalk := types.ownerWalk_ownerTrail handle
  have hlast := (types.ownerTrail handle).getLast?_path
  cases hending : (types.ownerTrail handle).ending with
  | stops =>
      obtain ⟨front, hfront⟩ := List.getLast?_eq_some_iff.mp hlast
      rw [hfront] at hwalk hrootless
      exact ⟨front, _, hwalk, hrootless,
        owner?_eq_none_iff.mp (Trail.next_last_of_stops hending)⟩
  | cycles again => exact absurd hending (h again)
  | leaves target =>
      obtain ⟨hlink, hout⟩ := Trail.next_last_of_leaves hending
      obtain ⟨hnoRoot, hnoOwner⟩ := rootless_of_not_mem_ids hout
      refine ⟨_, target, hwalk.concat hlast hlink, ?_, owner?_eq_none_iff.mp hnoOwner⟩
      intro id hid
      rcases List.mem_append.mp hid with hid | hid
      · exact hrootless id hid
      · rw [List.mem_singleton.mp hid]
        exact hnoRoot

end Trails

/-! ### The class of a handle -/

/-- What is said of a command whose handle has no root above it. -/
def rootlessFault (types : TypeTable) (command : String) (handle : TypeId) : RegistryError :=
  .ambiguousDispatch command
    s!"handle `{types.nameOf handle}` reaches neither an instance nor a device"

/-- What is said of a command whose handle is above itself. -/
def loopFault (types : TypeTable) (command : String) (handle : TypeId) : RegistryError :=
  .ambiguousDispatch command s!"handle parent chain of `{types.nameOf handle}` loops"

/-- A handle has the class of the first root, or the fault that there is none. -/
theorem dispatchOf_cases (types : TypeTable) (command : String) (handle : TypeId) :
    (∃ name found, types.MeetsFirst handle name ∧ DispatchClass.ofRoot? name = some found ∧
      types.dispatchOf command handle = .ok found) ∨
    (types.EndsRootless handle ∧
      types.dispatchOf command handle = .error (types.rootlessFault command handle)) ∨
    (types.LoopsRootless handle ∧
      types.dispatchOf command handle = .error (types.loopFault command handle)) := by
  cases hfound : (types.ownerTrail handle).path.findSome?
      (DispatchClass.ofRoot? ∘ types.nameOf) with
  | some found =>
      obtain ⟨name, hmeets, hroot⟩ := meetsFirst_of_findSome? hfound
      refine Or.inl ⟨name, found, hmeets, hroot, ?_⟩
      simp only [dispatchOf, hfound]
  | none =>
      have hrootless : ∀ id ∈ (types.ownerTrail handle).path, ¬ types.IsRoot id := by
        intro id hid
        exact ofRoot?_eq_none_iff.mp (List.findSome?_eq_none_iff.mp hfound id hid)
      refine Or.inr ?_
      cases hending : (types.ownerTrail handle).ending with
      | stops =>
          refine Or.inl ⟨endsRootless_of_not_cycles hrootless (by simp [hending]), ?_⟩
          simp only [dispatchOf, hfound, hending, rootlessFault]
      | cycles again =>
          refine Or.inr ⟨loopsRootless_of_cycles hrootless hending, ?_⟩
          simp only [dispatchOf, hfound, hending, loopFault]
      | leaves target =>
          refine Or.inl ⟨endsRootless_of_not_cycles hrootless (by simp [hending]), ?_⟩
          simp only [dispatchOf, hfound, hending, rootlessFault]

theorem dispatchOf_eq_ok_iff {types : TypeTable} {command : String} {handle : TypeId}
    {found : DispatchClass} :
    types.dispatchOf command handle = .ok found ↔
      ∃ name, types.MeetsFirst handle name ∧ DispatchClass.ofRoot? name = some found := by
  constructor
  · intro h
    rcases types.dispatchOf_cases command handle with
      ⟨name, other, hmeets, hroot, hok⟩ | ⟨-, herror⟩ | ⟨-, herror⟩
    · rw [hok, Except.ok.injEq] at h
      rw [← h]
      exact ⟨name, hmeets, hroot⟩
    · rw [herror] at h
      simp at h
    · rw [herror] at h
      simp at h
  · intro h
    obtain ⟨name, hmeets, hroot⟩ := h
    rcases types.dispatchOf_cases command handle with
      ⟨other, found', hmeets', hroot', hok⟩ | ⟨hends, -⟩ | ⟨hloops, -⟩
    · rw [hmeets.name_eq hmeets', hroot', Option.some.injEq] at hroot
      rw [hok, hroot]
    · exact absurd hmeets (hends.not_meetsFirst name)
    · exact absurd hmeets (hloops.not_meetsFirst name)

theorem dispatchOf_eq_error_iff {types : TypeTable} {command : String} {handle : TypeId}
    {fault : RegistryError} :
    types.dispatchOf command handle = .error fault ↔
      types.EndsRootless handle ∧ fault = types.rootlessFault command handle ∨
        types.LoopsRootless handle ∧ fault = types.loopFault command handle := by
  rcases types.dispatchOf_cases command handle with
    ⟨name, found, hmeets, -, hok⟩ | ⟨hends, herror⟩ | ⟨hloops, herror⟩
  · have hnotEnds : ¬ types.EndsRootless handle := fun hends => hends.not_meetsFirst name hmeets
    have hnotLoops : ¬ types.LoopsRootless handle := fun hloops =>
      hloops.not_meetsFirst name hmeets
    simp [hok, hnotEnds, hnotLoops]
  · have hnotLoops : ¬ types.LoopsRootless handle := fun hloops => hloops.not_endsRootless hends
    simp [herror, hends, hnotLoops, eq_comm]
  · simp [herror, hloops, hloops.not_endsRootless, eq_comm]

theorem plainHandle?_eq_some_iff {types : TypeTable} {m : Member} {handle : TypeId} :
    types.plainHandle? m = some handle ↔ types.IsPlainHandle m ∧ m.base = handle := by
  unfold plainHandle? IsPlainHandle Member.isValue
  by_cases hvalue : m.modifiers = []
  · simp [hvalue, Option.isSome_iff_exists]
  · simp [hvalue]

end TypeTable

/-! ### The class of a command -/

theorem classify_of_isPlainHandle {types : TypeTable} {command : String} {params : List Member}
    {first : Member} (hfirst : params.head? = some first) (hplain : types.IsPlainHandle first) :
    classify command params types = types.dispatchOf command first.base := by
  have hhandle := TypeTable.plainHandle?_eq_some_iff.mpr ⟨hplain, rfl⟩
  simp only [classify, hfirst, Option.bind_some, hhandle]

theorem classify_of_not_isPlainHandle {types : TypeTable} {command : String}
    {params : List Member}
    (h : ∀ first, params.head? = some first → ¬ types.IsPlainHandle first) :
    classify command params types = .ok .global := by
  have hnone : params.head?.bind types.plainHandle? = none := by
    rw [Option.bind_eq_none_iff]
    intro first hfirst
    rw [Option.eq_none_iff_forall_ne_some]
    intro handle hhandle
    exact h first hfirst (TypeTable.plainHandle?_eq_some_iff.mp hhandle).1
  simp only [classify, hnone]

/-- No root is global. -/
theorem DispatchClass.ofRoot?_ne_global (name : String) : ofRoot? name ≠ some .global := by
  unfold ofRoot?
  split
  · simp
  · split <;> simp

theorem DispatchClass.ofRoot?_eq_deviceScope_iff {name : String} :
    ofRoot? name = some .deviceScope ↔ name = "VkDevice" ∨ name = "VkSwapchainKHR" := by
  unfold ofRoot?
  split
  · next h => simp [h]
  · next h => split <;> simp [h]

theorem DispatchClass.ofRoot?_eq_instanceScope_iff {name : String} :
    ofRoot? name = some .instanceScope ↔ name = "VkInstance" := by
  unfold ofRoot?
  split
  · next h =>
      rcases h with rfl | rfl <;> simp
  · split <;> simp [*]

/--
**A command is dispatched by the first root above its first parameter.**  It is global just in
case it has no first parameter that is a plain value of a handle type.  Otherwise the walk from
that type over owners decides: the device or a swapchain, met first, make it a command of the
device, the instance makes it one of the instance, and the command has no class exactly when the
walk ends or comes back to a type before it meets a root.  No other parameter counts.
-/
theorem classify_followsOwners (types : TypeTable) (command : String) (params : List Member) :
    (classify command params types = .ok .global ↔
      ∀ first, params.head? = some first → ¬ types.IsPlainHandle first) ∧
    (∀ first, params.head? = some first → types.IsPlainHandle first →
      (classify command params types = .ok .deviceScope ↔
        types.MeetsFirst first.base "VkDevice" ∨ types.MeetsFirst first.base "VkSwapchainKHR") ∧
      (classify command params types = .ok .instanceScope ↔
        types.MeetsFirst first.base "VkInstance") ∧
      ∀ fault, classify command params types = .error fault ↔
        types.EndsRootless first.base ∧ fault = types.rootlessFault command first.base ∨
          types.LoopsRootless first.base ∧ fault = types.loopFault command first.base) ∧
    ∀ others : List Member, others.head? = params.head? →
      classify command others types = classify command params types := by
  refine ⟨⟨?_, classify_of_not_isPlainHandle⟩, ?_, ?_⟩
  · intro h first hfirst hplain
    rw [classify_of_isPlainHandle hfirst hplain, TypeTable.dispatchOf_eq_ok_iff] at h
    obtain ⟨name, -, hroot⟩ := h
    exact DispatchClass.ofRoot?_ne_global name hroot
  · intro first hfirst hplain
    rw [classify_of_isPlainHandle hfirst hplain, TypeTable.dispatchOf_eq_ok_iff,
      TypeTable.dispatchOf_eq_ok_iff]
    refine ⟨?_, ?_, fun fault => TypeTable.dispatchOf_eq_error_iff⟩
    · simp [DispatchClass.ofRoot?_eq_deviceScope_iff, and_or_left, exists_or]
    · simp [DispatchClass.ofRoot?_eq_instanceScope_iff]
  · intro others hothers
    rw [classify, classify, hothers]

/-- Handles with these owners: a view belongs to a swapchain under another name of it, the
swapchain to a surface of the instance, and two handles to each other. -/
def ringDecls : List TypeDecl :=
  [{ name := "VkInstance", category := some "handle" },
   { name := "VkSurfaceKHR", category := some "handle", parent := some "VkInstance" },
   { name := "VkSwapchainKHR", category := some "handle", parent := some "VkSurfaceKHR" },
   { name := "VkSwapchain", category := some "handle", aliasOf := some "VkSwapchainKHR" },
   { name := "VkView", category := some "handle", parent := some "VkSwapchain" },
   { name := "VkRing", category := some "handle", parent := some "VkLink" },
   { name := "VkLink", category := some "handle", parent := some "VkRing" }]

/-- A parameter that is a plain value of a type. -/
def plainParam (base : TypeId) : Member :=
  ⟨"object", base, [], false, false, none, []⟩

/-- The view is dispatched by the swapchain above it, although the instance is above that, and
a command on a handle that is above itself has no class. -/
theorem followsOwners_ringDecls :
    ∃ types, (TypeTable.initial.registerAll ringDecls).linked [] = .ok types ∧
      types.nameOf ⟨5⟩ = "VkView" ∧ types.IsPlainHandle (plainParam ⟨5⟩) ∧
      (types.MeetsFirst ⟨5⟩ "VkDevice" ∨ types.MeetsFirst ⟨5⟩ "VkSwapchainKHR") ∧
      types.nameOf ⟨6⟩ = "VkRing" ∧ types.IsPlainHandle (plainParam ⟨6⟩) ∧
      (types.EndsRootless ⟨6⟩ ∨ types.LoopsRootless ⟨6⟩) := by
  have hany : ((TypeTable.initial.registerAll ringDecls).linked []).toOption.any (fun types =>
      types.nameOf ⟨5⟩ == "VkView" && types.nameOf ⟨6⟩ == "VkRing" &&
        (types.handle? ⟨5⟩).isSome && (types.handle? ⟨6⟩).isSome &&
        (classify "vkGet" [plainParam ⟨5⟩] types).toOption == some .deviceScope &&
        (classify "vkSpin" [plainParam ⟨6⟩] types).toOption == none) = true := by
    decide +kernel
  obtain ⟨types, hlinked, hchecks⟩ := Outcome.exists_ok_of_any hany
  simp only [Bool.and_eq_true, beq_iff_eq, Option.isSome_iff_exists] at hchecks
  obtain ⟨⟨⟨⟨⟨hview, hring⟩, hplainView⟩, hplainRing⟩, hdevice⟩, hnone⟩ := hchecks
  have hviewClass := (classify_followsOwners types "vkGet" [plainParam ⟨5⟩]).2.1 _ rfl
    ⟨rfl, hplainView⟩
  have hringClass := (classify_followsOwners types "vkSpin" [plainParam ⟨6⟩]).2.1 _ rfl
    ⟨rfl, hplainRing⟩
  refine ⟨types, hlinked, hview, ⟨rfl, hplainView⟩, hviewClass.1.mp ?_, hring,
    ⟨rfl, hplainRing⟩, ?_⟩
  · cases hclass : classify "vkGet" [plainParam ⟨5⟩] types with
    | error fault => simp [hclass, Except.toOption] at hdevice
    | ok found => simpa [hclass, Except.toOption] using hdevice
  · cases hclass : classify "vkSpin" [plainParam ⟨6⟩] types with
    | error fault =>
        exact ((hringClass.2.2 fault).mp hclass).imp And.left And.left
    | ok found => simp [hclass, Except.toOption] at hnone

end VulkanRegistry
