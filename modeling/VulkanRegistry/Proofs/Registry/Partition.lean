/-
Everything in use is in one bucket.

Types come from the table of types, commands from the declarations of the document, values
from the finished enumerations and extensions from the selection.  None of these lists has an
entry twice and each has all that is in use, so the buckets share out what is in use: each
thing is in one bucket, in order, and its guard is the guard of that bucket.
-/
import VulkanRegistry.Proofs.Enumeration.Canonical
import VulkanRegistry.Proofs.Platform
import VulkanRegistry.Proofs.Registry.Commands
import VulkanRegistry.Proofs.Registry.Sources

namespace VulkanRegistry

/-- The list has the things with a property and no others, each of them once. -/
def ListsOnce {α : Type} (list : List α) (p : α → Prop) : Prop :=
  list.Nodup ∧ ∀ x, x ∈ list ↔ p x

/-- The names that a document declares types by, in order. -/
def Document.typeNames (doc : Document) : List String :=
  (TypeTable.stringName :: (doc.types.map (·.name) ++
    (doc.enums.filter EnumBlock.hasType).map (·.name))).eraseDups

/-- The buckets before anything is put into them. -/
def PlatformTable.blank (declared : List PlatformDecl) (extensions : List Extension)
    (options : RegistryOptions) : PlatformTable :=
  ⟨Platform.empty "" "" none :: (declared.filter (needs extensions options)).map fun decl =>
    Platform.empty decl.name decl.guard decl.comment, [], []⟩

theorem PlatformTable.blank_blank (declared : List PlatformDecl) (extensions : List Extension)
    (options : RegistryOptions) : (blank declared extensions options).Blank where
  buckets p hp := by
    rcases List.mem_cons.mp hp with rfl | hp
    · rfl
    · obtain ⟨decl, -, rfl⟩ := List.mem_map.mp hp
      rfl
  core := by simp [blank]
  typeSlots := rfl
  commandSlots := rfl

namespace Registry

/-- The buckets of a registry for a document share out what is in use, in the order of its
declaration, and every guard is that of the bucket that lists the entity. -/
structure Partitioned (r : Registry) (doc : Document) (options : RegistryOptions) : Prop where
  types : ListsOnce (r.platforms.platforms.flatMap (·.types)) fun id => r.isActive id = true
  commands : ListsOnce (r.platforms.platforms.flatMap (·.commands)) fun name =>
    ∃ command ∈ r.commands.commands, name = command.name ∨ name ∈ command.aliases
  values : ListsOnce (r.platforms.platforms.flatMap (·.enumValues)) fun value =>
    r.isActive value.enumeration = true ∧ ∃ layout,
      r.types.enum? value.enumeration = some layout ∧ value.name ∈ layout.values.map (·.name)
  extensions : (r.platforms.platforms.flatMap (·.extensions)).Perm
    ((doc.extensions.filter (ExtensionDecl.isSelected options)).map (·.name))
  declared : r.types.names = doc.typeNames
  typeOrder : ∀ p ∈ r.platforms.platforms, p.types.Pairwise fun a b => a.index < b.index
  commandOrder : ∀ p ∈ r.platforms.platforms,
    p.commands.Pairwise (EntityIndex.ofDocument doc).Precedes
  typeGuards : ∀ id,
    (∀ p ∈ r.platforms.platforms, id ∈ p.types →
      r.platforms.guardOfType? id = some p.guard) ∧
    (r.platforms.guardOfType? id = none ↔ ∀ p ∈ r.platforms.platforms, id ∉ p.types)
  commandGuards : ∀ name,
    (∀ p ∈ r.platforms.platforms, name ∈ p.commands →
      r.platforms.guardOfCommand? name = some p.guard) ∧
    (r.platforms.guardOfCommand? name = none ↔ ∀ p ∈ r.platforms.platforms, name ∉ p.commands)

namespace Steps

variable {doc : Document} {options : RegistryOptions} (s : Steps doc options)

/-- The buckets that the steps start from. -/
def blank : PlatformTable :=
  PlatformTable.blank doc.platforms s.registry.extensions options

/-- What the steps put into the buckets. -/
def contents : PlatformTable.Contents Activation (List Origin) where
  extensions := s.registry.extensions
  types := s.types.ids.filter s.isActive
  placeType id := bucket (s.set.typeAt id).origins s.registry.extensions
  commands := activeCommandNames (EntityIndex.ofDocument doc) s.set s.commands
  placeCommand x := bucket x.2.origins s.registry.extensions
  values := (s.types.ids.filter s.isActive).flatMap fun id =>
    match s.types.enum? id with
    | some layout => enumValueOrigins s.set id layout
    | none => []
  placeValue x := bucket x.2 s.registry.extensions

theorem platforms_eq : s.registry.platforms = s.contents.filled s.blank := rfl

theorem blank_blank : s.blank.Blank :=
  PlatformTable.blank_blank _ _ _

/-! ### What is shared out -/

theorem pairwise_types : s.contents.types.Pairwise fun a b => a.index < b.index :=
  s.types.pairwise_ids.filter _

theorem nodup_types : s.contents.types.Nodup := by
  refine s.pairwise_types.imp ?_
  rintro a b hlt rfl
  omega

theorem mem_types_iff {id : TypeId} :
    id ∈ s.contents.types ↔ s.registry.isActive id = true := by
  show id ∈ s.types.ids.filter s.isActive ↔ _
  rw [List.mem_filter, TypeTable.mem_ids, s.registry_isActive_iff]

theorem pairwise_commandNames :
    (s.contents.commands.map (·.1)).Pairwise (EntityIndex.ofDocument doc).Precedes := by
  show ((activeCommandNames _ _ _).map (·.1)).Pairwise _
  rw [s.activeCommandNames_eq, List.map_map, List.pairwise_map]
  exact s.pairwise_active

theorem nodup_commandNames : (s.contents.commands.map (·.1)).Nodup :=
  s.pairwise_commandNames.imp fun h => h.ne

theorem mem_commandNames_iff {name : String} :
    name ∈ s.contents.commands.map (·.1) ↔
      ∃ command ∈ s.commands.commands, name = command.name ∨ name ∈ command.aliases := by
  have hnamed : ∀ command : Command,
      command.hasName name = true ↔ name = command.name ∨ name ∈ command.aliases := by
    intro command
    simp [Command.hasName, eq_comm (a := name)]
  have hcontains : s.commands.contains name = true ↔
      ∃ command ∈ s.commands.commands, name = command.name ∨ name ∈ command.aliases := by
    rw [CommandTable.contains_iff]
    exact exists_congr fun command => and_congr_right fun _ => hnamed command
  rw [← hcontains, s.contains_commands_iff]
  show name ∈ (activeCommandNames _ _ _).map (·.1) ↔ _
  rw [s.activeCommandNames_eq, List.map_map, List.mem_map]
  rfl

/-- The values of an enumeration in use have distinct names. -/
theorem nodup_valueNames {id : TypeId} {layout : EnumLayout}
    (hlayout : s.types.enum? id = some layout) (hactive : s.isActive id = true) :
    (layout.values.map (·.name)).Nodup := by
  obtain ⟨declared, -, hmerged⟩ := s.exists_mergedValues hlayout hactive
  obtain ⟨core, extension, -, hvalues⟩ := mergedValues_eq_ok.mp hmerged
  rw [← hvalues, Contribution.merge, List.map_map]
  exact Contribution.nodup_names_firstOfEach _

theorem valueRefs_eq : s.contents.values.map (·.1) =
    s.contents.types.flatMap fun id =>
      match s.types.enum? id with
      | some layout => layout.values.map fun value => ⟨id, value.name⟩
      | none => [] := by
  show (List.flatMap _ _).map _ = _
  rw [List.map_flatMap]
  refine List.flatMap_congr fun id _ => ?_
  cases s.types.enum? id with
  | none => rfl
  | some layout => simp [enumValueOrigins]

variable {s} in
/-- The values of an enumeration are listed under its name. -/
theorem enumeration_eq_of_mem {id : TypeId} {value : ValueRef}
    (h : value ∈ (match s.types.enum? id with
      | some layout => layout.values.map fun found => ⟨id, found.name⟩
      | none => [] : List ValueRef)) :
    value.enumeration = id := by
  cases hlayout : s.types.enum? id with
  | none => simp [hlayout] at h
  | some layout =>
      rw [hlayout] at h
      obtain ⟨found, -, rfl⟩ := List.mem_map.mp h
      rfl

theorem nodup_valueRefs : (s.contents.values.map (·.1)).Nodup := by
  rw [s.valueRefs_eq, List.nodup_flatMap]
  refine ⟨?_, s.nodup_types.imp ?_⟩
  · intro id hid
    have hactive : s.isActive id = true := (List.mem_filter.mp hid).2
    cases hlayout : s.types.enum? id with
    | none => exact List.nodup_nil
    | some layout =>
        have hnames := s.nodup_valueNames hlayout hactive
        rw [List.Nodup, List.pairwise_map] at hnames ⊢
        refine hnames.imp ?_
        intro a b hne heq
        simp only [ValueRef.mk.injEq] at heq
        exact hne heq.2
  · intro a b hne value ha hb
    exact hne ((enumeration_eq_of_mem ha).symm.trans (enumeration_eq_of_mem hb))

theorem mem_valueRefs_iff {value : ValueRef} :
    value ∈ s.contents.values.map (·.1) ↔
      s.registry.isActive value.enumeration = true ∧ ∃ layout,
        s.types.enum? value.enumeration = some layout ∧
          value.name ∈ layout.values.map (·.name) := by
  rw [s.valueRefs_eq, List.mem_flatMap]
  constructor
  · rintro ⟨id, hid, hvalue⟩
    cases hlayout : s.types.enum? id with
    | none => simp [hlayout] at hvalue
    | some layout =>
        rw [hlayout] at hvalue
        obtain ⟨found, hfound, rfl⟩ := List.mem_map.mp hvalue
        exact ⟨s.mem_types_iff.mp hid, layout, hlayout, List.mem_map_of_mem hfound⟩
  · rintro ⟨hactive, layout, hlayout, hname⟩
    obtain ⟨found, hfound, hname⟩ := List.mem_map.mp hname
    refine ⟨value.enumeration, s.mem_types_iff.mpr hactive, ?_⟩
    rw [hlayout]
    exact List.mem_map.mpr ⟨found, hfound, by rw [hname]⟩

/-! ### The buckets -/

theorem partitioned : s.registry.Partitioned doc options := by
  have htypes := s.contents.shares_types s.blank_blank
  have hcommands := s.contents.shares_commands s.blank_blank
  have hvalues := s.contents.shares_values s.blank_blank
  have hextensions := s.contents.shares_extensions s.blank_blank
  have hlt := s.contents.slot_lt_filled s.blank_blank
  have hlisted : ∀ {α : Type} {xs ys : List α} {p : α → Prop}, xs.Perm ys → ys.Nodup →
      (∀ x, x ∈ ys ↔ p x) → ListsOnce xs p := fun hperm hnodup hmem =>
    ⟨hperm.nodup_iff.mpr hnodup, fun x => hperm.mem_iff.trans (hmem x)⟩
  have htypesPerm := htypes.perm fun _ _ => hlt _
  rw [List.map_id'] at htypesPerm
  refine ⟨?types, ?commands, ?values, ?extensions, ?declared, ?typeOrder, ?commandOrder,
    ?typeGuards, ?commandGuards⟩
  case types => exact hlisted htypesPerm s.nodup_types fun id => s.mem_types_iff
  case commands =>
    exact hlisted (hcommands.perm fun _ _ => hlt _) s.nodup_commandNames fun name =>
      s.mem_commandNames_iff
  case values =>
    exact hlisted (hvalues.perm fun _ _ => hlt _) s.nodup_valueRefs fun value =>
      s.mem_valueRefs_iff
  case extensions =>
    have hnames : s.contents.extensions.map (·.name) =
        (doc.extensions.filter (ExtensionDecl.isSelected options)).map (·.name) := by
      rw [← s.selected_eq_filter]
      exact s.extensionNames_eq
    rw [← hnames]
    exact hextensions.perm fun _ _ => hlt _
  case declared =>
    exact (TypeTable.names_eq_of_outline s.outline_types).trans (TypeTable.names_linked s.linked_eq)
  case typeOrder =>
    intro p hp
    have hsub := htypes.sublist hp
    rw [List.map_id'] at hsub
    exact s.pairwise_types.sublist hsub
  case commandOrder =>
    intro p hp
    exact s.pairwise_commandNames.sublist (hcommands.sublist hp)
  case typeGuards =>
    exact s.contents.guardOfType?_filled s.blank_blank s.nodup_types
  case commandGuards =>
    exact s.contents.guardOfCommand?_filled s.blank_blank s.nodup_commandNames

end Steps

/-- Everything in use is in one bucket whatever document the registry is built from. -/
theorem ofDocument_partitioned {doc : Document} {options : RegistryOptions} {r : Registry}
    (h : ofDocument doc options = .ok r) : r.Partitioned doc options := by
  obtain ⟨s, rfl⟩ := exists_steps h
  exact s.partitioned

/--
**Everything in use is in one bucket.**  After every build, the buckets share out the types,
the commands, the values and the extensions that the registry has: each is in one bucket and
there once, nothing else is in any, and the guard of a type or a command is the guard of the
bucket that lists it.
-/
theorem build_partitioned {source : String} {options : RegistryOptions} {r : Registry}
    (h : build source options = .ok r) :
    ∃ doc, Document.parse source = .ok doc ∧ r.Partitioned (doc.forApi options) options := by
  obtain ⟨doc, hdoc, h⟩ := build_eq_ok.mp h
  exact ⟨doc, hdoc, ofDocument_partitioned h⟩

/-- A core version with a command, and an extension for a platform with a type, a command that
is an alias and a value. -/
def windowText : String :=
  "<registry><platforms>
<platform name='xlib' protect='VK_USE_PLATFORM_XLIB_KHR' comment='X'/></platforms>
<types><type name='void'/><type name='Display'/><type category='enum' name='VkResult'/></types>
<enums name='VkResult' type='enum'><enum name='VK_SUCCESS' value='0'/></enums>
<commands><command><proto><type>VkResult</type> <name>vkShow</name></proto></command>
<command name='vkShowXlib' alias='vkShow'/></commands>
<feature name='VK_VERSION_1_0' number='1.0'><require><command name='vkShow'/></require></feature>
<extensions>
<extension name='VK_KHR_xlib' number='2' author='KHR' platform='xlib' supported='vulkan'>
<require><type name='Display'/><command name='vkShowXlib'/>
<enum extends='VkResult' name='VK_HIDDEN' offset='1'/></require>
</extension></extensions></registry>"

/-- The buckets of `windowText`: names, types, commands, values and extensions. -/
def windowBuckets : List (String × List TypeId × List String × List String × List String) :=
  [("", [⟨0⟩, ⟨3⟩], ["vkShow"], ["VK_SUCCESS"], []),
    ("xlib", [⟨2⟩], ["vkShowXlib"], ["VK_HIDDEN"], ["VK_KHR_xlib"])]

set_option maxRecDepth 20000 in
/-- `windowText` builds, and what the extension brings in is in the bucket of its platform. -/
theorem partitioned_windowText :
    ∃ r doc, build windowText .everything = .ok r ∧ Document.parse windowText = .ok doc ∧
      r.Partitioned (doc.forApi .everything) .everything ∧
      (r.platforms.platforms.map fun p =>
        (p.name, p.types, p.commands, p.enumValues.map (·.name), p.extensions)) =
          windowBuckets := by
  obtain ⟨r, hr, hbuckets⟩ : ∃ r, build windowText .everything = .ok r ∧
      ((r.platforms.platforms.map fun p =>
        (p.name, p.types, p.commands, p.enumValues.map (·.name), p.extensions)) ==
          windowBuckets) = true :=
    exists_build_of_any (by decide +kernel)
  obtain ⟨doc, hdoc, hpartitioned⟩ := build_partitioned hr
  exact ⟨r, doc, hr, hdoc, hpartitioned, beq_iff_eq.mp hbuckets⟩

end Registry

end VulkanRegistry
