/-
The lifetimes of a finished registry.

The table of lifetimes is made from the commands and the types of the registry, and what the
queries need of those holds after every build: commands have distinct names, and the types of
their parameters are in use.  So the lifetimes are those of the handles in use, and a command
is found to create or to destroy exactly what the lifetimes say.

With pools it is different.  The command that empties a pool is recorded by the first handle
taken from the pool, while the pool knows only the last.  The query asks that one, so it finds
the command just in case the two are the same (`findsReset_iff`).
-/
import VulkanRegistry.Proofs.Lifetime.Query
import VulkanRegistry.Proofs.Registry.CommandAliases
import VulkanRegistry.Proofs.Registry.References

namespace VulkanRegistry

open Lifetime

namespace Registry

/-- The lifetimes are those of the handles in use, one for each, and the queries for a command
find the lifetime that names it, whose handle is that of the parameter it is said to be. -/
structure TracksLifetimes (r : Registry) : Prop where
  distinct : (r.handles.infos.map (·.handle)).Nodup
  handles : ∀ id, id ∈ r.handles.infos.map (·.handle) ↔
    r.isActive id = true ∧ r.types.isHandle id = true
  found : ∀ info ∈ r.handles.infos, r.handles.get? info.handle = some info
  created : ∀ cmd ∈ r.commands.commands, ∀ info create,
    r.handles.created? cmd = some (info, create) ↔
      info ∈ r.handles.infos ∧ create ∈ info.createCommands ∧ create.command = cmd.name
  output : ∀ cmd ∈ r.commands.commands, ∀ info create,
    r.handles.created? cmd = some (info, create) →
      OnlyOutput r.types cmd.params create.handleParam info.handle
  destroyed : ∀ cmd ∈ r.commands.commands, ∀ info,
    r.handles.destroyed? cmd = some info ↔
      info ∈ r.handles.infos ∧ ∃ d, info.destroyCommand = some d ∧ d.command = cmd.name
  object : ∀ cmd ∈ r.commands.commands, ∀ info d, r.handles.destroyed? cmd = some info →
    info.destroyCommand = some d →
      ∃ place, d.handleParam = some place ∧ typeAt? cmd.params place = some info.handle

namespace Steps

variable {doc : Document} {options : RegistryOptions} (s : Steps doc options)

theorem records_handles : s.registry.handles.Records s.types s.commands s.isActive :=
  HandleInfoTable.records_ofCommands

theorem isActive_of_mem_params {cmd : Command} (hcmd : cmd ∈ s.commands.commands) {p : Member}
    (hp : p ∈ cmd.params) : s.isActive p.base = true := by
  obtain ⟨entry, -, -, hactive⟩ := (s.usable_of_mem_commands hcmd).2 p hp
  exact (s.registry_isActive_iff.mp hactive).2

theorem mem_handles_iff {id : TypeId} : id ∈ s.registry.handles.infos.map (·.handle) ↔
    s.registry.isActive id = true ∧ s.types.isHandle id = true := by
  rw [← HandleInfoTable.contains_iff, s.records_handles.contains_iff
    (fun cmd hcmd p hp => s.isActive_of_mem_params hcmd hp)]
  refine and_congr_left fun hhandle => ?_
  obtain ⟨layout, hlayout⟩ := Option.isSome_iff_exists.mp hhandle
  obtain ⟨kind, hkind, -⟩ := Option.bind_eq_some_iff.mp hlayout
  obtain ⟨entry, hentry, -⟩ := Option.map_eq_some_iff.mp hkind
  rw [s.registry_isActive (TypeTable.index_lt_size hentry)]

theorem tracksLifetimes : s.registry.TracksLifetimes := by
  have hrecords := s.records_handles
  refine ⟨hrecords.nodup, fun id => s.mem_handles_iff, ?found, ?created, ?output, ?destroyed,
    ?object⟩
  case found =>
    intro info hinfo
    exact (HandleInfoTable.get?_eq_some_iff hrecords.nodup).mpr ⟨hinfo, rfl⟩
  case created =>
    intro cmd hcmd info create
    exact HandleInfoTable.created?_eq_some_iff hrecords s.nodup_names_commands hcmd
  case output =>
    intro cmd hcmd info create h
    obtain ⟨hinfo, hcreate, hname⟩ := HandleInfoTable.created?_eq_some hrecords.nodup h
    obtain ⟨c, hc, hhandle, rfl⟩ :=
      HandleInfoTable.exists_creation hrecords s.nodup_names_commands hcmd hinfo hcreate hname
    rw [← hhandle]
    exact (onlyOutput_of_creation? hc).2
  case destroyed =>
    intro cmd hcmd info
    exact HandleInfoTable.destroyed?_eq_some_iff hrecords s.nodup_names_commands hcmd
  case object =>
    intro cmd hcmd info d h hd
    obtain ⟨hinfo, other, hother, hname⟩ := HandleInfoTable.destroyed?_eq_some hrecords.nodup h
    rw [hd, Option.some.injEq] at hother
    have hending := HandleInfoTable.ending?_of_destroyCommand hrecords s.nodup_names_commands hcmd
      hinfo hd (hother ▸ hname)
    exact (ends_of_ending? hending).typed

end Steps

/-- Lifetimes and queries agree whatever document the registry is built from. -/
theorem ofDocument_tracksLifetimes {doc : Document} {options : RegistryOptions} {r : Registry}
    (h : ofDocument doc options = .ok r) : r.TracksLifetimes := by
  obtain ⟨s, rfl⟩ := exists_steps h
  exact s.tracksLifetimes

/--
**Lifetimes cover the handles in use, and the queries agree with them.**  After every build,
each handle in use has one lifetime, and nothing else has any.  A command is found to create
or hand out what the lifetimes list it for, which is the type of its one output of handles;
and it is found to destroy the one handle whose lifetime names it, which is the type of the
parameter that is recorded.
-/
theorem build_tracksLifetimes {source : String} {options : RegistryOptions} {r : Registry}
    (h : build source options = .ok r) : r.TracksLifetimes := by
  obtain ⟨doc, -, h⟩ := build_eq_ok.mp h
  exact ofDocument_tracksLifetimes h

/-- A pool with a command that takes handles from it, one that empties it and one that
destroys it. -/
def poolText : String :=
  "<registry><platforms/>
<types><type name='void'/>
<type category='handle'><type>VK_DEFINE_HANDLE</type>(<name>VkDevice</name>)</type>
<type category='handle' parent='VkDevice'><type>VK_DEFINE_HANDLE</type>(<name>VkPool</name>)</type>
<type category='handle' parent='VkPool'><type>VK_DEFINE_HANDLE</type>(<name>VkSet</name>)</type>
<type category='struct' name='VkAllocator'/>
<type category='struct' name='VkSetInfo'>
<member><type>VkPool</type> <name>pool</name></member></type>
</types>
<enums name='API Constants'/>
<commands><command><proto><type>void</type> <name>vkAllocateSets</name></proto>
<param><type>VkDevice</type> <name>device</name></param>
<param>const <type>VkSetInfo</type>* <name>info</name></param>
<param><type>VkSet</type>* <name>sets</name></param></command>
<command><proto><type>void</type> <name>vkDestroyPool</name></proto>
<param><type>VkDevice</type> <name>device</name></param>
<param><type>VkPool</type> <name>pool</name></param>
<param>const <type>VkAllocator</type>* <name>allocator</name></param></command>
<command><proto><type>void</type> <name>vkResetDescriptorPool</name></proto>
<param><type>VkDevice</type> <name>device</name></param>
<param><type>VkPool</type> <name>pool</name></param></command></commands>
<feature name='VK_VERSION_1_0' number='1.0'><require><command name='vkAllocateSets'/>
<command name='vkDestroyPool'/><command name='vkResetDescriptorPool'/></require></feature>
</registry>"

set_option maxRecDepth 20000 in
/-- In `poolText`, one command is found to hand out sets and one to destroy pools. -/
theorem tracksLifetimes_poolText :
    ∃ r, build poolText .standard = .ok r ∧ r.TracksLifetimes ∧
      r.handles.infos.map (fun info => r.types.nameOf info.handle) =
        ["VkSet", "VkDevice", "VkPool"] ∧
      r.commands.commands.map (fun cmd =>
        (cmd.name, (r.handles.created? cmd).map fun found => r.types.nameOf found.1.handle,
          (r.handles.destroyed? cmd).map fun info => r.types.nameOf info.handle)) =
        [("vkAllocateSets", some "VkSet", none), ("vkDestroyPool", none, some "VkPool"),
          ("vkResetDescriptorPool", none, none)] := by
  obtain ⟨r, hr, hfacts⟩ : ∃ r, build poolText .standard = .ok r ∧
      (r.handles.infos.map (fun info => r.types.nameOf info.handle) ==
          ["VkSet", "VkDevice", "VkPool"] &&
        r.commands.commands.map (fun cmd =>
          (cmd.name, (r.handles.created? cmd).map fun found => r.types.nameOf found.1.handle,
            (r.handles.destroyed? cmd).map fun info => r.types.nameOf info.handle)) ==
          [("vkAllocateSets", some "VkSet", none), ("vkDestroyPool", none, some "VkPool"),
            ("vkResetDescriptorPool", none, none)]) = true :=
    exists_build_of_any (by decide +kernel)
  simp only [Bool.and_eq_true, beq_iff_eq] at hfacts
  exact ⟨r, hr, build_tracksLifetimes hr, hfacts.1, hfacts.2⟩

/-! ### Emptying pools -/

/-- The command is found to empty the pool of a lifetime, which is its second parameter, and
to give back the handle of that lifetime. -/
def FindsReset (r : Registry) (info : HandleInfo) (cmd : Command) : Prop :=
  ∃ pool, r.handles.emptied? cmd = some (pool, info) ∧ info.pool = some pool.handle ∧
    typeAt? cmd.params 1 = some pool.handle

/-- Every command that a lifetime records for emptying its pool is found to do that. -/
def FindsResets (r : Registry) : Prop :=
  ∀ info ∈ r.handles.infos, ∀ reset, info.resetCommand = some reset →
    ∃ cmd ∈ r.commands.commands, cmd.name = reset.command ∧ r.FindsReset info cmd

/-- A recorded reset is found, whatever document the registry is built from, if and only if no
other handle is taken from its pool. -/
theorem ofDocument_findsReset {doc : Document} {options : RegistryOptions} {r : Registry}
    (h : ofDocument doc options = .ok r) :
    ∀ info ∈ r.handles.infos, ∀ reset, info.resetCommand = some reset →
      ∃ cmd ∈ r.commands.commands, cmd.name = reset.command ∧
        ∃ pool, info.pool = some pool ∧ typeAt? cmd.params 1 = some pool ∧
          (r.FindsReset info cmd ↔ r.handles.takenFrom pool = [info.handle]) ∧
          (r.handles.takenFrom pool ≠ [info.handle] → r.handles.emptied? cmd = none) := by
  obtain ⟨s, rfl⟩ := exists_steps h
  intro info hinfo reset hreset
  have hrecords := s.records_handles
  obtain ⟨cmd, hcmd, hname, -⟩ := HandleInfoTable.exists_reset hrecords hinfo hreset
  obtain ⟨parent, pool, rest, found, hparams, -, hpool, hget, hempties⟩ :=
    HandleInfoTable.emptied?_eq_ite hrecords s.nodup_names_commands hcmd
      (fun p hp => s.isActive_of_mem_params hcmd hp) hinfo hreset hname.symm
  have hhandle := ((HandleInfoTable.get?_eq_some_iff hrecords.nodup).mp hget).2
  have hsecond : typeAt? cmd.params 1 = some pool.base := by simp [typeAt?, hparams]
  refine ⟨cmd, hcmd, hname, pool.base, hpool, hsecond, ?_, ?_⟩
  · constructor
    · rintro ⟨other, hother, -⟩
      rw [hempties] at hother
      by_contra hsole
      simp [hsole] at hother
    · intro hsole
      exact ⟨found, by rw [hempties, if_pos hsole], by rw [hhandle, hpool],
        by rw [hhandle, hsecond]⟩
  · intro hshared
    rw [hempties, if_neg hshared]

/--
**A reset is found where its pool has one kind of handle.**  After every build, a command that a
lifetime records for emptying its pool has the pool as its second parameter.  It is found to
empty that pool if and only if no other handle is taken from it, and where one is, nothing is
found.
-/
theorem findsReset_iff {source : String} {options : RegistryOptions} {r : Registry}
    (h : build source options = .ok r) :
    ∀ info ∈ r.handles.infos, ∀ reset, info.resetCommand = some reset →
      ∃ cmd ∈ r.commands.commands, cmd.name = reset.command ∧
        ∃ pool, info.pool = some pool ∧ typeAt? cmd.params 1 = some pool ∧
          (r.FindsReset info cmd ↔ r.handles.takenFrom pool = [info.handle]) ∧
          (r.handles.takenFrom pool ≠ [info.handle] → r.handles.emptied? cmd = none) := by
  obtain ⟨doc, -, h⟩ := build_eq_ok.mp h
  exact ofDocument_findsReset h

set_option maxRecDepth 20000 in
/-- In `poolText`, only sets are taken from the pool, and the command that empties it is found. -/
theorem findsReset_poolText :
    ∃ r, build poolText .standard = .ok r ∧ ∃ info ∈ r.handles.infos, ∃ reset,
      info.resetCommand = some reset ∧ r.types.nameOf info.handle = "VkSet" ∧
        ∃ cmd ∈ r.commands.commands, cmd.name = reset.command ∧ r.FindsReset info cmd := by
  obtain ⟨r, hr, hfacts⟩ : ∃ r, build poolText .standard = .ok r ∧
      r.handles.infos.any (fun info => info.resetCommand.isSome &&
        r.types.nameOf info.handle == "VkSet" &&
        info.pool.any fun pool => r.handles.takenFrom pool == [info.handle]) = true :=
    exists_build_of_any (by decide +kernel)
  obtain ⟨info, hinfo, hinfoFacts⟩ := List.any_eq_true.mp hfacts
  simp only [Bool.and_eq_true, beq_iff_eq] at hinfoFacts
  obtain ⟨⟨hrecorded, hhandle⟩, hsole⟩ := hinfoFacts
  obtain ⟨reset, hreset⟩ := Option.isSome_iff_exists.mp hrecorded
  obtain ⟨cmd, hcmd, hname, pool, hpool, -, hiff, -⟩ := findsReset_iff hr info hinfo reset hreset
  rw [hpool, Option.any_some, beq_iff_eq] at hsole
  exact ⟨r, hr, info, hinfo, reset, hreset, hhandle, cmd, hcmd, hname, hiff.mpr hsole⟩

/-- Two kinds of handles are taken from one pool. -/
def sharedPoolText : String :=
  "<registry><platforms/>
<types><type name='void'/>
<type category='handle'><type>VK_DEFINE_HANDLE</type>(<name>VkDevice</name>)</type>
<type category='handle' parent='VkDevice'><type>VK_DEFINE_HANDLE</type>(<name>VkPool</name>)</type>
<type category='handle' parent='VkPool'><type>VK_DEFINE_HANDLE</type>(<name>VkSet</name>)</type>
<type category='handle' parent='VkPool'><type>VK_DEFINE_HANDLE</type>(<name>VkView</name>)</type>
<type category='struct' name='VkPoolInfo'>
<member><type>VkPool</type> <name>pool</name></member></type>
</types>
<enums name='API Constants'/>
<commands><command><proto><type>void</type> <name>vkAllocateSets</name></proto>
<param><type>VkDevice</type> <name>device</name></param>
<param>const <type>VkPoolInfo</type>* <name>info</name></param>
<param><type>VkSet</type>* <name>sets</name></param></command>
<command><proto><type>void</type> <name>vkAllocateViews</name></proto>
<param><type>VkDevice</type> <name>device</name></param>
<param>const <type>VkPoolInfo</type>* <name>info</name></param>
<param><type>VkView</type>* <name>views</name></param></command>
<command><proto><type>void</type> <name>vkResetDescriptorPool</name></proto>
<param><type>VkDevice</type> <name>device</name></param>
<param><type>VkPool</type> <name>pool</name></param></command></commands>
<feature name='VK_VERSION_1_0' number='1.0'><require><command name='vkAllocateSets'/>
<command name='vkAllocateViews'/><command name='vkResetDescriptorPool'/></require></feature>
</registry>"

set_option maxRecDepth 20000 in
/-- In `sharedPoolText`, a lifetime records the command that empties its pool, and no command is
found to empty any. -/
theorem not_findsResets_sharedPoolText :
    ∃ r, build sharedPoolText .standard = .ok r ∧ ¬ r.FindsResets := by
  obtain ⟨r, hr, hfacts⟩ : ∃ r, build sharedPoolText .standard = .ok r ∧
      (r.handles.infos.any (fun info => info.resetCommand.isSome) &&
        r.commands.commands.all fun cmd => (r.handles.emptied? cmd).isNone) = true :=
    exists_build_of_any (by decide +kernel)
  rw [Bool.and_eq_true, List.any_eq_true, List.all_eq_true] at hfacts
  obtain ⟨⟨info, hinfo, hrecorded⟩, hnothing⟩ := hfacts
  obtain ⟨reset, hreset⟩ := Option.isSome_iff_exists.mp hrecorded
  refine ⟨r, hr, ?_⟩
  intro hfinds
  obtain ⟨cmd, hcmd, -, pool, hfound, -⟩ := hfinds info hinfo reset hreset
  have hnone := Option.isNone_iff_eq_none.mp (hnothing cmd hcmd)
  simp [hnone] at hfound

end Registry

end VulkanRegistry
