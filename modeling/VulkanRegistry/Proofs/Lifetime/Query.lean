/-
What the queries find in the table of lifetimes.

A lifetime names commands, and a query starts from a command: it looks up the types of the
parameters that may hold the handle, and takes the first lifetime that names the command.  A
recogniser reads parameters too, but more closely.  The two agree because the command that is
named is the one that was recognised, if names are distinct, and the type that the recogniser
took from a parameter has a lifetime, if it is in use.  For a pool there is one more step,
from the pool to what is taken from it, and there they can differ (`emptied?_eq_ite`).
-/
import VulkanRegistry.Proofs.Lifetime.Table

namespace VulkanRegistry

/-! ### What is recognised -/

theorem TypeTable.plainHandle?_eq_some {types : TypeTable} {p : Member} {id : TypeId} :
    types.plainHandle? p = some id ↔
      p.isValue = true ∧ types.isHandle p.base = true ∧ p.base = id := by
  simp [plainHandle?, isHandle, and_assoc]

namespace Lifetime

variable {types : TypeTable} {cmd : Command}

theorem mem_places {shape : Member → Bool} {params : List Member} {place : Nat} :
    place ∈ places shape params ↔ ∃ p, params[place]? = some p ∧ shape p = true := by
  simp [places, List.mem_zipIdx_iff_getElem?]

/-- The parameter is one pointer to what is not constant, or one array behind such a pointer,
and its base is a handle. -/
structure PointsToHandles (types : TypeTable) (p : Member) : Prop where
  level : p.modifiers = [.pointer false] ∨ ∃ length, p.modifiers = [.dynamicArray length false]
  base : ∃ layout, types.handle? p.base = some layout

theorem singleIndirection?_eq_some_iff {p : Member} {isConst : Bool} :
    p.singleIndirection? = some isConst ↔
      p.modifiers = [.pointer isConst] ∨ ∃ length, p.modifiers = [.dynamicArray length isConst] := by
  unfold Member.singleIndirection?
  split
  · next c h => simp [h]
  · next length c h => simp [h]
  · next hpointer harray =>
      constructor
      · intro h
        cases h
      · rintro (h | ⟨length, h⟩)
        · exact absurd h (hpointer isConst)
        · exact absurd h (harray length isConst)

/-- The recogniser of outputs accepts just the parameters that point to handles. -/
theorem isHandleOutput_iff {p : Member} :
    isHandleOutput types p = true ↔ PointsToHandles types p := by
  rw [isHandleOutput, Bool.and_eq_true, beq_iff_eq, singleIndirection?_eq_some_iff,
    TypeTable.isHandle, Option.isSome_iff_exists]
  exact ⟨fun h => ⟨h.1, h.2⟩, fun h => ⟨h.level, h.base⟩⟩

/-- The only output of handles is the parameter at a place, and it is of a type. -/
structure OnlyOutput (types : TypeTable) (params : List Member) (place : Nat) (handle : TypeId) :
    Prop where
  typed : typeAt? params place = some handle
  only : ∀ i p, params[i]? = some p → (PointsToHandles types p ↔ i = place)

theorem OnlyOutput.exists_param {params : List Member} {place : Nat} {handle : TypeId}
    (h : OnlyOutput types params place handle) :
    ∃ p ∈ params, (p.singleIndirection? == some false) = true ∧ types.isHandle handle = true ∧
      p.base = handle := by
  obtain ⟨p, hp, rfl⟩ := Option.map_eq_some_iff.mp h.typed
  have hshape := isHandleOutput_iff.mpr ((h.only _ p hp).mpr rfl)
  rw [isHandleOutput, Bool.and_eq_true] at hshape
  exact ⟨p, List.mem_of_getElem? hp, hshape.1, hshape.2, rfl⟩

/-- A creating command is recognised by its one output of handles. -/
theorem onlyOutput_of_creation? {c : Creation} (h : creation? types cmd = some c) :
    c.create.command = cmd.name ∧
      OnlyOutput types cmd.params c.create.handleParam c.handle := by
  unfold creation? at h
  split at h
  · next _ _ place houtputs =>
      split at h
      · simp at h
      · obtain ⟨handle, hhandle, h⟩ := Option.bind_eq_some_iff.mp h
        obtain rfl := Option.some.inj h
        refine ⟨rfl, hhandle, ?_⟩
        intro i p hp
        have hplaces : i ∈ places (isHandleOutput types) cmd.params ↔ i = place := by
          rw [houtputs, List.mem_singleton]
        rw [← hplaces, mem_places, hp, ← isHandleOutput_iff]
        simp
  · simp at h

/-- A command has a handle as a parameter and is said to destroy it. -/
structure Ends (types : TypeTable) (cmd : Command) (found : TypeId × DestroyCommand) : Prop where
  command : found.2.command = cmd.name
  isHandle : types.isHandle found.1 = true
  typed : ∃ place, found.2.handleParam = some place ∧ typeAt? cmd.params place = some found.1

/-- A destroying command is recognised by a plain handle in front of an allocator. -/
theorem ends_of_destruction? {found : TypeId × DestroyCommand}
    (h : destruction? types cmd = some found) : Ends types cmd found := by
  have hplain : ∀ (parentParam : Option Nat) (place : Nat) (object last : Member),
      cmd.params[place]? = some object →
      ((types.plainHandle? object).bind fun handle =>
        if isAllocator types last then
          some (handle, ⟨cmd.name, parentParam, none, some place⟩)
        else none) = some found →
      Ends types cmd found := by
    intro parentParam place object last hobject h
    obtain ⟨handle, hhandle, h⟩ := Option.bind_eq_some_iff.mp h
    obtain ⟨-, hkind, rfl⟩ := TypeTable.plainHandle?_eq_some.mp hhandle
    split at h
    · obtain rfl := Option.some.inj h
      exact ⟨rfl, hkind, place, rfl, by simp [typeAt?, hobject]⟩
    · simp at h
  unfold destruction? at h
  dsimp only at h
  split at h
  · next object last hparams => exact hplain none 0 object last (by simp [hparams]) h
  · next parent object last hparams =>
      split at h
      · exact hplain (some 0) 1 object last (by simp [hparams]) h
      · simp at h
  · simp at h

/-- A freeing command is recognised by an array of handles behind the pool. -/
theorem ends_of_freeing? {found : TypeId × DestroyCommand}
    (h : freeing? types cmd = some found) : Ends types cmd found := by
  unfold freeing? at h
  split at h
  · next parent pool count handles hparams =>
      split at h
      · next hshape =>
          obtain rfl := Option.some.inj h
          simp only [Bool.and_eq_true] at hshape
          exact ⟨rfl, hshape.2, 3, rfl, by simp [typeAt?, hparams]⟩
      · simp at h
  · simp at h

theorem ends_of_ending? {found : TypeId × DestroyCommand} (h : ending? types cmd = some found) :
    Ends types cmd found := by
  unfold ending? at h
  split at h
  · exact ends_of_destruction? h
  · split at h
    · exact ends_of_freeing? h
    · simp at h

/-- A resetting command is recognised by the pool behind its parent. -/
theorem params_of_reset? {found : TypeId × DestroyCommand} (h : reset? types cmd = some found) :
    found.2.command = cmd.name ∧ types.isHandle found.1 = true ∧
      ∃ parent pool rest, cmd.params = parent :: pool :: rest ∧ pool.isValue = true ∧
        pool.base = found.1 := by
  unfold reset? at h
  split at h
  · next parent pool rest hparams =>
      obtain ⟨_, -, h⟩ := Option.bind_eq_some_iff.mp h
      obtain ⟨handle, hhandle, h⟩ := Option.bind_eq_some_iff.mp h
      obtain ⟨hvalue, hkind, rfl⟩ := TypeTable.plainHandle?_eq_some.mp hhandle
      obtain rfl := Option.some.inj h
      exact ⟨rfl, hkind, parent, pool, rest, hparams, hvalue, rfl⟩
  · simp at h

end Lifetime

namespace HandleInfoTable

open Lifetime

variable {table : HandleInfoTable} {types : TypeTable} {commands : CommandTable}
  {isActive : TypeId → Bool} {cmd : Command} {info : HandleInfo}

/-! ### From a lifetime back to the command -/

theorem mem_commands_of_mem_creatingCommands (h : cmd ∈ creatingCommands commands) :
    cmd ∈ commands.commands := by
  rcases List.mem_append.mp h with h | h
  · exact List.mem_of_mem_filter h
  · obtain ⟨name, -, hname⟩ := List.mem_filterMap.mp h
    exact List.mem_of_find?_eq_some hname

/-- A command that is recorded for emptying a pool was recognised, and the handle is the first
that is taken from the pool. -/
theorem exists_reset (h : table.Records types commands isActive) (hinfo : info ∈ table.infos)
    {d : DestroyCommand} (hreset : info.resetCommand = some d) :
    ∃ cmd ∈ commands.commands, cmd.name = d.command ∧
      ∃ pool, reset? types cmd = some (pool, d) ∧
        (table.takenFrom pool).head? = some info.handle := by
  rw [h.empties info hinfo] at hreset
  obtain ⟨⟨pool, reset⟩, hfind, rfl⟩ := Option.map_eq_some_iff.mp hreset
  obtain ⟨cmd, hcmd, hfound⟩ := List.mem_filterMap.mp (List.mem_of_find?_eq_some hfind)
  obtain ⟨name, -, hget⟩ := List.mem_filterMap.mp hcmd
  exact ⟨cmd, List.mem_of_find?_eq_some hget, (params_of_reset? hfound).1.symm, pool, hfound,
    by simpa using List.find?_some hfind⟩

section Named

variable (h : table.Records types commands isActive)
  (hnames : (commands.commands.map (·.name)).Nodup) (hcmd : cmd ∈ commands.commands)
  (hinfo : info ∈ table.infos)

include h hnames hcmd hinfo

/-- A creating command that is listed was recognised in the command of its name. -/
theorem exists_creation {create : CreateCommand} (hcreate : create ∈ info.createCommands)
    (hname : create.command = cmd.name) :
    ∃ c, creation? types cmd = some c ∧ c.handle = info.handle ∧ c.create = create := by
  rw [h.creates info hinfo] at hcreate
  obtain ⟨c, hc, rfl⟩ := List.mem_map.mp hcreate
  obtain ⟨hc, hhandle⟩ := List.mem_filter.mp hc
  obtain ⟨other, hother, hfound⟩ := List.mem_filterMap.mp hc
  have hcommand := (onlyOutput_of_creation? hfound).1
  obtain rfl := List.inj_on_of_nodup_map hnames (mem_commands_of_mem_creatingCommands hother) hcmd
    (hcommand.symm.trans hname)
  exact ⟨c, hfound, by simpa using hhandle, rfl⟩

theorem ending?_of_destroyCommand {d : DestroyCommand} (hdestroy : info.destroyCommand = some d)
    (hname : d.command = cmd.name) : ending? types cmd = some (info.handle, d) := by
  rw [h.destroys info hinfo] at hdestroy
  obtain ⟨⟨handle, destroy⟩, hfind, rfl⟩ := Option.map_eq_some_iff.mp hdestroy
  have hhandle : handle = info.handle := by simpa using List.find?_some hfind
  obtain ⟨other, hother, hfound⟩ := List.mem_filterMap.mp (List.mem_of_find?_eq_some hfind)
  have hcommand := (ends_of_ending? hfound).command
  obtain rfl := List.inj_on_of_nodup_map hnames hother hcmd (hcommand.symm.trans hname)
  rw [hfound, hhandle]

theorem reset?_of_resetCommand {d : DestroyCommand} (hreset : info.resetCommand = some d)
    (hname : d.command = cmd.name) :
    ∃ pool, reset? types cmd = some (pool, d) ∧
      (table.takenFrom pool).head? = some info.handle := by
  obtain ⟨other, hother, hsame, hpool⟩ := exists_reset h hinfo hreset
  rwa [List.inj_on_of_nodup_map hnames hcmd hother (hname.symm.trans hsame.symm)]

end Named

/-! ### From a command to lifetimes -/

theorem created?_eq_some (hnodup : (table.infos.map (·.handle)).Nodup) {create : CreateCommand}
    (h : table.created? cmd = some (info, create)) :
    info ∈ table.infos ∧ create ∈ info.createCommands ∧ create.command = cmd.name := by
  obtain ⟨found, hfound, hmap⟩ := List.exists_of_findSome?_eq_some h
  obtain ⟨p, -, hget⟩ := List.mem_filterMap.mp hfound
  obtain ⟨listed, hlisted, hpair⟩ := Option.map_eq_some_iff.mp hmap
  obtain ⟨rfl, rfl⟩ := Prod.mk.inj hpair
  exact ⟨((get?_eq_some_iff hnodup).mp hget).1, List.mem_of_find?_eq_some hlisted,
    by simpa using List.find?_some hlisted⟩

theorem destroyed?_eq_some (hnodup : (table.infos.map (·.handle)).Nodup)
    (h : table.destroyed? cmd = some info) :
    info ∈ table.infos ∧ ∃ d, info.destroyCommand = some d ∧ d.command = cmd.name := by
  obtain ⟨p, -, hget⟩ := List.mem_filterMap.mp (List.mem_of_find?_eq_some h)
  refine ⟨((get?_eq_some_iff hnodup).mp hget).1, ?_⟩
  have hany := List.find?_some h
  cases hdestroy : info.destroyCommand with
  | none => simp [hdestroy] at hany
  | some d => exact ⟨d, rfl, by simpa [hdestroy] using hany⟩

section Recorded

variable (h : table.Records types commands isActive)
  (hnames : (commands.commands.map (·.name)).Nodup) (hcmd : cmd ∈ commands.commands)

include h

/-- If the parameters of commands are in use, the lifetimes are those of the handles in use. -/
theorem Records.contains_iff (hused : ∀ cmd ∈ commands.commands, ∀ p ∈ cmd.params,
    isActive p.base = true) {id : TypeId} :
    table.contains id = true ↔ isActive id = true ∧ types.isHandle id = true := by
  rw [h.handles id, or_iff_right_iff_imp]
  rintro ⟨c, hc, rfl⟩
  obtain ⟨cmd, hcmd, hfound⟩ := List.mem_filterMap.mp hc
  obtain ⟨p, hp, -, hhandle, hbase⟩ := (onlyOutput_of_creation? hfound).2.exists_param
  exact ⟨hbase ▸ hused cmd (mem_commands_of_mem_creatingCommands hcmd) p hp, hhandle⟩

/-- A handle in use has a lifetime. -/
theorem Records.exists_get? {id : TypeId} (hactive : isActive id = true)
    (hhandle : types.isHandle id = true) : ∃ info ∈ table.infos, info.handle = id ∧
      table.get? id = some info := by
  have hcontains : table.contains id = true := (h.handles id).mpr (Or.inr ⟨hactive, hhandle⟩)
  obtain ⟨info, hinfo⟩ := Option.isSome_iff_exists.mp hcontains
  obtain ⟨hmem, hsame⟩ := (get?_eq_some_iff h.nodup).mp hinfo
  exact ⟨info, hmem, hsame, hinfo⟩

include hnames hcmd

/-- The lifetime that lists the command, and how it does, are found. -/
theorem created?_eq_some_iff {create : CreateCommand} :
    table.created? cmd = some (info, create) ↔
      info ∈ table.infos ∧ create ∈ info.createCommands ∧ create.command = cmd.name := by
  refine ⟨created?_eq_some h.nodup, ?_⟩
  intro ⟨hinfo, hcreate, hname⟩
  obtain ⟨c, hc, hhandle, rfl⟩ := exists_creation h hnames hcmd hinfo hcreate hname
  obtain ⟨p, hp, hshape, -, hbase⟩ := (onlyOutput_of_creation? hc).2.exists_param
  -- Something is found, for the output leads to a lifetime that lists the command.
  obtain ⟨⟨found, listed⟩, hfound⟩ : ∃ found, table.created? cmd = some found := by
    have hget : table.get? p.base = some info :=
      (get?_eq_some_iff h.nodup).mpr ⟨hinfo, by rw [hbase, hhandle]⟩
    rw [← Option.isSome_iff_exists, created?, List.findSome?_isSome_iff]
    refine ⟨info, List.mem_filterMap.mpr ⟨p, List.mem_filter.mpr ⟨hp, hshape⟩, hget⟩, ?_⟩
    rw [Option.isSome_map, List.find?_isSome]
    exact ⟨c.create, hcreate, by simp [hname]⟩
  -- What is found was recognised in the same command.
  obtain ⟨hmem, hlisted, hsame⟩ := created?_eq_some h.nodup hfound
  obtain ⟨other, hother, hotherHandle, rfl⟩ := exists_creation h hnames hcmd hmem hlisted hsame
  rw [hc, Option.some.injEq] at hother
  obtain rfl := hother
  rw [hfound, List.inj_on_of_nodup_map h.nodup hmem hinfo (hotherHandle.symm.trans hhandle)]

/-- The lifetime that the command ends is found, and there is only one. -/
theorem destroyed?_eq_some_iff : table.destroyed? cmd = some info ↔
      info ∈ table.infos ∧ ∃ d, info.destroyCommand = some d ∧ d.command = cmd.name := by
  refine ⟨destroyed?_eq_some h.nodup, ?_⟩
  intro ⟨hinfo, d, hd, hname⟩
  have hending := ending?_of_destroyCommand h hnames hcmd hinfo hd hname
  obtain ⟨place, -, htyped⟩ := (ends_of_ending? hending).typed
  obtain ⟨p, hp, hbase⟩ := Option.map_eq_some_iff.mp htyped
  obtain ⟨found, hfound⟩ : ∃ found, table.destroyed? cmd = some found := by
    rw [← Option.isSome_iff_exists, destroyed?, List.find?_isSome]
    refine ⟨info, List.mem_filterMap.mpr ⟨p, List.mem_of_getElem? hp, ?_⟩, by simp [hd, hname]⟩
    exact (get?_eq_some_iff h.nodup).mpr ⟨hinfo, hbase.symm⟩
  obtain ⟨hmem, other, hother, hsame⟩ := destroyed?_eq_some h.nodup hfound
  have hsameEnding := ending?_of_destroyCommand h hnames hcmd hmem hother hsame
  rw [hending, Option.some.injEq, Prod.mk.injEq] at hsameEnding
  rw [hfound, List.inj_on_of_nodup_map h.nodup hmem hinfo hsameEnding.1.symm]

end Recorded

/-! ### Pools -/

theorem nodup_takenFrom (hnodup : (table.infos.map (·.handle)).Nodup) (pool : TypeId) :
    (table.takenFrom pool).Nodup :=
  hnodup.sublist (List.filter_sublist.map _)

theorem mem_takenFrom (hnodup : (table.infos.map (·.handle)).Nodup) (hinfo : info ∈ table.infos)
    {pool : TypeId} : info.handle ∈ table.takenFrom pool ↔ info.pool = some pool := by
  constructor
  · intro h
    obtain ⟨other, hother, hsame⟩ := List.mem_map.mp h
    obtain ⟨hmem, hpool⟩ := List.mem_filter.mp hother
    rw [List.inj_on_of_nodup_map hnodup hmem hinfo hsame] at hpool
    exact beq_iff_eq.mp hpool
  · intro h
    exact List.mem_map.mpr ⟨info, List.mem_filter.mpr ⟨hinfo, beq_iff_eq.mpr h⟩, rfl⟩

/-- A list without repetitions that starts and ends with the same element has no other. -/
theorem eq_singleton_of_nodup {α : Type} {xs : List α} {a : α} (hnodup : xs.Nodup)
    (hhead : xs.head? = some a) (hlast : xs.getLast? = some a) : xs = [a] := by
  obtain ⟨rest, rfl⟩ := List.head?_eq_some_iff.mp hhead
  cases rest with
  | nil => rfl
  | cons b rest =>
      rw [List.getLast?_cons_cons] at hlast
      exact absurd (List.mem_of_getLast? hlast) (List.nodup_cons.mp hnodup).1

variable (h : table.Records types commands isActive)

include h

/-- What is found goes by a plain parameter to its pool, and on to the last handle taken from
that pool. -/
theorem emptied?_eq_some {pool : HandleInfo} (hfound : table.emptied? cmd = some (pool, info)) :
    info ∈ table.infos ∧ (∃ d, info.resetCommand = some d ∧ d.command = cmd.name) ∧
      ∃ p, table.get? p = some pool ∧ (table.takenFrom p).getLast? = some info.handle := by
  obtain ⟨p, -, hfound⟩ := List.exists_of_findSome?_eq_some hfound
  obtain ⟨poolFound, hpool, hfound⟩ := Option.bind_eq_some_iff.mp hfound
  obtain ⟨element, helement, hfound⟩ := Option.bind_eq_some_iff.mp hfound
  obtain ⟨taken, htaken, hfound⟩ := Option.bind_eq_some_iff.mp hfound
  split at hfound
  · next hreset =>
      obtain ⟨rfl, rfl⟩ := Prod.mk.inj (Option.some.inj hfound)
      obtain ⟨hpoolMem, hpoolHandle⟩ := (get?_eq_some_iff h.nodup).mp hpool
      obtain ⟨hmem, hhandle⟩ := (get?_eq_some_iff h.nodup).mp htaken
      refine ⟨hmem, ?_, p.base, hpool, ?_⟩
      · cases hd : taken.resetCommand with
        | none => simp [hd] at hreset
        | some d => exact ⟨d, rfl, by simpa [hd] using hreset⟩
      · rw [← hpoolHandle, ← h.elements poolFound hpoolMem, helement, hhandle]
  · simp at hfound

/-- The pool that a command empties is found where only one handle is taken from it, and nothing
is found where there are several: the first of them records the command, and a pool leads to
the last. -/
theorem emptied?_eq_ite (hnames : (commands.commands.map (·.name)).Nodup)
    (hcmd : cmd ∈ commands.commands) (hused : ∀ p ∈ cmd.params, isActive p.base = true)
    (hinfo : info ∈ table.infos) {d : DestroyCommand} (hreset : info.resetCommand = some d)
    (hname : d.command = cmd.name) :
    ∃ parent pool rest found, cmd.params = parent :: pool :: rest ∧ pool.isValue = true ∧
      info.pool = some pool.base ∧ table.get? pool.base = some found ∧
      table.emptied? cmd =
        if table.takenFrom pool.base = [info.handle] then some (found, info) else none := by
  obtain ⟨id, hfound, hfirst⟩ := reset?_of_resetCommand h hnames hcmd hinfo hreset hname
  obtain ⟨-, hhandle, parent, pool, rest, hparams, hvalue, rfl⟩ := params_of_reset? hfound
  have hmemPool : pool ∈ cmd.params := by simp [hparams]
  obtain ⟨poolInfo, hpoolMem, hpoolHandle, hget⟩ := h.exists_get? (hused pool hmemPool) hhandle
  have hpool : info.pool = some pool.base :=
    (mem_takenFrom h.nodup hinfo).mp (List.mem_of_head? hfirst)
  refine ⟨parent, pool, rest, poolInfo, hparams, hvalue, hpool, hget, ?_⟩
  -- Whatever is found is the handle that records the command, and its pool.
  have honly : ∀ found, table.emptied? cmd = some found →
      found = (poolInfo, info) ∧ table.takenFrom pool.base = [info.handle] := by
    intro ⟨otherPool, other⟩ hother
    obtain ⟨hmem, ⟨e, he, hsame⟩, p, hp, hlast⟩ := emptied?_eq_some h hother
    obtain ⟨otherId, hotherFound, hotherFirst⟩ :=
      reset?_of_resetCommand h hnames hcmd hmem he hsame
    rw [hfound, Option.some.injEq, Prod.mk.injEq] at hotherFound
    rw [← hotherFound.1, hfirst, Option.some.injEq] at hotherFirst
    obtain rfl := List.inj_on_of_nodup_map h.nodup hmem hinfo hotherFirst.symm
    have hsamePool := (mem_takenFrom h.nodup hmem).mp (List.mem_of_getLast? hlast)
    rw [hpool, Option.some.injEq] at hsamePool
    rw [← hsamePool] at hp hlast
    rw [hget, Option.some.injEq] at hp
    exact ⟨by rw [hp], eq_singleton_of_nodup (nodup_takenFrom h.nodup _) hfirst hlast⟩
  by_cases hsole : table.takenFrom pool.base = [info.handle]
  · rw [if_pos hsole]
    obtain ⟨found, hsome⟩ : ∃ found, table.emptied? cmd = some found := by
      have helement : poolInfo.poolElement = some info.handle := by
        rw [h.elements poolInfo hpoolMem, hpoolHandle, hsole]
        rfl
      have htaken : table.get? info.handle = some info :=
        (get?_eq_some_iff h.nodup).mpr ⟨hinfo, rfl⟩
      rw [← Option.isSome_iff_exists, emptied?, List.findSome?_isSome_iff]
      exact ⟨pool, List.mem_filter.mpr ⟨hmemPool, hvalue⟩,
        by simp [hget, helement, htaken, hreset, hname]⟩
    rw [hsome, (honly found hsome).1]
  · rw [if_neg hsole, Option.eq_none_iff_forall_ne_some]
    intro found hsome
    exact hsole (honly found hsome).2

end HandleInfoTable

end VulkanRegistry
