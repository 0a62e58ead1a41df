/-
What the table of lifetimes records.

The table is made by passes.  Creating commands insert lifetimes and are listed by them, and
the handles in use that are left over are inserted; after that no lifetime is added, and each
pass sets a field of its own: what destroys the handle, what empties its pool, its kind of
object, what is taken from it.  So a field is what its pass made of it, and can be told from
the commands that were recognised (`Records`).

A query goes the other way, from the parameters of a command to lifetimes.  It finds what is
recorded under two conditions: no two commands have the same name, and the types of their
parameters are in use.
-/
import Mathlib.Data.List.Induction
import Mathlib.Data.List.Nodup
import VulkanRegistry.Lifetime
import VulkanRegistry.Proofs.TypeTable.Outline

namespace VulkanRegistry

namespace HandleInfoTable

open Lifetime

variable {table : HandleInfoTable} {types : TypeTable} {commands : CommandTable}
  {isActive : TypeId → Bool}

/-! ### Recognised commands -/

/-- What the creating commands are, in the order in which they are recorded. -/
def creations (types : TypeTable) (commands : CommandTable) : List Creation :=
  (creatingCommands commands).filterMap (creation? types)

/-- What the commands destroy or give back. -/
def endings (types : TypeTable) (commands : CommandTable) : List (TypeId × DestroyCommand) :=
  commands.commands.filterMap (ending? types)

/-- What the resetting commands empty. -/
def resets (types : TypeTable) (commands : CommandTable) : List (TypeId × DestroyCommand) :=
  (resetCommands.filterMap commands.get?).filterMap (reset? types)

/-- The handles that are taken from a pool. -/
def takenFrom (table : HandleInfoTable) (pool : TypeId) : List TypeId :=
  (table.infos.filter (·.pool == some pool)).map (·.handle)

/-- What a finished table says of its lifetimes: whose they are, the creating commands in
order, the first destroying command, for the first handle of a pool the command that empties
it, and for a pool the last handle taken from it. -/
structure Records (table : HandleInfoTable) (types : TypeTable) (commands : CommandTable)
    (isActive : TypeId → Bool) : Prop where
  nodup : (table.infos.map (·.handle)).Nodup
  handles : ∀ id, table.contains id = true ↔
    (∃ c ∈ creations types commands, c.handle = id) ∨
      (isActive id = true ∧ types.isHandle id = true)
  creates : ∀ info ∈ table.infos, info.createCommands =
    ((creations types commands).filter (·.handle == info.handle)).map (·.create)
  destroys : ∀ info ∈ table.infos, info.destroyCommand =
    ((endings types commands).find? (·.1 == info.handle)).map (·.2)
  empties : ∀ info ∈ table.infos, info.resetCommand =
    ((resets types commands).find? fun found =>
      (table.takenFrom found.1).head? == some info.handle).map (·.2)
  elements : ∀ info ∈ table.infos, info.poolElement = (table.takenFrom info.handle).getLast?

/-! ### Looking lifetimes up -/

theorem contains_iff {id : TypeId} :
    table.contains id = true ↔ id ∈ table.infos.map (·.handle) := by
  simp [contains, get?]

theorem get?_eq_some_iff (hnodup : (table.infos.map (·.handle)).Nodup) {id : TypeId}
    {info : HandleInfo} : table.get? id = some info ↔ info ∈ table.infos ∧ info.handle = id := by
  constructor
  · intro h
    exact ⟨List.mem_of_find?_eq_some h, by simpa using List.find?_some h⟩
  · intro ⟨hmem, hhandle⟩
    obtain ⟨found, hfound⟩ := Option.isSome_iff_exists.mp
      (contains_iff.mpr (List.mem_map.mpr ⟨info, hmem, hhandle⟩))
    have hsame : found.handle = id := by simpa using List.find?_some hfound
    rw [hfound, List.inj_on_of_nodup_map hnodup (List.mem_of_find?_eq_some hfound) hmem
      (hsame.trans hhandle.symm)]

/-! ### What a pass leaves alone -/

section Frame

variable {α β : Type} (part : HandleInfo → α)

theorem map_update {handle : TypeId} {f : HandleInfo → HandleInfo}
    (hf : ∀ info, part (f info) = part info) :
    (table.update handle f).infos.map part = table.infos.map part := by
  rw [update, List.map_map]
  refine List.map_congr_left fun info _ => ?_
  by_cases h : info.handle = handle
  · simp [h, hf]
  · simp [h]

theorem map_foldl {step : HandleInfoTable → β → HandleInfoTable}
    (hstep : ∀ table x, (step table x).infos.map part = table.infos.map part) (xs : List β) :
    (xs.foldl step table).infos.map part = table.infos.map part := by
  induction xs generalizing table with
  | nil => rfl
  | cons x xs ih => rw [List.foldl_cons, ih, hstep]

theorem map_addEnding (hpart : ∀ info d, part { info with destroyCommand := d } = part info)
    (found : TypeId × DestroyCommand) :
    (table.addEnding found).infos.map part = table.infos.map part :=
  map_update part fun info => hpart info _

theorem map_addReset (hpart : ∀ info d, part { info with resetCommand := d } = part info)
    (found : TypeId × DestroyCommand) :
    (table.addReset found).infos.map part = table.infos.map part := by
  unfold addReset
  split
  · rfl
  · exact map_update part fun info => hpart info _

theorem map_withObjectTypes (hpart : ∀ info o, part { info with objectType := o } = part info) :
    (table.withObjectTypes types).infos.map part = table.infos.map part := by
  have hvalue : ∀ (table : HandleInfoTable) value,
      (addObjectType types table value).infos.map part = table.infos.map part := by
    intro table value
    unfold addObjectType
    split
    · rfl
    · exact map_update part fun info => hpart info _
  rw [withObjectTypes, map_foldl part hvalue, List.map_map]
  exact List.map_congr_left fun info _ => hpart info _

theorem map_withPoolElements (hpart : ∀ info e, part { info with poolElement := e } = part info) :
    table.withPoolElements.infos.map part = table.infos.map part := by
  rw [withPoolElements, List.map_map]
  exact List.map_congr_left fun info _ => hpart info _

end Frame

/-- What is taken from which pool is told by the handles and their pools. -/
theorem takenFrom_congr {other : HandleInfoTable}
    (h : other.infos.map (fun info => (info.handle, info.pool)) =
      table.infos.map fun info => (info.handle, info.pool)) (pool : TypeId) :
    other.takenFrom pool = table.takenFrom pool := by
  have htold : ∀ t : HandleInfoTable, t.takenFrom pool =
      ((t.infos.map fun info => (info.handle, info.pool)).filter (·.2 == some pool)).map (·.1) := by
    intro t
    rw [List.filter_map, List.map_map]
    rfl
  rw [htold, htold, h]

/-! ### Whose lifetimes there are -/

theorem contains_insert {info : HandleInfo} {id : TypeId} :
    (table.insert info).contains id = true ↔ table.contains id = true ∨ info.handle = id := by
  unfold insert
  by_cases hknown : table.contains info.handle = true
  · rw [if_pos hknown]
    constructor
    · intro h
      exact Or.inl h
    · rintro (h | rfl)
      · exact h
      · exact hknown
  · rw [if_neg hknown, contains_iff, contains_iff]
    simp [eq_comm (a := id)]

theorem contains_addCreation {c : Creation} {id : TypeId} :
    (table.addCreation c).contains id = true ↔ table.contains id = true ∨ c.handle = id := by
  have hhandles : ((table.addCreation c).infos.map (·.handle)) =
      (table.insert (.bare c.handle c.parent c.pool)).infos.map (·.handle) :=
    map_update _ fun _ => rfl
  rw [contains_iff, hhandles, ← contains_iff, contains_insert]
  rfl

/-- A run whose steps each add one handle adds the handles of all its steps. -/
theorem contains_foldl {β : Type} {step : HandleInfoTable → β → HandleInfoTable}
    (handle : β → TypeId) {id : TypeId}
    (hstep : ∀ table x,
      (step table x).contains id = true ↔ table.contains id = true ∨ handle x = id)
    (xs : List β) :
    (xs.foldl step table).contains id = true ↔
      table.contains id = true ∨ ∃ x ∈ xs, handle x = id := by
  induction xs generalizing table with
  | nil => simp
  | cons x xs ih =>
      rw [List.foldl_cons, ih, hstep]
      simp [or_assoc]

theorem mem_bareInfos {info : HandleInfo} :
    info ∈ bareInfos types isActive ↔ ∃ id layout, isActive id = true ∧
      types.handle? id = some layout ∧ info = .bare id layout.parent none := by
  rw [bareInfos, List.mem_filterMap]
  constructor
  · intro ⟨⟨id, entry⟩, hentry, hbare⟩
    rw [TypeTable.mem_indexed] at hentry
    dsimp only at hbare
    by_cases hactive : isActive id = true
    · rw [if_pos hactive] at hbare
      obtain ⟨layout, hlayout, rfl⟩ := Option.map_eq_some_iff.mp hbare
      refine ⟨id, layout, hactive, ?_, rfl⟩
      simp [TypeTable.handle?, TypeTable.kind?, hentry, hlayout]
    · simp [hactive] at hbare
  · rintro ⟨id, layout, hactive, hlayout, rfl⟩
    obtain ⟨kind, hkind, hlayout⟩ := Option.bind_eq_some_iff.mp hlayout
    obtain ⟨entry, hentry, rfl⟩ := Option.map_eq_some_iff.mp hkind
    exact ⟨(id, entry), TypeTable.mem_indexed.mpr hentry, by simp [hactive, hlayout]⟩

/-- The handles in use are inserted. -/
theorem exists_mem_bareInfos {id : TypeId} :
    (∃ info ∈ bareInfos types isActive, info.handle = id) ↔
      isActive id = true ∧ types.isHandle id = true := by
  constructor
  · rintro ⟨info, hinfo, rfl⟩
    obtain ⟨id, layout, hactive, hlayout, rfl⟩ := mem_bareInfos.mp hinfo
    exact ⟨hactive, Option.isSome_iff_exists.mpr ⟨layout, hlayout⟩⟩
  · intro ⟨hactive, hhandle⟩
    obtain ⟨layout, hlayout⟩ := Option.isSome_iff_exists.mp hhandle
    exact ⟨_, mem_bareInfos.mpr ⟨id, layout, hactive, hlayout, rfl⟩, rfl⟩

/-! ### Creating commands -/

/-- A table that has recorded some creating commands and nothing else of them. -/
structure Created (table : HandleInfoTable) (recorded : List Creation) : Prop where
  nodup : (table.infos.map (·.handle)).Nodup
  covers : ∀ c ∈ recorded, table.contains c.handle = true
  creates : ∀ info ∈ table.infos,
    info.createCommands = (recorded.filter (·.handle == info.handle)).map (·.create)
  fresh : ∀ info ∈ table.infos, info.destroyCommand = none ∧ info.resetCommand = none

/-- A lifetime that is inserted is that of a handle which no recorded command creates. -/
theorem Created.insert {recorded : List Creation} (h : table.Created recorded) (handle : TypeId)
    (parent pool : Option TypeId) :
    (table.insert (.bare handle parent pool)).Created recorded := by
  by_cases hknown : table.contains handle = true
  · have hsame : table.insert (.bare handle parent pool) = table := if_pos hknown
    rwa [hsame]
  · have hinfos : (table.insert (.bare handle parent pool)).infos =
        table.infos ++ [.bare handle parent pool] := by
      have hadded : table.insert (.bare handle parent pool) =
          ⟨table.infos ++ [.bare handle parent pool]⟩ := if_neg hknown
      rw [hadded]
    refine ⟨?nodup, ?covers, ?creates, ?fresh⟩
    case nodup =>
      rw [hinfos, List.map_append, List.nodup_append]
      refine ⟨h.nodup, List.nodup_singleton _, ?_⟩
      intro other hother new hnew hsame
      rw [List.map_singleton, List.mem_singleton] at hnew
      rw [hsame, hnew, ← contains_iff] at hother
      exact hknown hother
    case covers =>
      intro c hc
      exact contains_insert.mpr (Or.inl (h.covers c hc))
    case creates =>
      rw [hinfos, List.forall_mem_append, List.forall_mem_singleton]
      refine ⟨h.creates, ?_⟩
      have hnone : recorded.filter (·.handle == handle) = [] := by
        rw [List.filter_eq_nil_iff]
        intro c hc hsame
        rw [beq_iff_eq] at hsame
        exact hknown (hsame ▸ h.covers c hc)
      show [] = (recorded.filter (·.handle == handle)).map (·.create)
      rw [hnone, List.map_nil]
    case fresh =>
      rw [hinfos, List.forall_mem_append, List.forall_mem_singleton]
      exact ⟨h.fresh, rfl, rfl⟩

/-- One more creating command is listed by the lifetime of its handle, and by no other. -/
theorem Created.addCreation {recorded : List Creation} (h : table.Created recorded)
    (c : Creation) : (table.addCreation c).Created (recorded ++ [c]) := by
  have hinserted := h.insert c.handle c.parent c.pool
  refine ⟨?nodup, ?covers, ?creates, ?fresh⟩
  case nodup =>
    rw [HandleInfoTable.addCreation, map_update (·.handle) fun info => by rfl]
    exact hinserted.nodup
  case covers =>
    intro other hother
    rw [contains_addCreation]
    rcases List.mem_append.mp hother with hother | hother
    · exact Or.inl (h.covers other hother)
    · exact Or.inr (by rw [List.mem_singleton.mp hother])
  case creates =>
    intro info hinfo
    obtain ⟨old, hold, rfl⟩ := List.mem_map.mp hinfo
    have hlisted := hinserted.creates old hold
    by_cases hsame : old.handle = c.handle
    · simp [hsame, hlisted, List.filter_append]
    · simp [hsame, hlisted, List.filter_append, Ne.symm hsame]
  case fresh =>
    intro info hinfo
    obtain ⟨old, hold, rfl⟩ := List.mem_map.mp hinfo
    have hfresh := hinserted.fresh old hold
    by_cases hsame : old.handle = c.handle
    · simpa [hsame] using hfresh
    · simpa [hsame] using hfresh

theorem created_foldl_addCreation (cs : List Creation) :
    (cs.foldl addCreation ⟨[]⟩).Created cs := by
  induction cs using List.reverseRecOn with
  | nil => exact ⟨List.nodup_nil, by simp, by simp, by simp⟩
  | append_singleton before c ih =>
      rw [List.foldl_append]
      exact ih.addCreation c

theorem Created.foldl_insert {recorded : List Creation} (h : table.Created recorded)
    {added : List HandleInfo}
    (hbare : ∀ info ∈ added, ∃ handle parent, info = .bare handle parent none) :
    (added.foldl HandleInfoTable.insert table).Created recorded := by
  induction added generalizing table with
  | nil => exact h
  | cons info added ih =>
      rw [List.forall_mem_cons] at hbare
      obtain ⟨⟨handle, parent, rfl⟩, hrest⟩ := hbare
      exact ih (h.insert handle parent none) hrest

/-! ### Destroying and resetting commands -/

/-- Of the commands that destroy a handle the first one counts. -/
theorem destroyCommand_foldl_addEnding
    (hfresh : ∀ info ∈ table.infos, info.destroyCommand = none)
    (found : List (TypeId × DestroyCommand)) :
    ∀ info ∈ (found.foldl addEnding table).infos,
      info.destroyCommand = (found.find? (·.1 == info.handle)).map (·.2) := by
  induction found using List.reverseRecOn with
  | nil => exact hfresh
  | append_singleton before last ih =>
      rw [List.foldl_append]
      intro info hinfo
      obtain ⟨old, hold, rfl⟩ := List.mem_map.mp hinfo
      have hbefore := ih old hold
      by_cases hsame : old.handle = last.1
      · simp [hsame, hbefore, List.find?_append]
      · simp [hsame, hbefore, List.find?_append, Ne.symm hsame]

theorem addReset_eq (found : TypeId × DestroyCommand) :
    (table.addReset found).infos = table.infos.map fun info =>
      if (table.takenFrom found.1).head? = some info.handle then
        { info with resetCommand := info.resetCommand <|> some found.2 }
      else info := by
  rw [takenFrom, List.head?_map, List.head?_filter, addReset]
  cases table.infos.find? (·.pool == some found.1) with
  | none => simp
  | some taken => simp [update, eq_comm (a := taken.handle)]

/-- Of the commands that empty a pool the first one counts, for the first handle of the pool. -/
theorem resetCommand_foldl_addReset (hfresh : ∀ info ∈ table.infos, info.resetCommand = none)
    (found : List (TypeId × DestroyCommand)) :
    ∀ info ∈ (found.foldl addReset table).infos,
      info.resetCommand = (found.find? fun reset =>
        (table.takenFrom reset.1).head? == some info.handle).map (·.2) := by
  induction found using List.reverseRecOn with
  | nil => exact hfresh
  | append_singleton before last ih =>
      have htaken : (before.foldl addReset table).takenFrom last.1 = table.takenFrom last.1 :=
        takenFrom_congr (map_foldl _ (fun _ => map_addReset _ fun _ _ => rfl) before) last.1
      rw [List.foldl_append]
      intro info hinfo
      rw [List.foldl_cons, List.foldl_nil, addReset_eq, htaken] at hinfo
      obtain ⟨old, hold, rfl⟩ := List.mem_map.mp hinfo
      have hbefore := ih old hold
      by_cases hfirst : (table.takenFrom last.1).head? = some old.handle
      · simp [hfirst, hbefore, List.find?_append]
      · simp [hfirst, hbefore, List.find?_append]

/-! ### The finished table -/

theorem forall_mem_of_map_eq {α β : Type} (part : α → β) (p : β → Prop) {xs ys : List α}
    (h : xs.map part = ys.map part) (hys : ∀ y ∈ ys, p (part y)) : ∀ x ∈ xs, p (part x) := by
  rw [← List.forall_mem_map (P := p), h, List.forall_mem_map]
  exact hys

/-- Kinds of objects and pools are linked last, and change nothing else. -/
theorem map_linked {α : Type} (part : HandleInfo → α)
    (hobject : ∀ info o, part { info with objectType := o } = part info)
    (helement : ∀ info e, part { info with poolElement := e } = part info) :
    (table.withObjectTypes types).withPoolElements.infos.map part = table.infos.map part :=
  (map_withPoolElements part helement).trans (map_withObjectTypes part hobject)

theorem poolElement_withPoolElements :
    ∀ info ∈ table.withPoolElements.infos,
      info.poolElement = (table.withPoolElements.takenFrom info.handle).getLast? := by
  intro info hinfo
  have htaken : table.withPoolElements.takenFrom info.handle = table.takenFrom info.handle :=
    takenFrom_congr (map_withPoolElements _ fun _ _ => rfl) _
  obtain ⟨old, -, rfl⟩ := List.mem_map.mp hinfo
  rw [htaken, takenFrom, List.getLast?_map]

/-- **The table is what its passes record.** -/
theorem records_ofCommands :
    (ofCommands types commands isActive).Records types commands isActive := by
  obtain ⟨all, hall⟩ : ∃ all, all = (bareInfos types isActive).foldl insert
    ((creations types commands).foldl addCreation ⟨[]⟩) := ⟨_, rfl⟩
  obtain ⟨ended, hended⟩ : ∃ ended, ended = (endings types commands).foldl addEnding all :=
    ⟨_, rfl⟩
  obtain ⟨emptied, hemptied⟩ : ∃ emptied, emptied = (resets types commands).foldl addReset ended :=
    ⟨_, rfl⟩
  have hfinal : ofCommands types commands isActive =
      (emptied.withObjectTypes types).withPoolElements := by
    rw [hemptied, hended, hall]
    rfl
  have hcreated : all.Created (creations types commands) := by
    rw [hall]
    refine (created_foldl_addCreation _).foldl_insert ?_
    intro info hinfo
    obtain ⟨id, layout, -, -, rfl⟩ := mem_bareInfos.mp hinfo
    exact ⟨id, layout.parent, rfl⟩
  -- What each pass leaves alone is read off the table in front of it.
  have hemptiedMap : ∀ {α : Type} (part : HandleInfo → α),
      (∀ info d, part { info with resetCommand := d } = part info) →
      emptied.infos.map part = ended.infos.map part := by
    intro α part hpart
    rw [hemptied]
    exact map_foldl part (fun _ => map_addReset part hpart) _
  have hendedMap : ∀ {α : Type} (part : HandleInfo → α),
      (∀ info d, part { info with destroyCommand := d } = part info) →
      ended.infos.map part = all.infos.map part := by
    intro α part hpart
    rw [hended]
    exact map_foldl part (fun _ => map_addEnding part hpart) _
  have hhandles : (ofCommands types commands isActive).infos.map (·.handle) =
      all.infos.map (·.handle) := by
    rw [hfinal, map_linked _ (fun _ _ => rfl) (fun _ _ => rfl), hemptiedMap _ (fun _ _ => rfl),
      hendedMap _ (fun _ _ => rfl)]
  refine ⟨?nodup, ?handles, ?creates, ?destroys, ?empties, ?elements⟩
  case nodup =>
    rw [hhandles]
    exact hcreated.nodup
  case handles =>
    intro id
    rw [contains_iff, hhandles, ← contains_iff, hall,
      contains_foldl (·.handle) (fun _ _ => contains_insert),
      contains_foldl (·.handle) (fun _ _ => contains_addCreation),
      exists_mem_bareInfos]
    simp [contains, get?]
  case creates =>
    refine forall_mem_of_map_eq (fun info : HandleInfo => (info.handle, info.createCommands))
      (fun told => told.2 = ((creations types commands).filter (·.handle == told.1)).map (·.create))
      ?_ hcreated.creates
    rw [hfinal, map_linked _ (fun _ _ => rfl) (fun _ _ => rfl), hemptiedMap _ (fun _ _ => rfl),
      hendedMap _ (fun _ _ => rfl)]
  case destroys =>
    have hfresh : ∀ info ∈ all.infos, info.destroyCommand = none :=
      fun info hinfo => (hcreated.fresh info hinfo).1
    have hdestroys := destroyCommand_foldl_addEnding hfresh (endings types commands)
    rw [← hended] at hdestroys
    refine forall_mem_of_map_eq (fun info : HandleInfo => (info.handle, info.destroyCommand))
      (fun told => told.2 = ((endings types commands).find? (·.1 == told.1)).map (·.2))
      ?_ hdestroys
    rw [hfinal, map_linked _ (fun _ _ => rfl) (fun _ _ => rfl), hemptiedMap _ (fun _ _ => rfl)]
  case empties =>
    have hfresh : ∀ info ∈ ended.infos, info.resetCommand = none :=
      forall_mem_of_map_eq (·.resetCommand) (· = none) (hendedMap _ fun _ _ => rfl)
        fun info hinfo => (hcreated.fresh info hinfo).2
    have hempties := resetCommand_foldl_addReset hfresh (resets types commands)
    rw [← hemptied] at hempties
    have htaken : ∀ pool, (ofCommands types commands isActive).takenFrom pool =
        ended.takenFrom pool := by
      refine takenFrom_congr ?_
      rw [hfinal, map_linked _ (fun _ _ => rfl) (fun _ _ => rfl), hemptiedMap _ (fun _ _ => rfl)]
    simp only [htaken]
    refine forall_mem_of_map_eq (fun info : HandleInfo => (info.handle, info.resetCommand))
      (fun told => told.2 = ((resets types commands).find? fun found =>
        (ended.takenFrom found.1).head? == some told.1).map (·.2)) ?_ hempties
    rw [hfinal, map_linked _ (fun _ _ => rfl) (fun _ _ => rfl)]
  case elements =>
    rw [hfinal]
    exact poolElement_withPoolElements

end HandleInfoTable

end VulkanRegistry
