/-
Putting things into buckets.

A bucket is chosen by the name of a platform, and nothing that is put into a bucket changes
its name.  So where a thing goes does not depend on what has been put before it, and a run
over a list leaves in every bucket the things that go there, in the order of the list
(`platforms_foldl`).  As everything goes somewhere, the buckets together hold the whole list,
each entry of it once (`Shares.perm`).
-/
import Mathlib.Data.List.Nodup
import Mathlib.Data.List.Perm.Basic
import VulkanRegistry.Platform

namespace VulkanRegistry

namespace Platform

/-- Puts types into a bucket. -/
def withTypes (ids : List TypeId) (p : Platform) : Platform :=
  { p with types := p.types ++ ids }

/-- Puts commands into a bucket. -/
def withCommands (names : List String) (p : Platform) : Platform :=
  { p with commands := p.commands ++ names }

/-- Puts values into a bucket. -/
def withValues (values : List ValueRef) (p : Platform) : Platform :=
  { p with enumValues := p.enumValues ++ values }

/-- Puts extensions into a bucket. -/
def withExtensions (names : List String) (p : Platform) : Platform :=
  { p with extensions := p.extensions ++ names }

end Platform

/-! ### Lists split by slots -/

section Slots

variable {α : Type} {slotOf : α → Nat}

/-- A list that is split by slots is there as a whole. -/
theorem perm_flatMap_filter {items : List α} {n : Nat} (h : ∀ x ∈ items, slotOf x < n) :
    ((List.range n).flatMap fun k => items.filter (slotOf · == k)).Perm items := by
  induction n generalizing items with
  | zero =>
      have hnil : items = [] := List.eq_nil_iff_forall_not_mem.mpr fun x hx => by simpa using h x hx
      rw [hnil]
      exact List.Perm.refl _
  | succ n ih =>
      have hrest : ∀ x ∈ items.filter (fun x => !(slotOf x == n)), slotOf x < n := by
        intro x hx
        obtain ⟨hmem, hne⟩ := List.mem_filter.mp hx
        have hlt := h x hmem
        have hne' : slotOf x ≠ n := by simpa using hne
        omega
      have hsame : ((List.range n).flatMap fun k => items.filter (slotOf · == k)) =
          (List.range n).flatMap fun k =>
            (items.filter fun x => !(slotOf x == n)).filter (slotOf · == k) := by
        refine List.flatMap_congr fun k hk => ?_
        rw [List.filter_filter]
        refine List.filter_congr fun x _ => ?_
        have hlt := List.mem_range.mp hk
        by_cases hslot : slotOf x = k
        · have hne : ¬ k = n := by omega
          simp [hslot, hne]
        · simp [hslot]
      have hlast : [n].flatMap (fun k => items.filter (slotOf · == k)) =
          items.filter (slotOf · == n) := by simp
      rw [List.range_succ, List.flatMap_append, hsame, hlast]
      exact ((ih hrest).append_right _).trans
        (List.perm_append_comm.trans (List.filter_append_perm _ items))

variable {β : Type} {buckets : List Platform} {content : Platform → List β} {items : List α}
  {f : α → β}

/-- The buckets share out the items: each holds those of its slot, in order. -/
def Shares (buckets : List Platform) (content : Platform → List β) (items : List α) (f : α → β)
    (slotOf : α → Nat) : Prop :=
  ∀ k p, buckets[k]? = some p → content p = (items.filter (slotOf · == k)).map f

namespace Shares

variable (h : Shares buckets content items f slotOf)

include h

theorem perm (hlt : ∀ x ∈ items, slotOf x < buckets.length) :
    (buckets.flatMap content).Perm (items.map f) := by
  have hcontents : buckets.map content =
      (List.range buckets.length).map fun k => (items.filter (slotOf · == k)).map f := by
    refine List.ext_getElem? fun k => ?_
    rw [List.getElem?_map, List.getElem?_map]
    cases hbucket : buckets[k]? with
    | none =>
        have hle := List.getElem?_eq_none_iff.mp hbucket
        have hnone : (List.range buckets.length)[k]? = none := by
          rw [List.getElem?_eq_none_iff, List.length_range]
          exact hle
        rw [hnone]
        rfl
    | some p =>
        have hk := (List.getElem?_eq_some_iff.mp hbucket).1
        rw [List.getElem?_range hk, Option.map_some, Option.map_some, h k p hbucket]
  have hjoined : buckets.flatMap content =
      ((List.range buckets.length).flatMap fun k => items.filter (slotOf · == k)).map f := by
    rw [List.flatMap_def, hcontents, List.map_flatMap, ← List.flatMap_def]
  rw [hjoined]
  exact (perm_flatMap_filter hlt).map f

theorem sublist {p : Platform} (hp : p ∈ buckets) : (content p).Sublist (items.map f) := by
  obtain ⟨k, hk⟩ := List.mem_iff_getElem?.mp hp
  rw [h k p hk]
  exact List.filter_sublist.map f

theorem mem_iff {k : Nat} {p : Platform} (hp : buckets[k]? = some p) {y : β} :
    y ∈ content p ↔ ∃ x ∈ items, slotOf x = k ∧ f x = y := by
  rw [h k p hp]
  simp [and_assoc]

end Shares

/-- In a list without repeated keys, what is noted under a key is what is looked up. -/
theorem lookup_eq_some_iff_mem [DecidableEq β] {notes : List (β × Nat)}
    (hnodup : (notes.map (·.1)).Nodup) {y : β} {k : Nat} :
    notes.lookup y = some k ↔ (y, k) ∈ notes := by
  induction notes with
  | nil => simp
  | cons note notes ih =>
      obtain ⟨key, slot⟩ := note
      obtain ⟨hnew, hrest⟩ := List.nodup_cons.mp hnodup
      rw [List.lookup_cons]
      by_cases hkey : y = key
      · subst hkey
        have hother : (y, k) ∉ notes := fun hmem => hnew (List.mem_map.mpr ⟨_, hmem, rfl⟩)
        simp [hother, eq_comm]
      · have hbeq : (y == key) = false := by simpa using hkey
        simp [hbeq, hkey, ih hrest]

end Slots

namespace PlatformTable

/-! ### Guards -/

/-- Where the slot of every item is noted under its name, the guard that is looked up is that
of the bucket that holds the item. -/
theorem guard_of_notes {α β : Type} [DecidableEq β] {table : PlatformTable}
    {content : Platform → List β} {items : List α} {f : α → β} {slotOf : α → Nat}
    (hshares : Shares table.platforms content items f slotOf) (hnodup : (items.map f).Nodup)
    (hlt : ∀ x ∈ items, slotOf x < table.platforms.length) {notes : List (β × Nat)}
    (hnotes : notes = (items.map fun x => (f x, slotOf x)).reverse) (y : β) :
    (∀ p ∈ table.platforms, y ∈ content p →
      (notes.lookup y).bind table.guardAt? = some p.guard) ∧
    ((notes.lookup y).bind table.guardAt? = none ↔ ∀ p ∈ table.platforms, y ∉ content p) := by
  have hkeys : (notes.map (·.1)).Nodup := by
    rw [hnotes, List.map_reverse, List.nodup_reverse, List.map_map]
    exact hnodup
  have hlookup : ∀ k, notes.lookup y = some k ↔ ∃ x ∈ items, slotOf x = k ∧ f x = y := by
    intro k
    rw [lookup_eq_some_iff_mem hkeys, hnotes, List.mem_reverse, List.mem_map]
    simp [and_comm]
  have hfound : ∀ p ∈ table.platforms, y ∈ content p →
      (notes.lookup y).bind table.guardAt? = some p.guard := by
    intro p hp hy
    obtain ⟨k, hk⟩ := List.mem_iff_getElem?.mp hp
    have hslot := (hlookup k).mpr ((hshares.mem_iff hk).mp hy)
    rw [hslot, Option.bind_some, guardAt?, hk]
    rfl
  refine ⟨hfound, ?_⟩
  constructor
  · intro hnone p hp hy
    rw [hfound p hp hy] at hnone
    simp at hnone
  · intro hall
    cases hslot : notes.lookup y with
    | none => rfl
    | some k =>
        obtain ⟨x, hx, hk, hy⟩ := (hlookup k).mp hslot
        have hin : k < table.platforms.length := by
          rw [← hk]
          exact hlt x hx
        have hbucket := List.getElem?_eq_getElem hin
        exact absurd ((hshares.mem_iff hbucket).mpr ⟨x, hx, hk, hy⟩)
          (hall _ (List.getElem_mem hin))

/-! ### Slots -/

/-- The names of the buckets. -/
def names (table : PlatformTable) : List String :=
  table.platforms.map (·.name)

theorem slot_eq_of_names {table other : PlatformTable} (h : other.names = table.names)
    (platform : Option String) : other.slot platform = table.slot platform := by
  have hslot : ∀ (t : PlatformTable) (name : String),
      t.platforms.findIdx? (·.name == name) = t.names.findIdx? (· == name) := by
    intro t name
    rw [names, List.findIdx?_map]
    rfl
  simp only [slot, hslot, h]

theorem slot_lt {table : PlatformTable} (h : 0 < table.platforms.length)
    (platform : Option String) : table.slot platform < table.platforms.length := by
  unfold slot
  cases hfound : platform.bind fun name => table.platforms.findIdx? (·.name == name) with
  | none => exact h
  | some k =>
      obtain ⟨name, -, hfind⟩ := Option.bind_eq_some_iff.mp hfound
      exact (List.findIdx?_eq_some_iff_getElem.mp hfind).1

/-! ### Runs -/

/-- What no step changes, a run does not change. -/
theorem foldl_eq_of_keeps {α γ : Type} {step : PlatformTable → α → PlatformTable}
    (read : PlatformTable → γ) (hkeep : ∀ table x, read (step table x) = read table) (xs : List α)
    (table : PlatformTable) : read (xs.foldl step table) = read table := by
  induction xs generalizing table with
  | nil => rfl
  | cons x xs ih => rw [List.foldl_cons, ih, hkeep]

variable {α : Type} {step : PlatformTable → α → PlatformTable} {place : α → Option String}
  {fill : List α → Platform → Platform} {table : PlatformTable}

/-- A step puts an item into the bucket of its platform; `fill` puts items in one by one. -/
structure Puts (step : PlatformTable → α → PlatformTable) (place : α → Option String)
    (fill : List α → Platform → Platform) : Prop where
  step : ∀ table x, (step table x).platforms = (table.update (place x) (fill [x])).platforms
  nil : ∀ p, fill [] p = p
  cons : ∀ x xs p, fill xs (fill [x] p) = fill (x :: xs) p
  name : ∀ xs p, (fill xs p).name = p.name

namespace Puts

variable (h : Puts step place fill)

include h

theorem names_step (x : α) : (step table x).names = table.names := by
  refine List.ext_getElem? fun k => ?_
  rw [names, names, h.step, update, List.getElem?_map, List.getElem?_map, List.getElem?_modify]
  cases table.platforms[k]? with
  | none => rfl
  | some p =>
      by_cases hk : table.slot (place x) = k
      · simp [hk, h.name]
      · simp [hk]

/-- A run leaves in each bucket what goes there, in order. -/
theorem platforms_foldl (xs : List α) :
    (xs.foldl step table).platforms =
      table.platforms.mapIdx fun k => fill (xs.filter fun x => table.slot (place x) == k) := by
  induction xs generalizing table with
  | nil =>
      refine List.ext_getElem? fun k => ?_
      rw [List.getElem?_mapIdx]
      cases hbucket : table.platforms[k]? <;> simp [hbucket, h.nil]
  | cons x xs ih =>
      have hslot : (step table x).slot = table.slot :=
        funext (slot_eq_of_names (h.names_step x))
      rw [List.foldl_cons, ih, hslot, h.step, update]
      refine List.ext_getElem? fun k => ?_
      rw [List.getElem?_mapIdx, List.getElem?_mapIdx, List.getElem?_modify]
      cases table.platforms[k]? with
      | none => rfl
      | some p =>
          by_cases hk : table.slot (place x) = k
          · simp [hk, h.cons]
          · simp [hk]

theorem names_foldl (xs : List α) : (xs.foldl step table).names = table.names := by
  induction xs generalizing table with
  | nil => rfl
  | cons x xs ih => rw [List.foldl_cons, ih, h.names_step]

/-- A run notes the slot of every item, the latest first. -/
theorem notes_foldl {β : Type} {notes : PlatformTable → List (β × Nat)} {key : α → β}
    (hnotes : ∀ table x, notes (step table x) = (key x, table.slot (place x)) :: notes table)
    (xs : List α) :
    notes (xs.foldl step table) =
      (xs.map fun x => (key x, table.slot (place x))).reverse ++ notes table := by
  induction xs generalizing table with
  | nil => rfl
  | cons x xs ih =>
      have hslot : (step table x).slot = table.slot :=
        funext (slot_eq_of_names (h.names_step x))
      rw [List.foldl_cons, ih, hslot, hnotes]
      simp

end Puts

/-! ### Extensions, types, commands and values -/

theorem puts_addExtension :
    Puts addExtension (·.platform) fun exts => Platform.withExtensions (exts.map (·.name)) where
  step _ _ := rfl
  nil p := by simp [Platform.withExtensions]
  cons x xs p := by simp [Platform.withExtensions]
  name _ _ := rfl

theorem puts_addType (place : TypeId → Option String) :
    Puts (fun table id => table.addType id (place id)) place Platform.withTypes where
  step _ _ := rfl
  nil p := by simp [Platform.withTypes]
  cons x xs p := by simp [Platform.withTypes]
  name _ _ := rfl

theorem puts_addCommand (key : α → String) (place : α → Option String) :
    Puts (fun table x => table.addCommand (key x) (place x)) place
      fun xs => Platform.withCommands (xs.map key) where
  step _ _ := rfl
  nil p := by simp [Platform.withCommands]
  cons x xs p := by simp [Platform.withCommands]
  name _ _ := rfl

theorem puts_addValue (key : α → ValueRef) (place : α → Option String) :
    Puts (fun table x => table.addValue (key x) (place x)) place
      fun xs => Platform.withValues (xs.map key) where
  step _ _ := rfl
  nil p := by simp [Platform.withValues]
  cons x xs p := by simp [Platform.withValues]
  name _ _ := rfl

/-- The buckets have no contents, there is a first one, and no slot is noted. -/
structure Blank (start : PlatformTable) : Prop where
  buckets : ∀ p ∈ start.platforms, p = Platform.empty p.name p.guard p.comment
  core : 0 < start.platforms.length
  typeSlots : start.typeSlots = []
  commandSlots : start.commandSlots = []

/-- Things to be put into buckets, each with where it goes. -/
structure Contents (γ δ : Type) where
  extensions : List Extension
  types : List TypeId
  placeType : TypeId → Option String
  commands : List (String × γ)
  placeCommand : String × γ → Option String
  values : List (ValueRef × δ)
  placeValue : ValueRef × δ → Option String

namespace Contents

variable {γ δ : Type} (contents : Contents γ δ) (start : PlatformTable)

/-- The buckets with extensions in them. -/
def withExtensions : PlatformTable :=
  contents.extensions.foldl addExtension start

/-- The buckets with types in them, too. -/
def withTypes : PlatformTable :=
  contents.types.foldl (fun table id => table.addType id (contents.placeType id))
    (contents.withExtensions start)

/-- The buckets with commands in them, too. -/
def withCommands : PlatformTable :=
  contents.commands.foldl (fun table x => table.addCommand x.1 (contents.placeCommand x))
    (contents.withTypes start)

/-- The buckets with everything in them. -/
def filled : PlatformTable :=
  contents.values.foldl (fun table x => table.addValue x.1 (contents.placeValue x))
    (contents.withCommands start)

/-- What ends up in the bucket at a place. -/
def fillBucket (k : Nat) (p : Platform) : Platform :=
  { p with
    types := p.types ++ contents.types.filter fun id => start.slot (contents.placeType id) == k
    commands := p.commands ++
      (contents.commands.filter fun x => start.slot (contents.placeCommand x) == k).map (·.1)
    enumValues := p.enumValues ++
      (contents.values.filter fun x => start.slot (contents.placeValue x) == k).map (·.1)
    extensions := p.extensions ++
      (contents.extensions.filter fun x => start.slot x.platform == k).map (·.name) }

theorem slot_withExtensions : (contents.withExtensions start).slot = start.slot :=
  funext (slot_eq_of_names (puts_addExtension.names_foldl _))

theorem slot_withTypes : (contents.withTypes start).slot = start.slot := by
  rw [← contents.slot_withExtensions start]
  exact funext (slot_eq_of_names ((puts_addType _).names_foldl _))

theorem slot_withCommands : (contents.withCommands start).slot = start.slot := by
  rw [← contents.slot_withTypes start]
  exact funext (slot_eq_of_names ((puts_addCommand _ _).names_foldl _))

/-- Things go to the same places before and after. -/
theorem slot_filled : (contents.filled start).slot = start.slot := by
  rw [← contents.slot_withCommands start]
  exact funext (slot_eq_of_names ((puts_addValue _ _).names_foldl _))

theorem platforms_filled :
    (contents.filled start).platforms = start.platforms.mapIdx (contents.fillBucket start) := by
  rw [filled, (puts_addValue _ _).platforms_foldl, slot_withCommands, withCommands,
    (puts_addCommand _ _).platforms_foldl, slot_withTypes, withTypes,
    (puts_addType _).platforms_foldl, slot_withExtensions, withExtensions,
    puts_addExtension.platforms_foldl, List.mapIdx_mapIdx, List.mapIdx_mapIdx, List.mapIdx_mapIdx]
  rfl

/-- The slots of types are noted when types are put into buckets, and at no other time. -/
theorem typeSlots_filled :
    (contents.filled start).typeSlots =
      (contents.types.map fun id => (id, start.slot (contents.placeType id))).reverse ++
        start.typeSlots := by
  calc (contents.filled start).typeSlots
    _ = (contents.withCommands start).typeSlots :=
        foldl_eq_of_keeps typeSlots (by intro _ _; rfl) _ _
    _ = (contents.withTypes start).typeSlots :=
        foldl_eq_of_keeps typeSlots (by intro _ _; rfl) _ _
    _ = (contents.types.map fun id =>
          (id, (contents.withExtensions start).slot (contents.placeType id))).reverse ++
            (contents.withExtensions start).typeSlots :=
        (puts_addType contents.placeType).notes_foldl (fun _ _ => rfl) _
    _ = _ := by
        rw [slot_withExtensions]
        exact congrArg _ (foldl_eq_of_keeps typeSlots (by intro _ _; rfl) _ _)

theorem commandSlots_filled :
    (contents.filled start).commandSlots =
      (contents.commands.map fun x => (x.1, start.slot (contents.placeCommand x))).reverse ++
        start.commandSlots := by
  have htypes : (contents.withTypes start).commandSlots = start.commandSlots :=
    (foldl_eq_of_keeps commandSlots (by intro _ _; rfl) _ _).trans
      (foldl_eq_of_keeps commandSlots (by intro _ _; rfl) _ _)
  calc (contents.filled start).commandSlots
    _ = (contents.withCommands start).commandSlots :=
        foldl_eq_of_keeps commandSlots (by intro _ _; rfl) _ _
    _ = (contents.commands.map fun x =>
          (x.1, (contents.withTypes start).slot (contents.placeCommand x))).reverse ++
            (contents.withTypes start).commandSlots :=
        (puts_addCommand (fun x => x.1) contents.placeCommand).notes_foldl (fun _ _ => rfl) _
    _ = _ := by rw [slot_withTypes, htypes]

/-! ### Filling empty buckets -/

variable {start}

theorem exists_bucket {k : Nat} {p : Platform}
    (h : (contents.filled start).platforms[k]? = some p) :
    ∃ q, start.platforms[k]? = some q ∧ contents.fillBucket start k q = p := by
  rw [platforms_filled, List.getElem?_mapIdx] at h
  exact Option.map_eq_some_iff.mp h

theorem length_filled :
    (contents.filled start).platforms.length = start.platforms.length := by
  rw [platforms_filled, List.length_mapIdx]

theorem slot_lt_filled (hblank : start.Blank) (platform : Option String) :
    start.slot platform < (contents.filled start).platforms.length := by
  rw [length_filled]
  exact slot_lt hblank.core platform

theorem shares_types (hblank : start.Blank) :
    Shares (contents.filled start).platforms (·.types) contents.types (fun id => id)
      fun id => start.slot (contents.placeType id) := by
  intro k p hp
  obtain ⟨q, hq, rfl⟩ := contents.exists_bucket hp
  have hnil : q.types = [] := by rw [hblank.buckets q (List.mem_of_getElem? hq), Platform.empty]
  simp [fillBucket, hnil]

theorem shares_commands (hblank : start.Blank) :
    Shares (contents.filled start).platforms (·.commands) contents.commands (·.1)
      fun x => start.slot (contents.placeCommand x) := by
  intro k p hp
  obtain ⟨q, hq, rfl⟩ := contents.exists_bucket hp
  have hnil : q.commands = [] := by rw [hblank.buckets q (List.mem_of_getElem? hq), Platform.empty]
  simp [fillBucket, hnil]

theorem shares_values (hblank : start.Blank) :
    Shares (contents.filled start).platforms (·.enumValues) contents.values (·.1)
      fun x => start.slot (contents.placeValue x) := by
  intro k p hp
  obtain ⟨q, hq, rfl⟩ := contents.exists_bucket hp
  have hnil : q.enumValues = [] := by
    rw [hblank.buckets q (List.mem_of_getElem? hq), Platform.empty]
  simp [fillBucket, hnil]

theorem shares_extensions (hblank : start.Blank) :
    Shares (contents.filled start).platforms (·.extensions) contents.extensions (·.name)
      fun x => start.slot x.platform := by
  intro k p hp
  obtain ⟨q, hq, rfl⟩ := contents.exists_bucket hp
  have hnil : q.extensions = [] := by
    rw [hblank.buckets q (List.mem_of_getElem? hq), Platform.empty]
  simp [fillBucket, hnil]

/-- The guard of a type is that of the bucket that lists it. -/
theorem guardOfType?_filled (hblank : start.Blank) (hnodup : contents.types.Nodup) (id : TypeId) :
    (∀ p ∈ (contents.filled start).platforms, id ∈ p.types →
      (contents.filled start).guardOfType? id = some p.guard) ∧
    ((contents.filled start).guardOfType? id = none ↔
      ∀ p ∈ (contents.filled start).platforms, id ∉ p.types) := by
  refine guard_of_notes (contents.shares_types hblank) ?_
    (fun _ _ => contents.slot_lt_filled hblank _) ?_ id
  · simpa using hnodup
  · rw [typeSlots_filled, hblank.typeSlots, List.append_nil]

/-- The guard of a command is that of the bucket that lists it. -/
theorem guardOfCommand?_filled (hblank : start.Blank) (hnodup : (contents.commands.map (·.1)).Nodup)
    (name : String) :
    (∀ p ∈ (contents.filled start).platforms, name ∈ p.commands →
      (contents.filled start).guardOfCommand? name = some p.guard) ∧
    ((contents.filled start).guardOfCommand? name = none ↔
      ∀ p ∈ (contents.filled start).platforms, name ∉ p.commands) := by
  refine guard_of_notes (contents.shares_commands hblank) hnodup
    (fun _ _ => contents.slot_lt_filled hblank _) ?_ name
  rw [commandSlots_filled, hblank.commandSlots, List.append_nil]

end Contents

end PlatformTable

end VulkanRegistry
