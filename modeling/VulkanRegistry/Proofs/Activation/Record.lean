/-
The records of a set of what is in use.

Types and commands are treated alike: directives require and remove both, and both inherit
origins from what mentions them.  So a type and a command are each an `Entity` here, with
one record, and one lemma says what an update does: it changes the record of the entity
that is meant, if the set has one, and no other (`record_update`).
-/
import VulkanRegistry.Activation.Basic

namespace VulkanRegistry

/-- What can be in use: a type by its id, or a command by its place in the document. -/
inductive Entity
  | type (id : TypeId)
  | command (place : Nat)
  deriving DecidableEq, Repr

namespace Activation

theorem isActive_iff {a : Activation} : a.isActive = true ↔ ∃ o, o ∈ a.origins := by
  cases a with
  | mk origins removed => cases origins <;> simp [isActive]

@[simp] theorem removed_require (a : Activation) (origins : List Origin) :
    (a.require origins).removed = false := rfl

theorem mem_origins_require {a : Activation} {origins : List Origin} {o : Origin} :
    o ∈ (a.require origins).origins ↔ o ∈ origins ∨ o ∈ a.origins :=
  Origin.mem_insertAll

end Activation

namespace ActiveSet

/-- The record of an entity. -/
def record (set : ActiveSet) : Entity → Activation
  | .type id => set.typeAt id
  | .command place => set.commandAt place

/-- The set has a record of the entity. -/
def Holds (set : ActiveSet) : Entity → Prop
  | .type id => id.index < set.types.length
  | .command place => place < set.commands.length

/-- Changes the record of an entity. -/
def update (set : ActiveSet) (e : Entity) (f : Activation → Activation) : ActiveSet :=
  match e with
  | .type id => { set with types := set.types.modify id.index f }
  | .command place => { set with commands := set.commands.modify place f }

theorem requireType_eq_update (set : ActiveSet) (id : TypeId) (origins : List Origin) :
    set.requireType id origins = set.update (.type id) (·.require origins) := rfl

theorem requireCommand_eq_update (set : ActiveSet) (place : Nat) (origins : List Origin) :
    set.requireCommand place origins = set.update (.command place) (·.require origins) := rfl

/-- The two lists of records have these lengths. -/
def Sized (set : ActiveSet) (typeCount commandCount : Nat) : Prop :=
  set.types.length = typeCount ∧ set.commands.length = commandCount

theorem sized_idle (typeCount commandCount : Nat) :
    (idle typeCount commandCount).Sized typeCount commandCount := by
  simp [Sized, idle]

theorem Sized.update {set : ActiveSet} {typeCount commandCount : Nat}
    (h : set.Sized typeCount commandCount) (e : Entity) (f : Activation → Activation) :
    (set.update e f).Sized typeCount commandCount := by
  cases e <;> simpa [Sized, ActiveSet.update] using h

/-! ### Reading a record after an update -/

theorem getD_modify {list : List Activation} {i j : Nat} {f : Activation → Activation}
    (hi : i < list.length) :
    ((list.modify i f)[j]?).getD .idle =
      if j = i then f ((list[i]?).getD .idle) else (list[j]?).getD .idle := by
  rw [List.getElem?_modify]
  by_cases hij : j = i
  · subst hij
    simp [hi]
  · have hne : i ≠ j := fun h => hij h.symm
    simp [hij, hne]

/-- An update changes the record of its entity and no other. -/
theorem record_update {set : ActiveSet} {e : Entity} {f : Activation → Activation}
    (he : set.Holds e) (x : Entity) :
    (set.update e f).record x = if x = e then f (set.record e) else set.record x := by
  cases e with
  | type id =>
      cases x with
      | type t =>
          have hext : t = id ↔ t.index = id.index := by
            cases t; cases id; simp
          simp only [record, typeAt, update, getD_modify he, Entity.type.injEq, hext]
      | command place => simp [record, commandAt, update]
  | command place =>
      cases x with
      | type t => simp [record, typeAt, update]
      | command p => simp only [record, commandAt, update, getD_modify he, Entity.command.injEq]

/-- A require adds its origins to the entity that is meant and to no other. -/
theorem mem_origins_update_require {set : ActiveSet} {e x : Entity} {origins : List Origin}
    {o : Origin} (he : set.Holds e) :
    o ∈ ((set.update e (·.require origins)).record x).origins ↔
      (x = e ∧ o ∈ origins) ∨ o ∈ (set.record x).origins := by
  rw [record_update he]
  by_cases hx : x = e
  · rw [if_pos hx, Activation.mem_origins_require, hx]
    simp
  · rw [if_neg hx]
    simp [hx]

@[simp] theorem values_update (set : ActiveSet) (e : Entity) (f : Activation → Activation) :
    (set.update e f).values = set.values := by
  cases e <;> rfl

@[simp] theorem removedValues_update (set : ActiveSet) (e : Entity)
    (f : Activation → Activation) : (set.update e f).removedValues = set.removedValues := by
  cases e <;> rfl

theorem record_idle (typeCount commandCount : Nat) (e : Entity) :
    (idle typeCount commandCount).record e = .idle := by
  cases e with
  | type id =>
      by_cases h : id.index < typeCount <;> simp [record, typeAt, idle, h]
  | command place =>
      by_cases h : place < commandCount <;>
        simp [record, commandAt, idle, h]

/-- A set has a record of whatever is active in it. -/
theorem holds_of_isActive {set : ActiveSet} {e : Entity} (h : (set.record e).isActive = true) :
    set.Holds e := by
  cases e with
  | type id =>
      refine Nat.lt_of_not_le fun hle => ?_
      have hnone : set.types[id.index]? = none := List.getElem?_eq_none hle
      simp [record, typeAt, hnone, Activation.idle, Activation.isActive] at h
  | command place =>
      refine Nat.lt_of_not_le fun hle => ?_
      have hnone : set.commands[place]? = none := List.getElem?_eq_none hle
      simp [record, commandAt, hnone, Activation.idle, Activation.isActive] at h

/-- Two sets with the same records of types and commands. -/
theorem record_congr {set other : ActiveSet} (htypes : other.types = set.types)
    (hcommands : other.commands = set.commands) (e : Entity) : other.record e = set.record e := by
  cases e with
  | type id => simp only [record, typeAt, htypes]
  | command place => simp only [record, commandAt, hcommands]

end ActiveSet

end VulkanRegistry
