/-
Which entities are in use.

For every type and every command there is one record of its origins: an entity is active
while it has some.  Removing an entity forgets its origins and marks it, requiring it
again clears the mark.  Values that directives add to enumerations are kept in the order
in which they are added, and the names of removed values beside them.
-/
import VulkanRegistry.Enumeration.Value
import VulkanRegistry.Member.Basic
import VulkanRegistry.Origin

namespace VulkanRegistry

/-- Whether and why an entity is in use. -/
structure Activation where
  /-- The versions and extensions that bring the entity in, in ascending order. -/
  origins : List Origin
  /-- A directive took the entity out and none brought it back. -/
  removed : Bool
  deriving DecidableEq, Repr, Inhabited

namespace Activation

/-- Not in use. -/
def idle : Activation := ⟨[], false⟩

/-- The entity is in use. -/
def isActive (a : Activation) : Bool :=
  !a.origins.isEmpty

/-- Brings the entity in for some origins. -/
def require (a : Activation) (origins : List Origin) : Activation :=
  ⟨Origin.insertAll origins a.origins, false⟩

/-- Takes the entity out. -/
def remove (_ : Activation) : Activation :=
  ⟨[], true⟩

end Activation

/-- A value that a directive adds to an enumeration. -/
structure AddedValue where
  /-- The enumeration, which is never an alias. -/
  enumeration : TypeId
  name : String
  spec : ValueSpec
  comment : Option String
  origin : Origin
  deriving DecidableEq, Repr, Inhabited

/-- The entities in use. -/
structure ActiveSet where
  /-- One record per type, in the order of the type table. -/
  types : List Activation
  /-- One record per declared command, in document order. -/
  commands : List Activation
  /-- The added values, in the order of the directives. -/
  values : List AddedValue
  /-- The names of values that have been removed. -/
  removedValues : List String
  deriving DecidableEq, Repr, Inhabited

namespace ActiveSet

/-- Nothing is in use. -/
def idle (typeCount commandCount : Nat) : ActiveSet where
  types := List.replicate typeCount .idle
  commands := List.replicate commandCount .idle
  values := []
  removedValues := []

/-- The record of a type. -/
def typeAt (set : ActiveSet) (id : TypeId) : Activation :=
  (set.types[id.index]?).getD .idle

/-- The record of the command at a place in the document. -/
def commandAt (set : ActiveSet) (index : Nat) : Activation :=
  (set.commands[index]?).getD .idle

/-- The number of active types. -/
def typeCount (set : ActiveSet) : Nat :=
  set.types.countP Activation.isActive

/-- The number of active commands. -/
def commandCount (set : ActiveSet) : Nat :=
  set.commands.countP Activation.isActive

/-- Whether a value has been removed. -/
def isValueRemoved (set : ActiveSet) (name : String) : Bool :=
  set.removedValues.contains name

/-- Brings a type in. -/
def requireType (set : ActiveSet) (id : TypeId) (origins : List Origin) : ActiveSet :=
  { set with types := set.types.modify id.index (·.require origins) }

/-- Takes a type out. -/
def removeType (set : ActiveSet) (id : TypeId) : ActiveSet :=
  { set with types := set.types.modify id.index Activation.remove }

/-- Brings a command in. -/
def requireCommand (set : ActiveSet) (index : Nat) (origins : List Origin) : ActiveSet :=
  { set with commands := set.commands.modify index (·.require origins) }

/-- Takes a command out. -/
def removeCommand (set : ActiveSet) (index : Nat) : ActiveSet :=
  { set with commands := set.commands.modify index Activation.remove }

/-- Brings back a value, as far as it has been removed. -/
def restoreValue (set : ActiveSet) (name : String) : ActiveSet :=
  { set with removedValues := set.removedValues.filter (· ≠ name) }

/-- Adds a value; this brings its name back. -/
def addValue (set : ActiveSet) (value : AddedValue) : ActiveSet :=
  { set.restoreValue value.name with values := set.values ++ [value] }

/-- Takes out every value of a name. -/
def removeValue (set : ActiveSet) (name : String) : ActiveSet :=
  { set with
    values := set.values.filter (·.name ≠ name)
    removedValues := name :: set.removedValues.filter (· ≠ name) }

end ActiveSet

end VulkanRegistry
