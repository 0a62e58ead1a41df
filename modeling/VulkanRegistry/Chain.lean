/-
Chains of structs.

A struct may head a chain of further structs, each of which says by a tag what it is.  The
tag of a struct is the first value that its tag member may have.  A tag leads to the first
struct that has it, and a chain may carry a struct if that struct says it extends the
head of the chain.
-/
import VulkanRegistry.TypeTable.Basic

namespace VulkanRegistry

/-- What tells the structs of a chain apart. -/
structure ChainTag where
  name : String
  /-- The number of the tag, if its value is in use. -/
  value : Option Int
  deriving DecidableEq, Repr, Inhabited

/-- The part that a struct in use can play in chains. -/
structure ChainEntry where
  type : TypeId
  tag : Option ChainTag
  /-- The structs that its chain may carry. -/
  extenders : List TypeId
  deriving DecidableEq, Repr, Inhabited

/-- The structs in use, in the order of their declaration. -/
structure ChainTable where
  entries : List ChainEntry
  deriving DecidableEq, Repr, Inhabited

namespace ChainTable

/-- The member that holds the tag. -/
def tagMember : String := "sType"

/-- The enumeration of all tags. -/
def tagEnumeration : String := "VkStructureType"

/-- The number of a tag. -/
def tagValue? (types : TypeTable) (name : String) : Option Int :=
  (((types.lookup? tagEnumeration).bind types.enum?).bind (·.value? name)).map (·.value)

/-- The tag of a struct. -/
def tagOfLayout? (types : TypeTable) (layout : StructLayout) : Option ChainTag :=
  ((layout.member? tagMember).bind (·.values.head?)).map fun name => ⟨name, tagValue? types name⟩

/-- The table of the structs in use. -/
def ofTypes (types : TypeTable) (isActive : TypeId → Bool) : ChainTable :=
  ⟨types.indexed.filterMap fun (id, entry) =>
    if isActive id then
      entry.kind.structLayout?.map fun layout => ⟨id, tagOfLayout? types layout, layout.extenders⟩
    else none⟩

/-- The entry of a struct. -/
def get? (table : ChainTable) (id : TypeId) : Option ChainEntry :=
  table.entries.find? (·.type == id)

/-- The struct that a tag leads to. -/
def structFor? (table : ChainTable) (tag : String) : Option TypeId :=
  (table.entries.find? fun entry => entry.tag.any (·.name == tag)).map (·.type)

/-- The tag of a struct. -/
def tagOf? (table : ChainTable) (id : TypeId) : Option ChainTag :=
  (table.get? id).bind (·.tag)

/-- The structs that the chain of a struct may carry. -/
def extenders (table : ChainTable) (id : TypeId) : List TypeId :=
  ((table.get? id).map (·.extenders)).getD []

/-- The number of tagged structs. -/
def size (table : ChainTable) : Nat :=
  table.entries.countP (·.tag.isSome)

/-- The struct of a tag, if the chain of `owner` may carry it. -/
def downcast? (table : ChainTable) (owner : TypeId) (tag : String) : Option TypeId :=
  (table.structFor? tag).filter (table.extenders owner).contains

end ChainTable

end VulkanRegistry
