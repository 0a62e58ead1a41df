/-
The finished registry.

A registry is built once and then only asked.  Most questions are about entities in use;
the type table as a whole, with what is not in use, is there as well.
-/
import VulkanRegistry.Chain
import VulkanRegistry.Lifetime
import VulkanRegistry.Platform

namespace VulkanRegistry

/-- The resolved model of a document. -/
structure Registry where
  types : TypeTable
  /-- One flag per type: whether it is in use. -/
  active : List Bool
  constants : ConstantTable
  commands : CommandTable
  features : List Feature
  extensions : List Extension
  platforms : PlatformTable
  chain : ChainTable
  handles : HandleInfoTable
  version : ApiVersion

namespace Registry

/-- Whether a type is in use. -/
def isActive (r : Registry) (id : TypeId) : Bool :=
  (r.active[id.index]?).getD false

/-- The id of a type in use; aliases are types of their own here. -/
def typeId? (r : Registry) (name : String) : Option TypeId :=
  (r.types.lookup? name).filter r.isActive

/-- The type that the name of a type in use stands for. -/
def resolve (r : Registry) (name : String) : Outcome TypeId :=
  match r.typeId? name with
  | some id => .ok (r.types.canonical id)
  | none => .error (.unknownType name TypeTable.queryReferrer)

/-- The types in use, in order. -/
def activeTypes (r : Registry) : List (TypeId × TypeEntry) :=
  r.types.indexed.filter fun (id, _) => r.isActive id

/-- The types in use that are no aliases, in order. -/
def uniqueTypes (r : Registry) : List (TypeId × TypeEntry) :=
  r.types.unique.filter fun (id, _) => r.isActive id

/-- Whether calls are dispatched through a type. -/
def isDispatchable (r : Registry) (id : TypeId) : Bool :=
  (r.types.handle? (r.types.canonical id)).any (·.dispatchable)

/-- The values of an enumeration in use. -/
def enumValues? (r : Registry) (name : String) : Option (List EnumValue) :=
  ((r.typeId? name).bind fun id => r.types.enum? (r.types.canonical id)).map (·.values)

/-- The command of a name. -/
def command? (r : Registry) (name : String) : Option Command :=
  r.commands.get? name

/-- The selected extension of a name. -/
def extension? (r : Registry) (name : String) : Option Extension :=
  r.extensions.find? (·.name == name)

/-- The built-in type of text. -/
def stringType (r : Registry) : TypeId :=
  (r.types.lookup? TypeTable.stringName).getD ⟨0⟩

end Registry

end VulkanRegistry
