/-
The table of types.

Types stand in the order of their registration, and the place of a type is its id.  The
first registration of a name counts.  A table starts with one type that no document
declares: `string`, which stands for text behind a pointer to characters.  Next to what a
type is, an entry keeps how the document declares it, because members are read long
after the kinds are known.
-/
import VulkanRegistry.Diagnostic
import VulkanRegistry.Document.Declaration
import VulkanRegistry.TypeTable.Kind

namespace VulkanRegistry

/-- A type: its name, its declaration unless it is built in, and its kind. -/
structure TypeEntry where
  name : String
  decl : Option TypeDecl
  kind : TypeKind
  deriving DecidableEq, Repr, Inhabited

/-- The alias that the declaration states. -/
def TypeEntry.declaredAlias? (entry : TypeEntry) : Option String :=
  entry.decl.bind (·.aliasOf)

/-- Every type, in the order of registration. -/
structure TypeTable where
  entries : List TypeEntry
  deriving DecidableEq, Repr, Inhabited

namespace TypeTable

/-- The name of the built-in type of text. -/
def stringName : String := "string"

/-- The table of the built-in type alone. -/
def initial : TypeTable :=
  ⟨[⟨stringName, none, .base none⟩]⟩

/-! ### Looking types up -/

/-- The number of types. -/
def size (table : TypeTable) : Nat :=
  table.entries.length

/-- The ids of all types, in order. -/
def ids (table : TypeTable) : List TypeId :=
  (List.range table.size).map TypeId.mk

/-- The names of all types, in order. -/
def names (table : TypeTable) : List String :=
  table.entries.map (·.name)

/-- The entry at an id. -/
def get? (table : TypeTable) (id : TypeId) : Option TypeEntry :=
  table.entries[id.index]?

/-- Every type with its id. -/
def indexed (table : TypeTable) : List (TypeId × TypeEntry) :=
  table.entries.zipIdx.map fun (entry, index) => (⟨index⟩, entry)

/-- The id of a name; aliases are types of their own here. -/
def lookup? (table : TypeTable) (name : String) : Option TypeId :=
  (table.entries.findIdx? (·.name == name)).map TypeId.mk

/-- The kind at an id. -/
def kind? (table : TypeTable) (id : TypeId) : Option TypeKind :=
  (table.get? id).map (·.kind)

/-- The declaration at an id. -/
def decl? (table : TypeTable) (id : TypeId) : Option TypeDecl :=
  (table.get? id).bind (·.decl)

/-- The name at an id. -/
def nameOf (table : TypeTable) (id : TypeId) : String :=
  ((table.get? id).map (·.name)).getD ""

/-- The type that an id stands for: the target of an alias, and any other type itself. -/
def canonical (table : TypeTable) (id : TypeId) : TypeId :=
  ((table.kind? id).bind TypeKind.aliasTarget?).getD id

/-- The struct or union at an id. -/
def struct? (table : TypeTable) (id : TypeId) : Option StructLayout :=
  (table.kind? id).bind TypeKind.structLayout?

/-- The handle at an id. -/
def handle? (table : TypeTable) (id : TypeId) : Option HandleLayout :=
  (table.kind? id).bind TypeKind.handleLayout?

/-- The enumeration at an id. -/
def enum? (table : TypeTable) (id : TypeId) : Option EnumLayout :=
  (table.kind? id).bind TypeKind.enumLayout?

/-- The id of a name that `referrer` mentions. -/
def require (table : TypeTable) (name referrer : String) : Outcome TypeId :=
  match table.lookup? name with
  | some id => .ok id
  | none => .error (.unknownType name referrer)

/-- The type that a name stands for, on behalf of `referrer`. -/
def resolve (table : TypeTable) (name referrer : String) : Outcome TypeId :=
  (table.require name referrer).map table.canonical

/-- Who mentions a name that a consumer of the registry asks for. -/
def queryReferrer : String := "registry query"

/-- The types that are no aliases. -/
def unique (table : TypeTable) : List (TypeId × TypeEntry) :=
  table.indexed.filter fun (_, entry) => !entry.kind.isAlias

/-- The other names of a type, in the order of their declaration. -/
def aliasesOf (table : TypeTable) (id : TypeId) : List String :=
  (table.entries.filter fun entry => entry.kind.aliasTarget? == some id).map (·.name)

/-! ### Registering types -/

/-- Adds an entry for a declaration unless its name is taken. -/
def register (table : TypeTable) (decl : TypeDecl) : TypeTable :=
  match table.lookup? decl.name with
  | some _ => table
  | none => ⟨table.entries ++ [⟨decl.name, some decl, .base none⟩]⟩

/-- Adds entries for declarations, one after the other. -/
def registerAll (table : TypeTable) (decls : List TypeDecl) : TypeTable :=
  decls.foldl register table

end TypeTable

end VulkanRegistry
