/-
The partition into platforms.

Code for a platform stands behind the platform's guard, so every type, command and value
in use belongs to exactly one bucket: that of a platform, or the core with an empty name
and an empty guard, which comes first.  What a core version or an extension without a
platform brings in is core; anything else belongs to the platform of the first extension
that brings it in.
-/
import VulkanRegistry.Document.Declaration
import VulkanRegistry.Feature
import VulkanRegistry.Member.Basic
import VulkanRegistry.Options
import VulkanRegistry.Origin

namespace VulkanRegistry

/-- A value of an enumeration. -/
structure ValueRef where
  enumeration : TypeId
  name : String
  deriving DecidableEq, Repr, Inhabited

/-- What belongs to a platform, each list in the order of declaration. -/
structure Platform where
  /-- Empty for the core. -/
  name : String
  /-- The guard; empty for the core. -/
  guard : String
  comment : Option String
  types : List TypeId
  /-- The names of commands, aliases included. -/
  commands : List String
  enumValues : List ValueRef
  /-- The selected extensions. -/
  extensions : List String
  deriving DecidableEq, Repr, Inhabited

namespace Platform

/-- A bucket without contents. -/
def empty (name guard : String) (comment : Option String) : Platform :=
  ⟨name, guard, comment, [], [], [], []⟩

/-- The bucket is the core. -/
def isCore (platform : Platform) : Bool :=
  platform.name == ""

end Platform

/-- The platform that an origin ties an entity to, if it does. -/
def Origin.platform? (extensions : List Extension) : Origin → Option String
  | .feature _ => none
  | .extension index => (extensions[index]?).bind (·.platform)

/-- The platform of an entity with these origins; none for the core. -/
def bucket (origins : List Origin) (extensions : List Extension) : Option String :=
  (origins.mapM (Origin.platform? extensions)).bind List.head?

/-- The buckets, and where entities have been put, the latest first. -/
structure PlatformTable where
  platforms : List Platform
  typeSlots : List (TypeId × Nat)
  commandSlots : List (String × Nat)
  deriving DecidableEq, Repr, Inhabited

namespace PlatformTable

/-- The bucket of a name. -/
def get? (table : PlatformTable) (name : String) : Option Platform :=
  table.platforms.find? (·.name == name)

/-- The place of the bucket for a platform; unknown platforms belong to the core. -/
def slot (table : PlatformTable) (platform : Option String) : Nat :=
  (platform.bind fun name => table.platforms.findIdx? (·.name == name)).getD 0

/-- Changes the bucket for a platform. -/
def update (table : PlatformTable) (platform : Option String) (f : Platform → Platform) :
    PlatformTable :=
  { table with platforms := table.platforms.modify (table.slot platform) f }

/-- Puts an extension into the bucket of its platform. -/
def addExtension (table : PlatformTable) (ext : Extension) : PlatformTable :=
  table.update ext.platform fun p => { p with extensions := p.extensions ++ [ext.name] }

/-- Whether a declared platform gets a bucket: the options want it, or an extension needs it. -/
def needs (extensions : List Extension) (options : RegistryOptions) (decl : PlatformDecl) : Bool :=
  extensions.any (·.platform == some decl.name) || options.acceptsPlatform decl.name

/-- The buckets before any entity is put into them. -/
def initial (declared : List PlatformDecl) (extensions : List Extension)
    (options : RegistryOptions) : PlatformTable :=
  let ofDecl (decl : PlatformDecl) : Platform := Platform.empty decl.name decl.guard decl.comment
  let platforms := (declared.filter (needs extensions options)).map ofDecl
  extensions.foldl addExtension ⟨Platform.empty "" "" none :: platforms, [], []⟩

/-- Puts a type into a bucket. -/
def addType (table : PlatformTable) (id : TypeId) (platform : Option String) : PlatformTable :=
  let added := table.update platform fun p => { p with types := p.types ++ [id] }
  { added with typeSlots := (id, table.slot platform) :: table.typeSlots }

/-- Puts a command into a bucket. -/
def addCommand (table : PlatformTable) (name : String) (platform : Option String) :
    PlatformTable :=
  let added := table.update platform fun p => { p with commands := p.commands ++ [name] }
  { added with commandSlots := (name, table.slot platform) :: table.commandSlots }

/-- Puts a value into a bucket. -/
def addValue (table : PlatformTable) (value : ValueRef) (platform : Option String) :
    PlatformTable :=
  table.update platform fun p => { p with enumValues := p.enumValues ++ [value] }

/-- The core. -/
def core? (table : PlatformTable) : Option Platform :=
  table.platforms.head?

/-- The guard of the bucket at a place. -/
def guardAt? (table : PlatformTable) (slot : Nat) : Option String :=
  (table.platforms[slot]?).map (·.guard)

/-- The guard of a type; empty for the core. -/
def guardOfType? (table : PlatformTable) (id : TypeId) : Option String :=
  (table.typeSlots.lookup id).bind table.guardAt?

/-- The guard of a command; empty for the core. -/
def guardOfCommand? (table : PlatformTable) (name : String) : Option String :=
  (table.commandSlots.lookup name).bind table.guardAt?

end PlatformTable

end VulkanRegistry
