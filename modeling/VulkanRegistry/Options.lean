/-
What a registry is built for.

The options name an interface, which filters the whole document, and say which extensions
are wanted: those of given platforms and authors that support the interface, and those of
a list of exceptions, but never those of a second list.  The empty name stands for no
platform and for no author.  Sets of names are kept in ascending order.
-/
import VulkanRegistry.Text.Pieces

namespace VulkanRegistry

/-- Puts a name into an ascending list without duplicates. -/
def insertName (name : String) : List String → List String
  | [] => [name]
  | other :: names =>
      if name < other then name :: other :: names
      else if name = other then other :: names
      else other :: insertName name names

/-- The set of some names, in ascending order. -/
def nameSet (names : List String) : List String :=
  names.foldl (fun set name => insertName name set) []

/-- What a registry is built for. -/
structure RegistryOptions where
  /-- The interface. -/
  api : String
  /-- The platforms that are wanted; all if there is no set. -/
  platforms : Option (List String)
  /-- The authors that are wanted; all if there is no set. -/
  authors : Option (List String)
  /-- Extensions that are wanted in any case. -/
  allowed : List String
  /-- Extensions that are not wanted in any case. -/
  blocked : List String
  /-- Where the document is, if it is not in the usual place. -/
  registryFile : Option String
  deriving DecidableEq, Repr, Inhabited

namespace RegistryOptions

/-- The usual place of the document. -/
def usualFile : String := "vk.xml"

/-- The core of Vulkan with the extensions that are independent of a platform. -/
def standard : RegistryOptions where
  api := "vulkan"
  platforms := some [""]
  authors := some (nameSet ["", "KHR", "EXT"])
  allowed := []
  blocked := []
  registryFile := none

/-- Every platform and every author. -/
def everything : RegistryOptions :=
  { standard with platforms := none, authors := none }

/-- Allows one more extension. -/
def allowExtension (options : RegistryOptions) (name : String) : RegistryOptions :=
  { options with allowed := insertName name options.allowed }

/-- Blocks one more extension. -/
def blockExtension (options : RegistryOptions) (name : String) : RegistryOptions :=
  { options with blocked := insertName name options.blocked }

/-- Where the document is. -/
def registryPath (options : RegistryOptions) : String :=
  options.registryFile.getD usualFile

/-- Whether a list of interfaces, or the lack of one, admits the interface of the options. -/
def acceptsApi (options : RegistryOptions) (api : Option String) : Bool :=
  match api with
  | none => true
  | some listed => (Text.commaPieces listed).any (Text.trimmed · == options.api)

/-- Whether a platform is wanted. -/
def acceptsPlatform (options : RegistryOptions) (platform : String) : Bool :=
  match options.platforms with
  | none => true
  | some set => set.contains platform

/-- Whether an author is wanted. -/
def acceptsAuthor (options : RegistryOptions) (author : String) : Bool :=
  match options.authors with
  | none => true
  | some set => set.contains author

end RegistryOptions

end VulkanRegistry
