/-
Selecting extensions.

An extension is wanted if its platform, its author and the interfaces it supports pass the
options, or if it is allowed by name; it is selected if it is wanted and not blocked by
name.  Extensions that only reserve their number are never selected.  Every extension of
the document, wanted or not, has to name a declared platform if it names one.
-/
import VulkanRegistry.Diagnostic
import VulkanRegistry.Document.Declaration
import VulkanRegistry.Options

namespace VulkanRegistry

namespace ExtensionDecl

/-- The extension only reserves its number. -/
def isReserved (ext : ExtensionDecl) : Bool :=
  Text.contains ext.name "RESERVED" || Text.endsWith ext.name (toString ext.number)

/-- The extension passes the filters of the options. -/
def passes (options : RegistryOptions) (ext : ExtensionDecl) : Bool :=
  options.acceptsPlatform (ext.platform.getD "") &&
    options.acceptsAuthor (ext.author.getD "") &&
    ext.supported.contains options.api

/-- The extension is selected. -/
def isSelected (options : RegistryOptions) (ext : ExtensionDecl) : Bool :=
  !ext.isReserved &&
    (ext.passes options || options.allowed.contains ext.name) &&
    !options.blocked.contains ext.name

/-- Refuses an extension of an undeclared platform. -/
def checkPlatform (platforms : List PlatformDecl) (ext : ExtensionDecl) : Outcome Unit :=
  match ext.platform with
  | none => .ok ()
  | some platform =>
      if platforms.any (·.name == platform) then .ok ()
      else .error (.unknownPlatform platform ext.name)

end ExtensionDecl

/-- The selected extensions in document order. -/
def selectExtensions (doc : Document) (options : RegistryOptions) :
    Outcome (List ExtensionDecl) := do
  doc.extensions.forM (ExtensionDecl.checkPlatform doc.platforms)
  return doc.extensions.filter (ExtensionDecl.isSelected options)

end VulkanRegistry
