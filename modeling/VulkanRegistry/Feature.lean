/-
Core versions and extensions as a registry reports them.

What a version or extension reports about its directives is taken from those of its
blocks whose dependencies hold, whether or not a directive had any effect.
-/
import VulkanRegistry.Dependency.Expression
import VulkanRegistry.Document.Declaration
import VulkanRegistry.Text.Pieces
import VulkanRegistry.Version

namespace VulkanRegistry

/-- An entity that a directive names. -/
structure EntityRef where
  kind : EntityKind
  name : String
  deriving DecidableEq, Repr, Inhabited

/-- The entity that a directive names. -/
def Directive.entity : Directive → EntityRef
  | type name => ⟨.type, name⟩
  | command name => ⟨.command, name⟩
  | value directive => ⟨.value, directive.name⟩

/-- The blocks whose dependencies hold among the given names. -/
def applicableBlocks (active : List String) (blocks : List DirectiveBlock) :
    Outcome (List DirectiveBlock) :=
  blocks.filterM fun block =>
    match block.depends with
    | none => .ok true
    | some expr => Dependency.evaluate expr active.contains

/-- The directives of all blocks of a kind, in order. -/
def directivesOf (kind : BlockKind) (blocks : List DirectiveBlock) : List Directive :=
  (blocks.filter (·.kind == kind)).flatMap (·.directives)

/-- The entities that blocks of a kind name, in order. -/
def entitiesOf (kind : BlockKind) (blocks : List DirectiveBlock) : List EntityRef :=
  (directivesOf kind blocks).map Directive.entity

/-! ### Core versions -/

/-- A core version. -/
structure Feature where
  name : String
  version : ApiVersion
  requires : List EntityRef
  removes : List EntityRef
  deriving DecidableEq, Repr, Inhabited

/-- What a core version with these applicable blocks reports. -/
def Feature.ofDecl (decl : FeatureDecl) (blocks : List DirectiveBlock) : Outcome Feature :=
  match ApiVersion.ofFeatureNumber? decl.number with
  | none =>
      .error (.malformed 0 s!"feature `{decl.name}` has malformed number `{decl.number}`")
  | some version => .ok {
      name := decl.name
      version
      requires := entitiesOf .require blocks
      removes := entitiesOf .remove blocks }

/-! ### Extensions -/

/-- Whether an extension hangs off the instance or off a device. -/
inductive ExtensionKind
  | instanceLevel
  | deviceLevel
  deriving DecidableEq, Repr, Inhabited

/-- The kind that an attribute states. -/
def ExtensionKind.ofName? : String → Option ExtensionKind
  | "instance" => some .instanceLevel
  | "device" => some .deviceLevel
  | _ => none

/-- A selected extension. -/
structure Extension where
  name : String
  number : Nat
  kind : Option ExtensionKind
  author : Option String
  platform : Option String
  /-- The version or extension that took it over. -/
  promotedTo : Option String
  deprecatedBy : Option String
  /-- The versions and extensions it needs. -/
  dependencies : List String
  specialUse : List String
  provisional : Bool
  /-- The constant that holds the name. -/
  nameEnum : Option String
  /-- The constant that holds the revision. -/
  specVersionEnum : Option String
  requires : List EntityRef
  removes : List EntityRef
  deriving DecidableEq, Repr, Inhabited

/-- The name of a value that a directive gives by a literal, if it has this ending. -/
def literalNamed? (ending : String) : Directive → Option String
  | .value d => if d.value.isSome && Text.endsWith d.name ending then some d.name else none
  | _ => none

/-- The last required value with a literal and this ending. -/
def namedConstant? (ending : String) (blocks : List DirectiveBlock) : Option String :=
  ((directivesOf .require blocks).filterMap (literalNamed? ending)).getLast?

namespace Extension

/-- What an extension with these applicable blocks reports. -/
def ofDecl (decl : ExtensionDecl) (blocks : List DirectiveBlock) : Extension where
  name := decl.name
  number := decl.number
  kind := decl.kind.bind ExtensionKind.ofName?
  author := decl.author
  platform := decl.platform
  promotedTo := decl.promotedTo
  deprecatedBy := decl.deprecatedBy
  dependencies := decl.requires
  specialUse := decl.specialUse
  provisional := decl.provisional
  nameEnum := namedConstant? "_EXTENSION_NAME" blocks
  specVersionEnum := namedConstant? "_SPEC_VERSION" blocks
  requires := entitiesOf .require blocks
  removes := entitiesOf .remove blocks

/-- Whether a core version took the extension over. -/
def isPromotedToCore (ext : Extension) : Bool :=
  ext.promotedTo.any (Text.startsWith · "VK_VERSION_")

end Extension

end VulkanRegistry
