/-
The declarations of a registry document.

A document has six sections, and each is a list in document order of declarations of one
kind.  A declaration holds names, never references: what a name means is decided by the
tables that are built from the document.  Attributes that may be absent are options;
those that are lists in the document are lists here, and empty when absent.
-/
namespace VulkanRegistry

/-- A platform and the macro that guards its code. -/
structure PlatformDecl where
  name : String
  guard : String
  comment : Option String := none
  deriving DecidableEq, Repr, Inhabited

/-- A struct member or a command parameter, as C writes it. -/
structure FieldDecl where
  name : String
  typeName : String
  /-- What is left of the C text without the type and the name. -/
  declarator : String := ""
  /-- Lengths of the pointer levels, separated by commas. -/
  len : Option String := none
  /-- The same lengths in C, which win over `len`. -/
  altlen : Option String := none
  optional : Option String := none
  /-- The values the field may have; a chained struct lists its tag here. -/
  values : List String := []
  api : Option String := none
  deriving DecidableEq, Repr, Inhabited

/-- A type. -/
structure TypeDecl where
  name : String
  category : Option String := none
  /-- The type that this is another name for. -/
  aliasOf : Option String := none
  api : Option String := none
  /-- The owners of a handle, separated by commas. -/
  parent : Option String := none
  /-- The flag bits of a bitmask, or the header a plain type comes from. -/
  requires : Option String := none
  /-- The flag bits of a wide bitmask. -/
  bitvalues : Option String := none
  /-- The type that the C text of this one mentions. -/
  innerType : Option String := none
  /-- The structs whose chain may carry this one. -/
  structExtends : List String := []
  returnedOnly : Bool := false
  objectType : Option String := none
  members : List FieldDecl := []
  /-- The text behind the name of a define. -/
  nameTail : Option String := none
  position : Nat := 0
  deriving DecidableEq, Repr, Inhabited

/-- What a block of values is for. -/
inductive EnumBlockKind
  | enumeration
  | bitmask
  | constants
  deriving DecidableEq, Repr, Inhabited

/-- A value in a block. -/
structure ValueDecl where
  name : String
  value : Option String := none
  bitpos : Option String := none
  aliasOf : Option String := none
  comment : Option String := none
  api : Option String := none
  /-- The C type of a constant. -/
  ctype : Option String := none
  deriving DecidableEq, Repr, Inhabited

/-- A block of values: those of an enumeration, or constants. -/
structure EnumBlock where
  name : String
  kind : EnumBlockKind
  bitwidth : Option Nat := none
  values : List ValueDecl := []
  deriving DecidableEq, Repr, Inhabited

/-- The block belongs to an enumeration. -/
def EnumBlock.hasType (block : EnumBlock) : Bool :=
  block.kind != .constants

/-- A command. -/
structure CommandDecl where
  name : String
  /-- The command that this is another name for. -/
  aliasOf : Option String := none
  api : Option String := none
  returnType : String := ""
  params : List FieldDecl := []
  successCodes : List String := []
  errorCodes : List String := []
  position : Nat := 0
  deriving DecidableEq, Repr, Inhabited

/-- A value that a directive names, and perhaps defines. -/
structure ValueDirective where
  name : String
  /-- The enumeration that gets the value. -/
  extended : Option String := none
  value : Option String := none
  bitpos : Option String := none
  /-- The place of the value in the number range of an extension. -/
  offset : Option String := none
  /-- The value lies below zero. -/
  negative : Bool := false
  /-- The extension whose range is meant, if it is not the one that holds the directive. -/
  extnumber : Option String := none
  aliasOf : Option String := none
  comment : Option String := none
  api : Option String := none
  deriving DecidableEq, Repr, Inhabited

/-- The directive names a value or a constant that is defined elsewhere. -/
def ValueDirective.isReference (d : ValueDirective) : Bool :=
  d.extended.isNone && d.value.isNone && d.bitpos.isNone && d.offset.isNone && d.aliasOf.isNone

/-- What a directive is about. -/
inductive Directive
  | type (name : String)
  | command (name : String)
  | value (directive : ValueDirective)
  deriving DecidableEq, Repr, Inhabited

/-- Whether the directives of a block bring their entities in or take them out. -/
inductive BlockKind
  | require
  | remove
  deriving DecidableEq, Repr, Inhabited

/-- Directives that apply together. -/
structure DirectiveBlock where
  kind : BlockKind
  api : Option String := none
  /-- An expression over versions and extensions that has to hold. -/
  depends : Option String := none
  directives : List Directive := []
  deriving DecidableEq, Repr, Inhabited

/-- A core version. -/
structure FeatureDecl where
  name : String
  number : String
  api : Option String := none
  blocks : List DirectiveBlock := []
  deriving DecidableEq, Repr, Inhabited

/-- An extension. -/
structure ExtensionDecl where
  name : String
  number : Nat
  kind : Option String := none
  author : Option String := none
  /-- The interfaces that have the extension. -/
  supported : List String := []
  platform : Option String := none
  promotedTo : Option String := none
  deprecatedBy : Option String := none
  /-- The versions and extensions it needs. -/
  requires : List String := []
  specialUse : List String := []
  provisional : Bool := false
  blocks : List DirectiveBlock := []
  deriving DecidableEq, Repr, Inhabited

/-- A registry document. -/
structure Document where
  platforms : List PlatformDecl := []
  types : List TypeDecl := []
  enums : List EnumBlock := []
  commands : List CommandDecl := []
  features : List FeatureDecl := []
  extensions : List ExtensionDecl := []
  deriving DecidableEq, Repr, Inhabited

end VulkanRegistry
