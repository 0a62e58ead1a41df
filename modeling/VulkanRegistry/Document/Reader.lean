/-
Reading the sections of a document from its tree.

Every registry has types, commands, platforms, at least one block of values and at least
one core version; a document without one of these is refused before anything in it is
read.  The sections are then read in a fixed order, each from its first element to its
last, and the first declaration that lacks something mandatory ends the reading.
Elements that are not part of the vocabulary are passed over.
-/
import VulkanRegistry.Dependency.Names
import VulkanRegistry.Document.Declaration
import VulkanRegistry.Markup.Tree

namespace VulkanRegistry

open Markup (Element Node)

/-- A failure at the place of an element. -/
def malformedAt {α : Type} (e : Element) (what : String) : Outcome α :=
  .error (.malformed e.position what)

/-- An attribute that has to be there. -/
def requiredAttr (e : Element) (key : String) : Outcome String :=
  match e.attr? key with
  | some value => .ok value
  | none => malformedAt e s!"<{e.name}> is missing required attribute `{key}`"

/-- Reads a platform. -/
def PlatformDecl.ofElement (e : Element) : Outcome PlatformDecl := do
  let name ← requiredAttr e "name"
  let guard ← requiredAttr e "protect"
  return { name, guard, comment := e.attr? "comment" }

/-! ### Fields and types -/

/-- The part of the C text that a child contributes to a declarator: the type, the name and
comments are left out. -/
def declaratorText (node : Node) : String :=
  match node.element? with
  | none => node.content
  | some e => if e.name ∈ ["type", "name", "comment"] then "" else e.text

/-- Reads a struct member, a parameter, or the head of a command. -/
def FieldDecl.ofElement (e : Element) : Outcome FieldDecl :=
  match e.childText? "name" with
  | none => malformedAt e s!"<{e.name}> has no <name>"
  | some name =>
      match e.childText? "type" with
      | none => malformedAt e s!"<{e.name}> `{name}` has no <type>"
      | some typeName => .ok {
          name, typeName
          declarator := String.join (e.children.map declaratorText)
          len := e.attr? "len"
          altlen := e.attr? "altlen"
          optional := e.attr? "optional"
          values := e.attrList "values"
          api := e.attr? "api" }

/-- Whether a node is the name of a declaration. -/
def isNameNode (node : Node) : Bool :=
  match node.element? with
  | some e => e.name == "name"
  | none => false

/-- Whether text behind the name ends at this node. -/
def endsTail (node : Node) : Bool :=
  node.element?.isSome && !isNameNode node

/-- The text behind the name, up to the next element that is not a name. -/
def nameTail? (e : Element) : Option String :=
  match e.children.dropWhile (!isNameNode ·) with
  | [] => none
  | _ :: behind =>
      let tail := behind.takeWhile (!endsTail ·)
      some (String.join ((tail.filter (·.element?.isNone)).map Node.content))

/-- The name of a type: an attribute, or a child, or a child of the prototype. -/
def typeName? (e : Element) : Option String :=
  e.attr? "name" <|> e.childText? "name" <|> (e.child? "proto").bind (·.childText? "name")

/-- Reads a type. -/
def TypeDecl.ofElement (e : Element) : Outcome TypeDecl :=
  match typeName? e with
  | none => malformedAt e "<type> has neither a name attribute nor <name>"
  | some name => do
      let members ← (e.childrenNamed "member").mapM FieldDecl.ofElement
      return {
        name, members
        category := e.attr? "category"
        aliasOf := e.attr? "alias"
        api := e.attr? "api"
        parent := e.attr? "parent"
        requires := e.attr? "requires"
        bitvalues := e.attr? "bitvalues"
        innerType := e.childText? "type"
        structExtends := e.attrList "structextends"
        returnedOnly := e.hasAttr "returnedonly" "true"
        objectType := e.attr? "objtypeenum"
        nameTail := nameTail? e
        position := e.position }

/-! ### Blocks of values -/

/-- Reads a value of a block. -/
def ValueDecl.ofElement (e : Element) : Outcome ValueDecl := do
  let name ← requiredAttr e "name"
  return {
    name
    value := e.attr? "value"
    bitpos := e.attr? "bitpos"
    aliasOf := e.attr? "alias"
    comment := e.attr? "comment"
    api := e.attr? "api"
    ctype := e.attr? "type" }

/-- The kind of a block by its `type` attribute; without one it holds constants. -/
def EnumBlockKind.ofAttr? : Option String → Option EnumBlockKind
  | some "enum" => some .enumeration
  | some "bitmask" => some .bitmask
  | some "constants" => some .constants
  | none => some .constants
  | some _ => none

/-- Reads a block of values. -/
def EnumBlock.ofElement (e : Element) : Outcome EnumBlock := do
  let name ← requiredAttr e "name"
  let kind ← match EnumBlockKind.ofAttr? (e.attr? "type") with
    | some kind => pure kind
    | none =>
        let found := (e.attr? "type").getD ""
        malformedAt e s!"<enums name=\"{name}\"> has unknown type `{found}`"
  let bitwidth ← match e.attr? "bitwidth" with
    | none => pure none
    | some width =>
        match Text.toNat32? width.toList with
        | some bits => pure (some bits)
        | none => malformedAt e s!"bad bitwidth `{width}` on `{name}`"
  let values ← (e.childrenNamed "enum").mapM ValueDecl.ofElement
  return { name, kind, bitwidth, values }

/-! ### Commands -/

/-- Reads a command.  One that is another name for a command has nothing but its name. -/
def CommandDecl.ofElement (e : Element) : Outcome CommandDecl :=
  match e.attr? "alias" with
  | some target => do
      let name ← requiredAttr e "name"
      return { name, aliasOf := some target, api := e.attr? "api", position := e.position }
  | none =>
      match e.child? "proto" with
      | none => malformedAt e "<command> has no <proto>"
      | some proto => do
          let head ← FieldDecl.ofElement proto
          let params ← (e.childrenNamed "param").mapM FieldDecl.ofElement
          return {
            name := head.name
            api := e.attr? "api"
            returnType := head.typeName
            params
            successCodes := e.attrList "successcodes"
            errorCodes := e.attrList "errorcodes"
            position := e.position }

/-! ### Versions and extensions -/

/-- Reads a directive; elements without a name, or of another kind, are none. -/
def Directive.ofElement? (e : Element) : Option Directive := do
  let name ← e.attr? "name"
  match e.name with
  | "type" => some (.type name)
  | "command" => some (.command name)
  | "enum" => some (.value {
      name
      extended := e.attr? "extends"
      value := e.attr? "value"
      bitpos := e.attr? "bitpos"
      offset := e.attr? "offset"
      negative := e.hasAttr "dir" "-"
      extnumber := e.attr? "extnumber"
      aliasOf := e.attr? "alias"
      comment := e.attr? "comment"
      api := e.attr? "api" })
  | _ => none

/-- The kind of block that an element of this name is. -/
def BlockKind.ofName? : String → Option BlockKind
  | "require" => some .require
  | "remove" => some .remove
  | _ => none

/-- Reads a block of directives.  Older documents give the condition as a single version
or a single extension. -/
def DirectiveBlock.ofElement? (e : Element) : Option DirectiveBlock := do
  let kind ← BlockKind.ofName? e.name
  return {
    kind
    api := e.attr? "api"
    depends := e.attr? "depends" <|> e.attr? "feature" <|> e.attr? "extension"
    directives := e.elements.filterMap Directive.ofElement? }

/-- Reads a core version. -/
def FeatureDecl.ofElement (e : Element) : Outcome FeatureDecl := do
  let name ← requiredAttr e "name"
  return {
    name
    number := (e.attr? "number").getD ""
    api := e.attr? "api"
    blocks := e.elements.filterMap DirectiveBlock.ofElement? }

/-- What an extension needs: a list, or else the names of an expression. -/
def extensionRequires (e : Element) : List String :=
  match e.attrList "requires", e.attr? "depends" with
  | [], some expr => Dependency.names expr
  | listed, _ => listed

/-- Reads an extension. -/
def ExtensionDecl.ofElement (e : Element) : Outcome ExtensionDecl := do
  let name ← requiredAttr e "name"
  let digits ← requiredAttr e "number"
  let number ← match Text.toNat32? digits.toList with
    | some number => pure number
    | none => malformedAt e s!"extension `{name}` has bad number `{digits}`"
  return {
    name, number
    kind := e.attr? "type"
    author := e.attr? "author"
    supported := e.attrList "supported"
    platform := e.attr? "platform"
    promotedTo := e.attr? "promotedto"
    deprecatedBy := e.attr? "deprecatedby"
    requires := extensionRequires e
    specialUse := e.attrList "specialuse"
    provisional := e.hasAttr "provisional" "true"
    blocks := e.elements.filterMap DirectiveBlock.ofElement? }

/-! ### The document -/

/-- A section that has to be there. -/
def requiredSection (root : Element) (name : String) : Outcome Element :=
  match root.child? name with
  | some e => .ok e
  | none => .error (.missingSection name)

/-- The elements of a name inside a section that may be absent. -/
def optionalSection (root : Element) (name inner : String) : List Element :=
  match root.child? name with
  | some e => e.childrenNamed inner
  | none => []

/-- Reads the sections of a document from its root. -/
def Document.ofElement (root : Element) : Outcome Document := do
  if root.name ≠ "registry" then
    malformedAt root s!"expected <registry> root, found <{root.name}>"
  let types ← requiredSection root "types"
  let commands ← requiredSection root "commands"
  let platforms ← requiredSection root "platforms"
  let _ ← requiredSection root "enums"
  let _ ← requiredSection root "feature"
  return {
    platforms := ← (platforms.childrenNamed "platform").mapM PlatformDecl.ofElement
    types := ← (types.childrenNamed "type").mapM TypeDecl.ofElement
    enums := ← (root.childrenNamed "enums").mapM EnumBlock.ofElement
    commands := ← (commands.childrenNamed "command").mapM CommandDecl.ofElement
    features := ← (root.childrenNamed "feature").mapM FeatureDecl.ofElement
    extensions := ← (optionalSection root "extensions" "extension").mapM ExtensionDecl.ofElement }

/-- Reads a document from its text. -/
def Document.parse (source : String) : Outcome Document := do
  Document.ofElement (← Element.parse source)

end VulkanRegistry
