/-
Linking: from declarations to kinds.

Linking turns the names that declarations mention into ids.  It has four steps.

  * An enumeration may be declared by its block of values alone; such blocks register a
    type.
  * Aliases are followed to the type at the end of their chain, so that from here on
    every alias is one hop from what it stands for.
  * Every other declaration becomes a kind.  Of several blocks for one enumeration the
    last one tells its width and whether it is a bitmask.
  * The structs that extend a struct are listed there as well.

A step that fails leaves the entries in front of the culprit linked and stops; the table
that results is returned with the failure.
-/
import VulkanRegistry.Text.Pieces
import VulkanRegistry.Trail
import VulkanRegistry.TypeTable.Basic

namespace VulkanRegistry

/-- The block that describes an enumeration: the last one of its name. -/
def enumBlock? (blocks : List EnumBlock) (name : String) : Option EnumBlock :=
  (blocks.filter fun block => block.hasType && block.name == name).getLast?

/-- Replaces the elements of a list one by one, up to the first for which that fails. -/
def replaceUntilFault {α ε : Type} (f : α → Except ε α) : List α → List α × Option ε
  | [] => ([], none)
  | x :: xs =>
      match f x with
      | .error fault => (x :: xs, some fault)
      | .ok y =>
          let (ys, fault) := replaceUntilFault f xs
          (y :: ys, fault)

namespace TypeTable

/-! ### Types declared by their values -/

/-- The declaration that a block of values stands for. -/
def declOfBlock (block : EnumBlock) : TypeDecl :=
  { name := block.name, category := some "enum" }

/-- Registers the enumerations that have a block but no declaration. -/
def registerBlocks (table : TypeTable) (blocks : List EnumBlock) : TypeTable :=
  table.registerAll ((blocks.filter EnumBlock.hasType).map declOfBlock)

/-! ### Aliases -/

/-- The name that the declaration of a name is an alias of. -/
def aliasLink (table : TypeTable) (name : String) : Option String :=
  ((table.lookup? name).bind table.get?).bind TypeEntry.declaredAlias?

/-- The chain of aliases that starts at a name. -/
def aliasTrail (table : TypeTable) (name : String) : Trail String :=
  Trail.follow table.names table.aliasLink name

/-- The type at the end of the chain of aliases that starts at a name. -/
def aliasEnd (table : TypeTable) (name : String) : Outcome TypeId :=
  let trail := table.aliasTrail name
  match trail.ending with
  | .stops => table.require trail.last name
  | .cycles target => .error (.cyclicAlias (trail.path ++ [target]))
  | .leaves target => .error (.unknownType target trail.last)

/-- Turns the declaration of an alias into an alias; other entries stay. -/
def linkAlias (table : TypeTable) (entry : TypeEntry) : Outcome TypeEntry :=
  match entry.declaredAlias? with
  | none => .ok entry
  | some _ => do
      let target ← table.aliasEnd entry.name
      return { entry with kind := .aliasTo target }

/-! ### Kinds -/

/-- The macro that defines a handle through which calls are dispatched. -/
def dispatchableMacro : String := "VK_DEFINE_HANDLE"

/-- The owner of a handle: the first of those listed. -/
def firstParent? (decl : TypeDecl) : Option String :=
  decl.parent.bind fun parents =>
    ((Text.commaPieces parents).map Text.trimmed).find? (· ≠ "")

/-- The type that an optional name of a declaration stands for. -/
def resolveOption (table : TypeTable) (owner : String) : Option String → Outcome (Option TypeId)
  | none => .ok none
  | some name => (table.resolve name owner).map some

/-- The layout of a struct or union before its members are known. -/
def structOf (table : TypeTable) (decl : TypeDecl) : Outcome StructLayout := do
  let bases ← decl.structExtends.mapM fun name => table.resolve name decl.name
  return { members := [], returnedOnly := decl.returnedOnly, bases, extenders := [] }

/-- The layout of an enumeration before its values are known. -/
def enumOf (decl : TypeDecl) (block : Option EnumBlock) : EnumLayout where
  values := []
  isBitmask := match block with
    | some block => block.kind == .bitmask
    | none => Text.contains decl.name "FlagBits"
  bitwidth := (block.bind (·.bitwidth)).getD 32

/-- The kind of a declaration that is no alias. -/
def kindOf (table : TypeTable) (blocks : List EnumBlock) (decl : TypeDecl) : Outcome TypeKind :=
  match decl.category with
  | some "struct" => (table.structOf decl).map .struct
  | some "union" => (table.structOf decl).map .union
  | some "handle" => do
      let parent ← table.resolveOption decl.name (firstParent? decl)
      return .handle {
        dispatchable := decl.innerType == some dispatchableMacro
        parent
        objectType := decl.objectType }
  | some "funcpointer" => .ok .functionPointer
  | some "bitmask" => do
      let bits ← table.resolveOption decl.name (decl.requires <|> decl.bitvalues)
      let flags ← table.resolveOption decl.name decl.innerType
      return .bitmask bits flags
  | some "enum" => .ok (.enumeration (enumOf decl (enumBlock? blocks decl.name)))
  | some "basetype" => (table.resolveOption decl.name decl.innerType).map .base
  | _ => .ok (.base none)

/-- Gives an entry the kind of its declaration; built-in types and aliases stay. -/
def linkKind (table : TypeTable) (blocks : List EnumBlock) (entry : TypeEntry) :
    Outcome TypeEntry :=
  match entry.decl with
  | none => .ok entry
  | some decl =>
      if decl.aliasOf.isSome then .ok entry
      else do
        let kind ← table.kindOf blocks decl
        return { entry with kind }

/-! ### Extenders -/

/-- Whether a type extends the struct `base`. -/
def extendsStruct (base : TypeId) (entry : TypeEntry) : Bool :=
  entry.kind.structLayout?.any (·.bases.contains base)

/-- The structs that extend the struct at an id, in order. -/
def extendersOf (table : TypeTable) (base : TypeId) : List TypeId :=
  (table.indexed.filter fun (_, entry) => extendsStruct base entry).map Prod.fst

/-- Lists the extenders of every struct. -/
def linkExtenders (table : TypeTable) : TypeTable :=
  ⟨table.indexed.map fun (id, entry) =>
    { entry with kind := entry.kind.mapStruct fun layout =>
        { layout with extenders := table.extendersOf id } }⟩

/-! ### All steps -/

/-- Links the table; on a failure the table is linked as far as it goes. -/
def link (table : TypeTable) (blocks : List EnumBlock) : TypeTable × Option RegistryError :=
  let registered := table.registerBlocks blocks
  match replaceUntilFault registered.linkAlias registered.entries with
  | (entries, some fault) => (⟨entries⟩, some fault)
  | (entries, none) =>
      let aliased : TypeTable := ⟨entries⟩
      match replaceUntilFault (aliased.linkKind blocks) aliased.entries with
      | (entries, some fault) => (⟨entries⟩, some fault)
      | (entries, none) => (linkExtenders ⟨entries⟩, none)

/-- The linked table. -/
def linked (table : TypeTable) (blocks : List EnumBlock) : Outcome TypeTable :=
  match table.link blocks with
  | (_, some fault) => .error fault
  | (table, none) => .ok table

end TypeTable

end VulkanRegistry
