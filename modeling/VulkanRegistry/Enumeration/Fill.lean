/-
The values of the enumerations in use.

An enumeration in use gets the values of its own block, as far as no directive removed
them, and those that directives added.  Its block and core versions count as core, so
their names win over those of extensions.  The values of aliases are looked up among all
declarations of the document, whether they are in use or not; a declaration without a
proper value is a failure even if nothing ever uses it.
-/
import VulkanRegistry.Activation.Directive
import VulkanRegistry.Enumeration.Declarations
import VulkanRegistry.Enumeration.Merge
import VulkanRegistry.TypeTable.Link

namespace VulkanRegistry

/-- A declared value of an enumeration. -/
structure DeclaredValue where
  /-- The enumeration, which is never an alias. -/
  enumeration : TypeId
  name : String
  spec : ValueSpec
  deriving DecidableEq, Repr, Inhabited

/-! ### All declarations of a document -/

/-- The values that a block declares. -/
def EnumBlock.declared (block : EnumBlock) (types : TypeTable) : Outcome (List DeclaredValue) :=
  match types.lookup? block.name with
  | none => .ok []
  | some id => block.values.mapM fun value => do
      let spec ← ValueSpec.ofBlock value
      return ⟨types.canonical id, value.name, spec⟩

/-- The value that a directive of the extension of number `holder`, or of a core version,
declares for an enumeration. -/
def Directive.declared (types : TypeTable) (holder : Option Nat) :
    Directive → Outcome (Option DeclaredValue)
  | .value d =>
      match d.extended.bind types.lookup? with
      | none => .ok none
      | some id => do
          let spec ← ValueSpec.ofDirective d holder
          return spec.map fun spec => ⟨types.canonical id, d.name, spec⟩
  | _ => .ok none

/-- The directives of all versions and then of all extensions, each with the number of
the extension that holds it. -/
def Document.heldDirectives (doc : Document) : List (Option Nat × Directive) :=
  let ofBlocks (holder : Option Nat) (blocks : List DirectiveBlock) :=
    (blocks.flatMap (·.directives)).map fun d => (holder, d)
  doc.features.flatMap (fun feature => ofBlocks none feature.blocks) ++
    doc.extensions.flatMap (fun ext => ofBlocks (some ext.number) ext.blocks)

/-- Every value that a document declares for an enumeration: blocks first. -/
def Document.declaredValues (doc : Document) (types : TypeTable) : Outcome (List DeclaredValue) := do
  let inBlocks ← (doc.enums.filter EnumBlock.hasType).mapM (EnumBlock.declared · types)
  let inDirectives ← doc.heldDirectives.mapM fun (holder, d) => d.declared types holder
  return inBlocks.flatten ++ inDirectives.filterMap id

/-- The declarations of one enumeration among those of a document. -/
def EnumDeclarations.among (declared : List DeclaredValue) (types : TypeTable) (id : TypeId) :
    EnumDeclarations :=
  (declared.filter (·.enumeration == id)).foldl (fun decls v => decls.declare v.name v.spec)
    (EnumDeclarations.empty (types.nameOf id))

/-! ### The values in use -/

/-- What a value of an enumeration's own block contributes. -/
def ValueDecl.contribution (value : ValueDecl) (decls : EnumDeclarations) :
    Outcome Contribution := do
  let number ← decls.valueOf value.name
  return ⟨value.name, number, value.aliasOf, value.comment⟩

/-- What an added value contributes. -/
def AddedValue.contribution (value : AddedValue) (decls : EnumDeclarations) :
    Outcome Contribution :=
  match value.spec with
  | .number number => .ok ⟨value.name, number, none, value.comment⟩
  | .aliasTo target => do
      let number ← decls.valueOf target
      return ⟨value.name, number, some target, value.comment⟩

/-- Whether a value was added by a core version. -/
def AddedValue.isCore (value : AddedValue) : Bool :=
  match value.origin with
  | .feature _ => true
  | .extension _ => false

/-- The values of an enumeration's own block that have not been removed. -/
def ActiveSet.blockValues (set : ActiveSet) (block : Option EnumBlock) : List ValueDecl :=
  ((block.map (·.values)).getD []).filter fun value => !set.isValueRemoved value.name

/-- What the values in use contribute to the enumeration of a name and id: those of its block
and of core versions, and those of extensions. -/
def contributionsTo (doc : Document) (set : ActiveSet) (decls : EnumDeclarations) (name : String)
    (id : TypeId) : Outcome (List Contribution × List Contribution) := do
  let own ← (set.blockValues (enumBlock? doc.enums name)).mapM (ValueDecl.contribution · decls)
  let added ← (set.values.filter (·.enumeration == id)).mapM fun value => do
    let contribution ← value.contribution decls
    return (value.isCore, contribution)
  return (own ++ (added.filter (·.1)).map (·.2), (added.filter (!·.1)).map (·.2))

/-- The values of the enumeration of a name and id. -/
def mergedValues (doc : Document) (set : ActiveSet) (decls : EnumDeclarations) (name : String)
    (id : TypeId) : Outcome (List EnumValue) := do
  let (core, extension) ← contributionsTo doc set decls name id
  return Contribution.merge core extension

/-- Gives an enumeration in use its values; other types stay. -/
def fillEnum (doc : Document) (set : ActiveSet) (isActive : TypeId → Bool) (types : TypeTable)
    (declared : List DeclaredValue) (indexed : TypeId × TypeEntry) : Outcome TypeEntry :=
  let (id, entry) := indexed
  if isActive id && entry.kind.enumLayout?.isSome then do
    let values ← mergedValues doc set (EnumDeclarations.among declared types id) entry.name id
    return { entry with kind := entry.kind.mapEnum fun layout => { layout with values } }
  else .ok entry

/-- Gives the enumerations in use their values. -/
def TypeTable.fillEnums (types : TypeTable) (doc : Document) (set : ActiveSet)
    (isActive : TypeId → Bool) : Outcome TypeTable := do
  let declared ← doc.declaredValues types
  let entries ← types.indexed.mapM (fillEnum doc set isActive types declared)
  return ⟨entries⟩

end VulkanRegistry
