/-
Building a registry from a document.

  1. The document is read and filtered for the interface.
  2. Types are registered and linked, and the constants of the core are defined.
  3. Extensions are selected, the directives of all core versions and selected
     extensions are applied, and what is in use is closed under mentions.
  4. The members of structs, the commands and the values of enumerations in use are
     worked out.
  5. Everything in use is partitioned by platform, and the tables of chains and of
     lifetimes are made.

The first failure ends the build.
-/
import VulkanRegistry.Activation.Closure
import VulkanRegistry.Document.Filter
import VulkanRegistry.Document.Reader
import VulkanRegistry.Enumeration.Fill
import VulkanRegistry.Registry.Basic
import VulkanRegistry.Selection

namespace VulkanRegistry

/-! ### Constants -/

/-- The values of the blocks of constants. -/
def Document.constantDecls (doc : Document) : List ValueDecl :=
  (doc.enums.filter (·.kind == .constants)).flatMap (·.values)

/-- Defines a constant that has a literal. -/
def ConstantTable.defineDecl (table : ConstantTable) (decl : ValueDecl) : ConstantTable :=
  match decl.value with
  | some literal => table.define decl.name literal decl.ctype
  | none => table

/-- Defines a constant that is another name for one. -/
def ConstantTable.defineAliasDecl (table : ConstantTable) (decl : ValueDecl) :
    Outcome ConstantTable :=
  match decl.aliasOf with
  | some target => table.defineAlias decl.name target
  | none => .ok table

/-- The constants of the core: those with a literal first, then aliases in order. -/
def Document.constants (doc : Document) : Outcome ConstantTable :=
  doc.constantDecls.foldlM ConstantTable.defineAliasDecl
    (doc.constantDecls.foldl ConstantTable.defineDecl .empty)

/-! ### Versions and extensions -/

/-- The names of the versions and extensions whose directives are applied. -/
def Document.activeNames (doc : Document) (selected : List ExtensionDecl) : List String :=
  doc.features.map (·.name) ++ selected.map (·.name)

/-- A core version with its directives. -/
def featureSource (active : List String) (decl : FeatureDecl) (index : Nat) :
    Outcome (Feature × DirectiveSource) := do
  let blocks ← applicableBlocks active decl.blocks
  let feature ← Feature.ofDecl decl blocks
  return (feature, ⟨decl.name, .feature index, none, blocks⟩)

/-- An extension with its directives. -/
def extensionSource (active : List String) (decl : ExtensionDecl) (index : Nat) :
    Outcome (Extension × DirectiveSource) := do
  let blocks ← applicableBlocks active decl.blocks
  return (Extension.ofDecl decl blocks, ⟨decl.name, .extension index, some decl.number, blocks⟩)

/-! ### Members and commands -/

/-- Reads the members of a struct in use, and keeps only what is in use of the structs it
extends and of those that extend it. -/
def fillStruct (types : TypeTable) (constants : ConstantTable) (isActive : TypeId → Bool)
    (indexed : TypeId × TypeEntry) : Outcome TypeEntry :=
  let (id, entry) := indexed
  match entry.decl with
  | none => .ok entry
  | some decl =>
      if isActive id && entry.kind.structLayout?.isSome then do
        let members ← Member.ofFields ⟨entry.name, .member, decl.members, types, constants⟩
          decl.members
        return { entry with kind := entry.kind.mapStruct fun layout =>
          { layout with
            members
            bases := layout.bases.filter isActive
            extenders := layout.extenders.filter isActive } }
      else .ok entry

/-- Reads the members of all structs in use. -/
def TypeTable.fillStructs (types : TypeTable) (constants : ConstantTable)
    (isActive : TypeId → Bool) : Outcome TypeTable := do
  let entries ← types.indexed.mapM (fillStruct types constants isActive)
  return ⟨entries⟩

/-- The commands in use with their places in the document. -/
def EntityIndex.active (index : EntityIndex) (set : ActiveSet) : List (Nat × CommandDecl) :=
  index.placed.filter fun (place, _) => (set.commandAt place).isActive

/-- The core version that an origin is. -/
def Origin.featureName? (features : List Feature) : Origin → Option String
  | .feature index => (features[index]?).map (·.name)
  | .extension _ => none

/-- Adds a command that is no alias. -/
def addCommand (types : TypeTable) (constants : ConstantTable) (set : ActiveSet)
    (features : List Feature) (table : CommandTable) (placed : Nat × CommandDecl) :
    Outcome CommandTable := do
  let (place, decl) := placed
  let command ← Command.ofDecl decl types constants
  let feature := (set.commandAt place).origins.findSome? (Origin.featureName? features)
  return table.insert { command with feature }

/-- Adds another name for a command. -/
def addCommandAlias (index : EntityIndex) (table : CommandTable) (placed : Nat × CommandDecl) :
    Outcome CommandTable :=
  table.insertAlias placed.2.name (index.aliasTrail placed.2.name).last

/-- The commands in use, and then their other names. -/
def buildCommands (types : TypeTable) (constants : ConstantTable) (index : EntityIndex)
    (set : ActiveSet) (features : List Feature) : Outcome CommandTable := do
  let active := index.active set
  let table ← (active.filter (·.2.aliasOf.isNone)).foldlM
    (addCommand types constants set features) CommandTable.empty
  (active.filter (·.2.aliasOf.isSome)).foldlM (addCommandAlias index) table

/-! ### Platforms -/

/-- The names of the commands in use, each once. -/
def activeCommandNames (index : EntityIndex) (set : ActiveSet) (commands : CommandTable) :
    List (String × Activation) :=
  let named := (index.active set).map fun (place, decl) => (decl.name, set.commandAt place)
  (named.filter fun (name, _) => commands.contains name).eraseDupsBy (·.1 == ·.1)

/-- The origins of the directives that add values of a name, if there are any. -/
def ActiveSet.valueOrigins? (set : ActiveSet) (name : String) : Option (List Origin) :=
  match (set.values.filter (·.name == name)).map (·.origin) with
  | [] => none
  | origins => some (Origin.insertAll origins [])

/-- The values of an enumeration, each with the origins that count for it: those of the
directives that add it, or else those of the enumeration. -/
def enumValueOrigins (set : ActiveSet) (id : TypeId) (layout : EnumLayout) :
    List (ValueRef × List Origin) :=
  layout.values.map fun value =>
    (⟨id, value.name⟩, (set.valueOrigins? value.name).getD (set.typeAt id).origins)

/-- Puts everything in use into the bucket of its platform. -/
def partition (doc : Document) (types : TypeTable) (isActive : TypeId → Bool) (set : ActiveSet)
    (index : EntityIndex) (commands : CommandTable) (extensions : List Extension)
    (options : RegistryOptions) : PlatformTable :=
  let activeIds := types.ids.filter isActive
  let values := activeIds.flatMap fun id =>
    match types.enum? id with
    | some layout => enumValueOrigins set id layout
    | none => []
  let start := PlatformTable.initial doc.platforms extensions options
  let withTypes := activeIds.foldl
    (fun table id => table.addType id (bucket (set.typeAt id).origins extensions)) start
  let withCommands := (activeCommandNames index set commands).foldl
    (fun table (name, activation) => table.addCommand name (bucket activation.origins extensions))
    withTypes
  values.foldl
    (fun table (value, origins) => table.addValue value (bucket origins extensions)) withCommands

/-! ### The version -/

/-- The define that holds the patch level. -/
def headerVersion : String := "VK_HEADER_VERSION"

/-- The patch level that the document states. -/
def TypeTable.patchLevel (types : TypeTable) : Nat :=
  let stated := do
    let id ← types.lookup? headerVersion
    let decl ← types.decl? id
    let tail ← decl.nameTail
    Text.toNat32? (Text.trim tail.toList)
  stated.getD 0

/-- The latest core version, with the patch level of the document. -/
def apiVersion (types : TypeTable) (features : List Feature) : ApiVersion :=
  { ApiVersion.latest (features.map (·.version)) with patch := types.patchLevel }

/-! ### The build -/

namespace Registry

/-- Builds a registry from a document that is filtered already. -/
def ofDocument (doc : Document) (options : RegistryOptions) : Outcome Registry := do
  let linked ← (TypeTable.initial.registerAll doc.types).linked doc.enums
  let coreConstants ← doc.constants
  let selected ← selectExtensions doc options
  let names := doc.activeNames selected
  let featureSources ← doc.features.zipIdx.mapM fun (decl, place) => featureSource names decl place
  let extensionSources ← selected.zipIdx.mapM fun (decl, place) => extensionSource names decl place
  let features := featureSources.map (·.1)
  let extensions := extensionSources.map (·.1)
  let index := EntityIndex.ofDocument doc
  let sources := featureSources.map (·.2) ++ extensionSources.map (·.2)
  let applied ← applyDirectives sources linked index coreConstants
  let constants := applied.constants
  let set ← closeMentions applied.set linked index
  let isActive (id : TypeId) : Bool :=
    (set.typeAt id).isActive || linked.lookup? TypeTable.stringName == some id
  let structsFilled ← linked.fillStructs constants isActive
  let commands ← buildCommands structsFilled constants index set features
  let types ← structsFilled.fillEnums doc set isActive
  return {
    types, constants, commands, features, extensions
    active := types.ids.map isActive
    platforms := partition doc types isActive set index commands extensions options
    chain := ChainTable.ofTypes types isActive
    handles := HandleInfoTable.ofCommands types commands isActive
    version := apiVersion types features }

/-- Builds a registry from the text of a document. -/
def build (source : String) (options : RegistryOptions) : Outcome Registry := do
  let doc ← Document.parse source
  ofDocument (doc.forApi options) options

/-- Builds a registry from the document that the options name, given its text or the reason
why it cannot be read. -/
def buildFromFile (options : RegistryOptions) (content : Except String String) :
    Outcome Registry :=
  match content with
  | .ok source => build source options
  | .error reason => .error (.unreadable options.registryPath reason)

end Registry

end VulkanRegistry
