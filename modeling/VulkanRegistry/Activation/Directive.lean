/-
Applying directives.

Directives run one after the other, those of the core versions first and then those of
the selected extensions, and each can undo what came before it: whether an entity ends
up in use is decided by the last directive that names it.  A directive has to name
something that the document declares.

A directive about a value may also declare it.  With an enumeration to extend, it adds a
value to that; without, it defines a constant, or another name for one.
-/
import VulkanRegistry.Activation.Basic
import VulkanRegistry.Constant.Table
import VulkanRegistry.TypeTable.Basic

namespace VulkanRegistry

/-! ### What the document declares -/

/-- The commands of a document, and the names of its values and constants. -/
structure EntityIndex where
  commands : List CommandDecl
  valueNames : List String
  deriving DecidableEq, Repr, Inhabited

/-- The value that a directive declares. -/
def Directive.declaredValue? : Directive → Option ValueDirective
  | .value d => if d.isReference then none else some d
  | _ => none

/-- The blocks of all versions and then of all extensions. -/
def Document.blocks (doc : Document) : List DirectiveBlock :=
  doc.features.flatMap (·.blocks) ++ doc.extensions.flatMap (·.blocks)

namespace EntityIndex

/-- What a document declares, whether or not it is in use. -/
def ofDocument (doc : Document) : EntityIndex where
  commands := doc.commands
  valueNames :=
    (doc.enums.flatMap (·.values)).map (·.name) ++
      ((doc.blocks.flatMap (·.directives)).filterMap Directive.declaredValue?).map (·.name)

/-- The place of the first command of a name. -/
def command? (index : EntityIndex) (name : String) : Option Nat :=
  index.commands.findIdx? (·.name == name)

/-- The declaration at a place. -/
def decl? (index : EntityIndex) (place : Nat) : Option CommandDecl :=
  index.commands[place]?

/-- The declared commands with their places. -/
def placed (index : EntityIndex) : List (Nat × CommandDecl) :=
  index.commands.zipIdx.map fun (decl, place) => (place, decl)

/-- Whether a name is that of a value or a constant. -/
def knowsValue (index : EntityIndex) (constants : ConstantTable) (name : String) : Bool :=
  index.valueNames.contains name || constants.contains name

end EntityIndex

/-! ### Applying -/

/-- The directives of one version or extension. -/
structure DirectiveSource where
  name : String
  origin : Origin
  /-- The number of an extension. -/
  number : Option Nat
  blocks : List DirectiveBlock
  deriving DecidableEq, Repr, Inhabited

/-- What directives change: the entities in use, and the constants. -/
structure Progress where
  set : ActiveSet
  constants : ConstantTable
  deriving DecidableEq, Repr, Inhabited

namespace DirectiveSource

/-- The failure of a directive that names nothing. -/
def unresolved {α : Type} (source : DirectiveSource) (kind : EntityKind) (name : String) :
    Outcome α :=
  .error (.unresolvedRequire source.name kind name)

/-- The type that a directive names. -/
def typeNamed (source : DirectiveSource) (types : TypeTable) (name : String) : Outcome TypeId :=
  match types.lookup? name with
  | some id => .ok id
  | none => source.unresolved .type name

/-- The command that a directive names. -/
def commandNamed (source : DirectiveSource) (index : EntityIndex) (name : String) : Outcome Nat :=
  match index.command? name with
  | some place => .ok place
  | none => source.unresolved .command name

/-- Checks that a directive names a value or a constant. -/
def valueNamed (source : DirectiveSource) (index : EntityIndex) (constants : ConstantTable)
    (name : String) : Outcome Unit :=
  if index.knowsValue constants name then .ok () else source.unresolved .value name

/-- Requires a value of the enumeration `extended`. -/
def requireMember (source : DirectiveSource) (types : TypeTable) (index : EntityIndex)
    (d : ValueDirective) (extended : String) (state : Progress) : Outcome Progress := do
  let enumeration ← types.resolve extended source.name
  match ← ValueSpec.ofDirective d source.number with
  | some spec =>
      let value : AddedValue :=
        { enumeration, name := d.name, spec, comment := d.comment, origin := source.origin }
      return { state with set := state.set.addValue value }
  | none =>
      source.valueNamed index state.constants d.name
      return { state with set := state.set.restoreValue d.name }

/-- Requires a value that is not said to belong to an enumeration. -/
def requireConstant (source : DirectiveSource) (index : EntityIndex) (d : ValueDirective)
    (state : Progress) : Outcome Progress :=
  match d.aliasOf, d.value with
  | some target, _ => do
      let constants ← state.constants.defineAlias d.name target
      return { state with constants }
  | none, some literal =>
      .ok { state with constants := state.constants.define d.name literal none }
  | none, none =>
      if d.isReference then do
        source.valueNamed index state.constants d.name
        return { state with set := state.set.restoreValue d.name }
      else
        .error (.malformed 0
          s!"`{d.name}` in `{source.name}` has a position but no enumeration to extend")

/-- Applies a directive that requires something. -/
def require (source : DirectiveSource) (types : TypeTable) (index : EntityIndex)
    (state : Progress) : Directive → Outcome Progress
  | .type name => do
      let id ← source.typeNamed types name
      return { state with set := state.set.requireType id [source.origin] }
  | .command name => do
      let place ← source.commandNamed index name
      return { state with set := state.set.requireCommand place [source.origin] }
  | .value d =>
      match d.extended with
      | some extended => source.requireMember types index d extended state
      | none => source.requireConstant index d state

/-- Applies a directive that removes something. -/
def remove (source : DirectiveSource) (types : TypeTable) (index : EntityIndex)
    (state : Progress) : Directive → Outcome Progress
  | .type name => do
      let id ← source.typeNamed types name
      return { state with set := state.set.removeType id }
  | .command name => do
      let place ← source.commandNamed index name
      return { state with set := state.set.removeCommand place }
  | .value d => do
      source.valueNamed index state.constants d.name
      return { state with set := state.set.removeValue d.name }

/-- Applies a directive of a block of this kind. -/
def applyDirective (source : DirectiveSource) (types : TypeTable) (index : EntityIndex)
    (kind : BlockKind) (state : Progress) (directive : Directive) : Outcome Progress :=
  match kind with
  | .require => source.require types index state directive
  | .remove => source.remove types index state directive

/-- The directives of a source in order, each with the kind of its block. -/
def directives (source : DirectiveSource) : List (BlockKind × Directive) :=
  source.blocks.flatMap fun block => block.directives.map fun d => (block.kind, d)

/-- Applies the directives of a source. -/
def apply (source : DirectiveSource) (types : TypeTable) (index : EntityIndex)
    (state : Progress) : Outcome Progress :=
  source.directives.foldlM
    (fun state (kind, directive) => source.applyDirective types index kind state directive) state

end DirectiveSource

/-- Applies the directives of all sources, starting with nothing in use. -/
def applyDirectives (sources : List DirectiveSource) (types : TypeTable) (index : EntityIndex)
    (constants : ConstantTable) : Outcome Progress :=
  sources.foldlM (fun state source => source.apply types index state)
    ⟨ActiveSet.idle types.size index.commands.length, constants⟩

end VulkanRegistry
