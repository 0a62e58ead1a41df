/-
Filtering a document for one interface.

A document describes several interfaces at once.  Whatever has an `api` list without the
interface that is asked for is dropped before anything is resolved: types and their
members, commands and their parameters, values, core versions, blocks of directives and
the values in them.  Extensions stay; whether they are wanted is decided by selection.
-/
import VulkanRegistry.Document.Declaration
import VulkanRegistry.Options

namespace VulkanRegistry

/-- Drops the members of other interfaces. -/
def TypeDecl.forApi (options : RegistryOptions) (decl : TypeDecl) : TypeDecl :=
  { decl with members := decl.members.filter (options.acceptsApi ·.api) }

/-- Drops the parameters of other interfaces. -/
def CommandDecl.forApi (options : RegistryOptions) (decl : CommandDecl) : CommandDecl :=
  { decl with params := decl.params.filter (options.acceptsApi ·.api) }

/-- Drops the values of other interfaces. -/
def EnumBlock.forApi (options : RegistryOptions) (block : EnumBlock) : EnumBlock :=
  { block with values := block.values.filter (options.acceptsApi ·.api) }

/-- Whether a directive is meant for the interface; only those about values may say so. -/
def Directive.isForApi (options : RegistryOptions) : Directive → Bool
  | .value d => options.acceptsApi d.api
  | _ => true

/-- Drops the blocks of other interfaces, and their directives in the blocks that stay. -/
def blocksForApi (options : RegistryOptions) (blocks : List DirectiveBlock) :
    List DirectiveBlock :=
  (blocks.filter (options.acceptsApi ·.api)).map fun block =>
    { block with directives := block.directives.filter (Directive.isForApi options) }

/-- What a document says about the interface of the options. -/
def Document.forApi (doc : Document) (options : RegistryOptions) : Document where
  platforms := doc.platforms
  types := (doc.types.filter (options.acceptsApi ·.api)).map (TypeDecl.forApi options)
  enums := doc.enums.map (EnumBlock.forApi options)
  commands := (doc.commands.filter (options.acceptsApi ·.api)).map (CommandDecl.forApi options)
  features := (doc.features.filter (options.acceptsApi ·.api)).map fun feature =>
    { feature with blocks := blocksForApi options feature.blocks }
  extensions := doc.extensions.map fun ext =>
    { ext with blocks := blocksForApi options ext.blocks }

end VulkanRegistry
