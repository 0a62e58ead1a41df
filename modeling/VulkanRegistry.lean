import VulkanRegistry.Activation.Basic
import VulkanRegistry.Activation.Closure
import VulkanRegistry.Activation.Directive
import VulkanRegistry.Chain
import VulkanRegistry.Command.Dispatch
import VulkanRegistry.Command.Table
import VulkanRegistry.Constant.Indexed
import VulkanRegistry.Constant.Literal
import VulkanRegistry.Constant.Table
import VulkanRegistry.Declarator
import VulkanRegistry.Declarator.Slicing
import VulkanRegistry.Dependency.Expression
import VulkanRegistry.Dependency.Names
import VulkanRegistry.Diagnostic
import VulkanRegistry.Document.Declaration
import VulkanRegistry.Document.Filter
import VulkanRegistry.Document.Reader
import VulkanRegistry.Enumeration.Declarations
import VulkanRegistry.Enumeration.Fill
import VulkanRegistry.Enumeration.Merge
import VulkanRegistry.Enumeration.Value
import VulkanRegistry.Feature
import VulkanRegistry.Lifetime
import VulkanRegistry.Markup.Attribute
import VulkanRegistry.Markup.Event
import VulkanRegistry.Markup.Fault
import VulkanRegistry.Markup.Node
import VulkanRegistry.Markup.Reference
import VulkanRegistry.Markup.Token
import VulkanRegistry.Markup.Tree
import VulkanRegistry.Member.Basic
import VulkanRegistry.Member.Length
import VulkanRegistry.Member.LengthReading
import VulkanRegistry.Member.Reading
import VulkanRegistry.Options
import VulkanRegistry.Origin
import VulkanRegistry.Platform
import VulkanRegistry.Proofs.Activation.Application
import VulkanRegistry.Proofs.Activation.CloseCommands
import VulkanRegistry.Proofs.Activation.CloseTypes
import VulkanRegistry.Proofs.Activation.Closure
import VulkanRegistry.Proofs.Activation.History
import VulkanRegistry.Proofs.Activation.Inherit
import VulkanRegistry.Proofs.Activation.Mention
import VulkanRegistry.Proofs.Activation.Record
import VulkanRegistry.Proofs.Activation.RequireOnly
import VulkanRegistry.Proofs.Activation.Values
import VulkanRegistry.Proofs.Chain
import VulkanRegistry.Proofs.Command.Dispatch
import VulkanRegistry.Proofs.Constant.History
import VulkanRegistry.Proofs.Constant.Literal
import VulkanRegistry.Proofs.Constant.Number
import VulkanRegistry.Proofs.Constant.Table
import VulkanRegistry.Proofs.Declarator
import VulkanRegistry.Proofs.Declarator.Printing
import VulkanRegistry.Proofs.Declarator.Slicing
import VulkanRegistry.Proofs.Dependency.Grammar
import VulkanRegistry.Proofs.Dependency.Names
import VulkanRegistry.Proofs.Enumeration.AliasChains
import VulkanRegistry.Proofs.Enumeration.Canonical
import VulkanRegistry.Proofs.Enumeration.Coherent
import VulkanRegistry.Proofs.Enumeration.Declarations
import VulkanRegistry.Proofs.Enumeration.Merge
import VulkanRegistry.Proofs.Enumeration.Value
import VulkanRegistry.Proofs.Lifetime.Query
import VulkanRegistry.Proofs.Lifetime.Table
import VulkanRegistry.Proofs.Markup.Tree
import VulkanRegistry.Proofs.Member.Composition
import VulkanRegistry.Proofs.Member.LengthReading
import VulkanRegistry.Proofs.Member.LengthScan
import VulkanRegistry.Proofs.Numeral
import VulkanRegistry.Proofs.Origin
import VulkanRegistry.Proofs.Outcome
import VulkanRegistry.Proofs.Platform
import VulkanRegistry.Proofs.Registry.AddedValues
import VulkanRegistry.Proofs.Registry.BlockValues
import VulkanRegistry.Proofs.Registry.CanonicalValues
import VulkanRegistry.Proofs.Registry.Chains
import VulkanRegistry.Proofs.Registry.CommandAliases
import VulkanRegistry.Proofs.Registry.Commands
import VulkanRegistry.Proofs.Registry.Constants
import VulkanRegistry.Proofs.Registry.Fill
import VulkanRegistry.Proofs.Registry.Lifetimes
import VulkanRegistry.Proofs.Registry.Monotone
import VulkanRegistry.Proofs.Registry.Partition
import VulkanRegistry.Proofs.Registry.References
import VulkanRegistry.Proofs.Registry.Sources
import VulkanRegistry.Proofs.Registry.Steps
import VulkanRegistry.Proofs.Registry.Unguarded
import VulkanRegistry.Proofs.Registry.ValuePlacement
import VulkanRegistry.Proofs.Selection
import VulkanRegistry.Proofs.Text
import VulkanRegistry.Proofs.Trail
import VulkanRegistry.Proofs.TypeTable.Alias
import VulkanRegistry.Proofs.TypeTable.Extenders
import VulkanRegistry.Proofs.TypeTable.Link
import VulkanRegistry.Proofs.TypeTable.Lookup
import VulkanRegistry.Proofs.TypeTable.Outline
import VulkanRegistry.Registry.Basic
import VulkanRegistry.Registry.Build
import VulkanRegistry.Selection
import VulkanRegistry.Text.Blank
import VulkanRegistry.Text.Numeral
import VulkanRegistry.Text.Pieces
import VulkanRegistry.Trail
import VulkanRegistry.TypeTable.Basic
import VulkanRegistry.TypeTable.Kind
import VulkanRegistry.TypeTable.Link
import VulkanRegistry.Version
