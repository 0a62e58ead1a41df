/-
All declarations of the values of one enumeration.

Whether or not a declaration is in use, an alias may refer to it, so aliases are resolved
among all declarations of a document.  The first declaration of a name counts.
-/
import VulkanRegistry.Enumeration.Value
import VulkanRegistry.Trail

namespace VulkanRegistry

/-- The declared values of an enumeration, in the order of their first declaration. -/
structure EnumDeclarations where
  enumeration : String
  specs : List (String × ValueSpec)
  deriving DecidableEq, Repr, Inhabited

namespace EnumDeclarations

/-- No declarations. -/
def empty (enumeration : String) : EnumDeclarations :=
  ⟨enumeration, []⟩

/-- The declaration of a name. -/
def spec? (decls : EnumDeclarations) (name : String) : Option ValueSpec :=
  decls.specs.lookup name

/-- Whether a name is declared. -/
def contains (decls : EnumDeclarations) (name : String) : Bool :=
  (decls.spec? name).isSome

/-- Adds a declaration unless the name is declared. -/
def declare (decls : EnumDeclarations) (name : String) (spec : ValueSpec) : EnumDeclarations :=
  if decls.contains name then decls
  else { decls with specs := decls.specs ++ [(name, spec)] }

/-- The name that the value of a name is taken from. -/
def link (decls : EnumDeclarations) (name : String) : Option String :=
  (decls.spec? name).bind ValueSpec.link?

/-- The chain of aliases that starts at a name. -/
def trail (decls : EnumDeclarations) (name : String) : Trail String :=
  Trail.follow (decls.specs.map Prod.fst) decls.link name

/-- The failure of a name that is not declared. -/
def unknown {α : Type} (decls : EnumDeclarations) (name : String) : Outcome α :=
  .error (.unknownEnumValue name decls.enumeration)

/-- The value of a name: the one at the end of its chain of aliases. -/
def valueOf (decls : EnumDeclarations) (name : String) : Outcome Int :=
  let trail := decls.trail name
  match trail.ending with
  | .cycles target => .error (.cyclicAlias (trail.path ++ [target]))
  | .leaves target => decls.unknown target
  | .stops =>
      match (decls.spec? trail.last).bind ValueSpec.direct? with
      | some value => .ok value
      | none => decls.unknown trail.last

end EnumDeclarations

end VulkanRegistry
