/-
The constants of an interface.

Constants stand in the order of their definition.  The first definition of a name counts
and later ones change nothing, so definitions from extensions never disturb those of the
core.  An alias copies what its target has; as a target has to be defined already, and
is replaced by the constant it is itself an alias of, aliases never form chains.
-/
import VulkanRegistry.Constant.Literal
import VulkanRegistry.Diagnostic

namespace VulkanRegistry

/-- A constant. -/
structure Constant where
  name : String
  /-- The literal as it is written. -/
  literal : String
  /-- The value of an integer literal. -/
  value : Option Int
  /-- The C type. -/
  ctype : Option String
  /-- The constant that this is another name for. -/
  aliasOf : Option String
  deriving DecidableEq, Repr, Inhabited

/-- The constant that a literal defines. -/
def Constant.ofLiteral (name literal : String) (ctype : Option String) : Constant :=
  { name, literal, value := Literal.toInt? literal, ctype, aliasOf := none }

@[simp] theorem Constant.name_ofLiteral (name literal : String) (ctype : Option String) :
    (Constant.ofLiteral name literal ctype).name = name := rfl

/-- Another name for a constant, or for what the constant is itself another name for. -/
def Constant.renamed (constant : Constant) (name : String) : Constant :=
  { constant with name, aliasOf := some (constant.aliasOf.getD constant.name) }

/-- Constants in the order of their definition. -/
structure ConstantTable where
  entries : List Constant
  deriving DecidableEq, Repr, Inhabited

namespace ConstantTable

/-- No constants. -/
def empty : ConstantTable := ⟨[]⟩

/-- The constant of a name. -/
def get? (table : ConstantTable) (name : String) : Option Constant :=
  table.entries.find? (·.name == name)

/-- Whether a name is defined. -/
def contains (table : ConstantTable) (name : String) : Bool :=
  (table.get? name).isSome

/-- Adds a constant at the end unless its name is defined. -/
def insertNew (table : ConstantTable) (constant : Constant) : ConstantTable :=
  if table.contains constant.name then table else ⟨table.entries ++ [constant]⟩

/-- Defines a constant by its literal. -/
def define (table : ConstantTable) (name literal : String) (ctype : Option String) :
    ConstantTable :=
  table.insertNew (.ofLiteral name literal ctype)

/-- Defines another name for a constant. -/
def defineAlias (table : ConstantTable) (name target : String) : Outcome ConstantTable :=
  if table.contains name then .ok table
  else
    match table.get? target with
    | none => .error (.unknownConstant target name)
    | some found => .ok (table.insertNew (found.renamed name))

/-- The value of an array extent, which is a literal or the name of a constant. -/
def extent? (table : ConstantTable) (text : String) : Option Nat :=
  match Literal.toInt? text with
  | some value => Literal.unsigned64? value
  | none => ((table.get? text).bind (·.value)).bind Literal.unsigned64?

/-- The value of an array extent that `referrer` mentions. -/
def arrayLength (table : ConstantTable) (text referrer : String) : Outcome Nat :=
  match table.extent? text with
  | some value => .ok value
  | none => .error (.unknownConstant text referrer)

end ConstantTable

end VulkanRegistry
