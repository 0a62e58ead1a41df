/-
Merging the values of an enumeration.

The values of an enumeration come from its own block, from core versions and from
extensions.  Merged, they stand in the order of their first contribution, those of the
core first, and every number has exactly one name that stands for it: the first one that
is not declared as an alias of a name that is there as well.  All other names of the
number become aliases of that one.
-/
import VulkanRegistry.TypeTable.Kind

namespace VulkanRegistry

/-- One declaration of a value that is in use. -/
structure Contribution where
  name : String
  /-- The value, with aliases resolved. -/
  value : Int
  /-- The name it is declared as an alias of. -/
  aliasOf : Option String
  comment : Option String
  deriving DecidableEq, Repr, Inhabited

namespace Contribution

/-- The first contribution of every name, in order. -/
def firstOfEach : List Contribution → List Contribution
  | [] => []
  | c :: cs => c :: (firstOfEach cs).filter (·.name ≠ c.name)

/-- Whether a contribution is no alias of a name among `entries`. -/
def standsAlone (entries : List Contribution) (c : Contribution) : Bool :=
  match c.aliasOf with
  | none => true
  | some target => entries.all (·.name ≠ target)

/-- The name that stands for a number. -/
def canonicalName? (entries : List Contribution) (value : Int) : Option String :=
  (entries.find? fun c => standsAlone entries c && c.value == value).map (·.name)

/-- The value that a contribution becomes among `entries`. -/
def toValue (entries : List Contribution) (c : Contribution) : EnumValue where
  name := c.name
  value := c.value
  aliasOf := (canonicalName? entries c.value).filter (· ≠ c.name)
  comment := c.comment

/-- Merges the contributions of the core and of extensions. -/
def merge (core extension : List Contribution) : List EnumValue :=
  let entries := firstOfEach (core ++ extension)
  entries.map (toValue entries)

end Contribution

end VulkanRegistry
