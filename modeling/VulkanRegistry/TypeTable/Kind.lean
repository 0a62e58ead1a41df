/-
What a type is.

There are eight kinds.  Types refer to one another by their place in the table, so a
struct that points at itself is nothing special.  Whether an enumeration has values and
a struct has members is settled later than its kind, when it is known which parts of the
document are in use; until then these lists are empty.
-/
import VulkanRegistry.Member.Basic

namespace VulkanRegistry

/-- A value of an enumeration. -/
structure EnumValue where
  name : String
  value : Int
  /-- The name that stands for the value, if this is another one. -/
  aliasOf : Option String
  comment : Option String
  deriving DecidableEq, Repr, Inhabited

/-- A struct or a union. -/
structure StructLayout where
  members : List Member
  /-- Only the implementation ever writes it. -/
  returnedOnly : Bool
  /-- The structs whose chain may carry this one. -/
  bases : List TypeId
  /-- The structs that this one's chain may carry. -/
  extenders : List TypeId
  deriving DecidableEq, Repr, Inhabited

/-- The first member of a name. -/
def StructLayout.member? (layout : StructLayout) (name : String) : Option Member :=
  layout.members.find? (·.name == name)

/-- A handle. -/
structure HandleLayout where
  /-- Pointer-sized, so that calls are dispatched through it. -/
  dispatchable : Bool
  /-- The handle that owns it. -/
  parent : Option TypeId
  /-- The value that tells this kind of object. -/
  objectType : Option String
  deriving DecidableEq, Repr, Inhabited

/-- An enumeration. -/
structure EnumLayout where
  values : List EnumValue
  isBitmask : Bool
  bitwidth : Nat
  deriving DecidableEq, Repr, Inhabited

namespace EnumLayout

/-- The value of a name. -/
def value? (layout : EnumLayout) (name : String) : Option EnumValue :=
  layout.values.find? (·.name == name)

/-- The values that stand for themselves. -/
def canonical (layout : EnumLayout) : List EnumValue :=
  layout.values.filter (·.aliasOf.isNone)

end EnumLayout

/-- The kinds of types. -/
inductive TypeKind
  /-- A scalar, a define or a type of the platform; `underlying` is what a typedef names. -/
  | base (underlying : Option TypeId)
  /-- Another name for a type that is no alias itself. -/
  | aliasTo (target : TypeId)
  | struct (layout : StructLayout)
  | union (layout : StructLayout)
  | handle (layout : HandleLayout)
  | functionPointer
  /-- A set of flags: the enumeration of its bits and the integer type. -/
  | bitmask (bits : Option TypeId) (flags : Option TypeId)
  | enumeration (layout : EnumLayout)
  deriving DecidableEq, Repr, Inhabited

namespace TypeKind

/-- The type is another name for one. -/
def isAlias : TypeKind → Bool
  | aliasTo _ => true
  | _ => false

/-- What an alias stands for. -/
def aliasTarget? : TypeKind → Option TypeId
  | aliasTo target => some target
  | _ => none

/-- The layout of a struct or union. -/
def structLayout? : TypeKind → Option StructLayout
  | struct layout => some layout
  | union layout => some layout
  | _ => none

/-- The layout of a handle. -/
def handleLayout? : TypeKind → Option HandleLayout
  | handle layout => some layout
  | _ => none

/-- The layout of an enumeration. -/
def enumLayout? : TypeKind → Option EnumLayout
  | enumeration layout => some layout
  | _ => none

/-- Changes the layout of a struct or union and nothing else. -/
def mapStruct (f : StructLayout → StructLayout) : TypeKind → TypeKind
  | struct layout => struct (f layout)
  | union layout => union (f layout)
  | kind => kind

/-- Changes the layout of an enumeration and nothing else. -/
def mapEnum (f : EnumLayout → EnumLayout) : TypeKind → TypeKind
  | enumeration layout => enumeration (f layout)
  | kind => kind

end TypeKind

end VulkanRegistry
