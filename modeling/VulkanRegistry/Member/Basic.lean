/-
Members: fields whose type is known.

A member of a struct or a parameter of a command is a base type wrapped in levels of
indirection, the outermost first.  What a consumer asks of a member is nearly always
asked of that outermost level.
-/
import VulkanRegistry.Member.Length

namespace VulkanRegistry

/-- The place of a type in the type table. -/
structure TypeId where
  index : Nat
  deriving DecidableEq, Repr, Inhabited

/-- How an id is shown to people. -/
def TypeId.label (id : TypeId) : String :=
  s!"TypeId({id.index})"

/-- The extent of an array, and the constant it was written as. -/
structure ArrayLength where
  value : Nat
  constant : Option String
  deriving DecidableEq, Repr, Inhabited

/-- One level of indirection; the flag says whether what it leads to is constant. -/
inductive Modifier
  | pointer (isConst : Bool)
  | fixedArray (length : ArrayLength) (isConst : Bool)
  | dynamicArray (length : LengthExpr) (isConst : Bool)
  /-- The head of a chain of structs that extend the owner. -/
  | chainPointer (isConst : Bool)
  deriving DecidableEq, Repr, Inhabited

namespace Modifier

/-- What the level leads to is constant. -/
def isConst : Modifier → Bool
  | pointer c => c
  | fixedArray _ c => c
  | dynamicArray _ c => c
  | chainPointer c => c

/-- The level is written with a star. -/
def isPointer : Modifier → Bool
  | fixedArray .. => false
  | _ => true

/-- The level leads to memory that the callee writes. -/
def isOutput : Modifier → Bool
  | pointer c => !c
  | dynamicArray _ c => !c
  | _ => false

end Modifier

/-- A struct member or a command parameter. -/
structure Member where
  name : String
  /-- The base type, which is never an alias. -/
  base : TypeId
  /-- The levels around the base type, outermost first. -/
  modifiers : List Modifier
  optional : Bool
  isOutput : Bool
  /-- The width in bits. -/
  bits : Option Nat
  /-- The values the member may have. -/
  values : List String
  deriving DecidableEq, Repr, Inhabited

namespace Member

/-- The outermost level. -/
def outermost? (m : Member) : Option Modifier :=
  m.modifiers.head?

/-- The member is a plain value. -/
def isValue (m : Member) : Bool :=
  m.modifiers.isEmpty

/-- The outermost level is written with a star. -/
def isPointer (m : Member) : Bool :=
  m.outermost?.any Modifier.isPointer

/-- The member is the head of a chain. -/
def isChainPointer (m : Member) : Bool :=
  match m.outermost? with
  | some (.chainPointer _) => true
  | _ => false

/-- The length of the outermost level, if that is an array behind a pointer. -/
def length? (m : Member) : Option LengthExpr :=
  match m.outermost? with
  | some (.dynamicArray length _) => some length
  | _ => none

/-- For a single pointer or array behind a pointer: whether it leads to constant data. -/
def singleIndirection? (m : Member) : Option Bool :=
  match m.modifiers with
  | [.pointer c] => some c
  | [.dynamicArray _ c] => some c
  | _ => none

end Member

end VulkanRegistry
