/-
Reading members and parameters.

The levels of a member are its extents in textual order, and then its stars from the
outermost to the innermost.  The list of lengths runs along the stars in that same order:
a star with a length is an array, and the marker `null-terminated` turns its level and all
levels inside it into the built-in text type.  A lone `void*` called `pNext` without a
length is the head of a chain.

A member is optional if its list of flags starts with `true`; a parameter is also
optional if it is only an output.
-/
import VulkanRegistry.Declarator
import VulkanRegistry.Member.LengthReading

namespace VulkanRegistry

namespace Member

/-- The length that marks text. -/
def textLength : String := "null-terminated"

/-- The member that heads a chain. -/
def chainMember : String := "pNext"

/-- The type of what the head of a chain points at. -/
def chainElement : String := "void"

/-- The lengths of the pointer levels; those for C win. -/
def lengths (field : FieldDecl) : List String :=
  match field.altlen <|> field.len with
  | some listed => (Text.commaPieces listed).map Text.trimmed
  | none => []

/-- The level of an array extent. -/
def extentLevel (ctx : FieldContext) (referrer : String) (isConst : Bool) (extent : String) :
    Outcome Modifier := do
  let value ← ctx.constants.arrayLength extent referrer
  let constant := if ctx.constants.contains extent then some extent else none
  return .fixedArray ⟨value, constant⟩ isConst

/-- The level of a star without a length; `lone` says that it is the only star. -/
def plainLevel (field : FieldDecl) (lone isConst : Bool) : Modifier :=
  if lone && field.name == chainMember && field.typeName == chainElement then .chainPointer isConst
  else .pointer isConst

/-- The levels of the stars, outermost first, and whether they end in text.  The flags of
the stars are given outermost first. -/
def starLevels (ctx : FieldContext) (field : FieldDecl) (lone : Bool) :
    List Bool → List String → Outcome (List Modifier × Bool)
  | [], _ => .ok ([], false)
  | isConst :: inner, [] => do
      let (levels, isText) ← starLevels ctx field lone inner []
      return (plainLevel field lone isConst :: levels, isText)
  | isConst :: inner, length :: lengths =>
      if length = textLength then .ok ([], true)
      else do
        let read ← LengthExpr.read ctx field.name length
        let (levels, isText) ← starLevels ctx field lone inner lengths
        return (.dynamicArray read isConst :: levels, isText)

/-- Whether a list of flags starts with `true`. -/
def marksOptional (field : FieldDecl) : Bool :=
  match field.optional with
  | none => false
  | some flags => (Text.commaPieces flags).head?.any (Text.trimmed · == "true")

/-- Reads a member or parameter. -/
def ofField (ctx : FieldContext) (field : FieldDecl) : Outcome Member := do
  let referrer := ctx.owner ++ "." ++ field.name
  let declarator ← Declarator.parse field.declarator referrer
  let arrays ← declarator.extents.mapM (extentLevel ctx referrer declarator.constElement)
  let lone := declarator.pointers.length == 1
  let (stars, isText) ← starLevels ctx field lone declarator.pointers.reverse (lengths field)
  let base ← ctx.types.resolve (if isText then TypeTable.stringName else field.typeName) referrer
  let modifiers := arrays ++ stars
  let isOutput := modifiers.head?.any Modifier.isOutput
  return {
    name := field.name
    base, modifiers, isOutput
    optional := marksOptional field || (ctx.kind == .parameter && isOutput)
    bits := declarator.bits
    values := field.values }

/-- Reads all fields of an owner, in order. -/
def ofFields (ctx : FieldContext) (fields : List FieldDecl) : Outcome (List Member) :=
  fields.mapM (ofField ctx)

end Member

end VulkanRegistry
