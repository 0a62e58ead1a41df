/-
Lengths of arrays.

The length of an array behind a pointer is an expression over the fields around it.  Only
the names in it matter: an expression is kept as a sequence of verbatim text, paths to
fields and names of constants, and written out again from that.  A path starts at a
sibling and steps on into what it points at (`->`) or into the elements of an array
(`[].`).
-/
namespace VulkanRegistry

/-- How a path gets from a field to a field of what it refers to. -/
inductive PathStep
  | pointee
  | element
  deriving DecidableEq, Repr, Inhabited

/-- How a step is written. -/
def PathStep.sign : PathStep → String
  | .pointee => "->"
  | .element => "[]."

/-- A sibling field, and the steps on from there. -/
structure FieldPath where
  head : String
  steps : List (PathStep × String)
  deriving DecidableEq, Repr, Inhabited

/-- A path as it is written. -/
def FieldPath.toString (path : FieldPath) : String :=
  path.head ++ String.join (path.steps.map fun (step, name) => step.sign ++ name)

/-- A part of a length. -/
inductive LengthToken
  /-- Operators, numbers and blanks, verbatim. -/
  | text (text : String)
  /-- A field; `deref` says that it is a pointer to the number. -/
  | field (path : FieldPath) (deref : Bool)
  | constant (name : String)
  deriving DecidableEq, Repr, Inhabited

/-- A length: how it is written, and its parts. -/
structure LengthExpr where
  source : String
  tokens : List LengthToken
  deriving DecidableEq, Repr, Inhabited

namespace LengthExpr

/-- The sibling that is the whole length, if it is one. -/
def sibling? (length : LengthExpr) : Option String :=
  match length.tokens with
  | [.field ⟨head, []⟩ _] => some head
  | _ => none

/-- The path of a part that is a field. -/
def fieldPath? : LengthToken → Option FieldPath
  | .field path _ => some path
  | _ => none

/-- The fields that a length reads. -/
def fields (length : LengthExpr) : List FieldPath :=
  length.tokens.filterMap fieldPath?

/-- Writes a part.  With an object the fields are read from it, otherwise they are variables. -/
def renderToken (object : Option String) : LengthToken → String
  | .text text => text
  | .constant name => name
  | .field path deref =>
      (if deref then "*" else "") ++ (object.elim "" (· ++ ".")) ++ path.toString

/-- Writes a length as an expression of C. -/
def render (length : LengthExpr) (object : Option String) : String :=
  String.join (length.tokens.map (renderToken object))

end LengthExpr

end VulkanRegistry
